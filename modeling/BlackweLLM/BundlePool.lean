import BlackweLLM.Ledger
import BlackweLLM.LinkedQueue
import BlackweLLM.RaisingState

/-!
# The page-bundle pool

`QwenPageBundlePool` of `runtime/model/qwen36_kv_arena.py`: reference counts,
the intrusive free queue, the two hash indices and the reservations. A call
that raises leaves the pool as the source leaves it. Python's dictionaries are
association lists, and a missing entry of an index of lists is an empty list.
-/

namespace BundlePool

open Function LinkedQueue RaisingState

variable {Owner : Type} [DecidableEq Owner]

structure BlockKey where
  value : Nat
  numTokens : Nat
  deriving DecidableEq, Repr

structure Config where
  numBundles : Nat
  reserved : Nat
  watermark : Nat
  assertInvariants : Bool
  reserved_pos : 1 ≤ reserved
  reserved_lt : reserved < numBundles

inductive PoolError where
  | exhausted (requested free : Nat)
  | ownerReservation (requested reserved : Nat)
  | reservedCapacity (requested unreserved : Nat)
  | emptyQueue
  | reservedBundle (bundle : Nat)
  | queuedLive (bundle : Nat)
  | outOfRange (bundle : Nat)
  | freedUnhashed (bundle : Nat)
  | notQueued (bundle : Nat)
  | doubleFree (bundle : Nat)
  | freeBundle (bundle : Nat)
  | nullCached
  | keyCount (keys bundles : Nat)
  | duplicateOwner
  | lifecycle
  deriving DecidableEq, Repr

structure Pool (Owner : Type) where
  config : Config
  refCnt : Nat → Nat
  blockHash : Nat → Option BlockKey
  free : Links Nat
  freeLen : Nat
  holders : Nat → List Nat
  bundleHashes : Nat → AList fun _ : Nat => BlockKey
  pendingCow : AList fun _ : Nat => Nat
  reservations : AList fun _ : Owner => Nat
  evictions : List Nat
  /-- Every release of a last reference, kept for the statements only. -/
  releases : List Nat

abbrev PoolM (Owner : Type) := EStateM PoolError (Pool Owner)

def Config.usable (c : Config) : List Nat := List.range' c.reserved (c.numBundles - c.reserved)

def start (c : Config) : Pool Owner where
  config := c
  refCnt := fun _ => 0
  blockHash := fun _ => none
  free := c.usable.foldl Links.append Links.empty
  freeLen := c.usable.length
  holders := fun _ => []
  bundleHashes := fun _ => ∅
  pendingCow := ∅
  reservations := ∅
  evictions := []
  releases := []

section Queue

def freeAppend (id : Nat) (p : Pool Owner) : Pool Owner :=
  { p with free := p.free.append id, freeLen := p.freeLen + 1 }

def freePrepend (id : Nat) (p : Pool Owner) : Pool Owner :=
  { p with free := p.free.prepend id, freeLen := p.freeLen + 1 }

/-- `_free_remove`, for a bundle in the queue. -/
def freeRemove (id : Nat) (p : Pool Owner) : Pool Owner :=
  { p with free := p.free.remove id, freeLen := p.freeLen - 1 }

end Queue

section Index

/-- `_drop_hash`. A key of the reverse index is in the index, so `holders.remove` finds the bundle. -/
def dropHash (id : Nat) (p : Pool Owner) : Pool Owner :=
  { p with
    holders := (p.bundleHashes id).keys.foldl
      (fun holders value => update holders value ((holders value).erase id)) p.holders
    bundleHashes := update p.bundleHashes id ∅
    blockHash := update p.blockHash id none }

def publish (id : Nat) (key : BlockKey) (p : Pool Owner) : Pool Owner :=
  let holders := p.holders key.value
  { p with
    bundleHashes := update p.bundleHashes id ((p.bundleHashes id).insert key.value key)
    holders := update p.holders key.value (if id ∈ holders then holders else holders ++ [id])
    blockHash := update p.blockHash id (some key) }

def fireEviction (id : Nat) (p : Pool Owner) : Pool Owner := { p with evictions := p.evictions ++ [id] }

end Index

section Reservations

def reservedFor (p : Pool Owner) (owner : Owner) : Nat := Ledger.amount p.reservations owner

/-- `sum(self._reservations.values())`. -/
def requestReserved (p : Pool Owner) : Nat := Ledger.total p.reservations

def unreservedFree (p : Pool Owner) : Nat := p.freeLen - requestReserved p - p.config.watermark

def consumeReservation (owner : Owner) (count : Nat) : PoolM Owner Unit := do
  let p ← get
  match p.reservations.lookup owner with
  | none => pure ()
  | some remaining =>
    if count = 0 then pure ()
    else if remaining < count then throw (.ownerReservation count remaining)
    else if remaining - count = 0 then set { p with reservations := p.reservations.erase owner }
    else set { p with reservations := p.reservations.insert owner (remaining - count) }

/-- `_check_admission_fits`: what other owners were promised is not available. -/
def checkAdmissionFits (p : Pool Owner) (required : Nat) (owner : Owner) : Bool :=
  (required : Int) ≤ p.freeLen - Ledger.total (p.reservations.erase owner) - p.config.watermark

def reserve (count : Nat) (owner : Owner) : PoolM Owner Bool := do
  let p ← get
  if owner ∈ p.reservations then throw .duplicateOwner
  else if !checkAdmissionFits p count owner then pure false
  else if count = 0 then pure true
  else
    set { p with reservations := p.reservations.insert owner count }
    pure true

def releaseReservation (owner : Owner) : PoolM Owner Nat := do
  let p ← get
  set { p with reservations := p.reservations.erase owner }
  pure (reservedFor p owner)

end Reservations

section Assertions

def isNull (id : Nat) : Bool := id = 0

def lifecycleHolds (p : Pool Owner) : Bool :=
  (List.range p.config.numBundles).all fun id =>
    if isNull id then decide (p.refCnt id = 0 ∧ p.blockHash id = none)
    else if 0 < p.refCnt id then !p.free.contains id
    else p.free.contains id

def liveUnique (p : Pool Owner) : Nat := (List.range p.config.numBundles).countP fun id => decide (0 < p.refCnt id)

def cachedRef0 (p : Pool Owner) : Nat :=
  (List.range p.config.numBundles).countP fun id => decide (p.refCnt id = 0) && (p.blockHash id).isSome

/-- `INV1`. -/
def accounted (p : Pool Owner) : Bool :=
  let free : Int := p.freeLen - cachedRef0 p
  free + cachedRef0 p + liveUnique p = (p.config.numBundles - p.config.reserved : Int)

def maybeInvariantCheck : PoolM Owner Unit := do
  let p ← get
  raiseIf (p.config.assertInvariants && !(lifecycleHolds p && accounted p)) .lifecycle

end Assertions

section Operations

def popOne : PoolM Owner Nat := do
  let p ← get
  match p.free.popleft with
  | none => throw .emptyQueue
  | some (id, free) =>
    set { p with free := free, freeLen := p.freeLen - 1 }
    raiseIf (id < p.config.reserved) (.reservedBundle id)
    raiseIf (p.refCnt id ≠ 0) (.queuedLive id)
    modify fun p => if (p.blockHash id).isSome then fireEviction id (dropHash id p) else p
    modify fun p => { p with refCnt := update p.refCnt id 1 }
    pure id

def popMany : Nat → PoolM Owner (List Nat)
  | 0 => pure []
  | count + 1 => do
    let id ← popOne
    let ids ← popMany count
    pure (id :: ids)

def allocate (count : Nat) (owner : Owner) : PoolM Owner (List Nat) := do
  let p ← get
  raiseIf (p.freeLen < count) (.exhausted count p.freeLen)
  let ownerReserved := reservedFor p owner
  raiseIf (ownerReserved ≠ 0 ∧ ownerReserved < count) (.ownerReservation count ownerReserved)
  raiseIf (ownerReserved = 0 ∧ unreservedFree p < count) (.reservedCapacity count (unreservedFree p))
  let ids ← popMany count
  consumeReservation owner count
  maybeInvariantCheck
  pure ids

def checkRange (id : Nat) : PoolM Owner Unit := do
  let p ← get
  raiseIf (id < p.config.reserved) (.reservedBundle id)
  raiseIf (p.config.numBundles ≤ id) (.outOfRange id)

/-- One reference more; a cached bundle leaves the queue. -/
def increfOne (id : Nat) : PoolM Owner Unit := do
  checkRange id
  let p ← get
  raiseIf (p.refCnt id = 0 ∧ p.free.contains id ∧ p.blockHash id = none) (.freedUnhashed id)
  raiseIf (p.refCnt id = 0 ∧ !p.free.contains id) (.notQueued id)
  modify fun p => if p.refCnt id = 0 then freeRemove id p else p
  modify fun p => { p with refCnt := update p.refCnt id (p.refCnt id + 1) }

def incref (ids : List Nat) (owner : Owner) : PoolM Owner Unit := do
  forM ids checkRange
  let p ← get
  let revivals := ids.countP fun id => decide (p.refCnt id = 0)
  let ownerReserved := reservedFor p owner
  raiseIf (ownerReserved < revivals ∧ unreservedFree p < revivals - ownerReserved)
    (.reservedCapacity revivals (unreservedFree p))
  forM ids increfOne
  maybeInvariantCheck

/-- Without references a hashed bundle goes to the tail of the queue, another one to its head. -/
def release (id : Nat) (p : Pool Owner) : Pool Owner :=
  let p := { p with releases := p.releases ++ [id] }
  if (p.blockHash id).isSome then freeAppend id p else freePrepend id p

def decrefOne (id : Nat) : PoolM Owner Unit := do
  checkRange id
  let p ← get
  raiseIf (p.refCnt id = 0) (.doubleFree id)
  modify fun p => { p with refCnt := update p.refCnt id (p.refCnt id - 1) }
  modify fun p => if p.refCnt id = 0 then release id p else p

def decref (ids : List Nat) : PoolM Owner Unit := do
  forM ids decrefOne
  maybeInvariantCheck

def ensureWritable (id : Nat) (owner : Owner) : PoolM Owner Nat := do
  let p ← get
  raiseIf (id < p.config.reserved) (.reservedBundle id)
  raiseIf (p.config.numBundles ≤ id) (.outOfRange id)
  if p.refCnt id = 1 ∧ !isNull id ∧ p.blockHash id = none then pure id
  else do
    raiseIf (p.refCnt id = 0) (.freeBundle id)
    let fresh ← allocate 1 owner
    let target := fresh.headD 0
    modify fun p => { p with pendingCow := p.pendingCow.insert target id }
    pure target

/-- The checks of `publish_full_block`, and the publication. -/
def publishOne (key : BlockKey) (id : Nat) : PoolM Owner Unit := do
  let p ← get
  raiseIf (p.config.numBundles ≤ id) (.outOfRange id)
  raiseIf (isNull id) .nullCached
  raiseIf (id < p.config.reserved) (.reservedBundle id)
  raiseIf (p.refCnt id < 1) (.freeBundle id)
  modify (publish id key)

def publishFullBlock (id : Nat) (key : BlockKey) : PoolM Owner Unit := do
  publishOne key id
  maybeInvariantCheck

def cacheFullBlocks (keys : List BlockKey) (ids : List Nat) : PoolM Owner Unit := do
  raiseIf (keys.length ≠ ids.length) (.keyCount keys.length ids.length)
  forM (keys.zip ids) fun entry => publishOne entry.1 entry.2
  maybeInvariantCheck

structure PrefixHit where
  numBlocks : Nat
  effectiveTokens : Nat
  bundleIds : List Nat
  hit : Bool
  deriving DecidableEq, Repr

/-- The holders of the keys up to the first key that nobody holds. -/
def resolve (p : Pool Owner) : List BlockKey → List Nat
  | [] => []
  | key :: keys =>
    match p.holders key.value with
    | [] => []
    | id :: _ => id :: resolve p keys

def lookupLongestPrefix (p : Pool Owner) (keys : List BlockKey) (maxBlocks : Option Nat) : PrefixHit :=
  let ids := resolve p (keys.take (maxBlocks.getD keys.length))
  if ids = [] then ⟨0, 0, [], false⟩
  else ⟨ids.length, (keys[ids.length - 1]?.map (·.numTokens)).getD 0, ids, true⟩

/-- One candidate of `evict_cached`. -/
def evictOne (id : Nat) : PoolM Owner Unit := do
  modify fun p => if p.free.contains id then freeRemove id p else p
  modify fun p => freePrepend id (fireEviction id (dropHash id p))

def evictCached (count : Nat) : PoolM Owner Nat := do
  let p ← get
  let candidates := (List.range p.config.numBundles).filter fun id =>
    decide (p.refCnt id = 0) && (p.blockHash id).isSome
  forM (candidates.take count) evictOne
  maybeInvariantCheck
  pure (candidates.take count).length

/-- `drain_pending_cow`, whose pairs no caller uses. -/
def drainPendingCow : PoolM Owner Unit := modify fun p => { p with pendingCow := ∅ }

end Operations

end BundlePool
