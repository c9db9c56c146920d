import BlackweLLM.ArenaAliases
import BlackweLLM.CheckpointPool
import Mathlib.Data.List.Sort

/-!
# Persistent prefixes in the scratch row

The prefix caches of `Qwen36Backend` (`runtime/backends/qwen36.py`) with the
fixed arena, the prefix cache and the persistent prefix cache enabled. A
checkpoint's tensors are not modelled, nor are the answers of the speculative
drivers, which are part of a call.
-/

namespace ScratchStore

open Function RaisingState FixedArena CheckpointPool

/-- The keys of the checkpoint pool: `(slot, kv_len)` and `("persistent", hash_value)`. -/
inductive Key (Hash : Type) where
  | rolling (slot kvLen : Nat)
  | persistent (hash : Hash)
  deriving DecidableEq, Repr

def Key.isPersistent {Hash : Type} : Key Hash → Bool
  | .rolling _ _ => false
  | .persistent _ => true

/-- `_PersistentPrefixEntry`. -/
structure Entry (Tok Hash : Type) where
  tokens : List Tok
  kvLen : Nat
  hashValue : Hash
  scratchPageOffsets : List Nat
  finalHidden : Bool
  deriving DecidableEq

structure PrefixHit where
  kvHit : Nat
  stateHit : Nat
  deriving DecidableEq, Repr

def PrefixHit.effective (hit : PrefixHit) : Nat := hit.stateHit

def noHit : PrefixHit := ⟨0, 0⟩

structure Config (Tok Hash : Type) where
  hash : List Tok → Hash
  blockSize : Nat
  checkpointBytes : Nat
  rounds : Nat

inductive StoreError where
  | arena (e : ArenaError)
  | pinned
  | registered
  | unregistered
  | dirty (slot kvLen hit : Nat)
  | nothing (slot : Nat)
  | speculative
  | capacity (slot : Nat)
  | batch
  | rounds
  deriving DecidableEq, Repr

structure Backend (Tok Hash β : Type) where
  arena : Arena β
  committed : Nat → List Tok
  prefixCache : Nat → Option (List Tok × Nat)
  pendingHits : Nat → Option PrefixHit
  cachedHidden : Nat → Bool
  /-- `_checkpoint_len`; the slots of `_checkpoint_tensors` are the same. -/
  checkpointLen : Nat → Option Nat
  checkpointPool : Pool (Key Hash) Hash
  persistent : List (Entry Tok Hash)
  freeScratch : List Nat
  inFlight : Nat → Option (List Tok × Nat)

variable {Tok Hash β : Type} [DecidableEq Tok] [DecidableEq Hash]

abbrev StoreM (Tok Hash β : Type) := EStateM StoreError (Backend Tok Hash β)

def start (g : Geometry) (kv : Nat → Nat → β) (byteBudget : Nat) : Backend Tok Hash β where
  arena := FixedArena.start g kv
  committed := fun _ => []
  prefixCache := fun _ => none
  pendingHits := fun _ => none
  cachedHidden := fun _ => false
  checkpointLen := fun _ => none
  checkpointPool := CheckpointPool.start byteBudget
  persistent := []
  freeScratch := List.range g.pagesPerSlot
  inFlight := fun _ => none

def onArena {α : Type} (x : ArenaM β α) : StoreM Tok Hash β α :=
  zoom (fun s => s.arena) (fun arena s => { s with arena := arena }) .arena x

section Checkpoints

def checkpointKvIsFree (s : Backend Tok Hash β) : Key Hash → Bool
  | .persistent _ => true
  | .rolling slot _ => s.arena.kvLen slot = 0

def dropKvForCheckpoint (s : Backend Tok Hash β) : Key Hash → Backend Tok Hash β
  | .persistent hash =>
    match s.persistent.find? (·.hashValue = hash) with
    | none => s
    | some entry =>
      { s with
        persistent := s.persistent.filter (·.hashValue ≠ hash)
        freeScratch := s.freeScratch ∪ entry.scratchPageOffsets }
  | .rolling slot _ =>
    { s with
      checkpointLen := update s.checkpointLen slot none
      prefixCache := update s.prefixCache slot none }

/-- `RecurrentStatePool.evict` with the backend's callbacks. -/
def evict (key : Key Hash) : StoreM Tok Hash β Unit := do
  let s ← get
  raiseIf (key ∈ s.checkpointPool.pinned ∧ s.checkpointPool.contains key) .pinned
  if s.checkpointPool.contains key then
    let s' := { s with checkpointPool := s.checkpointPool.forget key }
    set (if checkpointKvIsFree s' key then dropKvForCheckpoint s' key else s')
  else pure ()

def unpin (key : Key Hash) : StoreM Tok Hash β Unit :=
  modify fun s => { s with checkpointPool := s.checkpointPool.unpin key }

/-- `evict_for_budget`; what it unpins it also evicts. -/
def evictForBudget (incoming : Nat) (includePinned : Key Hash → Bool) : StoreM Tok Hash β Unit := do
  let s ← get
  forM (s.checkpointPool.victims incoming includePinned) fun key => do
    unpin key
    evict key

def register (key : Key Hash) (info : CheckpointMeta Hash) : StoreM Tok Hash β Unit := do
  let s ← get
  raiseIf (s.checkpointPool.contains key) .registered
  set { s with checkpointPool := s.checkpointPool.register key info }

def touch (key : Key Hash) : StoreM Tok Hash β Unit := do
  let s ← get
  raiseIf (¬s.checkpointPool.contains key) .unregistered
  set { s with checkpointPool := s.checkpointPool.touch key }

def evictCheckpoint (slot : Nat) : StoreM Tok Hash β Unit := do
  let s ← get
  match s.checkpointLen slot with
  | none => pure ()
  | some length =>
    set { s with checkpointLen := update s.checkpointLen slot none }
    evict (.rolling slot length)

def dropPrefixCache (slot : Nat) : StoreM Tok Hash β Unit := do
  modify fun s => { s with prefixCache := update s.prefixCache slot none }
  evictCheckpoint slot

variable (cfg : Config Tok Hash)

/-- `_maybe_checkpoint`, which the fixed arena never forces. -/
def maybeCheckpoint (slot : Nat) : StoreM Tok Hash β Unit := do
  let s ← get
  let kvLen := s.arena.kvLen slot
  if kvLen = 0 ∨ kvLen % cfg.blockSize ≠ 0 ∨ s.checkpointLen slot = some kvLen ∨ (s.committed slot).length < kvLen then
    pure ()
  else
    evictCheckpoint slot
    evictForBudget cfg.checkpointBytes fun _ => false
    let hash := cfg.hash ((s.committed slot).take kvLen)
    let s' ← get
    if (s'.checkpointPool.byHash hash).any Key.isPersistent then pure ()
    else
      register (.rolling slot kvLen) ⟨hash, kvLen, cfg.checkpointBytes⟩
      modify fun s => { s with checkpointLen := update s.checkpointLen slot (some kvLen) }

end Checkpoints

section Store

variable (cfg : Config Tok Hash)

def moveToEnd (entry : Entry Tok Hash) : StoreM Tok Hash β Unit :=
  modify fun s => { s with persistent := s.persistent.filter (·.hashValue ≠ entry.hashValue) ++ [entry] }

/-- Only the scratch row shows the pages of an entry. -/
def unaliased (s : Backend Tok Hash β) (entry : Entry Tok Hash) : Bool :=
  entry.scratchPageOffsets.all fun offset => s.arena.refCnt (s.arena.geometry.scratchPage offset) = 1

/-- The idle aliases of all entries are copied back; `true` where a page was remapped. -/
def detachAliases : StoreM Tok Hash β Bool := do
  let s ← get
  (s.persistent.product (List.range s.arena.geometry.numSlots)).foldlM (fun detached pair => do
    let remapped ← onArena (detachScratchAliases pair.2 pair.1.kvLen pair.1.scratchPageOffsets)
    pure (detached || remapped)) false

def evictPersistentUntil (pages : Nat) : Nat → StoreM Tok Hash β Bool
  | 0 => throw .rounds
  | rounds + 1 => do
    let s ← get
    if pages ≤ s.freeScratch.length then pure true
    else
      match s.persistent.find? (unaliased s) with
      | some entry =>
        unpin (.persistent entry.hashValue)
        evict (.persistent entry.hashValue)
        evictPersistentUntil pages rounds
      | none =>
        if ← detachAliases then evictPersistentUntil pages rounds else pure false

/-- The boundary that `_store_persistent_prefix` publishes, where it can. -/
def storeBoundary (hidden : Bool) (slot : Nat) (s : Backend Tok Hash β) : Option Nat :=
  let kvLen := (s.checkpointLen slot).getD 0
  if hidden ∧ (s.arena.kvLen slot ≠ kvLen ∨ (s.committed slot).length < kvLen + 1) then none
  else if kvLen = 0 ∨ (s.committed slot).length < kvLen then none
  else some kvLen

/-- A prompt that the arena keeps at its own boundary. -/
def extendsPrompt (s : Backend Tok Hash β) (tokens : List Tok) (kvLen : Nat) : Prop :=
  ∃ entry ∈ s.persistent, entry.finalHidden ∧ entry.kvLen < kvLen ∧ tokens.take entry.kvLen = entry.tokens

instance (s : Backend Tok Hash β) (tokens : List Tok) (kvLen : Nat) : Decidable (extendsPrompt s tokens kvLen) :=
  inferInstanceAs (Decidable (∃ entry ∈ s.persistent, _ ∧ _ ∧ _))

/-- `_store_persistent_prefix` as far as `_evict_checkpoint`: the boundary and the pages that it has chosen. -/
def reserveScratch (hidden snapshots : Bool) (slot : Nat) : StoreM Tok Hash β (Option (Nat × List Nat)) := do
  let s ← get
  match storeBoundary hidden slot s with
  | none => pure none
  | some kvLen =>
    let hash := cfg.hash ((s.committed slot).take kvLen)
    match s.persistent.find? (·.hashValue = hash) with
    | some current =>
      touch (.persistent current.hashValue)
      moveToEnd current
      pure none
    | none =>
      if hidden = false ∧ extendsPrompt s (s.committed slot) kvLen then pure none
      else
        let pages := s.arena.geometry.pages kvLen
        if ← evictPersistentUntil pages cfg.rounds then
          let s' ← get
          if snapshots then
            evictCheckpoint slot
            pure (some (kvLen, (s'.freeScratch.insertionSort (· ≤ ·)).take pages))
          else pure none
        else pure none

def publishPrefix (hidden : Bool) (slot kvLen : Nat) (offsets : List Nat) : StoreM Tok Hash β Unit := do
  evictForBudget cfg.checkpointBytes Key.isPersistent
  let s ← get
  if s.checkpointPool.byteBudget < s.checkpointPool.totalBytes + cfg.checkpointBytes then pure ()
  else
    let tokens := (s.committed slot).take kvLen
    onArena (copyPrefixToScratch slot kvLen (offsets.map s.arena.geometry.scratchPage))
    register (.persistent (cfg.hash tokens)) ⟨cfg.hash tokens, kvLen, cfg.checkpointBytes⟩
    modify fun s =>
      { s with
        checkpointPool := s.checkpointPool.pin (.persistent (cfg.hash tokens))
        persistent := s.persistent ++ [⟨tokens, kvLen, cfg.hash tokens, offsets, hidden⟩]
        freeScratch := s.freeScratch.filter (· ∉ offsets) }

/-- `_store_persistent_prefix`; `snapshots` is whether the drivers' snapshots all succeed. -/
def storePersistentPrefix (hidden snapshots : Bool) (slot : Nat) : StoreM Tok Hash β Unit := do
  match ← reserveScratch cfg hidden snapshots slot with
  | none => pure ()
  | some (kvLen, offsets) => publishPrefix cfg hidden slot kvLen offsets

end Store

end ScratchStore
