import BlackweLLM.CheckpointIndex
import BlackweLLM.ScratchStore
import BlackweLLM.TokenBytes

/-!
# Rolling prefix hashes

`_rolling_prefix_hash` and `_maybe_checkpoint` of `runtime/backends/qwen36.py`, for one
slot. A longer prefix feeds only its tail to the slot's hasher. Whatever the slot does,
the digest is the one of the whole prefix hashed at once, so that a checkpoint is
registered where a lookup for its prompt looks.
-/

namespace RollingHash

open List TokenBytes CheckpointPool RaisingState
open ScratchStore (Key)

/-- `hashlib.blake2b(digest_size=16)` -/
structure Hasher (State Digest : Type) where
  new : State
  update : State → List UInt8 → State
  hexdigest : State → Digest

/-- `update(a)` and `update(b)` do what `update(a + b)` does. -/
def Hasher.Streams {State Digest : Type} (h : Hasher State Digest) : Prop :=
  ∀ state first second, h.update (h.update state first) second = h.update state (first ++ second)

structure Config where
  enabled : Bool
  blockSize : Nat
  checkpointBytes : Nat

/-- What concerns one slot, with the checkpoint pool that all slots share. -/
structure Slot (State Digest : Type) where
  tokens : List Int
  kvLen : Nat
  hashCtx : Option State
  hashLen : Option Nat
  checkpointLen : Option Nat
  retained : Option (List Int × Nat)
  persistent : List Digest
  pool : Pool (Key Digest) Digest
  checkpointsTaken : Nat

inductive HashError (Digest : Type) where
  | overflow
  | pool (e : PoolError (Key Digest))

abbrev SlotM (State Digest : Type) := EStateM (HashError Digest) (Slot State Digest)

variable {State Digest : Type} [DecidableEq Digest]

def start (byteBudget : Nat) : Slot State Digest :=
  ⟨[], 0, none, none, none, none, [], CheckpointPool.start byteBudget, 0⟩

def returned {ε σ α : Type} : EStateM.Result ε σ α → Option α
  | .ok a _ => some a
  | .error _ _ => none

section Hashes

variable (cfg : Config) (h : Hasher State Digest)

/-- `_prefix_hash`, which packs the tokens into 32 bits each. -/
def prefixHash (tokens : List Int) (length : Nat) : Option Digest :=
  (pack 4 (tokens.take length)).map fun bytes => h.hexdigest (h.update h.new bytes)

/-- The context that takes the tail, with the length behind it. -/
def resume (s : Slot State Digest) (length : Nat) : Option (State × Nat) :=
  match s.hashCtx, s.hashLen with
  | some ctx, some old => if old < length ∧ length - old ≤ cfg.blockSize then some (ctx, old) else none
  | some _, none => none
  | none, _ => none

/-- `_rolling_prefix_hash` of the committed tokens -/
def rollingPrefixHash (length : Nat) : SlotM State Digest Digest := do
  let s ← get
  match resume cfg s length with
  | some (ctx, old) =>
    match pack 4 ((s.tokens.take length).drop old) with
    | none => throw .overflow
    | some delta =>
      set { s with hashCtx := some (h.update ctx delta), hashLen := some length }
      pure (h.hexdigest (h.update ctx delta))
  | none =>
    match pack 4 (s.tokens.take length) with
    | none => throw .overflow
    | some packed =>
      set { s with hashCtx := some (h.update h.new packed), hashLen := some length }
      pure (h.hexdigest (h.update h.new packed))

end Hashes

section Evictions

variable (slot : Nat)

/-- `_checkpoint_kv_is_free`, as far as this slot can tell. -/
def kvIsFree (s : Slot State Digest) : Key Digest → Bool
  | .persistent _ => true
  | .rolling other _ => other = slot ∧ s.kvLen = 0

/-- `_drop_kv_for_checkpoint` where the pool calls it. -/
def hear (s : Slot State Digest) : Told (Key Digest) → Slot State Digest
  | .ask _ => s
  | .drop (.persistent hash) => { s with persistent := s.persistent.filter (· ≠ hash) }
  | .drop (.rolling other _) => if other = slot then { s with checkpointLen := none, retained := none } else s

def evict (key : Key Digest) : SlotM State Digest Unit := do
  let s ← get
  match s.pool.evict (some (kvIsFree slot s)) key with
  | .error e => throw (.pool e)
  | .ok (pool, told) => set (told.foldl (hear slot) { s with pool := pool })

def evictForBudget (incoming : Nat) (includePinned : Option (Key Digest → Bool)) : SlotM State Digest Unit := do
  let s ← get
  match s.pool.evictForBudget (some (kvIsFree slot s)) incoming includePinned with
  | .error e => throw (.pool e)
  | .ok (pool, told) => set (told.foldl (hear slot) { s with pool := pool })

def evictCheckpoint : SlotM State Digest Unit := do
  let s ← get
  match s.checkpointLen with
  | none => pure ()
  | some length =>
    set { s with checkpointLen := none }
    evict slot (.rolling slot length)

def register (key : Key Digest) (info : CheckpointMeta Digest) : SlotM State Digest Unit := do
  let s ← get
  match s.pool.registerKey key info with
  | .error e => throw (.pool e)
  | .ok pool => set { s with pool := pool }

def touch (key : Key Digest) : SlotM State Digest Unit := do
  let s ← get
  match s.pool.touchKey key with
  | .error e => throw (.pool e)
  | .ok pool => set { s with pool := pool }

def dropPrefixCache : SlotM State Digest Unit := do
  modify fun s => { s with retained := none }
  evictCheckpoint slot

end Evictions

section Calls

variable (slot : Nat) (cfg : Config) (h : Hasher State Digest)

def maybeCheckpoint (force : Bool) : SlotM State Digest Unit := do
  let s ← get
  if cfg.enabled = false ∨ s.kvLen = 0 ∨ force = false ∧ s.kvLen % cfg.blockSize ≠ 0 ∨
      s.checkpointLen = some s.kvLen ∨ s.tokens.length < s.kvLen then
    pure ()
  else
    evictCheckpoint slot
    evictForBudget slot cfg.checkpointBytes none
    let hash ← rollingPrefixHash cfg h s.kvLen
    let s' ← get
    if (s'.pool.getByHash hash).any Key.isPersistent then pure ()
    else
      register (.rolling slot s.kvLen) ⟨hash, s.kvLen, cfg.checkpointBytes⟩
      modify fun s' =>
        { s' with checkpointLen := some s.kvLen, checkpointsTaken := s'.checkpointsTaken + 1 }

/-- The end of `_store_persistent_prefix`. -/
def publishPersistent (hash : Digest) (length : Nat) : SlotM State Digest Unit := do
  evictCheckpoint slot
  evictForBudget slot cfg.checkpointBytes (some Key.isPersistent)
  let s ← get
  if s.pool.byteBudget < s.pool.totalBytes + cfg.checkpointBytes then pure ()
  else
    register (.persistent hash) ⟨hash, length, cfg.checkpointBytes⟩
    modify fun s => { s with pool := s.pool.pin (.persistent hash), persistent := s.persistent ++ [hash] }

/-- `_store_persistent_prefix`; `allowed` is what the pages and the drafts say. -/
def storePersistentPrefix (hidden allowed : Bool) : SlotM State Digest Unit := do
  let s ← get
  match s.checkpointLen with
  | none => pure ()
  | some length =>
    if hidden = true ∧ (s.kvLen ≠ length ∨ s.tokens.length - 1 < length) ∨ length = 0 ∨ s.tokens.length < length then
      pure ()
    else
      match prefixHash h s.tokens length with
      | none => throw .overflow
      | some hash =>
        if hash ∈ s.persistent then touch (.persistent hash)
        else if allowed then publishPersistent slot cfg hash length
        else pure ()

/-- The part of `_apply_prefix_hit` that restores the slot's own checkpoint. -/
def restoreOwn (prompt : List Int) : SlotM State Digest Unit := do
  let s ← get
  match s.checkpointLen with
  | none => pure ()
  | some length =>
    if prompt.length ≤ length then pure ()
    else
      match prefixHash h prompt length with
      | none => throw .overflow
      | some hash =>
        if s.pool.getByHash hash ≠ some (.rolling slot length) then pure ()
        else
          modify fun s => { s with kvLen := length }
          touch (.rolling slot length)

/-- The part that restores another prefix, a persistent one where `hash` names it. -/
def restoreOther (length : Nat) (hash : Option Digest) : SlotM State Digest Unit := do
  dropPrefixCache slot
  modify fun s => { s with kvLen := length }
  match hash with
  | none => pure ()
  | some hash => touch (.persistent hash)

/-- `reset_slot`; the dynamic arena publishes the pages and stores no prefix. -/
def resetSlot (dynamicArena allowed : Bool) : SlotM State Digest Unit := do
  modify fun s => { s with hashCtx := none, hashLen := none }
  let s ← get
  if s.tokens ≠ [] ∧ 0 < s.kvLen then
    set { s with retained := some (s.tokens, s.kvLen) }
    if dynamicArena = false then storePersistentPrefix slot cfg h false allowed
  modify fun s => { s with tokens := [], kvLen := 0 }

/-- What a slot goes through. -/
inductive Op (Digest : Type) where
  | commitPrefill (prompt : List Int) (firstToken : Int) (force : Bool)
  /-- A decode or a verify, which commits tokens and moves the length. -/
  | extend (committed : List Int) (kvLen : Nat)
  | checkpoint (force : Bool)
  | storePersistentPrefix (hidden allowed : Bool)
  | restoreOwn (prompt : List Int)
  | restoreOther (length : Nat) (hash : Option Digest)
  | dropPrefixCache
  | resetSlot (dynamicArena allowed : Bool)
  /-- Whatever the other slots do to what is shared. -/
  | others (pool : Pool (Key Digest) Digest) (persistent : List Digest) (dropped : Bool)

def call : Op Digest → SlotM State Digest Unit
  | .commitPrefill prompt firstToken force => do
    modify fun s => { s with hashCtx := none, hashLen := none, kvLen := prompt.length, tokens := prompt ++ [firstToken] }
    maybeCheckpoint slot cfg h force
  | .extend committed kvLen => do
    modify fun s => { s with tokens := s.tokens ++ committed, kvLen := kvLen }
    maybeCheckpoint slot cfg h false
  | .checkpoint force => maybeCheckpoint slot cfg h force
  | .storePersistentPrefix hidden allowed => storePersistentPrefix slot cfg h hidden allowed
  | .restoreOwn prompt => restoreOwn slot h prompt
  | .restoreOther length hash => restoreOther slot length hash
  | .dropPrefixCache => dropPrefixCache slot
  | .resetSlot dynamicArena allowed => resetSlot slot cfg h dynamicArena allowed
  | .others pool persistent dropped =>
    modify fun s =>
      { s with
        pool := pool
        persistent := persistent
        checkpointLen := if dropped then none else s.checkpointLen
        retained := if dropped then none else s.retained }

def after (s : Slot State Digest) (op : Op Digest) : Slot State Digest := endState (call slot cfg h op s)

def run (byteBudget : Nat) (ops : List (Op Digest)) : Slot State Digest :=
  ops.foldl (after slot cfg h) (start byteBudget)

end Calls

variable {slot : Nat} {cfg : Config} {h : Hasher State Digest} {s s' s₁ : Slot State Digest}

section Streaming

/-- The context holds what it was fed: the tokens up to its length. -/
def Fed (h : Hasher State Digest) (s : Slot State Digest) : Prop :=
  ∀ ctx old, s.hashCtx = some ctx → s.hashLen = some old →
    old ≤ s.tokens.length ∧ ∃ bytes, pack 4 (s.tokens.take old) = some bytes ∧ ctx = h.update h.new bytes

/-- What the checkpoint pool does leaves the tokens and their hasher alone. -/
structure Kept (s s' : Slot State Digest) : Prop where
  tokens : s'.tokens = s.tokens
  hashCtx : s'.hashCtx = s.hashCtx
  hashLen : s'.hashLen = s.hashLen
  checkpointsTaken : s'.checkpointsTaken = s.checkpointsTaken

section

omit [DecidableEq Digest]

theorem Kept.refl (s : Slot State Digest) : Kept s s := ⟨rfl, rfl, rfl, rfl⟩

theorem Kept.trans (hkept : Kept s s₁) (hkept' : Kept s₁ s') : Kept s s' :=
  ⟨hkept'.tokens.trans hkept.tokens, hkept'.hashCtx.trans hkept.hashCtx, hkept'.hashLen.trans hkept.hashLen,
    hkept'.checkpointsTaken.trans hkept.checkpointsTaken⟩

theorem Kept.behind (hkept : Kept s₁ s') (htokens : s₁.tokens = s.tokens) (hctx : s₁.hashCtx = s.hashCtx)
    (hlen : s₁.hashLen = s.hashLen) (htaken : s₁.checkpointsTaken = s.checkpointsTaken) : Kept s s' :=
  Kept.trans ⟨htokens, hctx, hlen, htaken⟩ hkept

theorem Fed.kept (hfed : Fed h s) (hkept : Kept s s') : Fed h s' := by
  intro ctx old hctx hlen
  rw [hkept.tokens]
  exact hfed ctx old (hkept.hashCtx ▸ hctx) (hkept.hashLen ▸ hlen)

theorem Fed.of_none (hctx : s.hashCtx = none) : Fed h s := by
  intro ctx old hsome
  rw [hctx] at hsome
  cases hsome

theorem Fed.append (hfed : Fed h s) (committed : List Int) (kvLen : Nat) :
    Fed h { s with tokens := s.tokens ++ committed, kvLen := kvLen } := by
  intro ctx old hctx hlen
  obtain ⟨hle, bytes, hbytes, hstate⟩ := hfed ctx old hctx hlen
  refine ⟨hle.trans (by simp), bytes, ?_, hstate⟩
  rwa [take_append_of_le_length hle]

end

theorem kept_hear (told : List (Told (Key Digest))) (s : Slot State Digest) : Kept s (told.foldl (hear slot) s) := by
  induction told generalizing s with
  | nil => exact Kept.refl s
  | cons first told ih =>
    have hfirst : Kept s (hear slot s first) := by
      cases first with
      | ask key => exact Kept.refl s
      | drop key =>
        cases key with
        | persistent hash => exact ⟨rfl, rfl, rfl, rfl⟩
        | rolling other n =>
          rw [hear]
          split_ifs
          · exact ⟨rfl, rfl, rfl, rfl⟩
          · exact Kept.refl s
    exact hfirst.trans (ih _)

theorem evict_kept (slot : Nat) (key : Key Digest) (s : Slot State Digest) :
    Ends (fun _ => Kept s) (Kept s) (evict slot key s) := by
  rw [evict]
  apply ends_get_bind
  cases s.pool.evict (some (kvIsFree slot s)) key with
  | error e => exact Kept.refl s
  | ok result => exact (kept_hear result.2 { s with pool := result.1 }).behind rfl rfl rfl rfl

theorem evictForBudget_kept (slot incoming : Nat) (includePinned : Option (Key Digest → Bool)) (s : Slot State Digest) :
    Ends (fun _ => Kept s) (Kept s) (evictForBudget slot incoming includePinned s) := by
  rw [evictForBudget]
  apply ends_get_bind
  cases s.pool.evictForBudget (some (kvIsFree slot s)) incoming includePinned with
  | error e => exact Kept.refl s
  | ok result => exact (kept_hear result.2 { s with pool := result.1 }).behind rfl rfl rfl rfl

theorem evictCheckpoint_kept (slot : Nat) (s : Slot State Digest) :
    Ends (fun _ => Kept s) (Kept s) (evictCheckpoint slot s) := by
  rw [evictCheckpoint]
  apply ends_get_bind
  cases s.checkpointLen with
  | none => exact Kept.refl s
  | some length =>
    apply ends_set_bind
    exact (evict_kept slot _ _).mono (fun _ _ hkept => hkept.behind rfl rfl rfl rfl)
      fun _ hkept => hkept.behind rfl rfl rfl rfl

theorem register_ends (key : Key Digest) (info : CheckpointMeta Digest) (s : Slot State Digest) :
    Ends (fun _ s' => ¬s.pool.contains key ∧ s' = { s with pool := s.pool.register key info }) (· = s)
      (register key info s) := by
  rw [register]
  apply ends_get_bind
  by_cases hkey : s.pool.contains key
  · rw [show s.pool.registerKey key info = .error (.alreadyRegistered key) from if_pos hkey]
    exact rfl
  · rw [show s.pool.registerKey key info = .ok (s.pool.register key info) from if_neg hkey]
    exact ⟨hkey, rfl⟩

theorem register_kept (key : Key Digest) (info : CheckpointMeta Digest) (s : Slot State Digest) :
    Ends (fun _ => Kept s) (Kept s) (register key info s) := by
  apply (register_ends key info s).mono
  · rintro _ _ ⟨-, rfl⟩
    exact ⟨rfl, rfl, rfl, rfl⟩
  · rintro _ rfl
    exact Kept.refl _

theorem touch_kept (key : Key Digest) (s : Slot State Digest) : Ends (fun _ => Kept s) (Kept s) (touch key s) := by
  rw [touch]
  apply ends_get_bind
  cases s.pool.touchKey key with
  | error e => exact Kept.refl s
  | ok pool => exact ⟨rfl, rfl, rfl, rfl⟩

theorem dropPrefixCache_kept (slot : Nat) (s : Slot State Digest) :
    Ends (fun _ => Kept s) (Kept s) (dropPrefixCache slot s) := by
  rw [dropPrefixCache]
  exact (evictCheckpoint_kept slot { s with retained := none }).mono
    (fun _ _ hkept => hkept.behind rfl rfl rfl rfl) fun _ hkept => hkept.behind rfl rfl rfl rfl

section

omit [DecidableEq Digest]

theorem resume_eq_some {length old : Nat} {ctx : State} (hresume : resume cfg s length = some (ctx, old)) :
    s.hashCtx = some ctx ∧ s.hashLen = some old ∧ old < length := by
  rw [resume] at hresume
  cases hctx : s.hashCtx with
  | none => simp [hctx] at hresume
  | some ctx' =>
    cases hlen : s.hashLen with
    | none => simp [hctx, hlen] at hresume
    | some old' =>
      simp only [hctx, hlen] at hresume
      split_ifs at hresume with hshort
      cases hresume
      exact ⟨rfl, rfl, hshort.1⟩

/-- The rolling hash is the hash of the whole prefix, and it raises where that one does. -/
theorem rollingPrefixHash_eq (hstreams : h.Streams) (hfed : Fed h s) (cfg : Config) (length : Nat) :
    rollingPrefixHash cfg h length s =
      match pack 4 (s.tokens.take length) with
      | none => .error .overflow s
      | some packed =>
        .ok (h.hexdigest (h.update h.new packed))
          { s with hashCtx := some (h.update h.new packed), hashLen := some length } := by
  have hget (f : Slot State Digest → SlotM State Digest Digest) : (get >>= f) s = f s s := rfl
  rw [rollingPrefixHash, hget]
  cases hresume : resume cfg s length with
  | none => cases pack 4 (s.tokens.take length) <;> rfl
  | some found =>
    obtain ⟨ctx, old⟩ := found
    dsimp only
    obtain ⟨hctx, hlen, hlt⟩ := resume_eq_some hresume
    obtain ⟨-, bytes, hbytes, rfl⟩ := hfed ctx old hctx hlen
    have hsplit : s.tokens.take length = s.tokens.take old ++ (s.tokens.take length).drop old := by
      have happend := take_append_drop old (s.tokens.take length)
      rwa [take_take, min_eq_left hlt.le, eq_comm] at happend
    -- The tail packs exactly when the whole prefix does.
    cases hdelta : pack 4 ((s.tokens.take length).drop old) with
    | none =>
      have hnone : pack 4 (s.tokens.take length) = none := by
        rw [Option.eq_none_iff_forall_ne_some]
        intro packed hpacked
        rw [hsplit, pack_append, hdelta] at hpacked
        obtain ⟨-, -, -, ⟨⟩, -⟩ := hpacked
      rw [hnone]
      rfl
    | some delta =>
      have hpacked : pack 4 (s.tokens.take length) = some (bytes ++ delta) := by
        rw [hsplit, pack_append]
        exact ⟨bytes, delta, hbytes, hdelta, rfl⟩
      rw [hpacked]
      dsimp only
      rw [← hstreams]
      rfl

theorem rollingPrefixHash_ends (hstreams : h.Streams) (hfed : Fed h s) (cfg : Config) {length : Nat}
    (hlength : length ≤ s.tokens.length) :
    Ends (fun hash s' => prefixHash h s.tokens length = some hash ∧ Fed h s' ∧
      ∃ ctx, s' = { s with hashCtx := some ctx, hashLen := some length }) (· = s)
      (rollingPrefixHash cfg h length s) := by
  rw [rollingPrefixHash_eq hstreams hfed]
  cases hpacked : pack 4 (s.tokens.take length) with
  | none => exact rfl
  | some packed =>
    refine ⟨by rw [prefixHash, hpacked]; rfl, ?_, _, rfl⟩
    intro ctx old hctx hold
    cases hctx
    cases hold
    exact ⟨hlength, packed, hpacked, rfl⟩

end

def LookupFinds (slot : Nat) (h : Hasher State Digest) (s : Slot State Digest) (n : Nat) (prompt : List Int) : Prop :=
  ∃ hash, prefixHash h prompt n = some hash ∧ s.pool.getByHash hash = some (.rolling slot n)

/-- A checkpoint that a call took is found by every prompt that starts with its tokens. -/
def Taken (slot : Nat) (h : Hasher State Digest) (s s' : Slot State Digest) : Prop :=
  s'.checkpointsTaken = s.checkpointsTaken ∨
    ∃ n, s'.checkpointLen = some n ∧ n ≤ s'.tokens.length ∧
      ∀ prompt : List Int, prompt.take n = s'.tokens.take n → LookupFinds slot h s' n prompt

omit [DecidableEq Digest] in
theorem Kept.taken (hkept : Kept s s') : Taken slot h s s' := .inl hkept.checkpointsTaken

theorem maybeCheckpoint_ends (hstreams : h.Streams) (hfed : Fed h s) (slot : Nat) (cfg : Config) (force : Bool) :
    Ends (fun _ s' => Fed h s' ∧ Taken slot h s s') (fun s' => Fed h s' ∧ Taken slot h s s')
      (maybeCheckpoint slot cfg h force s) := by
  rw [maybeCheckpoint]
  apply ends_get_bind
  split_ifs with hskip
  · exact ⟨hfed, .inl rfl⟩
  · simp only [not_or, not_lt] at hskip
    obtain ⟨-, -, -, -, hlength⟩ := hskip
    have hdone {s' : Slot State Digest} (hkept : Kept s s') : Fed h s' ∧ Taken slot h s s' :=
      ⟨hfed.kept hkept, hkept.taken⟩
    apply ends_bind ((evictCheckpoint_kept slot s).weaken fun _ => hdone)
    intro _ s₁ hfirst
    apply ends_bind ((evictForBudget_kept slot _ none s₁).mono (fun _ _ hkept => hfirst.trans hkept)
      fun _ hkept => hdone (hfirst.trans hkept))
    intro _ s₂ hkept
    have hlength₂ : s.kvLen ≤ s₂.tokens.length := by rwa [hkept.tokens]
    apply ends_bind ((rollingPrefixHash_ends hstreams (hfed.kept hkept) cfg hlength₂).weaken
      fun _ heq => heq ▸ hdone hkept)
    rintro hash _ ⟨hhash, hfed₃, ctx, rfl⟩
    apply ends_get_bind
    split_ifs with hpersistent
    · exact ⟨hfed₃, .inl hkept.checkpointsTaken⟩
    · apply ends_bind ((register_ends _ _ _).weaken fun _ heq =>
        heq ▸ ⟨hfed₃, .inl hkept.checkpointsTaken⟩)
      rintro _ _ ⟨-, rfl⟩
      refine ⟨hfed₃, .inr ⟨s.kvLen, rfl, hlength₂, ?_⟩⟩
      intro prompt hprompt
      refine ⟨hash, ?_, ?_⟩
      · rw [prefixHash, hprompt]
        exact hhash
      · exact (getByHash_register _ _ _).trans (if_pos rfl)

theorem publishPersistent_kept (slot : Nat) (cfg : Config) (hash : Digest) (length : Nat) (s : Slot State Digest) :
    Ends (fun _ => Kept s) (Kept s) (publishPersistent slot cfg hash length s) := by
  rw [publishPersistent]
  apply ends_bind (evictCheckpoint_kept slot s)
  intro _ s₁ hfirst
  apply ends_bind ((evictForBudget_kept slot _ _ s₁).mono (fun _ _ hkept => hfirst.trans hkept)
    fun _ hkept => hfirst.trans hkept)
  intro _ s₂ hkept
  apply ends_get_bind
  split_ifs with hbudget
  · exact hkept
  · apply ends_bind ((register_kept _ _ s₂).mono (fun _ _ hnew => hkept.trans hnew) fun _ hnew => hkept.trans hnew)
    exact fun _ s₃ hdone => hdone.trans ⟨rfl, rfl, rfl, rfl⟩

theorem storePersistentPrefix_kept (slot : Nat) (cfg : Config) (h : Hasher State Digest) (hidden allowed : Bool)
    (s : Slot State Digest) :
    Ends (fun _ => Kept s) (Kept s) (storePersistentPrefix slot cfg h hidden allowed s) := by
  rw [storePersistentPrefix]
  apply ends_get_bind
  cases s.checkpointLen with
  | none => exact Kept.refl s
  | some length =>
    dsimp only
    split
    · exact Kept.refl s
    · cases prefixHash h s.tokens length with
      | none => exact Kept.refl s
      | some hash =>
        dsimp only
        split
        · exact touch_kept _ s
        · split
          · exact publishPersistent_kept slot cfg hash length s
          · exact Kept.refl s

theorem restoreOwn_kept (slot : Nat) (h : Hasher State Digest) (prompt : List Int) (s : Slot State Digest) :
    Ends (fun _ => Kept s) (Kept s) (restoreOwn slot h prompt s) := by
  rw [restoreOwn]
  apply ends_get_bind
  cases s.checkpointLen with
  | none => exact Kept.refl s
  | some length =>
    dsimp only
    split
    · exact Kept.refl s
    · cases prefixHash h prompt length with
      | none => exact Kept.refl s
      | some hash =>
        dsimp only
        split
        · exact Kept.refl s
        · exact (touch_kept _ { s with kvLen := length }).mono (fun _ _ hk => hk.behind rfl rfl rfl rfl)
            fun _ hk => hk.behind rfl rfl rfl rfl

theorem restoreOther_kept (slot length : Nat) (hash : Option Digest) (s : Slot State Digest) :
    Ends (fun _ => Kept s) (Kept s) (restoreOther slot length hash s) := by
  rw [restoreOther.eq_def]
  apply ends_bind (dropPrefixCache_kept slot s)
  intro _ s₁ hdropped
  have hmoved : Kept s { s₁ with kvLen := length } := hdropped.trans ⟨rfl, rfl, rfl, rfl⟩
  cases hash with
  | none => exact hmoved
  | some hash => exact (touch_kept _ _).mono (fun _ _ hk => hmoved.trans hk) fun _ hk => hmoved.trans hk

theorem resetSlot_ends (slot : Nat) (cfg : Config) (h : Hasher State Digest) (dynamicArena allowed : Bool)
    (s : Slot State Digest) :
    Ends (fun _ s' => Fed h s' ∧ Taken slot h s s') (fun s' => Fed h s' ∧ Taken slot h s s')
      (resetSlot slot cfg h dynamicArena allowed s) := by
  have hdone {s' : Slot State Digest} (hkept : Kept { s with hashCtx := none, hashLen := none } s') :
      Fed h s' ∧ Taken slot h s s' := ⟨Fed.of_none hkept.hashCtx, .inl hkept.checkpointsTaken⟩
  have hlast {s' : Slot State Digest} (hkept : Kept { s with hashCtx := none, hashLen := none } s') :
      Fed h { s' with tokens := [], kvLen := 0 } ∧ Taken slot h s { s' with tokens := [], kvLen := 0 } :=
    ⟨Fed.of_none hkept.hashCtx, .inl hkept.checkpointsTaken⟩
  rw [resetSlot]
  apply ends_modify_bind
  apply ends_get_bind
  dsimp only
  split
  · apply ends_set_bind
    split
    · have hstore := storePersistentPrefix_kept slot cfg h false allowed
        { s with hashCtx := none, hashLen := none, retained := some (s.tokens, s.kvLen) }
      apply ends_bind (hstore.weaken fun _ hkept => hdone (hkept.behind rfl rfl rfl rfl))
      exact fun _ s' hkept => hlast (hkept.behind rfl rfl rfl rfl)
    · exact hlast ⟨rfl, rfl, rfl, rfl⟩
  · exact hlast (Kept.refl _)

theorem call_ends (hstreams : h.Streams) (hfed : Fed h s) (slot : Nat) (cfg : Config) (op : Op Digest) :
    Ends (fun _ s' => Fed h s' ∧ Taken slot h s s') (fun s' => Fed h s' ∧ Taken slot h s s')
      (call slot cfg h op s) := by
  have hkept {x : SlotM State Digest Unit} (hx : Ends (fun _ => Kept s) (Kept s) (x s)) :
      Ends (fun _ s' => Fed h s' ∧ Taken slot h s s') (fun s' => Fed h s' ∧ Taken slot h s s') (x s) :=
    hx.mono (fun _ _ hk => ⟨hfed.kept hk, hk.taken⟩) fun _ hk => ⟨hfed.kept hk, hk.taken⟩
  cases op with
  | commitPrefill prompt firstToken force =>
    exact maybeCheckpoint_ends hstreams (Fed.of_none (s := { s with
      hashCtx := none, hashLen := none, kvLen := prompt.length, tokens := prompt ++ [firstToken] }) rfl) slot cfg force
  | extend committed kvLen => exact maybeCheckpoint_ends hstreams (hfed.append committed kvLen) slot cfg false
  | checkpoint force => exact maybeCheckpoint_ends hstreams hfed slot cfg force
  | storePersistentPrefix hidden allowed => exact hkept (storePersistentPrefix_kept slot cfg h hidden allowed s)
  | restoreOwn prompt => exact hkept (restoreOwn_kept slot h prompt s)
  | restoreOther length hash => exact hkept (restoreOther_kept slot length hash s)
  | dropPrefixCache => exact hkept (dropPrefixCache_kept slot s)
  | resetSlot dynamicArena allowed => exact resetSlot_ends slot cfg h dynamicArena allowed s
  | others pool persistent dropped => exact ⟨hfed.kept ⟨rfl, rfl, rfl, rfl⟩, .inl rfl⟩

end Streaming

end RollingHash
