import BlackweLLM.SlotPool

/-!
# Chunked prefill

`prefill_chunked_begin` and `prefill_chunked_step` of `runtime/backends/qwen36.py`
over the slot pool. A request comes with the length of its prefix hit, which is
already restored in its slot, and with the entries of the positions behind it.
The draft heads and what a commit keeps for later requests are left out.
-/

namespace ChunkedPrefill

open SlotPool RaisingState

variable {β : Type}

structure Request (β : Type) where
  slot : Nat
  hit : Nat
  suffix : List β
  /-- A stored hidden row of the whole prompt waits in `_pending_cached_hidden`. -/
  cached : Bool

def Request.promptLen (r : Request β) : Nat := r.hit + r.suffix.length

/-- The hidden row that a first token is sampled from. -/
inductive Anchor where
  | row (position : Nat)
  | stored
  deriving DecidableEq, Repr

inductive PrefillError where
  | pool (e : SlotError)
  | dirtySlot (slot kvLen hit : Nat)
  | nothingToCompute (slot hit : Nat)
  deriving DecidableEq, Repr

/-- `ChunkedPrefillState` and the pool behind it. -/
structure Wave (β : Type) where
  slots : Slots β
  requests : List (Request β)
  chunk : Nat
  upto : Nat
  done : Bool
  result : List (Nat × Anchor)
  /-- The slot and the position of every forwarded row, kept for the statements only. -/
  forwarded : List (Nat × Nat)

abbrev WaveM (β : Type) := EStateM PrefillError (Wave β)

def onPool {α : Type} (x : SlotM β α) : WaveM β α :=
  zoom (·.slots) (fun s w => { w with slots := s }) PrefillError.pool x

/-- The chunk of a wave, from the caller's and the model's own. -/
def chunkOf (chunkSize chunkTokens : Nat) : Nat := min (if 0 < chunkSize then chunkSize else chunkTokens) chunkTokens

def pending (requests : List (Request β)) (start : Nat) : List (Request β) :=
  requests.filter fun r => decide (start < r.suffix.length)

/-- All pending prompts are cold and of one length. -/
def Uniform (requests : List (Request β)) (start : Nat) : Prop :=
  pending requests start ≠ [] ∧ (∀ r ∈ pending requests start, r.promptLen = r.suffix.length) ∧
    ∀ r ∈ pending requests start, ∀ r' ∈ pending requests start, r.suffix.length = r'.suffix.length

instance (requests : List (Request β)) (start : Nat) : Decidable (Uniform requests start) :=
  inferInstanceAs (Decidable (_ ∧ _ ∧ _))

def Request.piece (r : Request β) (start chunk : Nat) : List β := (r.suffix.drop start).take chunk

/-- Rows of `slot` have gone through the model. -/
def record (slot first length : Nat) (w : Wave β) : Wave β :=
  { w with forwarded := w.forwarded ++ (List.range' first length).map fun position => (slot, position) }

/-- The batched forward of a round, and the position where it starts; `none` where the round is serial. -/
def forwardUniform (requests : List (Request β)) (start chunk : Nat) : WaveM β (Option Nat) := do
  let live := pending requests start
  let slots := live.map (·.slot)
  let rows := live.map fun r => r.piece start chunk
  let built ← attempt (onPool (buildPrefillBatch slots rows))
  match built with
  | .error (.pool e) => if e.isValueError then pure none else throw (.pool e)
  | .error e => throw e
  | .ok past =>
    modify fun w => { w with slots := forwardBatch slots rows past w.slots }
    modify fun w => live.foldl (fun w r => record r.slot past (r.piece start chunk).length w) w
    pure (some past)

/-- The forward of one slot on its own, and the position where it starts. -/
def forwardSerial (r : Request β) (start chunk : Nat) : WaveM β Nat := do
  let w ← get
  let first := w.slots.seen r.slot
  onPool (prefillSerial r.slot (r.hit + start) (r.piece start chunk))
  modify (record r.slot first (r.piece start chunk).length)
  pure first

/-- `_commit_prefill`, and the entry of the result. -/
def commit (r : Request β) (anchor : Anchor) (w : Wave β) : Wave β :=
  { w with
    slots := { w.slots with kvLen := Function.update w.slots.kvLen r.slot r.promptLen }
    result := w.result ++ [(r.slot, anchor)] }

/-- One request of a round; `false` leaves the round unfinished. -/
def prefillOne (batched : Option Nat) (start chunk : Nat) (r : Request β) : WaveM β Bool := do
  if r.suffix.length ≤ start then
    if start = 0 ∧ r.cached then modify (commit r .stored)
    pure true
  else
    let first ← match batched with
      | some past => pure past
      | none => forwardSerial r start chunk
    if r.suffix.length ≤ start + chunk then
      modify (commit r (.row (first + (r.piece start chunk).length - 1)))
      pure true
    else pure false

/-- `prefill_chunked_step`; `batching` is whether the model has a `prefill_batch`. -/
def prefillChunkedStep (batching : Bool) : WaveM β Bool := do
  let w ← get
  let batched ← if batching ∧ Uniform w.requests w.upto then forwardUniform w.requests w.upto w.chunk else pure none
  let finished ← w.requests.foldlM (fun finished r => do
    let last ← prefillOne batched w.upto w.chunk r
    pure (finished && last)) true
  modify fun w' => { w' with upto := w.upto + w.chunk, done := finished }
  pure finished

/-- The guards of `prefill_chunked_begin`. -/
def checkRequest (r : Request β) : WaveM β Unit := do
  let w ← get
  raiseIf (w.slots.kvLen r.slot ≠ r.hit) (.dirtySlot r.slot (w.slots.kvLen r.slot) r.hit)
  raiseIf (r.suffix = [] ∧ r.cached = false) (.nothingToCompute r.slot r.hit)

def prefillChunkedBegin (batching : Bool) : WaveM β Bool := do
  let w ← get
  forM w.requests checkRequest
  prefillChunkedStep batching

/-- `prefill_chunked_begin`, and then `rounds` calls of `prefill_chunked_step`. -/
def prefill (batching : Bool) : Nat → WaveM β Bool
  | 0 => prefillChunkedBegin batching
  | rounds + 1 => do
    let _ ← prefill batching rounds
    prefillChunkedStep batching

def wave (s : Slots β) (requests : List (Request β)) (chunk : Nat) : Wave β := ⟨s, requests, chunk, 0, false, [], []⟩

end ChunkedPrefill
