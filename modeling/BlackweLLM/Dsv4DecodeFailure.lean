import BlackweLLM.RaisingState
import Mathlib.Data.List.Nodup
import Mathlib.Tactic.Ring

/-!
# A DSV4 decode batch that fails

`decode_batch_sampled` of `runtime/backends/dsv4.py`: a forward advances the device
state of a chunk of slots, and the host's books follow row by row after sampling. Only
the forward stands in the handler that invalidates the chunk. The state of a slot on the
device is named by the tokens it was computed from.
-/

namespace Dsv4DecodeFailure

open List Function RaisingState

def prefixBlockSize : Nat := 256

variable {Token : Type}

/-- A retained prefix, and the tokens that its tensors are of: none where they mix two states. -/
structure Retained (Token : Type) where
  tokens : List Token
  tensors : Option (List Token)

structure Slot (Token : Type) where
  kvLen : Nat
  committed : List Token
  device : Option (List Token)
  retained : Option (Retained Token)
  pending : Option (Nat × Nat)

abbrev State (Token : Type) := Nat → Slot Token

/-- A row of the request: `temperature == 0.0` and the entry of `force_token_ids` are its sampling. -/
structure Row (Token : Type) where
  slot : Nat
  token : Token
  kvLen : Nat
  greedy : Bool
  forced : Option Int

/-- What the backend is built with, and the request's `return_logprobs`. -/
structure Setup where
  numSlots : Nat
  maxSeqLen : Nat
  vocab : Nat
  serialDecode : Bool
  returnLogprobs : Bool

/-- The calls outside: whether they raise, and what they leave or return. -/
structure Env (Token : Type) where
  /-- The forward or graph replay of a chunk; where it raises, the device states it leaves. -/
  forward : List Nat → Option (Nat → Option (List Token))
  sampling : List Nat → Bool
  /-- `_capture_prefix_checkpoint` of a slot; where it raises, whether it had copied tensors. -/
  capture : Nat → Option Bool
  logprobs : Nat → Bool
  next : Nat → Int

namespace Slot

def forwarded (row : Row Token) (sl : Slot Token) : Slot Token :=
  { sl with device := sl.device.map (· ++ [row.token]) }

/-- `_kv_len` and `_committed` after the row. -/
def booked (row : Row Token) (sl : Slot Token) : Slot Token :=
  { sl with kvLen := sl.kvLen + 1, committed := sl.committed ++ [row.token] }

/-- `_capture_prefix_checkpoint`. -/
def published (sl : Slot Token) : Slot Token :=
  { sl with retained := some ⟨sl.committed.take sl.kvLen, sl.device⟩ }

/-- A capture that raised: the tensors are reused in place, the tokens are written last. -/
def torn (copied : Bool) (sl : Slot Token) : Slot Token :=
  { sl with retained := if copied then sl.retained.map fun r => { r with tensors := none } else sl.retained }

def cleared : Slot Token := ⟨0, [], some [], none, none⟩

end Slot

def decodeBatchChunks (count : Nat) : List Nat :=
  replicate (count / 4) 4 ++ replicate (count % 4 / 2) 2 ++ replicate (count % 2) 1

def cut : List Nat → List (Row Token) → List (List (Row Token))
  | [], _ => []
  | size :: sizes, rows => rows.take size :: cut sizes (rows.drop size)

def slotsOf (rows : List (Row Token)) : List Nat := rows.map Row.slot

namespace Setup

variable (d : Setup) (env : Env Token)

def checkRow (s : State Token) (row : Nat × Nat) : Except String Unit :=
  if ¬row.1 < d.numSlots then .error s!"slot {row.1} out of range ({d.numSlots} slots)"
  else if row.2 ≠ (s row.1).kvLen then
    .error (s!"slot {row.1} is at kv_len={(s row.1).kvLen}, caller says {row.2}; " ++
      "the caller must reset_slot first")
  else if ¬row.2 < d.maxSeqLen then
    .error s!"decode position {row.2} out of range for max_seq_len={d.maxSeqLen}"
  else .ok ⟨⟩

/-- The checks before any state is changed. -/
def validate (s : State Token) (slotIds : List Nat) (tokenIds : List Token) (kvLengths : List Nat) (greedy : List Bool)
    (forceTokenIds : Option (List (Option Int))) : Except String (List (Row Token)) :=
  let forced := forceTokenIds.getD (replicate slotIds.length none)
  if ¬(slotIds.length = tokenIds.length ∧ tokenIds.length = kvLengths.length ∧ kvLengths.length = greedy.length) then
    .error "slot_ids/token_ids/kv_lengths/params_list must be equal length"
  else if ¬slotIds.Nodup then .error "one decode batch cannot contain the same slot more than once"
  else if slotIds ≠ [] ∧ forced.length ≠ slotIds.length then
    .error "force_token_ids must match the decode batch length"
  else
    (forM (slotIds.zip kvLengths) (d.checkRow s)).map fun _ =>
      (slotIds.zip (tokenIds.zip (kvLengths.zip (greedy.zip forced)))).map
        fun (slot, token, kvLen, g, f) => ⟨slot, token, kvLen, g, f⟩

def chunks (count : Nat) : List Nat := if d.serialDecode then replicate count 1 else decodeBatchChunks count

def outside (row : Row Token) : Option Int := row.forced.filter fun token => ¬(0 ≤ token ∧ token < d.vocab)

def finishRow (row : Row Token) : EStateM String (State Token) Unit := do
  modify fun s => update s row.slot ((s row.slot).booked row)
  let s ← get
  if (s row.slot).kvLen % prefixBlockSize = 0 then
    match env.capture row.slot with
    | some copied =>
      set (update s row.slot ((s row.slot).torn copied))
      throw "checkpoint capture"
    | none => set (update s row.slot (s row.slot).published)
  raiseIf (d.returnLogprobs = true ∧ env.logprobs row.slot = true) "compute_logprobs"

/-- One chunk: the forward with its handler, the forced tokens, sampling and the rows. -/
def decodeChunk (chunk : List (Row Token)) : EStateM String (State Token) Unit := do
  match env.forward (slotsOf chunk) with
  | some left =>
    modify fun s slot => if slot ∈ slotsOf chunk then { s slot with device := left slot } else s slot
    modify fun s slot => if slot ∈ slotsOf chunk then Slot.cleared else s slot
    throw "forward"
  | none =>
    modify fun s => chunk.foldl (fun s row => update s row.slot ((s row.slot).forwarded row)) s
    match chunk.findSome? d.outside with
    | some token => throw s!"forced token {token} is outside vocabulary size {d.vocab}"
    | none =>
      raiseIf (env.sampling (slotsOf chunk) = true) "sampling"
      forM chunk (d.finishRow env)

/-- `decode_batch_sampled`: the next token of each row. -/
def decodeBatchSampled (slotIds : List Nat) (tokenIds : List Token) (kvLengths : List Nat) (greedy : List Bool)
    (forceTokenIds : Option (List (Option Int))) : EStateM String (State Token) (List Int) := do
  let s ← get
  match d.validate s slotIds tokenIds kvLengths greedy forceTokenIds with
  | .error e => throw e
  | .ok rows =>
    forM (cut (d.chunks rows.length) rows) (d.decodeChunk env)
    return rows.map fun row => row.forced.getD (env.next row.slot)

end Setup

/-- The books describe the device state, and the retained prefix its tensors. -/
structure Described (sl : Slot Token) : Prop where
  kvLen : sl.kvLen = sl.committed.length
  device : sl.device = some sl.committed
  retained : ∀ r, sl.retained = some r → r.tensors = some r.tokens

/-- The row's token was written, and the books say so. -/
structure Advanced (row : Row Token) (before after : Slot Token) : Prop where
  kvLen : after.kvLen = before.kvLen + 1
  committed : after.committed = before.committed ++ [row.token]
  device : after.device = before.device.map (· ++ [row.token])

/-- What may become of a slot of the batch. -/
structure Settled (row : Row Token) (before after : Slot Token) : Prop where
  outcome : after = before ∨ Advanced row before after ∨ after = Slot.cleared
  described : Described after

section Condition

variable (d : Setup) (env : Env Token) (s : State Token)

/-- The row ends a block, so that a checkpoint is captured after it. -/
def Row.Captures (row : Row Token) : Prop := (row.kvLen + 1) % prefixBlockSize = 0

def RowRaises (row : Row Token) : Prop :=
  (row.Captures ∧ env.capture row.slot ≠ none) ∨ (d.returnLogprobs = true ∧ env.logprobs row.slot = true)

/-- The row's capture raises after it began to overwrite a retained prefix. -/
def RowTears (row : Row Token) : Prop :=
  row.Captures ∧ env.capture row.slot = some true ∧ (s row.slot).retained ≠ none

/-- No row but the last raises, and the last tears no retained prefix. -/
def RowsContained : List (Row Token) → Prop
  | [] => True
  | [row] => ¬RowTears env s row
  | row :: rows => ¬RowRaises d env row ∧ RowsContained rows

/-- The chunk fails in its forward, or past it in nothing but the books of its last row. -/
def ChunkContained (chunk : List (Row Token)) : Prop :=
  env.forward (slotsOf chunk) ≠ none ∨
    (chunk.findSome? d.outside = none ∧ ¬env.sampling (slotsOf chunk) = true ∧ RowsContained d env s chunk)

def ChunkRaises (chunk : List (Row Token)) : Prop :=
  env.forward (slotsOf chunk) ≠ none ∨ ∃ row ∈ chunk, RowRaises d env row

def ChunksContained : List (List (Row Token)) → Prop
  | [] => True
  | chunk :: chunks => ChunkContained d env s chunk ∧ (ChunkRaises d env chunk ∨ ChunksContained chunks)

end Condition

section Slots

variable {row : Row Token} {b : Slot Token}

theorem described_cleared : Described (Slot.cleared : Slot Token) := ⟨rfl, rfl, nofun⟩

/-- A slot whose forward ran and whose books did not is not settled. -/
theorem not_settled_forwarded (h : Described b) : ¬Settled row b (b.forwarded row) := by
  intro hsettled
  have hdevice := hsettled.described.device
  simp [Slot.forwarded, h.device] at hdevice

theorem described_booked (row : Row Token) (h : Described b) : Described ((b.forwarded row).booked row) where
  kvLen := by simp [Slot.forwarded, Slot.booked, h.kvLen]
  device := by simp [Slot.forwarded, Slot.booked, h.device]
  retained := h.retained

theorem described_published {sl : Slot Token} (h : Described sl) : Described sl.published where
  kvLen := h.kvLen
  device := h.device
  retained r hr := by
    cases hr
    rw [h.device, h.kvLen, take_length]

theorem advanced_booked : Advanced row b ((b.forwarded row).booked row) := ⟨rfl, rfl, rfl⟩

theorem described_torn_iff {sl : Slot Token} (h : Described sl) (copied : Bool) :
    Described (sl.torn copied) ↔ copied = false ∨ sl.retained = none := by
  cases copied with
  | false => exact ⟨fun _ => .inl rfl, fun _ => ⟨h.kvLen, h.device, h.retained⟩⟩
  | true =>
    cases hretained : sl.retained with
    | none => exact ⟨fun _ => .inr rfl, fun _ => ⟨h.kvLen, h.device, by simp [Slot.torn, hretained]⟩⟩
    | some r =>
      constructor
      · intro hdescribed
        have htensors := hdescribed.retained { r with tensors := none } (by simp [Slot.torn, hretained])
        simp at htensors
      · simp

end Slots

section Rows

variable {d : Setup} {env : Env Token} {before : State Token}
variable {rows : List (Row Token)} {row : Row Token}

theorem raises_of_tears (h : RowTears env before row) : RowRaises d env row :=
  .inl ⟨h.1, by rw [h.2.1]; exact Option.some_ne_none _⟩

/-- The books of one row, from the state that the forward left. -/
theorem finishRow_cases (d : Setup) (env : Env Token) {s : State Token}
    (hrow : s row.slot = (before row.slot).forwarded row) (hdesc : Described (before row.slot))
    (hkv : (before row.slot).kvLen = row.kvLen) :
    ∃ sl, (¬RowRaises d env row → d.finishRow env row s = .ok ⟨⟩ (update s row.slot sl) ∧
        Settled row (before row.slot) sl) ∧
      (RowRaises d env row → (∃ e, d.finishRow env row s = .error e (update s row.slot sl)) ∧
        (Settled row (before row.slot) sl ↔ ¬RowTears env before row)) := by
  have hbooked := described_booked row hdesc
  have hcaptures : ((before row.slot).forwarded row |>.booked row).kvLen % prefixBlockSize = 0 ↔ row.Captures := by
    simp [Slot.booked, Slot.forwarded, Row.Captures, hkv]
  have hretained : ((before row.slot).forwarded row |>.booked row).retained = (before row.slot).retained := rfl
  by_cases hblock : row.Captures
  · cases hcapture : env.capture row.slot with
    | some copied =>
      refine ⟨((before row.slot).forwarded row |>.booked row).torn copied, fun hnot => ?_, fun _ => ⟨?_, ?_⟩⟩
      · exact absurd (.inl ⟨hblock, by rw [hcapture]; exact Option.some_ne_none _⟩) hnot
      · refine ⟨"checkpoint capture", ?_⟩
        simp [Setup.finishRow, bind, EStateM.bind, hrow, hcaptures.mpr hblock, hcapture]
      · constructor
        · intro hsettled htears
          have hor := (described_torn_iff hbooked copied).mp hsettled.described
          rw [hretained] at hor
          obtain rfl | hnone := hor
          · exact Bool.noConfusion (Option.some.inj (hcapture.symm.trans htears.2.1))
          · exact htears.2.2 hnone
        · intro hnot
          refine ⟨.inr (.inl ⟨rfl, rfl, rfl⟩), (described_torn_iff hbooked copied).mpr ?_⟩
          rw [hretained]
          cases copied with
          | false => exact .inl rfl
          | true =>
            refine .inr (by_contra fun hsome => hnot ⟨hblock, hcapture, hsome⟩)
    | none =>
      have hsettled : Settled row (before row.slot) ((before row.slot).forwarded row |>.booked row).published :=
        ⟨.inr (.inl ⟨rfl, rfl, rfl⟩), described_published hbooked⟩
      have hnot : ¬RowTears env before row := fun h => by rw [h.2.1] at hcapture; cases hcapture
      refine ⟨_, fun hraises => ⟨?_, hsettled⟩, fun hraises => ⟨⟨"compute_logprobs", ?_⟩, iff_of_true hsettled hnot⟩⟩
      · have hlog : ¬(d.returnLogprobs = true ∧ env.logprobs row.slot = true) := fun h => hraises (.inr h)
        simp [Setup.finishRow, bind, EStateM.bind, hrow, hcaptures.mpr hblock, hcapture, raiseIf_of_not hlog]
      · have hlog : d.returnLogprobs = true ∧ env.logprobs row.slot = true :=
          hraises.resolve_left fun h => h.2 hcapture
        simp [Setup.finishRow, bind, EStateM.bind, hrow, hcaptures.mpr hblock, hcapture, raiseIf_of hlog]
  · have hblock' := mt hcaptures.mp hblock
    have hsettled : Settled row (before row.slot) ((before row.slot).forwarded row |>.booked row) :=
      ⟨.inr (.inl advanced_booked), hbooked⟩
    have hnot : ¬RowTears env before row := fun h => hblock h.1
    refine ⟨_, fun hraises => ⟨?_, hsettled⟩, fun hraises => ⟨⟨"compute_logprobs", ?_⟩, iff_of_true hsettled hnot⟩⟩
    · have hlog : ¬(d.returnLogprobs = true ∧ env.logprobs row.slot = true) := fun h => hraises (.inr h)
      simp [Setup.finishRow, bind, EStateM.bind, hrow, hblock', raiseIf_of_not hlog]
    · have hlog : d.returnLogprobs = true ∧ env.logprobs row.slot = true :=
        hraises.resolve_left fun h => hblock h.1
      simp [Setup.finishRow, bind, EStateM.bind, hrow, hblock', raiseIf_of hlog]

structure RowsEnd (d : Setup) (env : Env Token) (before s : State Token) (rows : List (Row Token))
    (r : EStateM.Result String (State Token) Unit) : Prop where
  frame : ∀ x ∉ slotsOf rows, endState r x = s x
  settled_iff : (∀ row ∈ rows, Settled row (before row.slot) (endState r row.slot)) ↔ RowsContained d env before rows
  raised_iff : raised r ≠ none ↔ ∃ row ∈ rows, RowRaises d env row

theorem rowsContained_cons (h : ¬RowRaises d env row) :
    RowsContained d env before (row :: rows) ↔ RowsContained d env before rows := by
  cases rows with
  | nil => exact iff_of_true (fun htears => h (raises_of_tears htears)) trivial
  | cons next rows => exact ⟨fun hcons => hcons.2, fun hrest => ⟨h, hrest⟩⟩

theorem rowsContained_of_forall (h : ∀ row ∈ rows, ¬RowRaises d env row) :
    RowsContained d env before rows := by
  induction rows with
  | nil => trivial
  | cons row rows ih =>
    exact (rowsContained_cons (h row (by simp))).mpr (ih fun next hnext => h next (mem_cons_of_mem _ hnext))

theorem finishRows_end (d : Setup) (env : Env Token) {s : State Token}
    (hrows : ∀ row ∈ rows, s row.slot = (before row.slot).forwarded row) (hdesc : ∀ slot, Described (before slot))
    (hkv : ∀ row ∈ rows, (before row.slot).kvLen = row.kvLen) (hnodup : (slotsOf rows).Nodup) :
    RowsEnd d env before s rows (forM rows (d.finishRow env) s) := by
  induction rows generalizing s with
  | nil =>
    constructor
    · exact fun _ _ => rfl
    · exact iff_of_true (by simp) trivial
    · exact iff_of_false (fun h => h rfl) (by simp)
  | cons row rows ih =>
    rw [slotsOf, map_cons, nodup_cons] at hnodup
    obtain ⟨sl, hok, hraise⟩ := finishRow_cases d env (hrows row (by simp)) (hdesc _) (hkv row (by simp))
    have hother : ∀ x ≠ row.slot, update s row.slot sl x = s x := fun x hx => update_of_ne hx _ _
    by_cases hraises : RowRaises d env row
    · obtain ⟨⟨e, hrun⟩, hsettled⟩ := hraise hraises
      have hall : forM (row :: rows) (d.finishRow env) s = .error e (update s row.slot sl) := by
        rw [forM_cons, bind_of_error hrun]
      rw [hall]
      constructor
      · intro x hx
        exact hother x fun heq => hx (by rw [heq, slotsOf, map_cons]; exact mem_cons_self)
      · cases rows with
        | nil => simpa [endState, RowsContained] using hsettled
        | cons next rows =>
          refine iff_of_false (fun h => ?_) fun h => h.1 hraises
          have hne : next.slot ≠ row.slot := fun heq => hnodup.1 (by rw [← heq]; simp)
          have hnext := h next (by simp)
          simp only [endState] at hnext
          rw [hother _ hne, hrows next (by simp)] at hnext
          exact not_settled_forwarded (hdesc _) hnext
      · exact iff_of_true (by simp [raised]) ⟨row, by simp, hraises⟩
    · obtain ⟨hrun, hsettled⟩ := hok hraises
      have hne : ∀ next ∈ rows, next.slot ≠ row.slot := fun next hnext heq =>
        hnodup.1 (heq ▸ mem_map_of_mem hnext)
      have hrest := ih (s := update s row.slot sl)
        (fun next hnext => (hother _ (hne next hnext)).trans (hrows next (mem_cons_of_mem _ hnext)))
        (fun next hnext => hkv next (mem_cons_of_mem _ hnext)) hnodup.2
      have hall : forM (row :: rows) (d.finishRow env) s =
          forM rows (d.finishRow env) (update s row.slot sl) := by
        rw [forM_cons, bind_of_ok hrun]
      have hkeep := hrest.frame row.slot hnodup.1
      rw [update_self] at hkeep
      rw [hall]
      constructor
      · intro x hx
        rw [slotsOf, map_cons, mem_cons, not_or] at hx
        exact (hrest.frame x hx.2).trans (hother x hx.1)
      · rw [rowsContained_cons hraises, ← hrest.settled_iff, forall_mem_cons, hkeep]
        exact and_iff_right hsettled
      · rw [hrest.raised_iff]
        simp [hraises]

end Rows

section Chunks

variable {d : Setup} {env : Env Token} {before : State Token}
variable {chunk : List (Row Token)} {s : State Token}

/-- The forward advances the chunk's slots and no other. -/
theorem foldl_forwarded (hnodup : (slotsOf chunk).Nodup) :
    (∀ row ∈ chunk, chunk.foldl (fun s row => update s row.slot ((s row.slot).forwarded row)) s row.slot =
        (s row.slot).forwarded row) ∧
      ∀ x ∉ slotsOf chunk,
        chunk.foldl (fun s row => update s row.slot ((s row.slot).forwarded row)) s x = s x := by
  induction chunk generalizing s with
  | nil => simp
  | cons first chunk ih =>
    rw [slotsOf, map_cons, nodup_cons] at hnodup
    obtain ⟨hrows, hother⟩ := ih (s := update s first.slot ((s first.slot).forwarded first)) hnodup.2
    constructor
    · intro row hrow
      rw [foldl_cons]
      cases hrow with
      | head => rw [hother first.slot hnodup.1, update_self]
      | tail _ hrow =>
        have hne : row.slot ≠ first.slot := fun heq => hnodup.1 (heq ▸ mem_map_of_mem hrow)
        rw [hrows row hrow, update_of_ne hne]
    · intro x hx
      rw [slotsOf, map_cons, mem_cons, not_or] at hx
      rw [foldl_cons, hother x hx.2, update_of_ne hx.1]

structure ChunkEnd (d : Setup) (env : Env Token) (before s : State Token) (chunk : List (Row Token))
    (r : EStateM.Result String (State Token) Unit) : Prop where
  frame : ∀ x ∉ slotsOf chunk, endState r x = s x
  settled_iff : (∀ row ∈ chunk, Settled row (before row.slot) (endState r row.slot)) ↔ ChunkContained d env before chunk
  returned : raised r = none → ChunkContained d env before chunk ∧ ¬ChunkRaises d env chunk
  raises : raised r ≠ none → ChunkContained d env before chunk → ChunkRaises d env chunk

/-- A chunk stopped after its forward and before its books is not settled. -/
theorem chunkEnd_of_stopped {s s' : State Token} (hchunk : chunk ≠ [])
    (hdesc : ∀ slot, Described (before slot))
    (hrows : ∀ row ∈ chunk, s' row.slot = (before row.slot).forwarded row) (hother : ∀ x ∉ slotsOf chunk, s' x = s x)
    (hnot : ¬ChunkContained d env before chunk) (e : String) : ChunkEnd d env before s chunk (.error e s') where
  frame := hother
  settled_iff := by
    refine iff_of_false (fun h => ?_) hnot
    obtain ⟨row, rows, rfl⟩ := exists_cons_of_ne_nil hchunk
    have hrow := h row (by simp)
    simp only [endState] at hrow
    rw [hrows row (by simp)] at hrow
    exact not_settled_forwarded (hdesc _) hrow
  returned := nofun
  raises _ hcontained := absurd hcontained hnot

theorem decodeChunk_end (d : Setup) (env : Env Token) (hchunk : chunk ≠ [])
    (hs : ∀ row ∈ chunk, s row.slot = before row.slot) (hdesc : ∀ slot, Described (before slot))
    (hkv : ∀ row ∈ chunk, (before row.slot).kvLen = row.kvLen) (hnodup : (slotsOf chunk).Nodup) :
    ChunkEnd d env before s chunk (d.decodeChunk env chunk s) := by
  obtain ⟨hforwarded, hother⟩ := foldl_forwarded (s := s) hnodup
  have hrows : ∀ row ∈ chunk,
      chunk.foldl (fun s row => update s row.slot ((s row.slot).forwarded row)) s row.slot =
        (before row.slot).forwarded row := by
    intro row hrow
    rw [hforwarded row hrow, hs row hrow]
  cases hforward : env.forward (slotsOf chunk) with
  | some left =>
    have hne : env.forward (slotsOf chunk) ≠ none := by rw [hforward]; exact Option.some_ne_none _
    have hrun : d.decodeChunk env chunk s = .error "forward" fun slot =>
        if slot ∈ slotsOf chunk then Slot.cleared
        else if slot ∈ slotsOf chunk then { s slot with device := left slot } else s slot := by
      simp [Setup.decodeChunk, bind, EStateM.bind, hforward]
    rw [hrun]
    constructor
    · intro x hx
      simp [endState, hx]
    · refine iff_of_true (fun row hrow => ?_) (.inl hne)
      have hmem : row.slot ∈ slotsOf chunk := mem_map_of_mem hrow
      simp only [endState, if_pos hmem]
      exact ⟨.inr (.inr rfl), described_cleared⟩
    · exact nofun
    · exact fun _ _ => .inl hne
  | none =>
    cases hforced : chunk.findSome? d.outside with
    | some token =>
      have hrun : d.decodeChunk env chunk s =
          .error s!"forced token {token} is outside vocabulary size {d.vocab}"
            (chunk.foldl (fun s row => update s row.slot ((s row.slot).forwarded row)) s) := by
        simp [Setup.decodeChunk, bind, EStateM.bind, hforward, hforced]
      rw [hrun]
      refine chunkEnd_of_stopped hchunk hdesc hrows hother ?_ _
      rintro (hne | hpast)
      · exact hne hforward
      · rw [hforced] at hpast
        exact Option.some_ne_none _ hpast.1
    | none =>
      by_cases hsampling : env.sampling (slotsOf chunk) = true
      · have hrun : d.decodeChunk env chunk s = .error "sampling"
            (chunk.foldl (fun s row => update s row.slot ((s row.slot).forwarded row)) s) := by
          simp [Setup.decodeChunk, bind, EStateM.bind, hforward, hforced, raiseIf_of hsampling]
        rw [hrun]
        refine chunkEnd_of_stopped hchunk hdesc hrows hother ?_ _
        rintro (hne | hpast)
        · exact hne hforward
        · exact hpast.2.1 hsampling
      · have hrun : d.decodeChunk env chunk s = forM chunk (d.finishRow env)
            (chunk.foldl (fun s row => update s row.slot ((s row.slot).forwarded row)) s) := by
          simp [Setup.decodeChunk, bind, EStateM.bind, hforward, hforced, raiseIf_of_not hsampling]
        have hend := finishRows_end d env hrows hdesc hkv hnodup
        have hraises : ChunkRaises d env chunk ↔ ∃ row ∈ chunk, RowRaises d env row :=
          or_iff_right fun hne => hne hforward
        rw [hrun]
        constructor
        · exact fun x hx => (hend.frame x hx).trans (hother x hx)
        · rw [hend.settled_iff]
          exact ⟨fun h => .inr ⟨hforced, hsampling, h⟩, fun h => (h.resolve_left fun hne => hne hforward).2.2⟩
        · intro h
          have hnone : ¬∃ row ∈ chunk, RowRaises d env row := fun hrow => hend.raised_iff.mpr hrow h
          exact ⟨.inr ⟨hforced, hsampling, rowsContained_of_forall fun row hrow h => hnone ⟨row, hrow, h⟩⟩,
            mt hraises.mp hnone⟩
        · exact fun h _ => hraises.mpr (hend.raised_iff.mp h)

/-- The chunks one after the other, from a state that has their slots untouched. -/
theorem decodeChunks_settled (d : Setup) (env : Env Token) {chunks : List (List (Row Token))}
    (hchunks : ∀ chunk ∈ chunks, chunk ≠ []) (hs : ∀ row ∈ chunks.flatten, s row.slot = before row.slot)
    (hdesc : ∀ slot, Described (before slot)) (hkv : ∀ row ∈ chunks.flatten, (before row.slot).kvLen = row.kvLen)
    (hnodup : (slotsOf chunks.flatten).Nodup) :
    (∀ x ∉ slotsOf chunks.flatten, endState (forM chunks (d.decodeChunk env) s) x = s x) ∧
      ((∀ row ∈ chunks.flatten,
          Settled row (before row.slot) (endState (forM chunks (d.decodeChunk env) s) row.slot)) ↔
        ChunksContained d env before chunks) := by
  induction chunks generalizing s with
  | nil => exact ⟨fun _ _ => rfl, iff_of_true (by simp) trivial⟩
  | cons chunk chunks ih =>
    simp only [flatten_cons, slotsOf, map_append, nodup_append'] at hs hkv hnodup ⊢
    have hend := decodeChunk_end d env (hchunks chunk (by simp))
      (fun row hrow => hs row (mem_append_left _ hrow)) hdesc
      (fun row hrow => hkv row (mem_append_left _ hrow)) hnodup.1
    have hapart : ∀ row ∈ chunks.flatten, row.slot ∉ slotsOf chunk := fun row hrow hmem =>
      hnodup.2.2 hmem (mem_map_of_mem hrow)
    have huntouched : ∀ row ∈ chunks.flatten, endState (d.decodeChunk env chunk s) row.slot = before row.slot :=
      fun row hrow => (hend.frame _ (hapart row hrow)).trans (hs row (mem_append_right _ hrow))
    cases hrun : d.decodeChunk env chunk s with
    | error e s' =>
      have hall : forM (chunk :: chunks) (d.decodeChunk env) s = .error e s' := by
        rw [forM_cons, bind_of_error hrun]
      rw [hrun] at hend huntouched
      rw [hall]
      refine ⟨fun x hx => hend.frame x fun hmem => hx (mem_append_left _ hmem), ?_⟩
      have hchunk := hend.settled_iff
      simp only [endState] at huntouched hchunk ⊢
      have hrest : ∀ row ∈ chunks.flatten, Settled row (before row.slot) (s' row.slot) := by
        intro row hrow
        rw [huntouched row hrow]
        exact ⟨.inl rfl, hdesc _⟩
      rw [forall_mem_append, and_iff_left hrest, hchunk]
      exact ⟨fun h => ⟨h, .inl (hend.raises (by simp [raised]) h)⟩, fun h => h.1⟩
    | ok u s' =>
      have hall : forM (chunk :: chunks) (d.decodeChunk env) s = forM chunks (d.decodeChunk env) s' := by
        rw [forM_cons, bind_of_ok hrun]
      rw [hrun] at hend huntouched
      obtain ⟨hcontained, hreturns⟩ := hend.returned rfl
      simp only [endState] at huntouched
      obtain ⟨hframe, hiff⟩ := ih (fun c hc => hchunks c (mem_cons_of_mem _ hc)) huntouched
        (fun row hrow => hkv row (mem_append_right _ hrow)) hnodup.2.1
      rw [hall]
      constructor
      · intro x hx
        rw [mem_append, not_or] at hx
        exact (hframe x hx.2).trans (hend.frame x hx.1)
      · have hfirst : ∀ row ∈ chunk,
            Settled row (before row.slot) (endState (forM chunks (d.decodeChunk env) s') row.slot) := by
          intro row hrow
          have hmem : row.slot ∈ slotsOf chunk := mem_map_of_mem hrow
          rw [hframe _ fun hlater => hnodup.2.2 hmem hlater]
          exact hend.settled_iff.mpr hcontained row hrow
        rw [forall_mem_append, and_iff_right hfirst, hiff]
        exact ⟨fun h => ⟨hcontained, .inr h⟩, fun h => h.2.resolve_left hreturns⟩

end Chunks

section Cuts

theorem flatten_cut {sizes : List Nat} {rows : List (Row Token)} (h : sizes.sum = rows.length) :
    (cut sizes rows).flatten = rows := by
  induction sizes generalizing rows with
  | nil => exact (length_eq_zero_iff.mp h.symm).symm
  | cons size sizes ih =>
    rw [sum_cons] at h
    rw [cut, flatten_cons, ih (by rw [length_drop]; omega), take_append_drop]

theorem cut_ne_nil {sizes : List Nat} (hpos : ∀ size ∈ sizes, 0 < size) {rows : List (Row Token)}
    (h : sizes.sum ≤ rows.length) : ∀ chunk ∈ cut sizes rows, chunk ≠ [] := by
  induction sizes generalizing rows with
  | nil => simp [cut]
  | cons size sizes ih =>
    rw [sum_cons] at h
    intro chunk hchunk
    cases hchunk with
    | head =>
      have hsize := hpos size (by simp)
      refine ne_nil_of_length_pos ?_
      rw [length_take]
      omega
    | tail _ hchunk =>
      exact ih (fun n hn => hpos n (mem_cons_of_mem _ hn)) (by rw [length_drop]; omega) chunk hchunk

theorem sum_chunks (d : Setup) (count : Nat) : (d.chunks count).sum = count := by
  unfold Setup.chunks
  split
  · simp
  · simp [decodeBatchChunks]
    omega

theorem chunks_pos (d : Setup) (count : Nat) : ∀ size ∈ d.chunks count, 0 < size := by
  intro size hsize
  unfold Setup.chunks at hsize
  split at hsize
  · rw [eq_of_mem_replicate hsize]
    decide
  · simp only [decodeBatchChunks, mem_append, mem_replicate] at hsize
    omega

end Cuts

section Requests

variable {d : Setup} {s : State Token}

theorem kvLen_of_checkRow {row : Nat × Nat} (h : d.checkRow s row = .ok ⟨⟩) : (s row.1).kvLen = row.2 := by
  unfold Setup.checkRow at h
  split at h
  · cases h
  · split at h
    · cases h
    · rename_i heq
      exact (not_not.mp heq).symm

theorem forM_checkRow {rows : List (Nat × Nat)} (h : forM rows (d.checkRow s) = .ok ⟨⟩) :
    ∀ row ∈ rows, (s row.1).kvLen = row.2 := by
  induction rows with
  | nil => simp
  | cons first rows ih =>
    rw [forM_cons] at h
    change (d.checkRow s first).bind _ = _ at h
    cases hfirst : d.checkRow s first with
    | error e => rw [hfirst] at h; cases h
    | ok u =>
      rw [hfirst] at h
      intro row hrow
      cases hrow with
      | head => exact kvLen_of_checkRow hfirst
      | tail _ hrow => exact ih h row hrow

theorem map_fst_zip_sublist {α β : Type} (xs : List α) (ys : List β) : ((xs.zip ys).map Prod.fst).Sublist xs := by
  induction xs generalizing ys with
  | nil => simp
  | cons x xs ih =>
    cases ys with
    | nil => simp
    | cons y ys => exact (ih ys).cons_cons x

/-- The rows of an accepted request: their slots differ, and their positions are those of the slots. -/
theorem validate_ok {slotIds kvLengths : List Nat} {tokenIds : List Token} {greedy : List Bool}
    {force : Option (List (Option Int))} {rows : List (Row Token)}
    (h : d.validate s slotIds tokenIds kvLengths greedy force = .ok rows) :
    (slotsOf rows).Nodup ∧ ∀ row ∈ rows, (s row.slot).kvLen = row.kvLen := by
  unfold Setup.validate at h
  simp only at h
  split at h
  · cases h
  · split at h
    · cases h
    · rename_i hnodup
      split at h
      · cases h
      · cases hchecks : forM (slotIds.zip kvLengths) (d.checkRow s) with
        | error e => rw [hchecks] at h; cases h
        | ok u =>
          rw [hchecks] at h
          cases h
          constructor
          · have hslots := (not_not.mp hnodup).sublist (map_fst_zip_sublist slotIds (tokenIds.zip
              (kvLengths.zip (greedy.zip (force.getD (replicate slotIds.length none))))))
            rw [slotsOf, map_map]
            exact hslots
          · intro row hrow
            obtain ⟨z, hz, rfl⟩ := mem_map.mp hrow
            obtain ⟨i, hi⟩ := mem_iff_getElem?.mp hz
            simp only [getElem?_zip_eq_some] at hi
            exact forM_checkRow hchecks (z.1, z.2.2.1)
              (mem_iff_getElem?.mpr ⟨i, getElem?_zip_eq_some.mpr ⟨hi.1, hi.2.2.1⟩⟩)

def chunksOf (d : Setup) (rows : List (Row Token)) : List (List (Row Token)) := cut (d.chunks rows.length) rows

/-- Every slot of an accepted batch ends untouched, advanced or cleared exactly where every failure past a
forward is that of a chunk's last row and tears no retained prefix. -/
theorem decodeBatch_settled_iff (d : Setup) (env : Env Token) (s : State Token) (hdesc : ∀ slot, Described (s slot))
    (slotIds : List Nat) (tokenIds : List Token) (kvLengths : List Nat) (greedy : List Bool)
    (force : Option (List (Option Int))) :
    match d.validate s slotIds tokenIds kvLengths greedy force with
    | .error _ => endState (d.decodeBatchSampled env slotIds tokenIds kvLengths greedy force s) = s
    | .ok rows =>
      (∀ row ∈ rows, Settled row (s row.slot)
          (endState (d.decodeBatchSampled env slotIds tokenIds kvLengths greedy force s) row.slot)) ↔
        ChunksContained d env s (chunksOf d rows) := by
  cases hvalid : d.validate s slotIds tokenIds kvLengths greedy force with
  | error e => simp [Setup.decodeBatchSampled, bind, EStateM.bind, hvalid, endState]
  | ok rows =>
    obtain ⟨hnodup, hkv⟩ := validate_ok hvalid
    have hsum := sum_chunks d rows.length
    have hflat : (chunksOf d rows).flatten = rows := flatten_cut hsum
    have hend : endState (d.decodeBatchSampled env slotIds tokenIds kvLengths greedy force s) =
        endState (forM (chunksOf d rows) (d.decodeChunk env) s) := by
      simp only [Setup.decodeBatchSampled, bind, EStateM.bind, hvalid, get_apply, chunksOf]
      cases forM (cut (d.chunks rows.length) rows) (d.decodeChunk env) s <;> rfl
    have hne : ∀ chunk ∈ chunksOf d rows, chunk ≠ [] := cut_ne_nil (chunks_pos d _) (Nat.le_of_eq hsum)
    have hall := (decodeChunks_settled d env hne (fun _ _ => rfl) hdesc
      (by rwa [hflat]) (by rwa [hflat])).2
    rw [hflat] at hall
    simp only [hend]
    exact hall

def quietEnv : Env Nat := ⟨fun _ => none, fun _ => false, fun _ => none, fun _ => false, fun _ => 3⟩

def emptySlots : State Nat := fun _ => Slot.cleared

def smallSetup : Setup := ⟨2, 8, 10, false, false⟩

/-- Slots behind two tokens, with a retained prefix of one. -/
def usedSlots : State Nat := fun slot => ⟨2, [slot, 7], some [slot, 7], some ⟨[slot], some [slot]⟩, none⟩

/-- The forward of slot 1 raises, after that of slot 0. -/
theorem decodeBatch_settled_two :
    let d : Setup := { smallSetup with serialDecode := true }
    let env : Env Nat := { quietEnv with forward := fun slots => if 1 ∈ slots then some fun _ => none else none }
    raised (d.decodeBatchSampled env [0, 1] [5, 6] [2, 2] [true, true] none usedSlots) ≠ none ∧
      ∀ row ∈ [(⟨0, 5, 2, true, none⟩ : Row Nat), ⟨1, 6, 2, true, none⟩], Settled row (usedSlots row.slot)
        (endState (d.decodeBatchSampled env [0, 1] [5, 6] [2, 2] [true, true] none usedSlots) row.slot) := by
  intro d env
  have hdesc : ∀ slot, Described (usedSlots slot) := fun _ => ⟨rfl, rfl, fun _ h => Option.some.inj h ▸ rfl⟩
  have hcontained : ChunksContained d env usedSlots [[⟨0, 5, 2, true, none⟩], [⟨1, 6, 2, true, none⟩]] :=
    ⟨.inr ⟨rfl, nofun, fun h => nomatch h.1⟩, .inr ⟨.inl nofun, .inr trivial⟩⟩
  exact ⟨nofun, (decodeBatch_settled_iff d env usedSlots hdesc [0, 1] [5, 6] [2, 2] [true, true] none).mpr hcontained⟩

/-- A forced token outside the vocabulary: the device has the row's token, the books do not. -/
theorem decodeBatch_forced_outside :
    smallSetup.validate emptySlots [0] [5] [0] [true] (some [some 99]) = .ok [⟨0, 5, 0, true, some 99⟩] ∧
      raised (smallSetup.decodeBatchSampled quietEnv [0] [5] [0] [true] (some [some 99]) emptySlots) ≠ none ∧
      ¬Settled ⟨0, 5, 0, true, some 99⟩ (emptySlots 0)
        (endState (smallSetup.decodeBatchSampled quietEnv [0] [5] [0] [true] (some [some 99]) emptySlots) 0) := by
  have hend : endState (smallSetup.decodeBatchSampled quietEnv [0] [5] [0] [true] (some [some 99]) emptySlots) 0 =
      (emptySlots 0).forwarded ⟨0, 5, 0, true, some 99⟩ := rfl
  refine ⟨rfl, nofun, ?_⟩
  rw [hend]
  exact not_settled_forwarded described_cleared

end Requests

end Dsv4DecodeFailure
