import BlackweLLM.LagunaReplay

/-!
# Full prefix hits on a Laguna slot

`generate_verify_only` of `runtime/backends/laguna_dflash.py` on one slot, and
`_ring_prefix_reuse_is_safe`, which decides whether a later full hit may take the rings
as they are. A row is named by the forward that wrote it and the position it wrote it
for.
-/

namespace LagunaFullHit

open List Function LagunaChunks LagunaRing

def numQueryPerReq : Nat := 16

def numSpeculativeTokens : Nat := 15

def draftWindow : Nat := 512

/-- The forwards that write KV rows. -/
inductive Writer where
  | prefill
  | verify
  | context
  | draft
  deriving DecidableEq, Repr

structure Row where
  writer : Writer
  position : Nat
  deriving DecidableEq, Repr

/-- A ring; `none` is a row that was there before the prefill. -/
abbrev Ring := Cells (Option Row)

structure Config where
  target : Geometry
  chunkTokens : Nat

namespace Config

variable (cfg : Config)

/-- The draft's ring: `DRAFT_WINDOW` and `NUM_QUERY_PER_REQ` in the target's block size. -/
def draft : Geometry := ⟨draftWindow, cfg.target.blockSize, by decide, cfg.target.block_pos⟩

def ringSpecs : List (Nat × Nat) := [(cfg.target.ringSlots, cfg.target.window), (cfg.draft.ringSlots, cfg.draft.window)]

/-- The chunks that `prefill_with_aux` forwards. -/
def coldSchedule (promptLen : Nat) : Except RangeError (List (Nat × Nat)) :=
  if promptLen ≤ cfg.chunkTokens then .ok [(0, promptLen)]
  else prefillChunkRanges 0 promptLen cfg.chunkTokens cfg.target.window

end Config

def ringPrefixReuseIsSafe (cachedKvLen prefixLen : Nat) (ringSpecs : List (Nat × Nat)) : Bool :=
  let rewind : Int := cachedKvLen - prefixLen
  if prefixLen = 0 ∨ rewind < 0 then false
  else ringSpecs.all fun spec => decide (rewind ≤ max 0 ((spec.1 : Int) - spec.2))

theorem ringPrefixReuseIsSafe_iff {cachedKvLen prefixLen : Nat} {ringSpecs : List (Nat × Nat)} :
    ringPrefixReuseIsSafe cachedKvLen prefixLen ringSpecs = true ↔
      0 < prefixLen ∧ prefixLen ≤ cachedKvLen ∧ ∀ spec ∈ ringSpecs, cachedKvLen - prefixLen ≤ spec.1 - spec.2 := by
  unfold ringPrefixReuseIsSafe
  by_cases h : prefixLen = 0 ∨ (cachedKvLen : Int) - prefixLen < 0
  · simp only [h, if_true, Bool.false_eq_true, false_iff]
    omega
  · simp only [h, if_false, all_eq_true, decide_eq_true_eq]
    constructor
    · intro hall
      refine ⟨by omega, by omega, fun spec hspec => ?_⟩
      have := hall spec hspec
      omega
    · rintro ⟨-, -, hall⟩ spec hspec
      have := hall spec hspec
      omega

section Forwards

variable (g : Geometry) (slot : Nat)

/-- The rows of `count` positions from `start` on, through the slot mapping of a forward. -/
def writeRows (writer : Writer) (start count : Nat) (ring : Ring) : Ring :=
  scatter ring ((List.range count).map fun i => (g.ringCell slot (start + i), some ⟨writer, start + i⟩))

/-- A prefill chunk: the window in front of it is copied in, and the last window of the scratch is copied out. -/
def prefillChunk (ring : Ring) (range : Nat × Nat) : Ring :=
  let overlap := min g.window range.1
  let total := overlap + (range.2 - range.1)
  let copyCount := min g.window total
  let scratch (i : Nat) : Option Row :=
    if i < overlap then ring (g.ringCell slot (range.1 - overlap + i)) else some ⟨.prefill, range.1 - overlap + i⟩
  scatter ring ((List.range copyCount).map fun i =>
    (g.ringCell slot (range.2 - copyCount + i), scratch (total - copyCount + i)))

/-- `_bulk_precompute_context_kv`, which keeps the last ring of a longer chunk. -/
def bulkPrecomputeContextKv (numPositions positionOffset : Nat) (ring : Ring) : Ring :=
  if g.ringSlots < numPositions then
    writeRows g slot .prefill (positionOffset + (numPositions - g.ringSlots)) g.ringSlots ring
  else writeRows g slot .prefill positionOffset numPositions ring

end Forwards

/-- The two rings of a slot and `slot_kv_len`. -/
structure Rings where
  target : Ring
  draft : Ring
  kvLen : Nat

section Generate

variable (cfg : Config) (slot : Nat)

/-- The cold prefill over its chunks; the draft's context comes from the last of them. -/
def prefill (ranges : List (Nat × Nat)) (promptLen : Nat) : Rings where
  target := ranges.foldl (prefillChunk cfg.target slot) fun _ => none
  draft :=
    match ranges.getLast? with
    | none => fun _ => none
    | some range => bulkPrecomputeContextKv cfg.draft slot (range.2 - range.1)
      (promptLen - (range.2 - range.1)) fun _ => none
  kvLen := promptLen

/-- `_draft_forward`: the bonus token and the masks behind it. -/
def draftForward (r : Rings) : Rings :=
  { r with draft := writeRows cfg.draft slot .draft r.kvLen numQueryPerReq r.draft }

/-- A round up to its commit, with `accepted` of the draft's tokens accepted. -/
def verifyRound (accepted : Nat) (r : Rings) : Rings where
  target := writeRows cfg.target slot .verify r.kvLen numQueryPerReq r.target
  draft := writeRows cfg.draft slot .context r.kvLen (1 + accepted) r.draft
  kvLen := r.kvLen + (1 + accepted)

/-- The rounds by what each accepts. An EOS ends the last one before its draft forward. -/
def rounds : List Nat → Bool → Rings → Rings
  | [], _, r => r
  | [accepted], true, r => verifyRound cfg slot accepted r
  | accepted :: rest, eos, r => rounds rest eos (draftForward cfg slot (verifyRound cfg slot accepted r))

def generateVerifyOnly (ranges : List (Nat × Nat)) (promptLen : Nat) (accepted : List Nat) (eos : Bool) : Rings :=
  rounds cfg slot accepted eos (draftForward cfg slot (prefill cfg slot ranges promptLen))

end Generate

/-- The query at `prefixLen - 1` finds the prefill's row at each position of the prompt in its window. -/
def Retains (g : Geometry) (slot : Nat) (ring : Ring) (promptLen prefixLen : Nat) : Prop :=
  ∀ p, prefixLen - g.window ≤ p → p < prefixLen → p < promptLen → ring (g.ringCell slot p) = some ⟨.prefill, p⟩

section Cells

variable {g : Geometry} {slot : Nat}

theorem ringCell_eq_iff {p q : Nat} : g.ringCell slot p = g.ringCell slot q ↔ p % g.ringSlots = q % g.ringSlots := by
  rw [g.ringCell_inj]
  simp

/-- Positions less than a ring apart share no cell. -/
theorem ringCell_injOn {p q : Nat} (h : g.ringCell slot p = g.ringCell slot q) (hpq : p < q + g.ringSlots)
    (hqp : q < p + g.ringSlots) : p = q := mod_inj (ringCell_eq_iff.mp h) hpq hqp

/-- A cell after a scatter holds what it held or one of the scattered rows. -/
theorem scatter_cases {A K : Type} [DecidableEq A] (m : A → K) (rows : List (A × K)) (a : A) :
    (a ∉ rows.map Prod.fst ∧ scatter m rows a = m a) ∨ ∃ row ∈ rows, row.1 = a ∧ scatter m rows a = row.2 := by
  induction rows using reverseRecOn with
  | nil => exact .inl ⟨by simp, rfl⟩
  | append_singleton rows row ih =>
    have hlast : scatter m (rows ++ [row]) = update (scatter m rows) row.1 row.2 := by
      simp [scatter]
    by_cases ha : a = row.1
    · subst ha
      exact .inr ⟨row, by simp, rfl, by rw [hlast, update_self]⟩
    · rw [hlast, update_of_ne ha]
      obtain ⟨hmem, heq⟩ | ⟨other, hother, hkey, heq⟩ := ih
      · exact .inl ⟨by simpa [ha] using hmem, heq⟩
      · exact .inr ⟨other, by simp [hother], hkey, heq⟩

/-- The same, for rows laid out by position. -/
theorem scatter_range_cases (g : Geometry) (slot : Nat) (ring : Ring) (start count : Nat) (value : Nat → Option Row)
    (c : Nat × Nat) :
    let after := scatter ring ((List.range count).map fun i => (g.ringCell slot (start + i), value i))
    ((∀ i < count, g.ringCell slot (start + i) ≠ c) ∧ after c = ring c) ∨
      ∃ i < count, g.ringCell slot (start + i) = c ∧ after c = value i := by
  obtain ⟨hmem, heq⟩ | ⟨row, hrow, hkey, heq⟩ := scatter_cases ring
    ((List.range count).map fun i => (g.ringCell slot (start + i), value i)) c
  · refine .inl ⟨fun i hi hcell => hmem ?_, heq⟩
    rw [map_map]
    exact mem_map.mpr ⟨i, mem_range.mpr hi, hcell⟩
  · obtain ⟨i, hi, rfl⟩ := mem_map.mp hrow
    exact .inr ⟨i, mem_range.mp hi, hkey, heq⟩

/-- Rows of another forward take the prefill's row out of each cell they fall on. -/
theorem writeRows_prefill_iff {writer : Writer} (hwriter : writer ≠ .prefill) {start count : Nat} {ring : Ring}
    {c : Nat × Nat} {p : Nat} :
    writeRows g slot writer start count ring c = some ⟨.prefill, p⟩ ↔
      ring c = some ⟨.prefill, p⟩ ∧ ∀ q, start ≤ q → q < start + count → g.ringCell slot q ≠ c := by
  unfold writeRows
  obtain ⟨hfree, heq⟩ | ⟨i, hi, hcell, heq⟩ :=
    scatter_range_cases g slot ring start count (fun i => some ⟨writer, start + i⟩) c
  · rw [heq]
    refine ⟨fun h => ⟨h, fun q hq hlt => ?_⟩, And.left⟩
    obtain ⟨i, rfl⟩ := Nat.exists_eq_add_of_le hq
    exact hfree i (by omega)
  · rw [heq]
    constructor
    · intro h
      exact absurd (congrArg Row.writer (Option.some.inj h)) hwriter
    · rintro ⟨-, hfree⟩
      exact absurd hcell (hfree (start + i) (by omega) (by omega))

theorem writeRows_prefill_self {start count : Nat} (hcount : count ≤ g.ringSlots) {p : Nat}
    (hlow : start ≤ p) (hhigh : p < start + count) (ring : Ring) :
    writeRows g slot .prefill start count ring (g.ringCell slot p) = some ⟨.prefill, p⟩ := by
  unfold writeRows
  obtain ⟨hfree, -⟩ | ⟨i, hi, hcell, heq⟩ :=
    scatter_range_cases g slot ring start count (fun i => some ⟨.prefill, start + i⟩) (g.ringCell slot p)
  · exact absurd (congrArg (g.ringCell slot) (by omega)) (hfree (p - start) (by omega))
  · have hpos : start + i = p := ringCell_injOn hcell (by omega) (by omega)
    rw [heq, hpos]

end Cells

section Prefill

variable {g : Geometry} {slot : Nat}

/-- The ring behind the chunks `done`, which end at `stop`. -/
structure Filled (g : Geometry) (slot : Nat) (done : List (Nat × Nat)) (stop : Nat) (ring : Ring) : Prop where
  below : ∀ c p, ring c = some ⟨.prefill, p⟩ → p < stop
  held : ∀ p < stop, stop ≤ p + g.ringSlots →
    (ring (g.ringCell slot p) = some ⟨.prefill, p⟩ ↔ ∃ range ∈ done, range.2 - g.window ≤ p ∧ p < range.2)
  ends : ∀ range ∈ done, range.2 ≤ stop
  last : stop = 0 ∨ ∃ range ∈ done, range.2 = stop

variable {ring : Ring} {done : List (Nat × Nat)}

theorem Filled.window {stop : Nat} (h : Filled g slot done stop ring) {p : Nat}
    (hlow : stop - g.window ≤ p) (hhigh : p < stop) : ring (g.ringCell slot p) = some ⟨.prefill, p⟩ := by
  have hfit := g.window_le_ringSlots
  obtain hzero | ⟨range, hrange, hstop⟩ := h.last
  · omega
  · exact (h.held p hhigh (by omega)).mpr ⟨range, hrange, by omega, by omega⟩

theorem filled_nil : Filled g slot [] 0 fun _ => none where
  below c p h := by cases h
  held p hp := by omega
  ends range h := by cases h
  last := .inl rfl

/-- What a chunk leaves in a cell: a row of its last window, or what was there. -/
theorem prefillChunk_cases {start stop : Nat} (h : Filled g slot done start ring)
    (hle : start ≤ stop) (c : Nat × Nat) :
    ((∀ q, stop - g.window ≤ q → q < stop → g.ringCell slot q ≠ c) ∧
      prefillChunk g slot ring (start, stop) c = ring c) ∨
      ∃ q, stop - g.window ≤ q ∧ q < stop ∧ g.ringCell slot q = c ∧
        prefillChunk g slot ring (start, stop) c = some ⟨.prefill, q⟩ := by
  have hwindow := g.window_pos
  unfold prefillChunk
  dsimp only
  have hcopy : min g.window (min g.window start + (stop - start)) = min g.window stop := by omega
  rw [hcopy]
  obtain ⟨hfree, heq⟩ | ⟨i, hi, hcell, heq⟩ := scatter_range_cases g slot ring (stop - min g.window stop)
    (min g.window stop) (fun i =>
      if min g.window start + (stop - start) - min g.window stop + i < min g.window start then
        ring (g.ringCell slot (start - min g.window start +
          (min g.window start + (stop - start) - min g.window stop + i)))
      else some ⟨.prefill, start - min g.window start +
        (min g.window start + (stop - start) - min g.window stop + i)⟩) c
  · refine .inl ⟨fun q hlow hhigh => ?_, heq⟩
    have hfree := hfree (q - (stop - min g.window stop)) (by omega)
    rwa [Nat.add_sub_of_le (by omega)] at hfree
  · have hpos : start - min g.window start + (min g.window start + (stop - start) - min g.window stop + i) =
        stop - min g.window stop + i := by omega
    refine .inr ⟨stop - min g.window stop + i, by omega, by omega, hcell, ?_⟩
    rw [heq, hpos]
    split
    · exact h.window (by omega) (by omega)
    · rfl

theorem Filled.chunk {range : Nat × Nat} (h : Filled g slot done range.1 ring)
    (hle : range.1 ≤ range.2) : Filled g slot (done ++ [range]) range.2 (prefillChunk g slot ring range) := by
  obtain ⟨start, stop⟩ := range
  dsimp only at h hle ⊢
  have hfit := g.window_le_ringSlots
  refine ⟨fun c p hrow => ?_, fun p hp hnear => ?_, fun range hrange => ?_, .inr ⟨(start, stop), by simp, rfl⟩⟩
  · obtain ⟨-, heq⟩ | ⟨q, -, hhigh, -, heq⟩ := prefillChunk_cases h hle c
    · have := h.below c p (heq ▸ hrow)
      omega
    · rw [heq] at hrow
      cases hrow
      exact hhigh
  · by_cases hlast : stop - g.window ≤ p
    · obtain ⟨hfree, -⟩ | ⟨q, hlow, hhigh, hcell, heq⟩ := prefillChunk_cases h hle (g.ringCell slot p)
      · exact absurd rfl (hfree p hlast hp)
      · have hpos : q = p := ringCell_injOn hcell (by omega) (by omega)
        rw [heq, hpos]
        simp only [true_iff]
        exact ⟨(start, stop), by simp, hlast, hp⟩
    · have hkeep : prefillChunk g slot ring (start, stop) (g.ringCell slot p) = ring (g.ringCell slot p) := by
        obtain ⟨-, heq⟩ | ⟨q, hlow, hhigh, hcell, -⟩ := prefillChunk_cases h hle (g.ringCell slot p)
        · exact heq
        · have hpos : q = p := ringCell_injOn hcell (by omega) (by omega)
          omega
      rw [hkeep]
      by_cases hold : p < start
      · rw [h.held p hold (by omega)]
        constructor
        · rintro ⟨range, hrange, hin⟩
          exact ⟨range, by simp [hrange], hin⟩
        · rintro ⟨range, hrange, hlow, hhigh⟩
          obtain hrange | hrange := mem_append.mp hrange
          · exact ⟨range, hrange, hlow, hhigh⟩
          · rw [mem_singleton.mp hrange] at hlow
            exact absurd hlow hlast
      · constructor
        · intro hrow
          exact absurd (h.below _ _ hrow) hold
        · rintro ⟨range, hrange, hlow, hhigh⟩
          obtain hrange | hrange := mem_append.mp hrange
          · have := h.ends range hrange
            omega
          · rw [mem_singleton.mp hrange] at hlow
            exact absurd hlow hlast
  · obtain hrange | hrange := mem_append.mp hrange
    · have := h.ends range hrange
      omega
    · rw [mem_singleton.mp hrange]

theorem Filled.chunks {ranges done : List (Nat × Nat)} {start stop : Nat} (h : Filled g slot done start ring)
    (ht : Tiles start stop ranges) : Filled g slot (done ++ ranges) stop (ranges.foldl (prefillChunk g slot) ring) := by
  induction ranges generalizing done start ring with
  | nil =>
    rw [tiles_nil] at ht
    subst ht
    simpa using h
  | cons range ranges ih =>
    obtain ⟨rfl, hlt, hrest⟩ := (tiles_cons range ranges).mp ht
    have hnext := ih (h.chunk hlt.le) hrest
    rwa [append_assoc, singleton_append] at hnext

end Prefill

section Rounds

variable {cfg : Config} {slot : Nat} {promptLen : Nat}

/-- Since `before`, the positions from `promptLen` up to `stop` were written, and no other. -/
def Behind (g : Geometry) (slot promptLen stop : Nat) (before ring : Ring) : Prop :=
  ∀ c p, ring c = some ⟨.prefill, p⟩ ↔
    before c = some ⟨.prefill, p⟩ ∧ ∀ q, promptLen ≤ q → q < stop → g.ringCell slot q ≠ c

theorem behind_refl (g : Geometry) (ring : Ring) : Behind g slot promptLen promptLen ring ring := fun c p =>
  ⟨fun h => ⟨h, by omega⟩, And.left⟩

theorem Behind.write {g : Geometry} {stop start count stop' : Nat} {before ring : Ring}
    (h : Behind g slot promptLen stop before ring) {writer : Writer} (hwriter : writer ≠ .prefill)
    (hlow : promptLen ≤ start) (hstart : start ≤ stop) (hstop : stop' = max stop (start + count)) :
    Behind g slot promptLen stop' before (writeRows g slot writer start count ring) := by
  intro c p
  rw [writeRows_prefill_iff hwriter, h c p]
  constructor
  · rintro ⟨⟨hrow, hold⟩, hnew⟩
    refine ⟨hrow, fun q hq hlt => ?_⟩
    by_cases hin : q < stop
    · exact hold q hq hin
    · exact hnew q (by omega) (by omega)
  · rintro ⟨hrow, hall⟩
    exact ⟨⟨hrow, fun q hq hlt => hall q hq (by omega)⟩, fun q hq hlt => hall q (by omega) (by omega)⟩

def targetEnd : Nat → List Nat → Nat
  | kvLen, [] => kvLen
  | kvLen, [_] => kvLen + numQueryPerReq
  | kvLen, accepted :: next :: rest => targetEnd (kvLen + (1 + accepted)) (next :: rest)

/-- The first position behind those that the draft forwards and the rounds write in the draft's ring. -/
def draftEnd : Nat → List Nat → Bool → Nat
  | kvLen, [], _ => kvLen + numQueryPerReq
  | kvLen, [_], true => kvLen + numQueryPerReq
  | kvLen, accepted :: rest, eos => draftEnd (kvLen + (1 + accepted)) rest eos

/-- The rings after a prefill that left `start`, before a verify forward. -/
structure Drafted (cfg : Config) (slot promptLen stop : Nat) (start r : Rings) : Prop where
  le : promptLen ≤ r.kvLen
  reach : r.kvLen ≤ stop ∧ stop ≤ r.kvLen + numQueryPerReq
  target : Behind cfg.target slot promptLen stop start.target r.target
  draft : Behind cfg.draft slot promptLen (r.kvLen + numQueryPerReq) start.draft r.draft

theorem drafted_draftForward (start : Rings) (hstart : start.kvLen = promptLen) :
    Drafted cfg slot promptLen promptLen start (draftForward cfg slot start) where
  le := by simp [draftForward, hstart]
  reach := by simp [draftForward, hstart]
  target := behind_refl cfg.target start.target
  draft := (behind_refl cfg.draft start.draft).write (by decide) hstart.ge hstart.le (by
    simp only [draftForward, hstart]
    omega)

structure Stopped (cfg : Config) (slot promptLen stop draftStop : Nat) (start r : Rings) : Prop where
  le : promptLen ≤ r.kvLen
  target : Behind cfg.target slot promptLen stop start.target r.target
  draft : Behind cfg.draft slot promptLen draftStop start.draft r.draft

section

variable {start r : Rings} {stop accepted : Nat} (h : Drafted cfg slot promptLen stop start r)
  (haccepted : accepted ≤ numSpeculativeTokens)
include h haccepted

theorem Drafted.verifyRound :
    Stopped cfg slot promptLen (r.kvLen + numQueryPerReq) (r.kvLen + numQueryPerReq) start
      (verifyRound cfg slot accepted r) where
  le := Nat.le_add_right_of_le h.le
  target := h.target.write (by decide) h.le h.reach.1 (max_eq_right h.reach.2).symm
  draft := by
    refine h.draft.write (by decide) h.le (Nat.le_add_right _ _) ?_
    unfold numSpeculativeTokens at haccepted
    unfold numQueryPerReq
    omega

theorem Drafted.round : Drafted cfg slot promptLen (r.kvLen + numQueryPerReq) start
      (draftForward cfg slot (LagunaFullHit.verifyRound cfg slot accepted r)) := by
  have hround := h.verifyRound haccepted
  have hlen : r.kvLen ≤ r.kvLen + (1 + accepted) ∧ r.kvLen + (1 + accepted) ≤ r.kvLen + numQueryPerReq := by
    unfold numSpeculativeTokens at haccepted
    unfold numQueryPerReq
    omega
  refine ⟨hround.le, ⟨hlen.2, Nat.add_le_add_right hlen.1 _⟩, hround.target, ?_⟩
  refine hround.draft.write (by decide) hround.le hlen.2 ?_
  exact (max_eq_right (Nat.add_le_add_right hlen.1 _)).symm

end

theorem Drafted.rounds {start r : Rings} {stop : Nat} {accepted : List Nat} (eos : Bool)
    (h : Drafted cfg slot promptLen stop start r) (haccepted : ∀ count ∈ accepted, count ≤ numSpeculativeTokens) :
    Stopped cfg slot promptLen (if accepted = [] then stop else targetEnd r.kvLen accepted)
      (draftEnd r.kvLen accepted eos) start (rounds cfg slot accepted eos r) := by
  induction accepted generalizing stop r with
  | nil => exact ⟨h.le, h.target, h.draft⟩
  | cons count rest ih =>
    have hcount := haccepted count mem_cons_self
    have hrest := ih (h.round hcount) fun other hother => haccepted other (mem_cons_of_mem _ hother)
    rw [if_neg (cons_ne_nil count rest)]
    cases rest with
    | nil =>
      cases eos with
      | false => exact hrest
      | true => exact h.verifyRound hcount
    | cons next rest => exact hrest

/-- What the rounds behind a prefill leave in the rings. -/
theorem generateVerifyOnly_stopped (ranges : List (Nat × Nat)) {accepted : List Nat} (eos : Bool)
    (haccepted : ∀ count ∈ accepted, count ≤ numSpeculativeTokens) :
    Stopped cfg slot promptLen (targetEnd promptLen accepted) (draftEnd promptLen accepted eos)
      (prefill cfg slot ranges promptLen) (generateVerifyOnly cfg slot ranges promptLen accepted eos) := by
  have hstart : Drafted cfg slot promptLen promptLen (prefill cfg slot ranges promptLen)
      (draftForward cfg slot (prefill cfg slot ranges promptLen)) := drafted_draftForward _ rfl
  have hrun := hstart.rounds eos haccepted
  cases accepted with
  | nil => exact hrun
  | cons count rest => exact hrun

end Rounds

section FullHit

variable {cfg : Config} {slot promptLen prefixLen : Nat}

section

variable {ranges : List (Nat × Nat)} (h : cfg.coldSchedule promptLen = .ok ranges)
include h

/-- A cold prefill forwards the prompt to its end, and leaves the last window of each chunk in the target's ring. -/
theorem coldSchedule_filled :
    Filled cfg.target slot ranges promptLen (ranges.foldl (prefillChunk cfg.target slot) fun _ => none) := by
  unfold Config.coldSchedule at h
  split at h
  · cases h
    have hfirst : Filled cfg.target slot [] (0, promptLen).1 fun _ => none := filled_nil
    exact hfirst.chunk (Nat.zero_le promptLen)
  · exact filled_nil.chunks (tiles_prefillChunkRanges h)

theorem coldSchedule_last :
    ∃ range, ranges.getLast? = some range ∧ range.2 = promptLen ∧ range.1 ≤ promptLen := by
  unfold Config.coldSchedule at h
  split at h
  · cases h
    exact ⟨(0, promptLen), rfl, rfl, Nat.zero_le _⟩
  · have htiles := tiles_prefillChunkRanges h
    cases ranges using reverseRecOn with
    | nil =>
      rw [tiles_nil] at htiles
      omega
    | append_singleton ranges range =>
      obtain ⟨start, -, hlast⟩ := (tiles_append ranges [range]).mp htiles
      obtain ⟨-, hlt, hstop⟩ := (tiles_cons range []).mp hlast
      rw [tiles_nil] at hstop
      exact ⟨range, by simp, hstop, by omega⟩

end

def lastChunkStart (ranges : List (Nat × Nat)) : Nat := (ranges.getLast?.map Prod.fst).getD 0

theorem writeRows_none_iff {g : Geometry} {start count p : Nat} (hcount : count ≤ g.ringSlots) (hp : p < start + count)
    (hnear : start + count ≤ p + g.ringSlots) :
    writeRows g slot .prefill start count (fun _ => none) (g.ringCell slot p) = some ⟨.prefill, p⟩ ↔ start ≤ p := by
  constructor
  · intro hrow
    unfold writeRows at hrow
    obtain ⟨-, heq⟩ | ⟨i, hi, hcell, -⟩ := scatter_range_cases g slot (fun _ => none) start count
      (fun i => some ⟨.prefill, start + i⟩) (g.ringCell slot p)
    · rw [heq] at hrow
      cases hrow
    · have hpos : start + i = p := ringCell_injOn hcell (by omega) (by omega)
      omega
  · intro hlow
    exact writeRows_prefill_self hcount hlow hp _

/-- The draft's ring behind a prefill holds the last chunk. -/
theorem prefill_draft_iff {ranges : List (Nat × Nat)} (h : cfg.coldSchedule promptLen = .ok ranges) {p : Nat}
    (hp : p < promptLen) (hnear : promptLen ≤ p + cfg.draft.ringSlots) :
    (prefill cfg slot ranges promptLen).draft (cfg.draft.ringCell slot p) = some ⟨.prefill, p⟩ ↔
      lastChunkStart ranges ≤ p := by
  obtain ⟨range, hlast, hstop, hle⟩ := coldSchedule_last h
  have hstart : lastChunkStart ranges = range.1 := by simp [lastChunkStart, hlast]
  rw [hstart]
  simp only [prefill, hlast, bulkPrecomputeContextKv]
  split
  · rw [writeRows_none_iff (le_refl _) (by omega) (by omega)]
    omega
  · rw [writeRows_none_iff (by omega) (by omega) (by omega)]
    omega

/-- The prompt's rows in the window were there behind the prefill, and nothing written since is a ring behind
the window's start. -/
def Fits (g : Geometry) (promptLen prefixLen stop : Nat) (held : Nat → Prop) : Prop :=
  prefixLen - g.window < promptLen →
    (∀ p, prefixLen - g.window ≤ p → p < prefixLen → p < promptLen → held p) ∧ stop ≤ prefixLen - g.window + g.ringSlots

theorem retains_iff {g : Geometry} {before ring : Ring} {stop : Nat} {held : Nat → Prop}
    (hbehind : Behind g slot promptLen stop before ring) (hlen : 0 < prefixLen)
    (hnear : promptLen ≤ prefixLen - g.window + g.ringSlots)
    (hheld : ∀ p < promptLen, promptLen ≤ p + g.ringSlots →
      (before (g.ringCell slot p) = some ⟨.prefill, p⟩ ↔ held p)) :
    Retains g slot ring promptLen prefixLen ↔ Fits g promptLen prefixLen stop held := by
  have hwindow := g.window_pos
  constructor
  · intro hretains hstart
    refine ⟨fun p hlow hhigh hp => ?_, ?_⟩
    · exact (hheld p hp (by omega)).mp ((hbehind _ p).mp (hretains p hlow hhigh hp)).1
    · by_contra hover
      -- the position one ring behind the window's start was written over it
      have hfree := ((hbehind _ _).mp (hretains (prefixLen - g.window) le_rfl (by omega) hstart)).2
      refine hfree (prefixLen - g.window + g.ringSlots) hnear (by omega) ?_
      rw [ringCell_eq_iff, Nat.add_mod_right]
  · intro hfits p hlow hhigh hp
    obtain ⟨hall, hstop⟩ := hfits (by omega)
    refine (hbehind _ p).mpr ⟨(hheld p hp (by omega)).mpr (hall p hlow hhigh hp), fun q hq hlt hcell => ?_⟩
    have hpos : q = p := ringCell_injOn hcell (by omega) (by omega)
    omega

/-- The check keeps the window's start within a ring of the prompt's end. -/
theorem near_of_safe {g : Geometry} {cachedKvLen : Nat} (hcached : promptLen ≤ cachedKvLen)
    (hspare : cachedKvLen - prefixLen ≤ g.ringSlots - g.window) : promptLen ≤ prefixLen - g.window + g.ringSlots := by
  have hfit := g.window_le_ringSlots
  omega

variable {ranges : List (Nat × Nat)} {accepted : List Nat} {eos : Bool}

section

variable (hranges : cfg.coldSchedule promptLen = .ok ranges)
  (haccepted : ∀ count ∈ accepted, count ≤ numSpeculativeTokens)
  (hsafe : ringPrefixReuseIsSafe
    (generateVerifyOnly cfg slot ranges promptLen accepted eos).kvLen prefixLen cfg.ringSpecs = true)
include hranges haccepted hsafe

/-- The target's ring on a full hit that the check lets through. -/
theorem retains_target_iff :
    Retains cfg.target slot (generateVerifyOnly cfg slot ranges promptLen accepted eos).target promptLen prefixLen ↔
      Fits cfg.target promptLen prefixLen (targetEnd promptLen accepted)
        fun p => ∃ range ∈ ranges, range.2 - cfg.target.window ≤ p ∧ p < range.2 := by
  obtain ⟨hlen, -, hspecs⟩ := ringPrefixReuseIsSafe_iff.mp hsafe
  have hrun : Stopped cfg slot promptLen _ _ _ _ := generateVerifyOnly_stopped ranges eos haccepted
  have hspare := hspecs (cfg.target.ringSlots, cfg.target.window) (by simp [Config.ringSpecs])
  exact retains_iff hrun.target hlen (near_of_safe hrun.le hspare) (coldSchedule_filled hranges).held

/-- The draft's ring on a full hit that the check lets through. -/
theorem retains_draft_iff :
    Retains cfg.draft slot (generateVerifyOnly cfg slot ranges promptLen accepted eos).draft promptLen prefixLen ↔
      Fits cfg.draft promptLen prefixLen (draftEnd promptLen accepted eos) fun p => lastChunkStart ranges ≤ p := by
  obtain ⟨hlen, -, hspecs⟩ := ringPrefixReuseIsSafe_iff.mp hsafe
  have hrun : Stopped cfg slot promptLen _ _ _ _ := generateVerifyOnly_stopped ranges eos haccepted
  have hspare := hspecs (cfg.draft.ringSlots, cfg.draft.window) (by simp [Config.ringSpecs])
  exact retains_iff hrun.draft hlen (near_of_safe hrun.le hspare) fun p hp hnear => prefill_draft_iff hranges hp hnear

end

/-- A full hit that the check lets through finds the prefill's rows in both rings as far as they fit. -/
theorem full_hit_retains_iff (hranges : cfg.coldSchedule promptLen = .ok ranges)
    (haccepted : ∀ count ∈ accepted, count ≤ numSpeculativeTokens)
    (hsafe : ringPrefixReuseIsSafe (generateVerifyOnly cfg slot ranges promptLen accepted eos).kvLen prefixLen
      cfg.ringSpecs = true) :
    Retains cfg.target slot (generateVerifyOnly cfg slot ranges promptLen accepted eos).target promptLen prefixLen ∧
        Retains cfg.draft slot (generateVerifyOnly cfg slot ranges promptLen accepted eos).draft promptLen prefixLen ↔
      Fits cfg.target promptLen prefixLen (targetEnd promptLen accepted)
          (fun p => ∃ range ∈ ranges, range.2 - cfg.target.window ≤ p ∧ p < range.2) ∧
        Fits cfg.draft promptLen prefixLen (draftEnd promptLen accepted eos) (fun p => lastChunkStart ranges ≤ p) :=
  and_congr (retains_target_iff hranges haccepted hsafe) (retains_draft_iff hranges haccepted hsafe)

theorem window_pos : 0 < 512 := by decide

theorem block_pos : 0 < 16 := by decide

def laguna512 : Config := ⟨⟨512, 16, window_pos, block_pos⟩, 8192⟩

/-- A full prompt's worth of window survives one round that accepts all but one draft token. -/
theorem full_hit_retains_iff_one_round :
    Retains laguna512.target 0 (generateVerifyOnly laguna512 0 [(0, 512)] 512 [14] false).target 512 512 ∧
      Retains laguna512.draft 0 (generateVerifyOnly laguna512 0 [(0, 512)] 512 [14] false).draft 512 512 := by
  refine (full_hit_retains_iff (by decide) (by decide) (by decide)).mpr ⟨fun _ => ⟨?_, by decide⟩,
    fun _ => ⟨?_, by decide⟩⟩
  · intro p _ hp _
    exact ⟨(0, 512), mem_singleton_self _, Nat.zero_le p, hp⟩
  · exact fun p _ _ _ => Nat.zero_le p

/-- Three rounds commit 32 positions, which the check allows, and write on over the window's start in both rings. -/
theorem full_hit_overwritten :
    ringPrefixReuseIsSafe (generateVerifyOnly laguna512 0 [(0, 512)] 512 [15, 14, 0] false).kvLen 512
        laguna512.ringSpecs = true ∧
      ¬Retains laguna512.target 0 (generateVerifyOnly laguna512 0 [(0, 512)] 512 [15, 14, 0] false).target 512 512 ∧
      ¬Retains laguna512.draft 0 (generateVerifyOnly laguna512 0 [(0, 512)] 512 [15, 14, 0] false).draft 512 512 := by
  refine ⟨by decide, fun hretains => ?_, fun hretains => ?_⟩
  · exact absurd ((retains_target_iff (by decide) (by decide) (by decide)).mp hretains (by decide)).2 (by decide)
  · exact absurd ((retains_draft_iff (by decide) (by decide) (by decide)).mp hretains (by decide)).2 (by decide)

end FullHit

end LagunaFullHit
