import BlackweLLM.ArrayFill
import BlackweLLM.RaisingState

/-!
# The fused injection of the draft context

The epilogue of the ragged verify graph that writes the accepted rows into the
DSpark draft cache: `prepare_dspark_context_kv_metadata`,
`_accepted_context_mapping` and the mapping of `_slot_mapping` that the eager
path uses. With narrow rows a slot keeps a ring of `draft_ring_pages` pages and
one reserved page behind it.
-/

namespace DraftContext

open List Function ArrayFill RaisingState

structure Geometry where
  numSlots : Nat
  pagesPerSlot : Nat
  pageSize : Nat
  maxSeqLen : Nat
  k : Nat
  windowTokens : Nat
  narrow : Bool
  pageSize_pos : 0 < pageSize
  seqLen_le : maxSeqLen ≤ pagesPerSlot * pageSize

namespace Geometry

variable (g : Geometry)

def draftRowPages : Nat :=
  if g.narrow then (g.windowTokens + g.pageSize - 1) / g.pageSize + 2 else g.pagesPerSlot

def draftRingPages : Nat := if g.narrow then g.draftRowPages - 1 else g.pagesPerSlot

def scratchRow : Nat := g.numSlots

def scratchBase : Nat := g.scratchRow * (g.draftRowPages * g.pageSize)

def cacheRows : Nat := (g.numSlots + 1) * (g.draftRowPages * g.pageSize)

end Geometry

/-- `_slot_mapping` of one position inside the cache. -/
def slotMapping (g : Geometry) (slot position : Nat) : Nat :=
  if g.narrow then
    let pageId := position / g.pageSize
    let intra := position - pageId * g.pageSize
    let narrowPage := (pageId + slot * g.pagesPerSlot) % g.draftRingPages
    (slot * g.draftRowPages + narrowPage) * g.pageSize + intra
  else slot * g.pagesPerSlot * g.pageSize + position

section Prepare

structure Entry where
  slot : Nat
  pastLen : Nat
  verifyLen : Nat
  deriving DecidableEq, Repr

inductive ContextError where
  | unequalLengths
  | verifyLens (lens : List Nat)
  | invalidSlot (slot : Nat)
  | positionOutside (slot position maxSeqLen : Nat)
  deriving DecidableEq, Repr

structure Metadata where
  positions : Nat → Nat
  slotMapping : Nat → Nat

/-- The row of a live column, with the modulus that this function takes. -/
def contextRow (g : Geometry) (slot position : Nat) : Nat :=
  if g.narrow then
    let pageId := position / g.pageSize
    let intra := position - pageId * g.pageSize
    let narrowPage := (pageId + slot * g.pagesPerSlot) % g.draftRowPages
    (slot * g.draftRowPages + narrowPage) * g.pageSize + intra
  else slot * (g.draftRowPages * g.pageSize) + position

def prepareColumn (g : Geometry) (compactOffset : Nat) (q : Entry) (m : Metadata) (column : Nat) :
    Except ContextError Metadata :=
  let position := q.pastLen + column
  let index := compactOffset + column
  if g.maxSeqLen ≤ position then .error (.positionOutside q.slot position g.maxSeqLen)
  else .ok
    { positions := update m.positions index position
      slotMapping := update m.slotMapping index (contextRow g q.slot position) }

def prepareRow (g : Geometry) (acc : Metadata × Nat) (q : Entry) : Except ContextError (Metadata × Nat) :=
  if g.numSlots ≤ q.slot then .error (.invalidSlot q.slot)
  else do
    let m ← (range q.verifyLen).foldlM (prepareColumn g acc.2 q) acc.1
    pure (m, acc.2 + q.verifyLen)

def scratchFlat (g : Geometry) (scratchPosition : Nat) : Nat :=
  if g.narrow then
    g.scratchRow * g.draftRowPages * g.pageSize + (g.draftRowPages - 1) * g.pageSize + scratchPosition
  else g.scratchRow * (g.draftRowPages * g.pageSize) + scratchPosition

def prepareTail (g : Geometry) (total : Nat) (m : Metadata) (index : Nat) : Metadata where
  positions := update m.positions index (index - total)
  slotMapping := update m.slotMapping index (scratchFlat g (index - total))

def zipEntries (slots pastLens verifyLens : List Nat) : List Entry :=
  ((slots.zip pastLens).zip verifyLens).map fun e => ⟨e.1.1, e.1.2, e.2⟩

def prepareContext (g : Geometry) (slots pastLens verifyLens : List Nat) : Except ContextError Metadata :=
  if ¬(slots.length = pastLens.length ∧ pastLens.length = verifyLens.length) then .error .unequalLengths
  else if ∃ length ∈ verifyLens, length < 1 ∨ g.k + 1 < length then .error (.verifyLens verifyLens)
  else do
    let (m, total) ← (zipEntries slots pastLens verifyLens).foldlM (prepareRow g) (⟨fun _ => 0, fun _ => 0⟩, 0)
    pure ((range' total (slots.length * (g.k + 1) - total)).foldl (prepareTail g total) m)

end Prepare

section Gate

def cuSeqlensQ (verifyLens : List Nat) : List Nat :=
  0 :: (range verifyLens.length).map fun row => (verifyLens.take (row + 1)).sum

def rowIndex (cu : List Nat) (batch index : Nat) : Nat := min (searchsortedRight cu.tail index) (batch - 1)

/-- `keep`. The row found never starts behind the index, so the column is not negative. -/
def keep (cu accepted : List Nat) (batch index : Nat) : Bool :=
  let row := rowIndex cu batch index
  let column := index - cu.getD row 0
  decide (index < cu.getLastD 0) && decide (column ≤ accepted.getD row 0)

/-- `_context_scratch_mapping`, with the row stride of the target pool. -/
def contextScratchMapping (g : Geometry) (index : Nat) : Nat :=
  index + g.scratchRow * (g.pagesPerSlot * g.pageSize)

def acceptedContextMapping (g : Geometry) (cu accepted : List Nat) (batch : Nat) (mapping : Nat → Nat) (index : Nat) :
    Nat :=
  if keep cu accepted batch index then mapping index else contextScratchMapping g index

end Gate

section Held

/-- The pages of the draft cache that `snapshot_prefix_to_scratch` writes for a prefix with these scratch pages. -/
def snapshotPages (g : Geometry) (scratchPages : List Nat) : List Nat :=
  if g.narrow then
    let first := scratchPages.length - min scratchPages.length g.draftRowPages
    (scratchPages.drop first).map fun page => g.scratchRow * g.draftRowPages + page % g.draftRingPages
  else scratchPages.map fun page => g.scratchRow * g.draftRowPages + page

def heldPages (g : Geometry) (snapshots : List (List Nat)) : List Nat := snapshots.flatMap (snapshotPages g)

end Held

section Exact

def startOf (entries : List Entry) (i : Nat) : Nat := offset Entry.verifyLen entries i

/-- The compact row is column `c` of entry `i`, up to the bonus behind the accepted drafts. -/
structure Committed (entries : List Entry) (accepted : List Nat) (index : Nat) (q : Entry) (c : Nat) : Prop where
  entry : ∃ i, entries[i]? = some q ∧ index = startOf entries i + c ∧ c ≤ accepted.getD i 0
  column : c < q.verifyLen

/-- A row of the fixed shape that carries nothing accepted. -/
def Redirected (g : Geometry) (entries : List Entry) (accepted : List Nat) (index : Nat) : Prop :=
  index < entries.length * (g.k + 1) ∧ ∀ q c, ¬Committed entries accepted index q c

/-- The fused epilogue does what the host injection does and nothing else to anything that counts: `position` and
`row` say where the tap row of an index is written. -/
structure Exact (g : Geometry) (entries : List Entry) (accepted : List Nat) (snapshots : List (List Nat))
    (position row : Nat → Nat) : Prop where
  taps : ∀ index q c, Committed entries accepted index q c →
    position index = q.pastLen + c ∧ row index = slotMapping g q.slot (q.pastLen + c)
  live : ∀ r < g.scratchBase, (∃ index < entries.length * (g.k + 1), row index = r) ↔
    ∃ index q c, Committed entries accepted index q c ∧ r = slotMapping g q.slot (q.pastLen + c)
  scratch : ∀ index, Redirected g entries accepted index → g.scratchBase ≤ row index ∧ row index < g.cacheRows
  distinct : ∀ index index', Redirected g entries accepted index → Redirected g entries accepted index' →
    row index = row index' → index = index'
  unheld : ∀ index, Redirected g entries accepted index → row index / g.pageSize ∉ heldPages g snapshots

/-- When it does. With narrow rows the two moduli have to agree on the page of every committed position and the
stride of the target pool has to end in the scratch row; a redirected row must not meet a persistent prefix. -/
structure Agrees (g : Geometry) (entries : List Entry) (accepted : List Nat) (snapshots : List (List Nat)) : Prop where
  ring : g.narrow = true → ∀ index q c, Committed entries accepted index q c →
    ((q.pastLen + c) / g.pageSize + q.slot * g.pagesPerSlot) % g.draftRowPages =
      ((q.pastLen + c) / g.pageSize + q.slot * g.pagesPerSlot) % g.draftRingPages
  wide : g.narrow = false → ∀ index, Redirected g entries accepted index → index < g.pagesPerSlot * g.pageSize
  narrow : g.narrow = true → ∀ index, Redirected g entries accepted index →
    g.numSlots * g.draftRowPages ≤ g.numSlots * g.pagesPerSlot + index / g.pageSize ∧
      g.numSlots * g.pagesPerSlot + index / g.pageSize < (g.numSlots + 1) * g.draftRowPages
  free : ∀ index, Redirected g entries accepted index →
    g.numSlots * g.pagesPerSlot + index / g.pageSize ∉ heldPages g snapshots

end Exact

section Spec

variable {g : Geometry} {entries : List Entry} {accepted : List Nat} {snapshots : List (List Nat)} {m : Metadata}
variable {q : Entry} {c index : Nat}

/-- What the engine hands to the preparation. -/
structure Entry.Fits (g : Geometry) (q : Entry) : Prop where
  slot : q.slot < g.numSlots
  pos : 1 ≤ q.verifyLen
  le : q.verifyLen ≤ g.k + 1
  reach : q.pastLen + q.verifyLen ≤ g.maxSeqLen

theorem startOf_succ {i : Nat} (hq : entries[i]? = some q) :
    startOf entries (i + 1) = startOf entries i + q.verifyLen := offset_succ hq

theorem prepareColumns_gives {start : Nat} (hreach : q.pastLen + q.verifyLen ≤ g.maxSeqLen) :
    Gives (fun m' => Filled m.positions m'.positions start q.verifyLen (fun c => q.pastLen + c) ∧
        Filled m.slotMapping m'.slotMapping start q.verifyLen fun c => contextRow g q.slot (q.pastLen + c))
      (fun _ => False) ((range q.verifyLen).foldlM (prepareColumn g start q) m) := by
  apply (gives_foldlM (I := fun done m' => Filled m.positions m'.positions start done.length (fun c => q.pastLen + c) ∧
    Filled m.slotMapping m'.slotMapping start done.length fun c => contextRow g q.slot (q.pastLen + c)) ?_ ?_).mono
  · intro m' h
    rwa [length_range] at h
  · exact fun _ => id
  · rintro done column rest m' hsplit ⟨hpositions, hmapping⟩
    have hget : (range q.verifyLen)[done.length]? = some column := by
      rw [hsplit, getElem?_append_right (Nat.le_refl _), Nat.sub_self]
      rfl
    obtain ⟨hlt, heq⟩ := List.getElem?_eq_some_iff.mp hget
    rw [getElem_range] at heq
    rw [length_range] at hlt
    subst heq
    have hinside : ¬g.maxSeqLen ≤ q.pastLen + done.length := by omega
    simp only [prepareColumn, if_neg hinside, length_append, length_singleton]
    exact ⟨hpositions.push, hmapping.push⟩
  · exact ⟨Filled.nil _ _ _, Filled.nil _ _ _⟩

def Prepared (g : Geometry) (entries : List Entry) (n : Nat) (m : Metadata) : Prop :=
  ∀ i < n, ∀ q c, entries[i]? = some q → c < q.verifyLen → m.positions (startOf entries i + c) = q.pastLen + c ∧
    m.slotMapping (startOf entries i + c) = contextRow g q.slot (q.pastLen + c)

theorem prepareRows_gives (hentries : ∀ q ∈ entries, q.Fits g) :
    Gives (fun acc => acc.2 = startOf entries entries.length ∧ Prepared g entries entries.length acc.1) (fun _ => False)
      (entries.foldlM (prepareRow g) (m, 0)) := by
  refine gives_foldlM (I := fun done (acc : Metadata × Nat) => acc.2 = startOf entries done.length ∧
    Prepared g entries done.length acc.1) ?_ ?_
  · rintro done q rest ⟨m', start⟩ hsplit ⟨hstart, hprepared⟩
    have hq : entries[done.length]? = some q := by
      rw [hsplit, getElem?_append_right (Nat.le_refl _), Nat.sub_self]
      rfl
    have hfits := hentries q (mem_of_getElem? hq)
    dsimp only at hstart
    subst hstart
    simp only [prepareRow, if_neg (not_le.mpr hfits.slot)]
    apply gives_bind (prepareColumns_gives hfits.reach)
    rintro m'' ⟨hpositions, hmapping⟩
    rw [length_append, length_singleton]
    refine ⟨(startOf_succ hq).symm, fun i hi r c hr hc => ?_⟩
    by_cases hlast : i = done.length
    · subst hlast
      rw [hq] at hr
      cases hr
      exact ⟨hpositions.value c hc, hmapping.value c hc⟩
    · have hbefore : startOf entries (i + 1) ≤ startOf entries done.length := offset_mono (by omega)
      rw [startOf_succ hr] at hbefore
      have hold := hprepared i (by omega) r c hr hc
      exact ⟨(hpositions.before _ (by omega)).trans hold.1, (hmapping.before _ (by omega)).trans hold.2⟩
  · exact ⟨(offset_zero _ _).symm, fun i hi => absurd hi (Nat.not_lt_zero i)⟩

/-- The tail leaves what lies in front of it. -/
theorem foldl_prepareTail {total : Nat} {l : List Nat} (hl : ∀ index ∈ l, total ≤ index) (m : Metadata) :
    ∀ i < total, (l.foldl (prepareTail g total) m).positions i = m.positions i ∧
      (l.foldl (prepareTail g total) m).slotMapping i = m.slotMapping i := by
  induction l generalizing m with
  | nil => exact fun _ _ => ⟨rfl, rfl⟩
  | cons index l ih =>
    intro i hi
    have hne : i ≠ index := by
      have := hl index mem_cons_self
      omega
    obtain ⟨hpositions, hmapping⟩ := ih (fun j hj => hl j (mem_cons_of_mem _ hj)) (prepareTail g total m index) i hi
    rw [foldl_cons, hpositions, hmapping]
    exact ⟨update_of_ne hne _ _, update_of_ne hne _ _⟩

theorem zipEntries_map (entries : List Entry) :
    zipEntries (entries.map Entry.slot) (entries.map Entry.pastLen) (entries.map Entry.verifyLen) = entries := by
  induction entries with
  | nil => rfl
  | cons q entries ih =>
    simp only [zipEntries, map_cons, zip_cons_cons, List.cons.injEq, true_and] at ih ⊢
    exact ih

theorem prepareContext_returns (hentries : ∀ q ∈ entries, q.Fits g) :
    ∃ m, prepareContext g (entries.map Entry.slot) (entries.map Entry.pastLen) (entries.map Entry.verifyLen) = .ok m ∧
      Prepared g entries entries.length m := by
  have hlens : ¬∃ length ∈ entries.map Entry.verifyLen, length < 1 ∨ g.k + 1 < length := by
    rintro ⟨length, hmem, hout⟩
    obtain ⟨q, hq, rfl⟩ := mem_map.mp hmem
    have hpos := (hentries q hq).pos
    have hle := (hentries q hq).le
    omega
  have hequal : ¬¬((entries.map Entry.slot).length = (entries.map Entry.pastLen).length ∧
      (entries.map Entry.pastLen).length = (entries.map Entry.verifyLen).length) := by
    simp only [length_map, and_self, not_true_eq_false, not_false_eq_true]
  obtain ⟨⟨m, total⟩, hrun, htotal, hprepared⟩ :=
    (prepareRows_gives (m := ⟨fun _ => 0, fun _ => 0⟩) hentries).returns
  refine ⟨(range' total (entries.length * (g.k + 1) - total)).foldl (prepareTail g total) m, ?_, ?_⟩
  · rw [prepareContext, if_neg hequal, if_neg hlens, zipEntries_map, hrun, length_map]
    rfl
  · intro i hi q c hq hc
    dsimp only at htotal hprepared
    have hstop : startOf entries (i + 1) ≤ startOf entries entries.length := offset_mono hi
    rw [startOf_succ hq] at hstop
    have htail : ∀ index ∈ range' total (entries.length * (g.k + 1) - total), total ≤ index :=
      fun index hindex => (mem_range'_1.mp hindex).1
    have hlt : startOf entries i + c < total := by omega
    obtain ⟨hpositions, hmapping⟩ := foldl_prepareTail (g := g) htail m _ hlt
    rw [hpositions, hmapping]
    exact hprepared i hi q c hq hc

theorem length_cuSeqlensQ (entries : List Entry) :
    cuSeqlensQ (entries.map Entry.verifyLen) = (range (entries.length + 1)).map (startOf entries) := by
  rw [cuSeqlensQ, length_map]
  exact offsets_eq Entry.verifyLen entries

theorem startOf_length_le (hentries : ∀ q ∈ entries, q.Fits g) :
    startOf entries entries.length ≤ entries.length * (g.k + 1) := offset_le (fun q hq => (hentries q hq).le) _

/-- The gate finds the entry and the column of a compact row. -/
theorem keep_of {i : Nat} (hq : entries[i]? = some q) (hc : c < q.verifyLen) :
    keep (cuSeqlensQ (entries.map Entry.verifyLen)) accepted entries.length (startOf entries i + c) =
      decide (c ≤ accepted.getD i 0) := by
  have hi := (List.getElem?_eq_some_iff.mp hq).1
  have hstop : startOf entries (i + 1) ≤ startOf entries entries.length := offset_mono hi
  rw [startOf_succ hq] at hstop
  have htail : ((range (entries.length + 1)).map (startOf entries)).tail =
      (range entries.length).map fun r => offset Entry.verifyLen entries (r + 1) := by
    rw [range_succ_eq_map, map_cons, tail_cons, map_map]
    rfl
  have hrow : rowIndex (cuSeqlensQ (entries.map Entry.verifyLen)) entries.length (startOf entries i + c) = i := by
    rw [rowIndex, length_cuSeqlensQ, htail, startOf, searchsortedRight_offsets hq hc]
    omega
  have hget : (cuSeqlensQ (entries.map Entry.verifyLen)).getD i 0 = startOf entries i := by
    rw [length_cuSeqlensQ, getD_eq_getElem?_getD, getElem?_map, getElem?_range (by omega)]
    rfl
  have hlast : (cuSeqlensQ (entries.map Entry.verifyLen)).getLastD 0 = startOf entries entries.length := by
    rw [length_cuSeqlensQ, range_succ, map_append, map_singleton, getLastD_concat]
  simp only [keep, hrow, hget, hlast, Nat.add_sub_cancel_left]
  rw [decide_eq_true (by omega), Bool.true_and]

theorem keep_tail (hindex : startOf entries entries.length ≤ index) :
    keep (cuSeqlensQ (entries.map Entry.verifyLen)) accepted entries.length index = false := by
  have hlast : (cuSeqlensQ (entries.map Entry.verifyLen)).getLastD 0 = startOf entries entries.length := by
    rw [length_cuSeqlensQ, range_succ, map_append, map_singleton, getLastD_concat]
  rw [keep, hlast, decide_eq_false (not_lt.mpr hindex), Bool.false_and]

abbrev epilogueRow (g : Geometry) (entries : List Entry) (accepted : List Nat) (m : Metadata) : Nat → Nat :=
  acceptedContextMapping g (cuSeqlensQ (entries.map Entry.verifyLen)) accepted entries.length m.slotMapping

theorem epilogueRow_committed (hm : Prepared g entries entries.length m)
    (h : Committed entries accepted index q c) :
    m.positions index = q.pastLen + c ∧ epilogueRow g entries accepted m index =
      contextRow g q.slot (q.pastLen + c) := by
  obtain ⟨⟨i, hq, rfl, haccepted⟩, hc⟩ := h
  obtain ⟨hposition, hmapping⟩ := hm i (List.getElem?_eq_some_iff.mp hq).1 q c hq hc
  rw [epilogueRow, acceptedContextMapping, keep_of hq hc, decide_eq_true haccepted, if_pos rfl]
  exact ⟨hposition, hmapping⟩

theorem epilogueRow_redirected (h : Redirected g entries accepted index) :
    epilogueRow g entries accepted m index = contextScratchMapping g index := by
  have hkeep : keep (cuSeqlensQ (entries.map Entry.verifyLen)) accepted entries.length index = false := by
    by_cases htail : startOf entries entries.length ≤ index
    · exact keep_tail htail
    · rw [not_le, startOf, offset_length] at htail
      obtain ⟨i, q, c, hq, hc, rfl⟩ := offset_cover htail
      have hrejected : ¬c ≤ accepted.getD i 0 := fun hle => h.2 q c ⟨⟨i, hq, rfl, hle⟩, hc⟩
      exact (keep_of hq hc).trans (decide_eq_false hrejected)
  rw [epilogueRow, acceptedContextMapping, hkeep, if_neg Bool.false_ne_true]

theorem Committed.lt (hentries : ∀ q ∈ entries, q.Fits g)
    (h : Committed entries accepted index q c) : index < entries.length * (g.k + 1) := by
  obtain ⟨⟨i, hq, rfl, -⟩, hc⟩ := h
  have hstop : startOf entries (i + 1) ≤ startOf entries entries.length :=
    offset_mono (List.getElem?_eq_some_iff.mp hq).1
  rw [startOf_succ hq] at hstop
  have hle := startOf_length_le hentries
  omega

/-- The two formulas for a live row agree where the moduli do. -/
theorem contextRow_eq_iff (g : Geometry) (slot position : Nat) :
    contextRow g slot position = slotMapping g slot position ↔ (g.narrow = true →
      (position / g.pageSize + slot * g.pagesPerSlot) % g.draftRowPages =
        (position / g.pageSize + slot * g.pagesPerSlot) % g.draftRingPages) := by
  cases hnarrow : g.narrow with
  | true =>
    simp only [contextRow, slotMapping, hnarrow, if_true, forall_const]
    constructor
    · intro heq
      have hmul := Nat.add_right_cancel heq
      exact Nat.add_left_cancel (Nat.eq_of_mul_eq_mul_right g.pageSize_pos hmul)
    · intro heq
      rw [heq]
  | false =>
    simp only [contextRow, slotMapping, hnarrow, Bool.false_eq_true, if_false, false_imp_iff,
      Geometry.draftRowPages, mul_assoc]

theorem contextScratchMapping_div (g : Geometry) (index : Nat) :
    contextScratchMapping g index / g.pageSize = g.numSlots * g.pagesPerSlot + index / g.pageSize := by
  rw [contextScratchMapping, Geometry.scratchRow, ← mul_assoc, Nat.add_mul_div_right _ _ g.pageSize_pos, add_comm]

/-- A redirected row lies in the scratch row when its page does. -/
theorem contextScratchMapping_mem_iff (g : Geometry) (index : Nat) :
    g.scratchBase ≤ contextScratchMapping g index ∧ contextScratchMapping g index < g.cacheRows ↔
      g.numSlots * g.draftRowPages ≤ g.numSlots * g.pagesPerSlot + index / g.pageSize ∧
        g.numSlots * g.pagesPerSlot + index / g.pageSize < (g.numSlots + 1) * g.draftRowPages := by
  rw [← contextScratchMapping_div, Nat.le_div_iff_mul_le g.pageSize_pos, Nat.div_lt_iff_lt_mul g.pageSize_pos,
    Geometry.scratchBase, Geometry.cacheRows, Geometry.scratchRow, mul_assoc, mul_assoc]

/-- With wide rows only an index behind the row can miss it. -/
theorem wide_mem_iff (hwide : g.narrow = false) (index : Nat) :
    (g.numSlots * g.draftRowPages ≤ g.numSlots * g.pagesPerSlot + index / g.pageSize ∧
      g.numSlots * g.pagesPerSlot + index / g.pageSize < (g.numSlots + 1) * g.draftRowPages) ↔
      index < g.pagesPerSlot * g.pageSize := by
  rw [← Nat.div_lt_iff_lt_mul g.pageSize_pos, Nat.succ_mul, Geometry.draftRowPages, if_neg (by simp [hwide])]
  generalize index / g.pageSize = page
  omega

/-- The fused epilogue equals the host injection exactly under `Agrees`. -/
theorem epilogue_exact_iff (hentries : ∀ q ∈ entries, q.Fits g) (accepted : List Nat) (snapshots : List (List Nat)) :
    ∃ m, prepareContext g (entries.map Entry.slot) (entries.map Entry.pastLen) (entries.map Entry.verifyLen) = .ok m ∧
      (Exact g entries accepted snapshots m.positions (epilogueRow g entries accepted m) ↔
        Agrees g entries accepted snapshots) := by
  obtain ⟨m, hrun, hm⟩ := prepareContext_returns hentries
  refine ⟨m, hrun, ?_, ?_⟩
  · intro h
    constructor
    · intro hnarrow index q c hcommitted
      have heq := (epilogueRow_committed hm hcommitted).2.symm.trans (h.taps index q c hcommitted).2
      exact (contextRow_eq_iff g _ _).mp heq hnarrow
    · intro hwide index hredirected
      have hmem := h.scratch index hredirected
      rwa [epilogueRow_redirected hredirected, contextScratchMapping_mem_iff, wide_mem_iff hwide] at hmem
    · intro _ index hredirected
      have hmem := h.scratch index hredirected
      rwa [epilogueRow_redirected hredirected, contextScratchMapping_mem_iff] at hmem
    · intro index hredirected
      have hfree := h.unheld index hredirected
      rwa [epilogueRow_redirected hredirected, contextScratchMapping_div] at hfree
  · intro h
    have htaps : ∀ index q c, Committed entries accepted index q c → m.positions index = q.pastLen + c ∧
        epilogueRow g entries accepted m index = slotMapping g q.slot (q.pastLen + c) := by
      intro index q c hcommitted
      obtain ⟨hposition, hrow⟩ := epilogueRow_committed hm hcommitted
      exact ⟨hposition, hrow.trans ((contextRow_eq_iff g _ _).mpr fun hnarrow => h.ring hnarrow index q c hcommitted)⟩
    have hscratch : ∀ index, Redirected g entries accepted index →
        g.scratchBase ≤ epilogueRow g entries accepted m index ∧ epilogueRow g entries accepted m index < g.cacheRows := by
      intro index hredirected
      rw [epilogueRow_redirected hredirected, contextScratchMapping_mem_iff]
      cases hnarrow : g.narrow with
      | true => exact h.narrow hnarrow index hredirected
      | false => exact (wide_mem_iff hnarrow index).mpr (h.wide hnarrow index hredirected)
    constructor
    · exact htaps
    · intro r hr
      constructor
      · rintro ⟨index, hindex, rfl⟩
        by_cases hcommitted : ∃ q c, Committed entries accepted index q c
        · obtain ⟨q, c, hcommitted⟩ := hcommitted
          exact ⟨index, q, c, hcommitted, (htaps index q c hcommitted).2⟩
        · have hredirected : Redirected g entries accepted index := ⟨hindex, fun q c h => hcommitted ⟨q, c, h⟩⟩
          exact absurd hr (not_lt.mpr (hscratch index hredirected).1)
      · rintro ⟨index, q, c, hcommitted, rfl⟩
        exact ⟨index, hcommitted.lt hentries, (htaps index q c hcommitted).2⟩
    · exact hscratch
    · intro index index' hindex hindex' heq
      rw [epilogueRow_redirected hindex, epilogueRow_redirected hindex', contextScratchMapping,
        contextScratchMapping] at heq
      exact Nat.add_right_cancel heq
    · intro index hredirected
      rw [epilogueRow_redirected hredirected, contextScratchMapping_div]
      exact h.free index hredirected

theorem four_pos : 0 < 4 := by decide

/-- Two slots with narrow rows: a window of twelve tokens on pages of four, so a ring of four pages and one more. -/
def narrowRows : Geometry := ⟨2, 16, 4, 64, 3, 12, true, four_pos, by decide⟩

/-- The anchor at the first position of page four goes to the reserved page and not to page zero of the ring. -/
theorem epilogue_leaves_ring :
    ∃ m, prepareContext narrowRows [0] [16] [1] = .ok m ∧
      ¬Exact narrowRows [⟨0, 16, 1⟩] [0] [] m.positions (epilogueRow narrowRows [⟨0, 16, 1⟩] [0] m) := by
  have hfits : ∀ q ∈ [(⟨0, 16, 1⟩ : Entry)], q.Fits narrowRows := by
    intro q hq
    obtain rfl := mem_singleton.mp hq
    exact ⟨by decide, by decide, by decide, by decide⟩
  obtain ⟨m, hrun, hm⟩ := prepareContext_returns hfits
  refine ⟨m, hrun, fun h => ?_⟩
  have hcommitted : Committed [⟨0, 16, 1⟩] [0] 0 ⟨0, 16, 1⟩ 0 := ⟨⟨0, rfl, rfl, Nat.le_refl 0⟩, Nat.one_pos⟩
  have hrow := (epilogueRow_committed hm hcommitted).2.symm.trans (h.taps 0 _ 0 hcommitted).2
  exact absurd hrow (by decide)

theorem epilogue_exact_iff_narrow :
    ∃ m, prepareContext narrowRows [1] [2] [3] = .ok m ∧
      (Exact narrowRows [⟨1, 2, 3⟩] [1] [] m.positions (epilogueRow narrowRows [⟨1, 2, 3⟩] [1] m) ↔
        Agrees narrowRows [⟨1, 2, 3⟩] [1] []) := by
  have hfits : ∀ q ∈ [(⟨1, 2, 3⟩ : Entry)], q.Fits narrowRows := by
    intro q hq
    obtain rfl := mem_singleton.mp hq
    exact ⟨by decide, by decide, by decide, by decide⟩
  exact epilogue_exact_iff hfits [1] []

end Spec

end DraftContext
