import BlackweLLM.DraftContext
import BlackweLLM.PageRing
import Mathlib.Data.List.Zip

/-!
# The ring of the draft cache

Which physical rows of the narrow draft cache belong to a position: the two
writers, the paged view that the attention is given, and the pages that a copy, a
snapshot and a restore of a prefix move.
-/

namespace DraftRing

open List Function DraftContext

structure RingGeometry extends Geometry where
  windowSize : Nat
  queryTokens : Nat
  compact : Bool
  windowSize_pos : compact = true → 0 < windowSize
  queryTokens_pos : 0 < queryTokens
  windowTokens_eq : windowTokens = windowSize + queryTokens
  compact_of_narrow : narrow = true → compact = true

section View

inductive ViewError where
  | windowSize (size : Nat)
  | pageSize (size : Nat)
  | invalidSlot (slot : Nat)
  | narrowRow (slot kvLen pages capacity : Nat)
  | draftSlot (slot kvLen localLen firstPage pages capacity : Nat)
  deriving DecidableEq, Repr

/-- `compact_dflash_window`: the local length and the first page. -/
def compactDflashWindow (sequenceLength windowSize pageSize : Nat) : Except ViewError (Nat × Nat) :=
  if windowSize = 0 then .error (.windowSize windowSize)
  else if pageSize = 0 then .error (.pageSize pageSize)
  else
    let visibleLength := min sequenceLength windowSize
    let visibleStart := sequenceLength - visibleLength
    let alignedStart := visibleStart - visibleStart % pageSize
    .ok (sequenceLength - alignedStart, alignedStart / pageSize)

def pageTable (g : Geometry) (slot : Nat) : Except ViewError (List Nat) :=
  if g.numSlots ≤ slot then .error (.invalidSlot slot)
  else .ok (range' (slot * g.draftRowPages) (if g.narrow then g.draftRowPages else g.pagesPerSlot))

/-- `torch.zeros_like(page_table)` with the first entries written. -/
def zerosWith (width : Nat) (pages : List Nat) : List Nat := pages ++ replicate (width - pages.length) 0

def draftAttentionPageTable (g : RingGeometry) (slot kvLen numTokens : Nat) : Except ViewError (List Nat × Nat) := do
  let table ← pageTable g.toGeometry slot
  if !g.compact then pure (table, kvLen)
  else
    let (localLen, firstPage) ← compactDflashWindow kvLen g.windowSize g.pageSize
    let numPages := (localLen + numTokens + g.pageSize - 1) / g.pageSize
    if g.narrow then
      if g.draftRowPages < numPages then throw (.narrowRow slot kvLen numPages g.draftRowPages)
      let ring := (range numPages).map fun i => slot * g.draftRowPages + (firstPage + i) % g.draftRingPages
      pure (zerosWith table.length ring, localLen)
    else
      if g.pagesPerSlot < firstPage + numPages then
        throw (.draftSlot slot kvLen localLen firstPage numPages g.pagesPerSlot)
      pure (zerosWith table.length ((table.drop firstPage).take numPages), localLen)

/-- The row of the cache that the attention reads for a position behind `kvLen - local_len`. -/
def viewRow (g : Geometry) (kvLen : Nat) (view : List Nat × Nat) (position : Nat) : Option Nat :=
  let column := position - (kvLen - view.2)
  view.1[column / g.pageSize]?.map fun page => page * g.pageSize + column % g.pageSize

end View

section Moves

structure Books where
  draftKvLen : Nat → Nat
  cachedPrefixLen : Nat → Nat
  scratchValidPages : List Nat

inductive MoveError where
  | invalidSlot (slot : Nat)
  | notRestorable (slot kvLen : Nat)
  | slotCapacity (pages capacity : Nat)
  | scratchCount (pages : List Nat)
  | scratchOutside (pages : List Nat)
  deriving DecidableEq, Repr

def validateSlot (g : Geometry) (slot : Nat) : Except MoveError Unit :=
  if g.numSlots ≤ slot then .error (.invalidSlot slot) else .ok ()

def canRestorePrefix (b : Books) (slot kvLen : Nat) : Bool := decide (kvLen ≤ b.cachedPrefixLen slot)

def pagesOfPrefix (g : Geometry) (kvLen : Nat) : Nat := (kvLen + g.pageSize - 1) / g.pageSize

/-- The logical pages that a narrow row keeps of a prefix of `pages` pages. -/
def tailPages (g : Geometry) (pages : Nat) : List Nat :=
  range' (pages - min pages g.draftRowPages) (min pages g.draftRowPages)

def slotPages (g : Geometry) (slot : Nat) (pages : List Nat) : List Nat :=
  pages.map fun page => slot * g.draftRowPages + (if g.narrow then page % g.draftRingPages else page)

/-- `copy_prefix`: the pages read and written, in pairs. -/
def copyPrefix (g : Geometry) (b : Books) (sourceSlot targetSlot kvLen : Nat) :
    Except MoveError (List (Nat × Nat) × Books) := do
  validateSlot g sourceSlot
  validateSlot g targetSlot
  if !canRestorePrefix b sourceSlot kvLen then throw (.notRestorable sourceSlot kvLen)
  if sourceSlot = targetSlot then
    pure ([], { b with draftKvLen := update b.draftKvLen targetSlot kvLen })
  else
    let pages := pagesOfPrefix g kvLen
    if g.pagesPerSlot < pages then throw (.slotCapacity pages g.pagesPerSlot)
    let tail := tailPages g pages
    pure ((slotPages g sourceSlot tail).zip (slotPages g targetSlot tail),
      { b with draftKvLen := update b.draftKvLen targetSlot kvLen
               cachedPrefixLen := update b.cachedPrefixLen targetSlot 0 })

def checkScratch (g : Geometry) (kvLen : Nat) (scratchPages : List Nat) : Except MoveError Unit :=
  if scratchPages.length ≠ pagesOfPrefix g kvLen ∨ ¬scratchPages.Nodup then .error (.scratchCount scratchPages)
  else if ∃ page ∈ scratchPages, g.pagesPerSlot ≤ page then .error (.scratchOutside scratchPages)
  else .ok ()

/-- `snapshot_prefix_to_scratch`: the pages moved, or nothing where the draft family is behind the prefix. -/
def snapshotPrefixToScratch (g : Geometry) (b : Books) (sourceSlot kvLen : Nat) (scratchPages : List Nat) :
    Except MoveError (Option (List (Nat × Nat)) × Books) := do
  validateSlot g sourceSlot
  if b.draftKvLen sourceSlot < kvLen then pure (none, b)
  else
    checkScratch g kvLen scratchPages
    let pages := pagesOfPrefix g kvLen
    let source := slotPages g sourceSlot (if g.narrow then tailPages g pages else range pages)
    pure (some (source.zip (snapshotPages g scratchPages)),
      { b with scratchValidPages := b.scratchValidPages ++ scratchPages })

def restorePrefixFromScratch (g : Geometry) (b : Books) (targetSlot kvLen : Nat) (scratchPages : List Nat) :
    Except MoveError (Option (List (Nat × Nat)) × Books) := do
  validateSlot g targetSlot
  checkScratch g kvLen scratchPages
  if ¬scratchPages ⊆ b.scratchValidPages then pure (none, b)
  else
    let pages := pagesOfPrefix g kvLen
    let target := slotPages g targetSlot (if g.narrow then tailPages g pages else range pages)
    pure (some ((snapshotPages g scratchPages).zip target),
      { b with draftKvLen := update b.draftKvLen targetSlot kvLen
               cachedPrefixLen := update b.cachedPrefixLen targetSlot 0 })

end Moves

section Addressed

variable (g : RingGeometry)

def readRow (slot kvLen position : Nat) : Option Nat :=
  match draftAttentionPageTable g slot kvLen g.queryTokens with
  | .ok view => viewRow g.toGeometry kvLen view position
  | .error _ => none

/-- Where the paged view starts: the window, moved back to a page. -/
def windowStart (kvLen : Nat) : Nat :=
  (kvLen - min kvLen g.windowSize) - (kvLen - min kvLen g.windowSize) % g.pageSize

/-- The attended window: what the view shows of the prefix, and the queries of the block behind it. -/
def Attended (kvLen position : Nat) : Prop := windowStart g kvLen ≤ position ∧ position < kvLen + g.queryTokens

/-- A row that a slot uses for a position. -/
inductive RowOf (slot position : Nat) : Nat → Prop where
  | written : RowOf slot position (slotMapping g.toGeometry slot position)
  | fused : RowOf slot position (contextRow g.toGeometry slot position)
  | read {kvLen row : Nat} (hattended : Attended g kvLen position) (h : readRow g slot kvLen position = some row) :
    RowOf slot position row

/-- A persistent entry that passed the two checks of its scratch pages. -/
structure Stored where
  kvLen : Nat
  scratchPages : List Nat
  length_eq : scratchPages.length = pagesOfPrefix g.toGeometry kvLen
  nodup : scratchPages.Nodup
  lt : ∀ page ∈ scratchPages, page < g.pagesPerSlot

namespace Stored

variable {g}

def row (e : Stored g) (position : Nat) : Option Nat :=
  e.scratchPages[position / g.pageSize]?.map fun page =>
    (g.scratchRow * g.draftRowPages + page % g.draftRingPages) * g.pageSize + position % g.pageSize

def Kept (e : Stored g) (position : Nat) : Prop :=
  e.scratchPages.length - min e.scratchPages.length g.draftRowPages ≤ position / g.pageSize ∧ position < e.kvLen

def Live (e : Stored g) (position : Nat) : Prop := Attended g e.kvLen position ∧ position < e.kvLen

end Stored

def Moves (pairs : List (Nat × Nat)) (row row' : Nat) : Prop :=
  (row / g.pageSize, row' / g.pageSize) ∈ pairs ∧ row % g.pageSize = row' % g.pageSize

/-- Writer, fused writer, reader, copy, snapshot and restore mean the same rows of a slot, and no two things that must
not share a row do. -/
structure Addressed (slot kvLen : Nat) (stored : List (Stored g)) : Prop where
  written : ∀ p, Attended g kvLen p → readRow g slot kvLen p = some (slotMapping g.toGeometry slot p)
  fused : ∀ p, Attended g kvLen p → readRow g slot kvLen p = some (contextRow g.toGeometry slot p)
  copied : ∀ b b' target pairs, target ≠ slot → copyPrefix g.toGeometry b slot target kvLen = .ok (pairs, b') →
    ∀ p < kvLen, Attended g kvLen p →
      ∃ r r', readRow g slot kvLen p = some r ∧ readRow g target kvLen p = some r' ∧ Moves g pairs r r'
  snapshot : ∀ e ∈ stored, ∀ b b' pairs,
    snapshotPrefixToScratch g.toGeometry b slot e.kvLen e.scratchPages = .ok (some pairs, b') → ∀ p, e.Live p →
      ∃ r r', readRow g slot e.kvLen p = some r ∧ e.row p = some r' ∧ Moves g pairs r r'
  restored : ∀ e ∈ stored, ∀ b b' pairs,
    restorePrefixFromScratch g.toGeometry b slot e.kvLen e.scratchPages = .ok (some pairs, b') → ∀ p, e.Live p →
      ∃ r r', e.row p = some r ∧ readRow g slot e.kvLen p = some r' ∧ Moves g pairs r r'
  distinct : ∀ p p', Attended g kvLen p → Attended g kvLen p' → p ≠ p' →
    slotMapping g.toGeometry slot p ≠ slotMapping g.toGeometry slot p' ∧
      contextRow g.toGeometry slot p ≠ contextRow g.toGeometry slot p' ∧ readRow g slot kvLen p ≠ readRow g slot kvLen p'
  slots : ∀ slot' < g.numSlots, slot' ≠ slot → ∀ p p' r, RowOf g slot p r → ¬RowOf g slot' p' r
  held : ∀ e ∈ stored, ∀ slot' < g.numSlots, ∀ p p' r, e.row p = some r → ¬RowOf g slot' p' r
  entry : ∀ e ∈ stored, ∀ p p', e.Live p → e.Live p' → p ≠ p' → e.row p ≠ e.row p'
  kept : ∀ e ∈ stored, ∀ p p', e.Kept p → e.Kept p' → e.row p = e.row p' →
    p / g.pageSize % g.draftRingPages = p' / g.pageSize % g.draftRingPages
  entries : stored.Pairwise fun e e' => ∀ p p', e.Kept p → e'.Kept p' → e.row p ≠ e'.row p'

def viewPages (kvLen : Nat) : Nat := PageRing.pagesOf g.pageSize (kvLen - windowStart g kvLen + g.queryTokens)

def firstPage (kvLen : Nat) : Nat := windowStart g kvLen / g.pageSize

def ringPlaces (pages : List Nat) : List Nat := pages.map (· % g.draftRingPages)

/-- The scratch pages that a snapshot writes. -/
def Stored.keptPages {g : RingGeometry} (e : Stored g) : List Nat :=
  e.scratchPages.drop (e.scratchPages.length - min e.scratchPages.length g.draftRowPages)

def Stored.lastRound {g : RingGeometry} (e : Stored g) : List Nat :=
  e.scratchPages.drop (e.scratchPages.length - min e.scratchPages.length g.draftRingPages)

/-- When they do. The writers shift a page by the slot's pages of the wide pool and the reader does not, the fused
writer goes round the reserved page as well, and the scratch pages of the stored entries share the ring of one row. -/
structure Aligned (slot kvLen : Nat) (stored : List (Stored g)) : Prop where
  shift : slot * g.pagesPerSlot % g.draftRingPages = 0
  fused : (firstPage g kvLen + slot * g.pagesPerSlot) % g.draftRowPages = firstPage g kvLen % g.draftRingPages ∧
    firstPage g kvLen % g.draftRingPages + viewPages g kvLen ≤ g.draftRingPages
  round : ∀ e ∈ stored, (ringPlaces g e.lastRound).Nodup
  back : ∀ e ∈ stored, g.draftRingPages < e.scratchPages.length →
    e.scratchPages.getD (e.scratchPages.length - 1 - g.draftRingPages) 0 % g.draftRingPages =
      e.scratchPages.getD (e.scratchPages.length - 1) 0 % g.draftRingPages
  entries : stored.Pairwise fun e e' => (ringPlaces g e.keptPages).Disjoint (ringPlaces g e'.keptPages)

end Addressed

section Rows

variable {g : RingGeometry}

theorem ringPages_eq (hnarrow : g.narrow = true) :
    g.draftRingPages = (g.windowTokens + g.pageSize - 1) / g.pageSize + 1 := by
  simp only [Geometry.draftRingPages, Geometry.draftRowPages, hnarrow, if_true]
  rfl

theorem rowPages_eq (hnarrow : g.narrow = true) : g.draftRowPages = g.draftRingPages + 1 := by
  rw [ringPages_eq hnarrow, Geometry.draftRowPages, if_pos hnarrow]

theorem ringPages_pos (hnarrow : g.narrow = true) : 0 < g.draftRingPages := by
  rw [ringPages_eq hnarrow]
  exact Nat.succ_pos _

def rowAt (g : Geometry) (slot page offset : Nat) : Nat := (slot * g.draftRowPages + page) * g.pageSize + offset

theorem rowAt_inj {slot slot' page page' offset offset' : Nat} (hpage : page < g.draftRowPages)
    (hpage' : page' < g.draftRowPages) (hoffset : offset < g.pageSize) (hoffset' : offset' < g.pageSize) :
    rowAt g.toGeometry slot page offset = rowAt g.toGeometry slot' page' offset' ↔
      (slot = slot' ∧ page = page') ∧ offset = offset' := by
  rw [rowAt, rowAt, PageRing.mul_add_inj hoffset hoffset', PageRing.mul_add_inj hpage hpage']

theorem offset_lt (g : RingGeometry) (position : Nat) : position % g.pageSize < g.pageSize :=
  Nat.mod_lt _ g.pageSize_pos

theorem rowAt_div (slot page position : Nat) :
    rowAt g.toGeometry slot page (position % g.pageSize) / g.pageSize = slot * g.draftRowPages + page :=
  PageRing.mul_add_div (offset_lt g position)

theorem rowAt_mod (slot page position : Nat) :
    rowAt g.toGeometry slot page (position % g.pageSize) % g.pageSize = position % g.pageSize := by
  rw [rowAt, Nat.mul_add_mod_of_lt (offset_lt g position)]

theorem slotMapping_eq (hnarrow : g.narrow = true) (slot position : Nat) :
    slotMapping g.toGeometry slot position = rowAt g.toGeometry slot
      ((position / g.pageSize + slot * g.pagesPerSlot) % g.draftRingPages) (position % g.pageSize) := by
  simp only [slotMapping, hnarrow, if_true, rowAt, Nat.mod_eq_sub_div_mul]

theorem contextRow_eq (hnarrow : g.narrow = true) (slot position : Nat) :
    contextRow g.toGeometry slot position = rowAt g.toGeometry slot
      ((position / g.pageSize + slot * g.pagesPerSlot) % g.draftRowPages) (position % g.pageSize) := by
  simp only [contextRow, hnarrow, if_true, rowAt, Nat.mod_eq_sub_div_mul]

theorem stored_row_eq {e : Stored g} {position page : Nat} (h : e.scratchPages[position / g.pageSize]? = some page) :
    e.row position =
      some (rowAt g.toGeometry g.scratchRow (page % g.draftRingPages) (position % g.pageSize)) := by
  rw [Stored.row, h]
  rfl

end Rows

section Window

variable {g : RingGeometry} {kvLen : Nat}

theorem windowStart_eq (g : RingGeometry) (kvLen : Nat) : windowStart g kvLen = firstPage g kvLen * g.pageSize := by
  rw [firstPage, windowStart, ← Nat.div_mul_self_eq_mod_sub_self, Nat.mul_div_cancel _ g.pageSize_pos]

theorem windowStart_le (g : RingGeometry) (kvLen : Nat) : windowStart g kvLen ≤ kvLen := by
  unfold windowStart
  omega

theorem compactDflashWindow_eq (hcompact : g.compact = true) (kvLen : Nat) :
    compactDflashWindow kvLen g.windowSize g.pageSize = .ok (kvLen - windowStart g kvLen, firstPage g kvLen) := by
  have hwindow : g.windowSize ≠ 0 := ne_of_gt (g.windowSize_pos hcompact)
  have hpage : g.pageSize ≠ 0 := ne_of_gt g.pageSize_pos
  rw [compactDflashWindow, if_neg hwindow, if_neg hpage]
  rfl

/-- The prefix that the view shows is at most a page longer than the window. -/
theorem local_lt (g : RingGeometry) (kvLen : Nat) : kvLen - windowStart g kvLen < g.windowSize + g.pageSize := by
  have hmod := Nat.mod_lt (kvLen - min kvLen g.windowSize) g.pageSize_pos
  unfold windowStart
  omega

/-- The view never wraps onto itself. -/
theorem viewPages_le (hnarrow : g.narrow = true) (kvLen : Nat) : viewPages g kvLen ≤ g.draftRingPages := by
  have hlocal := local_lt g kvLen
  rw [ringPages_eq hnarrow, viewPages, PageRing.pagesOf, ← Nat.add_div_right _ g.pageSize_pos, g.windowTokens_eq]
  apply Nat.div_le_div_right
  have hpos := g.pageSize_pos
  omega

theorem viewPages_pos (g : RingGeometry) (kvLen : Nat) : 0 < viewPages g kvLen := by
  rw [viewPages, PageRing.lt_pagesOf_iff g.pageSize_pos, zero_mul]
  have := g.queryTokens_pos
  omega

theorem Attended.page {position : Nat} (h : Attended g kvLen position) :
    ∃ i < viewPages g kvLen, position / g.pageSize = firstPage g kvLen + i := by
  have hstart := windowStart_eq g kvLen
  have hle := windowStart_le g kvLen
  have hpage : firstPage g kvLen ≤ position / g.pageSize := by
    rw [Nat.le_div_iff_mul_le g.pageSize_pos, ← hstart]
    exact h.1
  obtain ⟨i, hi⟩ := Nat.exists_eq_add_of_le hpage
  have hrow : (firstPage g kvLen + i) * g.pageSize ≤ position := by
    rw [← hi]
    exact Nat.div_mul_le_self _ _
  refine ⟨i, ?_, hi⟩
  rw [viewPages, PageRing.lt_pagesOf_iff g.pageSize_pos]
  rw [add_mul, ← hstart] at hrow
  have hlt := h.2
  omega

theorem attended_pageStart {i : Nat} (hi : i < viewPages g kvLen) :
    Attended g kvLen ((firstPage g kvLen + i) * g.pageSize) := by
  have hle := windowStart_le g kvLen
  rw [viewPages, PageRing.lt_pagesOf_iff g.pageSize_pos] at hi
  rw [Attended, add_mul, ← windowStart_eq]
  omega

/-- A statement about the pages of attended positions is one about the pages of the view. -/
theorem forall_attended_page (kvLen : Nat) (P : Nat → Prop) :
    (∀ p, Attended g kvLen p → P (p / g.pageSize)) ↔ ∀ i < viewPages g kvLen, P (firstPage g kvLen + i) := by
  constructor
  · intro h i hi
    have hpage := h _ (attended_pageStart hi)
    rwa [Nat.mul_div_cancel _ g.pageSize_pos] at hpage
  · intro h p hp
    obtain ⟨i, hi, hpage⟩ := hp.page
    rw [hpage]
    exact h i hi

/-- Two attended positions on one place of the ring and of the page are the same. -/
theorem Attended.inj (hnarrow : g.narrow = true) {p p' : Nat} (hp : Attended g kvLen p) (hp' : Attended g kvLen p')
    (hring : p / g.pageSize % g.draftRingPages = p' / g.pageSize % g.draftRingPages)
    (hoffset : p % g.pageSize = p' % g.pageSize) : p = p' := by
  obtain ⟨i, hi, hpage⟩ := hp.page
  obtain ⟨j, hj, hpage'⟩ := hp'.page
  have hle := viewPages_le hnarrow kvLen
  rw [hpage, hpage'] at hring
  have hij := PageRing.add_mod_inj hring (lt_of_lt_of_le hi hle) (lt_of_lt_of_le hj hle)
  rw [← Nat.div_add_mod p g.pageSize, ← Nat.div_add_mod p' g.pageSize, hpage, hpage', hij, hoffset]

end Window

section Reader

variable {g : RingGeometry} {slot kvLen : Nat}

theorem draftAttentionPageTable_eq (hnarrow : g.narrow = true) (hslot : slot < g.numSlots) (kvLen : Nat) :
    draftAttentionPageTable g slot kvLen g.queryTokens = .ok
      (zerosWith g.draftRowPages ((range (viewPages g kvLen)).map fun i =>
        slot * g.draftRowPages + (firstPage g kvLen + i) % g.draftRingPages), kvLen - windowStart g kvLen) := by
  have hcompact := g.compact_of_narrow hnarrow
  have hfits : ¬g.draftRowPages < viewPages g kvLen := by
    have hle := viewPages_le hnarrow kvLen
    have hrow := rowPages_eq hnarrow
    omega
  rw [draftAttentionPageTable, pageTable, if_neg (not_le.mpr hslot)]
  simp only [hcompact, hnarrow, Bool.not_true, Bool.false_eq_true, if_false, if_true, bind, Except.bind,
    compactDflashWindow_eq hcompact, length_range']
  exact if_neg hfits

/-- The reader resolves an attended position to its page modulo the ring. -/
theorem readRow_eq (hnarrow : g.narrow = true) (hslot : slot < g.numSlots) {p : Nat} (hp : Attended g kvLen p) :
    readRow g slot kvLen p =
      some (rowAt g.toGeometry slot (p / g.pageSize % g.draftRingPages) (p % g.pageSize)) := by
  obtain ⟨i, hi, hpage⟩ := hp.page
  have hstart := windowStart_eq g kvLen
  have hcolumn : p - (kvLen - (kvLen - windowStart g kvLen)) = p - firstPage g kvLen * g.pageSize := by
    rw [Nat.sub_sub_self (windowStart_le g kvLen), hstart]
  have hrow : p = firstPage g kvLen * g.pageSize + (i * g.pageSize + p % g.pageSize) := by
    rw [← add_assoc, ← add_mul, ← hpage, Nat.div_add_mod']
  have hoffset := offset_lt g p
  rw [readRow, draftAttentionPageTable_eq hnarrow hslot]
  simp only [viewRow, hcolumn]
  rw [Nat.sub_eq_of_eq_add' hrow, PageRing.mul_add_div hoffset, zerosWith,
    getElem?_append_left (by rwa [length_map, length_range]), getElem?_map,
    getElem?_range hi, Nat.mul_add_mod_of_lt hoffset, hpage]
  rfl

end Reader

section Tail

variable {g : RingGeometry} {slot kvLen : Nat}

theorem mem_tailPages {g : Geometry} {pages page : Nat} :
    page ∈ tailPages g pages ↔ pages - min pages g.draftRowPages ≤ page ∧ page < pages := by
  rw [tailPages, mem_range'_1]
  omega

theorem lt_pagesOfPrefix_iff (g : Geometry) (kvLen page : Nat) :
    page < pagesOfPrefix g kvLen ↔ page * g.pageSize < kvLen := PageRing.lt_pagesOf_iff g.pageSize_pos

theorem page_lt_pagesOfPrefix {p : Nat} (hp : p < kvLen) : p / g.pageSize < pagesOfPrefix g.toGeometry kvLen := by
  rw [lt_pagesOfPrefix_iff]
  exact lt_of_le_of_lt (Nat.div_mul_le_self _ _) hp

theorem pagesOfPrefix_le (g : RingGeometry) (kvLen : Nat) :
    pagesOfPrefix g.toGeometry kvLen ≤ firstPage g kvLen + viewPages g kvLen := by
  rw [← not_lt, lt_pagesOfPrefix_iff, add_mul, ← windowStart_eq]
  have hview : ¬viewPages g kvLen < viewPages g kvLen := lt_irrefl _
  rw [viewPages, PageRing.lt_pagesOf_iff g.pageSize_pos, ← viewPages] at hview
  omega

/-- A narrow row keeps the whole window. -/
theorem Attended.mem_tailPages (hnarrow : g.narrow = true) {p : Nat} (hp : Attended g kvLen p) (hlt : p < kvLen) :
    p / g.pageSize ∈ tailPages g.toGeometry (pagesOfPrefix g.toGeometry kvLen) := by
  obtain ⟨i, -, hpage⟩ := hp.page
  have hle := pagesOfPrefix_le g kvLen
  have hring := viewPages_le hnarrow kvLen
  have hrow := rowPages_eq hnarrow
  rw [DraftRing.mem_tailPages]
  exact ⟨by omega, page_lt_pagesOfPrefix hlt⟩

theorem slotPages_eq (hnarrow : g.narrow = true) (pages : List Nat) :
    slotPages g.toGeometry slot pages = pages.map fun page => slot * g.draftRowPages + page % g.draftRingPages := by
  simp only [slotPages, hnarrow, if_true]

theorem snapshotPages_eq (hnarrow : g.narrow = true) (pages : List Nat) :
    snapshotPages g.toGeometry pages = (pages.drop (pages.length - min pages.length g.draftRowPages)).map fun page =>
      g.scratchRow * g.draftRowPages + page % g.draftRingPages := by
  simp only [snapshotPages, hnarrow, if_true]

/-- A logical page of the tail stands in the zip of the two page lists beside the scratch page of the entry. -/
theorem zip_tailPages {e : Stored g} {page scratch : Nat} (hpage : e.scratchPages[page]? = some scratch)
    (htail : page ∈ tailPages g.toGeometry (pagesOfPrefix g.toGeometry e.kvLen)) :
    (page, scratch) ∈ (tailPages g.toGeometry (pagesOfPrefix g.toGeometry e.kvLen)).zip e.keptPages := by
  have hkept : e.keptPages = e.scratchPages.drop (pagesOfPrefix g.toGeometry e.kvLen -
      min (pagesOfPrefix g.toGeometry e.kvLen) g.draftRowPages) := by rw [Stored.keptPages, e.length_eq]
  rw [DraftRing.mem_tailPages] at htail
  rw [hkept, tailPages]
  generalize hfirst : pagesOfPrefix g.toGeometry e.kvLen - min (pagesOfPrefix g.toGeometry e.kvLen) g.draftRowPages =
    first at htail
  obtain ⟨k, rfl⟩ := Nat.exists_eq_add_of_le htail.1
  apply mem_of_getElem? (i := k)
  rw [getElem?_zip_eq_some, getElem?_drop, hpage, getElem?_range' (by omega), one_mul]
  exact ⟨rfl, rfl⟩

theorem Stored.getElem?_page (e : Stored g) {p : Nat} (hlt : p < e.kvLen) :
    ∃ scratch, e.scratchPages[p / g.pageSize]? = some scratch := by
  have hpage : p / g.pageSize < e.scratchPages.length := by
    rw [e.length_eq]
    exact page_lt_pagesOfPrefix hlt
  exact ⟨_, getElem?_eq_getElem hpage⟩

end Tail

section Moved

variable {g : RingGeometry} {slot kvLen : Nat} {b b' : Books} {pairs : List (Nat × Nat)}
variable {scratchPages : List Nat}

theorem validateSlot_bind {g : Geometry} {α : Type} {f : Unit → Except MoveError α} {a : α}
    (h : (validateSlot g slot >>= f) = .ok a) : slot < g.numSlots ∧ f () = .ok a := by
  by_cases hslot : g.numSlots ≤ slot
  · rw [validateSlot, if_pos hslot] at h
    cases h
  · rw [validateSlot, if_neg hslot] at h
    exact ⟨not_le.mp hslot, h⟩

theorem checkScratch_bind {g : Geometry} {α : Type} {f : Unit → Except MoveError α} {a : α}
    (h : (checkScratch g kvLen scratchPages >>= f) = .ok a) : f () = .ok a := by
  unfold checkScratch at h
  split at h
  · cases h
  · split at h
    · cases h
    · exact h

theorem copyPrefix_pairs {target : Nat} (hne : slot ≠ target)
    (h : copyPrefix g.toGeometry b slot target kvLen = .ok (pairs, b')) :
    target < g.numSlots ∧
      pairs = (slotPages g.toGeometry slot (tailPages g.toGeometry (pagesOfPrefix g.toGeometry kvLen))).zip
        (slotPages g.toGeometry target (tailPages g.toGeometry (pagesOfPrefix g.toGeometry kvLen))) := by
  obtain ⟨-, h⟩ := validateSlot_bind h
  obtain ⟨htarget, h⟩ := validateSlot_bind h
  refine ⟨htarget, ?_⟩
  rw [if_neg hne] at h
  split at h
  · cases h
  · dsimp only at h
    split at h
    · cases h
    · cases h
      rfl

theorem snapshot_pairs (hnarrow : g.narrow = true)
    (h : snapshotPrefixToScratch g.toGeometry b slot kvLen scratchPages = .ok (some pairs, b')) :
    pairs = (slotPages g.toGeometry slot (tailPages g.toGeometry (pagesOfPrefix g.toGeometry kvLen))).zip
      (snapshotPages g.toGeometry scratchPages) := by
  obtain ⟨-, h⟩ := validateSlot_bind h
  split at h
  · cases h
  · have h := checkScratch_bind h
    cases h
    rfl

theorem restore_pairs (hnarrow : g.narrow = true)
    (h : restorePrefixFromScratch g.toGeometry b slot kvLen scratchPages = .ok (some pairs, b')) :
    pairs = (snapshotPages g.toGeometry scratchPages).zip
      (slotPages g.toGeometry slot (tailPages g.toGeometry (pagesOfPrefix g.toGeometry kvLen))) := by
  obtain ⟨-, h⟩ := validateSlot_bind h
  have h := checkScratch_bind h
  split at h
  · cases h
  · cases h
    rfl

section

variable (hnarrow : g.narrow = true) (hslot : slot < g.numSlots) {p : Nat}
include hnarrow hslot

theorem copied {target : Nat} (hne : target ≠ slot)
    (h : copyPrefix g.toGeometry b slot target kvLen = .ok (pairs, b')) (hlt : p < kvLen)
    (hp : Attended g kvLen p) :
    ∃ r r', readRow g slot kvLen p = some r ∧ readRow g target kvLen p = some r' ∧ Moves g pairs r r' := by
  obtain ⟨htarget, rfl⟩ := copyPrefix_pairs hne.symm h
  refine ⟨_, _, readRow_eq hnarrow hslot hp, readRow_eq hnarrow htarget hp, ?_, ?_⟩
  · rw [rowAt_div, rowAt_div, slotPages_eq hnarrow, slotPages_eq hnarrow, zip_map']
    exact mem_map.mpr ⟨_, hp.mem_tailPages hnarrow hlt, rfl⟩
  · rw [rowAt_mod, rowAt_mod]

/-- The page of a live position is moved between its place in the slot and its place in the entry. -/
theorem Stored.Live.moved {e : Stored g} (hp : e.Live p) :
    ∃ r r', readRow g slot e.kvLen p = some r ∧ e.row p = some r' ∧
      Moves g ((slotPages g.toGeometry slot (tailPages g.toGeometry (pagesOfPrefix g.toGeometry e.kvLen))).zip
        (snapshotPages g.toGeometry e.scratchPages)) r r' := by
  obtain ⟨scratch, hscratch⟩ := e.getElem?_page hp.2
  refine ⟨_, _, readRow_eq hnarrow hslot hp.1, stored_row_eq hscratch, ?_, ?_⟩
  · rw [rowAt_div, rowAt_div, slotPages_eq hnarrow, snapshotPages_eq hnarrow, zip_map]
    exact mem_map.mpr ⟨_, zip_tailPages hscratch (hp.1.mem_tailPages hnarrow hp.2), rfl⟩
  · rw [rowAt_mod, rowAt_mod]

theorem snapshotted {e : Stored g}
    (h : snapshotPrefixToScratch g.toGeometry b slot e.kvLen e.scratchPages = .ok (some pairs, b'))
    (hp : e.Live p) : ∃ r r', readRow g slot e.kvLen p = some r ∧ e.row p = some r' ∧ Moves g pairs r r' := by
  rw [snapshot_pairs hnarrow h]
  exact hp.moved hnarrow hslot

end

theorem Moves.swap {l l' : List Nat} {r r' : Nat} (h : Moves g (l.zip l') r r') : Moves g (l'.zip l) r' r := by
  refine ⟨?_, h.2.symm⟩
  rw [← zip_swap]
  exact mem_map.mpr ⟨_, h.1, rfl⟩

theorem restored (hnarrow : g.narrow = true) (hslot : slot < g.numSlots) {e : Stored g}
    (h : restorePrefixFromScratch g.toGeometry b slot e.kvLen e.scratchPages = .ok (some pairs, b')) {p : Nat}
    (hp : e.Live p) : ∃ r r', e.row p = some r ∧ readRow g slot e.kvLen p = some r' ∧ Moves g pairs r r' := by
  obtain ⟨r, r', hread, hrow, hmoves⟩ := hp.moved hnarrow hslot
  rw [restore_pairs hnarrow h]
  exact ⟨r', r, hrow, hread, hmoves.swap⟩

end Moved

section Apart

variable {g : RingGeometry} {slot kvLen : Nat}
variable {p r p' : Nat} {e : Stored g}

section

variable (hnarrow : g.narrow = true)
include hnarrow

/-- Every row of a slot lies in the slot's block of the cache. -/
theorem RowOf.block (hslot : slot < g.numSlots) (h : RowOf g slot p r) :
    ∃ page < g.draftRowPages, r = rowAt g.toGeometry slot page (p % g.pageSize) := by
  have hring : g.draftRingPages ≤ g.draftRowPages := by
    rw [rowPages_eq hnarrow]
    exact Nat.le_succ _
  have hpos := ringPages_pos hnarrow
  cases h with
  | written => exact ⟨_, lt_of_lt_of_le (Nat.mod_lt _ hpos) hring, slotMapping_eq hnarrow slot p⟩
  | fused => exact ⟨_, Nat.mod_lt _ (lt_of_lt_of_le hpos hring), contextRow_eq hnarrow slot p⟩
  | read hattended h =>
    rw [readRow_eq hnarrow hslot hattended, Option.some.injEq] at h
    exact ⟨_, lt_of_lt_of_le (Nat.mod_lt _ hpos) hring, h.symm⟩

theorem RowOf.apart (hslot : slot < g.numSlots) {slot' : Nat}
    (hslot' : slot' < g.numSlots) (hne : slot' ≠ slot) (h : RowOf g slot p r) : ¬RowOf g slot' p' r := by
  intro h'
  obtain ⟨page, hpage, rfl⟩ := h.block hnarrow hslot
  obtain ⟨page', hpage', heq⟩ := h'.block hnarrow hslot'
  exact hne ((rowAt_inj hpage hpage' (offset_lt g p) (offset_lt g p')).mp heq).1.1.symm

theorem Stored.row_block (h : e.row p = some r) :
    ∃ page < g.draftRowPages, r = rowAt g.toGeometry g.numSlots page (p % g.pageSize) := by
  obtain ⟨scratch, -, rfl⟩ := Option.map_eq_some_iff.mp h
  have hpage : scratch % g.draftRingPages < g.draftRowPages := by
    have hlt := Nat.mod_lt scratch (ringPages_pos hnarrow)
    have hrow := rowPages_eq hnarrow
    omega
  exact ⟨_, hpage, rfl⟩

/-- No slot reaches the scratch row. -/
theorem Stored.held (hslot : slot < g.numSlots) (h : e.row p = some r) : ¬RowOf g slot p' r := by
  intro h'
  obtain ⟨page, hpage, rfl⟩ := e.row_block hnarrow h
  obtain ⟨page', hpage', heq⟩ := h'.block hnarrow hslot
  have hslots := ((rowAt_inj hpage hpage' (offset_lt g p) (offset_lt g p')).mp heq).1.1
  omega

/-- Rows of two entries are one exactly when the scratch pages share a place of the ring. -/
theorem Stored.row_eq_iff {e' : Stored g} {scratch scratch' : Nat}
    (h : e.scratchPages[p / g.pageSize]? = some scratch) (h' : e'.scratchPages[p' / g.pageSize]? = some scratch') :
    e.row p = e'.row p' ↔
      scratch % g.draftRingPages = scratch' % g.draftRingPages ∧ p % g.pageSize = p' % g.pageSize := by
  have hpage : ∀ n, n % g.draftRingPages < g.draftRowPages := by
    intro n
    have hlt := Nat.mod_lt n (ringPages_pos hnarrow)
    have hrow := rowPages_eq hnarrow
    omega
  rw [stored_row_eq h, stored_row_eq h', Option.some.injEq,
    rowAt_inj (hpage _) (hpage _) (offset_lt g p) (offset_lt g p')]
  tauto

theorem Stored.Live.kept (hp : e.Live p) : e.Kept p := by
  have htail := hp.1.mem_tailPages hnarrow hp.2
  rw [mem_tailPages, ← e.length_eq] at htail
  exact ⟨htail.1, hp.2⟩

end

theorem Stored.kept_pageStart {page : Nat}
    (hfirst : e.scratchPages.length - min e.scratchPages.length g.draftRowPages ≤ page)
    (hlt : page < e.scratchPages.length) : e.Kept (page * g.pageSize) := by
  rw [e.length_eq, lt_pagesOfPrefix_iff] at hlt
  rw [Kept, Nat.mul_div_cancel _ g.pageSize_pos]
  exact ⟨hfirst, hlt⟩

theorem Stored.getElem?_pageStart {page scratch : Nat} (h : e.scratchPages[page]? = some scratch) :
    e.scratchPages[page * g.pageSize / g.pageSize]? = some scratch := by
  rwa [Nat.mul_div_cancel _ g.pageSize_pos]

theorem Stored.mem_ringPlaces {place : Nat} :
    place ∈ ringPlaces g e.keptPages ↔ ∃ page scratch,
      e.scratchPages.length - min e.scratchPages.length g.draftRowPages ≤ page ∧
        e.scratchPages[page]? = some scratch ∧ scratch % g.draftRingPages = place := by
  rw [ringPlaces, mem_map, keptPages]
  constructor
  · rintro ⟨scratch, hmem, hplace⟩
    obtain ⟨i, hi⟩ := mem_iff_getElem?.mp hmem
    rw [getElem?_drop] at hi
    exact ⟨_, scratch, Nat.le_add_right _ i, hi, hplace⟩
  · rintro ⟨page, scratch, hfirst, hpage, hplace⟩
    obtain ⟨i, rfl⟩ := Nat.exists_eq_add_of_le hfirst
    rw [← getElem?_drop] at hpage
    exact ⟨scratch, mem_of_getElem? hpage, hplace⟩

theorem Stored.entries_iff (hnarrow : g.narrow = true) (e e' : Stored g) :
    (∀ p p', e.Kept p → e'.Kept p' → e.row p ≠ e'.row p') ↔
      (ringPlaces g e.keptPages).Disjoint (ringPlaces g e'.keptPages) := by
  constructor
  · intro h place hplace hplace'
    obtain ⟨page, scratch, hfirst, hpage, hmod⟩ := mem_ringPlaces.mp hplace
    obtain ⟨page', scratch', hfirst', hpage', hmod'⟩ := mem_ringPlaces.mp hplace'
    have hkept := kept_pageStart hfirst (List.getElem?_eq_some_iff.mp hpage).1
    have hkept' := kept_pageStart hfirst' (List.getElem?_eq_some_iff.mp hpage').1
    apply h _ _ hkept hkept'
    rw [row_eq_iff hnarrow (getElem?_pageStart hpage) (getElem?_pageStart hpage'), Nat.mul_mod_left, Nat.mul_mod_left]
    exact ⟨hmod.trans hmod'.symm, rfl⟩
  · intro h p p' hp hp' heq
    obtain ⟨scratch, hscratch⟩ := e.getElem?_page hp.2
    obtain ⟨scratch', hscratch'⟩ := e'.getElem?_page hp'.2
    rw [row_eq_iff hnarrow hscratch hscratch'] at heq
    exact h (mem_ringPlaces.mpr ⟨_, _, hp.1, hscratch, rfl⟩) (mem_ringPlaces.mpr ⟨_, _, hp'.1, hscratch', heq.1.symm⟩)

/-- A stored entry keeps apart what its slot kept apart. -/
theorem Stored.kept_iff (hnarrow : g.narrow = true) (e : Stored g) :
    (∀ p p', e.Kept p → e.Kept p' → e.row p = e.row p' →
        p / g.pageSize % g.draftRingPages = p' / g.pageSize % g.draftRingPages) ↔
      (ringPlaces g e.lastRound).Nodup ∧ (g.draftRingPages < e.scratchPages.length →
        e.scratchPages.getD (e.scratchPages.length - 1 - g.draftRingPages) 0 % g.draftRingPages =
          e.scratchPages.getD (e.scratchPages.length - 1) 0 % g.draftRingPages) := by
  rw [ringPlaces, lastRound, ← PageRing.round_iff (ringPages_pos hnarrow), ← rowPages_eq hnarrow]
  constructor
  · intro h x y hx hxlt hy hylt heq
    have hget := fun page (hlt : page < e.scratchPages.length) => getElem?_pageStart (g := g)
      (getElem?_eq_getElem hlt)
    have hrow : e.row (x * g.pageSize) = e.row (y * g.pageSize) := by
      rw [row_eq_iff hnarrow (hget x hxlt) (hget y hylt), Nat.mul_mod_left, Nat.mul_mod_left]
      rw [getD_eq_getElem _ _ hxlt, getD_eq_getElem _ _ hylt] at heq
      exact ⟨heq, rfl⟩
    have hpages := h _ _ (kept_pageStart hx hxlt) (kept_pageStart hy hylt) hrow
    rwa [Nat.mul_div_cancel _ g.pageSize_pos, Nat.mul_div_cancel _ g.pageSize_pos] at hpages
  · intro h p p' hp hp' heq
    obtain ⟨scratch, hscratch⟩ := e.getElem?_page hp.2
    obtain ⟨scratch', hscratch'⟩ := e.getElem?_page hp'.2
    rw [row_eq_iff hnarrow hscratch hscratch'] at heq
    obtain ⟨hlt, hval⟩ := List.getElem?_eq_some_iff.mp hscratch
    obtain ⟨hlt', hval'⟩ := List.getElem?_eq_some_iff.mp hscratch'
    apply h _ _ hp.1 hlt hp'.1 hlt'
    rw [getD_eq_getElem _ _ hlt, getD_eq_getElem _ _ hlt', hval, hval']
    exact heq.1

end Apart

section Agreement

variable {g : RingGeometry} {slot kvLen : Nat}

section

variable (hnarrow : g.narrow = true) (hslot : slot < g.numSlots)
include hnarrow hslot

theorem written_iff (kvLen : Nat) :
    (∀ p, Attended g kvLen p → readRow g slot kvLen p = some (slotMapping g.toGeometry slot p)) ↔
      slot * g.pagesPerSlot % g.draftRingPages = 0 := by
  have hrow := rowPages_eq hnarrow
  have hpos := ringPages_pos hnarrow
  have hring : ∀ n, n % g.draftRingPages < g.draftRowPages := fun n => by
    have := Nat.mod_lt n hpos
    omega
  have hagree : ∀ p, Attended g kvLen p → (readRow g slot kvLen p = some (slotMapping g.toGeometry slot p) ↔
      slot * g.pagesPerSlot % g.draftRingPages = 0) := by
    intro p hp
    rw [readRow_eq hnarrow hslot hp, slotMapping_eq hnarrow, Option.some.injEq,
      rowAt_inj (hring _) (hring _) (offset_lt g p) (offset_lt g p), ← PageRing.shift_iff (p / g.pageSize)]
    tauto
  constructor
  · intro h
    have hstart := attended_pageStart (viewPages_pos g kvLen)
    exact (hagree _ hstart).mp (h _ hstart)
  · intro h p hp
    exact (hagree p hp).mpr h

theorem fused_iff (kvLen : Nat) :
    (∀ p, Attended g kvLen p → readRow g slot kvLen p = some (contextRow g.toGeometry slot p)) ↔
      (firstPage g kvLen + slot * g.pagesPerSlot) % g.draftRowPages = firstPage g kvLen % g.draftRingPages ∧
        firstPage g kvLen % g.draftRingPages + viewPages g kvLen ≤ g.draftRingPages := by
  have hrow := rowPages_eq hnarrow
  have hpos := ringPages_pos hnarrow
  have hring : ∀ n, n % g.draftRingPages < g.draftRowPages := fun n => by
    have := Nat.mod_lt n hpos
    omega
  have hagree : ∀ p, Attended g kvLen p → (readRow g slot kvLen p = some (contextRow g.toGeometry slot p) ↔
      (p / g.pageSize + slot * g.pagesPerSlot) % g.draftRowPages = p / g.pageSize % g.draftRingPages) := by
    intro p hp
    rw [readRow_eq hnarrow hslot hp, contextRow_eq hnarrow, Option.some.injEq,
      rowAt_inj (hring _) (Nat.mod_lt _ (by omega)) (offset_lt g p) (offset_lt g p)]
    tauto
  rw [hrow, ← PageRing.longer_iff hpos (viewPages_pos g kvLen), ← hrow]
  rw [← forall_attended_page kvLen fun page =>
    (page + slot * g.pagesPerSlot) % g.draftRowPages = page % g.draftRingPages]
  exact forall₂_congr hagree

theorem distinct {p p' : Nat} (hp : Attended g kvLen p) (hp' : Attended g kvLen p') (hne : p ≠ p') :
    slotMapping g.toGeometry slot p ≠ slotMapping g.toGeometry slot p' ∧
      contextRow g.toGeometry slot p ≠ contextRow g.toGeometry slot p' ∧
        readRow g slot kvLen p ≠ readRow g slot kvLen p' := by
  have hrow := rowPages_eq hnarrow
  have hpos := ringPages_pos hnarrow
  have hring : ∀ n, n % g.draftRingPages < g.draftRowPages := fun n => by
    have := Nat.mod_lt n hpos
    omega
  have hlonger : ∀ n, n % g.draftRowPages < g.draftRowPages := fun n => Nat.mod_lt n (by omega)
  refine ⟨fun heq => hne ?_, fun heq => hne ?_, fun heq => hne ?_⟩
  · rw [slotMapping_eq hnarrow, slotMapping_eq hnarrow,
      rowAt_inj (hring _) (hring _) (offset_lt g p) (offset_lt g p')] at heq
    exact hp.inj hnarrow hp' (Nat.ModEq.add_right_cancel' _ heq.1.2) heq.2
  · rw [contextRow_eq hnarrow, contextRow_eq hnarrow,
      rowAt_inj (hlonger _) (hlonger _) (offset_lt g p) (offset_lt g p')] at heq
    have hpages : p / g.pageSize % g.draftRowPages = p' / g.pageSize % g.draftRowPages :=
      Nat.ModEq.add_right_cancel' _ heq.1.2
    obtain ⟨i, hi, hpage⟩ := hp.page
    obtain ⟨j, hj, hpage'⟩ := hp'.page
    have hle := viewPages_le hnarrow kvLen
    rw [hpage, hpage'] at hpages
    have hij := PageRing.add_mod_inj hpages (by omega) (by omega)
    refine hp.inj hnarrow hp' ?_ heq.2
    rw [hpage, hpage', hij]
  · rw [readRow_eq hnarrow hslot hp, readRow_eq hnarrow hslot hp', Option.some.injEq,
      rowAt_inj (hring _) (hring _) (offset_lt g p) (offset_lt g p')] at heq
    exact hp.inj hnarrow hp' heq.1.2 heq.2

end

/-- The addresses of the ring are the ones of its purpose exactly under `Aligned`. -/
theorem addressed_iff (hnarrow : g.narrow = true) (hslot : slot < g.numSlots) (kvLen : Nat) (stored : List (Stored g)) :
    Addressed g slot kvLen stored ↔ Aligned g slot kvLen stored := by
  constructor
  · intro h
    constructor
    · exact (written_iff hnarrow hslot kvLen).mp h.written
    · exact (fused_iff hnarrow hslot kvLen).mp h.fused
    · exact fun e he => ((e.kept_iff hnarrow).mp (h.kept e he)).1
    · exact fun e he => ((e.kept_iff hnarrow).mp (h.kept e he)).2
    · exact h.entries.imp fun {e e'} => (Stored.entries_iff hnarrow e e').mp
  · intro h
    have hkept : ∀ e ∈ stored, ∀ p p', e.Kept p → e.Kept p' → e.row p = e.row p' →
        p / g.pageSize % g.draftRingPages = p' / g.pageSize % g.draftRingPages :=
      fun e he => (e.kept_iff hnarrow).mpr ⟨h.round e he, h.back e he⟩
    constructor
    · exact (written_iff hnarrow hslot kvLen).mpr h.shift
    · exact (fused_iff hnarrow hslot kvLen).mpr h.fused
    · exact fun b b' target pairs hne hcopy p hlt hp => copied hnarrow hslot hne hcopy hlt hp
    · exact fun e _ b b' pairs hsnapshot p hp => snapshotted hnarrow hslot hsnapshot hp
    · exact fun e _ b b' pairs hrestore p hp => restored hnarrow hslot hrestore hp
    · exact fun p p' hp hp' hne => distinct hnarrow hslot hp hp' hne
    · exact fun slot' hslot' hne p p' r hrow => hrow.apart hnarrow hslot hslot' hne
    · exact fun e _ slot' hslot' p p' r hrow => e.held hnarrow hslot' hrow
    · intro e he p p' hp hp' hne heq
      have hring := hkept e he p p' (hp.kept hnarrow) (hp'.kept hnarrow) heq
      obtain ⟨scratch, hscratch⟩ := e.getElem?_page hp.2
      obtain ⟨scratch', hscratch'⟩ := e.getElem?_page hp'.2
      exact hne (hp.1.inj hnarrow hp'.1 hring ((Stored.row_eq_iff hnarrow hscratch hscratch').mp heq).2)
    · exact hkept
    · exact h.entries.imp fun {e e'} => (Stored.entries_iff hnarrow e e').mpr

theorem four_pos : 0 < 4 := by decide

/-- A window of eight and four queries on pages of four: a ring of four pages, which the eighteen pages of a
slot do not go round. -/
def ringOfFour : RingGeometry where
  numSlots := 2
  pagesPerSlot := 18
  pageSize := 4
  maxSeqLen := 72
  k := 3
  windowTokens := 12
  narrow := true
  pageSize_pos := four_pos
  seqLen_le := by decide
  windowSize := 8
  queryTokens := 4
  compact := true
  windowSize_pos := by decide
  queryTokens_pos := four_pos
  windowTokens_eq := rfl
  compact_of_narrow := fun _ => rfl

def storedFront : Stored ringOfFour := ⟨8, [0, 1], rfl, by decide, by decide⟩

/-- The pages of an entry that was stored behind a prefix of four pages. -/
def storedBehind : Stored ringOfFour := ⟨8, [4, 5], rfl, by decide, by decide⟩

theorem addressed_iff_first : Addressed ringOfFour 0 8 [storedFront] :=
  (addressed_iff rfl (by decide) 8 [storedFront]).mpr
    ⟨by decide, by decide, by decide, by decide, pairwise_singleton _ _⟩

/-- The second slot writes two pages behind what it reads, and two stored entries share both rows. -/
theorem ringOfFour_shifts :
    (readRow ringOfFour 1 8 0 = some 20 ∧ slotMapping ringOfFour.toGeometry 1 0 = 28 ∧ ¬Addressed ringOfFour 1 8 []) ∧
      ¬Addressed ringOfFour 0 8 [storedFront, storedBehind] := by
  refine ⟨⟨by decide, by decide, fun h => ?_⟩, fun h => ?_⟩
  · have hshift := (written_iff rfl (by decide) 8).mp h.written
    exact absurd hshift (by decide)
  · have hpair := rel_of_pairwise_cons h.entries (mem_singleton_self _)
    have hdisjoint := (Stored.entries_iff rfl storedFront storedBehind).mp hpair
    exact hdisjoint (a := 0) (by decide) (by decide)

end Agreement

end DraftRing
