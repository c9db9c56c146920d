import BlackweLLM.Dsv4Window

/-!
# The slot arenas of a DSV4 attention layer

`runtime/model/dsv4_attn_kernel.py`: every slot has its own pages for the window,
the current prefill and the compressed latents, and its own rows in the caches of
the compressor and, on ratio-4 layers, of the indexer. The decode kernels of
`runtime/kernels/dsv4_compressor.py` write an entry on every step.
-/

namespace Dsv4Arena

open List

open Dsv4Window (dsv4PageSize)

def c4PageSize : Nat := 64

def c128PageSize : Nat := 2

def ceilDiv (n d : Nat) : Nat := (n + d - 1) / d

/-- The buffers of a layer that are cut into slots. -/
inductive Arena
  | window
  | prefill
  /-- `csa_pages` on a ratio-4 layer, `hca_pages` on a ratio-128 layer. -/
  | comp
  /-- `compressor.kv_cache`. -/
  | cache
  /-- `indexer.kv_cache`. -/
  | indexer
  deriving DecidableEq, Repr

structure Layer where
  numSlots : Nat
  ratio : Nat
  window : Nat
  maxSeqLen : Nat
  maxQRows : Nat
  boundedCache : Bool
  numSlots_pos : 1 ≤ numSlots
  ratio_supported : ratio = 0 ∨ ratio = 4 ∨ ratio = 128
  window_pos : 0 < window

structure Write where
  slot : Nat
  arena : Arena
  row : Nat
  deriving DecidableEq, Repr

namespace Layer

variable (l : Layer)

def windowPages : Nat := 1

def prefillPages : Nat := max 1 (ceilDiv l.maxQRows dsv4PageSize)

def compPages : Nat × Nat :=
  if l.ratio = 4 then (max 1 (ceilDiv (l.maxSeqLen / 4) c4PageSize), c4PageSize)
  else if l.ratio = 128 then (max 1 (ceilDiv (l.maxSeqLen / 128) c128PageSize), c128PageSize)
  else (0, c128PageSize)

def rowsPerSlot : Arena → Nat
  | .window => windowPages * dsv4PageSize
  | .prefill => l.prefillPages * dsv4PageSize
  | .comp => l.compPages.1 * l.compPages.2
  | .cache => if l.boundedCache then 1 else l.maxSeqLen / l.ratio
  | .indexer => l.maxSeqLen / l.ratio

/-- `_slot_raw_base`, and the start of `_slot_view`. -/
def base (slot : Nat) (arena : Arena) : Nat := slot * l.rowsPerSlot arena

def Owns (w : Write) : Prop :=
  w.slot < l.numSlots ∧ l.base w.slot w.arena ≤ w.row ∧
    w.row < l.base w.slot w.arena + l.rowsPerSlot w.arena

instance (w : Write) : Decidable (l.Owns w) := inferInstanceAs (Decidable (_ ∧ _ ∧ _))

def place (slot : Nat) (arena : Arena) (row : Nat) : Write := ⟨slot, arena, l.base slot arena + row⟩

variable {l}

theorem owns_place {slot row : Nat} {arena : Arena} (hslot : slot < l.numSlots) :
    l.Owns (l.place slot arena row) ↔ row < l.rowsPerSlot arena := by
  simp only [Owns, place]
  omega

theorem owns_of_mem_map {slot : Nat} {arena : Arena} {rows : List Nat} (hslot : slot < l.numSlots)
    (hrows : ∀ row ∈ rows, row < l.rowsPerSlot arena) : ∀ w ∈ rows.map (l.place slot arena), l.Owns w := by
  intro w hw
  obtain ⟨row, hrow, rfl⟩ := mem_map.mp hw
  exact (owns_place hslot).mpr (hrows row hrow)

end Layer

/-- The entries that the per-token loop of `Dsv4Compressor.forward` emits. -/
def steppedEntries (ratio start n : Nat) : List Nat :=
  ((range' start n).filter fun pos => (pos + 1) % ratio == 0).map fun pos => pos / ratio

theorem steppedEntries_succ (ratio start n : Nat) :
    steppedEntries ratio start (n + 1) = steppedEntries ratio start n ++
      if (start + n + 1) % ratio = 0 then [(start + n) / ratio] else [] := by
  unfold steppedEntries
  rw [range'_1_concat, filter_append, map_append]
  by_cases h : (start + n + 1) % ratio = 0 <;> simp [h]

theorem length_steppedEntries {ratio : Nat} (start n : Nat) :
    (steppedEntries ratio start n).length + start / ratio = (start + n) / ratio := by
  induction n with
  | zero => simp [steppedEntries]
  | succ n ih =>
    rw [steppedEntries_succ, length_append, ← add_assoc, Nat.succ_div]
    by_cases h : (start + n + 1) % ratio = 0
    · rw [if_pos h, if_pos (Nat.dvd_of_mod_eq_zero h), length_singleton]
      omega
    · rw [if_neg h, if_neg (mt Nat.mod_eq_zero_of_dvd h), length_nil]
      omega

theorem lt_of_mem_steppedEntries {ratio start n entry : Nat} (h : entry ∈ steppedEntries ratio start n) :
    entry < (start + n) / ratio := by
  induction n with
  | zero => simp [steppedEntries] at h
  | succ n ih =>
    rw [steppedEntries_succ, mem_append] at h
    rw [← add_assoc, Nat.succ_div]
    cases h with
    | inl h => exact lt_of_lt_of_le (ih h) (Nat.le_add_right _ _)
    | inr h =>
      by_cases hgroup : (start + n + 1) % ratio = 0
      · rw [if_pos hgroup, mem_singleton] at h
        rw [if_pos (Nat.dvd_of_mod_eq_zero hgroup), h]
        exact Nat.lt_succ_self _
      · simp [hgroup] at h

/-- The rows that `Dsv4Compressor.forward` writes in a slot's cache. -/
def forwardRows (bounded : Bool) (ratio start n : Nat) : List Nat :=
  if start = 0 ∧ ¬n < ratio then if bounded then [0] else range (n / ratio)
  else (steppedEntries ratio start n).map fun entry => if bounded then 0 else entry

/-- How many entries `Dsv4Compressor.forward` returns. -/
def forwardCount (ratio start n : Nat) : Nat :=
  if start = 0 ∧ ¬n < ratio then n / ratio else (steppedEntries ratio start n).length

theorem forwardCount_eq (ratio start n : Nat) :
    forwardCount ratio start n + start / ratio = (start + n) / ratio := by
  unfold forwardCount
  by_cases h : start = 0 ∧ ¬n < ratio
  · rw [if_pos h, h.1, Nat.zero_div, zero_add, add_zero]
  · rw [if_neg h, length_steppedEntries]

theorem lt_of_mem_forwardRows {ratio start n row : Nat} (h : row ∈ forwardRows false ratio start n) :
    row < (start + n) / ratio := by
  unfold forwardRows at h
  by_cases hbulk : start = 0 ∧ ¬n < ratio
  · rw [if_pos hbulk] at h
    rw [hbulk.1, zero_add]
    simpa using h
  · rw [if_neg hbulk] at h
    exact lt_of_mem_steppedEntries (by simpa using h)

theorem eq_zero_of_mem_forwardRows {ratio start n row : Nat} (h : row ∈ forwardRows true ratio start n) :
    row = 0 := by
  unfold forwardRows at h
  by_cases hbulk : start = 0 ∧ ¬n < ratio
  · simpa [hbulk] using h
  · rw [if_neg hbulk] at h
    obtain ⟨_, _, rfl⟩ := mem_map.mp h
    rfl

/-- The calls that write rows. -/
inductive Call
  /-- `forward` without a graph: a prefill chunk or a serial decode step. -/
  | forward (slot startPos seqlen : Nat) (precomputed : Bool)
  /-- `forward` in the serial decode graph. -/
  | capture (slot pos : Nat)
  /-- `forward_decode_batch`: a slot and a position for each row. -/
  | batch (rows : List (Nat × Nat))
  /-- `forward_graph_prefill`. -/
  | tile (slot pos seqlen : Nat) (precomputed : Bool)
  /-- `precompute_cold_prefill_compressors`. -/
  | parallel (slot rows completedRows : Nat)

namespace Layer

variable (l : Layer)

/-- The row of an entry in the compressor's cache; a bounded cache has stride 0. -/
def cacheRow (entry : Nat) : Nat := if l.boundedCache then 0 else entry

/-- `_pack_window`, outside a graph. -/
def packWindow (slot startPos seqlen : Nat) : List Write :=
  if startPos = 0 then
    (((range seqlen).drop (seqlen - min seqlen l.window)).map (· % l.window)).map (l.place slot .window) ++
      (range seqlen).map (l.place slot .prefill)
  else ((range' startPos seqlen).map (· % l.window)).map (l.place slot .window)

/-- `_pack_compressed`, outside a graph. -/
def packCompressed (slot startPos seqlen n : Nat) : List Write :=
  (range' ((startPos + seqlen) / l.ratio - n) n).map (l.place slot .comp)

/-- What a decode graph writes at a position: also the inert entry of a step that completes no group. -/
def decodeWrites (slot pos : Nat) : List Write :=
  l.place slot .window (pos % l.window) ::
    ((if l.ratio ≠ 0 then
        [l.place slot .cache (l.cacheRow (pos / l.ratio)), l.place slot .comp (pos / l.ratio)] else []) ++
      if l.ratio = 4 then [l.place slot .indexer (pos / l.ratio)] else [])

/-- The rows of `_indexer_postgemv_seq_quant_kernel`. -/
def tileIndexerRows (pos seqlen : Nat) : List Nat :=
  (range ((pos + seqlen) / l.ratio - pos / l.ratio)).map fun boundary =>
    (pos + ((l.ratio - 1 - pos % l.ratio) % l.ratio + boundary * l.ratio)) / l.ratio

/-- How many entries `fused_cold_prefill_postgemv_parallel` returns; a bounded cache has one row to slice. -/
def parallelCount (rows completedRows : Nat) : Nat :=
  if l.boundedCache then min 1 (rows / l.ratio) - min 1 (completedRows / l.ratio)
  else rows / l.ratio - completedRows / l.ratio

def writes : Call → List Write
  | .forward slot startPos seqlen precomputed =>
    l.packWindow slot startPos seqlen ++
      ((if l.ratio ≠ 0 ∧ precomputed = false then
          (forwardRows l.boundedCache l.ratio startPos seqlen).map (l.place slot .cache) ++
            l.packCompressed slot startPos seqlen (forwardCount l.ratio startPos seqlen)
        else []) ++
        if l.ratio = 4 ∧ precomputed = false then
          (forwardRows false l.ratio startPos seqlen).map (l.place slot .indexer)
        else [])
  | .capture slot pos => l.decodeWrites slot pos
  | .batch rows => rows.flatMap fun row => l.decodeWrites row.1 row.2
  | .tile slot pos seqlen precomputed =>
    ((range' pos seqlen).map (· % l.window)).map (l.place slot .window) ++
      ((if l.ratio ≠ 0 ∧ precomputed = false then
          ((range' pos seqlen).map fun p => l.cacheRow (p / l.ratio)).map (l.place slot .cache) ++
            l.packCompressed slot pos seqlen ((pos + seqlen) / l.ratio - pos / l.ratio)
        else []) ++
        if l.ratio = 4 ∧ precomputed = false then (l.tileIndexerRows pos seqlen).map (l.place slot .indexer)
        else [])
  | .parallel slot rows completedRows =>
    (if l.ratio ≠ 0 then
        ((range' (completedRows / l.ratio) (rows / l.ratio - completedRows / l.ratio)).map l.cacheRow).map
            (l.place slot .cache) ++
          l.packCompressed slot completedRows (rows - completedRows) (l.parallelCount rows completedRows)
      else []) ++
      if l.ratio = 4 then (forwardRows false l.ratio 0 rows).map (l.place slot .indexer) else []

/-- What the callers check: the slot exists and every position lies below `max_seq_len`. -/
def Accepts : Call → Prop
  | .forward slot startPos seqlen _ =>
    slot < l.numSlots ∧ startPos + seqlen ≤ l.maxSeqLen ∧ seqlen ≤ l.maxQRows
  | .capture slot pos => slot < l.numSlots ∧ pos < l.maxSeqLen
  | .batch rows => ∀ row ∈ rows, row.1 < l.numSlots ∧ row.2 < l.maxSeqLen
  | .tile slot pos seqlen _ => slot < l.numSlots ∧ pos + seqlen ≤ l.maxSeqLen
  | .parallel slot rows completedRows =>
    slot < l.numSlots ∧ completedRows = 64 ∧ rows % 128 = 0 ∧ rows ≤ l.maxSeqLen

/-- The sizes under which no step writes past its slot. -/
structure Fits : Prop where
  window : l.window ≤ dsv4PageSize ∨ l.maxSeqLen ≤ dsv4PageSize
  indexer : l.ratio = 4 → l.maxSeqLen % 4 = 0
  cache : l.ratio = 128 → l.boundedCache = false → l.maxSeqLen % 128 = 0
  /-- An incomplete last group has its inert entry in a page of the slot. -/
  comp : l.ratio = 128 → l.maxSeqLen % 128 = 0 ∨ l.maxSeqLen / 128 % c128PageSize ≠ 0 ∨ l.maxSeqLen < 128

variable {l}

section Rows

/-- The rows of complete groups fit the pages of every supported ratio. -/
theorem comp_lt_of_lt {entry : Nat} (h : entry < l.maxSeqLen / l.ratio) : entry < l.rowsPerSlot .comp := by
  obtain hr | hr | hr := l.ratio_supported
  · rw [hr, Nat.div_zero] at h
    exact absurd h (Nat.not_lt_zero _)
  · rw [hr] at h
    simp only [rowsPerSlot, compPages, hr, if_pos, ceilDiv, c4PageSize]
    omega
  · rw [hr] at h
    simp only [rowsPerSlot, compPages, hr, ceilDiv, c128PageSize]
    simp
    omega

theorem cache_lt_of_lt {entry : Nat} (h : entry < l.maxSeqLen / l.ratio) :
    l.cacheRow entry < l.rowsPerSlot .cache := by
  cases hbounded : l.boundedCache with
  | true => simp [cacheRow, rowsPerSlot, hbounded]
  | false => simpa [cacheRow, rowsPerSlot, hbounded] using h

theorem div_le_entries {p n : Nat} (h : p + n ≤ l.maxSeqLen) : (p + n) / l.ratio ≤ l.maxSeqLen / l.ratio :=
  Nat.div_le_div_right h

section

variable (hfits : l.Fits) {p : Nat}
include hfits

theorem Fits.window_lt (h : p < l.maxSeqLen) : p % l.window < l.rowsPerSlot .window := by
  have hmod := Nat.mod_lt p l.window_pos
  have hle := Nat.mod_le p l.window
  have hwindow := hfits.window
  simp only [rowsPerSlot, windowPages]
  omega

theorem Fits.cache_lt (hratio : l.ratio ≠ 0) (h : p < l.maxSeqLen) :
    l.cacheRow (p / l.ratio) < l.rowsPerSlot .cache := by
  cases hbounded : l.boundedCache with
  | true => simp [cacheRow, rowsPerSlot, hbounded]
  | false =>
    refine cache_lt_of_lt ?_
    obtain hr | hr | hr := l.ratio_supported
    · exact absurd hr hratio
    · have hfull := hfits.indexer hr
      rw [hr]
      omega
    · have hfull := hfits.cache hr hbounded
      rw [hr]
      omega

theorem Fits.indexer_lt (hratio : l.ratio = 4) (h : p < l.maxSeqLen) :
    p / l.ratio < l.rowsPerSlot .indexer := by
  have hfull := hfits.indexer hratio
  simp only [rowsPerSlot, hratio]
  omega

theorem Fits.comp_lt (hratio : l.ratio ≠ 0) (h : p < l.maxSeqLen) : p / l.ratio < l.rowsPerSlot .comp := by
  obtain hr | hr | hr := l.ratio_supported
  · exact absurd hr hratio
  · have hfull := hfits.indexer hr
    refine comp_lt_of_lt ?_
    rw [hr]
    omega
  · have hpages := hfits.comp hr
    simp only [rowsPerSlot, compPages, hr, ceilDiv, c128PageSize] at hpages ⊢
    simp
    omega

end

end Rows

section Calls

variable {slot : Nat} (hslot : slot < l.numSlots)
variable {startPos seqlen pos : Nat}

include hslot

theorem owns_packWindow (hfits : l.Fits) (hlen : startPos + seqlen ≤ l.maxSeqLen)
    (hrows : seqlen ≤ l.maxQRows) : ∀ w ∈ l.packWindow slot startPos seqlen, l.Owns w := by
  intro w hw
  unfold packWindow at hw
  by_cases hstart : startPos = 0
  · rw [if_pos hstart, mem_append] at hw
    cases hw with
    | inl hw =>
      refine owns_of_mem_map hslot (fun row hrow => ?_) w hw
      obtain ⟨p, hp, rfl⟩ := mem_map.mp hrow
      have hlt := mem_range.mp (mem_of_mem_drop hp)
      exact hfits.window_lt (by omega)
    | inr hw =>
      refine owns_of_mem_map hslot (fun row hrow => ?_) w hw
      have hlt := mem_range.mp hrow
      simp only [rowsPerSlot, prefillPages, ceilDiv, dsv4PageSize]
      omega
  · rw [if_neg hstart] at hw
    refine owns_of_mem_map hslot (fun row hrow => ?_) w hw
    obtain ⟨p, hp, rfl⟩ := mem_map.mp hrow
    have hlt := mem_range'_1.mp hp
    exact hfits.window_lt (by omega)

section

variable (hlen : startPos + seqlen ≤ l.maxSeqLen)
include hlen

/-- The packed entries end at the last complete group. -/
theorem owns_packCompressed {n : Nat}
    (hn : n ≤ (startPos + seqlen) / l.ratio) : ∀ w ∈ l.packCompressed slot startPos seqlen n, l.Owns w := by
  refine owns_of_mem_map hslot fun row hrow => ?_
  have hrange := mem_range'_1.mp hrow
  have hle := l.div_le_entries hlen
  exact comp_lt_of_lt (by omega)

theorem owns_forwardCache :
    ∀ w ∈ (forwardRows l.boundedCache l.ratio startPos seqlen).map (l.place slot .cache), l.Owns w := by
  refine owns_of_mem_map hslot fun row hrow => ?_
  have hle := l.div_le_entries hlen
  cases hbounded : l.boundedCache with
  | true =>
    rw [hbounded] at hrow
    simp [eq_zero_of_mem_forwardRows hrow, rowsPerSlot, hbounded]
  | false =>
    rw [hbounded] at hrow
    have hlt := lt_of_mem_forwardRows hrow
    simp only [rowsPerSlot, hbounded]
    simp
    omega

theorem owns_forwardIndexer :
    ∀ w ∈ (forwardRows false l.ratio startPos seqlen).map (l.place slot .indexer), l.Owns w := by
  refine owns_of_mem_map hslot fun row hrow => ?_
  have hle := l.div_le_entries hlen
  have hlt := lt_of_mem_forwardRows hrow
  exact lt_of_lt_of_le hlt hle

end

theorem owns_decodeWrites (hfits : l.Fits) (hpos : pos < l.maxSeqLen) :
    ∀ w ∈ l.decodeWrites slot pos, l.Owns w := by
  intro w hw
  rw [decodeWrites, mem_cons, mem_append] at hw
  obtain rfl | hw | hw := hw
  · exact (owns_place hslot).mpr (hfits.window_lt hpos)
  · by_cases hratio : l.ratio ≠ 0
    · rw [if_pos hratio, mem_cons, mem_singleton] at hw
      obtain rfl | rfl := hw
      · exact (owns_place hslot).mpr (hfits.cache_lt hratio hpos)
      · exact (owns_place hslot).mpr (hfits.comp_lt hratio hpos)
    · simp [hratio] at hw
  · by_cases hratio : l.ratio = 4
    · rw [if_pos hratio, mem_singleton] at hw
      exact hw ▸ (owns_place hslot).mpr (hfits.indexer_lt hratio hpos)
    · simp [hratio] at hw

/-- A tile's indexer rows are the groups that end in it. -/
theorem owns_tileIndexer (hratio : l.ratio = 4) (hlen : pos + seqlen ≤ l.maxSeqLen) :
    ∀ w ∈ (l.tileIndexerRows pos seqlen).map (l.place slot .indexer), l.Owns w := by
  refine owns_of_mem_map hslot fun row hrow => ?_
  obtain ⟨boundary, hboundary, rfl⟩ := mem_map.mp hrow
  have hlt := mem_range.mp hboundary
  simp only [rowsPerSlot, hratio] at hlt ⊢
  omega

theorem owns_tile (hfits : l.Fits) {precomputed : Bool} (hlen : pos + seqlen ≤ l.maxSeqLen) :
    ∀ w ∈ l.writes (.tile slot pos seqlen precomputed), l.Owns w := by
  intro w hw
  simp only [writes, mem_append] at hw
  obtain hw | hw | hw := hw
  · refine owns_of_mem_map hslot (fun row hrow => ?_) w hw
    obtain ⟨p, hp, rfl⟩ := mem_map.mp hrow
    have hlt := mem_range'_1.mp hp
    exact hfits.window_lt (by omega)
  · by_cases hratio : l.ratio ≠ 0 ∧ precomputed = false
    · rw [if_pos hratio, mem_append] at hw
      cases hw with
      | inl hw =>
        refine owns_of_mem_map hslot (fun row hrow => ?_) w hw
        obtain ⟨p, hp, rfl⟩ := mem_map.mp hrow
        have hlt := mem_range'_1.mp hp
        exact hfits.cache_lt hratio.1 (by omega)
      | inr hw => exact owns_packCompressed hslot hlen (Nat.sub_le _ _) w hw
    · simp [hratio] at hw
  · by_cases hratio : l.ratio = 4 ∧ precomputed = false
    · rw [if_pos hratio] at hw
      exact owns_tileIndexer hslot hratio.1 hlen w hw
    · simp [hratio] at hw

theorem owns_forward (hfits : l.Fits) {precomputed : Bool}
    (hlen : startPos + seqlen ≤ l.maxSeqLen) (hrows : seqlen ≤ l.maxQRows) :
    ∀ w ∈ l.writes (.forward slot startPos seqlen precomputed), l.Owns w := by
  intro w hw
  simp only [writes, mem_append] at hw
  obtain hw | hw | hw := hw
  · exact owns_packWindow hslot hfits hlen hrows w hw
  · by_cases hratio : l.ratio ≠ 0 ∧ precomputed = false
    · rw [if_pos hratio, mem_append] at hw
      have hcount := forwardCount_eq l.ratio startPos seqlen
      cases hw with
      | inl hw => exact owns_forwardCache hslot hlen w hw
      | inr hw => exact owns_packCompressed hslot hlen (Nat.le.intro hcount) w hw
    · simp [hratio] at hw
  · by_cases hratio : l.ratio = 4 ∧ precomputed = false
    · rw [if_pos hratio] at hw
      exact owns_forwardIndexer hslot hlen w hw
    · simp [hratio] at hw

theorem owns_parallel {rows completedRows : Nat} (hcompleted : completedRows ≤ rows) (hlen : rows ≤ l.maxSeqLen) :
    ∀ w ∈ l.writes (.parallel slot rows completedRows), l.Owns w := by
  intro w hw
  have hle : rows / l.ratio ≤ l.maxSeqLen / l.ratio := Nat.div_le_div_right hlen
  simp only [writes, mem_append] at hw
  cases hw with
  | inl hw =>
    by_cases hratio : l.ratio ≠ 0
    · rw [if_pos hratio, mem_append] at hw
      cases hw with
      | inl hw =>
        refine owns_of_mem_map hslot (fun row hrow => ?_) w hw
        obtain ⟨entry, hentry, rfl⟩ := mem_map.mp hrow
        have hlt := mem_range'_1.mp hentry
        exact cache_lt_of_lt (by omega)
      | inr hw =>
        have hsum : completedRows + (rows - completedRows) = rows := Nat.add_sub_cancel' hcompleted
        refine owns_packCompressed hslot (by omega) ?_ w hw
        rw [hsum, parallelCount]
        cases l.boundedCache <;> simp
    · simp [hratio] at hw
  | inr hw =>
    by_cases hratio : l.ratio = 4
    · rw [if_pos hratio] at hw
      exact owns_forwardIndexer hslot (by omega) w hw
    · simp [hratio] at hw

end Calls

/-- Every row that an accepted call writes lies in the region of its slot, where the sizes fit. -/
theorem Fits.owns (hfits : l.Fits) {call : Call} (hcall : l.Accepts call) : ∀ w ∈ l.writes call, l.Owns w := by
  cases call with
  | forward slot startPos seqlen precomputed =>
    obtain ⟨hslot, hlen, hrows⟩ := hcall
    exact owns_forward hslot hfits hlen hrows
  | capture slot pos => exact owns_decodeWrites hcall.1 hfits hcall.2
  | batch rows =>
    intro w hw
    obtain ⟨row, hrow, hw⟩ := mem_flatMap.mp hw
    exact owns_decodeWrites (hcall row hrow).1 hfits (hcall row hrow).2 w hw
  | tile slot pos seqlen precomputed => exact owns_tile hcall.1 hfits hcall.2
  | parallel slot rows completedRows =>
    obtain ⟨hslot, hcompleted, hrows, hlen⟩ := hcall
    by_cases hle : completedRows ≤ rows
    · exact owns_parallel hslot hle hlen
    · -- fewer rows than the first tile: there is no row at all
      have hzero : rows = 0 := by omega
      subst hzero hcompleted
      intro w hw
      obtain hr | hr | hr := l.ratio_supported <;>
        cases hbounded : l.boundedCache <;>
        simp [writes, packCompressed, parallelCount, forwardRows, steppedEntries, hr, hbounded] at hw

section Overflow

variable (howns : ∀ call, l.Accepts call → ∀ w ∈ l.writes call, l.Owns w)

include howns

/-- A decode step at the last position shows what each arena must hold. -/
theorem row_lt_of_owns (pos row : Nat) (arena : Arena) (hpos : pos < l.maxSeqLen)
    (hmem : l.place 0 arena row ∈ l.decodeWrites 0 pos) : row < l.rowsPerSlot arena :=
  (owns_place l.numSlots_pos).mp (howns (.capture 0 pos) ⟨l.numSlots_pos, hpos⟩ _ hmem)

theorem fits_window : l.window ≤ dsv4PageSize ∨ l.maxSeqLen ≤ dsv4PageSize := by
  by_contra hnot
  rw [not_or, not_le, not_le] at hnot
  have hlt := row_lt_of_owns howns _ _ _ hnot.2 mem_cons_self
  rw [Nat.mod_eq_of_lt hnot.1] at hlt
  exact lt_irrefl _ hlt

theorem fits_indexer (hratio : l.ratio = 4) : l.maxSeqLen % 4 = 0 := by
  by_contra hnot
  have hlt := row_lt_of_owns howns (l.maxSeqLen - 1) ((l.maxSeqLen - 1) / l.ratio) .indexer
    (by omega) (by simp [decodeWrites, hratio])
  simp only [rowsPerSlot, hratio] at hlt
  omega

theorem fits_cache (hratio : l.ratio = 128) (hbounded : l.boundedCache = false) : l.maxSeqLen % 128 = 0 := by
  by_contra hnot
  have hlt := row_lt_of_owns howns (l.maxSeqLen - 1) ((l.maxSeqLen - 1) / l.ratio) .cache
    (by omega) (by simp [decodeWrites, cacheRow, hratio, hbounded])
  simp only [rowsPerSlot, hratio, hbounded] at hlt
  simp at hlt
  omega

theorem fits_comp (hratio : l.ratio = 128) :
    l.maxSeqLen % 128 = 0 ∨ l.maxSeqLen / 128 % c128PageSize ≠ 0 ∨ l.maxSeqLen < 128 := by
  by_contra hnot
  rw [not_or, not_or, not_not, not_lt] at hnot
  obtain ⟨hpart, heven, hlarge⟩ := hnot
  have hlt := row_lt_of_owns howns (l.maxSeqLen - 1) ((l.maxSeqLen - 1) / l.ratio) .comp
    (by omega) (by simp [decodeWrites, hratio])
  simp only [rowsPerSlot, compPages, hratio, ceilDiv, c128PageSize] at hlt heven
  simp at hlt
  omega

end Overflow

/-- The rows of every accepted call stay in their slots' regions exactly where the sizes fit. -/
theorem owns_iff_fits (l : Layer) : (∀ call, l.Accepts call → ∀ w ∈ l.writes call, l.Owns w) ↔ l.Fits := by
  constructor
  · intro howns
    exact ⟨fits_window howns, fits_indexer howns, fits_cache howns, fits_comp howns⟩
  · intro hfits call hcall
    exact hfits.owns hcall

end Layer

/-- A ratio-128 layer of two slots with 320 positions: two complete groups fill the one page. -/
def twoGroupLayer : Layer where
  numSlots := 2
  ratio := 128
  window := 128
  maxSeqLen := 320
  maxQRows := 64
  boundedCache := true
  numSlots_pos := by decide
  ratio_supported := by decide
  window_pos := by decide

/-- At position 256 the inert entry of slot 0 is the first entry of slot 1. -/
theorem inert_entry_in_next_slot :
    ¬∀ call, twoGroupLayer.Accepts call → ∀ w ∈ twoGroupLayer.writes call, twoGroupLayer.Owns w := by
  intro howns
  have hmem : (⟨0, .comp, 2⟩ : Write) ∈ twoGroupLayer.writes (.batch [(0, 256)]) := by decide
  have hown := howns (.batch [(0, 256)]) (by simp [Layer.Accepts, twoGroupLayer]) _ hmem
  revert hown
  decide

end Dsv4Arena
