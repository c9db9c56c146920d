import BlackweLLM.LagunaRing
import Mathlib.Data.List.Perm.Basic
import Mathlib.Data.List.Range

/-!
# The sliding window of a DSV4 attention layer

`runtime/model/dsv4_attn_kernel.py`: the latent KV of a slot's last tokens lies in
a ring of `window` entries in the slot's page, and the first tile of a sequence
also lies in a second page area that only this tile attends. An entry is named by
the tokens up to its position.
-/

namespace Dsv4Window

open List Function

open LagunaRing (scatter scatter_of_mem scatter_of_notMem)

def dsv4PageSize : Nat := 256

structure LayerShape where
  window : Nat
  maxQRows : Nat
  maxSeqLen : Nat
  window_gt_one : 1 < window
  window_le : window ≤ dsv4PageSize

variable {Token : Type}

/-- A latent KV row as it lies in a page. -/
abbrev Entry (Token : Type) := Option (List Token)

def latentKv (tokens : List Token) (p : Nat) : Entry Token := some (tokens.take (p + 1))

structure Pages (Token : Type) where
  windowPages : Nat → Entry Token
  prefillPages : Nat → Entry Token

def slotRawBase (slot pagesPerSlot : Nat) : Nat := slot * pagesPerSlot * dsv4PageSize

namespace LayerShape

variable (g : LayerShape)

def prefillPagesPerSlot : Nat := max 1 ((g.maxQRows + dsv4PageSize - 1) / dsv4PageSize)

def windowBase (slot : Nat) : Nat := slotRawBase slot 1

def prefillBase (slot : Nat) : Nat := slotRawBase slot g.prefillPagesPerSlot

def windowId (slot p : Nat) : Nat := windowBase slot + p % g.window

theorem window_pos : 0 < g.window := Nat.lt_of_succ_lt g.window_gt_one

/-- The ring entries of different slots, or of positions less than a window apart, are different. -/
theorem windowId_inj {slot other p q : Nat} (h : g.windowId slot p = g.windowId other q) :
    slot = other ∧ p % g.window = q % g.window := by
  have hp := Nat.mod_lt p g.window_pos
  have hq := Nat.mod_lt q g.window_pos
  have hwindow := g.window_le
  unfold windowId windowBase slotRawBase at h
  unfold dsv4PageSize at h hwindow
  omega

theorem eq_of_mod_eq {p q : Nat} (h : p % g.window = q % g.window) (hpq : p < q + g.window)
    (hqp : q < p + g.window) : p = q := by
  obtain hle | hle := le_total p q
  · have hdvd : g.window ∣ q - p := Nat.dvd_of_mod_eq_zero (Nat.sub_mod_eq_zero_of_mod_eq h.symm)
    have hzero := Nat.eq_zero_of_dvd_of_lt hdvd (by omega)
    omega
  · have hdvd : g.window ∣ p - q := Nat.dvd_of_mod_eq_zero (Nat.sub_mod_eq_zero_of_mod_eq h)
    have hzero := Nat.eq_zero_of_dvd_of_lt hdvd (by omega)
    omega

end LayerShape

section Pack

/-- `pack_latent_kv`: one program for each row; the programs finish in any order. -/
def packLatentKv (order : List Nat) (pages : Nat → Entry Token) (rows : List (Nat × Entry Token)) : Nat → Entry Token :=
  scatter pages (order.filterMap fun i => rows[i]?)

theorem filterMap_getElem?_range (rows : List (Nat × Entry Token)) {n : Nat} (h : rows.length ≤ n) :
    (range n).filterMap (fun i => rows[i]?) = rows := by
  obtain ⟨k, rfl⟩ := Nat.exists_eq_add_of_le h
  rw [range_add, filterMap_append]
  have hrest : ((range k).map fun i => rows.length + i).filterMap (fun i => rows[i]?) = [] := by
    rw [filterMap_eq_nil_iff]
    intro i hi
    obtain ⟨j, -, rfl⟩ := mem_map.mp hi
    exact getElem?_eq_none (Nat.le_add_right _ _)
  rw [hrest, append_nil]
  induction rows using reverseRecOn with
  | nil => rfl
  | append_singleton rows row ih =>
    rw [length_append, length_singleton, range_succ, filterMap_append]
    have hfirst : (range rows.length).filterMap (fun i => (rows ++ [row])[i]?) = rows := by
      refine (filterMap_congr fun i hi => ?_).trans (ih (Nat.le_add_right _ _) ?_)
      · exact getElem?_append_left (mem_range.mp hi)
      · rw [filterMap_eq_nil_iff]
        intro i hi
        obtain ⟨j, -, rfl⟩ := mem_map.mp hi
        exact getElem?_eq_none (Nat.le_add_right _ _)
    rw [hfirst]
    simp

theorem perm_landed {order : List Nat} {n : Nat} (horder : order.Perm (range n)) {rows : List (Nat × Entry Token)}
    (hlen : rows.length ≤ n) : (order.filterMap fun i => rows[i]?).Perm rows := by
  have hperm := horder.filterMap fun i => rows[i]?
  rwa [filterMap_getElem?_range rows hlen] at hperm

variable {order : List Nat} {n : Nat} (horder : order.Perm (range n)) (pages : Nat → Entry Token)
  {rows : List (Nat × Entry Token)} (hlen : rows.length ≤ n)

include horder hlen

theorem packLatentKv_of_mem (hnodup : (rows.map Prod.fst).Nodup) {row : Nat × Entry Token} (h : row ∈ rows) :
    packLatentKv order pages rows row.1 = row.2 := by
  have hperm := perm_landed horder hlen
  exact scatter_of_mem pages ((hperm.map Prod.fst).nodup_iff.mpr hnodup) (hperm.mem_iff.mpr h)

theorem packLatentKv_of_notMem {id : Nat} (h : id ∉ rows.map Prod.fst) : packLatentKv order pages rows id = pages id :=
  scatter_of_notMem pages _ fun hmem => h (((perm_landed horder hlen).map Prod.fst).mem_iff.mp hmem)

end Pack

section Indices

def windowPositions (window p : Nat) : List Nat := range' (p + 1 - window) (p + 1 - (p + 1 - window))

theorem mem_windowPositions {window p q : Nat} : q ∈ windowPositions window p ↔ p + 1 - window ≤ q ∧ q ≤ p := by
  unfold windowPositions
  rw [mem_range'_1]
  omega

/-- A row of `[max(0, p - window + 1) + arange(cols)]` with the entries behind `p` masked;
`none` is the `-1` sentinel. -/
def causalRow (window cols p : Nat) (id : Nat → Nat) : List (Option Nat) :=
  (range cols).map fun col => if p + 1 - window + col ≤ p then some (id (p + 1 - window + col)) else none

def windowTopkIdxs (window seqlen startPos : Nat) : List (List (Option Nat)) :=
  if 1 < seqlen ∧ 0 < startPos then
    (range' startPos seqlen).map fun row => causalRow window window row (· % window)
  else if window - 1 ≤ startPos then
    let pos := startPos % window
    [(range' (pos + 1) (window - (pos + 1)) ++ range (pos + 1)).map some]
  else if 0 < startPos then
    [(range (startPos + 1)).map some ++ replicate (window - startPos - 1) none]
  else (range seqlen).map fun base => causalRow window (min seqlen window) base id

/-- `decode_swa_indices` for one position. -/
def decodeSwaIndices (window p : Nat) : List (Option Nat) :=
  if window - 1 ≤ p then (range window).map fun col => some ((p + 1 - window + col) % window)
  else (range window).map fun col => if col ≤ p then some col else none

def offsetValidIds (base : Nat) (row : List (Option Nat)) : List (Option Nat) := row.map (Option.map (base + ·))

/-- `swa_len`: the entries that are not the sentinel. -/
def swaLength (row : List (Option Nat)) : Nat := row.countP Option.isSome

/-- What the kernel reads for one row: as many ids from the front as the length says. -/
def attended (pages : Nat → Entry Token) (row : List (Option Nat)) (length : Nat) : List (Option (Entry Token)) :=
  (row.take length).map (Option.map pages)

/-- The row names the entries of the window of `p`, and the sentinel behind them. -/
def NamesWindow (window p : Nat) (id : Nat → Nat) (row : List (Option Nat)) : Prop :=
  ∃ k, row = ((windowPositions window p).map fun q => some (id q)) ++ replicate k none

section

variable {window p : Nat} {id : Nat → Nat} {row : List (Option Nat)} (h : NamesWindow window p id row)
include h

theorem NamesWindow.offset
    (base : Nat) : NamesWindow window p (fun q => base + id q) (offsetValidIds base row) := by
  obtain ⟨k, rfl⟩ := h
  refine ⟨k, ?_⟩
  simp [offsetValidIds, comp_def]

theorem NamesWindow.pad (n : Nat) : NamesWindow window p id (row ++ replicate n none) := by
  obtain ⟨k, rfl⟩ := h
  refine ⟨k + n, ?_⟩
  rw [append_assoc, replicate_append_replicate]

theorem NamesWindow.swaLength : swaLength row = (windowPositions window p).length := by
  obtain ⟨k, rfl⟩ := h
  simp [Dsv4Window.swaLength, countP_append, countP_map, countP_replicate, comp_def]

theorem NamesWindow.attended (pages : Nat → Entry Token) :
    attended pages row (windowPositions window p).length =
      (windowPositions window p).map fun q => some (pages (id q)) := by
  obtain ⟨k, rfl⟩ := h
  unfold Dsv4Window.attended
  rw [take_left' (by simp)]
  simp [comp_def]

end

theorem namesWindow_causalRow {window cols p : Nat} (hcols : p + 1 - (p + 1 - window) ≤ cols) (id : Nat → Nat) :
    NamesWindow window p id (causalRow window cols p id) := by
  refine ⟨cols - (p + 1 - (p + 1 - window)), ?_⟩
  unfold causalRow windowPositions
  apply ext_getElem
  · simp only [length_map, length_range, length_append, length_range', length_replicate]
    omega
  · intro i hi hi'
    rw [getElem_append]
    simp only [getElem_map, getElem_range, length_map, length_range', getElem_replicate,
      getElem_range', one_mul]
    split
    · rw [dif_pos (by omega)]
    · rw [dif_neg (by omega)]

variable {window p : Nat}

/-- The ring order of a decode row, oldest first. -/
theorem ringOrder_eq (hwindow : 0 < window) (h : window - 1 ≤ p) :
    range' (p % window + 1) (window - (p % window + 1)) ++ range (p % window + 1) =
      (windowPositions window p).map (· % window) := by
  have hlt := Nat.mod_lt p hwindow
  have hdiv := Nat.div_add_mod p window
  unfold windowPositions
  apply ext_getElem
  · simp only [length_append, length_range', length_range, length_map]
    omega
  · intro i hi hi'
    simp only [length_append, length_range', length_range] at hi
    rw [getElem_append]
    simp only [getElem_map, getElem_range', getElem_range, length_range', one_mul]
    have hmod : (p + 1 - window + i) % window = (p + 1 + i) % window := by
      rw [← Nat.add_mod_right (p + 1 - window + i)]
      congr 1
      omega
    have hsum : (p + 1 + i) % window = (p % window + 1 + i) % window := by
      rw [add_assoc p, ← Nat.mod_add_mod, ← add_assoc]
    rw [hmod, hsum]
    by_cases hback : i < window - (p % window + 1)
    · have hsmall : (p % window + 1 + i) % window = p % window + 1 + i := Nat.mod_eq_of_lt (by omega)
      rw [dif_pos hback, hsmall]
    · have hwrap : (p % window + 1 + i) % window = p % window + 1 + i - window := by
        rw [Nat.mod_eq_sub_mod (by omega : window ≤ p % window + 1 + i)]
        exact Nat.mod_eq_of_lt (by omega)
      rw [dif_neg hback, hwrap]
      omega

theorem namesWindow_ringOrder (hwindow : 0 < window) (h : window - 1 ≤ p) : NamesWindow window p (· % window)
      ((range' (p % window + 1) (window - (p % window + 1)) ++ range (p % window + 1)).map some) := by
  refine ⟨0, ?_⟩
  rw [ringOrder_eq hwindow h]
  simp

theorem windowPositions_of_lt (h : p < window) : windowPositions window p = range (p + 1) := by
  unfold windowPositions
  rw [Nat.sub_eq_zero_of_le h, range_eq_range']
  rfl

theorem namesWindow_early (h : p < window) (k : Nat) :
    NamesWindow window p (· % window) ((range (p + 1)).map some ++ replicate k none) := by
  refine ⟨k, ?_⟩
  rw [windowPositions_of_lt h]
  congr 1
  refine map_congr_left fun q hq => ?_
  have hlt := mem_range.mp hq
  have hmod : q % window = q := Nat.mod_eq_of_lt (by omega)
  dsimp only
  rw [hmod]

theorem namesWindow_decodeSwaIndices {window : Nat} (hwindow : 0 < window) (p : Nat) :
    NamesWindow window p (· % window) (decodeSwaIndices window p) := by
  unfold decodeSwaIndices
  by_cases hfull : window - 1 ≤ p
  · rw [if_pos hfull]
    refine ⟨0, ?_⟩
    unfold windowPositions
    rw [range'_eq_map_range, map_map, Nat.sub_sub_self (by omega : window ≤ p + 1)]
    simp [comp_def]
  · rw [if_neg hfull]
    have hrow : NamesWindow window p (· % window) (causalRow window window p (· % window)) :=
      namesWindow_causalRow (by omega) _
    unfold causalRow at hrow
    rw [Nat.sub_eq_zero_of_le (by omega : p + 1 ≤ window)] at hrow
    refine (map_congr_left fun col hcol => ?_) ▸ hrow
    have hmod : col % window = col := Nat.mod_eq_of_lt (mem_range.mp hcol)
    dsimp only
    rw [zero_add, hmod]

/-- A single row reads the ring. -/
theorem namesWindow_windowTopkIdxs_one (hwindow : 0 < window) (hp : 0 < p) :
    ∃ row, windowTopkIdxs window 1 p = [row] ∧ NamesWindow window p (· % window) row := by
  unfold windowTopkIdxs
  rw [if_neg (by omega)]
  by_cases hfull : window - 1 ≤ p
  · rw [if_pos hfull]
    exact ⟨_, rfl, namesWindow_ringOrder hwindow hfull⟩
  · rw [if_neg hfull, if_pos hp]
    exact ⟨_, rfl, namesWindow_early (by omega) _⟩

end Indices

end Dsv4Window
