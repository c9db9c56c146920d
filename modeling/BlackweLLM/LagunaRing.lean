import Mathlib.Data.List.Induction
import Mathlib.Tactic.Ring
import Mathlib.Data.List.Nodup

/-!
# Laguna ring KV

The sliding-window KV of `runtime/backends/laguna.py`: a ring of blocks for each
slot, addressed modulo its length, and the scratch arena that a prefill forward
works in. Cells are named by block and offset, as the tensors are indexed.
-/

namespace LagunaRing

open List Function

/-- Positions less than a ring apart fall on different rows of it. -/
theorem mod_inj {size p q : Nat} (h : p % size = q % size) (hpq : p < q + size) (hqp : q < p + size) : p = q := by
  obtain hle | hle := le_total p q
  · have hdvd : size ∣ q - p := Nat.dvd_of_mod_eq_zero (Nat.sub_mod_eq_zero_of_mod_eq h.symm)
    have hzero := Nat.eq_zero_of_dvd_of_lt hdvd (by omega)
    omega
  · have hdvd : size ∣ p - q := Nat.dvd_of_mod_eq_zero (Nat.sub_mod_eq_zero_of_mod_eq h)
    have hzero := Nat.eq_zero_of_dvd_of_lt hdvd (by omega)
    omega

def swaQoMax : Nat := 16

def reservedPhysicalSlots : Nat := 0

def physicalSlot (slot : Nat) : Nat := slot + reservedPhysicalSlots

def ringBlocksForWindow (window blockSize qoMax : Nat) : Nat :=
  (window - 1 + qoMax + blockSize - 1) / blockSize + 1

structure Geometry where
  window : Nat
  blockSize : Nat
  window_pos : 0 < window
  block_pos : 0 < blockSize

variable {K : Type} (g : Geometry)

/-- The values of a KV tensor, by block and offset. -/
abbrev Cells (K : Type) := Nat × Nat → K

namespace Geometry

def ringBlocks : Nat := ringBlocksForWindow g.window g.blockSize swaQoMax

def ringSlots : Nat := g.ringBlocks * g.blockSize

def ringBase (slot : Nat) : Nat := physicalSlot slot * g.ringBlocks

def ringCell (slot position : Nat) : Nat × Nat :=
  (g.ringBase slot + position % g.ringSlots / g.blockSize, position % g.blockSize)

def scratchCell (position : Nat) : Nat × Nat := (position / g.blockSize, position % g.blockSize)

theorem ringBlocks_pos : 0 < g.ringBlocks := Nat.succ_pos _

theorem ringSlots_pos : 0 < g.ringSlots := Nat.mul_pos g.ringBlocks_pos g.block_pos

/-- The ring holds a window, a verify block and the slack of an unaligned window start. -/
theorem le_ringSlots : g.window - 1 + swaQoMax + g.blockSize ≤ g.ringSlots := by
  have hdiv := Nat.div_add_mod (g.window - 1 + swaQoMax + g.blockSize - 1) g.blockSize
  have hmod := Nat.mod_lt (g.window - 1 + swaQoMax + g.blockSize - 1) g.block_pos
  unfold ringSlots ringBlocks ringBlocksForWindow
  rw [add_mul, one_mul, mul_comm _ g.blockSize]
  omega

theorem window_le_ringSlots : g.window ≤ g.ringSlots := by
  have hle := g.le_ringSlots
  have hblock := g.block_pos
  omega

theorem mod_ringSlots_mod (p : Nat) : p % g.ringSlots % g.blockSize = p % g.blockSize :=
  Nat.mod_mod_of_dvd p ⟨g.ringBlocks, mul_comm _ _⟩

theorem ringBlock_lt (p : Nat) : p % g.ringSlots / g.blockSize < g.ringBlocks :=
  Nat.div_lt_of_lt_mul (mul_comm g.ringBlocks _ ▸ Nat.mod_lt _ g.ringSlots_pos)

/-- A ring block belongs to one slot. -/
theorem ringCell_fst_mem (slot p : Nat) :
    g.ringBase slot ≤ (g.ringCell slot p).1 ∧ (g.ringCell slot p).1 < g.ringBase slot + g.ringBlocks :=
  ⟨Nat.le_add_right _ _, Nat.add_lt_add_left (g.ringBlock_lt p) _⟩

theorem ringBase_disjoint {slot other block : Nat}
    (h : g.ringBase slot ≤ block ∧ block < g.ringBase slot + g.ringBlocks)
    (h' : g.ringBase other ≤ block ∧ block < g.ringBase other + g.ringBlocks) : slot = other := by
  have key : ∀ {a b : Nat}, a < b → g.ringBase a + g.ringBlocks ≤ g.ringBase b := fun {a b} hlt => by
    have hmul := Nat.mul_le_mul_right g.ringBlocks (Nat.succ_le_of_lt hlt)
    unfold ringBase physicalSlot reservedPhysicalSlots
    rw [Nat.succ_mul] at hmul
    exact hmul
  obtain hlt | heq | hlt := Nat.lt_trichotomy slot other
  · have := key hlt
    omega
  · exact heq
  · have := key hlt
    omega

/-- Two positions fall on one cell when the slot is one and they agree modulo the ring. -/
theorem ringCell_inj {slot other p q : Nat} :
    g.ringCell slot p = g.ringCell other q ↔ slot = other ∧ p % g.ringSlots = q % g.ringSlots := by
  constructor
  · intro h
    have hslot : slot = other :=
      g.ringBase_disjoint (g.ringCell_fst_mem slot p) (h ▸ g.ringCell_fst_mem other q)
    subst hslot
    obtain ⟨hblock, hoff⟩ := Prod.mk.inj h
    have hdiv : p % g.ringSlots / g.blockSize = q % g.ringSlots / g.blockSize := Nat.add_left_cancel hblock
    rw [← g.mod_ringSlots_mod p, ← g.mod_ringSlots_mod q] at hoff
    refine ⟨rfl, ?_⟩
    rw [← Nat.div_add_mod (p % g.ringSlots) g.blockSize, ← Nat.div_add_mod (q % g.ringSlots) g.blockSize, hdiv, hoff]
  · rintro ⟨rfl, h⟩
    unfold ringCell
    rw [h, ← g.mod_ringSlots_mod p, h, g.mod_ringSlots_mod q]

/-- Positions less than a ring apart fall on different cells. -/
theorem eq_of_mod_eq {p q : Nat} (h : p % g.ringSlots = q % g.ringSlots) (hpq : p ≤ q)
    (hlt : q < p + g.ringSlots) : p = q := by
  have hpos := g.ringSlots_pos
  exact mod_inj h (by omega) hlt

theorem scratchCell_inj {p q : Nat} : g.scratchCell p = g.scratchCell q ↔ p = q := by
  constructor
  · intro h
    obtain ⟨hdiv, hmod⟩ := Prod.mk.inj h
    rw [← Nat.div_add_mod p g.blockSize, ← Nat.div_add_mod q g.blockSize, hdiv, hmod]
  · rintro rfl
    rfl

end Geometry

section Scatter

variable {A : Type} [DecidableEq A]

/-- A KV write through a slot mapping: one row for each address. -/
def scatter (m : A → K) (rows : List (A × K)) : A → K := rows.foldl (fun m row => update m row.1 row.2) m

theorem scatter_of_notMem (m : A → K) (rows : List (A × K)) {a : A} (h : a ∉ rows.map Prod.fst) :
    scatter m rows a = m a := by
  induction rows generalizing m with
  | nil => rfl
  | cons row rows ih =>
    rw [map_cons, mem_cons, not_or] at h
    rw [scatter, foldl_cons]
    exact (ih _ h.2).trans (update_of_ne h.1 _ _)

theorem scatter_of_mem (m : A → K) {rows : List (A × K)} (hnodup : (rows.map Prod.fst).Nodup) {row : A × K}
    (h : row ∈ rows) : scatter m rows row.1 = row.2 := by
  induction rows generalizing m with
  | nil => cases h
  | cons head rows ih =>
    rw [map_cons, nodup_cons] at hnodup
    rw [scatter, foldl_cons]
    cases h with
    | head => exact (scatter_of_notMem _ rows hnodup.1).trans (update_self _ _ _)
    | tail _ h => exact ih _ hnodup.2 h

omit [DecidableEq A] in
theorem map_fst_mapIdx {X : Type} (f : Nat → A) (v : Nat → X → K) (xs : List X) :
    (xs.mapIdx fun i x => (f i, v i x)).map Prod.fst = (range xs.length).map f := by
  apply ext_getElem
  · simp
  · intro i hi hi'
    simp

theorem scatter_mapIdx {X : Type} (m : A → K) (f : Nat → A) (v : Nat → X → K) {xs : List X}
    (hf : ∀ i j, i < xs.length → j < xs.length → f i = f j → i = j) {i : Nat} (hi : i < xs.length) :
    scatter m (xs.mapIdx fun i x => (f i, v i x)) (f i) = v i xs[i] := by
  have hmem : (f i, v i xs[i]) ∈ xs.mapIdx fun i x => (f i, v i x) := mem_mapIdx.mpr ⟨i, hi, rfl⟩
  refine scatter_of_mem m ?_ hmem
  rw [map_fst_mapIdx]
  exact List.Nodup.map_on (fun a ha b hb => hf a b (mem_range.mp ha) (mem_range.mp hb)) nodup_range

theorem scatter_mapIdx_of_ne {X : Type} (m : A → K) (f : Nat → A) (v : Nat → X → K) {xs : List X} {a : A}
    (h : ∀ i, i < xs.length → a ≠ f i) : scatter m (xs.mapIdx fun i x => (f i, v i x)) a = m a := by
  refine scatter_of_notMem m _ ?_
  rw [map_fst_mapIdx, mem_map]
  rintro ⟨i, hi, heq⟩
  exact h i (mem_range.mp hi) heq.symm

/-- Rows whose value is a function of their address. -/
theorem scatter_map_key (m : A → K) (f : A → K) (keys : List A) (a : A) :
    scatter m (keys.map fun key => (key, f key)) a = if a ∈ keys then f a else m a := by
  induction keys using reverseRecOn with
  | nil => rfl
  | append_singleton keys key ih =>
    have hlast : scatter m ((keys ++ [key]).map fun key => (key, f key)) =
        update (scatter m (keys.map fun key => (key, f key))) key (f key) := by
      simp [scatter]
    rw [hlast]
    by_cases ha : a = key
    · subst ha
      simp
    · rw [update_of_ne ha, ih]
      simp [ha]

end Scatter

section Slabs

/-- One slice copy between the ring and the scratch arena. -/
structure Slab where
  ringPosition : Nat
  scratchPosition : Nat
  length : Nat
  deriving DecidableEq, Repr

/-- The loop of both slab builders, behind the positions that are already covered. -/
def slabsFrom (scratchStart absStart count : Nat) : Nat → Nat → List Slab
  | 0, _ => []
  | fuel + 1, pos =>
    if pos < count then
      let ringSlotIdx := (absStart + pos) % g.ringSlots
      let n := min (min (g.ringSlots - ringSlotIdx) (g.blockSize - ringSlotIdx % g.blockSize))
        (min (g.blockSize - (scratchStart + pos) % g.blockSize) (count - pos))
      ⟨ringSlotIdx, scratchStart + pos, n⟩ :: slabsFrom scratchStart absStart count fuel (pos + n)
    else []

def ringToScratchSlabs (absStart count : Nat) : List Slab := slabsFrom g 0 absStart count count 0

def scratchToRingSlabs (scratchStart absStart count : Nat) : List Slab :=
  slabsFrom g scratchStart absStart count count 0

/-- `dst[:, db, do : do + count] = src[:, sb, so : so + count]`. -/
def copySlice (src dst : Cells K) (sb so db off count : Nat) : Cells K := fun c =>
  if c.1 = db ∧ off ≤ c.2 ∧ c.2 < off + count then src (sb, so + (c.2 - off)) else dst c

def copyRingToSharedScratch (slot : Nat) (slabs : List Slab) (ring scratch : Cells K) : Cells K :=
  slabs.foldl (fun scratch slab => copySlice ring scratch (slab.ringPosition / g.blockSize + g.ringBase slot)
    (slab.ringPosition % g.blockSize) (slab.scratchPosition / g.blockSize) (slab.scratchPosition % g.blockSize)
    slab.length) scratch

def copySharedScratchToRing (slot : Nat) (slabs : List Slab) (scratch ring : Cells K) : Cells K :=
  slabs.foldl (fun ring slab => copySlice scratch ring (slab.scratchPosition / g.blockSize)
    (slab.scratchPosition % g.blockSize) (slab.ringPosition / g.blockSize + g.ringBase slot)
    (slab.ringPosition % g.blockSize) slab.length) ring

/-- The cells `D lo, …, D (hi - 1)` took the values of `S lo, …, S (hi - 1)` and no other cell changed. -/
structure Copied (S D : Nat → Nat × Nat) (lo hi : Nat) (src dst dst' : Cells K) : Prop where
  copied : ∀ j, lo ≤ j → j < hi → dst' (D j) = src (S j)
  same : ∀ c, (∀ j, lo ≤ j → j < hi → c ≠ D j) → dst' c = dst c

theorem Copied.refl (S D : Nat → Nat × Nat) {lo hi : Nat} (h : hi ≤ lo) (src dst : Cells K) :
    Copied S D lo hi src dst dst :=
  ⟨fun j hlo hhi => absurd hlo (by omega), fun _ _ => rfl⟩

theorem Copied.trans {S D : Nat → Nat × Nat} {lo mid hi : Nat} {src dst dst' dst'' : Cells K}
    (h : Copied S D lo mid src dst dst') (h' : Copied S D mid hi src dst' dst'') (hlo : lo ≤ mid) (hhi : mid ≤ hi)
    (hD : ∀ i j, lo ≤ i → i < hi → lo ≤ j → j < hi → D i = D j → i = j) : Copied S D lo hi src dst dst'' where
  copied j hj hj' := by
    by_cases hmid : j < mid
    · rw [h'.same _ fun i hi hi' heq => ?_]
      · exact h.copied j hj hmid
      · have := hD j i hj hj' (by omega) hi' heq
        omega
    · exact h'.copied j (not_lt.mp hmid) hj'
  same c hc := by
    rw [h'.same c fun j hj hj' => hc j (hlo.trans hj) hj', h.same c fun j hj hj' => hc j hj (hj'.trans_le hhi)]

theorem copied_copySlice {S D : Nat → Nat × Nat} {pos n sb so db off : Nat} (src dst : Cells K)
    (hS : ∀ j, j < n → S (pos + j) = (sb, so + j)) (hD : ∀ j, j < n → D (pos + j) = (db, off + j)) :
    Copied S D pos (pos + n) src dst (copySlice src dst sb so db off n) where
  copied j hj hj' := by
    obtain ⟨i, rfl⟩ := Nat.exists_eq_add_of_le hj
    have hi : i < n := by omega
    rw [hD i hi, hS i hi]
    simp [copySlice, hi]
  same c hc := by
    unfold copySlice
    rw [if_neg]
    rintro ⟨hblock, hoff, hlt⟩
    refine hc (pos + (c.2 - off)) (Nat.le_add_right _ _) (by omega) ?_
    rw [hD _ (by omega)]
    exact Prod.ext hblock (by dsimp only; omega)

/-- A slab stays inside one ring block, one scratch block and one turn of the ring. -/
theorem slab_cells (scratchStart absStart : Nat) {count pos : Nat} (h : pos < count) :
    let r := (absStart + pos) % g.ringSlots
    let n := min (min (g.ringSlots - r) (g.blockSize - r % g.blockSize))
      (min (g.blockSize - (scratchStart + pos) % g.blockSize) (count - pos))
    0 < n ∧ pos + n ≤ count ∧ r % g.blockSize + n ≤ g.blockSize ∧
      (scratchStart + pos) % g.blockSize + n ≤ g.blockSize ∧
      (∀ slot j, j < n → g.ringCell slot (absStart + (pos + j)) =
        (r / g.blockSize + g.ringBase slot, r % g.blockSize + j)) ∧
      ∀ j, j < n → g.scratchCell (scratchStart + (pos + j)) =
        ((scratchStart + pos) / g.blockSize, (scratchStart + pos) % g.blockSize + j) := by
  intro r n
  have hr : r < g.ringSlots := Nat.mod_lt _ g.ringSlots_pos
  have hrb : r % g.blockSize < g.blockSize := Nat.mod_lt _ g.block_pos
  have hsb : (scratchStart + pos) % g.blockSize < g.blockSize := Nat.mod_lt _ g.block_pos
  have hn : n ≤ g.ringSlots - r ∧ n ≤ g.blockSize - r % g.blockSize ∧
      n ≤ g.blockSize - (scratchStart + pos) % g.blockSize ∧ n ≤ count - pos := by
    refine ⟨?_, ?_, ?_, ?_⟩ <;> simp only [n] <;> omega
  have hpos : 0 < n := by
    simp only [n]
    omega
  have hcell : ∀ x j, x % g.blockSize + j < g.blockSize →
      (x + j) / g.blockSize = x / g.blockSize ∧ (x + j) % g.blockSize = x % g.blockSize + j := fun x j hlt => by
    have hx := Nat.div_add_mod x g.blockSize
    constructor
    · rw [← hx, add_assoc, Nat.mul_add_div g.block_pos, Nat.div_eq_of_lt hlt, Nat.mul_add_div g.block_pos,
        Nat.div_eq_of_lt (Nat.mod_lt _ g.block_pos)]
    · rw [← Nat.mod_add_mod, Nat.mod_eq_of_lt hlt]
  refine ⟨hpos, by omega, by omega, by omega, fun slot j hj => ?_, fun j hj => ?_⟩
  · have hring : (absStart + (pos + j)) % g.ringSlots = r + j := by
      rw [← add_assoc, ← Nat.mod_add_mod, Nat.mod_eq_of_lt (by omega)]
    have hin := hcell r j (by omega)
    unfold Geometry.ringCell
    rw [← g.mod_ringSlots_mod, hring, hin.1, hin.2, add_comm]
  · have hin := hcell (scratchStart + pos) j (by omega)
    unfold Geometry.scratchCell
    rw [← add_assoc, hin.1, hin.2]

theorem ringCell_injOn {slot absStart count : Nat} (hcount : count ≤ g.ringSlots) :
    ∀ i j, 0 ≤ i → i < count → 0 ≤ j → j < count →
      g.ringCell slot (absStart + i) = g.ringCell slot (absStart + j) → i = j := by
  intro i j _ hi _ hj h
  have hmod := (g.ringCell_inj.mp h).2
  obtain hle | hle := le_total i j
  · have := g.eq_of_mod_eq hmod (by omega) (by omega)
    omega
  · have := g.eq_of_mod_eq hmod.symm (by omega) (by omega)
    omega

/-- The overlap of a chunk lands in the first rows of the scratch arena. -/
theorem copied_ringToScratch (slot absStart count : Nat) (ring scratch : Cells K) :
    Copied (fun j => g.ringCell slot (absStart + j)) (fun j => g.scratchCell j) 0 count ring scratch
      (copyRingToSharedScratch g slot (ringToScratchSlabs g absStart count) ring scratch) := by
  have key : ∀ fuel pos scratch, count ≤ pos + fuel → pos ≤ count →
      Copied (fun j => g.ringCell slot (absStart + j)) (fun j => g.scratchCell j) pos count ring scratch
        (copyRingToSharedScratch g slot (slabsFrom g 0 absStart count fuel pos) ring scratch) := by
    intro fuel
    induction fuel with
    | zero => exact fun pos scratch hfuel _ => Copied.refl _ _ (by omega) _ _
    | succ fuel ih =>
      intro pos scratch hfuel hle
      by_cases hlt : pos < count
      · obtain ⟨hn, hend, -, -, hring, hscratch⟩ := slab_cells g 0 absStart hlt
        rw [slabsFrom, if_pos hlt]
        simp only [zero_add] at hn hend hring hscratch ⊢
        refine Copied.trans (copied_copySlice ring scratch (hring slot) hscratch) (ih _ _ (by omega) hend)
          (Nat.le_add_right _ _) hend fun i j _ _ _ _ h => g.scratchCell_inj.mp h
      · rw [slabsFrom, if_neg hlt]
        exact Copied.refl _ _ (by omega) _ _
  exact key count 0 scratch (by omega) (Nat.zero_le _)

/-- The last rows of the scratch arena land at their ring positions. -/
theorem copied_scratchToRing (slot scratchStart absStart count : Nat) (hcount : count ≤ g.ringSlots)
    (scratch ring : Cells K) :
    Copied (fun j => g.scratchCell (scratchStart + j)) (fun j => g.ringCell slot (absStart + j)) 0 count scratch ring
      (copySharedScratchToRing g slot (scratchToRingSlabs g scratchStart absStart count) scratch ring) := by
  have key : ∀ fuel pos ring, count ≤ pos + fuel → pos ≤ count →
      Copied (fun j => g.scratchCell (scratchStart + j)) (fun j => g.ringCell slot (absStart + j)) pos count scratch ring
        (copySharedScratchToRing g slot (slabsFrom g scratchStart absStart count fuel pos) scratch ring) := by
    intro fuel
    induction fuel with
    | zero => exact fun pos ring hfuel _ => Copied.refl _ _ (by omega) _ _
    | succ fuel ih =>
      intro pos ring hfuel hle
      by_cases hlt : pos < count
      · obtain ⟨hn, hend, -, -, hring, hscratch⟩ := slab_cells g scratchStart absStart hlt
        rw [slabsFrom, if_pos hlt]
        refine Copied.trans (copied_copySlice scratch ring hscratch (hring slot)) (ih _ _ (by omega) hend)
          (Nat.le_add_right _ _) hend fun i j _ hi _ hj h => ringCell_injOn g hcount i j (by omega) hi (by omega) hj h
      · rw [slabsFrom, if_neg hlt]
        exact Copied.refl _ _ (by omega) _ _
  exact key count 0 ring (by omega) (Nat.zero_le _)

end Slabs

end LagunaRing
