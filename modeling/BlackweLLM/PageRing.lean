import Mathlib.Data.List.GetD
import Mathlib.Data.List.Nodup
import Mathlib.Data.List.Range
import Mathlib.Data.List.Perm.Subperm
import Mathlib.Data.Nat.ModEq

/-!
# Pages on a ring

Rows are numbered by page and offset, and a window of neighbouring pages is laid
on a ring by taking page numbers modulo its length. A window no longer than the
ring meets no page twice, from whichever page it starts.
-/

namespace PageRing

open List

variable {size block block' offset offset' : ℕ}

theorem mul_add_div (hoffset : offset < size) : (block * size + offset) / size = block := by
  rw [add_comm, Nat.add_mul_div_right _ _ (Nat.zero_lt_of_lt hoffset), Nat.div_eq_of_lt hoffset, zero_add]

/-- A number below a block length determines block and offset. -/
theorem mul_add_inj (hoffset : offset < size) (hoffset' : offset' < size) :
    block * size + offset = block' * size + offset' ↔ block = block' ∧ offset = offset' := by
  constructor
  · intro heq
    have hdiv : (block * size + offset) / size = block := mul_add_div hoffset
    have hblock : block = block' := by
      rw [← hdiv, heq, mul_add_div hoffset']
    subst hblock
    exact ⟨rfl, Nat.add_left_cancel heq⟩
  · rintro ⟨rfl, rfl⟩
    rfl

/-- The pages a window of `length` rows touches when it starts on a page. -/
def pagesOf (size length : ℕ) : ℕ := (length + size - 1) / size

theorem lt_pagesOf_iff {length i : ℕ} (hsize : 0 < size) : i < pagesOf size length ↔ i * size < length := by
  rw [pagesOf, ← Nat.succ_le_iff, Nat.le_div_iff_mul_le hsize, Nat.succ_mul]
  omega

variable {ring start shift length : ℕ}

theorem add_mod_inj {i j : ℕ} (h : (start + i) % ring = (start + j) % ring) (hi : i < ring) (hj : j < ring) : i = j :=
  Nat.ModEq.eq_of_lt_of_lt (Nat.ModEq.add_left_cancel' start h) hi hj

/-- A shifted ring agrees with the ring at a page exactly when the shift goes round it. -/
theorem shift_iff (page : ℕ) : (page + shift) % ring = page % ring ↔ shift % ring = 0 := by
  constructor
  · intro h
    have hzero : shift ≡ 0 [MOD ring] := Nat.ModEq.add_left_cancel' page h
    rwa [Nat.ModEq, Nat.zero_mod] at hzero
  · intro h
    rw [Nat.add_mod, h, add_zero, Nat.mod_mod]

/-- Two rings of lengths that differ by one agree along a window when they agree on its first page and the shorter one
does not wrap inside it. -/
theorem longer_iff (hring : 0 < ring) (hlength : 0 < length) :
    (∀ i < length, (start + i + shift) % (ring + 1) = (start + i) % ring) ↔
      (start + shift) % (ring + 1) = start % ring ∧ start % ring + length ≤ ring := by
  have hlt := Nat.mod_lt start hring
  have hlonger : ∀ i, (start + shift) % (ring + 1) = start % ring →
      (start + i + shift) % (ring + 1) = (start % ring + i) % (ring + 1) := by
    intro i hfirst
    rw [add_right_comm, ← Nat.mod_add_mod, hfirst]
  have hshorter : ∀ i, (start + i) % ring = (start % ring + i) % ring := fun i => (Nat.mod_add_mod start ring i).symm
  constructor
  · intro h
    have hfirst : (start + shift) % (ring + 1) = start % ring := h 0 hlength
    refine ⟨hfirst, ?_⟩
    by_contra hwraps
    -- the page on which the shorter ring is back at zero and the longer one stands on its last page
    have hwrap := h (ring - start % ring) (by omega)
    rw [hlonger _ hfirst, hshorter, Nat.add_sub_cancel' (le_of_lt hlt), Nat.mod_self,
      Nat.mod_eq_of_lt (Nat.lt_succ_self ring)] at hwrap
    omega
  · rintro ⟨hfirst, hfits⟩ i hi
    rw [hlonger i hfirst, hshorter, Nat.mod_eq_of_lt (show start % ring + i < ring + 1 by omega),
      Nat.mod_eq_of_lt (show start % ring + i < ring by omega)]

section Places

variable {places : List ℕ}

theorem nodup_map_drop_iff {α : Type*} {f : ℕ → α} (d : ℕ) :
    ((places.drop d).map f).Nodup ↔ ∀ x y, d ≤ x → x < places.length → d ≤ y → y < places.length →
      f (places.getD x 0) = f (places.getD y 0) → x = y := by
  rw [nodup_iff_injective_getElem]
  constructor
  · intro hinj x y hx hxlt hy hylt heq
    have hfin := @hinj ⟨x - d, by simp only [length_map, length_drop]; omega⟩
      ⟨y - d, by simp only [length_map, length_drop]; omega⟩
    simp only [getElem_map, getElem_drop, Nat.add_sub_cancel' hx, Nat.add_sub_cancel' hy, Fin.mk.injEq] at hfin
    rw [getD_eq_getElem _ _ hxlt, getD_eq_getElem _ _ hylt] at heq
    have := hfin heq
    omega
  · rintro h ⟨i, hi⟩ ⟨j, hj⟩ heq
    simp only [length_map, length_drop] at hi hj
    simp only [getElem_map, getElem_drop] at heq
    have hij := h (d + i) (d + j) (by omega) (by omega) (by omega) (by omega)
      (by rwa [getD_eq_getElem _ _ (by omega), getD_eq_getElem _ _ (by omega)])
    exact Fin.ext (by simpa using hij)

/-- Distinct places of a whole round leave none of the ring out. -/
theorem mem_of_round (hnodup : places.Nodup) (hlength : places.length = ring) (hlt : ∀ a ∈ places, a < ring) {a : ℕ}
    (ha : a < ring) : a ∈ places := by
  have hsub : places ⊆ range ring := fun b hb => mem_range.mpr (hlt b hb)
  have hperm : places.Perm (range ring) :=
    (subperm_of_subset hnodup hsub).perm_of_length_le (by rw [length_range, hlength])
  exact hperm.mem_iff.mpr (mem_range.mpr ha)

/-- Copying the last `ring + 1` pages of a ring to arbitrary pages of another keeps apart what the ring keeps apart when
the last round is injective and the page before it goes where the last one does. -/
theorem round_iff (hring : 0 < ring) :
    (∀ x y, places.length - min places.length (ring + 1) ≤ x → x < places.length →
      places.length - min places.length (ring + 1) ≤ y → y < places.length →
        places.getD x 0 % ring = places.getD y 0 % ring → x % ring = y % ring) ↔
      ((places.drop (places.length - min places.length ring)).map (· % ring)).Nodup ∧
        (ring < places.length →
          places.getD (places.length - 1 - ring) 0 % ring = places.getD (places.length - 1) 0 % ring) := by
  rw [nodup_map_drop_iff]
  -- the pages of the last round are neighbours, so their numbers differ modulo the ring
  have hround : ∀ x y, places.length - min places.length ring ≤ x → x < places.length →
      places.length - min places.length ring ≤ y → y < places.length → x % ring = y % ring → x = y := by
    intro x y hx hxlt hy hylt heq
    obtain ⟨i, rfl⟩ := Nat.exists_eq_add_of_le hx
    obtain ⟨j, rfl⟩ := Nat.exists_eq_add_of_le hy
    rw [add_mod_inj heq (by omega) (by omega)]
  have hbefore : ring < places.length → (places.length - 1 - ring) % ring = (places.length - 1) % ring := by
    intro hlong
    exact (Nat.mod_eq_sub_mod (by omega)).symm
  constructor
  · intro h
    have hinj : ∀ x y, places.length - min places.length ring ≤ x → x < places.length →
        places.length - min places.length ring ≤ y → y < places.length →
          places.getD x 0 % ring = places.getD y 0 % ring → x = y := by
      intro x y hx hxlt hy hylt heq
      exact hround x y hx hxlt hy hylt (h x y (by omega) hxlt (by omega) hylt heq)
    refine ⟨hinj, fun hlong => ?_⟩
    have hall := mem_of_round ((nodup_map_drop_iff (f := (· % ring)) _).mpr hinj)
      (by rw [length_map, length_drop]; omega)
      (by
        intro a ha
        obtain ⟨b, -, rfl⟩ := mem_map.mp ha
        exact Nat.mod_lt b hring)
      (Nat.mod_lt (places.getD (places.length - 1 - ring) 0) hring)
    obtain ⟨b, hb, heq⟩ := mem_map.mp hall
    obtain ⟨i, hi, rfl⟩ := mem_iff_getElem.mp hb
    rw [length_drop] at hi
    rw [getElem_drop, ← getD_eq_getElem _ 0] at heq
    have hpage := h _ _ (by omega) (by omega) (by omega) (by omega) heq
    have hlast := hround _ (places.length - 1) (by omega) (by omega) (by omega) (by omega)
      (hpage.trans (hbefore hlong))
    rw [← heq, hlast]
  · rintro ⟨hinj, hback⟩ x y hx hxlt hy hylt heq
    -- the page before the last round can be replaced by the last page
    have hreplace : ∀ z, places.length - min places.length (ring + 1) ≤ z → z < places.length →
        ∃ z', places.length - min places.length ring ≤ z' ∧ z' < places.length ∧ z % ring = z' % ring ∧
          places.getD z 0 % ring = places.getD z' 0 % ring := by
      intro z hz hzlt
      by_cases hin : places.length - min places.length ring ≤ z
      · exact ⟨z, hin, hzlt, rfl, rfl⟩
      · have hlong : ring < places.length := by omega
        have hz : z = places.length - 1 - ring := by omega
        subst hz
        exact ⟨places.length - 1, by omega, by omega, hbefore hlong, hback hlong⟩
    obtain ⟨x', hx', hxlt', hxmod, hxplace⟩ := hreplace x hx hxlt
    obtain ⟨y', hy', hylt', hymod, hyplace⟩ := hreplace y hy hylt
    rw [hxmod, hymod, hinj x' y' hx' hxlt' hy' hylt' (hxplace.symm.trans (heq.trans hyplace))]

end Places

end PageRing
