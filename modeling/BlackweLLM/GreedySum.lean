import Mathlib.Algebra.Order.BigOperators.Group.Finset
import Mathlib.Data.List.Sort

/-!
# Taking the first of a sorted list

A list that is sorted by value, the largest first, offers its first `b` elements:
no set of `b` of them has a larger sum. Where the elements are positions in rows
and the list never puts a later position of a row before an earlier one, what is
taken of a row is an initial segment of it.
-/

namespace GreedySum

open List

section Take

variable {ι R : Type*} [AddCommMonoid R] [LinearOrder R] [IsOrderedAddMonoid R] {f : ι → R} {l : List ι} {b : ℕ}

/-- No choice of `b` elements has a larger sum than the first `b`. -/
theorem sum_le_take [DecidableEq ι] (hsorted : l.Pairwise fun x y => f y ≤ f x) (hnonneg : ∀ x ∈ l, 0 ≤ f x)
    {X : Finset ι} (hX : ∀ x ∈ X, x ∈ l) (hcard : X.card ≤ b) : ∑ x ∈ X, f x ≤ ((l.take b).map f).sum := by
  induction l generalizing b X with
  | nil =>
    have hempty : X = ∅ := Finset.eq_empty_of_forall_notMem fun x hx => not_mem_nil (hX x hx)
    rw [hempty, Finset.sum_empty, take_nil, map_nil, List.sum_nil]
  | cons a l ih =>
    rw [pairwise_cons] at hsorted
    rw [forall_mem_cons] at hnonneg
    cases b with
    | zero =>
      rw [Finset.card_eq_zero.mp (Nat.le_zero.mp hcard), Finset.sum_empty, take_zero, map_nil, List.sum_nil]
    | succ b =>
      rw [take_succ_cons, map_cons, sum_cons]
      obtain hempty | ⟨y, hy⟩ := X.eq_empty_or_nonempty
      · have hrest := ih hsorted.2 hnonneg.2 (X := ∅) (b := b) (fun x hx => absurd hx (Finset.notMem_empty x))
          (Nat.zero_le b)
        rw [hempty, Finset.sum_empty] at *
        exact add_nonneg hnonneg.1 hrest
      · -- the chosen element that makes room for the head: the head itself if it was chosen
        obtain ⟨z, hz, hle, hrest⟩ : ∃ z ∈ X, f z ≤ f a ∧ ∀ x ∈ X.erase z, x ∈ l := by
          by_cases ha : a ∈ X
          · refine ⟨a, ha, le_rfl, fun x hx => ?_⟩
            exact (mem_cons.mp (hX x (Finset.mem_of_mem_erase hx))).resolve_left (Finset.ne_of_mem_erase hx)
          · have hmem : ∀ x ∈ X, x ∈ l := fun x hx =>
              (mem_cons.mp (hX x hx)).resolve_left fun heq => ha (heq ▸ hx)
            exact ⟨y, hy, hsorted.1 y (hmem y hy), fun x hx => hmem x (Finset.mem_of_mem_erase hx)⟩
        rw [← Finset.add_sum_erase X f hz]
        have herase := Finset.card_erase_of_mem hz
        exact add_le_add hle (ih hsorted.2 hnonneg.2 hrest (by omega))

omit [AddCommMonoid R] [LinearOrder R] [IsOrderedAddMonoid R] in
/-- What the order puts before a taken element is taken. -/
theorem mem_take_of_not {r : ι → ι → Prop} (hsorted : l.Pairwise r) {x y : ι} (hx : x ∈ l.take b) (hy : y ∈ l)
    (hnot : ¬r x y) : y ∈ l.take b := by
  rw [← take_append_drop b l] at hsorted hy
  obtain hy | hy := mem_append.mp hy
  · exact hy
  · exact absurd ((pairwise_append.mp hsorted).2.2 x hx y hy) hnot

end Take

section Rows

/-- A finite set of numbers without gaps from zero on. -/
theorem eq_range_card {T : Finset ℕ} (h : ∀ p ∈ T, ∀ q < p, q ∈ T) : T = Finset.range T.card := by
  have hsub : T ⊆ Finset.range T.card := by
    intro p hp
    have hle : Finset.range (p + 1) ⊆ T := by
      intro q hq
      obtain hlt | rfl := Nat.lt_succ_iff_lt_or_eq.mp (Finset.mem_range.mp hq)
      · exact h p hp q hlt
      · exact hp
    have hcard := Finset.card_le_card hle
    rw [Finset.card_range] at hcard
    exact Finset.mem_range.mpr hcard
  exact Finset.eq_of_subset_of_card_le hsub (by rw [Finset.card_range])

variable {T : Finset ((_ : ℕ) × ℕ)} {n : ℕ}

def taken (T : Finset ((_ : ℕ) × ℕ)) (r : ℕ) : ℕ := (T.filter fun k => k.1 = r).card

theorem mem_iff_lt_taken (h : ∀ r p, (⟨r, p⟩ : (_ : ℕ) × ℕ) ∈ T → ∀ q < p, (⟨r, q⟩ : (_ : ℕ) × ℕ) ∈ T) (r p : ℕ) :
    (⟨r, p⟩ : (_ : ℕ) × ℕ) ∈ T ↔ p < taken T r := by
  have hmem : ∀ q, q ∈ (T.filter fun k => k.1 = r).image Sigma.snd ↔ (⟨r, q⟩ : (_ : ℕ) × ℕ) ∈ T := by
    intro q
    rw [Finset.mem_image]
    constructor
    · rintro ⟨⟨r', q'⟩, hk, rfl⟩
      obtain ⟨hT, rfl⟩ := Finset.mem_filter.mp hk
      exact hT
    · exact fun hq => ⟨⟨r, q⟩, Finset.mem_filter.mpr ⟨hq, rfl⟩, rfl⟩
  have hcard : ((T.filter fun k => k.1 = r).image Sigma.snd).card = taken T r := by
    apply Finset.card_image_of_injOn
    rintro ⟨r₁, p₁⟩ h₁ ⟨r₂, p₂⟩ h₂ heq
    obtain rfl : r₁ = r := (Finset.mem_filter.mp h₁).2
    obtain rfl : r₂ = r₁ := (Finset.mem_filter.mp h₂).2
    obtain rfl : p₁ = p₂ := heq
    rfl
  have hrange := eq_range_card (T := (T.filter fun k => k.1 = r).image Sigma.snd) fun p hp q hq =>
    (hmem q).mpr (h r p ((hmem p).mp hp) q hq)
  rw [← hmem, hrange, hcard, Finset.mem_range]

theorem sum_taken {R : Type*} [AddCommMonoid R] (hrows : ∀ k ∈ T, k.1 < n)
    (h : ∀ r p, (⟨r, p⟩ : (_ : ℕ) × ℕ) ∈ T → ∀ q < p, (⟨r, q⟩ : (_ : ℕ) × ℕ) ∈ T) (f : ℕ → ℕ → R) :
    ∑ k ∈ T, f k.1 k.2 = ∑ r ∈ Finset.range n, ∑ p ∈ Finset.range (taken T r), f r p := by
  have hT : T = (Finset.range n).sigma fun r => Finset.range (taken T r) := by
    ext ⟨r, p⟩
    rw [Finset.mem_sigma, Finset.mem_range, Finset.mem_range, mem_iff_lt_taken h r p]
    exact ⟨fun hp => ⟨hrows _ ((mem_iff_lt_taken h r p).mpr hp), hp⟩, fun hp => hp.2⟩
  nth_rewrite 1 [hT]
  exact Finset.sum_sigma _ _ _

theorem card_taken (hrows : ∀ k ∈ T, k.1 < n) : ∑ r ∈ Finset.range n, taken T r = T.card :=
  (Finset.card_eq_sum_card_fiberwise fun k hk => Finset.mem_range.mpr (hrows k hk)).symm

end Rows

end GreedySum
