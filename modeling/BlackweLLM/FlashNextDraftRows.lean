import BlackweLLM.FlashNextCold
import Mathlib.Data.List.GetD

/-!
# The draft head's rows against a cold prefill

A row of the draft head is forced with the target's hidden row at its position
and the embedding of the next token, over the rows below it. So the rows of a
prefix are those that a cold prefill of the prefix forces, but for the last one,
whose next token is not in the prefix.
-/

namespace FlashNext

open List Function

open LagunaRing (scatter scatter_of_notMem)

variable {V : Type} {C : Config V} {given : Bool}

section Force

variable {row : List V → V → V → V} {rows : ℕ → V} {start i : ℕ} {fed : List (V × V)}

theorem forceRows_below (h : i < start) : forceRows row rows start fed i = rows i := by
  induction fed generalizing rows start with
  | nil => rfl
  | cons first fed ih =>
    rw [forceRows, ih (Nat.lt_succ_of_lt h)]
    exact update_of_ne h.ne _ _

theorem forceRows_above (h : start + fed.length ≤ i) : forceRows row rows start fed i = rows i := by
  induction fed generalizing rows start with
  | nil => rfl
  | cons first fed ih =>
    rw [length_cons] at h
    rw [forceRows, ih (by omega)]
    exact update_of_ne (by omega) _ _

theorem forceRows_row {j : ℕ} (hj : j < fed.length) :
    forceRows row rows start fed (start + j) =
      row ((range (start + j)).map (forceRows row rows start fed)) fed[j].1 fed[j].2 := by
  induction fed generalizing rows start j with
  | nil => cases hj
  | cons first fed ih =>
    cases j with
    | zero =>
      have hbelow : (range start).map (forceRows row rows start (first :: fed)) = (range start).map rows :=
        map_congr_left fun i hi => forceRows_below (mem_range.mp hi)
      rw [add_zero, hbelow, forceRows, forceRows_below (Nat.lt_succ_self start)]
      exact update_self _ _ _
    | succ j =>
      have hindex : start + (j + 1) = start + 1 + j := by omega
      rw [hindex, getElem_cons_succ]
      exact ih (Nat.lt_of_succ_lt_succ hj)

end Force

section Cold

variable {W Z : List (Input V)} {rows : ℕ → V} {m i : ℕ} {fed : List (V × V)}

def hiddenAt (C : Config V) (given : Bool) (X : List (Input V)) (i : ℕ) : V :=
  ((coldHidden C.model given X).map Prod.snd).getD i C.model.zero

def embedAt (C : Config V) (X : List (Input V)) (i : ℕ) : V := (X.map Input.embed).getD i C.model.zero

def coldDraft (C : Config V) (given : Bool) (X : List (Input V)) : ℕ → V :=
  forceRows C.draftRow (fun _ => C.model.zero) 0
    (((coldHidden C.model given X).map Prod.snd).zip (X.map Input.embed).tail)

theorem coldDraft_row (h : i + 1 < W.length) :
    coldDraft C given W i =
      C.draftRow ((range i).map (coldDraft C given W)) (hiddenAt C given W i) (embedAt C W (i + 1)) := by
  have hfed : i < (((coldHidden C.model given W).map Prod.snd).zip (W.map Input.embed).tail).length := by
    simp only [length_zip, length_map, coldHidden_length, length_tail]
    omega
  have hrow : forceRows C.draftRow (fun _ => C.model.zero) 0 _ (0 + i) = _ := forceRows_row hfed
  rw [zero_add, getElem_zip] at hrow
  rw [coldDraft, hrow, hiddenAt, embedAt, getD_eq_getElem _ _ (by simpa using Nat.lt_of_succ_lt h),
    getD_eq_getElem _ _ (by simpa using h), getElem_tail]

theorem hiddenAt_front (hpre : Z <+: W) (h : i < Z.length) : hiddenAt C given Z i = hiddenAt C given W i := by
  obtain ⟨t, rfl⟩ := hpre
  have hstable := coldHidden_stable (M := C.model) given Z t
  rw [hiddenAt, hiddenAt, ← hstable, map_take, getD_eq_getElem?_getD, getElem?_take_of_lt h,
    ← getD_eq_getElem?_getD]

theorem embedAt_front (hpre : Z <+: W) (h : i < Z.length) : embedAt C Z i = embedAt C W i := by
  obtain ⟨t, rfl⟩ := hpre
  rw [embedAt, embedAt, map_append, getD_append _ _ _ _ (by simpa using h)]

/-- A row of a prefix is forced alike in what extends it. -/
theorem coldDraft_front (hpre : Z <+: W) (h : i + 1 < Z.length) :
    coldDraft C given Z i = coldDraft C given W i := by
  induction i using Nat.strong_induction_on with
  | _ i ih =>
    have hbelow : (range i).map (coldDraft C given Z) = (range i).map (coldDraft C given W) := by
      refine map_congr_left fun j hj => ?_
      rw [mem_range] at hj
      exact ih j hj (by omega)
    rw [coldDraft_row h, coldDraft_row (h.trans_le hpre.length_le), hbelow, hiddenAt_front hpre (by omega),
      embedAt_front hpre h]

/-- The rows that a sync is given, for the prompt `W` from row `m` on. -/
def FedWith (C : Config V) (given : Bool) (W : List (Input V)) (m : ℕ) (fed : List (V × V)) : Prop :=
  ∀ (j : ℕ) (h : j < fed.length),
    fed[j].1 = hiddenAt C given W (m + j) ∧ (m + j + 1 < W.length → fed[j].2 = embedAt C W (m + j + 1))

theorem FedWith.forced (hfed : FedWith C given W m fed) (hbase : ∀ i < m, rows i = coldDraft C given W i)
    (hi : i < m + fed.length) (hnext : i < m ∨ i + 1 < W.length) :
    forceRows C.draftRow rows m fed i = coldDraft C given W i := by
  induction i using Nat.strong_induction_on with
  | _ i ih =>
    by_cases hm : i < m
    · rw [forceRows_below hm, hbase i hm]
    · obtain ⟨j, rfl⟩ := Nat.exists_eq_add_of_le (not_lt.mp hm)
      have hj : j < fed.length := by omega
      have hbelow : (range (m + j)).map (forceRows C.draftRow rows m fed) =
          (range (m + j)).map (coldDraft C given W) := by
        refine map_congr_left fun i hi' => ?_
        rw [mem_range] at hi'
        exact ih i hi' (by omega) (by omega)
      rw [forceRows_row hj, hbelow, (hfed j hj).1, (hfed j hj).2 (by omega), coldDraft_row (by omega)]

def lastRow (C : Config V) (given : Bool) (Z : List (Input V)) (next : V) : V :=
  C.draftRow ((range (Z.length - 1)).map (coldDraft C given Z)) (hiddenAt C given Z (Z.length - 1)) next

structure DraftsHold (C : Config V) (given : Bool) (Z : List (Input V)) (rows : ℕ → V) : Prop where
  below : ∀ i, i + 1 < Z.length → rows i = coldDraft C given Z i
  last : ∃ next, rows (Z.length - 1) = lastRow C given Z next

theorem DraftsHold.congr {rows' : ℕ → V} (h : DraftsHold C given Z rows) (hpos : 0 < Z.length)
    (heq : ∀ i < Z.length, rows' i = rows i) : DraftsHold C given Z rows' := by
  obtain ⟨next, hlast⟩ := h.last
  exact ⟨fun i hi => (heq i (by omega)).trans (h.below i hi), next, (heq _ (by omega)).trans hlast⟩

/-- A sync with the rows of a prompt keeps the prefixes of the prompt and what lies below the sync. -/
theorem DraftsHold.forced {kept : Bool} (h : DraftsHold C kept Z rows) (hpos : 0 < Z.length)
    (hfed : FedWith C given W m fed) (hbase : ∀ i < m, rows i = coldDraft C given W i)
    (hZ : Z.length ≤ m ∨ (kept = given ∧ Z <+: W)) : DraftsHold C kept Z (forceRows C.draftRow rows m fed) := by
  by_cases hle : Z.length ≤ m
  · exact h.congr hpos fun i hi => forceRows_below (by omega)
  obtain ⟨rfl, hpre⟩ : kept = given ∧ Z <+: W := by
    rcases hZ with hZ | hZ
    · exact absurd hZ hle
    · exact hZ
  have hlen := hpre.length_le
  have hbelow : ∀ i, i + 1 < Z.length → forceRows C.draftRow rows m fed i = coldDraft C kept Z i := by
    intro i hi
    by_cases hin : i < m + fed.length
    · rw [hfed.forced hbase hin (.inr (by omega)), coldDraft_front hpre hi]
    · rw [forceRows_above (by omega), h.below i hi]
  refine ⟨hbelow, ?_⟩
  by_cases hin : m + fed.length ≤ Z.length - 1
  · rw [forceRows_above hin]
    exact h.last
  · obtain ⟨j, hj⟩ := Nat.exists_eq_add_of_le (show m ≤ Z.length - 1 by omega)
    have hfedj : j < fed.length := by omega
    refine ⟨fed[j].2, ?_⟩
    have hrange : (range (Z.length - 1)).map (forceRows C.draftRow rows m fed) =
        (range (Z.length - 1)).map (coldDraft C kept Z) := by
      refine map_congr_left fun i hi => hbelow i ?_
      rw [mem_range] at hi
      omega
    rw [lastRow, ← hrange, hj, forceRows_row hfedj, (hfed j hfedj).1, hiddenAt_front hpre (by omega)]

/-- Rows behind a prefix do not matter to it. -/
theorem DraftsHold.scatter {p : ℕ} {tail : List V} (h : DraftsHold C given Z rows) (hpos : 0 < Z.length)
    (hle : Z.length ≤ p) : DraftsHold C given Z (scatter rows (tail.mapIdx fun i row => (p + i, row))) := by
  refine h.congr hpos fun i hi => scatter_of_notMem rows _ fun hmem => ?_
  simp only [mem_map, mem_mapIdx] at hmem
  obtain ⟨_, ⟨j, hj, rfl⟩, heq⟩ := hmem
  simp only at heq
  omega

/-- The draft head went through the rows of `W` below `m`; the last row of all has a next token of its own. -/
structure DraftsTo (C : Config V) (given : Bool) (W : List (Input V)) (m : ℕ) (rows : ℕ → V) : Prop where
  below : ∀ i < m, i + 1 < W.length → rows i = coldDraft C given W i
  last : W.length ≤ m → ∃ next, rows (W.length - 1) = lastRow C given W next

section

variable (h : DraftsTo C given W m rows)
include h

theorem DraftsTo.base (hm : m < W.length) : ∀ i < m, rows i = coldDraft C given W i :=
  fun i hi => h.below i hi (by omega)

theorem DraftsTo.forced (hm : m < W.length) (hfed : FedWith C given W m fed) :
    DraftsTo C given W (m + fed.length) (forceRows C.draftRow rows m fed) := by
  have hbase := h.base hm
  refine ⟨fun i hi hnext => hfed.forced hbase hi (.inr hnext), fun hlen => ?_⟩
  obtain ⟨j, hj⟩ := Nat.exists_eq_add_of_le (show m ≤ W.length - 1 by omega)
  have hfedj : j < fed.length := by omega
  refine ⟨fed[j].2, ?_⟩
  have hrange : (range (W.length - 1)).map (forceRows C.draftRow rows m fed) =
      (range (W.length - 1)).map (coldDraft C given W) := by
    refine map_congr_left fun i hi => ?_
    rw [mem_range] at hi
    exact hfed.forced hbase (by omega) (.inr (by omega))
  rw [lastRow, ← hrange, hj, forceRows_row hfedj, (hfed j hfedj).1]

theorem DraftsTo.hold (hpre : Z <+: W) (hpos : 0 < Z.length) (hle : Z.length ≤ m) :
    DraftsHold C given Z rows := by
  have hlen := hpre.length_le
  refine ⟨fun i hi => ?_, ?_⟩
  · rw [h.below i (by omega) (by omega), coldDraft_front hpre hi]
  by_cases heq : Z.length = W.length
  · obtain rfl := hpre.eq_of_length heq
    exact h.last hle
  · have hindex : Z.length - 1 + 1 < W.length := by omega
    refine ⟨embedAt C W (Z.length - 1 + 1), ?_⟩
    have hrange : (range (Z.length - 1)).map (coldDraft C given W) =
        (range (Z.length - 1)).map (coldDraft C given Z) := by
      refine map_congr_left fun i hi => (coldDraft_front hpre ?_).symm
      rw [mem_range] at hi
      omega
    rw [h.below _ (by omega) hindex, coldDraft_row hindex, hrange, lastRow, hiddenAt_front hpre (by omega)]

theorem DraftsTo.scatter {p : ℕ} {tail : List V} (hpos : 0 < W.length) (hle : W.length ≤ p) :
    DraftsTo C given W m (LagunaRing.scatter rows (tail.mapIdx fun i row => (p + i, row))) := by
  have hkeep : ∀ i < p, LagunaRing.scatter rows (tail.mapIdx fun i row => (p + i, row)) i = rows i := by
    refine fun i hi => scatter_of_notMem rows _ fun hmem => ?_
    simp only [mem_map, mem_mapIdx] at hmem
    obtain ⟨_, ⟨j, hj, rfl⟩, heq⟩ := hmem
    simp only at heq
    omega
  refine ⟨fun i hi hnext => (hkeep i (by omega)).trans (h.below i hi hnext), fun hlen => ?_⟩
  obtain ⟨next, hlast⟩ := h.last hlen
  exact ⟨next, (hkeep _ (by omega)).trans hlast⟩

end

/-- Hidden rows of a longer prefill go on where those of a shorter one end. -/
theorem drop_coldHidden {h n : ℕ} (hm : m ≤ h) (hn : h ≤ n) (hW : n ≤ W.length) :
    (coldHidden C.model given (W.take h)).drop m ++ (coldHidden C.model given (W.take n)).drop h =
      (coldHidden C.model given (W.take n)).drop m := by
  obtain ⟨t, ht⟩ : W.take h <+: W.take n := take_prefix_take_left hn
  have hlen : (W.take h).length = h := by
    rw [length_take]
    omega
  have hstable := coldHidden_stable (M := C.model) given (W.take h) t
  rw [ht, hlen] at hstable
  rw [← hstable, ← drop_append_of_le_length (by simp; omega), take_append_drop]

theorem fedWith_of {n : ℕ} {hidden : List (ℕ × V)} {next : List V} (hn : n ≤ W.length)
    (hhidden : hidden = (coldHidden C.model given (W.take n)).drop m)
    (hnext : ∀ j, m + j < n → m + j + 1 < W.length → next[j]? = some (embedAt C W (m + j + 1))) :
    FedWith C given W m ((hidden.map Prod.snd).zip next) := by
  intro j hj
  have hlen : (W.take n).length = n := by
    rw [length_take]
    omega
  rw [length_zip, length_map, hhidden, length_drop, coldHidden_length, hlen] at hj
  have hrow : m + j < n := by omega
  constructor
  · rw [← hiddenAt_front ( take_prefix n W) (by omega), hiddenAt, getD_eq_getElem _ _ (by simp; omega),
      getElem_zip]
    subst hhidden
    simp
  · intro hlt
    have hget := hnext j hrow hlt
    rw [getElem_zip]
    exact (getElem_eq_iff _).mpr hget

end Cold

end FlashNext
