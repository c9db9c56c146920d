import Mathlib.Algebra.BigOperators.Group.List.Basic
import Mathlib.Tactic.Ring

/-!
# Arrays that are filled from the left

An array is a function on its indices. A window of it is filled entry by entry;
what is written at or above its end leaves it alone, whatever that is and
however often it is overwritten later. Windows that follow one another are
found by the sums of their lengths.
-/

namespace ArrayFill

open List Function

variable {α : Type} {f g : Nat → α} {start n : Nat} {v : Nat → α}

/-- Behind `f`, the array `g` has `n` values from `start` on, and in front of them what it had. -/
structure Filled (f g : Nat → α) (start n : Nat) (v : Nat → α) : Prop where
  value : ∀ i < n, g (start + i) = v i
  before : ∀ i < start, g i = f i

namespace Filled

theorem nil (f : Nat → α) (start : Nat) (v : Nat → α) : Filled f f start 0 v :=
  ⟨fun i hi => absurd hi (Nat.not_lt_zero i), fun _ _ => rfl⟩

theorem push (h : Filled f g start n v) : Filled f (update g (start + n) (v n)) start (n + 1) v := by
  constructor
  · intro i hi
    by_cases hlast : i = n
    · rw [hlast, update_self]
    · rw [update_of_ne (by omega)]
      exact h.value i (by omega)
  · intro i hi
    rw [update_of_ne (by omega)]
    exact h.before i hi

theorem above (h : Filled f g start n v) {i : Nat} (hi : start + n ≤ i) (a : α) :
    Filled f (update g i a) start n v := by
  constructor
  · intro j hj
    rw [update_of_ne (by omega)]
    exact h.value j hj
  · intro j hj
    rw [update_of_ne (by omega)]
    exact h.before j hj

end Filled

/-- `a[start : start + len(values)] = values`. -/
def writeSlice (g : Nat → α) (start : Nat) (values : List α) : Nat → α := fun i =>
  if start ≤ i then (values[i - start]?).getD (g i) else g i

variable {i : Nat} {values : List α}

theorem writeSlice_of_lt (hi : i < start) : writeSlice g start values i = g i := by
  rw [writeSlice, if_neg (not_le.mpr hi)]

theorem writeSlice_of_ge (hi : start + values.length ≤ i) : writeSlice g start values i = g i := by
  rw [writeSlice, if_pos (le_trans (Nat.le_add_right _ _) hi), getElem?_eq_none (by omega), Option.getD_none]

theorem writeSlice_add {a : α} (hi : values[i]? = some a) : writeSlice g start values (start + i) = a := by
  rw [writeSlice, if_pos (Nat.le_add_right _ _), Nat.add_sub_cancel_left, hi, Option.getD_some]

section Stores

variable {α : Type} {stores : List (Nat × α)} {f : Nat → α} {i : Nat} {a : α}

def stored (f : Nat → α) (stores : List (Nat × α)) : Nat → α :=
  stores.foldl (fun g s => update g s.1 s.2) f

theorem stored_cons (f : Nat → α) (s : Nat × α) : stored f (s :: stores) = stored (update f s.1 s.2) stores := rfl

theorem stored_of_ne (h : ∀ s ∈ stores, s.1 ≠ i) : stored f stores i = f i := by
  induction stores generalizing f with
  | nil => rfl
  | cons s stores ih =>
    rw [stored_cons, ih fun s' hs' => h s' (mem_cons_of_mem _ hs'),
      update_of_ne (h s mem_cons_self).symm]

theorem stored_of_mem (hmem : (i, a) ∈ stores) (h : ∀ s ∈ stores, s.1 = i → s.2 = a) : stored f stores i = a := by
  induction stores generalizing f with
  | nil => exact absurd hmem not_mem_nil
  | cons s stores ih =>
    have hrest : ∀ s' ∈ stores, s'.1 = i → s'.2 = a := fun s' hs' => h s' (mem_cons_of_mem _ hs')
    rw [stored_cons]
    by_cases hlater : (i, a) ∈ stores
    · exact ih hlater hrest
    · have hs : s = (i, a) := ((mem_cons.mp hmem).resolve_right hlater).symm
      have hne : ∀ s' ∈ stores, s'.1 ≠ i := by
        intro s' hs' heq
        have hval := hrest s' hs' heq
        exact hlater (by rwa [← heq, ← hval])
      rw [stored_of_ne hne, hs, update_self]

/-- Every index is stored at, and only values of one function are stored. -/
theorem stored_eq {spec : Nat → α} (hcover : ∃ s ∈ stores, s.1 = i) (h : ∀ s ∈ stores, s.2 = spec s.1) :
    stored f stores i = spec i := by
  obtain ⟨s, hs, rfl⟩ := hcover
  apply stored_of_mem (a := spec s.1)
  · rw [← h s hs]
    exact hs
  · intro s' hs' heq
    rw [h s' hs', heq]

end Stores

section Offsets

variable {β : Type} {size : β → Nat} {items : List β}

def offset (size : β → Nat) (items : List β) (i : Nat) : Nat := ((items.take i).map size).sum

@[simp] theorem offset_zero (size : β → Nat) (items : List β) : offset size items 0 = 0 := by simp [offset]

theorem offset_succ {b : β} (hb : items[i]? = some b) :
    offset size items (i + 1) = offset size items i + size b := by
  obtain ⟨hi, rfl⟩ := List.getElem?_eq_some_iff.mp hb
  rw [offset, offset, take_succ_eq_append_getElem hi, map_append, sum_append]
  simp

theorem offset_of_le {i j : Nat} (hi : items.length ≤ i) (hj : items.length ≤ j) :
    offset size items i = offset size items j := by
  rw [offset, offset, take_of_length_le hi, take_of_length_le hj]

theorem offset_mono {i j : Nat} (h : i ≤ j) : offset size items i ≤ offset size items j := by
  induction j, h using Nat.le_induction with
  | base => exact le_refl _
  | succ j hij ih =>
    cases hj : items[j]? with
    | some b =>
      rw [offset_succ hj]
      exact le_trans ih (Nat.le_add_right _ _)
    | none =>
      have hlen := List.getElem?_eq_none_iff.mp hj
      rwa [offset_of_le (Nat.le_succ_of_le hlen) hlen]

theorem offset_length (size : β → Nat) (items : List β) : offset size items items.length = (items.map size).sum := by
  rw [offset, take_length]

/-- Every index in front of the end lies in a window. -/
theorem offset_cover {j : Nat} (hj : j < (items.map size).sum) :
    ∃ i b c, items[i]? = some b ∧ c < size b ∧ j = offset size items i + c := by
  suffices h : ∀ n ≤ items.length, j < offset size items n →
      ∃ i b c, items[i]? = some b ∧ c < size b ∧ j = offset size items i + c from
    h items.length (le_refl _) (by rwa [offset_length])
  intro n
  induction n with
  | zero =>
    intro _ hlt
    rw [offset_zero] at hlt
    exact absurd hlt (Nat.not_lt_zero j)
  | succ n ih =>
    intro hn hlt
    by_cases hbefore : j < offset size items n
    · exact ih (Nat.le_of_succ_le hn) hbefore
    · have hget : items[n]? = some items[n] := getElem?_eq_getElem hn
      rw [offset_succ hget] at hlt
      exact ⟨n, items[n], j - offset size items n, hget, by omega, by omega⟩

/-- The offsets of all windows and the end of the last, as `cu_seqlens` holds them. -/
theorem offsets_eq (size : β → Nat) (items : List β) :
    0 :: (range items.length).map (fun i => ((items.map size).take (i + 1)).sum) =
      (range (items.length + 1)).map (offset size items) := by
  have hsucc : ∀ i, ((items.map size).take (i + 1)).sum = offset size items (i + 1) := by
    intro i
    rw [offset, map_take]
  rw [range_succ_eq_map, map_cons, map_map, offset_zero]
  simp only [hsucc]
  rfl

/-- Windows of at most `m` entries start no later than those of a grid of width `m`. -/
theorem offset_le {m : Nat} (hsize : ∀ b ∈ items, size b ≤ m) (i : Nat) : offset size items i ≤ i * m := by
  induction i with
  | zero => simp
  | succ i ih =>
    cases hi : items[i]? with
    | some b =>
      have := hsize b (mem_of_getElem? hi)
      rw [offset_succ hi, Nat.succ_mul]
      omega
    | none =>
      have hlen := List.getElem?_eq_none_iff.mp hi
      rw [offset_of_le (Nat.le_succ_of_le hlen) hlen]
      exact le_trans ih (Nat.mul_le_mul_right _ (Nat.le_succ i))

end Offsets

section Search

/-- `searchsorted` from the right: the first index of a sorted list whose element is above `x`. -/
def searchsortedRight (l : List Nat) (x : Nat) : Nat := (l.takeWhile fun a => decide (a ≤ x)).length

theorem length_takeWhile {p : α → Bool} {l : List α} (hi : i ≤ l.length)
    (hbefore : ∀ j < i, ∀ a, l[j]? = some a → p a = true) (hat : ∀ a, l[i]? = some a → p a = false) :
    (l.takeWhile p).length = i := by
  induction l generalizing i with
  | nil => exact (Nat.le_zero.mp hi).symm
  | cons a l ih =>
    cases i with
    | zero => rw [takeWhile_cons_of_neg (by simpa using hat a rfl), length_nil]
    | succ i =>
      rw [takeWhile_cons_of_pos (hbefore 0 (Nat.succ_pos i) a rfl), length_cons]
      rw [ih (Nat.le_of_succ_le_succ hi) (fun j hj b hb => hbefore (j + 1) (Nat.succ_lt_succ hj) b hb) hat]

/-- The search over the ends of the windows finds the window of an index. -/
theorem searchsortedRight_offsets {β : Type} {size : β → Nat} {items : List β} {i c : Nat} {b : β}
    (hb : items[i]? = some b) (hc : c < size b) :
    searchsortedRight ((range items.length).map fun r => offset size items (r + 1)) (offset size items i + c) =
      i := by
  have hlt := (List.getElem?_eq_some_iff.mp hb).1
  apply length_takeWhile
  · rw [length_map, length_range]
    exact le_of_lt hlt
  · intro j hj a ha
    rw [getElem?_map, getElem?_range (lt_trans hj hlt), Option.map_some, Option.some.injEq] at ha
    have hmono : offset size items (j + 1) ≤ offset size items i := offset_mono hj
    simp only [decide_eq_true_eq]
    omega
  · intro a ha
    rw [getElem?_map, getElem?_range hlt, Option.map_some, Option.some.injEq, offset_succ hb] at ha
    simp only [decide_eq_false_iff_not]
    omega

end Search

end ArrayFill
