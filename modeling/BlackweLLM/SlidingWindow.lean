import Mathlib.Data.List.DropRight
import Mathlib.Data.List.Range

/-!
# Sliding windows over a list

Every output reads a window of `n + 1` neighbouring entries, so what follows a list
needs its last `n` entries only.
-/

namespace SlidingWindow

open List

variable {α β : Type*} {n : ℕ} {f : List α → β}

def slide (n : ℕ) (f : List α → β) (xs : List α) : List β :=
  (range (xs.length - n)).map fun t => f ((xs.drop t).take (n + 1))

@[simp] theorem slide_length (xs : List α) : (slide n f xs).length = xs.length - n := by simp [slide]

theorem slide_getElem {xs : List α} {t : ℕ} (h : t < (slide n f xs).length) :
    (slide n f xs)[t] = f ((xs.drop t).take (n + 1)) := by simp [slide]

theorem slide_drop (m : ℕ) (xs : List α) : (slide n f xs).drop m = slide n f (xs.drop m) := by
  apply ext_getElem
  · simp only [length_drop, slide_length]
    omega
  · intro t _ _
    rw [getElem_drop, slide_getElem, slide_getElem, drop_drop]

theorem slide_take (m : ℕ) (xs : List α) : (slide n f xs).take m = slide n f (xs.take (m + n)) := by
  apply ext_getElem
  · simp only [length_take, slide_length]
    omega
  · intro t ht _
    have htm : t < m := by
      rw [length_take] at ht
      omega
    rw [getElem_take, slide_getElem, slide_getElem, drop_take, take_take,
      min_eq_left (by omega)]

theorem slide_eq_nil {xs : List α} (h : xs.length ≤ n) : slide n f xs = [] := by
  simp [slide, Nat.sub_eq_zero_of_le h]

/-- The outputs behind a list need its last entries only. -/
theorem slide_append {xs : List α} (h : n ≤ xs.length) (ys : List α) :
    slide n f (xs ++ ys) = slide n f xs ++ slide n f (xs.rtake n ++ ys) := by
  have hfront : (slide n f (xs ++ ys)).take (xs.length - n) = slide n f xs := by
    rw [slide_take, Nat.sub_add_cancel h, take_left]
  have hback : (slide n f (xs ++ ys)).drop (xs.length - n) = slide n f (xs.rtake n ++ ys) := by
    rw [slide_drop, drop_append_of_le_length (by omega), rtake]
  rw [← hfront, ← hback, take_append_drop]

theorem rtake_append_rtake (size : ℕ) (front tokens : List α) :
    (front.rtake size ++ tokens).rtake size = (front ++ tokens).rtake size := by
  simp only [rtake_eq_reverse_take_reverse, reverse_append, reverse_reverse, take_append,
    take_take, length_reverse]
  congr 3
  omega

end SlidingWindow
