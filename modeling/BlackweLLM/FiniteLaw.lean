import Mathlib.Algebra.BigOperators.Fin
import Mathlib.Tactic.Ring
import Mathlib.Tactic.Linarith

/-!
# Laws of finitely many outcomes

A law lists outcomes with rational weights; an outcome may stand in it more than once.
What is said of a law is said of the expectations under it.
-/

namespace FiniteLaw

open List

open scoped BigOperators

abbrev Law (α : Type) := List (α × ℚ)

variable {α β γ : Type}

def point (a : α) : Law α := [(a, 1)]

/-- Continue every outcome by a law of its own. -/
def bind (μ : Law α) (k : α → Law β) : Law β := μ.flatMap fun a => (k a.1).map fun b => (b.1, a.2 * b.2)

def expect (μ : Law α) (f : α → ℚ) : ℚ := (μ.map fun a => a.2 * f a.1).sum

def prob (μ : Law α) (P : α → Prop) [DecidablePred P] : ℚ := expect μ fun a => if P a then 1 else 0

/-- A uniform number from `[0, 1)` is below `p`. -/
def coin (p : ℚ) : Law Bool := [(true, p), (false, 1 - p)]

/-- A draw with the weights of a row, over their sum. -/
def multinomial {n : ℕ} (row : Fin n → ℚ) : Law (Fin n) :=
  (List.finRange n).map fun t => (t, row t / ∑ u, row u)

@[simp] theorem expect_point (a : α) (f : α → ℚ) : expect (point a) f = f a := by
  simp [expect, point]

@[simp] theorem expect_nil (f : α → ℚ) : expect ([] : Law α) f = 0 := rfl

@[simp] theorem expect_cons (a : α × ℚ) (μ : Law α) (f : α → ℚ) : expect (a :: μ) f = a.2 * f a.1 + expect μ f := by
  simp [expect]

theorem expect_append (μ ν : Law α) (f : α → ℚ) : expect (μ ++ ν) f = expect μ f + expect ν f := by
  simp [expect]

@[simp] theorem expect_coin (p : ℚ) (f : Bool → ℚ) : expect (coin p) f = p * f true + (1 - p) * f false := by
  simp [expect, coin]

theorem expect_scale (μ : Law α) (w : ℚ) (f : α → ℚ) :
    expect (μ.map fun a => (a.1, w * a.2)) f = w * expect μ f := by
  induction μ with
  | nil => simp
  | cons a μ ih =>
    rw [map_cons, expect_cons, expect_cons, ih]
    ring

/-- The expectation of a continued law is the expectation of the continuations' own. -/
@[simp] theorem expect_bind (μ : Law α) (k : α → Law β) (f : β → ℚ) :
    expect (bind μ k) f = expect μ fun a => expect (k a) f := by
  induction μ with
  | nil => rfl
  | cons a μ ih =>
    have hcons : bind (a :: μ) k = ((k a.1).map fun b => (b.1, a.2 * b.2)) ++ bind μ k := by
      simp [bind]
    rw [hcons, expect_append, expect_scale, ih, expect_cons]

theorem expect_mul_left (μ : Law α) (c : ℚ) (f : α → ℚ) : expect μ (fun a => c * f a) = c * expect μ f := by
  induction μ with
  | nil => simp
  | cons a μ ih =>
    rw [expect_cons, expect_cons, ih]
    ring

theorem expect_add (μ : Law α) (f g : α → ℚ) : expect μ (fun a => f a + g a) = expect μ f + expect μ g := by
  induction μ with
  | nil => simp
  | cons a μ ih =>
    rw [expect_cons, expect_cons, expect_cons, ih]
    ring

theorem expect_multinomial {n : ℕ} (row : Fin n → ℚ) (f : Fin n → ℚ) :
    expect (multinomial row) f = ∑ t, row t / (∑ u, row u) * f t := by
  simp only [expect, multinomial, map_map, Function.comp_def]
  rw [← ofFn_eq_map, sum_ofFn]

end FiniteLaw
