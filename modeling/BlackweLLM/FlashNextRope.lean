import Mathlib.Data.List.Basic

/-!
# Flash-Next RoPE coordinates

`_normalize_rope_positions` and the two slicing helpers of `qsa.py` and `model.py`.
Coordinates are handed over as plain positions or as a matrix whose layout is told
from its shape.
-/

namespace FlashNext

/-- MRoPE coordinates. -/
abbrev Rope := ℕ × ℕ × ℕ

/-- `_normalize_rope_positions` of a plain position. -/
def axes (position : ℕ) : Rope := (position, position, position)

def ropeAdd (rope : Rope) (n : ℕ) : Rope := (rope.1 + n, rope.2.1 + n, rope.2.2 + n)

/-- The temporal, height or width coordinate. -/
def Rope.axis (rope : Rope) : ℕ → ℕ
  | 0 => rope.1
  | 1 => rope.2.1
  | _ => rope.2.2

/-- A 2-D tensor. -/
structure Matrix where
  rows : ℕ
  cols : ℕ
  entry : ℕ → ℕ → ℕ

/-- A 1-D or 2-D tensor of positions. -/
inductive Positions where
  | scalar (entries : List ℕ)
  | matrix (m : Matrix)

def Positions.shape : Positions → String
  | .scalar entries => s!"({entries.length},)"
  | .matrix m => s!"({m.rows}, {m.cols})"

def Positions.numel : Positions → ℕ
  | .scalar entries => entries.length
  | .matrix m => m.rows * m.cols

/-- `_normalize_rope_positions`: the coordinates of each token. -/
def normalizeRopePositions (positions : Positions) (tokenCount : ℕ) : Except String (ℕ → Rope) :=
  match positions with
  | .scalar entries =>
    if entries.length ≠ tokenCount then
      .error s!"RoPE positions must contain {tokenCount} entries, got {entries.length}"
    else .ok fun t => axes (entries.getD t 0)
  | .matrix m =>
    if m.rows = 3 ∧ m.cols = tokenCount then .ok fun t => (m.entry 0 t, m.entry 1 t, m.entry 2 t)
    else if m.rows = tokenCount ∧ m.cols = 3 then .ok fun t => (m.entry t 0, m.entry t 1, m.entry t 2)
    else if m.rows = 1 ∧ m.cols = tokenCount then .ok fun t => axes (m.entry 0 t)
    else .error (s!"RoPE positions must have shape [{tokenCount}], [3,{tokenCount}], or [{tokenCount},3], " ++
      s!"got {positions.shape}")

def Matrix.rowSlice (m : Matrix) (start stop : ℕ) : Matrix :=
  ⟨min stop m.rows - min start m.rows, m.cols, fun i j => m.entry (min start m.rows + i) j⟩

def Matrix.colSlice (m : Matrix) (start stop : ℕ) : Matrix :=
  ⟨m.rows, min stop m.cols - min start m.cols, fun i j => m.entry i (min start m.cols + j)⟩

def prefillRopeSlice (positions : Positions) (start stop : ℕ) : Positions :=
  match positions with
  | .scalar entries => .scalar ((entries.take stop).drop start)
  | .matrix m =>
    if m.cols = 3 ∧ m.rows ≠ 3 then .matrix (m.rowSlice start stop)
    else if m.rows = 1 ∨ m.rows = 3 then .matrix (m.colSlice start stop)
    else .matrix (m.rowSlice start stop)

/-- `[3, T]`. -/
def axisMajor (tokenCount : ℕ) (coords : ℕ → Rope) : Positions :=
  .matrix ⟨3, tokenCount, fun axis t => (coords t).axis axis⟩

/-- `[T, 3]`. -/
def rowMajor (coords : List Rope) : Positions :=
  .matrix ⟨coords.length, 3, fun t axis => (coords.getD t (axes 0)).axis axis⟩

theorem normalize_axisMajor (n : ℕ) (coords : ℕ → Rope) : normalizeRopePositions (axisMajor n coords) n = .ok coords :=
  if_pos ⟨rfl, rfl⟩

/-- What a row-major matrix of three tokens is taken for. -/
def transposed (coords : List Rope) (t : ℕ) : Rope :=
  ((coords.getD 0 (axes 0)).axis t, (coords.getD 1 (axes 0)).axis t, (coords.getD 2 (axes 0)).axis t)

theorem normalize_rowMajor (coords : List Rope) :
    normalizeRopePositions (rowMajor coords) coords.length =
      .ok (if coords.length = 3 then transposed coords else fun t => coords.getD t (axes 0)) := by
  by_cases h : coords.length = 3
  · rw [if_pos h]
    exact if_pos ⟨h, h.symm⟩
  · rw [if_neg h]
    exact (if_neg fun hshape => h hshape.1).trans (if_pos ⟨rfl, rfl⟩)

/-- Three tokens whose matrix is its own transpose. -/
def Symmetric (coords : List Rope) : Prop :=
  ∀ t < 3, ∀ axis < 3, (coords.getD t (axes 0)).axis axis = (coords.getD axis (axes 0)).axis t

instance (coords : List Rope) : Decidable (Symmetric coords) := inferInstanceAs (Decidable (∀ t < 3, ∀ axis < 3, _))

theorem Rope.ext_axis {a b : Rope} (h : ∀ axis < 3, a.axis axis = b.axis axis) : a = b :=
  Prod.ext (h 0 (by decide)) (Prod.ext (h 1 (by decide)) (h 2 (by decide)))

theorem transposed_axis (coords : List Rope) (t : ℕ) {axis : ℕ} (h : axis < 3) :
    (transposed coords t).axis axis = (coords.getD axis (axes 0)).axis t := by
  match axis with
  | 0 => rfl
  | 1 => rfl
  | 2 => rfl

theorem transposed_eq_iff (coords : List Rope) :
    (∀ t < 3, transposed coords t = coords.getD t (axes 0)) ↔ Symmetric coords := by
  constructor
  · intro h t ht axis haxis
    rw [← h t ht, transposed_axis coords t haxis]
  · intro h t ht
    refine Rope.ext_axis fun axis haxis => ?_
    rw [transposed_axis coords t haxis, h t ht axis haxis]

end FlashNext
