import Mathlib.Data.List.Basic

/-!
# Lanes packed by a scatter

Valid lanes are packed at the front of a row by a scatter to their ranks; the invalid ones
share one cell at the row's end. Which of several writes to a cell stays is left open.
-/

namespace PackedLanes

open List

/-- A scatter: a written cell holds one of the values written to it. -/
structure Scatter where
  run : {α : Type} → (ℕ → α) → List (ℕ × α) → ℕ → α
  unwritten : ∀ {α : Type} (base : ℕ → α) (writes : List (ℕ × α)) (cell : ℕ), cell ∉ writes.map Prod.fst →
    run base writes cell = base cell
  written : ∀ {α : Type} (base : ℕ → α) (writes : List (ℕ × α)) (cell : ℕ), cell ∈ writes.map Prod.fst →
    (cell, run base writes cell) ∈ writes

namespace Scatter

variable {α : Type} (σ : Scatter) {base : ℕ → α} {writes : List (ℕ × α)} {cell : ℕ}

/-- All writes to a cell agree. -/
theorem run_of_mem {value : α} (hcell : cell ∈ writes.map Prod.fst)
    (hall : ∀ w ∈ writes, w.1 = cell → w.2 = value) : σ.run base writes cell = value :=
  hall _ (σ.written base writes cell hcell) rfl

/-- All writes to a cell, if any, write what is there. -/
theorem run_of_keep (hall : ∀ w ∈ writes, w.1 = cell → w.2 = base cell) : σ.run base writes cell = base cell := by
  by_cases hcell : cell ∈ writes.map Prod.fst
  · exact σ.run_of_mem hcell hall
  · exact σ.unwritten base writes cell hcell

/-- The scatter that writes in the order of the list. -/
def lastWins : Scatter where
  run base writes cell := ((writes.reverse.find? fun w => w.1 = cell).map Prod.snd).getD (base cell)
  unwritten base writes cell h := by
    have hnone : writes.reverse.find? (fun w => w.1 = cell) = none := by
      rw [find?_eq_none]
      intro w hw heq
      exact h (mem_map.mpr ⟨w, mem_reverse.mp hw, by simpa using heq⟩)
    rw [hnone]
    rfl
  written base writes cell h := by
    obtain ⟨w, hw, hcell⟩ := mem_map.mp h
    cases hfind : writes.reverse.find? (fun w => w.1 = cell) with
    | none =>
      have hne := find?_eq_none.mp hfind w (mem_reverse.mpr hw)
      exact absurd hcell (by simpa using hne)
    | some found =>
      have heq : found.1 = cell := by simpa using find?_some hfind
      have hmem := mem_reverse.mp (mem_of_find?_eq_some hfind)
      rw [← heq]
      exact hmem

end Scatter

section Ranks

variable {α : Type}

def compact (lanes : List (α × Bool)) : List α := (lanes.filter Prod.snd).map Prod.fst

@[simp] theorem compact_nil : compact ([] : List (α × Bool)) = [] := rfl

@[simp] theorem compact_cons_true (x : α) (lanes : List (α × Bool)) :
    compact ((x, true) :: lanes) = x :: compact lanes := rfl

@[simp] theorem compact_cons_false (x : α) (lanes : List (α × Bool)) :
    compact ((x, false) :: lanes) = compact lanes := rfl

theorem compact_append (xs ys : List (α × Bool)) : compact (xs ++ ys) = compact xs ++ compact ys := by
  rw [compact, filter_append, map_append]
  rfl

theorem length_compact (lanes : List (α × Bool)) : (compact lanes).length = lanes.countP Prod.snd := by
  rw [compact, length_map, countP_eq_length_filter]

/-- The rank of a lane: the valid lanes before it. -/
def rank (lanes : List (α × Bool)) (i : ℕ) : ℕ := (lanes.take i).countP Prod.snd

variable {lanes : List (α × Bool)}

theorem compact_rank {i : ℕ} {x : α} (h : lanes[i]? = some (x, true)) :
    (compact lanes)[rank lanes i]? = some x := by
  induction lanes generalizing i with
  | nil => simp at h
  | cons lane lanes ih =>
    cases i with
    | zero =>
      rw [getElem?_cons_zero] at h
      obtain rfl := Option.some.inj h
      rfl
    | succ i =>
      rw [getElem?_cons_succ] at h
      obtain ⟨y, valid⟩ := lane
      cases valid with
      | false => simpa [rank] using ih h
      | true => simpa [rank] using ih h

theorem exists_rank {c : ℕ} (h : c < (compact lanes).length) :
    ∃ i x, lanes[i]? = some (x, true) ∧ rank lanes i = c := by
  induction lanes generalizing c with
  | nil => simp at h
  | cons lane lanes ih =>
    obtain ⟨y, valid⟩ := lane
    cases valid with
    | false =>
      obtain ⟨i, x, hget, hrank⟩ := ih h
      exact ⟨i + 1, x, by simpa using hget, by simpa [rank] using hrank⟩
    | true =>
      cases c with
      | zero => exact ⟨0, y, rfl, rfl⟩
      | succ c =>
        obtain ⟨i, x, hget, hrank⟩ := ih (by simpa using h)
        exact ⟨i + 1, x, by simpa using hget, by simpa [rank] using hrank⟩

/-- With an invalid lane there are fewer ranks than lanes. -/
theorem length_compact_lt {i : ℕ} {x : α} (h : lanes[i]? = some (x, false)) :
    (compact lanes).length < lanes.length := by
  rw [length_compact]
  refine Nat.lt_of_le_of_ne countP_le_length fun heq => ?_
  have hall := countP_eq_length.mp heq (x, false) (mem_of_getElem? h)
  cases hall

end Ranks

section Pack

variable {α β : Type} (σ : Scatter)

/-- The writes of a row of lanes; the invalid lanes write `fill` to the last cell. -/
def packWrites (width : ℕ) (f : α → β) (fill : β) (lanes : List (α × Bool)) : List (ℕ × β) :=
  lanes.mapIdx fun i lane => (if lane.2 then rank lanes i else width - 1, if lane.2 then f lane.1 else fill)

theorem mem_packWrites {width : ℕ} {f : α → β} {fill : β} {lanes : List (α × Bool)} {w : ℕ × β} :
    w ∈ packWrites width f fill lanes ↔ ∃ i lane, lanes[i]? = some lane ∧
      w = (if lane.2 then rank lanes i else width - 1, if lane.2 then f lane.1 else fill) := by
  rw [packWrites, mem_mapIdx]
  constructor
  · rintro ⟨i, hi, rfl⟩
    exact ⟨i, _, getElem?_eq_getElem hi, rfl⟩
  · rintro ⟨i, lane, hget, rfl⟩
    obtain ⟨hi, rfl⟩ := List.getElem?_eq_some_iff.mp hget
    exact ⟨i, hi, rfl⟩

/-- The valid lanes end up packed at the front, and no invalid lane overwrites one of them. -/
theorem run_packWrites {width : ℕ} (f : α → β) (fill : β) {lanes : List (α × Bool)} (hwidth : lanes.length ≤ width)
    (cell : ℕ) : σ.run (fun _ => fill) (packWrites width f fill lanes) cell =
      ((compact lanes)[cell]?.map f).getD fill := by
  by_cases hcell : cell < (compact lanes).length
  · obtain ⟨i, x, hget, hrank⟩ := exists_rank hcell
    have hx : (compact lanes)[cell]? = some x := by rw [← hrank, compact_rank hget]
    rw [hx]
    refine σ.run_of_mem (mem_map.mpr ⟨(rank lanes i, f x), mem_packWrites.mpr ⟨i, _, hget, rfl⟩, hrank⟩) ?_
    intro w hw heq
    obtain ⟨j, ⟨y, valid⟩, hj, rfl⟩ := mem_packWrites.mp hw
    cases valid with
    | true =>
      have hy := compact_rank hj
      rw [show rank lanes j = cell from heq, hx] at hy
      obtain rfl := Option.some.inj hy
      rfl
    | false =>
      have hlt := length_compact_lt hj
      have hlast : width - 1 = cell := heq
      omega
  · rw [getElem?_eq_none (Nat.le_of_not_lt hcell)]
    refine σ.run_of_keep fun w hw heq => ?_
    obtain ⟨j, ⟨y, valid⟩, hj, rfl⟩ := mem_packWrites.mp hw
    cases valid with
    | true =>
      have hy := compact_rank hj
      rw [show rank lanes j = cell from heq, getElem?_eq_none (Nat.le_of_not_lt hcell)] at hy
      cases hy
    | false => rfl

/-- Lanes appended behind packed ones: the valid ones come first, the others write `fill` somewhere behind them. -/
theorem run_append {packed : List β} {fill : β} {w t : ℕ} {dest : ℕ → ℕ} {g : ℕ → β} (ht : t ≤ w)
    (hvalid : ∀ o < t, dest o = packed.length + o) (hinvalid : ∀ o, t ≤ o → o < w → packed.length + t ≤ dest o)
    (cell : ℕ) :
    σ.run (fun c => packed[c]?.getD fill) ((range w).map fun o => (dest o, if o < t then g o else fill)) cell =
      (packed ++ (range t).map g)[cell]?.getD fill := by
  by_cases hfront : cell < packed.length
  · rw [getElem?_append_left hfront]
    refine σ.run_of_keep fun v hv heq => ?_
    obtain ⟨o, ho, rfl⟩ := mem_map.mp hv
    have hdest : dest o = cell := heq
    by_cases hlt : o < t
    · have := hvalid o hlt
      omega
    · have := hinvalid o (by omega) (mem_range.mp ho)
      omega
  by_cases htail : cell < packed.length + t
  · obtain ⟨o, rfl⟩ : ∃ o, cell = packed.length + o := ⟨cell - packed.length, by omega⟩
    have ho : o < t := by omega
    rw [getElem?_append_right (by omega), Nat.add_sub_cancel_left, getElem?_map, getElem?_range ho]
    refine σ.run_of_mem (mem_map.mpr ⟨_, mem_map.mpr ⟨o, mem_range.mpr (by omega), rfl⟩, hvalid o ho⟩) ?_
    intro v hv heq
    obtain ⟨o', ho', rfl⟩ := mem_map.mp hv
    have hdest : dest o' = packed.length + o := heq
    by_cases hlt : o' < t
    · have hsame : o' = o := by
        have := hvalid o' hlt
        omega
      rw [hsame, if_pos ho]
      rfl
    · have := hinvalid o' (by omega) (mem_range.mp ho')
      omega
  · have hnone : (packed ++ (range t).map g)[cell]? = none := by
      rw [List.getElem?_eq_none_iff, length_append, length_map, length_range]
      omega
    have hbase : packed[cell]? = none := getElem?_eq_none (by omega)
    rw [hnone]
    refine (σ.run_of_keep fun v hv heq => ?_).trans (by rw [hbase])
    obtain ⟨o, ho, rfl⟩ := mem_map.mp hv
    have hdest : dest o = cell := heq
    by_cases hlt : o < t
    · have := hvalid o hlt
      omega
    · rw [hbase, if_neg hlt]
      rfl

end Pack

section Groups

variable {α β : Type}

/-- An entry of equal groups laid out one after the other. -/
theorem getElem?_groups {r : ℕ} (hr : 0 < r) (f : α → ℕ → β) (xs : List α) (i : ℕ) :
    (xs.flatMap fun x => (range r).map (f x))[i]? = xs[i / r]?.map fun x => f x (i % r) := by
  induction xs generalizing i with
  | nil => simp
  | cons x xs ih =>
    rw [flatMap_cons]
    by_cases hi : i < r
    · rw [getElem?_append_left (by simpa using hi), Nat.div_eq_of_lt hi, Nat.mod_eq_of_lt hi,
        getElem?_map, getElem?_range hi]
      rfl
    · obtain ⟨j, rfl⟩ : ∃ j, i = r + j := ⟨i - r, by omega⟩
      rw [getElem?_append_right (by simp), length_map, length_range, Nat.add_sub_cancel_left, ih,
        Nat.add_div_left j hr, Nat.add_mod_left]
      rfl

theorem length_groups (r : ℕ) (f : α → ℕ → β) (xs : List α) :
    (xs.flatMap fun x => (range r).map (f x)).length = xs.length * r := by
  induction xs with
  | nil => simp
  | cons x xs ih =>
    rw [flatMap_cons, length_append, ih, length_map, length_range, length_cons, Nat.succ_mul,
      Nat.add_comm]

end Groups

end PackedLanes
