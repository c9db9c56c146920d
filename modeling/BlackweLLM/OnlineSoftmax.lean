import Mathlib.Algebra.BigOperators.GroupWithZero.Action
import Mathlib.Algebra.Module.Basic
import Mathlib.Algebra.Order.Field.Basic
import Mathlib.Tactic.FieldSimp
import Mathlib.Tactic.Ring

/-!
# Softmax sums that are kept relative to a running maximum

The weight of a row is a positive function of its score that turns sums into
products. A tally holds the largest score seen, and the sums of the weights and
of the weighted values divided by the weight of that score.
-/

namespace OnlineSoftmax

open List

section Weights

variable {K : Type} [Field K] [LinearOrder K] {w : K → K}

/-- Positive, and sums become products. -/
structure Exponential (w : K → K) : Prop where
  pos : ∀ x, 0 < w x
  add : ∀ x y, w (x + y) = w x * w y

namespace Exponential

theorem ne_zero (hw : Exponential w) (x : K) : w x ≠ 0 := (hw.pos x).ne'

theorem sub_mul (hw : Exponential w) (x y : K) : w (x - y) * w y = w x := by rw [← hw.add, sub_add_cancel]

/-- Another base. -/
theorem comp_mul (hw : Exponential w) (c : K) : Exponential fun x => w (x * c) where
  pos x := hw.pos _
  add x y := by rw [add_mul, hw.add]

end Exponential

/-- The weight of score `s` relative to score `m`; nothing has a weight relative to `-∞`. -/
def relative (w : K → K) : WithBot K → WithBot K → K
  | (s : K), (m : K) => w (s - m)
  | _, _ => 0

section

omit [LinearOrder K]

@[simp] theorem relative_bot_left (m : WithBot K) : relative w ⊥ m = 0 := by cases m <;> rfl

@[simp] theorem relative_bot_right (s : WithBot K) : relative w s ⊥ = 0 := by cases s <;> rfl

@[simp] theorem relative_coe (s m : K) : relative w s m = w (s - m) := rfl

end

/-- What sums relative to a score are to be multiplied by. -/
def unit (w : K → K) : WithBot K → K
  | (m : K) => w m
  | ⊥ => 1

theorem unit_pos [IsStrictOrderedRing K] (hw : Exponential w) (m : WithBot K) : 0 < unit w m := by
  cases m with
  | bot => exact zero_lt_one
  | coe m => exact hw.pos m

/-- Moving from one score to a larger one. -/
theorem relative_mul_unit (hw : Exponential w) {s m : WithBot K} (hs : s ≠ ⊥) (h : s ≤ m) :
    relative w s m * unit w m = unit w s := by
  cases s with
  | bot => exact absurd rfl hs
  | coe s =>
    cases m with
    | bot => exact absurd (WithBot.le_bot_iff.mp h) WithBot.coe_ne_bot
    | coe m => exact hw.sub_mul s m

end Weights

section Rows

variable {K V : Type} [Field K] {w : K → K} {rows rows' : List (K × V)} {r : K × V}

def mass (w : K → K) (rows : List (K × V)) : K := (rows.map fun r => w r.1).sum

@[simp] theorem mass_nil : mass w ([] : List (K × V)) = 0 := rfl

@[simp] theorem mass_cons : mass w (r :: rows) = w r.1 + mass w rows := by simp [mass]

@[simp] theorem mass_append : mass w (rows ++ rows') = mass w rows + mass w rows' := by simp [mass]

variable [AddCommGroup V] [Module K V]

def moment (w : K → K) (rows : List (K × V)) : V := (rows.map fun r => w r.1 • r.2).sum

/-- Softmax attention over scores and values. -/
def attention (w : K → K) (rows : List (K × V)) : V := (mass w rows)⁻¹ • moment w rows

@[simp] theorem moment_nil : moment w ([] : List (K × V)) = 0 := rfl

@[simp] theorem moment_cons : moment w (r :: rows) = w r.1 • r.2 + moment w rows := by simp [moment]

@[simp] theorem moment_append : moment w (rows ++ rows') = moment w rows + moment w rows' := by simp [moment]

theorem attention_perm (h : rows.Perm rows') : attention w rows = attention w rows' := by
  rw [attention, attention, mass, mass, moment, moment, (h.map _).sum_eq, (h.map _).sum_eq]

variable [LinearOrder K]

/-- Rows of one score: the mean of the values. -/
theorem attention_of_const (hw : Exponential w) {c : K} (h : ∀ r ∈ rows, r.1 = c) :
    attention w rows = (rows.length : K)⁻¹ • (rows.map Prod.snd).sum := by
  have hmass : mass w rows = rows.length * w c := by
    rw [mass, map_congr_left (fun r hr => congrArg w (h r hr)), map_const', sum_replicate, nsmul_eq_mul]
  have hmoment : moment w rows = w c • (rows.map Prod.snd).sum := by
    rw [moment, map_congr_left (fun r hr => by rw [h r hr] : ∀ r ∈ rows, w r.1 • r.2 = w c • r.2),
      smul_sum, map_map]
    rfl
  rw [attention, hmass, hmoment, smul_smul, mul_inv_rev, mul_comm (w c)⁻¹, mul_assoc, inv_mul_cancel₀ (hw.ne_zero c),
    mul_one]

def peak (rows : List (K × V)) : WithBot K := (rows.map fun r => (r.1 : WithBot K)).foldr max ⊥

omit [Field K] [AddCommGroup V] [Module K V]

@[simp] theorem peak_nil : peak ([] : List (K × V)) = ⊥ := rfl

@[simp] theorem peak_cons : peak (r :: rows) = max (r.1 : WithBot K) (peak rows) := rfl

theorem peak_append (rows rows' : List (K × V)) : peak (rows ++ rows') = max (peak rows) (peak rows') := by
  induction rows with
  | nil => simp
  | cons r rows ih => rw [cons_append, peak_cons, ih, peak_cons, max_assoc]

theorem peak_eq_bot_iff : peak rows = ⊥ ↔ rows = [] := by
  cases rows with
  | nil => simp
  | cons r rows => simp

/-- Some row has the largest score. -/
theorem exists_peak {m : K} (h : peak rows = m) : ∃ r ∈ rows, r.1 = m := by
  induction rows with
  | nil => exact absurd h.symm (WithBot.coe_ne_bot)
  | cons r rows ih =>
    rw [peak_cons] at h
    rcases max_choice (r.1 : WithBot K) (peak rows) with hmax | hmax
    · exact ⟨r, mem_cons_self, WithBot.coe_injective (hmax.symm.trans h)⟩
    · obtain ⟨s, hs, heq⟩ := ih (hmax.symm.trans h)
      exact ⟨s, mem_cons_of_mem _ hs, heq⟩

variable [Field K] [IsStrictOrderedRing K]

theorem mass_nonneg (hw : Exponential w) (rows : List (K × V)) : 0 ≤ mass w rows := by
  induction rows with
  | nil => exact le_refl _
  | cons r rows ih => exact mass_cons (w := w) ▸ add_nonneg (hw.pos _).le ih

theorem le_mass (hw : Exponential w) (h : r ∈ rows) : w r.1 ≤ mass w rows := by
  induction rows with
  | nil => exact absurd h not_mem_nil
  | cons s rows ih =>
    rw [mass_cons]
    cases h with
    | head => exact le_add_of_nonneg_right (mass_nonneg hw rows)
    | tail _ h => exact (ih h).trans (le_add_of_nonneg_left (hw.pos _).le)

end Rows

section Lanes

variable {K V : Type} [Field K] [LinearOrder K] {w : K → K} {lanes : List (WithBot K × V)} {m : WithBot K}

/-- The lanes that are not masked; the score of a masked one is `-∞`. -/
def seen : List (WithBot K × V) → List (K × V)
  | [] => []
  | ((s : K), v) :: lanes => (s, v) :: seen lanes
  | (⊥, _) :: lanes => seen lanes

def lanePeak (lanes : List (WithBot K × V)) : WithBot K := (lanes.map Prod.fst).foldr max ⊥

def laneMass (w : K → K) (m : WithBot K) (lanes : List (WithBot K × V)) : K := (lanes.map fun l => relative w l.1 m).sum

/-- The sum of the values weighted relative to `m`. -/
def laneMoment [AddCommGroup V] [Module K V] (w : K → K) (m : WithBot K) (lanes : List (WithBot K × V)) : V :=
  (lanes.map fun l => relative w l.1 m • l.2).sum

section

omit [Field K] [LinearOrder K]

@[simp] theorem seen_nil : seen ([] : List (WithBot K × V)) = [] := rfl

@[simp] theorem seen_masked (v : V) : seen ((⊥, v) :: lanes) = seen lanes := rfl

@[simp] theorem seen_shown (s : K) (v : V) : seen (((s : WithBot K), v) :: lanes) = (s, v) :: seen lanes := rfl

theorem seen_append (lanes lanes' : List (WithBot K × V)) : seen (lanes ++ lanes') = seen lanes ++ seen lanes' := by
  induction lanes with
  | nil => rfl
  | cons l lanes ih =>
    obtain ⟨s, v⟩ := l
    cases s with
    | bot => rw [cons_append, seen_masked, seen_masked, ih]
    | coe s => rw [cons_append, seen_shown, seen_shown, ih, cons_append]

/-- The mask leaves the first `n` lanes of a block. -/
theorem seen_map_range {f : Nat → WithBot K × V} {g : Nat → K × V} {n : Nat} (b : Nat)
    (hshown : ∀ i < n, f i = (↑(g i).1, (g i).2)) (hmasked : ∀ i, n ≤ i → (f i).1 = ⊥) :
    seen ((range b).map f) = (range (min n b)).map g := by
  induction b with
  | zero => simp
  | succ b ih =>
    rw [range_succ, map_append, map_singleton, seen_append, ih]
    by_cases hb : b < n
    · rw [min_eq_right (le_of_lt hb), min_eq_right hb, range_succ, map_append, map_singleton,
        hshown b hb, seen_shown, seen_nil]
    · rw [min_eq_left (not_lt.mp hb), min_eq_left (by omega),
        show f b = (⊥, (f b).2) from Prod.ext (hmasked b (not_lt.mp hb)) rfl, seen_masked, seen_nil, append_nil]

end

omit [Field K] in
theorem lanePeak_eq (lanes : List (WithBot K × V)) : lanePeak lanes = peak (seen lanes) := by
  induction lanes with
  | nil => rfl
  | cons l lanes ih =>
    obtain ⟨s, v⟩ := l
    rw [show lanePeak ((s, v) :: lanes) = max s (lanePeak lanes) from rfl, ih]
    cases s with
    | bot => rw [seen_masked, bot_sup_eq]
    | coe s => rw [seen_shown, peak_cons]

omit [Field K] in
theorem le_lanePeak {l : WithBot K × V} (h : l ∈ lanes) : l.1 ≤ lanePeak lanes := by
  induction lanes with
  | nil => exact absurd h not_mem_nil
  | cons l' lanes ih =>
    cases h with
    | head => exact le_max_left _ _
    | tail _ h => exact (ih h).trans (le_max_right _ _)

theorem laneMass_mul (hw : Exponential w) (h : peak (seen lanes) ≤ m) :
    laneMass w m lanes * unit w m = mass w (seen lanes) := by
  induction lanes with
  | nil => simp [laneMass]
  | cons l lanes ih =>
    obtain ⟨s, v⟩ := l
    rw [show laneMass w m ((s, v) :: lanes) = relative w s m + laneMass w m lanes by simp [laneMass], add_mul]
    cases s with
    | bot => rw [relative_bot_left, zero_mul, zero_add, seen_masked, ih h]
    | coe s =>
      rw [seen_shown, peak_cons] at h
      rw [relative_mul_unit hw WithBot.coe_ne_bot (le_trans (le_max_left _ _) h), ih (le_trans (le_max_right _ _) h),
        seen_shown, mass_cons]
      rfl

theorem laneMoment_smul [AddCommGroup V] [Module K V] (hw : Exponential w) (h : peak (seen lanes) ≤ m) :
    unit w m • laneMoment w m lanes = moment w (seen lanes) := by
  induction lanes with
  | nil => simp [laneMoment]
  | cons l lanes ih =>
    obtain ⟨s, v⟩ := l
    rw [show laneMoment w m ((s, v) :: lanes) = relative w s m • v + laneMoment w m lanes by simp [laneMoment],
      smul_add, smul_smul, mul_comm]
    cases s with
    | bot => rw [relative_bot_left, zero_mul, zero_smul, zero_add, seen_masked, ih h]
    | coe s =>
      rw [seen_shown, peak_cons] at h
      rw [relative_mul_unit hw WithBot.coe_ne_bot (le_trans (le_max_left _ _) h), ih (le_trans (le_max_right _ _) h),
        seen_shown, moment_cons]
      rfl

end Lanes

/-- A block behind the rows so far. -/
theorem range_append_block (m n : Nat) : range m ++ range' m n = range (m + n) := by
  have happ : range' 0 m ++ range' (0 + m) n = range' 0 (m + n) := range'_append_1
  rwa [zero_add, ← range_eq_range', ← range_eq_range'] at happ

section Tallies

variable {K V : Type}

/-- The running maximum, and the sums relative to it. -/
structure Tally (K V : Type) where
  top : WithBot K
  sum : K
  acc : V

variable [Field K] [AddCommGroup V] [Module K V] {w : K → K} {t : Tally K V} {rows : List (K × V)} {m : WithBot K}
  {lanes : List (WithBot K × V)} {tallies : List (Tally K V)} {parts : List (List (K × V))}

def Tally.empty : Tally K V := ⟨⊥, 0, 0⟩

def Tally.moved (w : K → K) (t : Tally K V) (m : WithBot K) : Tally K V :=
  ⟨m, t.sum * relative w t.top m, relative w t.top m • t.acc⟩

variable [LinearOrder K]

def Tally.absorb (w : K → K) (t : Tally K V) (lanes : List (WithBot K × V)) : Tally K V :=
  let m := max t.top (lanePeak lanes)
  ⟨m, (t.moved w m).sum + laneMass w m lanes, (t.moved w m).acc + laneMoment w m lanes⟩

def merge (w : K → K) (tallies : List (Tally K V)) : Tally K V :=
  let m := (tallies.map Tally.top).foldr max ⊥
  ⟨m, (tallies.map fun t => (t.moved w m).sum).sum, (tallies.map fun t => (t.moved w m).acc).sum⟩

structure Tally.Of (w : K → K) (t : Tally K V) (rows : List (K × V)) : Prop where
  top : t.top = peak rows
  sum : t.sum * unit w t.top = mass w rows
  acc : unit w t.top • t.acc = moment w rows

namespace Tally.Of

theorem empty : Tally.Of w (Tally.empty : Tally K V) [] := ⟨rfl, zero_mul _, smul_zero _⟩

section

variable (hw : Exponential w) (h : t.Of w rows)
include hw h

theorem moved_sum (hm : t.top ≤ m) : (t.moved w m).sum * unit w m = mass w rows := by
  by_cases htop : t.top = ⊥
  · rw [peak_eq_bot_iff.mp (h.top.symm.trans htop), Tally.moved, htop, relative_bot_left, mul_zero, zero_mul, mass_nil]
  · rw [← h.sum, ← relative_mul_unit hw htop hm, ← mul_assoc, Tally.moved]

theorem moved_acc (hm : t.top ≤ m) : unit w m • (t.moved w m).acc = moment w rows := by
  by_cases htop : t.top = ⊥
  · rw [peak_eq_bot_iff.mp (h.top.symm.trans htop), Tally.moved, htop, relative_bot_left, zero_smul, smul_zero,
      moment_nil]
  · rw [← h.acc, ← relative_mul_unit hw htop hm, mul_comm, mul_smul, Tally.moved]

theorem absorb (lanes : List (WithBot K × V)) : (t.absorb w lanes).Of w (rows ++ seen lanes) := by
  have hold : t.top ≤ max t.top (lanePeak lanes) := le_max_left _ _
  have hnew : peak (seen lanes) ≤ max t.top (lanePeak lanes) := lanePeak_eq lanes ▸ le_max_right _ _
  constructor
  · rw [peak_append, ← h.top, ← lanePeak_eq]
    rfl
  · rw [mass_append, ← h.moved_sum hw hold, ← laneMass_mul hw hnew, ← add_mul]
    rfl
  · rw [moment_append, ← h.moved_acc hw hold, ← laneMoment_smul hw hnew, ← smul_add]
    rfl

end

section

variable [IsStrictOrderedRing K] (hw : Exponential w)
include hw

theorem read (h : t.Of w rows) : t.sum⁻¹ • t.acc = attention w rows := by
  rw [attention, ← h.sum, ← h.acc, smul_smul, mul_inv, mul_assoc, inv_mul_cancel₀ (unit_pos hw _).ne', mul_one]

theorem acc_nil (h : t.Of w ([] : List (K × V))) : t.acc = 0 := by
  rw [← one_smul K t.acc, ← inv_mul_cancel₀ (unit_pos hw t.top).ne', mul_smul, h.acc, moment_nil, smul_zero]

/-- The row of the largest score weighs 1. -/
theorem one_le_sum (h : t.Of w rows) (hrows : rows ≠ []) : 1 ≤ t.sum := by
  obtain ⟨m, hm⟩ := WithBot.ne_bot_iff_exists.mp (mt peak_eq_bot_iff.mp hrows)
  obtain ⟨r, hr, hrm⟩ := exists_peak hm.symm
  have hsum := h.sum
  rw [h.top, ← hm] at hsum
  have hle : 1 * w m ≤ t.sum * w m := by
    rw [one_mul]
    exact (hrm ▸ le_mass hw hr).trans_eq hsum.symm
  exact le_of_mul_le_mul_right hle (hw.pos m)

end

end Tally.Of

theorem merge_of (hw : Exponential w) (h : Forall₂ (Tally.Of w) tallies parts) :
    (merge w tallies).Of w parts.flatten := by
  have htop : (tallies.map Tally.top).foldr max ⊥ = peak parts.flatten := by
    induction h with
    | nil => rfl
    | cons hhead _ ih => rw [map_cons, foldr_cons, ih, flatten_cons, peak_append, hhead.top]
  have hsums : ∀ m, peak parts.flatten ≤ m →
      (tallies.map fun t => (t.moved w m).sum).sum * unit w m = mass w parts.flatten ∧
        unit w m • (tallies.map fun t => (t.moved w m).acc).sum = moment w parts.flatten := by
    intro m
    clear htop
    induction h with
    | nil => intro _; simp
    | cons hhead _ ih =>
      rw [flatten_cons, peak_append]
      intro hm
      obtain ⟨hmass, hmoment⟩ := ih (le_trans (le_max_right _ _) hm)
      have hle := hhead.top.trans_le (le_trans (le_max_left _ _) hm)
      rw [map_cons, sum_cons, map_cons, sum_cons, add_mul, smul_add, hmass, hmoment,
        hhead.moved_sum hw hle, hhead.moved_acc hw hle, mass_append, moment_append]
      exact ⟨rfl, rfl⟩
  exact ⟨htop, (hsums _ htop.ge).1, (hsums _ htop.ge).2⟩

end Tallies

end OnlineSoftmax
