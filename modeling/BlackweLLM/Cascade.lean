import Mathlib.Data.List.Basic

/-!
# Cascades of machines

A machine reads its inputs one after the other and gives one output for each.
In a cascade the outputs of one machine are the inputs of the next. Sending one
input at a time through the whole cascade gives what each machine gives on the
whole list of its inputs.
-/

namespace Cascade

open List

variable {σ τ α β γ ℓ : Type}

def run (step : σ → α → σ × β) (s : σ) : List α → σ × List β
  | [] => (s, [])
  | a :: as =>
    let rest := run step (step s a).1 as
    (rest.1, (step s a).2 :: rest.2)

/-- The states after each of the inputs. -/
def scan (step : σ → α → σ × β) (s : σ) : List α → List σ
  | [] => []
  | a :: as => (step s a).1 :: scan step (step s a).1 as

variable {step : σ → α → σ × β}

@[simp] theorem run_nil (s : σ) : run step s [] = (s, []) := rfl

@[simp] theorem run_cons (s : σ) (a : α) (as : List α) :
    run step s (a :: as) = ((run step (step s a).1 as).1, (step s a).2 :: (run step (step s a).1 as).2) := rfl

@[simp] theorem run_length (s : σ) (as : List α) : (run step s as).2.length = as.length := by
  induction as generalizing s with
  | nil => rfl
  | cons a as ih => simp [ih]

@[simp] theorem scan_length (s : σ) (as : List α) : (scan step s as).length = as.length := by
  induction as generalizing s with
  | nil => rfl
  | cons a as ih => simp [scan, ih]

theorem run_append (s : σ) (as bs : List α) :
    run step s (as ++ bs) =
      ((run step (run step s as).1 bs).1, (run step s as).2 ++ (run step (run step s as).1 bs).2) := by
  induction as generalizing s with
  | nil => rfl
  | cons a as ih => simp [ih]

theorem run_concat (s : σ) (as : List α) (a : α) :
    run step s (as ++ [a]) = ((step (run step s as).1 a).1, (run step s as).2 ++ [(step (run step s as).1 a).2]) :=
  run_append s as [a]

/-- An output is decided by the inputs up to its own. -/
theorem run_getElem (s : σ) (as : List α) (i : ℕ) (h : i < as.length) (hout : i < (run step s as).2.length) :
    (run step s as).2[i] = (step (run step s (as.take i)).1 as[i]).2 := by
  induction as generalizing s i with
  | nil => cases h
  | cons a as ih =>
    cases i with
    | zero => rfl
    | succ i => simpa using ih (step s a).1 i (Nat.lt_of_succ_lt_succ h) (by simpa using h)

theorem scan_getElem (s : σ) (as : List α) (i : ℕ) (h : i < as.length) (hscan : i < (scan step s as).length) :
    (scan step s as)[i] = (run step s (as.take (i + 1))).1 := by
  induction as generalizing s i with
  | nil => cases h
  | cons a as ih =>
    cases i with
    | zero => rfl
    | succ i => simpa [scan] using ih (step s a).1 i (Nat.lt_of_succ_lt_succ h) (by simpa using h)

theorem run_take_snd (s : σ) (as : List α) (n : ℕ) : (run step s (as.take n)).2 = (run step s as).2.take n := by
  induction as generalizing s n with
  | nil => simp
  | cons a as ih =>
    cases n with
    | zero => rfl
    | succ n => simp [ih]

/-- The second machine reads what the first one gives. -/
def comp (f : σ → α → σ × β) (g : τ → β → τ × γ) (s : σ × τ) (a : α) : (σ × τ) × γ :=
  let first := f s.1 a
  let second := g s.2 first.2
  ((first.1, second.1), second.2)

theorem run_comp (f : σ → α → σ × β) (g : τ → β → τ × γ) (s : σ) (t : τ) (as : List α) :
    run (comp f g) (s, t) as =
      (((run f s as).1, (run g t (run f s as).2).1), (run g t (run f s as).2).2) := by
  induction as generalizing s t with
  | nil => rfl
  | cons a as ih => simp [comp, ih]

def through (step : ℓ → σ → α → σ × α) : List ℓ → List σ → α → List σ × α
  | l :: ls, s :: ss, a =>
    let rest := through step ls ss (step l s a).2
    ((step l s a).1 :: rest.1, rest.2)
  | _, ss, a => (ss, a)

def layerwise (step : ℓ → σ → α → σ × α) : List ℓ → List σ → List α → List σ × List α
  | l :: ls, s :: ss, as =>
    let rest := layerwise step ls ss (run (step l) s as).2
    ((run (step l) s as).1 :: rest.1, rest.2)
  | _, ss, as => (ss, as)

theorem run_idle {step : σ → α → σ × α} {s : σ} (h : ∀ a, step s a = (s, a)) (as : List α) :
    run step s as = (s, as) := by
  induction as with
  | nil => rfl
  | cons a as ih => simp [h, ih]

/-- The order of the machines and the inputs does not matter. -/
theorem run_through (step : ℓ → σ → α → σ × α) (ls : List ℓ) (ss : List σ) (as : List α) :
    run (through step ls) ss as = layerwise step ls ss as := by
  induction ls generalizing ss as with
  | nil => exact run_idle (fun _ => rfl) as
  | cons l ls ih =>
    cases ss with
    | nil =>
      have hidle : ∀ a, through step (l :: ls) [] a = ([], a) := fun _ => rfl
      exact run_idle hidle as
    | cons s ss =>
      have hhead : ∀ (s : σ) (ss : List σ) (as : List α), run (through step (l :: ls)) (s :: ss) as =
          ((run (comp (step l) (through step ls)) (s, ss) as).1.1 ::
            (run (comp (step l) (through step ls)) (s, ss) as).1.2,
            (run (comp (step l) (through step ls)) (s, ss) as).2) := by
        intro s ss as
        induction as generalizing s ss with
        | nil => rfl
        | cons a as iha => simp [through, comp, iha]
      rw [hhead, run_comp]
      simp only [layerwise, ih]

section Layered

variable {υ : Type} {R R' : ℓ → σ → τ → Prop} {ls : List ℓ} {ss : List σ} {ts : List τ}

/-- A relation between two cascades, machine by machine. -/
def Layered (R : ℓ → σ → τ → Prop) : List ℓ → List σ → List τ → Prop
  | [], [], [] => True
  | l :: ls, s :: ss, t :: ts => R l s t ∧ Layered R ls ss ts
  | _, _, _ => False

theorem Layered.mono (h : Layered R ls ss ts) (hR : ∀ l s t, R l s t → R' l s t) : Layered R' ls ss ts := by
  induction ls, ss, ts using Layered.induct with
  | case1 => exact trivial
  | case2 l ls s ss t ts ih => exact ⟨hR l s t h.1, ih h.2⟩
  | case3 ls ss ts h₁ h₂ => simp [Layered] at h

theorem Layered.comp {S : ℓ → τ → υ → Prop} {T : ℓ → σ → υ → Prop} {us : List υ} (h : Layered R ls ss ts)
    (h' : Layered S ls ts us) (hT : ∀ l s t u, R l s t → S l t u → T l s u) : Layered T ls ss us := by
  induction ls, ss, ts using Layered.induct generalizing us with
  | case1 =>
    cases us with
    | nil => exact trivial
    | cons u us => cases h'
  | case2 l ls s ss t ts ih =>
    cases us with
    | nil => cases h'
    | cons u us => exact ⟨hT l s t u h.1 h'.1, ih h.2 h'.2⟩
  | case3 ls ss ts h₁ h₂ => simp [Layered] at h

theorem Layered.length (h : Layered R ls ss ts) : ss.length = ls.length ∧ ts.length = ls.length := by
  induction ls, ss, ts using Layered.induct with
  | case1 => exact ⟨rfl, rfl⟩
  | case2 l ls s ss t ts ih => simp [ih h.2]
  | case3 ls ss ts h₁ h₂ => simp [Layered] at h

theorem Layered.refl {R : ℓ → σ → σ → Prop} (hR : ∀ l s, R l s s) (h : ss.length = ls.length) : Layered R ls ss ss := by
  induction ls generalizing ss with
  | nil =>
    cases length_eq_zero_iff.mp h
    exact trivial
  | cons l ls ih =>
    cases ss with
    | nil => cases h
    | cons s ss => exact ⟨hR l s, ih (Nat.succ.inj h)⟩

theorem Layered.map {f : σ → σ} {R : ℓ → σ → σ → Prop} (hR : ∀ l s, R l (f s) s) (h : ss.length = ls.length) :
    Layered R ls (ss.map f) ss := by
  induction ls generalizing ss with
  | nil =>
    cases length_eq_zero_iff.mp h
    exact trivial
  | cons l ls ih =>
    cases ss with
    | nil => cases h
    | cons s ss => exact ⟨hR l s, ih (Nat.succ.inj h)⟩

/-- What related machines have in common. -/
theorem Layered.map_eq {f : σ → υ} {g : τ → υ} (h : Layered R ls ss ts) (hR : ∀ l s t, R l s t → f s = g t) :
    ss.map f = ts.map g := by
  induction ls, ss, ts using Layered.induct with
  | case1 => rfl
  | case2 l ls s ss t ts ih => rw [map_cons, map_cons, hR l s t h.1, ih h.2]
  | case3 ls ss ts h₁ h₂ => simp [Layered] at h

variable {step : ℓ → σ → α → σ × α}

/-- Cascades that agree give the same output, and agree again. -/
theorem through_congr {R R' : ℓ → σ → σ → Prop} {P : α → Prop} {ts : List σ} {a : α}
    (hstep : ∀ l s t a, R l s t → P a →
      (step l s a).2 = (step l t a).2 ∧ P (step l s a).2 ∧ R' l (step l s a).1 (step l t a).1)
    (h : Layered R ls ss ts) (ha : P a) :
    (through step ls ss a).2 = (through step ls ts a).2 ∧
      Layered R' ls (through step ls ss a).1 (through step ls ts a).1 := by
  induction ls, ss, ts using Layered.induct generalizing a with
  | case1 => exact ⟨rfl, trivial⟩
  | case2 l ls s ss t ts ih =>
    obtain ⟨hout, hnext, hrel⟩ := hstep l s t a h.1 ha
    obtain ⟨hrest, hrels⟩ := ih h.2 hnext
    rw [hout] at hrest hrels
    simp only [through, hout]
    exact ⟨hrest, hrel, hrels⟩
  | case3 ls ss ts h₁ h₂ => simp [Layered] at h

/-- What a step leaves alone in each machine. -/
theorem through_frame {F : ℓ → σ → σ → Prop} {P : α → Prop} {a : α}
    (hstep : ∀ l s a, P a → P (step l s a).2 ∧ F l (step l s a).1 s) (h : ss.length = ls.length) (ha : P a) :
    Layered F ls (through step ls ss a).1 ss := by
  induction ls generalizing ss a with
  | nil =>
    cases length_eq_zero_iff.mp h
    exact trivial
  | cons l ls ih =>
    cases ss with
    | nil => cases h
    | cons s ss => exact ⟨(hstep l s a ha).2, ih (Nat.succ.inj h) (hstep l s a ha).1⟩

end Layered

end Cascade
