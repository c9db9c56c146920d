import Mathlib.Data.List.Basic

/-!
# Runs of a partial step function

A run takes its actions one after the other and ends where a step has no
result. An invariant of the steps that meet a condition is an invariant of the
runs whose steps all meet it.
-/

namespace StepRun

variable {σ α : Type} (step : σ → α → Option σ)

def run (s : σ) : List α → Option σ
  | [] => some s
  | a :: as => (step s a).bind fun s' => run s' as

/-- Every step of the run meets `P` in the state where it is taken. -/
def Along (P : σ → α → Prop) (s : σ) : List α → Prop
  | [] => True
  | a :: as => P s a ∧ ∀ s', step s a = some s' → Along P s' as

theorem eq_of_guard {c : Prop} [Decidable c] {t t' : σ} (h : (if c then some t else none) = some t') : c ∧ t' = t := by
  obtain ⟨hc, heq⟩ := Option.ite_none_right_eq_some.mp h
  exact ⟨hc, (Option.some.inj heq).symm⟩

variable {step} {P : σ → α → Prop} {I : σ → Prop} {s s' : σ} {as : List α}

instance decidableAlong [∀ s a, Decidable (P s a)] (s : σ) : (as : List α) → Decidable (Along step P s as)
  | [] => isTrue trivial
  | a :: as =>
    have : Decidable (∀ s', step s a = some s' → Along step P s' as) :=
      match step s a with
      | none => isTrue (by simp)
      | some s' => @decidable_of_iff _ (Along step P s' as) (by simp) (decidableAlong s' as)
    inferInstanceAs (Decidable (_ ∧ _))

theorem run_cons {a : α} : run step s (a :: as) = some s' ↔ ∃ s₁, step s a = some s₁ ∧ run step s₁ as = some s' := by
  simp [run, Option.bind_eq_some_iff]

section

variable (hstep : ∀ s a s', I s → P s a → step s a = some s' → I s')
include hstep

/-- The invariant rule. -/
theorem invariant_of_steps (hs : I s)
    (halong : Along step P s as) (hrun : run step s as = some s') : I s' := by
  induction as generalizing s with
  | nil =>
    cases hrun
    exact hs
  | cons a as ih =>
    obtain ⟨s₁, hfirst, hrest⟩ := run_cons.mp hrun
    exact ih (hstep s a s₁ hs halong.1 hfirst) (halong.2 s₁ hfirst) hrest

/-- What the invariant and the condition say of a step holds along the run. -/
theorem along_of_steps {Q : σ → α → Prop}
    (hQ : ∀ s a, I s → P s a → Q s a) (hs : I s) (halong : Along step P s as) : Along step Q s as := by
  induction as generalizing s with
  | nil => exact trivial
  | cons a as ih =>
    obtain ⟨hfirst, hrest⟩ := halong
    exact ⟨hQ s a hs hfirst, fun s' hs' => ih (hstep s a s' hs hfirst hs') (hrest s' hs')⟩

end

theorem along_mono {Q : σ → α → Prop} (h : ∀ s a, P s a → Q s a) (halong : Along step P s as) : Along step Q s as := by
  induction as generalizing s with
  | nil => exact trivial
  | cons a as ih => exact ⟨h s a halong.1, fun s' hs' => ih (halong.2 s' hs')⟩

theorem along_trivial : (as : List α) → (s : σ) → Along step (fun _ _ => True) s as
  | [], _ => trivial
  | _ :: as, _ => ⟨trivial, fun s' _ => along_trivial as s'⟩

/-- The same for steps under no condition. -/
theorem invariant (hstep : ∀ s a s', I s → step s a = some s' → I s') (hs : I s) (hrun : run step s as = some s') :
    I s' :=
  invariant_of_steps (fun s a s' h _ => hstep s a s' h) hs (along_trivial as s) hrun

end StepRun
