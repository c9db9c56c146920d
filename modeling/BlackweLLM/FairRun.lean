import Mathlib.Data.List.Basic

/-!
# Fair runs

An endless schedule names the action taken at every time. Where a rank falls with the
action that helps and no other action raises it or changes which one helps, a schedule
that comes back to every helping action reaches the goal.
-/

namespace FairRun

variable {σ α : Type} (next : σ → α → σ)

def stateAt (s : σ) (schedule : ℕ → α) : ℕ → σ
  | 0 => s
  | n + 1 => next (stateAt s schedule n) (schedule n)

/-- The schedule comes back to the action again and again. -/
def Recurs (schedule : ℕ → α) (a : α) : Prop := ∀ n, ∃ m, n ≤ m ∧ schedule m = a

variable {next} {s : σ} {schedule : ℕ → α}

theorem invariant {I : σ → Prop} (hstep : ∀ s a, I s → I (next s a)) (hs : I s) (n : ℕ) :
    I (stateAt next s schedule n) := by
  induction n with
  | zero => exact hs
  | succ n ih => exact hstep _ _ ih

/-- What every step extends, the run extends. -/
theorem extends_of_le {R : σ → σ → Prop} (hrefl : ∀ s, R s s) (htrans : ∀ s t u, R s t → R t u → R s u)
    (hstep : ∀ s a, R s (next s a)) {n m : ℕ} (hle : n ≤ m) :
    R (stateAt next s schedule n) (stateAt next s schedule m) := by
  induction hle with
  | refl => exact hrefl _
  | step _ ih => exact htrans _ _ _ ih (hstep _ _)

variable {J Goal : σ → Prop} {rank : σ → ℕ} {helpful : σ → α}

/-- What a step does on the way to the goal: it arrives, or it lowers the rank, or it is not
the action that helps and changes neither the rank nor which one helps. -/
def Approaches (next : σ → α → σ) (J Goal : σ → Prop) (rank : σ → ℕ) (helpful : σ → α) (s : σ) (a : α) : Prop :=
  Goal (next s a) ∨
    J (next s a) ∧ (rank (next s a) < rank s ∨
      a ≠ helpful s ∧ rank (next s a) = rank s ∧ helpful (next s a) = helpful s)

section

variable (hstep : ∀ s a, J s → Approaches next J Goal rank helpful s a)
include hstep

/-- Up to the helping action the run arrives, or lowers the rank. -/
theorem arrives_or_lowers (d n : ℕ)
    (hJ : J (stateAt next s schedule n)) (hhelp : schedule (n + d) = helpful (stateAt next s schedule n)) :
    ∃ m, n < m ∧ (Goal (stateAt next s schedule m) ∨
      J (stateAt next s schedule m) ∧ rank (stateAt next s schedule m) < rank (stateAt next s schedule n)) := by
  induction d generalizing n with
  | zero =>
    refine ⟨n + 1, Nat.lt_succ_self n, ?_⟩
    rcases hstep _ (schedule n) hJ with hgoal | ⟨hJ', hlower | ⟨hother, -, -⟩⟩
    · exact .inl hgoal
    · exact .inr ⟨hJ', hlower⟩
    · exact absurd hhelp hother
  | succ d ih =>
    rcases hstep _ (schedule n) hJ with hgoal | ⟨hJ', hlower | ⟨-, hrank, hsame⟩⟩
    · exact ⟨n + 1, Nat.lt_succ_self n, .inl hgoal⟩
    · exact ⟨n + 1, Nat.lt_succ_self n, .inr ⟨hJ', hlower⟩⟩
    · have hlater : schedule (n + 1 + d) = helpful (stateAt next s schedule (n + 1)) := by
        rw [show n + 1 + d = n + (d + 1) by omega, hhelp]
        exact hsame.symm
      obtain ⟨m, hm, hend⟩ := ih (n + 1) hJ' hlater
      rw [show rank (stateAt next s schedule (n + 1)) = rank (stateAt next s schedule n) from hrank] at hend
      exact ⟨m, by omega, hend⟩

/-- The rule of helpful actions. -/
theorem reaches (hfair : ∀ s, Recurs schedule (helpful s)) (n : ℕ) (hJ : J (stateAt next s schedule n)) :
    ∃ m, n < m ∧ Goal (stateAt next s schedule m) := by
  induction hr : rank (stateAt next s schedule n) using Nat.strongRecOn generalizing n with
  | _ r ih =>
    obtain ⟨m, hm, hhelp⟩ := hfair (stateAt next s schedule n) n
    obtain ⟨d, rfl⟩ := Nat.exists_eq_add_of_le hm
    obtain ⟨k, hk, hgoal | ⟨hJ', hlower⟩⟩ := arrives_or_lowers hstep d n hJ hhelp
    · exact ⟨k, hk, hgoal⟩
    · obtain ⟨j, hj, hgoal⟩ := ih _ (hr ▸ hlower) k hJ' rfl
      exact ⟨j, by omega, hgoal⟩

end

end FairRun
