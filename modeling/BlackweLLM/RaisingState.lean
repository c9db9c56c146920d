import Mathlib.Data.List.Basic

/-!
# Computations that raise and keep what they did

A call of `EStateM` returns or raises, and either way leaves a state. The
lemmas take a sequence of calls apart, and the rules say what a loop keeps,
where it runs to its end and where it is left by an error. `Ends` states both
outcomes of a call at once.
-/

namespace RaisingState

open List

variable {ε σ α β : Type}

def endState : EStateM.Result ε σ α → σ
  | .ok _ s => s
  | .error _ s => s

def raised : EStateM.Result ε σ α → Option ε
  | .ok _ _ => none
  | .error e _ => some e

variable {x : EStateM ε σ α} {f : α → EStateM ε σ β} {s s' : σ} {a : α} {b : β} {e : ε}

@[simp] theorem pure_apply (a : α) (s : σ) : (pure a : EStateM ε σ α) s = .ok a s := rfl
@[simp] theorem throw_apply (e : ε) (s : σ) : (throw e : EStateM ε σ α) s = .error e s := rfl
@[simp] theorem get_apply (s : σ) : (get : EStateM ε σ σ) s = .ok s s := rfl
@[simp] theorem set_apply (s₁ s : σ) : (set s₁ : EStateM ε σ PUnit) s = .ok ⟨⟩ s₁ := rfl
@[simp] theorem modify_apply (g : σ → σ) (s : σ) : (modify g : EStateM ε σ PUnit) s = .ok ⟨⟩ (g s) := rfl

/-- `raise e` where `c` holds. -/
def raiseIf (c : Prop) [Decidable c] (e : ε) : EStateM ε σ PUnit := if c then throw e else pure ⟨⟩

variable {c : Prop}

theorem raiseIf_of [Decidable c] (h : c) (s : σ) : (raiseIf c e : EStateM ε σ PUnit) s = .error e s := by
  simp [raiseIf, h]

theorem raiseIf_of_not [Decidable c] (h : ¬c) (s : σ) : (raiseIf c e : EStateM ε σ PUnit) s = .ok ⟨⟩ s := by
  simp [raiseIf, h]

@[simp] theorem raiseIf_eq_ok [Decidable c] {u : PUnit} :
    (raiseIf c e : EStateM ε σ PUnit) s = .ok u s' ↔ ¬c ∧ s = s' := by
  by_cases h : c <;> simp [raiseIf, h]

@[simp] theorem raiseIf_eq_error [Decidable c] {e' : ε} :
    (raiseIf c e : EStateM ε σ PUnit) s = .error e' s' ↔ c ∧ e = e' ∧ s = s' := by
  by_cases h : c <;> simp [raiseIf, h]

theorem bind_eq_ok : (x >>= f) s = .ok b s' ↔ ∃ a s₁, x s = .ok a s₁ ∧ f a s₁ = .ok b s' := by
  simp only [bind, EStateM.bind]
  cases x s <;> simp

theorem bind_eq_error :
    (x >>= f) s = .error e s' ↔ x s = .error e s' ∨ ∃ a s₁, x s = .ok a s₁ ∧ f a s₁ = .error e s' := by
  simp only [bind, EStateM.bind]
  cases x s <;> simp

theorem bind_of_ok {s₁ : σ} (h : x s = .ok a s₁) : (x >>= f) s = f a s₁ := by
  simp only [bind, EStateM.bind, h]

theorem bind_of_error (h : x s = .error e s') : (x >>= f) s = .error e s' := by
  simp only [bind, EStateM.bind, h]

variable {g : PUnit → EStateM ε σ β}

theorem raiseIf_bind_eq_error [Decidable c] {e' : ε} :
    ((raiseIf c e : EStateM ε σ PUnit) >>= g) s = .error e' s' ↔
      (c ∧ e = e' ∧ s = s') ∨ (¬c ∧ g ⟨⟩ s = .error e' s') := by
  by_cases h : c
  · rw [bind_of_error (raiseIf_of h s)]
    simp [h]
  · rw [bind_of_ok (raiseIf_of_not h s)]
    simp [h]

section Positions

/-- The turn of a loop over a range is the number of the turns before it. -/
theorem range_split {m n : Nat} {done rest : List Nat} (h : range m = done ++ n :: rest) :
    n = done.length ∧ n < m := by
  have hget : (range m)[done.length]? = some n := by
    rw [h, getElem?_append_right (Nat.le_refl _), Nat.sub_self]
    rfl
  obtain ⟨hlt, heq⟩ := List.getElem?_eq_some_iff.mp hget
  rw [getElem_range] at heq
  rw [length_range] at hlt
  exact ⟨heq.symm, heq ▸ hlt⟩

theorem range'_split {start m n : Nat} {done rest : List Nat} (h : range' start m = done ++ n :: rest) :
    n = start + done.length ∧ done.length < m := by
  have hget : (range' start m)[done.length]? = some n := by
    rw [h, getElem?_append_right (Nat.le_refl _), Nat.sub_self]
    rfl
  obtain ⟨hlt, heq⟩ := List.getElem?_eq_some_iff.mp hget
  rw [getElem_range', Nat.one_mul] at heq
  rw [length_range'] at hlt
  exact ⟨heq.symm, hlt⟩

end Positions

section Loop

variable {g : α → EStateM ε σ PUnit} {l : List α} {I : List α → σ → Prop}

/-- A loop that is left by an error ran up to the step that raises. -/
theorem forM_error (herr : (forM l g) s = .error e s') :
    ∃ done a rest s₁, l = done ++ a :: rest ∧ (forM done g) s = .ok ⟨⟩ s₁ ∧ g a s₁ = .error e s' := by
  induction l generalizing s with
  | nil => simp at herr
  | cons a l ih =>
    rw [forM_cons, bind_eq_error] at herr
    rcases herr with hfirst | ⟨⟨⟩, s₁, hfirst, hrest⟩
    · exact ⟨[], a, l, s, rfl, rfl, hfirst⟩
    · obtain ⟨done, b, rest, s₂, hl, hdone, herr⟩ := ih hrest
      exact ⟨a :: done, b, rest, s₂, by simp [hl], by rw [forM_cons, bind_of_ok hfirst, hdone], herr⟩

end Loop

section Ends

variable {τ ε' : Type} {P Q : α → σ → Prop} {R : β → σ → Prop} {E E' : σ → Prop}
variable {r : EStateM.Result ε σ α} {y : EStateM ε τ α}

/-- A result in a state that meets `Q`, or an error in a state that meets `E`. -/
def Ends (Q : α → σ → Prop) (E : σ → Prop) : EStateM.Result ε σ α → Prop
  | .ok a s => Q a s
  | .error _ s => E s

@[simp] theorem ends_ok : Ends Q E (.ok a s : EStateM.Result ε σ α) ↔ Q a s := Iff.rfl
@[simp] theorem ends_error : Ends Q E (.error e s : EStateM.Result ε σ α) ↔ E s := Iff.rfl

theorem Ends.mono (h : Ends P E r) (hQ : ∀ a s, P a s → Q a s) (hE : ∀ s, E s → E' s) :
    Ends Q E' r := by
  cases r with
  | ok a s => exact hQ a s h
  | error e s => exact hE s h

theorem Ends.weaken (h : Ends Q E r) (hE : ∀ s, E s → E' s) : Ends Q E' r := h.mono (fun _ _ => id) hE

theorem Ends.and (h : Ends P E r) (h' : Ends Q E' r) :
    Ends (fun a s => P a s ∧ Q a s) (fun s => E s ∧ E' s) r := by
  cases r with
  | ok a s => exact ⟨h, h'⟩
  | error e s => exact ⟨h, h'⟩

theorem Ends.ok_of (h : Ends Q E (x s)) (hok : x s = .ok a s') : Q a s' := by
  rwa [hok] at h

theorem Ends.error_of (h : Ends Q E (x s)) (herr : x s = .error e s') : E s' := by
  rwa [herr] at h

/-- What holds in any case. -/
theorem Ends.endState {I : σ → Prop} (h : Ends Q E r) (hQ : ∀ a s, Q a s → I s)
    (hE : ∀ s, E s → I s) : I (RaisingState.endState r) := by
  cases r with
  | ok a s => exact hQ a s h
  | error e s => exact hE s h

/-- A call that cannot raise returns. -/
theorem Ends.returns (h : Ends Q (fun _ => False) r) : ∃ a s, r = .ok a s ∧ Q a s := by
  cases r with
  | ok a s => exact ⟨a, s, rfl, h⟩
  | error e s => exact h.elim

theorem ends_bind (hx : Ends P E (x s)) (hf : ∀ a s₁, P a s₁ → Ends R E (f a s₁)) : Ends R E ((x >>= f) s) := by
  cases hrun : x s with
  | ok a s₁ =>
    rw [bind_of_ok hrun]
    exact hf a s₁ (hx.ok_of hrun)
  | error e s₁ =>
    rw [bind_of_error hrun]
    exact hx.error_of hrun

theorem ends_get_bind {g : σ → EStateM ε σ β} (h : Ends R E (g s s)) :
    Ends R E (((get : EStateM ε σ σ) >>= g) s) := h

theorem ends_set_bind {s₁ : σ} (h : Ends R E (g ⟨⟩ s₁)) :
    Ends R E (((set s₁ : EStateM ε σ PUnit) >>= g) s) := h

theorem ends_modify_bind {f : σ → σ} (h : Ends R E (g ⟨⟩ (f s))) :
    Ends R E (((modify f : EStateM ε σ PUnit) >>= g) s) := h

/-- Where errors do not matter, the rest decides. -/
theorem ends_bind_rest (hf : ∀ a s₁, Ends R (fun _ => True) (f a s₁)) : Ends R (fun _ => True) ((x >>= f) s) := by
  apply ends_bind (P := fun _ _ => True)
  · cases x s <;> trivial
  · exact fun a s₁ _ => hf a s₁

theorem ends_raiseIf [Decidable c] {Q : PUnit → σ → Prop} (hfail : c → E s) (hpass : ¬c → Q ⟨⟩ s) :
    Ends Q E ((raiseIf c e : EStateM ε σ PUnit) s) := by
  by_cases hc : c
  · rw [raiseIf_of hc s]
    exact hfail hc
  · rw [raiseIf_of_not hc s]
    exact hpass hc

/-- A check, and what follows when it passes. -/
theorem ends_raiseIf_bind [Decidable c] (hfail : c → E s)
    (hpass : ¬c → Ends R E (g ⟨⟩ s)) : Ends R E (((raiseIf c e : EStateM ε σ PUnit) >>= g) s) := by
  by_cases hc : c
  · rw [bind_of_error (raiseIf_of hc s)]
    exact hfail hc
  · rw [bind_of_ok (raiseIf_of_not hc s)]
    exact hpass hc

variable {g : β → α → EStateM ε σ β} {I : List α → β → σ → Prop}

/-- The rule for a loop, for any statement about results that goes through a sequence of calls. -/
theorem foldlM_rule {T : (β → σ → Prop) → EStateM.Result ε σ β → Prop} (hpure : ∀ Q b s, Q b s → T Q (.ok b s))
    (hbind : ∀ P Q (y : EStateM ε σ β) (f : β → EStateM ε σ β) s, T P (y s) → (∀ b s₁, P b s₁ → T Q (f b s₁)) →
      T Q ((y >>= f) s))
    {l : List α}
    (hstep : ∀ done a rest b s, l = done ++ a :: rest → I done b s → T (I (done ++ [a])) (g b a s)) {b : β}
    (hs : I [] b s) : T (I l) ((l.foldlM g b) s) := by
  suffices h : ∀ rest done b s, l = done ++ rest → I done b s → T (I l) ((rest.foldlM g b) s) from h l [] b s rfl hs
  intro rest
  induction rest with
  | nil =>
    intro done b s hl hdone
    rw [append_nil] at hl
    subst hl
    exact hpure _ b s hdone
  | cons a rest ih =>
    intro done b s hl hdone
    rw [foldlM_cons]
    apply hbind _ _ _ _ _ (hstep done a rest b s hl hdone)
    intro b' s₁ hdone'
    exact ih (done ++ [a]) b' s₁ (by simp [hl]) hdone'

/-- A loop keeps what its steps keep, and is left by an error of one of them. -/
theorem ends_foldlM {l : List α}
    (hstep : ∀ done a rest b s, l = done ++ a :: rest → I done b s → Ends (I (done ++ [a])) E (g b a s))
    {b : β} (hs : I [] b s) : Ends (I l) E ((l.foldlM g b) s) :=
  foldlM_rule (T := fun Q => Ends Q E) (fun _ _ _ h => h) (fun _ _ _ _ _ => ends_bind) hstep hs

theorem forM_eq_foldlM (g : α → EStateM ε σ PUnit) (l : List α) : forM l g = l.foldlM (fun _ a => g a) ⟨⟩ := by
  induction l with
  | nil => rfl
  | cons a l ih =>
    rw [forM_cons, foldlM_cons, ih]

section Loop

variable {g : α → EStateM ε σ PUnit} {l : List α} {I : List α → σ → Prop}

theorem ends_forM
    (hstep : ∀ done a rest s, l = done ++ a :: rest → I done s → Ends (fun _ => I (done ++ [a])) E (g a s))
    (hs : I [] s) : Ends (fun _ => I l) E ((forM l g) s) := by
  rw [forM_eq_foldlM]
  exact ends_foldlM (I := fun done _ => I done) (fun done a rest _ => hstep done a rest) hs

/-- The rule for a loop that runs to its end. -/
theorem forM_ok (hstep : ∀ done a rest s s', l = done ++ a :: rest → I done s → g a s = .ok ⟨⟩ s' →
    I (done ++ [a]) s') (hs : I [] s) (hok : (forM l g) s = .ok ⟨⟩ s') : I l s' := by
  refine (ends_forM (E := fun _ => True) (fun done a rest s hl hdone => ?_) hs).ok_of hok
  cases hrun : g a s with
  | ok u s' => exact hstep done a rest s s' hl hdone hrun
  | error e s' => trivial

theorem forM_succeeds (hstep : ∀ done a rest s, l = done ++ a :: rest → I done s →
    ∃ s', g a s = .ok ⟨⟩ s' ∧ I (done ++ [a]) s') (hs : I [] s) : ∃ s', (forM l g) s = .ok ⟨⟩ s' ∧ I l s' := by
  have hloop : Ends (fun _ => I l) (fun _ => False) ((forM l g) s) := by
    apply ends_forM _ hs
    intro done a rest s hl hdone
    obtain ⟨s', hrun, hI⟩ := hstep done a rest s hl hdone
    rwa [hrun]
  obtain ⟨⟨⟩, hreturns⟩ := hloop.returns
  exact hreturns

end Loop

/-- `try`: the error becomes a result, in the state that the call left. -/
def attempt (x : EStateM ε σ α) : EStateM ε' σ (Except ε α) := fun s =>
  match x s with
  | .ok a s' => .ok (.ok a) s'
  | .error e s' => .ok (.error e) s'

theorem ends_attempt (h : Ends P E' (x s)) :
    Ends (fun r s' => (∃ a, r = .ok a ∧ P a s') ∨ ∃ e, r = .error e ∧ E' s') E
      ((attempt x : EStateM ε' σ (Except ε α)) s) := by
  rw [attempt]
  cases hrun : x s with
  | ok a s' => exact .inl ⟨a, rfl, h.ok_of hrun⟩
  | error e s' => exact .inr ⟨e, rfl, h.error_of hrun⟩

theorem attempt_of_ok (h : x s = .ok a s') : (attempt x : EStateM ε' σ (Except ε α)) s = .ok (.ok a) s' := by
  simp only [attempt, h]

theorem attempt_of_error (h : x s = .error e s') :
    (attempt x : EStateM ε' σ (Except ε α)) s = .ok (.error e) s' := by
  simp only [attempt, h]

def zoom (part : σ → τ) (put : τ → σ → σ) (wrap : ε → ε') (x : EStateM ε τ α) : EStateM ε' σ α := fun s =>
  match x (part s) with
  | .ok a t => .ok a (put t s)
  | .error e t => .error (wrap e) (put t s)

variable {part : σ → τ} {put : τ → σ → σ} {wrap : ε → ε'}

theorem zoom_of_ok {t : τ} (h : y (part s) = .ok a t) :
    zoom part put wrap y s = .ok a (put t s) := by
  simp only [zoom, h]

theorem zoom_of_error {t : τ} (h : y (part s) = .error e t) :
    zoom part put wrap y s = .error (wrap e) (put t s) := by
  simp only [zoom, h]

theorem ends_zoom (h : Ends (fun a t => Q a (put t s)) (fun t => E (put t s)) (y (part s))) :
    Ends Q E (zoom part put wrap y s) := by
  cases hrun : y (part s) with
  | ok a t =>
    rw [zoom_of_ok hrun]
    exact h.ok_of hrun
  | error e t =>
    rw [zoom_of_error hrun]
    exact h.error_of hrun

end Ends

section Returns

variable {τ ε' : Type} {P Q : α → σ → Prop} {R : β → σ → Prop} {E : ε → Prop} {F : ε' → Prop} {part : σ → τ}
  {put : τ → σ → σ} {wrap : ε → ε'}

/-- A result in a state that meets `Q`, or an error that meets `E`. -/
def Returns (Q : α → σ → Prop) (E : ε → Prop) : EStateM.Result ε σ α → Prop
  | .ok a s => Q a s
  | .error e _ => E e

theorem Returns.mono {r : EStateM.Result ε σ α} (h : Returns P E r) (hQ : ∀ a s, P a s → Q a s) : Returns Q E r := by
  cases r with
  | ok a s => exact hQ a s h
  | error e s => exact h

theorem returns_bind (hx : Returns P E (x s)) (hf : ∀ a s₁, P a s₁ → Returns R E (f a s₁)) :
    Returns R E ((x >>= f) s) := by
  cases hrun : x s with
  | ok a s₁ =>
    rw [hrun] at hx
    rw [bind_of_ok hrun]
    exact hf a s₁ hx
  | error e s₁ =>
    rw [hrun] at hx
    rw [bind_of_error hrun]
    exact hx

theorem returns_foldlM {g : β → α → EStateM ε σ β} {l : List α} {I : List α → β → σ → Prop}
    (hstep : ∀ done a rest b s, l = done ++ a :: rest → I done b s → Returns (I (done ++ [a])) E (g b a s))
    {b : β} (hs : I [] b s) : Returns (I l) E ((l.foldlM g b) s) :=
  foldlM_rule (T := fun Q => Returns Q E) (fun _ _ _ h => h) (fun _ _ _ _ _ => returns_bind) hstep hs

/-- A call on a part of the state whose errors are all of one kind. -/
theorem returns_zoom {y : EStateM ε τ α} (h : Ends (fun a t => Q a (put t s)) (fun _ => True) (y (part s)))
    (hwrap : ∀ e, F (wrap e)) : Returns Q F (zoom part put wrap y s) := by
  cases hrun : y (part s) with
  | ok a t =>
    rw [zoom_of_ok hrun]
    exact h.ok_of hrun
  | error e t =>
    rw [zoom_of_error hrun]
    exact hwrap e

end Returns

section Gives

variable {P Q : α → Prop} {R : β → Prop} {E E' : ε → Prop}
variable {r : Except ε α}

/-- A value that meets `Q`, or an error that meets `E`. -/
def Gives (Q : α → Prop) (E : ε → Prop) : Except ε α → Prop
  | .ok a => Q a
  | .error e => E e

theorem Gives.mono (h : Gives P E r) (hQ : ∀ a, P a → Q a) (hE : ∀ e, E e → E' e) : Gives Q E' r := by
  cases r with
  | ok a => exact hQ a h
  | error e => exact hE e h

theorem gives_bind {g : α → Except ε β} (hr : Gives P E r) (hg : ∀ a, P a → Gives R E (g a)) :
    Gives R E (r >>= g) := by
  cases r with
  | ok a => exact hg a hr
  | error e => exact hr

theorem gives_foldlM {g : β → α → Except ε β} {l : List α} {I : List α → β → Prop}
    (hstep : ∀ done a rest b, l = done ++ a :: rest → I done b → Gives (I (done ++ [a])) E (g b a)) {b : β}
    (hb : I [] b) : Gives (I l) E (l.foldlM g b) := by
  suffices h : ∀ rest done b, l = done ++ rest → I done b → Gives (I l) E (rest.foldlM g b) from h l [] b rfl hb
  intro rest
  induction rest with
  | nil =>
    intro done b hl hdone
    rw [append_nil] at hl
    subst hl
    exact hdone
  | cons a rest ih =>
    intro done b hl hdone
    rw [foldlM_cons]
    exact gives_bind (hstep done a rest b hl hdone) fun b' hdone' => ih (done ++ [a]) b' (by simp [hl]) hdone'

/-- A value that cannot be an error. -/
theorem Gives.returns (h : Gives Q (fun _ => False) r) : ∃ a, r = .ok a ∧ Q a := by
  cases r with
  | ok a => exact ⟨a, rfl, h⟩
  | error e => exact h.elim

/-- A list of values, each that of its element. -/
theorem gives_mapM {g : α → Except ε β} {l : List α} {S : α → β → Prop} (h : ∀ a ∈ l, Gives (S a) E (g a)) :
    Gives (Forall₂ S l) E (l.mapM g) := by
  induction l with
  | nil => exact Forall₂.nil
  | cons a l ih =>
    rw [mapM_cons]
    refine gives_bind (h a (by simp)) fun b hb => ?_
    exact gives_bind (ih fun x hx => h x (mem_cons_of_mem _ hx)) fun bs hbs => Forall₂.cons hb hbs

theorem ends_ofExcept {Q : α → σ → Prop} {E : σ → Prop}
    (h : Gives (Q · s) (fun _ => E s) r) : Ends Q E ((ofExcept r : EStateM ε σ α) s) := by
  cases r with
  | ok a => exact h
  | error e => exact h

end Gives

end RaisingState
