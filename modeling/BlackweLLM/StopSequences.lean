import BlackweLLM.PythonText

/-!
# Stop-sequence matching on text

`server/formats/stop.py`: the earliest occurrence of any stop sequence in a
text, and the tail of the text that could still grow into one. A text with
neither can be forgotten: later text is matched as if it stood alone.
-/

namespace StopSequences

open List TextScan PythonText

variable {seq text s done : Text} {best : Option (Nat × Text)} {stops : List Text}

/-- One turn of the search loop; an earlier index replaces the best match, a tie does not. -/
def considerMatch (text : Text) (best : Option (Nat × Text)) (seq : Text) : Option (Nat × Text) :=
  if seq = [] then best
  else match find seq text with
    | none => best
    | some idx =>
      match best with
      | none => some (idx, seq)
      | some (bestIdx, _) => if idx < bestIdx then some (idx, seq) else best

def findEarliestStopMatch (text : Text) (stopSequences : List Text) : Option (Nat × Text) :=
  stopSequences.foldl (considerMatch text) none

/-- One turn of the trimming loop: cut before the longest strict prefix of `seq` at the end. -/
def considerCut (text : Text) (cut : Nat) (seq : Text) : Nat :=
  if seq.length ≤ 1 then cut
  else if overlap seq text = 0 then cut
  else min cut (text.length - overlap seq text)

def trimAmbiguousStopTail (text : Text) (stopSequences : List Text) : Text :=
  text.take (stopSequences.foldl (considerCut text) text.length)

theorem overlap_of_length_le_one (h : seq.length ≤ 1) (text : Text) :
    overlap seq text = 0 := by
  simp [overlap, show seq.length - 1 = 0 by omega, overlapUpTo]

theorem length_le_considerCut_iff (text : Text) (cut : Nat) (seq : Text) :
    text.length ≤ considerCut text cut seq ↔ text.length ≤ cut ∧ overlap seq text = 0 := by
  have hle := overlap_le_length seq text
  unfold considerCut
  split_ifs with h₁ h₂
  · simp [overlap_of_length_le_one h₁]
  · simp [h₂]
  · omega

theorem length_le_foldl_considerCut_iff (text : Text) (stops : List Text) (cut : Nat) :
    text.length ≤ stops.foldl (considerCut text) cut ↔
      text.length ≤ cut ∧ ∀ s ∈ stops, overlap s text = 0 := by
  induction stops generalizing cut with
  | nil => simp
  | cons s stops ih =>
    rw [foldl_cons, ih, length_le_considerCut_iff]
    simp [and_assoc]

/-- The trimming leaves a text alone exactly when no stop sequence has begun at its end. -/
theorem trim_eq_self_iff (text : Text) (stops : List Text) :
    trimAmbiguousStopTail text stops = text ↔ ∀ s ∈ stops, overlap s text = 0 := by
  unfold trimAmbiguousStopTail
  rw [take_eq_self_iff, length_le_foldl_considerCut_iff]
  simp

theorem trim_nil (stops : List Text) : trimAmbiguousStopTail [] stops = [] := by
  simp [trimAmbiguousStopTail]

variable {i : Nat}

/-- What the search loop knows of a best match: it is an occurrence of a configured sequence. -/
theorem considerMatch_spec (h : considerMatch text best seq = some (i, s)) :
    best = some (i, s) ∨ (s = seq ∧ s ≠ [] ∧ find s text = some i) := by
  unfold considerMatch at h
  split_ifs at h with hs
  · exact .inl h
  · cases hf : find seq text with
    | none => exact .inl (by simpa [hf] using h)
    | some idx =>
      cases best with
      | none =>
        simp only [hf, Option.some.injEq, Prod.mk.injEq] at h
        obtain ⟨rfl, rfl⟩ := h
        exact .inr ⟨rfl, hs, hf⟩
      | some b =>
        simp only [hf] at h
        split_ifs at h
        · simp only [Option.some.injEq, Prod.mk.injEq] at h
          obtain ⟨rfl, rfl⟩ := h
          exact .inr ⟨rfl, hs, hf⟩
        · exact .inl h

theorem foldl_considerMatch_spec (h : stops.foldl (considerMatch text) best = some (i, s)) :
    best = some (i, s) ∨ (s ∈ stops ∧ s ≠ [] ∧ find s text = some i) := by
  induction stops generalizing best with
  | nil => exact .inl h
  | cons seq stops ih =>
    rcases ih h with hbest | ⟨hmem, hne, hf⟩
    · rcases considerMatch_spec hbest with hold | ⟨rfl, hne, hf⟩
      · exact .inl hold
      · exact .inr ⟨mem_cons_self, hne, hf⟩
    · exact .inr ⟨mem_cons_of_mem _ hmem, hne, hf⟩

theorem findEarliest_spec (h : findEarliestStopMatch text stops = some (i, s)) :
    s ∈ stops ∧ s ≠ [] ∧ find s text = some i := by
  simpa using foldl_considerMatch_spec h

theorem considerMatch_isSome_iff (text : Text) (best : Option (Nat × Text)) (seq : Text) :
    (considerMatch text best seq).isSome ↔
      best.isSome ∨ (seq ≠ [] ∧ (find seq text).isSome) := by
  unfold considerMatch
  split_ifs with hs
  · simp [hs]
  · cases hf : find seq text with
    | none => simp
    | some idx =>
      cases best with
      | none => simp [hs]
      | some b => simp only; split_ifs <;> simp

theorem findEarliest_eq_none_iff (text : Text) (stops : List Text) :
    findEarliestStopMatch text stops = none ↔ ∀ s ∈ stops, s ≠ [] → find s text = none := by
  suffices key : ∀ best, (stops.foldl (considerMatch text) best).isSome ↔
      best.isSome ∨ ∃ s ∈ stops, s ≠ [] ∧ (find s text).isSome by
    have := key none
    unfold findEarliestStopMatch
    rw [← Option.not_isSome_iff_eq_none, this]
    simp
  induction stops with
  | nil => simp
  | cons s stops ih =>
    intro best
    rw [foldl_cons, ih, considerMatch_isSome_iff]
    simp [or_assoc]

theorem considerMatch_le (h : considerMatch text best seq = some (i, s)) :
    (∀ b, best = some b → i ≤ b.1) ∧ (seq ≠ [] → ∀ j, find seq text = some j → i ≤ j) := by
  have hkeep : best = some (i, s) → ∀ b, best = some b → i ≤ b.1 := by
    intro hbest b hb
    obtain rfl := Option.some.inj (hbest.symm.trans hb)
    exact le_rfl
  unfold considerMatch at h
  split_ifs at h with hs
  · exact ⟨hkeep h, fun hne => absurd hs hne⟩
  · cases hf : find seq text with
    | none =>
      rw [hf] at h
      exact ⟨hkeep h, fun _ j hj => by cases hj⟩
    | some idx =>
      rw [hf] at h
      cases best with
      | none =>
        have hidx : idx = i := congrArg Prod.fst (Option.some.inj h)
        exact ⟨fun b hb => (by cases hb), fun _ j hj => (hidx.symm.trans (Option.some.inj hj)).le⟩
      | some b =>
        dsimp only at h
        split_ifs at h with hlt
        · have hidx : idx = i := congrArg Prod.fst (Option.some.inj h)
          refine ⟨fun b' hb' => ?_, fun _ j hj => (hidx.symm.trans (Option.some.inj hj)).le⟩
          obtain rfl := Option.some.inj hb'
          exact hidx ▸ hlt.le
        · refine ⟨hkeep h, fun _ j hj => ?_⟩
          obtain rfl := Option.some.inj h
          exact (Option.some.inj hj) ▸ not_lt.mp hlt

/-- The match starts no later than any occurrence of a configured sequence. -/
theorem findEarliest_le
    (h : findEarliestStopMatch text stops = some (i, s)) (hmem : seq ∈ stops) (hne : seq ≠ [])
    {j : Nat} (hj : OccursAt seq text j) : i ≤ j := by
  obtain ⟨first, hfirst, hfind⟩ := find_le_of_occursAt hne hj
  refine le_trans ?_ hfirst
  induction stops using reverseRecOn generalizing i s with
  | nil => cases hmem
  | append_singleton seen last ih =>
    rw [findEarliestStopMatch, foldl_append] at h
    obtain ⟨hbest, hlast⟩ := considerMatch_le h
    cases mem_append.mp hmem with
    | inr heq =>
      obtain rfl := mem_singleton.mp heq
      exact hlast hne first hfind
    | inl hseen =>
      cases hfold : findEarliestStopMatch text seen with
      | none =>
        have hnone := (findEarliest_eq_none_iff text seen).mp hfold seq hseen hne
        rw [hfind] at hnone
        cases hnone
      | some b => exact (hbest b hfold).trans (ih (s := b.2) hfold hseen)

/-- Neither a stop sequence nor the beginning of one at the end. -/
def Settled (stops : List Text) (text : Text) : Prop :=
  findEarliestStopMatch text stops = none ∧ trimAmbiguousStopTail text stops = text

theorem settled_nil (stops : List Text) : Settled stops [] :=
  ⟨(findEarliest_eq_none_iff _ _).mpr fun s _ hs => by simp [find, hs], trim_nil stops⟩

/-- Move a match from the pending text to its place in the whole text. -/
def shift (n : Nat) : Nat × Text → Nat × Text := fun m => (n + m.1, m.2)

theorem considerMatch_append {pending : Text} (h₀ : overlap seq done = 0)
    (h : seq ≠ [] → find seq done = none) (best : Option (Nat × Text)) :
    considerMatch (done ++ pending) (best.map (shift done.length)) seq =
      (considerMatch pending best seq).map (shift done.length) := by
  unfold considerMatch
  split_ifs with hs
  · rfl
  · rw [find_append_of_clean hs h₀ (h hs)]
    cases find seq pending with
    | none => rfl
    | some idx =>
      cases best with
      | none => rfl
      | some b =>
        simp only [Option.map_some, shift, Nat.add_lt_add_iff_left]
        split_ifs <;> rfl

/-- After a settled text the search in the rest finds exactly the match of the whole text. -/
theorem Settled.findEarliest_append (h : Settled stops done)
    (pending : Text) :
    findEarliestStopMatch (done ++ pending) stops =
      (findEarliestStopMatch pending stops).map (shift done.length) := by
  have hnone := (findEarliest_eq_none_iff _ _).mp h.1
  have hclean := (trim_eq_self_iff _ _).mp h.2
  suffices key : ∀ best, stops.foldl (considerMatch (done ++ pending)) (best.map (shift done.length)) =
      (stops.foldl (considerMatch pending) best).map (shift done.length) from key none
  clear h
  induction stops with
  | nil => exact fun _ => rfl
  | cons s stops ih =>
    intro best
    rw [foldl_cons, foldl_cons,
      considerMatch_append (hclean s mem_cons_self) (hnone s mem_cons_self)]
    exact ih (fun t ht => hnone t (mem_cons_of_mem _ ht))
      (fun t ht => hclean t (mem_cons_of_mem _ ht)) _

theorem Settled.trim_append_iff (h : Settled stops done)
    (pending : Text) :
    trimAmbiguousStopTail (done ++ pending) stops = done ++ pending ↔
      trimAmbiguousStopTail pending stops = pending := by
  have hclean := (trim_eq_self_iff _ _).mp h.2
  rw [trim_eq_self_iff, trim_eq_self_iff]
  refine forall₂_congr fun s hs => ?_
  by_cases hne : s = []
  · simp [hne, overlap_of_length_le_one]
  · rw [overlap_append_of_clean hne (hclean s hs)]

end StopSequences
