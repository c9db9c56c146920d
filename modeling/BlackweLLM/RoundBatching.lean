import BlackweLLM.CommitLoop

/-!
# Round batching is invisible

Two slot states agree when they differ only in how their stream is cut into
chunks and in their log-probabilities. A speculative round agrees with the same
tokens committed one plain round at a time, so the rounds of a request can be
cut in any way.
-/

namespace CommitLoop

open List PythonText StopSequences StreamProcessor ToolCalls

variable {τ Call Lp : Type} {tok : Tokenizer τ}
variable {ph ph' : Phase tok Call Lp}

/-- `st` agrees with `st'` once the tokens `held`, committed but not yet put on the stream, are
counted as streamed. Tokens are held back so only without stop sequences. -/
structure Agree (req : GenerationRequest) (held : List τ) (st st' : SlotState tok Call Lp) : Prop where
  committed : st.committedTokens = st'.committedTokens
  stop : st.stop = st'.stop
  toolTracker : st.toolTracker = st'.toolTracker
  stream : st.stream.flatten ++ (if req.streaming ∧ st.stop.isNone then held else []) =
    st'.stream.flatten

/-- Everything a finished request reports, with its stream concatenated. -/
def Result.Agree (r r' : Result τ Lp) : Prop :=
  r.committedTokenIds = r'.committedTokenIds ∧ r.stream.flatten = r'.stream.flatten ∧
  r.finishReason = r'.finishReason ∧ r.matchedStopSequence = r'.matchedStopSequence ∧
  r.terminalTokenId = r'.terminalTokenId ∧ r.finishSource = r'.finishSource

def Phase.Agree (req : GenerationRequest) : Phase tok Call Lp → Phase tok Call Lp → Prop
  | .running st, .running st' => CommitLoop.Agree req [] st st'
  | .finished r, .finished r' => r.Agree r'
  | _, _ => False

variable {req : GenerationRequest} {held : List τ} {st st' : SlotState tok Call Lp}

theorem Agree.refl (req : GenerationRequest) (st : SlotState tok Call Lp) : Agree req [] st st :=
  ⟨rfl, rfl, rfl, by simp⟩

theorem Agree.commit (h : Agree req held st st') (t : τ) :
    Agree req held (appendCommitted st t) (appendCommitted st' t) :=
  ⟨by simp [appendCommitted, h.committed], h.stop, h.toolTracker, h.stream⟩

theorem Agree.setLogprobs (h : Agree req held st st') (lps lps' : Option (List Lp)) :
    Agree req held { st with logprobsAcc := lps } { st' with logprobsAcc := lps' } :=
  ⟨h.committed, h.stop, h.toolTracker, h.stream⟩

theorem Agree.lengthReached_iff (h : Agree req held st st') : lengthReached req st ↔ lengthReached req st' := by
  simp [lengthReached, h.committed]

@[simp] theorem streamPut_committedTokens (req : GenerationRequest) (st : SlotState tok Call Lp)
    (ids : List τ) : (streamPut req st ids).committedTokens = st.committedTokens := by
  unfold streamPut; split_ifs <;> rfl
@[simp] theorem streamPut_stop (req : GenerationRequest) (st : SlotState tok Call Lp)
    (ids : List τ) : (streamPut req st ids).stop = st.stop := by
  unfold streamPut; split_ifs <;> rfl
@[simp] theorem streamPut_toolTracker (req : GenerationRequest) (st : SlotState tok Call Lp)
    (ids : List τ) : (streamPut req st ids).toolTracker = st.toolTracker := by
  unfold streamPut; split_ifs <;> rfl
@[simp] theorem streamPut_flatten (req : GenerationRequest) (st : SlotState tok Call Lp)
    (ids : List τ) : (streamPut req st ids).stream.flatten =
      st.stream.flatten ++ if req.streaming then ids else [] := by
  unfold streamPut; split_ifs <;> simp

section

variable (h : Agree req held st st')
include h

theorem Agree.flush : Agree req held (flushStopPending req st) (flushStopPending req st') := by
  have hstop := h.stop
  unfold flushStopPending
  rw [← hstop]
  cases hs : st.stop with
  | none => exact h
  | some s =>
    have hstream := h.stream
    simp only [hs, Option.isNone_some, Bool.false_eq_true, and_false, if_false, append_nil]
      at hstream
    simp only
    split_ifs with hempty
    · exact h
    · exact ⟨by simp [h.committed], rfl, by simp [h.toolTracker], by simp [hstream]⟩

theorem Agree.check (t : τ) : (stopCheckToken req st t).1 = (stopCheckToken req st' t).1 ∧
      Agree req held (stopCheckToken req st t).2 (stopCheckToken req st' t).2 := by
  have hstop := h.stop
  unfold stopCheckToken
  rw [← hstop]
  cases hs : st.stop with
  | none => exact ⟨rfl, h⟩
  | some s =>
    have hstream := h.stream
    simp only [hs, Option.isNone_some, Bool.false_eq_true, and_false, if_false, append_nil]
      at hstream
    have hset : ∀ s', Agree req held { st with stop := some s' } { st' with stop := some s' } :=
      fun s' => ⟨h.committed, rfl, h.toolTracker, by simpa using hstream⟩
    cases hv : (s.feed t).verdict with
    | matched seq => simp only [hv]; exact ⟨trivial, hset _⟩
    | flush => simp only [hv]; exact ⟨trivial, (hset _).flush⟩
    | withhold => simp only [hv]; exact ⟨trivial, hset _⟩

theorem Agree.tool (t : τ) : (toolCallCheckToken st t).1 = (toolCallCheckToken st' t).1 ∧
      Agree req held (toolCallCheckToken st t).2 (toolCallCheckToken st' t).2 := by
  have htool := h.toolTracker
  unfold toolCallCheckToken
  rw [← htool]
  cases ht : st.toolTracker with
  | none => exact ⟨rfl, h⟩
  | some tracker => exact ⟨rfl, h.committed, h.stop, rfl, h.stream⟩

theorem Agree.drop : Agree req held (dropStopPendingFromCommitted st) (dropStopPendingFromCommitted st') := by
  have hstop := h.stop
  unfold dropStopPendingFromCommitted
  rw [← hstop]
  cases hs : st.stop with
  | none => exact h
  | some s =>
    have hstream := h.stream
    simp only [hs, Option.isNone_some, Bool.false_eq_true, and_false, if_false, append_nil]
      at hstream
    exact ⟨by simp [h.committed], rfl, h.toolTracker, by simpa using hstream⟩

theorem Agree.of_isSome (hs : st.stop.isSome) (held' : List τ) : Agree req held' st st' := by
  have hnone : st.stop.isNone = false := by simpa using hs
  have hstream := h.stream
  simp only [hnone, Bool.false_eq_true, and_false, if_false] at hstream
  exact ⟨h.committed, h.stop, h.toolTracker, by simpa [hnone] using hstream⟩

theorem Agree.hold (t : τ) : Agree req (held ++ [t]) st (putUnlessStop req st' [t]) := by
  have hstream := h.stream
  unfold putUnlessStop
  rw [← h.stop]
  split_ifs with hs
  · exact h.of_isSome hs _
  · have hnone : st.stop.isNone = true := by simpa using hs
    refine ⟨by simp [h.committed], by simp [h.stop], by simp [h.toolTracker], ?_⟩
    rw [streamPut_flatten, ← hstream]
    by_cases hstr : req.streaming <;> simp [hstr, hnone]

/-- Putting the held tokens on the stream releases them. -/
theorem Agree.release : Agree req [] (putUnlessStop req st held) st' := by
  have hstream := h.stream
  unfold putUnlessStop
  split_ifs with hs
  · exact h.of_isSome hs _
  · have hnone : st.stop.isNone = true := by simpa using hs
    refine ⟨by simp [h.committed], by simp [h.stop], by simp [h.toolTracker], ?_⟩
    simp only [hnone, and_true] at hstream
    simp [hstream]

end

theorem Agree.put (h : Agree req [] st st') (ids : List τ) :
    Agree req [] (putUnlessStop req st ids) (putUnlessStop req st' ids) := by
  have hstream := h.stream
  rw [ite_self, append_nil] at hstream
  unfold putUnlessStop
  rw [← h.stop]
  split_ifs
  · exact h
  · exact ⟨by simp [h.committed], by simp [h.stop], by simp [h.toolTracker], by simp [hstream]⟩

theorem Agree.finish (h : Agree req [] st st') (reason : FinishReason) (source : FinishSource)
    (terminal : Option τ) (matched : Option Text) :
    Phase.Agree req (finishRequest st reason source terminal matched)
      (finishRequest st' reason source terminal matched) := by
  have hstream := h.stream
  rw [ite_self, append_nil] at hstream
  exact ⟨h.committed, hstream, rfl, rfl, rfl, rfl⟩

theorem logToken_eq (req : GenerationRequest) (st : SlotState tok Call Lp) (lp : Option Lp) :
    ∃ lps, logToken req st lp = { st with logprobsAcc := lps } := by
  cases lp with
  | none => exact ⟨_, rfl⟩
  | some lp =>
    simp only [logToken]
    split_ifs <;> exact ⟨_, rfl⟩

theorem logTokens_eq (req : GenerationRequest) (st : SlotState tok Call Lp) (lps : Option (List Lp)) :
    ∃ lps', logTokens req st lps = { st with logprobsAcc := lps' } := by
  cases lps with
  | none => exact ⟨_, rfl⟩
  | some lps =>
    simp only [logTokens]
    split_ifs <;> exact ⟨_, rfl⟩

theorem Agree.log (h : Agree req held st st') (lp lp' : Option Lp) :
    Agree req held (logToken req st lp) (logToken req st' lp') := by
  obtain ⟨lps, hlps⟩ := logToken_eq req st lp
  obtain ⟨lps', hlps'⟩ := logToken_eq req st' lp'
  rw [hlps, hlps']
  exact h.setLogprobs lps lps'

theorem Agree.plainTail (h : Agree req [] st st') (t : τ) :
    Phase.Agree req (plainTail req st t) (plainTail req st' t) := by
  obtain ⟨hflag, htool⟩ := (h.put [t]).tool t
  unfold CommitLoop.plainTail
  simp only [← hflag, ← htool.lengthReached_iff]
  split_ifs
  · exact htool.flush.finish _ _ _ _
  · exact htool.flush.finish _ _ _ _
  · exact htool

theorem Agree.streamKept (h : Agree req held st st') : Agree req [] (streamKept req st held) st' := by
  unfold CommitLoop.streamKept
  split_ifs with he
  · rw [List.isEmpty_iff.mp he] at h
    exact h
  · exact h.release

theorem flush_flush (req : GenerationRequest) (st : SlotState tok Call Lp) :
    flushStopPending req (flushStopPending req st) = flushStopPending req st := by
  cases hs : st.stop with
  | none => simp only [flushStopPending, hs]
  | some s =>
    by_cases he : s.stopPendingIds.isEmpty
    · simp only [flushStopPending, hs, he, if_true]
    · simp only [flushStopPending, hs, he, Bool.false_eq_true, if_false, isEmpty_nil, if_true]

/-- Only a slot with stop sequences can match one. -/
theorem stopCheckToken_isSome {t : τ} {seq : Text} (h : (stopCheckToken req st t).1 = some seq) :
    (dropStopPendingFromCommitted (stopCheckToken req st t).2).stop.isSome := by
  unfold stopCheckToken at h ⊢
  cases hs : st.stop with
  | none => simp [hs] at h
  | some s =>
    cases hv : (s.feed t).verdict with
    | matched _ => simp [hv, dropStopPendingFromCommitted]
    | flush => simp [hs, hv] at h
    | withhold => simp [hs, hv] at h

theorem speculativeEnd_exhausted :
    speculativeEnd req st held .exhausted =
      if lengthReached req (streamKept req st held) then
        finishRequest (flushStopPending req (streamKept req st held)) .length .length none none
      else .running (streamKept req st held) := rfl

/-- The slot of a running request has not reached its length limit. -/
def Phase.Open (req : GenerationRequest) : Phase tok Call Lp → Prop
  | .running st => ¬ lengthReached req st
  | .finished _ => True

theorem Phase.Agree.open_iff (h : Phase.Agree req ph ph') :
    ph.Open req ↔ ph'.Open req := by
  cases ph with
  | running st =>
    cases ph' with
    | running st' => exact not_congr (CommitLoop.Agree.lengthReached_iff h)
    | finished r => exact h.elim
  | finished r =>
    cases ph' with
    | running st' => exact h.elim
    | finished r' => exact Iff.rfl

theorem plainTail_open (st : SlotState tok Call Lp) (t : τ) : (plainTail req st t).Open req := by
  unfold plainTail
  simp only
  split_ifs with hcomplete hlen
  · trivial
  · trivial
  · exact hlen

theorem Phase.Agree.refl (ph : Phase tok Call Lp) : Phase.Agree req ph ph := by
  cases ph with
  | running st => exact CommitLoop.Agree.refl req st
  | finished r => exact ⟨rfl, rfl, rfl, rfl, rfl, rfl⟩

theorem Agree.symm (h : Agree req [] st st') : Agree req [] st' st := by
  have hstream := h.stream
  rw [ite_self, append_nil] at hstream
  exact ⟨h.committed.symm, h.stop.symm, h.toolTracker.symm, by simp [hstream]⟩

theorem Agree.trans {st'' : SlotState tok Call Lp} (h : Agree req [] st st') (h' : Agree req [] st' st'') :
    Agree req [] st st'' := by
  have hstream := h.stream
  have hstream' := h'.stream
  rw [ite_self, append_nil] at hstream hstream'
  exact ⟨h.committed.trans h'.committed, h.stop.trans h'.stop, h.toolTracker.trans h'.toolTracker,
    by simp [hstream, hstream']⟩

theorem Phase.Agree.trans {ph'' : Phase tok Call Lp} (h : Phase.Agree req ph ph')
    (h' : Phase.Agree req ph' ph'') : Phase.Agree req ph ph'' := by
  cases ph <;> cases ph' <;> cases ph'' <;> try first | exact h.elim | exact h'.elim
  · exact CommitLoop.Agree.trans h h'
  · obtain ⟨h₁, h₂, h₃, h₄, h₅, h₆⟩ := h
    obtain ⟨k₁, k₂, k₃, k₄, k₅, k₆⟩ := h'
    exact ⟨h₁.trans k₁, h₂.trans k₂, h₃.trans k₃, h₄.trans k₄, h₅.trans k₅, h₆.trans k₆⟩

theorem Phase.Agree.symm (h : Phase.Agree req ph ph') :
    Phase.Agree req ph' ph := by
  cases ph <;> cases ph' <;> try exact h.elim
  · exact CommitLoop.Agree.symm h
  · obtain ⟨h₁, h₂, h₃, h₄, h₅, h₆⟩ := h
    exact ⟨h₁.symm, h₂.symm, h₃.symm, h₄.symm, h₅.symm, h₆.symm⟩

/-- What the scheduler reports of a request, with the stream concatenated. -/
inductive Outcome (τ : Type) where
  | running (committed streamed : List τ)
  | finished (committed streamed : List τ) (reason : FinishReason) (matched : Option Text)
      (terminal : Option τ) (source : FinishSource)
  deriving DecidableEq, Repr

def Phase.outcome : Phase tok Call Lp → Outcome τ
  | .running st => .running st.committedTokens st.stream.flatten
  | .finished r => .finished r.committedTokenIds r.stream.flatten r.finishReason
      r.matchedStopSequence r.terminalTokenId r.finishSource

theorem Phase.Agree.outcome_eq (h : Phase.Agree req ph ph') :
    ph.outcome = ph'.outcome := by
  cases ph <;> cases ph' <;> try exact h.elim
  · have hstream := h.stream
    rw [ite_self, append_nil] at hstream
    simp [Phase.outcome, h.committed, hstream]
  · obtain ⟨h₁, h₂, h₃, h₄, h₅, h₆⟩ := h
    simp [Phase.outcome, h₁, h₂, h₃, h₄, h₅, h₆]

section Rounds

variable [DecidableEq τ] {engine : Engine τ Call}

theorem Agree.plainRound (h : Agree req [] st st') (t : τ) (lp lp' : Option Lp) :
    Phase.Agree req (plainRound engine req st t lp) (plainRound engine req st' t lp') := by
  obtain ⟨hmatch, hchecked⟩ := ((h.commit t).log lp lp').check t
  unfold CommitLoop.plainRound
  simp only [h.lengthReached_iff, ← hmatch]
  split_ifs
  · exact h.flush.finish _ _ _ _
  · exact h.flush.finish _ _ _ _
  · cases hm : (stopCheckToken req (logToken req (appendCommitted st t) lp) t).1 with
    | some seq => exact hchecked.drop.finish _ _ _ _
    | none => exact hchecked.plainTail t

theorem step_plain (t : τ) (lp : Option Lp) :
    step engine req (.running st) (.plain t lp) = plainRound engine req st t lp := rfl

/-- The tokens of a round, committed one plain round at a time. -/
def tokenwise (engine : Engine τ Call) (req : GenerationRequest) (ph : Phase tok Call Lp) (ts : List τ) :
    Phase tok Call Lp :=
  ts.foldl (fun ph t => step engine req ph (.plain t none)) ph

@[simp] theorem tokenwise_nil (ph : Phase tok Call Lp) : tokenwise engine req ph [] = ph := rfl
@[simp] theorem tokenwise_cons (ph : Phase tok Call Lp) (t : τ) (ts : List τ) :
    tokenwise engine req ph (t :: ts) =
      tokenwise engine req (step engine req ph (.plain t none)) ts := rfl
theorem tokenwise_append (ph : Phase tok Call Lp) (ts us : List τ) :
    tokenwise engine req ph (ts ++ us) = tokenwise engine req (tokenwise engine req ph ts) us :=
  foldl_append
@[simp] theorem tokenwise_finished (r : Result τ Lp) (ts : List τ) :
    tokenwise engine req (.finished r : Phase tok Call Lp) ts = .finished r := by
  induction ts with
  | nil => rfl
  | cons t ts ih => exact ih

/-- The loop and the end of a speculative round, from a state in which `held` is already kept. -/
def loopFrom (engine : Engine τ Call) (req : GenerationRequest) (st : SlotState tok Call Lp)
    (held ts : List τ) : Phase tok Call Lp :=
  let looped := speculativeLoop engine req st held ts
  speculativeEnd req looped.1 looped.2.1 looped.2.2

theorem loopFrom_nil : loopFrom engine req st held [] = speculativeEnd req st held .exhausted := rfl

/-- At the length limit the loop stops at once, as the plain round before it did. -/
theorem loopFrom_of_lengthReached (h : Agree req held st st') (hlen : lengthReached req st)
    (ts : List τ) :
    Phase.Agree req (loopFrom engine req st held ts)
      (finishRequest (flushStopPending req st') .length .length none none) := by
  have hrel := h.streamKept
  cases ts with
  | nil =>
    have hlen' : lengthReached req (streamKept req st held) :=
      hrel.lengthReached_iff.mpr (h.lengthReached_iff.mp hlen)
    rw [loopFrom_nil, speculativeEnd_exhausted, if_pos hlen']
    exact hrel.flush.finish _ _ _ _
  | cons t ts =>
    have hloop : loopFrom engine req st held (t :: ts) = speculativeEnd req st held .length := by
      simp only [loopFrom, speculativeLoop, hlen, if_true]
    rw [hloop]
    exact hrel.flush.finish _ _ _ _

/-- The rest of the loop agrees with the same tokens in plain rounds. The induction is on the tokens left; those
kept so far are held back on the speculative side. -/
theorem loopFrom_agree (h : Agree req held st st') (hlen : ¬ lengthReached req st) (ts : List τ) :
    Phase.Agree req (loopFrom engine req st held ts) (tokenwise engine req (.running st') ts) := by
  induction ts generalizing held st st' with
  | nil =>
    have hrel := h.streamKept
    have hlen' : ¬ lengthReached req (streamKept req st held) :=
      fun hr => hlen (h.lengthReached_iff.mpr (hrel.lengthReached_iff.mp hr))
    rw [loopFrom_nil, speculativeEnd_exhausted, if_neg hlen']
    exact hrel
  | cons t ts ih =>
    have hlen' : ¬ lengthReached req st' := fun hr => hlen (h.lengthReached_iff.mpr hr)
    rw [tokenwise_cons, step_plain, plainRound, if_neg hlen']
    by_cases heos : t ∈ engine.eosTokenIds
    · have hloop : loopFrom engine req st held (t :: ts) = speculativeEnd req st held (.eos t) := by
        simp only [loopFrom, speculativeLoop, hlen, heos, if_true, if_false]
      rw [if_pos heos, hloop, finishRequest, tokenwise_finished]
      exact h.streamKept.flush.finish _ _ _ _
    rw [if_neg heos]
    obtain ⟨hmatch, hchecked⟩ := (h.commit t).check t
    simp only [logToken, ← hmatch]
    cases hm : (stopCheckToken req (appendCommitted st t) t).1 with
    | some seq =>
      have hloop : loopFrom engine req st held (t :: ts) =
          speculativeEnd req (stopCheckToken req (appendCommitted st t) t).2 (held ++ [t])
            (.stopSequence t seq) := by
        simp only [loopFrom, speculativeLoop, hlen, heos, if_false, hm]
      have hsome := stopCheckToken_isSome hm
      rw [hloop]
      simp only [finishRequest, tokenwise_finished]
      exact (hchecked.drop.of_isSome hsome []).finish _ _ _ _
    | none =>
      obtain ⟨hflag, htool⟩ := (hchecked.hold t).tool t
      simp only [plainTail, ← hflag, ← htool.lengthReached_iff]
      by_cases hcomplete : (toolCallCheckToken (stopCheckToken req (appendCommitted st t) t).2 t).1
      · have hloop : loopFrom engine req st held (t :: ts) =
            speculativeEnd req (toolCallCheckToken (stopCheckToken req (appendCommitted st t) t).2 t).2
              (held ++ [t]) (.toolCall t) := by
          simp only [loopFrom, speculativeLoop, hlen, heos, if_false, hm, hcomplete, if_true]
        rw [hloop, if_pos hcomplete, finishRequest, tokenwise_finished, ← flush_flush]
        exact htool.flush.streamKept.flush.finish _ _ _ _
      · have hloop : loopFrom engine req st held (t :: ts) =
            loopFrom engine req (toolCallCheckToken (stopCheckToken req (appendCommitted st t) t).2 t).2
              (held ++ [t]) ts := by
          simp only [loopFrom, speculativeLoop, hlen, heos, if_false, hm, hcomplete, Bool.false_eq_true]
        rw [hloop, if_neg hcomplete]
        by_cases hreached : lengthReached req
            (toolCallCheckToken (stopCheckToken req (appendCommitted st t) t).2 t).2
        · rw [if_pos hreached, finishRequest, tokenwise_finished]
          exact loopFrom_of_lengthReached htool hreached ts
        · rw [if_neg hreached]
          exact ih htool hreached

theorem plainRound_open (st : SlotState tok Call Lp) (t : τ) (lp : Option Lp) :
    (plainRound engine req st t lp).Open req := by
  unfold plainRound
  split_ifs
  · trivial
  · trivial
  · simp only
    split
    · trivial
    · exact plainTail_open _ _

theorem tokenwise_open {ph : Phase tok Call Lp} (h : ph.Open req) (ts : List τ) :
    (tokenwise engine req ph ts).Open req := by
  induction ts generalizing ph with
  | nil => exact h
  | cons t ts ih =>
    cases ph with
    | running st => exact ih (plainRound_open st t none)
    | finished r => exact ih h

theorem activateSlot_open (anchor : τ) :
    (activateSlot tok engine req anchor : Phase tok Call Lp).Open req := by
  unfold activateSlot
  split_ifs
  · trivial
  · simp only
    split
    · trivial
    · split_ifs with hcomplete hlen
      · trivial
      · trivial
      · exact hlen

theorem tokenwise_agree {ph ph' : Phase tok Call Lp} (h : Phase.Agree req ph ph') (ts : List τ) :
    Phase.Agree req (tokenwise engine req ph ts) (tokenwise engine req ph' ts) := by
  induction ts generalizing ph ph' with
  | nil => exact h
  | cons t ts ih =>
    cases ph <;> cases ph' <;> try exact h.elim
    · exact ih (CommitLoop.Agree.plainRound h t none none)
    · exact ih h

/-- One round, of either kind, agrees with its tokens committed one at a time. -/
theorem step_agree {ph : Phase tok Call Lp} (hopen : ph.Open req) (r : Round τ Lp) :
    Phase.Agree req (step engine req ph r) (tokenwise engine req ph r.tokens) := by
  cases ph with
  | finished res =>
    rw [tokenwise_finished]
    exact Phase.Agree.refl _
  | running st =>
    cases r with
    | plain t lp => exact CommitLoop.Agree.plainRound (CommitLoop.Agree.refl req st) t lp none
    | speculative ts lps =>
      obtain ⟨lps', hlps⟩ := logTokens_eq req st lps
      have hlogged := (CommitLoop.Agree.refl req st).setLogprobs lps' st.logprobsAcc
      rw [← hlps] at hlogged
      refine loopFrom_agree hlogged ?_ ts
      rwa [hlogged.lengthReached_iff]

/-- A served request agrees with its anchor followed by all its tokens, one at a time. -/
theorem serve_agree_tokenwise (anchor : τ) (rounds : List (Round τ Lp)) :
    Phase.Agree req (serve tok engine req anchor rounds)
      (tokenwise engine req (activateSlot tok engine req anchor) (rounds.flatMap Round.tokens)) := by
  induction rounds using reverseRecOn with
  | nil => exact Phase.Agree.refl _
  | append_singleton rounds r ih =>
    have hopen : (serve tok engine req anchor rounds).Open req :=
      ih.open_iff.mpr (tokenwise_open (activateSlot_open anchor) _)
    rw [flatMap_append, tokenwise_append, List.flatMap_singleton, serve, foldl_append]
    exact (step_agree hopen r).trans (tokenwise_agree ih _)

/-- Two cuts of one token stream into plain and speculative rounds give the same outcome. -/
theorem serve_outcome_eq (tok : Tokenizer τ) (engine : Engine τ Call) (req : GenerationRequest)
    (anchor : τ) (rounds rounds' : List (Round τ Lp))
    (h : rounds.flatMap Round.tokens = rounds'.flatMap Round.tokens) :
    (serve tok engine req anchor rounds).outcome = (serve tok engine req anchor rounds').outcome := by
  have hleft : Phase.Agree req (serve tok engine req anchor rounds) _ :=
    serve_agree_tokenwise anchor rounds
  have hright : Phase.Agree req (serve tok engine req anchor rounds') _ :=
    serve_agree_tokenwise anchor rounds'
  rw [h] at hleft
  exact (hleft.trans hright.symm).outcome_eq

/-- A stop sequence that completes in the middle of a round, in two cuts of the same text. -/
theorem serve_outcome_eq_stop :
    (serve .chars ⟨['#'], .verbatim⟩ ⟨8, ["\n\n".toList], true, true, false⟩ 'a'
      [.plain 'b' (none : Option Unit), .speculative ['c', '\n', '\n', 'd'] none]).outcome =
    (serve .chars ⟨['#'], .verbatim⟩ ⟨8, ["\n\n".toList], true, true, false⟩ 'a'
      [.speculative ['b', 'c'] (none : Option (List Unit)), .plain '\n' none,
        .speculative ['\n', 'd'] none]).outcome :=
  serve_outcome_eq _ _ _ _ _ _ (by decide)

example : (serve .chars ⟨['#'], .verbatim⟩ ⟨8, ["\n\n".toList], true, true, false⟩ 'a'
    [.plain 'b' (none : Option Unit), .speculative ['c', '\n', '\n', 'd'] none]).outcome =
      .finished ['a', 'b', 'c'] ['a', 'b', 'c'] .stop (some "\n\n".toList) (some '\n') .stopSequence := by
  decide

end Rounds

end CommitLoop
