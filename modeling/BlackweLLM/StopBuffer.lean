import BlackweLLM.RoundBatching

/-!
# What a stop sequence leaves behind

The pending buffer forgets a token only when it flushes, and it flushes exactly
when the text released so far does not end in the beginning of a stop sequence.
A matched stop sequence leaves the generation up to the last flush committed
and streamed.
-/

namespace CommitLoop

open List TextScan PythonText StopSequences StreamProcessor ToolCalls

variable {τ Call Lp : Type} (tok : Tokenizer τ) (openTag : Text) (stops : List Text) (toks : List τ)

/-- Decoded text of the first `k` generated tokens. -/
def rawAt (k : Nat) : Text := rawText tok false (toks.take k)

/-- What the stop tracker may look at after `k` tokens. -/
def viewAt (k : Nat) : Text := view false (rawAt tok toks k)

def viewsUpTo (k : Nat) : List Text := (range k).map fun j => viewAt tok toks (j + 1)

/-- The content that the stop tracker has released after `k` tokens. -/
def releasedAt (k : Nat) : Text :=
  (viewAt tok toks k).take (releasedLen openTag (viewsUpTo tok toks k))

/-- After `k` tokens the released content ends in the beginning of a stop sequence. -/
def HeldBack (k : Nat) : Prop :=
  trimAmbiguousStopTail (releasedAt tok openTag toks k) stops ≠ releasedAt tok openTag toks k

instance (k : Nat) : Decidable (HeldBack tok openTag stops toks k) :=
  inferInstanceAs (Decidable (_ ≠ _))

/-- The number of tokens that have left the pending buffer after `k` tokens without a match. -/
def lastFlush (k : Nat) : Nat := Nat.findGreatest (fun j => ¬ HeldBack tok openTag stops toks j) k

/-- The released content holds no stop sequence before token `n` and then holds `seq` at `s`. -/
def FirstMatch (n s : Nat) (seq : Text) : Prop :=
  n ≤ toks.length ∧ findEarliestStopMatch (releasedAt tok openTag toks n) stops = some (s, seq) ∧
  ∀ k < n, findEarliestStopMatch (releasedAt tok openTag toks k) stops = none

theorem rawAt_zero : rawAt tok toks 0 = [] := rfl

theorem rawAt_mono {j k : Nat} (h : j ≤ k) : rawAt tok toks j <+: rawAt tok toks k := by
  have hsplit : toks.take k = toks.take j ++ (toks.take k).drop j := by
    conv_lhs => rw [← take_append_drop j (toks.take k), take_take, min_eq_left h]
  unfold rawAt
  rw [hsplit]
  exact rawText_mono tok _ _

theorem releasedAt_zero : releasedAt tok openTag toks 0 = [] := rfl

theorem not_heldBack_zero : ¬ HeldBack tok openTag stops toks 0 := by
  simp [HeldBack, releasedAt_zero, trim_nil]

theorem lastFlush_le (k : Nat) : lastFlush tok openTag stops toks k ≤ k := Nat.findGreatest_le k

theorem not_heldBack_lastFlush (k : Nat) :
    ¬ HeldBack tok openTag stops toks (lastFlush tok openTag stops toks k) := by
  by_cases h : lastFlush tok openTag stops toks k = 0
  · rw [h]
    exact not_heldBack_zero tok openTag stops toks
  · exact Nat.findGreatest_of_ne_zero rfl h

theorem heldBack_of_lastFlush_lt {j k : Nat} (h : lastFlush tok openTag stops toks k < j) (hj : j ≤ k) :
    HeldBack tok openTag stops toks j :=
  not_not.mp (Nat.findGreatest_is_greatest h hj)

theorem lastFlush_succ (k : Nat) :
    lastFlush tok openTag stops toks (k + 1) =
      if HeldBack tok openTag stops toks (k + 1) then lastFlush tok openTag stops toks k else k + 1 := by
  unfold lastFlush
  rw [Nat.findGreatest_succ]
  split_ifs with h <;> simp_all

theorem viewsUpTo_succ (k : Nat) :
    viewsUpTo tok toks (k + 1) = viewsUpTo tok toks k ++ [viewAt tok toks (k + 1)] := by
  simp [viewsUpTo, range_succ]

variable {tok}

structure Tracked (parser : ToolCallParser Call) (k q : Nat) (s : StopState tok Call) : Prop where
  stopSequences : s.stopSequences = stops
  ids : s.stopTracker.allIds = toks.take k
  capable : s.stopTracker.thinkingCapable = false
  toolParser : s.stopTracker.toolParser = parser
  released : Released s.stopTracker (viewsUpTo tok toks k) (releasedAt tok parser.openTag toks k)
  pendingIds : s.stopPendingIds = (toks.take k).drop q
  pendingText : releasedAt tok parser.openTag toks k =
    releasedAt tok parser.openTag toks q ++ s.stopPendingText

variable {stops} {toks} {parser : ToolCallParser Call} {k q : Nat} {s : StopState tok Call}

theorem Tracked.new :
    Tracked stops toks parser 0 0
      (⟨stops, StreamProcessor.new tok false parser, [], []⟩ : StopState tok Call) where
  stopSequences := rfl
  ids := rfl
  capable := rfl
  toolParser := rfl
  released := Released.new false parser
  pendingIds := by simp
  pendingText := by simp

section

variable (h : Tracked stops toks parser k q s)
include h

/-- One token: what the tracker releases goes to the pending text. -/
theorem Tracked.feed (hq : q ≤ k) {t : τ}
    (ht : toks.take (k + 1) = toks.take k ++ [t]) (hk : k < toks.length) :
    Tracked stops toks parser (k + 1) q (s.feed t) := by
  have hadd : (s.stopTracker.addTokens [t]).allIds = toks.take (k + 1) := by
    rw [ht, ← h.ids]; rfl
  have hview : (s.stopTracker.addTokens [t]).view = viewAt tok toks (k + 1) := by
    simp only [Processor.view, Processor.raw, hadd, viewAt, rawAt]
    rw [show (s.stopTracker.addTokens [t]).thinkingCapable = false from h.capable]
  have hdrain : Released (s.stopTracker.addTokens [t]).drainContent.2 _ _ :=
    h.released.drain rfl rfl rfl rfl rfl rfl
  rw [hview, ← viewsUpTo_succ] at hdrain
  have hframe : (s.stopTracker.addTokens [t]).drainContent.2.allIds = toks.take (k + 1) ∧
      (s.stopTracker.addTokens [t]).drainContent.2.thinkingCapable = false ∧
      (s.stopTracker.addTokens [t]).drainContent.2.toolParser = parser := by
    cases hs : (s.stopTracker.addTokens [t]).toolCallStarted with
    | true =>
      rw [Processor.drainContent_of_started _ hs]
      exact ⟨hadd, h.capable, h.toolParser⟩
    | false =>
      have hd := Processor.drainContent_drains _ hs
      exact ⟨hd.allIds.trans hadd, hd.thinkingCapable.trans h.capable, hd.toolParser.trans h.toolParser⟩
  have hout : releasedAt tok parser.openTag toks (k + 1) = releasedAt tok parser.openTag toks k ++
      (s.stopTracker.addTokens [t]).drainContent.1.flatten := by
    have hview' : (s.stopTracker.addTokens [t]).drainContent.2.view = viewAt tok toks (k + 1) := by
      rw [← hview]
      exact Processor.view_congr (hframe.1.trans hadd.symm) (hframe.2.1.trans h.capable.symm)
    rw [hdrain.out_eq, hview', hdrain.emittedLen, hframe.2.2]
    rfl
  exact
    { stopSequences := h.stopSequences
      ids := hframe.1
      capable := hframe.2.1
      toolParser := hframe.2.2
      released := by rw [hout]; exact hdrain
      pendingIds := by
        change s.stopPendingIds ++ [t] = _
        rw [h.pendingIds, ht, drop_append_of_le_length]
        rw [length_take]
        omega
      pendingText := by
        change _ = _ ++ (s.stopPendingText ++ _)
        rw [← append_assoc, ← h.pendingText, hout] }

theorem Tracked.flush :
    Tracked stops toks parser k k { s with stopPendingIds := [], stopPendingText := [] } :=
  { h with
    pendingIds := by simp
    pendingText := by simp }

/-- The verdict on the pending text is the verdict on the whole released text. -/
theorem Tracked.verdict (hq : Settled stops (releasedAt tok parser.openTag toks q)) : match s.verdict with
    | .matched seq =>
      ∃ i, findEarliestStopMatch (releasedAt tok parser.openTag toks k) stops = some (i, seq)
    | .flush => findEarliestStopMatch (releasedAt tok parser.openTag toks k) stops = none ∧
        ¬ HeldBack tok parser.openTag stops toks k
    | .withhold => findEarliestStopMatch (releasedAt tok parser.openTag toks k) stops = none ∧
        HeldBack tok parser.openTag stops toks k := by
  have hfind := hq.findEarliest_append s.stopPendingText
  have htrim := hq.trim_append_iff s.stopPendingText
  rw [← h.pendingText] at hfind htrim
  unfold StopState.verdict
  rw [h.stopSequences]
  by_cases hdone : s.stopTracker.thinkingDone = true
  · rw [if_pos hdone]
    cases hm : findEarliestStopMatch s.stopPendingText stops with
    | some m =>
      rw [hm] at hfind
      exact ⟨_, hfind⟩
    | none =>
      rw [hm] at hfind
      simp only
      split_ifs with ht
      · exact ⟨hfind, not_not.mpr (htrim.mpr ht)⟩
      · exact ⟨hfind, fun he => ht (htrim.mp he)⟩
  · rw [if_neg hdone]
    -- the reasoning phase is still open, so nothing has been released
    have hnil : releasedAt tok parser.openTag toks k = [] := by
      rcases h.released.done with hd | hview
      · exact absurd hd hdone
      · rw [h.released.out_eq, hview, take_nil]
    have hsettled := settled_nil stops
    simp only [HeldBack, hnil]
    exact ⟨hsettled.1, not_not.mpr hsettled.2⟩

end

structure Buffered (engine : Engine τ Call) (req : GenerationRequest) (toks : List τ) (k : Nat)
    (st : SlotState tok Call Lp) (s : StopState tok Call) : Prop where
  stop : st.stop = some s
  committed : st.committedTokens = toks.take k
  stream : st.stream.flatten = if req.streaming then
    toks.take (lastFlush tok engine.toolParser.openTag req.stopSequences toks k) else []
  tracked : Tracked req.stopSequences toks engine.toolParser k
    (lastFlush tok engine.toolParser.openTag req.stopSequences toks k) s
  noMatch : ∀ j ≤ k,
    findEarliestStopMatch (releasedAt tok engine.toolParser.openTag toks j) req.stopSequences = none

variable {engine : Engine τ Call} {req : GenerationRequest} {st : SlotState tok Call Lp}

theorem Buffered.settled (h : Buffered engine req toks k st s) :
    Settled req.stopSequences (releasedAt tok engine.toolParser.openTag toks
      (lastFlush tok engine.toolParser.openTag req.stopSequences toks k)) :=
  ⟨h.noMatch _ (lastFlush_le _ _ _ _ _), not_not.mp (not_heldBack_lastFlush _ _ _ _ _)⟩

theorem lastFlush_succ_of_not {openTag : Text} (h : ¬ HeldBack tok openTag stops toks (k + 1)) :
    lastFlush tok openTag stops toks (k + 1) = k + 1 := by
  rw [lastFlush_succ, if_neg h]

theorem lastFlush_succ_of_heldBack {openTag : Text} (h : HeldBack tok openTag stops toks (k + 1)) :
    lastFlush tok openTag stops toks (k + 1) = lastFlush tok openTag stops toks k := by
  rw [lastFlush_succ, if_pos h]

/-- What the request ends with when token `n` completes a stop sequence. -/
structure StoppedAt (engine : Engine τ Call) (req : GenerationRequest) (tok : Tokenizer τ) (toks : List τ)
    (n : Nat) (seq : Text) (committed streamed : List τ) : Prop where
  first : ∃ i, FirstMatch tok engine.toolParser.openTag req.stopSequences toks n i seq
  committed : committed =
    toks.take (lastFlush tok engine.toolParser.openTag req.stopSequences toks (n - 1))
  streamed : streamed = if req.streaming then
    toks.take (lastFlush tok engine.toolParser.openTag req.stopSequences toks (n - 1)) else []

/-- What a stop check on token `k` leads to: the request stops, or the invariant moves on. -/
def CheckOk (engine : Engine τ Call) (req : GenerationRequest) (toks : List τ) (k : Nat)
    (checked : Option Text × SlotState tok Call Lp) : Prop :=
  match checked.1 with
  | some seq => StoppedAt engine req tok toks (k + 1) seq
      (dropStopPendingFromCommitted checked.2).committedTokens
      (dropStopPendingFromCommitted checked.2).stream.flatten
  | none => checked.2.stop = none ∨ ∃ s', Buffered engine req toks (k + 1) checked.2 s'

variable {st' : SlotState tok Call Lp}

theorem Buffered.check (h : Buffered engine req toks k st s) {t : τ}
    (ht : toks.take (k + 1) = toks.take k ++ [t]) (hk : k < toks.length) (hstop : st'.stop = st.stop)
    (hstream : st'.stream = st.stream) (hcommitted : st'.committedTokens = st.committedTokens ++ [t]) :
    CheckOk engine req toks k (stopCheckToken req st' t) := by
  have hle := lastFlush_le tok engine.toolParser.openTag req.stopSequences toks k
  have hfed := h.tracked.feed hle ht hk
  have hverdict := hfed.verdict h.settled
  have hids := hfed.pendingIds
  have hlen : (s.feed t).stopPendingIds.length =
      k + 1 - lastFlush tok engine.toolParser.openTag req.stopSequences toks k := by
    rw [hids, length_drop, length_take]
    omega
  have hcommit : st'.committedTokens = toks.take (k + 1) := by rw [hcommitted, h.committed, ht]
  unfold CheckOk stopCheckToken
  simp only [hstop, h.stop]
  cases hv : (s.feed t).verdict with
  | matched seq =>
    rw [hv] at hverdict
    obtain ⟨i, hi⟩ := hverdict
    refine ⟨⟨i, by omega, hi, fun j hj => h.noMatch j (by omega)⟩, ?_, ?_⟩
    · simp only [dropStopPendingFromCommitted, hcommit, delLast, hlen]
      rw [if_neg (by omega), take_take, length_take]
      congr 1
      simp only [Nat.add_sub_cancel]
      omega
    · simpa [dropStopPendingFromCommitted, hstream] using h.stream
  | flush =>
    rw [hv] at hverdict
    have hnonempty : (s.feed t).stopPendingIds.isEmpty = false := by
      rw [isEmpty_eq_false_iff, ← length_pos_iff, hlen]
      omega
    have hflush := lastFlush_succ_of_not hverdict.2
    right
    refine ⟨{ s.feed t with stopPendingIds := [], stopPendingText := [] }, ?_⟩
    simp only [flushStopPending, hnonempty, Bool.false_eq_true, if_false]
    refine ⟨rfl, ?_, ?_, ?_, ?_⟩
    · simpa using hcommit
    · rw [hflush]
      simp only [streamPut_flatten, hstream, h.stream, hids]
      split_ifs
      · rw [show toks.take (lastFlush tok engine.toolParser.openTag req.stopSequences toks k) =
            (toks.take (k + 1)).take (lastFlush tok engine.toolParser.openTag req.stopSequences toks k) by
          rw [take_take, min_eq_left (by omega)]]
        exact take_append_drop _ _
      · rfl
    · rw [hflush]
      exact hfed.flush
    · intro j hj
      rcases lt_or_eq_of_le hj with hlt | rfl
      · exact h.noMatch j (by omega)
      · exact hverdict.1
  | withhold =>
    rw [hv] at hverdict
    have hflush := lastFlush_succ_of_heldBack hverdict.2
    right
    refine ⟨s.feed t, rfl, hcommit, ?_, ?_, ?_⟩
    · rw [hflush]
      simpa [hstream] using h.stream
    · rw [hflush]
      exact hfed
    · intro j hj
      rcases lt_or_eq_of_le hj with hlt | rfl
      · exact h.noMatch j (by omega)
      · exact hverdict.1

/-- The invariant of a request after `k` generated tokens. -/
def Phase.StopInv (engine : Engine τ Call) (req : GenerationRequest) (toks : List τ) (k : Nat) :
    Phase tok Call Lp → Prop
  | .running st => st.stop = none ∨ ∃ s, Buffered engine req toks k st s
  | .finished r => ∀ seq, r.matchedStopSequence = some seq →
      ∃ n, StoppedAt engine req tok toks n seq r.committedTokenIds r.stream.flatten

theorem Buffered.toolCheck (h : Buffered engine req toks k st s) (t : τ) :
    Buffered engine req toks k (toolCallCheckToken st t).2 s := by
  unfold toolCallCheckToken
  cases st.toolTracker with
  | none => exact h
  | some tracker => exact ⟨h.stop, h.committed, h.stream, h.tracked, h.noMatch⟩

theorem toolCallCheckToken_stop (st : SlotState tok Call Lp) (t : τ) :
    (toolCallCheckToken st t).2.stop = st.stop := by
  unfold toolCallCheckToken
  cases st.toolTracker <;> rfl

theorem plainTail_stopInv (h : st.stop = none ∨ ∃ s, Buffered engine req toks k st s) (t : τ) :
    (plainTail req st t).StopInv engine req toks k := by
  have htail : (toolCallCheckToken (putUnlessStop req st [t]) t).2.stop = none ∨
      ∃ s, Buffered engine req toks k (toolCallCheckToken (putUnlessStop req st [t]) t).2 s := by
    rcases h with hnone | ⟨s, hs⟩
    · left
      rw [toolCallCheckToken_stop, putUnlessStop, hnone]
      exact (streamPut_stop req st [t]).trans hnone
    · right
      refine ⟨s, ?_⟩
      have hput : putUnlessStop req st [t] = st := by simp [putUnlessStop, hs.stop]
      rw [hput]
      exact hs.toolCheck t
  unfold plainTail
  simp only
  split_ifs
  · intro seq hm
    simp at hm
  · intro seq hm
    simp at hm
  · exact htail

theorem freshSlot_buffered (engine : Engine τ Call) (req : GenerationRequest) (toks : List τ) :
    (freshSlot tok engine req : SlotState tok Call Lp).stop = none ∨
      ∃ s, Buffered engine req toks 0 (freshSlot tok engine req : SlotState tok Call Lp) s := by
  by_cases hs : req.stopSequences = []
  · left
    simp [freshSlot, hs]
  · right
    refine ⟨⟨req.stopSequences, new tok false engine.toolParser, [], []⟩, ?_, rfl, ?_, ?_, ?_⟩
    · simp [freshSlot, hs]
    · simp only [freshSlot, flatten_nil, lastFlush, Nat.findGreatest_zero, take_zero, ite_self]
    · exact Tracked.new
    · intro j hj
      obtain rfl : j = 0 := by omega
      exact (settled_nil _).1

/-- A token through the stop check, from a slot with or without stop sequences. -/
theorem stopCheckToken_ok (h : st.stop = none ∨ ∃ s, Buffered engine req toks k st s) {t : τ}
    (ht : toks.take (k + 1) = toks.take k ++ [t]) (hk : k < toks.length) (hstop : st'.stop = st.stop)
    (hstream : st'.stream = st.stream) (hcommitted : st'.committedTokens = st.committedTokens ++ [t]) :
    CheckOk engine req toks k (stopCheckToken req st' t) := by
  rcases h with hnone | ⟨s, hs⟩
  · rw [hnone] at hstop
    have hcheck : stopCheckToken req st' t = (none, st') := by simp [stopCheckToken, hstop]
    rw [hcheck]
    exact .inl hstop
  · exact hs.check ht hk hstop hstream hcommitted

theorem Buffered.put (h : Buffered engine req toks k st s) (ids : List τ) :
    putUnlessStop req st ids = st := by
  simp [putUnlessStop, h.stop]

variable [DecidableEq τ]

theorem plainRound_stopInv (h : st.stop = none ∨ ∃ s, Buffered engine req toks k st s) {t : τ}
    (ht : toks.take (k + 1) = toks.take k ++ [t]) (hk : k < toks.length) (lp : Option Lp) :
    (plainRound engine req st t lp).StopInv engine req toks (k + 1) := by
  obtain ⟨lps, hlps⟩ := logToken_eq req (appendCommitted st t) lp
  have hcheck : CheckOk engine req toks k
      (stopCheckToken req (logToken req (appendCommitted st t) lp) t) := by
    rw [hlps]
    exact stopCheckToken_ok h ht hk rfl rfl rfl
  unfold plainRound
  unfold CheckOk at hcheck
  split_ifs
  · intro seq hm
    simp at hm
  · intro seq hm
    simp at hm
  · simp only
    cases hm : (stopCheckToken req (logToken req (appendCommitted st t) lp) t).1 with
    | some seq =>
      rw [hm] at hcheck
      intro seq' hseq
      obtain rfl : seq = seq' := by simpa using hseq
      exact ⟨k + 1, hcheck⟩
    | none =>
      rw [hm] at hcheck
      exact plainTail_stopInv hcheck t

theorem activateSlot_stopInv (anchor : τ) (rest : List τ) :
    (activateSlot tok engine req anchor : Phase tok Call Lp).StopInv engine req (anchor :: rest) 1 := by
  have hcheck : CheckOk engine req (anchor :: rest) 0
      (stopCheckToken req (appendCommitted (freshSlot tok engine req : SlotState tok Call Lp) anchor) anchor) :=
    stopCheckToken_ok (freshSlot_buffered engine req _) (by simp) (by simp) rfl rfl rfl
  unfold activateSlot
  unfold CheckOk at hcheck
  split_ifs
  · intro seq hm
    simp at hm
  · simp only
    cases hm : (stopCheckToken req
        (appendCommitted (freshSlot tok engine req : SlotState tok Call Lp) anchor) anchor).1 with
    | some seq =>
      rw [hm] at hcheck
      intro seq' hseq
      obtain rfl : seq = seq' := by simpa using hseq
      exact ⟨1, hcheck⟩
    | none =>
      rw [hm] at hcheck
      simp only
      split_ifs
      · intro seq hm
        simp at hm
      · intro seq hm
        simp at hm
      · rcases hcheck with hnone | ⟨s, hs⟩
        · left
          rw [putUnlessStop, toolCallCheckToken_stop, hnone]
          exact (streamPut_stop req _ _).trans ((toolCallCheckToken_stop _ _).trans hnone)
        · have htool := hs.toolCheck anchor
          rw [htool.put]
          exact .inr ⟨s, htool⟩

theorem tokenwise_stopInv {ph : Phase tok Call Lp} (done rest : List τ)
    (h : ph.StopInv engine req (done ++ rest) done.length) :
    (tokenwise engine req ph rest).StopInv engine req (done ++ rest) (done ++ rest).length := by
  induction rest generalizing ph done with
  | nil => simpa using h
  | cons t rest ih =>
    rw [tokenwise_cons]
    have hsplit : done ++ t :: rest = (done ++ [t]) ++ rest := by simp
    rw [hsplit] at h ⊢
    refine ih (done ++ [t]) ?_
    cases ph with
    | finished r => exact h
    | running st =>
      have ht : ((done ++ [t]) ++ rest).take (done.length + 1) =
          ((done ++ [t]) ++ rest).take done.length ++ [t] := by
        simp [take_append]
      have hround := plainRound_stopInv h ht (by simp) none
      rw [length_append, length_singleton]
      exact hround

/-- When a request ends with a matched stop sequence, it keeps and streams exactly the tokens up to
the last flush before the token that completed the match. -/
theorem serve_stoppedAt {anchor : τ} {rounds : List (Round τ Lp)} {r : Result τ Lp} {seq : Text}
    (h : serve tok engine req anchor rounds = .finished r) (hm : r.matchedStopSequence = some seq) :
    ∃ n, StoppedAt engine req tok (anchor :: rounds.flatMap Round.tokens) n seq
      r.committedTokenIds r.stream.flatten := by
  have hagree : Phase.Agree req (serve tok engine req anchor rounds) _ :=
    serve_agree_tokenwise anchor rounds
  have hfirst : (activateSlot tok engine req anchor : Phase tok Call Lp).StopInv engine req
      ([anchor] ++ rounds.flatMap Round.tokens) 1 := activateSlot_stopInv anchor _
  have hinv := tokenwise_stopInv [anchor] (rounds.flatMap Round.tokens) hfirst
  rw [h] at hagree
  cases hph : tokenwise engine req (activateSlot tok engine req anchor : Phase tok Call Lp)
      (rounds.flatMap Round.tokens) with
  | running st =>
    rw [hph] at hagree
    exact hagree.elim
  | finished r' =>
    rw [hph] at hagree hinv
    obtain ⟨hcommitted, hstream, -, hmatched, -, -⟩ := hagree
    rw [hcommitted, hstream]
    exact hinv seq (hmatched ▸ hm)

end CommitLoop
