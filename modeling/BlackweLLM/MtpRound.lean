import BlackweLLM.MtpEngine

/-!
# One round keeps a slot in lockstep

A slot in lockstep with `toks` has consumed exactly these tokens, and holds one
more token that is committed but not consumed. A round verifies the anchor and
its drafts, and leaves the slot in lockstep with what it has kept of them.
-/

namespace MtpEngine

open List CausalModel KeyedLoop MtpAccept

variable {Tok Kv Gdn Hid Cache : Type}

/-- The target side of a slot has consumed `toks`. -/
structure TargetAt (E : Engine Tok Kv Gdn Hid Cache) (toks : List Tok) (s : E.SlotOf) : Prop where
  seen : s.numTokensSeen = toks.length
  attn : s.attnSeqLen = toks.length
  rows : readRows s.kv toks.length = (E.model.after toks).rows
  active : s.active ≤ E.k
  col : s.specStateCol = s.active
  gdn : s.columns s.active = (E.model.after toks).gdn

/-- The draft head has followed, and `anchor` is committed and waits for the next pass. -/
structure InLockstep (E : Engine Tok Kv Gdn Hid Cache) (toks : List Tok) (anchor : Tok)
    (s : E.SlotOf) : Prop extends TargetAt E toks s where
  kvLen : s.kvLen = toks.length
  sync : s.syncLen = toks.length
  mtp : s.mtpSeqLen = toks.length + (E.k - 1)
  record : s.committedTokens = toks ++ [anchor]

/-- Behind a verify pass every prefix of the tokens can be kept: its rows are in the cache and its
state is a candidate. -/
structure Candidates (E : Engine Tok Kv Gdn Hid Cache) (toks tokens : List Tok) (s : E.SlotOf)
    (snapshots : Option (List Gdn)) : Prop where
  active : s.active ≤ E.k
  col : s.specStateCol = s.active
  rows : ∀ n ≤ tokens.length, readRows s.kv (toks.length + n) = (E.model.after (toks ++ tokens.take n)).rows
  column : E.path ≠ .snapshots → snapshots = none ∧
    ∀ m < tokens.length, s.columns m = (E.model.after (toks ++ tokens.take (m + 1))).gdn
  snapshot : E.path = .snapshots → ∃ states, snapshots = some states ∧
    ∀ m < tokens.length, states[m + 1]? = some (E.model.after (toks ++ tokens.take (m + 1))).gdn

variable {E : Engine Tok Kv Gdn Hid Cache} {s : E.SlotOf} {toks drafts : List Tok} {anchor : Tok}
  {snapshots : Option (List Gdn)}

theorem TargetAt.context (h : TargetAt E toks s) :
    (⟨readRows s.kv toks.length, s.columns s.active⟩ : Context Kv Gdn) = E.model.after toks := by
  rw [h.rows, h.gdn]

theorem rows_candidates (h : TargetAt E toks s) (tokens : List Tok) {n : Nat} (hn : n ≤ tokens.length) :
    readRows (writeRows s.kv toks.length ((E.model.forward (E.model.after toks) tokens).map (·.1)))
      (toks.length + n) = (E.model.after (toks ++ tokens.take n)).rows := by
  rw [readRows_writeRows _ _ _ (by simpa using hn), h.rows, rows_after_take]

theorem column_candidates (columns : Nat → Gdn) (tokens : List Tok) {m : Nat} (hm : m < tokens.length) :
    writeRows columns 0 ((E.model.forward (E.model.after toks) tokens).map (·.2.1)) m =
      (E.model.after (toks ++ tokens.take (m + 1))).gdn := by
  have hstate := E.model.getElem?_states toks tokens hm
  simp only [writeRows, Nat.zero_le, if_true, Nat.sub_zero, getD_eq_getElem?_getD, hstate,
    Option.getD_some]

/-- On every path the pass runs behind exactly the consumed tokens. -/
theorem verifyForward_eq (h : TargetAt E toks s) (tokens : List Tok)
    (hroom : toks.length + tokens.length ≤ E.maxSeqLen) :
    ∃ kv attnSeqLen columns snapshots,
      verifyForward E s tokens s.numTokensSeen =
        .ok ({ s with kv := kv, attnSeqLen := attnSeqLen, columns := columns },
          (E.model.forward (E.model.after toks) tokens).map (·.2.2), snapshots) ∧
      Candidates E toks tokens { s with kv := kv, attnSeqLen := attnSeqLen, columns := columns }
        snapshots := by
  have hfit : ¬ E.maxSeqLen < toks.length + tokens.length := by omega
  cases hpath : E.path with
  | graph =>
    simp only [verifyForward, hpath, h.seen, hfit, if_false, h.col, h.context]
    exact ⟨_, _, _, _, rfl, h.active, rfl, fun n hn => rows_candidates h tokens hn, fun _ =>
      ⟨rfl, fun m hm => column_candidates _ _ hm⟩, fun hsnap => by simp [hpath] at hsnap⟩
  | rows =>
    simp only [verifyForward, hpath, h.attn, hfit, if_false, h.context]
    exact ⟨_, _, _, _, rfl, h.active, h.col, fun n hn => rows_candidates h tokens hn, fun _ =>
      ⟨rfl, fun m hm => column_candidates _ _ hm⟩, fun hsnap => by simp [hpath] at hsnap⟩
  | snapshots =>
    simp only [verifyForward, hpath, h.attn, hfit, if_false, h.context]
    refine ⟨_, _, s.columns, _, rfl, h.active, h.col, fun n hn => rows_candidates h tokens hn, fun hne =>
      absurd hpath hne, fun _ => ⟨_, rfl, fun m hm => ?_⟩⟩
    rw [getElem?_cons_succ]
    exact E.model.getElem?_states toks tokens hm

theorem verifyForward_full (h : TargetAt E toks s) {tokens : List Tok}
    (hfull : E.maxSeqLen < toks.length + tokens.length) :
    ∃ e, verifyForward E s tokens s.numTokensSeen = .error e := by
  cases hpath : E.path with
  | graph =>
    simp only [verifyForward, hpath, h.seen, hfull, if_true]
    exact ⟨_, rfl⟩
  | rows =>
    simp only [verifyForward, hpath, h.attn, hfull, if_true]
    exact ⟨_, rfl⟩
  | snapshots =>
    simp only [verifyForward, hpath, h.attn, hfull, if_true]
    exact ⟨_, rfl⟩

/-- Keeping `m` drafts selects the state behind the anchor and these drafts. -/
theorem commitRequest_eq (h : Candidates E toks (anchor :: drafts) s snapshots) (hdrafts : drafts.length ≤ E.k)
    (hiddens : List Hid) (rejectedAt : Option Nat)
    {m : Nat} (hm : m ≤ drafts.length) {committed init : List Tok} {newAnchor : Tok}
    (hcommitted : committed = init ++ [newAnchor]) :
    ∃ s', commitRequest E ⟨anchor, toks.length, hiddens, snapshots, ⟨m, committed, rejectedAt⟩⟩ s =
        .ok (s', ⟨committed, m, newAnchor, committed, hiddens.take (m + 1)⟩) ∧
      TargetAt E (toks ++ (anchor :: drafts).take (m + 1)) s' ∧
      s'.kvLen = toks.length + (m + 1) ∧ s'.syncLen = s.syncLen ∧
      s'.committedTokens = s.committedTokens ++ committed := by
  have hlt : m < (anchor :: drafts).length := Nat.lt_succ_of_le hm
  have hk : m ≤ E.k := Nat.le_trans hm hdrafts
  have hlen : (toks ++ (anchor :: drafts).take (m + 1)).length = toks.length + (m + 1) := by
    simp only [length_append, length_take]
    omega
  have hrows := h.rows (m + 1) hlt
  have hshifted : (anchor :: committed.dropLast).drop 1 ++ [newAnchor] = committed := by simp [hcommitted]
  have hlast : committed.getLast? = some newAnchor := by simp [hcommitted]
  by_cases hpath : E.path = .snapshots
  · obtain ⟨states, hsnap, hstate⟩ := h.snapshot hpath
    simp only [commitRequest, hlast, commitVerify, hsnap, hstate m hlt, hpath, if_true, hshifted]
    refine ⟨_, rfl, ?_, rfl, rfl, rfl⟩
    exact ⟨hlen.symm, hlen.symm, by rw [hlen, hrows], h.active, h.col, Function.update_self ..⟩
  · obtain ⟨hsnap, hstate⟩ := h.column hpath
    simp only [commitRequest, hlast, commitVerify, hsnap, hpath, if_false, activate, Nat.not_lt.mpr hk, hshifted]
    refine ⟨_, rfl, ?_, rfl, rfl, rfl⟩
    exact ⟨hlen.symm, hlen.symm, by rw [hlen, hrows], hk, rfl, hstate m hlt⟩

theorem TargetAt.draftHead (h : TargetAt E toks s) (cache : Cache) (mtpSeqLen syncLen : Nat) :
    TargetAt E toks { s with mtpCache := cache, mtpSeqLen := mtpSeqLen, syncLen := syncLen } :=
  ⟨h.seen, h.attn, h.rows, h.active, h.col, h.gdn⟩

theorem syncRequest_eq (h : TargetAt E toks s) {c : Committed Tok Hid} (hne : c.shifted ≠ [])
    (hlen : c.hiddens.length = c.shifted.length) :
    ∃ s' firstDraft firstHidden, syncRequest E c s = .ok (s', ⟨c, firstDraft, firstHidden⟩) ∧
      TargetAt E toks s' ∧ s'.syncLen = s.syncLen + c.shifted.length ∧
      s'.mtpSeqLen = s.syncLen + c.shifted.length ∧ s'.kvLen = s.kvLen ∧
      s'.committedTokens = s.committedTokens := by
  simp only [syncRequest, syncRealSuffix, hne, if_false, hlen, ne_eq, not_true_eq_false]
  exact ⟨_, _, _, rfl, h.draftHead _ _ _, rfl, rfl, rfl, rfl⟩

theorem draftSteps_seqLen (mtp : DraftHead Tok Hid Cache) (n : Nat) (cache : Cache) (seqLen : Nat) (token : Tok)
    (hidden : Hid) : (draftSteps mtp n cache seqLen token hidden).2.1 = seqLen + n := by
  induction n generalizing cache seqLen token hidden with
  | zero => rfl
  | succ n ih =>
    rw [draftSteps]
    simp only [ih]
    omega

theorem continueDraft_eq (h : TargetAt E toks s) (firstDraft : Tok) (firstHidden : Hid) :
    ∃ s' next, continueDraft E s firstDraft firstHidden = (s', next) ∧ TargetAt E toks s' ∧
      s'.syncLen = s.syncLen ∧ s'.mtpSeqLen = s.mtpSeqLen + (E.k - 1) ∧ s'.kvLen = s.kvLen ∧
      s'.committedTokens = s.committedTokens := by
  simp only [continueDraft]
  split_ifs with hk
  · exact ⟨s, _, rfl, h, rfl, by omega, rfl, rfl⟩
  · exact ⟨_, _, rfl, h.draftHead _ _ _, rfl, draftSteps_seqLen .., rfl, rfl⟩

section Round

variable [DecidableEq Tok] {accept : List Tok → List Tok → Except AcceptError (Decision Tok)}

/-- What a round has done: it has committed the next greedy tokens and consumed all but the last. -/
structure Advanced (E : Engine Tok Kv Gdn Hid Cache) (toks : List Tok) (anchor : Tok) (s' : E.SlotOf)
    (out : RoundResult Tok) : Prop where
  greedy : out.committed = E.model.greedy (toks ++ [anchor]) (out.numAccepted + 1)
  last : out.committed = out.committed.dropLast ++ [out.nextAnchor]
  lockstep : InLockstep E (toks ++ anchor :: out.committed.dropLast) out.nextAnchor s'

/-- Both accept rules, seen from a round of `K` drafts. -/
def DecidesGreedily (E : Engine Tok Kv Gdn Hid Cache)
    (accept : List Tok → List Tok → Except AcceptError (Decision Tok)) : Prop :=
  ∀ anchor drafts predicted, drafts.length = E.k → predicted.length = drafts.length + 1 →
    accept (anchor :: drafts) predicted = .ok (acceptFrom 0 drafts predicted)

theorem decidesGreedily_predictions : DecidesGreedily E determineAcceptRejectFromPredictions := by
  intro anchor drafts predicted _ hlen
  simp [determineAcceptRejectFromPredictions, hlen]

theorem decidesGreedily_batch (onDevice : Bool) : DecidesGreedily E (batchAccept E onDevice) := by
  intro anchor drafts predicted hdrafts hlen
  rw [batchAccept, ← hdrafts, ← batchDecision_eq onDevice anchor drafts predicted hlen]
  simp [determineAcceptRejectFromPredictions, hlen]

/-- Each accept rule keeps the drafts that the predictions of the pass match. -/
theorem verifyRequest_eq (haccept : DecidesGreedily E accept) (h : TargetAt E toks s)
    (hdrafts : drafts.length = E.k) (hroom : toks.length + (E.k + 1) ≤ E.maxSeqLen) {predicted : List Tok}
    (hpredicted : predicted = E.model.predictions (E.model.after toks) (anchor :: drafts)) :
    ∃ s' hiddens snapshots rejectedAt,
      verifyRequest E accept ⟨anchor, drafts⟩ s = .ok (s', ⟨anchor, toks.length, hiddens, snapshots,
        ⟨matched drafts predicted, predicted.take (matched drafts predicted + 1), rejectedAt⟩⟩) ∧
      Candidates E toks (anchor :: drafts) s' snapshots ∧ hiddens.length = drafts.length + 1 ∧
      s'.syncLen = s.syncLen ∧ s'.committedTokens = s.committedTokens := by
  obtain ⟨kv, attnSeqLen, columns, snapshots, hforward, hcand⟩ :=
    verifyForward_eq h (anchor :: drafts) (by simp; omega)
  have hlen : predicted.length = drafts.length + 1 := by simp [hpredicted]
  have hargmax : ((E.model.forward (E.model.after toks) (anchor :: drafts)).map (·.2.2)).map E.model.argmax =
      predicted := by
    simp [hpredicted, predictions]
  have hdecision := haccept anchor drafts predicted hdrafts hlen
  rw [acceptFrom_eq 0 drafts predicted hlen, Nat.zero_add] at hdecision
  rw [verifyRequest, hforward]
  simp only [hargmax, hdecision, h.seen]
  exact ⟨_, _, _, _, rfl, by simpa only [h.seen] using hcand, by simp, rfl, rfl⟩

/-- A round with `K` drafts and room for them succeeds, and keeps the slot in lockstep. -/
theorem roundPhases_advances (haccept : DecidesGreedily E accept) (h : InLockstep E toks anchor s)
    (hdrafts : drafts.length = E.k) (hroom : toks.length + (E.k + 1) ≤ E.maxSeqLen) :
    ∃ s' out, roundPhases E accept ⟨anchor, drafts⟩ s = .ok (s', out) ∧ Advanced E toks anchor s' out := by
  have hcheck : checkRequest E ⟨anchor, drafts⟩ s = .ok (s, ⟨anchor, drafts⟩) := by
    simp [checkRequest, hdrafts, h.mtp, h.sync]
  obtain ⟨predicted, hpredicted⟩ :
      ∃ predicted, predicted = E.model.predictions (E.model.after toks) (anchor :: drafts) := ⟨_, rfl⟩
  obtain ⟨s₁, hiddens, snapshots, rejectedAt, hverify, hcand, hhiddens, hsync₁, hrecord₁⟩ :=
    verifyRequest_eq haccept h.toTargetAt hdrafts hroom hpredicted
  have hm := matched_le drafts predicted
  have hmatched := take_matched drafts predicted
  have hgreedy := E.model.take_predictions_eq_greedy toks drafts anchor hm (by rw [hmatched, hpredicted])
  rw [← hpredicted] at hgreedy
  generalize matched drafts predicted = m at hverify hm hmatched hgreedy
  have hlt : m < predicted.length := by simp [hpredicted]; omega
  have hlast := take_succ_eq_append_getElem hlt
  have hkept : (anchor :: drafts).take (m + 1) = anchor :: (predicted.take (m + 1)).dropLast := by
    rw [hlast, dropLast_concat, take_succ_cons, hmatched]
  obtain ⟨s₂, hcommit, htarget, hkvLen, hsync₂, hrecord₂⟩ :=
    commitRequest_eq hcand (Nat.le_of_eq hdrafts) hiddens rejectedAt hm hlast
  generalize hc : Committed.mk _ _ _ _ _ = c at hcommit
  have hshifted : c.shifted = predicted.take (m + 1) := by rw [← hc]
  have hshiftedLen : c.shifted.length = m + 1 := by rw [hshifted, length_take_of_le hlt]
  have hhiddensLen : c.hiddens.length = m + 1 := by
    rw [← hc, length_take_of_le (by omega)]
  obtain ⟨s₃, firstDraft, firstHidden, hsuffix, htarget₃, hsync₃, hmtp₃, hkvLen₃, hrecord₃⟩ :=
    syncRequest_eq htarget (ne_nil_of_length_eq_add_one hshiftedLen) (hhiddensLen.trans hshiftedLen.symm)
  obtain ⟨s₄, next, htail, htarget₄, hsync₄, hmtp₄, hkvLen₄, hrecord₄⟩ :=
    continueDraft_eq htarget₃ firstDraft firstHidden
  have hlen : (toks ++ (anchor :: drafts).take (m + 1)).length = toks.length + (m + 1) := by
    simp [hm]
  have hphases : roundPhases E accept ⟨anchor, drafts⟩ s =
      .ok (s₄, ⟨predicted.take (m + 1), m, predicted[m], next⟩) := by
    simp only [roundPhases, andThen, hcheck, hverify, hcommit, hsuffix, continueRequest, htail]
    rw [← hc]
  rw [hkept] at htarget₄ hlen
  refine ⟨s₄, _, hphases, hgreedy, by rw [hlast, dropLast_concat], htarget₄, ?_, ?_, ?_, ?_⟩
  · rw [hlen, hkvLen₄, hkvLen₃, hkvLen]
  · rw [hlen, hsync₄, hsync₃, hsync₂, hsync₁, h.sync, hshiftedLen]
  · rw [hlen, hmtp₄, hmtp₃, hsync₂, hsync₁, h.sync, hshiftedLen]
  · rw [hrecord₄, hrecord₃, hrecord₂, hrecord₁, h.record, hlast, dropLast_concat]
    simp

omit [DecidableEq Tok] in
theorem roundPhases_room (h : InLockstep E toks anchor s) {s' : E.SlotOf} {out : RoundResult Tok}
    (hok : roundPhases E accept ⟨anchor, drafts⟩ s = .ok (s', out)) :
    drafts.length = E.k ∧ toks.length + (E.k + 1) ≤ E.maxSeqLen := by
  by_cases hdrafts : drafts.length = E.k
  · refine ⟨hdrafts, Nat.not_lt.mp fun hfull => ?_⟩
    have hcheck : checkRequest E ⟨anchor, drafts⟩ s = .ok (s, ⟨anchor, drafts⟩) := by
      simp [checkRequest, hdrafts, h.mtp, h.sync]
    obtain ⟨e, he⟩ := verifyForward_full h.toTargetAt
      (show E.maxSeqLen < toks.length + (anchor :: drafts).length by simpa [hdrafts] using hfull)
    simp [roundPhases, andThen, hcheck, verifyRequest, he] at hok
  · simp [roundPhases, andThen, checkRequest, hdrafts] at hok

/-- What a successful round has done, by either accept rule. -/
theorem roundPhases_sound (haccept : DecidesGreedily E accept) (h : InLockstep E toks anchor s)
    {s' : E.SlotOf} {out : RoundResult Tok}
    (hok : roundPhases E accept ⟨anchor, drafts⟩ s = .ok (s', out)) : Advanced E toks anchor s' out := by
  obtain ⟨hdrafts, hroom⟩ := roundPhases_room h hok
  obtain ⟨s₁, out₁, hround, hadvanced⟩ := roundPhases_advances haccept h hdrafts hroom
  cases hround.symm.trans hok
  exact hadvanced

/-- The accept rule of `round_batch`. -/
def acceptOf (E : Engine Tok Kv Gdn Hid Cache) (onDevice : Bool) :
    List Tok → List Tok → Except AcceptError (Decision Tok) :=
  if E.path = .graph then batchAccept E onDevice else determineAcceptRejectFromPredictions

theorem decidesGreedily_acceptOf (onDevice : Bool) : DecidesGreedily E (acceptOf E onDevice) := by
  rw [acceptOf]
  split_ifs
  · exact decidesGreedily_batch onDevice
  · exact decidesGreedily_predictions

/-- Phase by phase over all slots or slot by slot, a batch is a round of each of its slots. -/
theorem roundBatch_iff {onDevice : Bool} {requests : List (Nat × Request Tok)} {table table' : Nat → E.SlotOf}
    {outs : List (RoundResult Tok)} (hnodup : (requests.map Prod.fst).Nodup) :
    roundBatch E onDevice requests table = .ok (table', outs) ↔
      Pointwise (roundPhases E (acceptOf E onDevice)) requests table table' outs := by
  rw [← eachRequest_iff hnodup, acceptOf]
  cases hpath : E.path with
  | graph =>
    simp only [roundBatch, hpath, if_true, roundPhases]
    -- the phases are fused one by one, from the last to the first
    apply thenEach_iff_andThen hnodup
    intro _ _
    apply thenEach_iff_andThen hnodup
    intro _ _
    apply thenEach_iff_andThen hnodup
    intro _ _
    apply thenEach_iff_andThen hnodup
    intro _ _
    rfl
  | rows => simp [roundBatch, hpath, round]
  | snapshots => simp [roundBatch, hpath, round]

end Round

end MtpEngine
