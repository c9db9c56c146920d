import BlackweLLM.RoundBatching

/-!
# Capacity admission

`capacity_ok` of `server/engine.py` admits a request when its prompt, its token
budget and K speculative tokens fit the slot. Beside it stand the positions the
drivers reach for an admitted request: `decode` and the MTP `round` of the Qwen
backend, the `dflash_round` of the Laguna backend. The draft behind a verify
starts after the accepted tokens, and may reach further than the reservation.
-/

namespace CapacityAdmission

open List CommitLoop PythonText StreamProcessor

def numSpeculativeTokens : Nat := 15

/-- `NUM_QUERY_PER_REQ`: the bonus token and the mask tokens. -/
def numQueryPerReq : Nat := 16

inductive Driver where
  | plain
  | mtp (k : Nat)
  | dflash
  deriving DecidableEq, Repr

def Driver.K : Driver → Nat
  | .plain => 0
  | .mtp k => k
  | .dflash => numSpeculativeTokens

def capacityOk (d : Driver) (capacity promptLen : Nat) (maxTokens : Int) : Prop :=
  promptLen + maxTokens + d.K ≤ capacity

instance (d : Driver) (capacity promptLen : Nat) (maxTokens : Int) :
    Decidable (capacityOk d capacity promptLen maxTokens) :=
  inferInstanceAs (Decidable (_ ≤ _))

/-- The lengths a backend keeps for a slot. `syncLen` is the teacher-forced length of the MTP cache. -/
structure Lengths where
  kvLen : Nat
  syncLen : Nat
  deriving DecidableEq, Repr

/-- The rows of a draft. The first MTP draft comes from the synchronisation, only the K-1
continuation steps write rows. -/
def Driver.draftRows : Driver → Nat
  | .plain => 0
  | .mtp k => k - 1
  | .dflash => numQueryPerReq

def Driver.draftFrom (lens : Lengths) : Driver → Nat
  | .mtp _ => lens.syncLen
  | _ => lens.kvLen

/-- The draft that is made once the slot holds `lens`. -/
def Driver.draft (d : Driver) (lens : Lengths) : List Nat := range' (d.draftFrom lens) d.draftRows

def Driver.prefilled (promptLen : Nat) : Driver → Lengths
  | .mtp _ => ⟨promptLen, promptLen⟩
  | _ => ⟨promptLen, 0⟩

/-- Prefill and the drafts made behind its last chunk. A restored prefix is read where it is not
written. -/
def Driver.prefill (d : Driver) (promptLen : Nat) : List Nat :=
  range promptLen ++ d.draft (d.prefilled promptLen)

/-- What one scheduler round brings for the slot. `width` is the longest accepted run of the
batch, to which the ragged MTP synchronisation pads every slot. -/
inductive Turn (τ Lp : Type) where
  | decode (token : τ) (lp : Option Lp)
  | verify (tokens : List τ) (width : Nat) (lps : Option (List Lp))

def Turn.round {τ Lp : Type} : Turn τ Lp → Round τ Lp
  | .decode t lp => .plain t lp
  | .verify ts _ lps => .speculative ts lps

/-- A verify commits the accepted drafts and one token more. -/
def Driver.Yields {τ Lp : Type} (d : Driver) : Turn τ Lp → Prop
  | .decode _ _ => True
  | .verify ts width _ => d ≠ .plain ∧ ts ≠ [] ∧ ts.length ≤ width ∧ width ≤ d.K + 1

def Driver.advance {τ Lp : Type} (lens : Lengths) : Driver → Turn τ Lp → Lengths
  | _, .decode _ _ => { lens with kvLen := lens.kvLen + 1 }
  | .mtp _, .verify ts _ _ => ⟨lens.kvLen + ts.length, lens.syncLen + ts.length⟩
  | _, .verify ts _ _ => { lens with kvLen := lens.kvLen + ts.length }

/-- The rows behind the verify that make the committed tokens context of the draft. -/
def Driver.sync {τ : Type} (lens : Lengths) (ts : List τ) (width : Nat) : Driver → List Nat
  | .plain => []
  | .mtp _ => range' lens.syncLen width
  | .dflash => range' lens.kvLen ts.length

/-- The positions one round touches, in order. -/
def Driver.reach {τ Lp : Type} (d : Driver) (lens : Lengths) : Turn τ Lp → List Nat
  | .decode _ _ => [lens.kvLen]
  | .verify ts width lps =>
    range' lens.kvLen (d.K + 1) ++ d.sync lens ts width ++
      d.draft (d.advance lens (.verify ts width lps))

variable {τ Call Lp : Type} {tok : Tokenizer τ}

section Bookkeeping

variable {engine : Engine τ Call} {req : GenerationRequest} {st st' : SlotState tok Call Lp}

@[simp] theorem putUnlessStop_committedTokens (st : SlotState tok Call Lp) (ids : List τ) :
    (putUnlessStop req st ids).committedTokens = st.committedTokens := by
  unfold putUnlessStop
  split_ifs
  · rfl
  · exact streamPut_committedTokens req st ids

@[simp] theorem flushStopPending_committedTokens (st : SlotState tok Call Lp) :
    (flushStopPending req st).committedTokens = st.committedTokens := by
  unfold flushStopPending
  cases st.stop with
  | none => rfl
  | some s =>
    simp only
    split_ifs
    · rfl
    · exact streamPut_committedTokens req st s.stopPendingIds

@[simp] theorem stopCheckToken_committedTokens (st : SlotState tok Call Lp) (t : τ) :
    (stopCheckToken req st t).2.committedTokens = st.committedTokens := by
  unfold stopCheckToken
  cases st.stop with
  | none => rfl
  | some s =>
    simp only
    cases (s.feed t).verdict with
    | matched seq => rfl
    | flush => exact flushStopPending_committedTokens _
    | withhold => rfl

@[simp] theorem toolCallCheckToken_committedTokens (st : SlotState tok Call Lp) (t : τ) :
    (toolCallCheckToken st t).2.committedTokens = st.committedTokens := by
  unfold toolCallCheckToken
  cases st.toolTracker with
  | none => rfl
  | some tracker => rfl

theorem logToken_committedTokens (st : SlotState tok Call Lp) (lp : Option Lp) :
    (logToken req st lp).committedTokens = st.committedTokens := by
  obtain ⟨lps, h⟩ := logToken_eq req st lp
  rw [h]

theorem plainTail_running {t : τ} (h : plainTail req st t = .running st') :
    st'.committedTokens = st.committedTokens := by
  unfold plainTail at h
  simp only at h
  split_ifs at h with hcomplete hlen
  · exact nomatch h
  · exact nomatch h
  · have hst := Phase.running.inj h
    rw [← hst, toolCallCheckToken_committedTokens, putUnlessStop_committedTokens]

variable [DecidableEq τ]

/-- A request that stays in its slot has committed the token of the round. -/
theorem plainRound_running {t : τ} {lp : Option Lp} (h : plainRound engine req st t lp = .running st') :
    st'.committedTokens = st.committedTokens ++ [t] := by
  unfold plainRound at h
  split_ifs at h with hlen heos
  · exact nomatch h
  · exact nomatch h
  · simp only at h
    split at h
    · exact nomatch h
    rw [plainTail_running h, stopCheckToken_committedTokens, logToken_committedTokens]
    rfl

theorem tokenwise_running {ts : List τ} (h : tokenwise engine req (.running st) ts = .running st') :
    st'.committedTokens = st.committedTokens ++ ts := by
  induction ts generalizing st with
  | nil =>
    rw [Phase.running.inj h, append_nil]
  | cons t ts ih =>
    rw [tokenwise_cons] at h
    cases hround : step engine req (.running st) (.plain t none) with
    | finished r =>
      rw [hround, tokenwise_finished] at h
      exact nomatch h
    | running mid =>
      rw [hround] at h
      rw [ih h, plainRound_running hround, append_assoc, singleton_append]

/-- Either kind of round commits all its tokens to a request that stays in its slot. -/
theorem step_running {r : Round τ Lp} (hopen : ¬ lengthReached req st)
    (h : step engine req (.running st) r = .running st') :
    st'.committedTokens = st.committedTokens ++ r.tokens ∧ ¬ lengthReached req st' := by
  have hrunning : (Phase.running st : Phase tok Call Lp).Open req := hopen
  have hagree : Phase.Agree req (step engine req (.running st) r) (tokenwise engine req (.running st) r.tokens) :=
    step_agree hrunning r
  rw [h] at hagree
  cases htokens : tokenwise engine req (.running st) r.tokens with
  | finished res =>
    rw [htokens] at hagree
    exact hagree.elim
  | running mid =>
    rw [htokens] at hagree
    have hmid : (Phase.running mid : Phase tok Call Lp).Open req := by
      rw [← htokens]
      exact tokenwise_open hrunning _
    exact ⟨hagree.committed.trans (tokenwise_running htokens), hagree.open_iff.mpr hmid⟩

theorem activateSlot_running {anchor : τ}
    (h : activateSlot tok engine req anchor = .running st) : st.committedTokens = [anchor] := by
  unfold activateSlot at h
  split_ifs at h
  simp only at h
  split at h
  · exact nomatch h
  · split_ifs at h with hcomplete hlen
    · exact nomatch h
    · exact nomatch h
    have hst := Phase.running.inj h
    rw [← hst, putUnlessStop_committedTokens, toolCallCheckToken_committedTokens,
      stopCheckToken_committedTokens]
    rfl

end Bookkeeping

section Reach

variable {d : Driver} {promptLen : Nat}

theorem Driver.draftRows_le (d : Driver) : d.draftRows ≤ d.K + 1 := by
  cases d with
  | plain => exact Nat.zero_le _
  | mtp k => exact (Nat.sub_le k 1).trans (Nat.le_succ k)
  | dflash => exact le_refl _

theorem Driver.draftFrom_le {lens : Lengths} (h : lens.syncLen ≤ lens.kvLen) (d : Driver) :
    d.draftFrom lens ≤ lens.kvLen := by
  cases d with
  | plain => exact le_refl _
  | mtp k => exact h
  | dflash => exact le_refl _

theorem Driver.prefilled_kvLen (d : Driver) (promptLen : Nat) : (d.prefilled promptLen).kvLen = promptLen := by
  cases d <;> rfl

theorem Driver.prefilled_syncLen_le (d : Driver) (promptLen : Nat) :
    (d.prefilled promptLen).syncLen ≤ promptLen := by
  cases d with
  | plain => exact Nat.zero_le _
  | mtp k => exact Nat.le_refl _
  | dflash => exact Nat.zero_le _

theorem Driver.advance_kvLen (d : Driver) (lens : Lengths) (turn : Turn τ Lp) :
    (d.advance lens turn).kvLen = lens.kvLen + turn.round.tokens.length := by
  cases turn with
  | decode t lp => cases d <;> rfl
  | verify ts width lps => cases d <;> rfl

theorem Driver.advance_syncLen_le {lens : Lengths} (h : lens.syncLen ≤ lens.kvLen) (d : Driver)
    (turn : Turn τ Lp) : (d.advance lens turn).syncLen ≤ (d.advance lens turn).kvLen := by
  cases turn with
  | decode t lp => cases d <;> exact Nat.le_succ_of_le h
  | verify ts width lps =>
    cases d with
    | plain => exact Nat.le_add_right_of_le h
    | mtp k => exact Nat.add_le_add_right h _
    | dflash => exact Nat.le_add_right_of_le h

theorem Driver.prefill_lt {p : Nat} (h : p ∈ d.prefill promptLen) : p < promptLen + d.K + 1 := by
  rcases mem_append.mp h with h | h
  · have := mem_range.mp h
    omega
  · have hrows := d.draftRows_le
    have hfrom : d.draftFrom (d.prefilled promptLen) ≤ (d.prefilled promptLen).kvLen := d.draftFrom_le
      (by rw [d.prefilled_kvLen]; exact d.prefilled_syncLen_le promptLen)
    rw [d.prefilled_kvLen] at hfrom
    have := (mem_range'_1.mp h).2
    omega

/-- A verify stays K positions past the first uncommitted one; the draft behind it starts K+1
positions past it at most. -/
theorem Driver.reach_lt {lens : Lengths} {turn : Turn τ Lp} {p : Nat} (hsync : lens.syncLen ≤ lens.kvLen)
    (hyields : d.Yields turn) (h : p ∈ d.reach lens turn) :
    p < lens.kvLen + d.K + 1 + d.draftRows := by
  cases turn with
  | decode t lp =>
    have := mem_singleton.mp h
    omega
  | verify ts width lps =>
    obtain ⟨-, -, hlen, hwidth⟩ := hyields
    rcases mem_append.mp h with h | h
    · rcases mem_append.mp h with h | h
      · have := (mem_range'_1.mp h).2
        omega
      · cases d with
        | plain => exact absurd h not_mem_nil
        | mtp k =>
          have := (mem_range'_1.mp h).2
          omega
        | dflash =>
          have := (mem_range'_1.mp h).2
          omega
    · have hkv := d.advance_kvLen lens (.verify ts width lps)
      have hfrom := d.draftFrom_le (d.advance_syncLen_le hsync (.verify ts width lps))
      have hp := (mem_range'_1.mp h).2
      change (d.advance lens (.verify ts width lps)).kvLen = lens.kvLen + ts.length at hkv
      omega

end Reach

/-- A request in its slot, with the positions touched for it so far and the number of tokens it
had committed at the start of each of its rounds. -/
structure Served (tok : Tokenizer τ) (Call Lp : Type) where
  phase : Phase tok Call Lp
  lens : Lengths
  touched : List Nat
  startedAt : List Nat

variable [DecidableEq τ] (tok) (engine : Engine τ Call) (req : GenerationRequest) (d : Driver)

def admitted (promptLen : Nat) (anchor : τ) : Served tok Call Lp where
  phase := activateSlot tok engine req anchor
  lens := d.prefilled promptLen
  touched := d.prefill promptLen
  startedAt := []

variable {tok}

/-- One round. The slot of a finished request takes no part in it. -/
def round (s : Served tok Call Lp) (turn : Turn τ Lp) : Served tok Call Lp :=
  match s.phase with
  | .finished _ => s
  | .running st =>
    { phase := step engine req (.running st) turn.round
      lens := d.advance s.lens turn
      touched := s.touched ++ d.reach s.lens turn
      startedAt := s.startedAt ++ [st.committedTokens.length] }

variable (tok)

def run (promptLen : Nat) (anchor : τ) (turns : List (Turn τ Lp)) : Served tok Call Lp :=
  turns.foldl (round engine req d) (admitted tok engine req d promptLen anchor)

variable {tok}

/-- `decode_write_index` of a fixed arena: the cell of a position of a slot. -/
def decodeWriteIndex (slot position pageSize pagesPerSlot : Nat) : Nat :=
  (slot * pagesPerSlot + position / pageSize) * pageSize + position % pageSize

/-- Nothing lies past the slot, and no round began for a request that already had its tokens. -/
structure Within (capacity : Nat) (maxTokens : Int) (s : Served tok Call Lp) : Prop where
  below : ∀ p ∈ s.touched, p < capacity
  unfinished : ∀ c ∈ s.startedAt, (c : Int) < maxTokens

section Admitted

variable {engine req d} {capacity promptLen : Nat}
variable {st : SlotState tok Call Lp} {s : Served tok Call Lp}

/-- While a request runs its slot holds the prompt and all committed tokens but the pending one. -/
structure Ledger (req : GenerationRequest) (promptLen : Nat) (s : Served tok Call Lp)
    (st : SlotState tok Call Lp) : Prop where
  unfinished : ¬ lengthReached req st
  kvLen : s.lens.kvLen + 1 = promptLen + st.committedTokens.length
  syncLen : s.lens.syncLen ≤ s.lens.kvLen

variable {anchor : τ}

theorem ledger_admitted (h : (admitted tok engine req d promptLen anchor).phase = .running st) :
    Ledger req promptLen (admitted tok engine req d promptLen anchor) st where
  unfinished := by
    have hopen : (activateSlot tok engine req anchor : Phase tok Call Lp).Open req := activateSlot_open anchor
    change activateSlot tok engine req anchor = .running st at h
    rw [h] at hopen
    exact hopen
  kvLen := by
    rw [activateSlot_running h]
    exact congrArg (· + 1) (d.prefilled_kvLen promptLen)
  syncLen := by
    change (d.prefilled promptLen).syncLen ≤ (d.prefilled promptLen).kvLen
    rw [d.prefilled_kvLen]
    exact d.prefilled_syncLen_le promptLen

theorem round_running (h : s.phase = .running st)
    (turn : Turn τ Lp) :
    round engine req d s turn =
      { phase := step engine req (.running st) turn.round
        lens := d.advance s.lens turn
        touched := s.touched ++ d.reach s.lens turn
        startedAt := s.startedAt ++ [st.committedTokens.length] } := by
  unfold round
  rw [h]

theorem round_finished {r : Result τ Lp} (h : s.phase = .finished r)
    (turn : Turn τ Lp) : round engine req d s turn = s := by
  unfold round
  rw [h]

theorem Ledger.round {st' : SlotState tok Call Lp} {turn : Turn τ Lp}
    (hs : s.phase = .running st) (h : Ledger req promptLen s st)
    (hround : (round engine req d s turn).phase = .running st') :
    Ledger req promptLen (round engine req d s turn) st' := by
  rw [round_running hs] at hround ⊢
  obtain ⟨hcommitted, hopen⟩ := step_running h.unfinished hround
  constructor
  · exact hopen
  · have hkv := h.kvLen
    have hadvance := d.advance_kvLen s.lens turn
    rw [hcommitted, length_append]
    change (d.advance s.lens turn).kvLen + 1 = _
    omega
  · exact d.advance_syncLen_le h.syncLen turn

/-- The driver's drafts fit too: the request ends with its anchor, or the last draft of the run
with the most accepted tokens stays in the slot. -/
def DraftsFit (d : Driver) (capacity promptLen : Nat) (maxTokens : Int) : Prop :=
  maxTokens ≤ 1 ∨ promptLen + maxTokens + d.K + d.draftRows ≤ capacity + 1

omit [DecidableEq τ] in
theorem Ledger.one_lt (h : Ledger req promptLen s st)
    (hst : st.committedTokens ≠ []) : 1 < req.maxTokens := by
  have hopen := h.unfinished
  have hpos := length_pos_iff.mpr hst
  unfold lengthReached at hopen
  omega

/-- One round keeps to the slot and is started below the limit. -/
theorem Within.round {turn : Turn τ Lp}
    (hfit : promptLen + req.maxTokens + d.K + d.draftRows ≤ capacity + 1) (hyields : d.Yields turn)
    (hledger : ∀ st, s.phase = .running st → Ledger req promptLen s st)
    (h : Within capacity req.maxTokens s) :
    Within capacity req.maxTokens (round engine req d s turn) := by
  cases hs : s.phase with
  | finished r =>
    rw [round_finished hs]
    exact h
  | running st =>
    have hkept := hledger st hs
    have hopen := hkept.unfinished
    unfold lengthReached at hopen
    rw [round_running hs]
    constructor
    · intro p hp
      rcases mem_append.mp hp with hp | hp
      · exact h.below p hp
      · have hreach := Driver.reach_lt hkept.syncLen hyields hp
        have hkv := hkept.kvLen
        omega
    · intro c hc
      rcases mem_append.mp hc with hc | hc
      · exact h.unfinished c hc
      · rw [mem_singleton.mp hc]
        omega

theorem run_append (anchor : τ) (turns : List (Turn τ Lp)) (turn : Turn τ Lp) :
    (run tok engine req d promptLen anchor (turns ++ [turn]) : Served tok Call Lp) =
      round engine req d (run tok engine req d promptLen anchor turns) turn :=
  foldl_concat _ _ _ _

theorem ledger_run (anchor : τ) (turns : List (Turn τ Lp)) :
    ∀ st, (run tok engine req d promptLen anchor turns).phase = .running st →
      Ledger req promptLen (run tok engine req d promptLen anchor turns : Served tok Call Lp) st := by
  induction turns using reverseRecOn with
  | nil => exact fun st h => ledger_admitted h
  | append_singleton turns turn ih =>
    intro st' h
    rw [run_append] at h ⊢
    cases hs : (run tok engine req d promptLen anchor turns : Served tok Call Lp).phase with
    | finished r =>
      rw [round_finished hs] at h ⊢
      exact ih st' h
    | running st => exact (ih st hs).round hs h

theorem within_admitted (hok : capacityOk d capacity promptLen req.maxTokens) (hpos : 1 ≤ req.maxTokens) :
    Within capacity req.maxTokens (admitted tok engine req d promptLen anchor : Served tok Call Lp) where
  below p hp := by
    have hprefill := Driver.prefill_lt hp
    unfold capacityOk at hok
    omega
  unfinished c hc := absurd hc not_mem_nil

/-- A request of one token ends with its anchor. -/
theorem run_of_one (hone : req.maxTokens ≤ 1) (turns : List (Turn τ Lp)) :
    (run tok engine req d promptLen anchor turns : Served tok Call Lp) =
      admitted tok engine req d promptLen anchor := by
  have hfinished : ∃ r, (admitted tok engine req d promptLen anchor : Served tok Call Lp).phase = .finished r := by
    cases hs : (admitted tok engine req d promptLen anchor : Served tok Call Lp).phase with
    | finished r => exact ⟨r, rfl⟩
    | running st =>
      have hst : st.committedTokens = [anchor] := activateSlot_running hs
      have := (ledger_admitted hs).one_lt (by rw [hst]; exact cons_ne_nil _ _)
      omega
  obtain ⟨r, hr⟩ := hfinished
  induction turns using reverseRecOn with
  | nil => rfl
  | append_singleton turns turn ih => rw [run_append, ih, round_finished hr]

/-- The sufficient half: an admitted request whose drafts fit stays in its slot. -/
theorem within_run {turns : List (Turn τ Lp)}
    (hok : capacityOk d capacity promptLen req.maxTokens) (hpos : 1 ≤ req.maxTokens)
    (hfit : DraftsFit d capacity promptLen req.maxTokens) (hyields : ∀ turn ∈ turns, d.Yields turn) :
    Within capacity req.maxTokens (run tok engine req d promptLen anchor turns : Served tok Call Lp) := by
  rcases hfit with hone | hfit
  · rw [run_of_one hone]
    exact within_admitted hok hpos
  induction turns using reverseRecOn with
  | nil => exact within_admitted hok hpos
  | append_singleton turns turn ih =>
    rw [run_append]
    exact (ih fun turn h => hyields turn (mem_append_left _ h)).round hfit
      (hyields turn (mem_append_right _ mem_cons_self)) (ledger_run anchor turns)

end Admitted

section Saturated

variable {engine d} {promptLen : Nat} {t : τ}
variable {maxTokens : Int}

def lengthRequest (maxTokens : Int) : GenerationRequest := ⟨maxTokens, [], false, false, false⟩

def committedSlot (tok : Tokenizer τ) (engine : Engine τ Call) (maxTokens : Int) (n : Nat) (t : τ) :
    SlotState tok Call Lp :=
  { freshSlot tok engine (lengthRequest maxTokens) with committedTokens := replicate n t }

omit [DecidableEq τ] in
theorem not_lengthReached_committedSlot {n : Nat} (h : n < maxTokens) :
    ¬ lengthReached (lengthRequest maxTokens) (committedSlot tok engine maxTokens n t : SlotState tok Call Lp) := by
  change ¬ maxTokens ≤ ((replicate n t).length : Int)
  rw [length_replicate]
  omega

theorem activateSlot_lengthRequest (ht : t ∉ engine.eosTokenIds) (h : 1 < maxTokens) :
    (activateSlot tok engine (lengthRequest maxTokens) t : Phase tok Call Lp) =
      .running (committedSlot tok engine maxTokens 1 t) := by
  have hopen : ¬ lengthReached (lengthRequest maxTokens)
      (committedSlot tok engine maxTokens 1 t : SlotState tok Call Lp) :=
    not_lengthReached_committedSlot h
  unfold activateSlot
  rw [if_neg ht]
  exact if_neg hopen

/-- A round that commits one token leaves the request running while another is missing. -/
theorem step_lengthRequest {n : Nat} (ht : t ∉ engine.eosTokenIds) (h : n + 1 < maxTokens) :
    step engine (lengthRequest maxTokens) (.running (committedSlot tok engine maxTokens n t : SlotState tok Call Lp))
      (.speculative [t] none) = .running (committedSlot tok engine maxTokens (n + 1) t) := by
  have hnow : ¬ lengthReached (lengthRequest maxTokens) (committedSlot tok engine maxTokens n t : SlotState tok Call Lp) :=
    not_lengthReached_committedSlot (by omega)
  have hnext : ¬ lengthReached (lengthRequest maxTokens)
      (committedSlot tok engine maxTokens (n + 1) t : SlotState tok Call Lp) :=
    not_lengthReached_committedSlot (by omega)
  have hloop : speculativeLoop engine (lengthRequest maxTokens)
      (committedSlot tok engine maxTokens n t : SlotState tok Call Lp) [] [t] =
        (committedSlot tok engine maxTokens (n + 1) t, [t], .exhausted) := by
    unfold speculativeLoop
    rw [if_neg hnow, if_neg ht]
    unfold committedSlot
    rw [replicate_succ']
    rfl
  change speculativeRound engine (lengthRequest maxTokens) _ [t] none = _
  unfold speculativeRound
  simp only [logTokens, hloop]
  exact if_neg hnext

omit [DecidableEq τ] in
/-- A slot that has only drafted drafts from its own length on. -/
theorem Driver.draftFrom_advance {lens : Lengths} (h : d.draftFrom lens = lens.kvLen) (ts : List τ)
    (width : Nat) (lps : Option (List Lp)) :
    d.draftFrom (d.advance lens (.verify ts width lps)) = (d.advance lens (.verify ts width lps)).kvLen := by
  cases d with
  | plain => rfl
  | mtp k => exact congrArg (· + ts.length) h
  | dflash => rfl

theorem Driver.draftFrom_prefilled (d : Driver) (promptLen : Nat) :
    d.draftFrom (d.prefilled promptLen) = promptLen := by
  cases d <;> rfl

variable (tok Lp d promptLen) in
/-- The slot of a request that drafts and keeps one token a round. -/
theorem run_singles (ht : t ∉ engine.eosTokenIds) (n : Nat) (h : n + 1 < maxTokens) :
    let s : Served tok Call Lp := run tok engine (lengthRequest maxTokens) d promptLen t
      (replicate n (.verify [t] 1 none))
    s.phase = .running (committedSlot tok engine maxTokens (n + 1) t) ∧
      s.lens.kvLen = promptLen + n ∧ d.draftFrom s.lens = s.lens.kvLen := by
  induction n with
  | zero =>
    refine ⟨activateSlot_lengthRequest ht (by omega), d.prefilled_kvLen promptLen, ?_⟩
    exact (d.draftFrom_prefilled promptLen).trans (d.prefilled_kvLen promptLen).symm
  | succ n ih =>
    obtain ⟨hphase, hkv, hfrom⟩ := ih (by omega)
    intro s
    have hs : s = round engine (lengthRequest maxTokens) d
        (run tok engine (lengthRequest maxTokens) d promptLen t (replicate n (.verify [t] 1 none)))
        (.verify [t] 1 none) := by
      change run tok engine (lengthRequest maxTokens) d promptLen t (replicate (n + 1) _) = _
      rw [replicate_succ', run_append]
    rw [hs, round_running hphase]
    refine ⟨step_lengthRequest ht (by omega), ?_, d.draftFrom_advance hfrom [t] 1 none⟩
    change (d.advance _ (Turn.verify [t] 1 none)).kvLen = _
    rw [d.advance_kvLen, hkv]
    rfl

/-- The round that accepts every draft when one token is missing puts the next draft's last row K rows and a
draft behind the last position. -/
theorem mem_touched_saturated (ht : t ∉ engine.eosTokenIds) (n : Nat)
    (h : n + 2 = maxTokens) (hrows : 1 ≤ d.draftRows) :
    promptLen + n + d.K + d.draftRows ∈
      (run tok engine (lengthRequest maxTokens) d promptLen t (replicate n (.verify [t] 1 none) ++
        [.verify (replicate (d.K + 1) t) (d.K + 1) none]) : Served tok Call Lp).touched := by
  have hlt : n + 1 < maxTokens := by omega
  obtain ⟨hphase, hkv, hfrom⟩ := run_singles Lp tok d promptLen ht n hlt
  rw [run_append, round_running hphase]
  apply mem_append_right
  apply mem_append_right
  unfold Driver.draft
  rw [d.draftFrom_advance hfrom, d.advance_kvLen, hkv]
  change _ ∈ range' (promptLen + n + (replicate (d.K + 1) t).length) d.draftRows
  rw [length_replicate, mem_range'_1]
  omega

end Saturated

/-- Every request admitted with these lengths stays in its slot, over every run, exactly when the
drafts fit. -/
theorem within_iff (tok : Tokenizer τ) (engine : Engine τ Call) (d : Driver) (capacity promptLen : Nat)
    (maxTokens : Int) (hok : capacityOk d capacity promptLen maxTokens) (hpos : 1 ≤ maxTokens)
    (t : τ) (ht : t ∉ engine.eosTokenIds) :
    (∀ req : GenerationRequest, req.maxTokens = maxTokens → ∀ (anchor : τ) (turns : List (Turn τ Lp)),
      (∀ turn ∈ turns, d.Yields turn) →
        Within capacity maxTokens (run tok engine req d promptLen anchor turns : Served tok Call Lp)) ↔
      DraftsFit d capacity promptLen maxTokens := by
  constructor
  · intro hall
    by_contra hfit
    unfold DraftsFit at hfit
    push Not at hfit
    obtain ⟨htwo, hover⟩ := hfit
    unfold capacityOk at hok
    have hn : ((maxTokens - 2).toNat : Int) + 2 = maxTokens := by omega
    have hrows : 1 ≤ d.draftRows := by omega
    have hspec : d ≠ .plain := by
      rintro rfl
      exact absurd hrows (by decide)
    have hwithin := hall (lengthRequest maxTokens) rfl t
      (replicate (maxTokens - 2).toNat (.verify [t] 1 none) ++
        [.verify (replicate (d.K + 1) t) (d.K + 1) none]) fun turn hturn => by
      rcases mem_append.mp hturn with hturn | hturn
      · rw [eq_of_mem_replicate hturn]
        exact ⟨hspec, cons_ne_nil _ _, le_refl _, Nat.le_add_left _ _⟩
      · rw [mem_singleton.mp hturn]
        exact ⟨hspec, cons_ne_nil _ _, length_replicate.le, le_refl _⟩
    have := hwithin.below _ (mem_touched_saturated ht _ hn hrows)
    omega
  · intro hfit req hreq anchor turns hyields
    subst hreq
    exact within_run hok hpos hfit hyields

/-- A prompt of ten tokens and a budget of eight, in a slot of 32 tokens. -/
theorem within_iff_mtp :
    capacityOk (.mtp 4) 32 10 8 ∧
      ((∀ req : GenerationRequest, req.maxTokens = 8 → ∀ (anchor : Char) (turns : List (Turn Char Unit)),
        (∀ turn ∈ turns, (Driver.mtp 4).Yields turn) →
          Within 32 8 (run .chars charEngine req (.mtp 4) 10 anchor turns : Served .chars Text Unit)) ↔
        DraftsFit (.mtp 4) 32 10 8) :=
  ⟨by decide, within_iff .chars charEngine (.mtp 4) 32 10 8 (by decide) (by decide) 'a' (by decide)⟩

/-- The round that accepts all four drafts writes the next draft into the first cells of the slot behind. -/
theorem draft_leaves_slot :
    let s : Served .chars Text Unit :=
      run .chars charEngine (lengthRequest 2) (.mtp 4) 10 'a' [.verify ['b', 'c', 'd', 'e', 'f'] 5 none]
    capacityOk (.mtp 4) 16 10 2 ∧
      (Driver.mtp 4).Yields (.verify ['b', 'c', 'd', 'e', 'f'] 5 none : Turn Char Unit) ∧
      16 ∈ s.touched ∧ ¬ Within 16 2 s ∧ decodeWriteIndex 0 16 16 1 = decodeWriteIndex 1 0 16 1 := by
  intro s
  have htouched : 16 ∈ s.touched := by decide
  have hyields : (Driver.mtp 4).Yields (.verify ['b', 'c', 'd', 'e', 'f'] 5 none : Turn Char Unit) :=
    ⟨by decide, by decide, by decide, by decide⟩
  exact ⟨by decide, hyields, htouched, fun h => absurd (h.below 16 htouched) (by decide), by decide⟩

end CapacityAdmission
