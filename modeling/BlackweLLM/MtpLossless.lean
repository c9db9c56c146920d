import BlackweLLM.MtpServer

/-!
# Speculative decoding is lossless

Every request that has been prefilled and driven by rounds, alone or in
batches and with whatever drafts, has been given the tokens of plain greedy
decoding, and its slot has consumed exactly the prompt and these tokens up to
the pending one.
-/

namespace MtpEngine

open List CausalModel KeyedLoop MtpAccept

variable {Tok Kv Gdn Hid Cache : Type} {E : Engine Tok Kv Gdn Hid Cache} {s s' : E.SlotOf}

structure Prefilled (E : Engine Tok Kv Gdn Hid Cache) (consumed : List Tok) (s : E.SlotOf) : Prop
    extends TargetAt E consumed s where
  onZero : s.active = 0
  sync : s.syncLen = consumed.length

theorem prefilled_resetSlot (s : E.SlotOf) : Prefilled E [] (resetSlot E s) where
  seen := rfl
  attn := rfl
  rows := rfl
  active := Nat.zero_le _
  col := rfl
  gdn := rfl
  onZero := rfl
  sync := rfl

theorem syncRealSuffix_spec {shifted : List Tok} {hiddens : List Hid} {firstDraft : Tok} {firstHidden : Hid}
    (h : TargetAt E toks s) (hok : syncRealSuffix E s shifted hiddens = .ok (s', firstDraft, firstHidden)) :
    TargetAt E toks s' ∧ s'.active = s.active ∧ s'.syncLen = s.syncLen + hiddens.length ∧
      s'.mtpSeqLen = s'.syncLen := by
  simp only [syncRealSuffix] at hok
  split_ifs at hok with hne hlen
  cases hok
  have hlen : hiddens.length = shifted.length := Classical.not_not.mp hlen
  exact ⟨h.draftHead _ _ _, rfl, by rw [hlen], rfl⟩

/-- Behind the last chunk the slot waits for the token that the prompt predicts. -/
theorem finishPrefill_spec {consumed piece prompt : List Tok} {hiddens : List Hid} {token : Tok}
    {drafts : List Tok} (h : TargetAt E prompt s) (hzero : s.active = 0) (hsync : s.syncLen = consumed.length)
    (hprompt : prompt = consumed ++ piece)
    (hhiddens : hiddens = (E.model.forward (E.model.after consumed) piece).map (·.2.2))
    (hok : finishPrefill E prompt piece hiddens s = .ok (s', token, drafts)) :
    E.model.predict prompt = some token ∧ InLockstep E prompt token s' := by
  simp only [finishPrefill] at hok
  cases hlast : hiddens.getLast? with
  | none => simp [hlast] at hok
  | some hidden =>
    simp only [hlast] at hok
    cases hsuffix : syncRealSuffix E s (piece.drop 1 ++ [E.model.argmax hidden]) hiddens with
    | error e =>
      simp only [hsuffix] at hok
      cases hok
    | ok out =>
      obtain ⟨s₁, firstDraft, firstHidden⟩ := out
      obtain ⟨htarget, hactive, hsync₁, hmtp₁⟩ := syncRealSuffix_spec h hsuffix
      have hcol : s₁.specStateCol = 0 := by rw [htarget.col, hactive, hzero]
      have hsame : { s₁ with specStateCol := 0 } = s₁ := by rw [← hcol]
      obtain ⟨s₂, next, htail, htarget₂, hsync₂, hmtp₂, -, -⟩ := continueDraft_eq htarget firstDraft firstHidden
      simp only [hsuffix, hsame, htail] at hok
      rw [if_neg fun hmoved => hmoved.2 (hactive.trans hzero)] at hok
      cases hok
      have hsynced : s₁.syncLen = prompt.length := by
        rw [hsync₁, hsync, hhiddens, hprompt]
        simp
      constructor
      · rw [hhiddens, getLast?_map] at hlast
        obtain ⟨o, ho, rfl⟩ := Option.map_eq_some_iff.mp hlast
        rw [hprompt]
        exact E.model.predict_of_getLast? ho
      · exact ⟨⟨htarget₂.seen, htarget₂.attn, htarget₂.rows, htarget₂.active, htarget₂.col, htarget₂.gdn⟩, rfl,
          hsync₂.trans hsynced, by rw [hmtp₂, hmtp₁, hsynced], rfl⟩

def Holds (E : Engine Tok Kv Gdn Hid Cache) (s : E.SlotOf) : Phase Tok → Prop
  | .idle => True
  | .prefilling prompt rest => ∃ consumed, prompt = consumed ++ rest ∧ prompt ≠ [] ∧ Prefilled E consumed s
  | .decoding prompt stream anchor => prompt ≠ [] ∧ stream = E.model.greedy prompt stream.length ∧
      ∃ init, stream = init ++ [anchor] ∧ InLockstep E (prompt ++ init) anchor s

theorem prefillChunk_holds {batched : Bool} {prompt piece rest consumed : List Tok}
    {out : Option (Tok × List Tok)} (hprompt : prompt = consumed ++ (piece ++ rest)) (hne : prompt ≠ [])
    (h : Prefilled E consumed s) (hok : prefillChunk E batched prompt piece rest s = .ok (s', out)) :
    Holds E s' (match out with
      | none => .prefilling prompt rest
      | some (token, _) => .decoding prompt [token] token) := by
  simp only [prefillChunk] at hok
  cases hforward : prefillForward E batched piece s with
  | error e => simp [hforward] at hok
  | ok out₁ =>
    obtain ⟨s₁, hiddens⟩ := out₁
    obtain ⟨htarget, hactive, hsync, -, hhiddens⟩ := prefillForward_spec h.toTargetAt hforward
    have hzero := hactive.trans h.onZero
    replace hsync := hsync.trans h.sync
    simp only [hforward] at hok
    cases rest with
    | nil =>
      rw [append_nil] at hprompt
      cases hfinish : finishPrefill E prompt piece hiddens s₁ with
      | error e => simp [hfinish, Except.map] at hok
      | ok out₂ =>
        obtain ⟨s₂, token, drafts⟩ := out₂
        simp only [hfinish, Except.map, Except.ok.injEq, Prod.mk.injEq] at hok
        obtain ⟨rfl, rfl⟩ := hok
        obtain ⟨hpredict, hlockstep⟩ :=
          finishPrefill_spec (hprompt ▸ htarget) hzero hsync hprompt hhiddens hfinish
        refine ⟨hne, ?_, [], rfl, by simpa using hlockstep⟩
        simp [CausalModel.greedy, hpredict]
    | cons next rest =>
      cases hsuffix : syncRealSuffix E s₁ (piece.drop 1 ++ [next]) hiddens with
      | error e =>
        simp only [hsuffix] at hok
        cases hok
      | ok out₂ =>
        obtain ⟨s₂, firstDraft, firstHidden⟩ := out₂
        simp only [hsuffix, Except.map, Except.ok.injEq, Prod.mk.injEq] at hok
        obtain ⟨rfl, rfl⟩ := hok
        obtain ⟨htarget₂, hactive₂, hsync₂, -⟩ := syncRealSuffix_spec htarget hsuffix
        refine ⟨consumed ++ piece, by rw [hprompt, append_assoc], hne, htarget₂, hactive₂.trans hzero, ?_⟩
        rw [hsync₂, hsync, hhiddens]
        simp

section Rounds

variable [DecidableEq Tok] {accept : List Tok → List Tok → Except AcceptError (Decision Tok)}

variable {phase : Phase Tok}

theorem roundPhases_holds (haccept : DecidesGreedily E accept) {r : Request Tok}
    (h : Holds E s phase) (hanchor : phase.anchor = some r.anchor) {out : RoundResult Tok}
    (hok : roundPhases E accept r s = .ok (s', out)) : Holds E s' (phase.deliver out) := by
  cases phase with
  | idle => simp [Phase.anchor] at hanchor
  | prefilling prompt rest => simp [Phase.anchor] at hanchor
  | decoding prompt stream anchor =>
    cases hanchor
    obtain ⟨hprompt, hstream, init, hinit, hlockstep⟩ := h
    have hadvanced := roundPhases_sound haccept hlockstep hok
    have hgreedy := hadvanced.greedy
    rw [append_assoc, ← hinit] at hgreedy
    have hextended : stream ++ out.committed =
        E.model.greedy prompt (stream.length + (out.numAccepted + 1)) := by
      rw [E.model.greedy_add, ← hstream, hgreedy]
    refine ⟨hprompt, ?_, init ++ r.anchor :: out.committed.dropLast, ?_, ?_⟩
    · rw [hextended, E.model.length_greedy hprompt]
    · rw [hinit, append_assoc, append_assoc]
      exact congrArg (init ++ r.anchor :: ·) hadvanced.last
    · simpa using hadvanced.lockstep

omit [DecidableEq Tok] in
theorem holds_update {server : Server E} (h : ∀ slot, Holds E (server.slots slot) (server.phases slot))
    {slot : Nat} (hslot : Holds E s' phase) :
    ∀ other, Holds E (Function.update server.slots slot s' other)
      (Function.update server.phases slot phase other) := by
  intro other
  rcases eq_or_ne other slot with rfl | hne
  · rwa [Function.update_self, Function.update_self]
  · rw [Function.update_of_ne hne, Function.update_of_ne hne]
    exact h other

section

variable {server server' : Server E} (h : ∀ slot, Holds E (server.slots slot) (server.phases slot))
include h

/-- One call of the scheduler keeps every slot with its request. -/
theorem step_holds {op : Op Tok} (hok : step server op = .ok server') :
    ∀ slot, Holds E (server'.slots slot) (server'.phases slot) := by
  cases op with
  | prefillBegin slot prompt =>
    simp only [step] at hok
    split_ifs at hok with hne
    cases hok
    exact holds_update h ⟨[], rfl, hne, prefilled_resetSlot _⟩
  | prefillStep slot size batched =>
    have hslot := h slot
    simp only [step] at hok
    cases hphase : server.phases slot with
    | idle => simp [hphase] at hok
    | decoding prompt stream anchor => simp [hphase] at hok
    | prefilling prompt rest =>
      rw [hphase] at hslot
      obtain ⟨consumed, hprompt, hne, hprefilled⟩ := hslot
      rw [← take_append_drop size rest] at hprompt
      simp only [hphase] at hok
      cases hchunk : prefillChunk E batched prompt (rest.take size) (rest.drop size) (server.slots slot) with
      | error e => simp [hchunk] at hok
      | ok out =>
        obtain ⟨s', out⟩ := out
        have hholds := prefillChunk_holds hprompt hne hprefilled hchunk
        cases out with
        | none =>
          simp only [hchunk] at hok
          cases hok
          exact holds_update h hholds
        | some first =>
          simp only [hchunk] at hok
          cases hok
          exact holds_update h hholds
  | round slot request =>
    simp only [step] at hok
    split_ifs at hok with hexpects
    have hanchor : (server.phases slot).anchor = some request.anchor := by
      simpa [Server.expects] using hexpects
    cases hround : round E request (server.slots slot) with
    | error e => simp [hround] at hok
    | ok out =>
      obtain ⟨s', out⟩ := out
      simp only [hround] at hok
      cases hok
      exact holds_update h (roundPhases_holds decidesGreedily_predictions (h slot) hanchor hround)
  | roundBatch onDevice requests distinct =>
    simp only [step] at hok
    split_ifs at hok with hexpects
    have hanchor : ∀ r ∈ requests, (server.phases r.1).anchor = some r.2.anchor := by
      simpa [Server.expects] using hexpects
    cases hround : roundBatch E onDevice requests server.slots with
    | error e => simp [hround] at hok
    | ok out =>
      obtain ⟨slots, outs⟩ := out
      simp only [hround] at hok
      cases hok
      intro slot
      rcases ((roundBatch_iff distinct).mp hround).lookup slot with ⟨hnone, hsame⟩ | ⟨r, out, hmem, hsome, hone⟩
      · simp only [hnone, hsame]
        exact h slot
      · simp only [hsome]
        exact roundPhases_holds (decidesGreedily_acceptOf onDevice) (h slot) (hanchor _ hmem) hone

theorem run_holds {ops : List (Op Tok)} (hok : run server ops = .ok server') :
    ∀ slot, Holds E (server'.slots slot) (server'.phases slot) := by
  induction ops generalizing server with
  | nil =>
    cases hok
    exact h
  | cons op ops ih =>
    simp only [run] at hok
    cases hstep : step server op with
    | error e => simp [hstep] at hok
    | ok next =>
      simp only [hstep] at hok
      exact ih (step_holds h hstep) hok

end

/-- What a request has been given, and where its slot stands: everything but the pending anchor has been
consumed, by the target and by the draft head. -/
structure Lossless (E : Engine Tok Kv Gdn Hid Cache) (s : E.SlotOf) (prompt stream : List Tok)
    (anchor : Tok) : Prop where
  stream_eq : stream = E.model.greedy prompt stream.length
  pending : stream.getLast? = some anchor
  kvLen : s.kvLen = prompt.length + stream.length - 1
  seen : s.numTokensSeen = s.kvLen
  attn : s.attnSeqLen = s.kvLen
  sync : s.syncLen = s.kvLen
  rows : readRows s.kv s.kvLen = (E.model.after (prompt ++ stream.dropLast)).rows
  col : s.specStateCol = s.active
  gdn : s.columns s.active = (E.model.after (prompt ++ stream.dropLast)).gdn
  record : s.committedTokens = prompt ++ stream

omit [DecidableEq Tok] in
theorem Holds.lossless {prompt stream : List Tok} {anchor : Tok} (h : Holds E s (.decoding prompt stream anchor)) :
    Lossless E s prompt stream anchor := by
  obtain ⟨hprompt, hstream, init, rfl, hlockstep⟩ := h
  have hlen : s.kvLen = (prompt ++ init).length := hlockstep.kvLen
  have hdrop : prompt ++ (init ++ [anchor]).dropLast = prompt ++ init := by rw [dropLast_concat]
  exact {
    stream_eq := hstream
    pending := getLast?_concat ..
    kvLen := by simp [hlen]
    seen := by rw [hlen, hlockstep.seen]
    attn := by rw [hlen, hlockstep.attn]
    sync := by rw [hlen, hlockstep.sync]
    rows := by rw [hlen, hdrop, hlockstep.rows]
    col := hlockstep.col
    gdn := by rw [hdrop, hlockstep.gdn]
    record := by rw [hlockstep.record, append_assoc] }

/-- A round with `K` drafts and room for them cannot fail. -/
theorem Holds.round_succeeds (haccept : DecidesGreedily E accept) {r : Request Tok}
    (h : Holds E s phase) (hanchor : phase.anchor = some r.anchor) (hdrafts : r.drafts.length = E.k)
    (hroom : s.kvLen + (E.k + 1) ≤ E.maxSeqLen) : ∃ out, roundPhases E accept r s = .ok out := by
  cases phase with
  | idle => simp [Phase.anchor] at hanchor
  | prefilling prompt rest => simp [Phase.anchor] at hanchor
  | decoding prompt stream anchor =>
    cases hanchor
    obtain ⟨-, -, init, -, hlockstep⟩ := h
    obtain ⟨s', out, hround, -⟩ := roundPhases_advances haccept hlockstep hdrafts (by rwa [← hlockstep.kvLen])
    exact ⟨(s', out), hround⟩

/-- In every state that admissions, prefill chunks and rounds reach, each decoding slot has been given the
greedy stream and stands exactly behind it, and rounds of such slots go on as long as there is room. -/
theorem lossless_run {slots : Nat → E.SlotOf} {ops : List (Op Tok)} {server : Server E}
    (hrun : run (Server.start slots) ops = .ok server) :
    (∀ slot prompt stream anchor, server.phases slot = .decoding prompt stream anchor →
      Lossless E (server.slots slot) prompt stream anchor) ∧
    (∀ requests, server.expects requests →
      (∀ r ∈ requests, r.2.drafts.length = E.k ∧ (server.slots r.1).kvLen + (E.k + 1) ≤ E.maxSeqLen) →
      (∀ r ∈ requests, ∃ server', step server (.round r.1 r.2) = .ok server') ∧
      ∀ onDevice distinct, ∃ server', step server (.roundBatch onDevice requests distinct) = .ok server') := by
  have hstart : ∀ slot, Holds E ((Server.start slots).slots slot) ((Server.start slots).phases slot) :=
    fun _ => trivial
  have hholds := run_holds hstart hrun
  constructor
  · intro slot prompt stream anchor hphase
    have hslot := hholds slot
    rw [hphase] at hslot
    exact hslot.lossless
  · intro requests hexpects hready
    have hanchor : ∀ r ∈ requests, (server.phases r.1).anchor = some r.2.anchor := by
      simpa [Server.expects] using hexpects
    have hround : ∀ accept, DecidesGreedily E accept → ∀ r ∈ requests,
        ∃ out, roundPhases E accept r.2 (server.slots r.1) = .ok out := fun accept haccept r hr =>
      (hholds r.1).round_succeeds haccept (hanchor r hr) (hready r hr).1 (hready r hr).2
    constructor
    · intro r hr
      obtain ⟨out, hout⟩ := hround _ decidesGreedily_predictions r hr
      have hone : server.expects [(r.1, r.2)] := by simpa [Server.expects] using hanchor r hr
      simp only [step, hone, if_true, round, hout]
      exact ⟨_, rfl⟩
    · intro onDevice distinct
      obtain ⟨table, outs, hall⟩ := exists_eachRequest distinct (hround _ (decidesGreedily_acceptOf onDevice))
      have hbatch := (roundBatch_iff distinct).mpr (Pointwise.of_eachRequest distinct hall)
      simp only [step, hexpects, if_true, hbatch]
      exact ⟨_, rfl⟩

end Rounds

/-- A target that counts, with two drafts a round and a draft head that always proposes zero. -/
def counting : Engine Nat Nat Unit Nat Unit where
  model := ofPrefix fun ts => ts.sum % 7
  mtp := ⟨fun _ _ _ _ => ((), 0, 0), fun _ _ _ _ => ((), 0, 0)⟩
  k := 2
  path := .graph
  maxSeqLen := 32

def blankSlot : counting.SlotOf :=
  { kv := fun _ => 0, attnSeqLen := 0, numTokensSeen := 0, kvLen := 0, committedTokens := [],
    columns := fun _ => (), active := 0, specStateCol := 0, mtpCache := (), mtpSeqLen := 0, syncLen := 0 }

/-- Two requests, admitted at different times: one round of a slot alone and one of both. -/
def countingOps : List (Op Nat) :=
  [.prefillBegin 0 [1, 2, 3], .prefillStep 0 2 true, .prefillStep 0 2 true, .round 0 ⟨6, [5, 0]⟩,
    .prefillBegin 1 [4], .prefillStep 1 8 false,
    .roundBatch true [(1, ⟨4, [1, 2]⟩), (0, ⟨3, [6, 0]⟩)] (by decide)]

theorem lossless_run_counting :
    ∃ server, run (Server.start fun _ => blankSlot) countingOps = .ok server ∧
      Lossless counting (server.slots 0) [1, 2, 3] [6, 5, 3, 6, 5] 5 ∧
      Lossless counting (server.slots 1) [4] [4, 1, 2, 4] 4 := by
  obtain ⟨server, hrun, hzero, hone⟩ : ∃ server, run (Server.start fun _ => blankSlot) countingOps = .ok server ∧
      server.phases 0 = .decoding [1, 2, 3] [6, 5, 3, 6, 5] 5 ∧ server.phases 1 = .decoding [4] [4, 1, 2, 4] 4 :=
    ⟨_, rfl, rfl, rfl⟩
  have hall := (lossless_run hrun).1
  exact ⟨server, hrun, hall _ _ _ _ hzero, hall _ _ _ _ hone⟩

end MtpEngine
