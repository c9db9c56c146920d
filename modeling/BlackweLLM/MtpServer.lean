import BlackweLLM.MtpRound

/-!
# Requests on MTP slots

What the backend and the scheduler do around the rounds: a reset and a cold
prefill in chunks, which leaves the first token and its drafts, and then rounds
of one slot or of several. Chunks and rounds of different slots mix freely.
-/

namespace MtpEngine

open CausalModel KeyedLoop MtpAccept

variable {Tok Kv Gdn Hid Cache : Type} (E : Engine Tok Kv Gdn Hid Cache)

/-- `reset_slot`, pool and engine. Rows of the cache stay where they are. -/
def resetSlot (s : E.SlotOf) : E.SlotOf :=
  { s with
    attnSeqLen := 0
    numTokensSeen := 0
    kvLen := 0
    committedTokens := []
    columns := fun _ => E.model.zero
    active := 0
    specStateCol := 0
    mtpSeqLen := 0
    syncLen := 0 }

def prefillSerial (piece : List Tok) (s : E.SlotOf) : Except RoundError (E.SlotOf × List Hid) :=
  if E.maxSeqLen < s.attnSeqLen + piece.length then
    .error (.outsideCapacity s.attnSeqLen (s.attnSeqLen + piece.length))
  else
    let past : Context Kv Gdn := ⟨readRows s.kv s.attnSeqLen, s.columns s.active⟩
    let out := E.model.forward past piece
    .ok ({ s with
      kv := writeRows s.kv s.attnSeqLen (out.map (·.1))
      columns := Function.update s.columns s.active (E.model.consumeAll past piece).gdn
      numTokensSeen := s.numTokensSeen + piece.length
      attnSeqLen := s.attnSeqLen + piece.length }, out.map (·.2.2))

/-- `build_prefill_batch` with `commit_prefill_batch`: reads and advances the pool's own length. A live
state on a candidate column goes the serial way. -/
def prefillBatched (piece : List Tok) (s : E.SlotOf) : Except RoundError (E.SlotOf × List Hid) :=
  if E.maxSeqLen < s.kvLen + piece.length then .error (.outsideCapacity s.kvLen (s.kvLen + piece.length))
  else if s.numTokensSeen ≠ s.kvLen then .error (.stateLength s.numTokensSeen s.kvLen)
  else if s.active ≠ 0 then prefillSerial E piece s
  else
    let past : Context Kv Gdn := ⟨readRows s.kv s.kvLen, s.columns s.active⟩
    let out := E.model.forward past piece
    .ok ({ s with
      kv := writeRows s.kv s.kvLen (out.map (·.1))
      columns := Function.update s.columns s.active (E.model.consumeAll past piece).gdn
      kvLen := s.kvLen + piece.length
      numTokensSeen := s.kvLen + piece.length
      attnSeqLen := s.kvLen + piece.length }, out.map (·.2.2))

def prefillForward (batched : Bool) (piece : List Tok) (s : E.SlotOf) :
    Except RoundError (E.SlotOf × List Hid) :=
  if batched then prefillBatched E piece s else prefillSerial E piece s

section Prefill

variable {E} {s s' : E.SlotOf} {toks : List Tok}

theorem rows_after_append (h : TargetAt E toks s) (piece : List Tok) :
    readRows (writeRows s.kv toks.length ((E.model.forward (E.model.after toks) piece).map (·.1)))
      (toks.length + piece.length) = (E.model.after (toks ++ piece)).rows := by
  rw [rows_candidates h piece (Nat.le_refl _), List.take_length]

section

variable {piece : List Tok} {hiddens : List Hid} (h : TargetAt E toks s)
include h

theorem prefillSerial_spec (hok : prefillSerial E piece s = .ok (s', hiddens)) :
    TargetAt E (toks ++ piece) s' ∧ s'.active = s.active ∧ s'.syncLen = s.syncLen ∧ s'.kvLen = s.kvLen ∧
      s'.committedTokens = s.committedTokens ∧
      hiddens = (E.model.forward (E.model.after toks) piece).map (·.2.2) := by
  simp only [prefillSerial, h.attn, h.context] at hok
  split_ifs at hok
  cases hok
  refine ⟨⟨?_, ?_, ?_, h.active, h.col, ?_⟩, rfl, rfl, rfl, rfl, rfl⟩
  · simp [h.seen]
  · simp
  · rw [List.length_append]
    exact rows_after_append h piece
  · simp

theorem prefillForward_spec {batched : Bool} (hok : prefillForward E batched piece s = .ok (s', hiddens)) :
    TargetAt E (toks ++ piece) s' ∧ s'.active = s.active ∧ s'.syncLen = s.syncLen ∧
      s'.committedTokens = s.committedTokens ∧
      hiddens = (E.model.forward (E.model.after toks) piece).map (·.2.2) := by
  cases batched with
  | false =>
    obtain ⟨htarget, hactive, hsync, -, hrecord, hhiddens⟩ := prefillSerial_spec h hok
    exact ⟨htarget, hactive, hsync, hrecord, hhiddens⟩
  | true =>
    simp only [prefillForward, if_true, prefillBatched] at hok
    split_ifs at hok with hfit hlen hactive
    · obtain ⟨htarget, hactive, hsync, -, hrecord, hhiddens⟩ := prefillSerial_spec h hok
      exact ⟨htarget, hactive, hsync, hrecord, hhiddens⟩
    · have hkvLen : s.kvLen = toks.length := by rw [← Classical.not_not.mp hlen, h.seen]
      simp only [hkvLen, h.context] at hok
      cases hok
      refine ⟨⟨?_, ?_, ?_, h.active, h.col, ?_⟩, rfl, rfl, rfl, rfl⟩
      · simp
      · simp
      · rw [List.length_append]
        exact rows_after_append h piece
      · simp

end

end Prefill

/-- `sync_prefill_chunk` and `_commit_prefill` behind the last chunk. -/
def finishPrefill (prompt piece : List Tok) (hiddens : List Hid) (s : E.SlotOf) :
    Except RoundError (E.SlotOf × Tok × List Tok) :=
  match hiddens.getLast? with
  | none => .error .emptyPrompt
  | some hidden =>
    let token := E.model.argmax hidden
    match syncRealSuffix E s (piece.drop 1 ++ [token]) hiddens with
    | .error e => .error e
    | .ok (s, firstDraft, firstHidden) =>
      if E.path ≠ .snapshots ∧ s.active ≠ 0 then .error .notOnColumnZero
      else
        let out := continueDraft E { s with specStateCol := 0 } firstDraft firstHidden
        .ok ({ out.1 with kvLen := prompt.length, committedTokens := prompt ++ [token] }, token, out.2)

/-- One slot's share of `prefill_chunked_step`: `rest` is what the prompt has behind this chunk. -/
def prefillChunk (batched : Bool) (prompt piece rest : List Tok) (s : E.SlotOf) :
    Except RoundError (E.SlotOf × Option (Tok × List Tok)) :=
  match prefillForward E batched piece s with
  | .error e => .error e
  | .ok (s, hiddens) =>
    match rest with
    | [] => (finishPrefill E prompt piece hiddens s).map fun out => (out.1, some out.2)
    | next :: _ => (syncRealSuffix E s (piece.drop 1 ++ [next]) hiddens).map fun out => (out.1, none)

/-- What the scheduler keeps of a slot's request. -/
inductive Phase (Tok : Type) where
  | idle
  | prefilling (prompt rest : List Tok)
  /-- `stream` is the first token with everything the rounds have committed. -/
  | decoding (prompt stream : List Tok) (anchor : Tok)

def Phase.anchor : Phase Tok → Option Tok
  | .decoding _ _ anchor => some anchor
  | _ => none

def Phase.deliver (out : RoundResult Tok) : Phase Tok → Phase Tok
  | .decoding prompt stream _ => .decoding prompt (stream ++ out.committed) out.nextAnchor
  | phase => phase

structure Server (E : Engine Tok Kv Gdn Hid Cache) where
  slots : Nat → E.SlotOf
  phases : Nat → Phase Tok

/-- Whatever the slots hold, no request has been admitted. -/
def Server.start {E : Engine Tok Kv Gdn Hid Cache} (slots : Nat → E.SlotOf) : Server E := ⟨slots, fun _ => .idle⟩

/-- One call of the scheduler. Drafts are arbitrary; the slots of a batch are distinct. -/
inductive Op (Tok : Type) where
  | prefillBegin (slot : Nat) (prompt : List Tok)
  | prefillStep (slot : Nat) (size : Nat) (batched : Bool)
  | round (slot : Nat) (request : Request Tok)
  | roundBatch (onDevice : Bool) (requests : List (Nat × Request Tok))
      (distinct : (requests.map Prod.fst).Nodup)

variable {E} [DecidableEq Tok]

/-- The anchors of a call are those of its slots. -/
def Server.expects (server : Server E) (requests : List (Nat × Request Tok)) : Bool :=
  requests.all fun r => (server.phases r.1).anchor = some r.2.anchor

def step (server : Server E) : Op Tok → Except RoundError (Server E)
  | .prefillBegin slot prompt =>
    if prompt = [] then .error .emptyPrompt
    else .ok ⟨Function.update server.slots slot (resetSlot E (server.slots slot)),
      Function.update server.phases slot (.prefilling prompt prompt)⟩
  | .prefillStep slot size batched =>
    match server.phases slot with
    | .prefilling prompt rest =>
      match prefillChunk E batched prompt (rest.take size) (rest.drop size) (server.slots slot) with
      | .error e => .error e
      | .ok (s, none) => .ok ⟨Function.update server.slots slot s,
          Function.update server.phases slot (.prefilling prompt (rest.drop size))⟩
      | .ok (s, some (token, _)) => .ok ⟨Function.update server.slots slot s,
          Function.update server.phases slot (.decoding prompt [token] token)⟩
    | _ => .error .noRequest
  | .round slot request =>
    if server.expects [(slot, request)] then
      match round E request (server.slots slot) with
      | .error e => .error e
      | .ok (s, out) => .ok ⟨Function.update server.slots slot s,
          Function.update server.phases slot ((server.phases slot).deliver out)⟩
    else .error .noRequest
  | .roundBatch onDevice requests _ =>
    if server.expects requests then
      match roundBatch E onDevice requests server.slots with
      | .error e => .error e
      | .ok (slots, outs) => .ok ⟨slots, fun slot =>
          match ((requests.map Prod.fst).zip outs).lookup slot with
          | some out => (server.phases slot).deliver out
          | none => server.phases slot⟩
    else .error .noRequest

def run (server : Server E) : List (Op Tok) → Except RoundError (Server E)
  | [] => .ok server
  | op :: ops =>
    match step server op with
    | .error e => .error e
    | .ok server => run server ops

end MtpEngine
