import BlackweLLM.CausalModel
import BlackweLLM.KeyedLoop
import BlackweLLM.MtpAccept

/-!
# The MTP engine

`runtime/backends/qwen36_mtp.py` with the parts of the slot pool and of the
verify pass that it drives. A slot keeps the physical rows of its KV cache and
the `K + 1` candidate columns of its recurrence; lengths and the active column
say which of them are real. The draft head is arbitrary.
-/

namespace MtpEngine

open CausalModel KeyedLoop MtpAccept

variable {Tok Kv Gdn Hid Cache : Type}

/-- The draft head over its own cache: `forward` teacher-forces a suffix from a start position and
returns draft step 0, `step` is one continuation step. -/
structure DraftHead (Tok Hid Cache : Type) where
  forward : Cache → Nat → List Tok → List Hid → Cache × Tok × Hid
  step : Cache → Nat → Tok → Hid → Cache × Tok × Hid

/-- How the target verifies: the captured graph, the eager pass over the candidate rows, or the
eager pass that returns snapshots. -/
inductive VerifyPath where
  | graph | rows | snapshots
  deriving DecidableEq, Repr

structure Engine (Tok Kv Gdn Hid Cache : Type) where
  model : CausalModel Tok Kv Gdn Hid
  mtp : DraftHead Tok Hid Cache
  k : Nat
  path : VerifyPath
  maxSeqLen : Nat

structure Slot (Tok Kv Gdn Cache : Type) where
  kv : Nat → Kv
  attnSeqLen : Nat
  numTokensSeen : Nat
  kvLen : Nat
  committedTokens : List Tok
  columns : Nat → Gdn
  active : Nat
  specStateCol : Nat
  mtpCache : Cache
  mtpSeqLen : Nat
  syncLen : Nat

inductive RoundError where
  | draftCount (got k : Nat)
  | cacheTail (seqLen expected : Nat)
  | outsideCapacity (start stop : Nat)
  | accept (error : AcceptError)
  | snapshotRange (acceptedCount : Nat)
  | columnRange (col : Nat)
  | emptyDecision
  | emptySuffix
  | hiddenShape
  | stateLength (seen kvLen : Nat)
  | notOnColumnZero
  | emptyPrompt
  | noRequest
  deriving DecidableEq, Repr

variable (E : Engine Tok Kv Gdn Hid Cache)

abbrev Engine.SlotOf (_ : Engine Tok Kv Gdn Hid Cache) : Type := Slot Tok Kv Gdn Cache

structure Request (Tok : Type) where
  anchor : Tok
  drafts : List Tok

/-- What the verify pass hands to the commit. -/
structure Verified (Tok Gdn Hid : Type) where
  anchor : Tok
  pastLen : Nat
  hiddens : List Hid
  snapshots : Option (List Gdn)
  decision : Decision Tok

/-- What the commit hands to the synchronisation. -/
structure Committed (Tok Hid : Type) where
  committed : List Tok
  numAccepted : Nat
  nextAnchor : Tok
  shifted : List Tok
  hiddens : List Hid

structure Synced (Tok Hid : Type) where
  result : Committed Tok Hid
  firstDraft : Tok
  firstHidden : Hid

structure RoundResult (Tok : Type) where
  committed : List Tok
  numAccepted : Nat
  nextAnchor : Tok
  nextDraftTokens : List Tok

def checkRequest (r : Request Tok) (s : E.SlotOf) : Except RoundError (E.SlotOf × Request Tok) :=
  if r.drafts.length ≠ E.k then .error (.draftCount r.drafts.length E.k)
  else if s.mtpSeqLen ≠ s.syncLen + (E.k - 1) then .error (.cacheTail s.mtpSeqLen (s.syncLen + (E.k - 1)))
  else .ok (s, r)

/-- One pass over `anchor + drafts`. The graph reads the column of the engine's own index and is told the past
length, the eager passes read the live state. -/
def verifyForward (s : E.SlotOf) (tokens : List Tok) (pastLen : Nat) :
    Except RoundError (E.SlotOf × List Hid × Option (List Gdn)) :=
  match E.path with
  | .graph =>
    if E.maxSeqLen < pastLen + tokens.length then .error (.outsideCapacity pastLen (pastLen + tokens.length))
    else
      let out := E.model.forward ⟨readRows s.kv pastLen, s.columns s.specStateCol⟩ tokens
      .ok ({ s with
        kv := writeRows s.kv pastLen (out.map (·.1))
        columns := writeRows s.columns 0 (out.map (·.2.1)) }, out.map (·.2.2), none)
  | .rows =>
    if E.maxSeqLen < s.attnSeqLen + tokens.length then
      .error (.outsideCapacity s.attnSeqLen (s.attnSeqLen + tokens.length))
    else
      let out := E.model.forward ⟨readRows s.kv s.attnSeqLen, s.columns s.active⟩ tokens
      .ok ({ s with
        kv := writeRows s.kv s.attnSeqLen (out.map (·.1))
        attnSeqLen := s.attnSeqLen + tokens.length
        columns := writeRows s.columns 0 (out.map (·.2.1)) }, out.map (·.2.2), none)
  | .snapshots =>
    if E.maxSeqLen < s.attnSeqLen + tokens.length then
      .error (.outsideCapacity s.attnSeqLen (s.attnSeqLen + tokens.length))
    else
      let out := E.model.forward ⟨readRows s.kv s.attnSeqLen, s.columns s.active⟩ tokens
      .ok ({ s with
        kv := writeRows s.kv s.attnSeqLen (out.map (·.1))
        attnSeqLen := s.attnSeqLen + tokens.length }, out.map (·.2.2),
        some (s.columns s.active :: out.map (·.2.1)))

def verifyRequest (accept : List Tok → List Tok → Except AcceptError (Decision Tok)) (r : Request Tok)
    (s : E.SlotOf) : Except RoundError (E.SlotOf × Verified Tok Gdn Hid) :=
  let pastLen := s.numTokensSeen
  match verifyForward E s (r.anchor :: r.drafts) pastLen with
  | .error e => .error e
  | .ok (s, hiddens, snapshots) =>
    match accept (r.anchor :: r.drafts) (hiddens.map E.model.argmax) with
    | .error e => .error (.accept e)
    | .ok decision => .ok (s, ⟨r.anchor, pastLen, hiddens, snapshots, decision⟩)

def commitVerify (s : E.SlotOf) (snapshots : Option (List Gdn)) (pastLen acceptedCount : Nat) :
    Except RoundError E.SlotOf :=
  let rewound := { s with attnSeqLen := pastLen + acceptedCount, numTokensSeen := pastLen + acceptedCount }
  match snapshots with
  | none => .ok rewound
  | some states =>
    match states[acceptedCount]? with
    | none => .error (.snapshotRange acceptedCount)
    | some state => .ok { rewound with columns := Function.update s.columns s.active state }

/-- `activate` together with the engine's own column index. -/
def activate (s : E.SlotOf) (col : Nat) : Except RoundError E.SlotOf :=
  if E.k < col then .error (.columnRange col) else .ok { s with active := col, specStateCol := col }

/-- Keep the anchor and the accepted drafts, and record every committed token. -/
def commitRequest (v : Verified Tok Gdn Hid) (s : E.SlotOf) :
    Except RoundError (E.SlotOf × Committed Tok Hid) :=
  let m := v.decision.numAccepted
  let committed := v.decision.committed
  match committed.getLast? with
  | none => .error .emptyDecision
  | some newAnchor =>
    match commitVerify E s v.snapshots v.pastLen (m + 1) with
    | .error e => .error e
    | .ok s =>
      match (if E.path = .snapshots then .ok s else activate E s m) with
      | .error e => .error e
      | .ok s =>
        let realNewTokens := v.anchor :: committed.dropLast
        .ok ({ s with
          kvLen := s.numTokensSeen
          committedTokens := s.committedTokens ++ committed },
          ⟨committed, m, newAnchor, realNewTokens.drop 1 ++ [newAnchor], v.hiddens.take (m + 1)⟩)

/-- `_sync_real_suffix`: rewind the draft head to the real prefix and teacher-force the new rows. -/
def syncRealSuffix (s : E.SlotOf) (shifted : List Tok) (hiddens : List Hid) :
    Except RoundError (E.SlotOf × Tok × Hid) :=
  if shifted = [] then .error .emptySuffix
  else if hiddens.length ≠ shifted.length then .error .hiddenShape
  else
    let out := E.mtp.forward s.mtpCache s.syncLen shifted hiddens
    .ok ({ s with
      mtpCache := out.1
      mtpSeqLen := s.syncLen + shifted.length
      syncLen := s.syncLen + shifted.length }, out.2.1, out.2.2)

def syncRequest (c : Committed Tok Hid) (s : E.SlotOf) : Except RoundError (E.SlotOf × Synced Tok Hid) :=
  match syncRealSuffix E s c.shifted c.hiddens with
  | .error e => .error e
  | .ok (s, firstDraft, firstHidden) => .ok (s, ⟨c, firstDraft, firstHidden⟩)

/-- `n` continuation steps: the cache, its length and the tokens. -/
def draftSteps (mtp : DraftHead Tok Hid Cache) : Nat → Cache → Nat → Tok → Hid → Cache × Nat × List Tok
  | 0, cache, seqLen, _, _ => (cache, seqLen, [])
  | n + 1, cache, seqLen, token, hidden =>
    let out := mtp.step cache seqLen token hidden
    let rest := draftSteps mtp n out.1 (seqLen + 1) out.2.1 out.2.2
    (rest.1, rest.2.1, out.2.1 :: rest.2.2)

def continueDraft (s : E.SlotOf) (firstDraft : Tok) (firstHidden : Hid) : E.SlotOf × List Tok :=
  if E.k ≤ 1 then (s, [firstDraft])
  else
    let out := draftSteps E.mtp (E.k - 1) s.mtpCache s.mtpSeqLen firstDraft firstHidden
    ({ s with mtpCache := out.1, mtpSeqLen := out.2.1 }, firstDraft :: out.2.2)

def continueRequest (y : Synced Tok Hid) (s : E.SlotOf) : Except RoundError (E.SlotOf × RoundResult Tok) :=
  let out := continueDraft E s y.firstDraft y.firstHidden
  .ok (out.1, ⟨y.result.committed, y.result.numAccepted, y.result.nextAnchor, out.2⟩)

section Round

variable [DecidableEq Tok]

/-- The phases of a round, with the accept rule of its path. -/
def roundPhases (accept : List Tok → List Tok → Except AcceptError (Decision Tok)) :
    Request Tok → E.SlotOf → Except RoundError (E.SlotOf × RoundResult Tok) :=
  andThen (andThen (andThen (andThen (checkRequest E) (verifyRequest E accept)) (commitRequest E))
    (syncRequest E)) (continueRequest E)

def round : Request Tok → E.SlotOf → Except RoundError (E.SlotOf × RoundResult Tok) :=
  roundPhases E determineAcceptRejectFromPredictions

/-- The accept rule of the captured graph. -/
def batchAccept (onDevice : Bool) (tokens predicted : List Tok) : Except AcceptError (Decision Tok) :=
  .ok (batchDecision onDevice tokens predicted E.k)

/-- `round_batch`: without the graph one round after the other, else phase by phase. -/
def roundBatch (onDevice : Bool) (requests : List (Nat × Request Tok)) (table : Nat → E.SlotOf) :
    Except RoundError ((Nat → E.SlotOf) × List (RoundResult Tok)) :=
  let keys := requests.map Prod.fst
  match E.path with
  | .graph =>
    thenEach (continueRequest E) keys (thenEach (syncRequest E) keys (thenEach (commitRequest E) keys
      (thenEach (verifyRequest E (batchAccept E onDevice)) keys
        (eachRequest (checkRequest E) requests table))))
  | _ => eachRequest (round E) requests table

end Round

end MtpEngine
