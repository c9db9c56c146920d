import BlackweLLM.MtpServer
import BlackweLLM.StepRun

/-!
# The committed-token record

`runtime/backends/qwen36.py` with the bookkeeping of `qwen36_slots.py`: what
each path that advances a slot appends to `slot_committed_tokens`, and the
names that checkpoints, published blocks and persistent entries take from it.
Hashes stand as the tokens they are computed from.
-/

namespace CommittedRecord

open Function CausalModel KeyedLoop MtpAccept MtpEngine

variable {Tok Kv Gdn Hid Cache : Type}

structure Config where
  blockSize : Nat
  enablePrefixCache : Bool
  enablePersistentPrefixCache : Bool
  dynamicArena : Bool

/-- `_checkpoint_len`, the registered hash and `_checkpoint_tensors`. -/
structure Checkpoint (Tok Gdn : Type) where
  len : Nat
  tokens : List Tok
  state : Gdn

structure PersistentEntry (Tok Kv Gdn : Type) where
  tokenIds : List Tok
  rows : List Kv
  checkpoint : Gdn
  exact : Bool

structure Backend (E : Engine Tok Kv Gdn Hid Cache) where
  slots : Nat → E.SlotOf
  inFlight : Nat → Option (List Tok × List Tok)
  checkpoints : Nat → Option (Checkpoint Tok Gdn)
  registered : List (Checkpoint Tok Gdn)
  /-- Every block key that was ever published, with the rows it was published for. -/
  published : List (List Tok × List Kv)
  /-- Every record that a reset left as `_prefix_cache_tokens`, with its rows. -/
  retained : List (List Tok × List Kv)
  persistent : List (PersistentEntry Tok Kv Gdn)

def Backend.start {E : Engine Tok Kv Gdn Hid Cache} (slots : Nat → E.SlotOf) : Backend E :=
  { slots := fun slot => resetSlot E (slots slot), inFlight := fun _ => none, checkpoints := fun _ => none,
    registered := [], published := [], retained := [], persistent := [] }

/-- One row of a decode batch: the token to feed and the length the scheduler expects. -/
structure DecodeRow (Tok : Type) where
  token : Tok
  kvLen : Nat

/-- Calls on the backend, with what the arena, the budget and the sampler decide: `publishes` says how many keys
find room, `budget` whether an entry fits, `refuses` which slots cannot prepare a write. -/
inductive Op (Tok Kv Gdn : Type) where
  | resetSlot (slot : Nat) (publishes : Nat) (budget : Bool)
  | prefillBegin (slot : Nat) (prompt : List Tok) (hit : Option (List Kv × Gdn))
  | prefillStep (slot size : Nat) (batched : Bool) (firstToken : Tok) (publishes : Nat) (budget : Bool)
  | decodeBatched (rows : List (Nat × DecodeRow Tok)) (refuses : Nat → Bool)
      (distinct : (rows.map Prod.fst).Nodup)
  | decodeSerial (rows : List (Nat × DecodeRow Tok)) (distinct : (rows.map Prod.fst).Nodup)
  | specRound (slot : Nat) (anchor : Tok) (drafts : List Tok) (numAccepted : Nat) (bonus : Tok)
  | evictCheckpoint (slot : Nat)
  | evictPersistent (tokens : List Tok)

/-- A call returns, or raises and leaves a state, or overflows a cache inside a forward, where the run ends. -/
inductive Outcome (σ : Type) where
  | done (state : σ)
  | raised (state : σ)
  | lost

def Outcome.state {σ : Type} : Outcome σ → Option σ
  | .done s => some s
  | .raised s => some s
  | .lost => none

section Slot

variable (E : Engine Tok Kv Gdn Hid Cache)

/-- What a restore leaves in a slot: the installed rows, `restore_recurrent_state` and `rewind_slot`. -/
def restorePrefix (rows : List Kv) (checkpoint : Gdn) (s : E.SlotOf) : E.SlotOf :=
  { s with
    kv := writeRows s.kv 0 rows
    columns := update s.columns s.active checkpoint
    attnSeqLen := rows.length
    numTokensSeen := rows.length
    kvLen := rows.length }

/-- What `build_decode_batch` does to a slot before the forward. -/
def advance (row : DecodeRow Tok) (s : E.SlotOf) : E.SlotOf :=
  { s with
    kvLen := s.kvLen + 1
    committedTokens := s.committedTokens ++ [row.token]
    numTokensSeen := s.kvLen + 1
    attnSeqLen := s.kvLen + 1 }

/-- A slot's row of `decode_batch`: the write goes behind the length, the recurrence is that of column
zero. -/
def decodeRow (row : DecodeRow Tok) (s : E.SlotOf) : E.SlotOf :=
  let out := E.model.step (readRows s.kv (s.kvLen - 1)) (s.columns 0) row.token
  { s with
    kv := writeRows s.kv (s.kvLen - 1) [out.1]
    columns := update s.columns 0 out.2.1 }

/-- The loop of `build_decode_batch`; a slot that is refused stops it behind the slots before. -/
def buildDecodeBatch (refuses : Nat → Bool) :
    List (Nat × DecodeRow Tok) → (Nat → E.SlotOf) → Outcome (Nat → E.SlotOf)
  | [], table => .done table
  | (slot, row) :: rows, table =>
    if E.maxSeqLen ≤ (table slot).kvLen ∨ refuses slot then .raised table
    else buildDecodeBatch refuses rows (update table slot (advance E row (table slot)))

def decodeForwardBatched (refuses : Nat → Bool) (rows : List (Nat × DecodeRow Tok)) (table : Nat → E.SlotOf) :
    Outcome (Nat → E.SlotOf) :=
  match buildDecodeBatch E refuses rows table with
  | .done table => .done (eachEntry (decodeRow E) rows table)
  | .raised table => .raised table
  | .lost => .lost

def decodeSerialRow (row : DecodeRow Tok) (s : E.SlotOf) : Except RoundError (E.SlotOf × List Hid) :=
  (prefillSerial E [row.token] s).map fun out =>
    ({ out.1 with kvLen := out.1.kvLen + 1, committedTokens := out.1.committedTokens ++ [row.token] }, out.2)

/-- The target side of a speculative round: verify, keep what the accept rule keeps, record what it
commits. -/
def specRound (anchor : Tok) (drafts : List Tok) (numAccepted : Nat) (bonus : Tok) (s : E.SlotOf) :
    Except RoundError E.SlotOf :=
  let pastLen := s.numTokensSeen
  match verifyForward E s (anchor :: drafts) pastLen with
  | .error e => .error e
  | .ok (s, hiddens, snapshots) =>
    (commitRequest E ⟨anchor, pastLen, hiddens, snapshots,
      ⟨numAccepted, drafts.take numAccepted ++ [bonus], none⟩⟩ s).map Prod.fst

end Slot

variable {E : Engine Tok Kv Gdn Hid Cache} [DecidableEq Tok] (cfg : Config)

def Backend.setSlot (b : Backend E) (slot : Nat) (s : E.SlotOf) : Backend E :=
  { b with slots := update b.slots slot s }

def evictCheckpoint (slot : Nat) (b : Backend E) : Backend E :=
  { b with checkpoints := update b.checkpoints slot none }

/-- `_maybe_checkpoint`. A checkpoint of the same length is taken to be the same checkpoint. -/
def maybeCheckpoint (force : Bool) (slot : Nat) (b : Backend E) : Backend E :=
  let s := b.slots slot
  if !cfg.enablePrefixCache then b
  else if s.kvLen = 0 ∨ (!force ∧ s.kvLen % cfg.blockSize ≠ 0) then b
  else if (b.checkpoints slot).map (·.len) = some s.kvLen then b
  else if s.committedTokens.length < s.kvLen then b
  else
    let tokens := s.committedTokens.take s.kvLen
    -- the persistent family already owns this boundary
    if b.persistent.any fun entry => entry.tokenIds = tokens then evictCheckpoint slot b
    else
      let checkpoint := ⟨s.kvLen, tokens, s.columns s.active⟩
      { b with
        checkpoints := update b.checkpoints slot (some checkpoint)
        registered := b.registered ++ [checkpoint] }

def blockBoundaries (kvLen : Nat) (includePartial : Bool) : List Nat :=
  (List.range (kvLen / cfg.blockSize)).map (fun i => (i + 1) * cfg.blockSize) ++
    if includePartial ∧ kvLen / cfg.blockSize * cfg.blockSize < kvLen then [kvLen] else []

/-- `_chained_block_keys` of the record, each with the rows it speaks of. -/
def chainedBlockKeys (tokens : List Tok) (kvLen : Nat) (includePartial : Bool) (s : E.SlotOf) :
    List (List Tok × List Kv) :=
  (blockBoundaries cfg kvLen includePartial).map fun bound => (tokens.take bound, readRows s.kv bound)

/-- The early returns of `_store_persistent_prefix`. `exact` is the call behind a prefill, with the prompt's
last hidden row; the other call keeps out of the way of an exact entry that it would extend. -/
def storeSkips (exact : Bool) (s : E.SlotOf) (checkpoint : Checkpoint Tok Gdn)
    (persistent : List (PersistentEntry Tok Kv Gdn)) : Bool :=
  let tokens := s.committedTokens
  let kvLen := checkpoint.len
  (exact && (decide (s.kvLen ≠ kvLen) || decide (tokens.length ≤ kvLen))) ||
    decide (kvLen = 0) || decide (tokens.length < kvLen) ||
    persistent.any (fun entry => entry.tokenIds = tokens.take kvLen) ||
    (!exact && persistent.any fun entry => entry.exact && decide (entry.tokenIds.length < kvLen) &&
      decide (tokens.take entry.tokenIds.length = entry.tokenIds))

/-- The rest of `_store_persistent_prefix`. Behind the keys the entry needs pages of its own. -/
def storeEntry (exact : Bool) (slot publishes : Nat) (budget : Bool) (checkpoint : Checkpoint Tok Gdn)
    (b : Backend E) : Backend E :=
  let s := b.slots slot
  let keys :=
    if exact ∧ cfg.dynamicArena then chainedBlockKeys cfg s.committedTokens checkpoint.len true s else []
  let b := { b with published := b.published ++ keys.take publishes }
  if publishes ≤ keys.length then b
  else
    let b := evictCheckpoint slot b
    if !budget then b
    else { b with persistent := b.persistent ++ [⟨s.committedTokens.take checkpoint.len,
      readRows s.kv checkpoint.len, checkpoint.state, exact⟩] }

def storePersistentPrefix (exact : Bool) (slot publishes : Nat) (budget : Bool) (b : Backend E) : Backend E :=
  if !cfg.enablePrefixCache ∨ !cfg.enablePersistentPrefixCache then b
  else match b.checkpoints slot with
    | none => b
    | some checkpoint =>
      if storeSkips exact (b.slots slot) checkpoint b.persistent then b
      else storeEntry cfg exact slot publishes budget checkpoint b

def resetSlot (slot publishes : Nat) (budget : Bool) (b : Backend E) : Backend E :=
  let s := b.slots slot
  let b :=
    if s.committedTokens ≠ [] ∧ 0 < s.kvLen then
      let b := { b with retained := b.retained ++ [(s.committedTokens.take s.kvLen, readRows s.kv s.kvLen)] }
      if cfg.dynamicArena then
        { b with published := b.published ++
            (chainedBlockKeys cfg s.committedTokens s.kvLen false s).take publishes }
      else storePersistentPrefix cfg false slot publishes budget b
    else b
  { b with
    slots := update b.slots slot (MtpEngine.resetSlot E s)
    inFlight := update b.inFlight slot none }

def commitPrefill (slot : Nat) (prompt : List Tok) (firstToken : Tok) (b : Backend E) : Backend E :=
  maybeCheckpoint cfg (cfg.enablePersistentPrefixCache && cfg.dynamicArena) slot
    (b.setSlot slot { b.slots slot with kvLen := prompt.length, committedTokens := prompt ++ [firstToken] })

def lengthsAgree (rows : List (Nat × DecodeRow Tok)) (b : Backend E) : Bool :=
  rows.all fun r => decide (r.2.kvLen = (b.slots r.1).kvLen)

def checkpointEach (rows : List (Nat × DecodeRow Tok)) (b : Backend E) : Backend E :=
  rows.foldl (fun b r => maybeCheckpoint cfg false r.1 b) b

def setSlots (b : Backend E) (slots : Nat → E.SlotOf) : Backend E := { b with slots := slots }

/-- One call on the backend. The scheduler decodes a slot only when its prefill is complete. -/
def step (b : Backend E) : Op Tok Kv Gdn → Outcome (Backend E)
  | .resetSlot slot publishes budget => .done (resetSlot cfg slot publishes budget b)
  | .prefillBegin slot prompt none =>
    if (b.slots slot).kvLen ≠ 0 ∨ (b.inFlight slot).isSome ∨ prompt = [] then .raised b
    else .done { b with inFlight := update b.inFlight slot (some (prompt, prompt)) }
  | .prefillBegin slot prompt (some (rows, checkpoint)) =>
    if (b.inFlight slot).isSome ∨ prompt = [] then .raised b
    else
      let b := b.setSlot slot (restorePrefix E rows checkpoint (b.slots slot))
      .done { b with inFlight := update b.inFlight slot (some (prompt, prompt.drop rows.length)) }
  | .prefillStep slot size batched firstToken publishes budget =>
    match b.inFlight slot with
    | none => .raised b
    | some (prompt, rest) =>
      match prefillForward E batched (rest.take size) (b.slots slot) with
      | .error _ => .lost
      | .ok (s, _) =>
        let b := b.setSlot slot s
        if rest.drop size = [] then
          let b := { b with inFlight := update b.inFlight slot none }
          .done (storePersistentPrefix cfg true slot publishes budget (commitPrefill cfg slot prompt firstToken b))
        else .done { b with inFlight := update b.inFlight slot (some (prompt, rest.drop size)) }
  | .decodeBatched rows refuses _ =>
    if !lengthsAgree rows b ∨ rows.any fun r => (b.inFlight r.1).isSome then .raised b
    else match decodeForwardBatched E refuses rows b.slots with
      | .done slots => .done (checkpointEach cfg rows (setSlots b slots))
      | .raised slots => .raised (setSlots b slots)
      | .lost => .lost
  | .decodeSerial rows _ =>
    if !lengthsAgree rows b ∨ rows.any fun r => (b.inFlight r.1).isSome then .raised b
    else match eachRequest (decodeSerialRow E) rows b.slots with
      | .error _ => .lost
      | .ok (slots, _) => .done (checkpointEach cfg rows (setSlots b slots))
  | .specRound slot anchor drafts numAccepted bonus =>
    if E.k < drafts.length ∨ drafts.length < numAccepted ∨ (b.inFlight slot).isSome then .raised b
    else match specRound E anchor drafts numAccepted bonus (b.slots slot) with
      | .error _ => .lost
      | .ok s => .done (maybeCheckpoint cfg false slot (b.setSlot slot s))
  | .evictCheckpoint slot => .done (evictCheckpoint slot b)
  | .evictPersistent tokens =>
    .done { b with persistent := b.persistent.filter fun entry => entry.tokenIds ≠ tokens }

def next (b : Backend E) (op : Op Tok Kv Gdn) : Option (Backend E) := (step cfg b op).state

end CommittedRecord
