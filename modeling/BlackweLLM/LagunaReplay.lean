import BlackweLLM.LagunaChunks
import BlackweLLM.LagunaRing
import BlackweLLM.StepRun

/-!
# Laguna prefix replay

The prefills of one Laguna slot and what `generate_verify_only` of
`runtime/backends/laguna_dflash.py` reuses of a retained one. A forward is a
function of its whole chunk, of where it starts, of the rows in front of it and
of the window rows copied in, so that chunks of different shapes may leave
different bits.
-/

namespace LagunaReplay

open Function LagunaChunks LagunaRing StepRun

/-- The target's forwards: a prefill chunk and a decode of one token. -/
structure Target (Tok Row Win : Type) where
  row : List Tok → Nat → List Row → List Win → Nat → Row
  window : List Tok → Nat → List Row → List Win → Nat → Win
  anchor : List Tok → Nat → List Row → List Win → Tok
  decodeRow : Tok → Nat → List Row → List Win → Row
  decodeWindow : Tok → Nat → List Row → List Win → Win
  decodeToken : Tok → Nat → List Row → List Win → Tok
  zeroWindow : Win

structure Config (Tok Row Win : Type) where
  target : Target Tok Row Win
  chunkTokens : Nat
  blockSize : Nat
  window : Nat
  ringSlots : Nat
  draftCapacity : Nat
  draftWindow : Nat
  window_le : window ≤ ringSlots

/-- One slot: its full-attention rows, its ring and what the backend remembers of it. -/
structure Slot (Tok Row Win : Type) where
  kv : Nat → Row
  ring : Nat → Win
  kvLen : Nat
  committed : List Tok
  /-- `_prefix_chunk_snapshots[slot]`: the boundary and the ring behind it. -/
  snapshot : Option (Nat × (Nat → Win))
  /-- The prefill chunk that last wrote a position, kept for the statements only. -/
  origin : Nat → Option (Nat × Nat)
  /-- The prefill chunks forwarded so far, kept for the statements only. -/
  forwards : List (Nat × Nat)

inductive ReplayError where
  | range (e : RangeError)
  | notBoundary (start : Nat)
  | index (position : Nat)
  deriving DecidableEq, Repr

variable {Tok Row Win : Type} (cfg : Config Tok Row Win)

/-- One prefill forward of `tokens` at `start`, with `overlap` positions copied in from the ring. -/
def runChunk (tokens : List Tok) (start overlap : Nat) (s : Slot Tok Row Win) : Tok × Slot Tok Row Win :=
  let history := (List.range start).map s.kv
  let copied := (List.range overlap).map fun i => s.ring ((start - overlap + i) % cfg.ringSlots)
  let stop := start + tokens.length
  let scratch (i : Nat) : Win :=
    if i < overlap then s.ring ((start - overlap + i) % cfg.ringSlots)
    else cfg.target.window tokens start history copied (i - overlap)
  let copyCount := min cfg.window (overlap + tokens.length)
  (cfg.target.anchor tokens start history copied,
    { s with
      kv := fun p => if start ≤ p ∧ p < stop then cfg.target.row tokens start history copied (p - start) else s.kv p
      ring := scatter s.ring ((List.range copyCount).map fun j =>
        ((stop - copyCount + j) % cfg.ringSlots, scratch (overlap + tokens.length - copyCount + j)))
      origin := fun p => if start ≤ p ∧ p < stop then some (start, stop) else s.origin p
      forwards := s.forwards ++ [(start, stop)] })

/-- One chunk of a prompt, with the window in front of it as overlap. -/
def runRange (promptIds : List Tok) (range : Nat × Nat) (s : Slot Tok Row Win) : Tok × Slot Tok Row Win :=
  runChunk cfg (promptIds.extract range.1 range.2) range.1 (min cfg.window range.1) s

def capturePrefixChunkSnapshot (boundary : Nat) (s : Slot Tok Row Win) : Slot Tok Row Win :=
  { s with snapshot := some (boundary, s.ring) }

/-- The loop over the chunks, which takes the snapshot behind the boundary; the anchor is the last chunk's. -/
def runRanges (promptIds : List Tok) (boundary : Option Nat) (ranges : List (Nat × Nat))
    (r : Option Tok × Slot Tok Row Win) : Option Tok × Slot Tok Row Win :=
  ranges.foldl (fun r range =>
    let step := runRange cfg promptIds range r.2
    (some step.1, if boundary = some range.2 then capturePrefixChunkSnapshot range.2 step.2 else step.2)) r

def prefixSnapshotBoundary (ranges : List (Nat × Nat)) (promptLen : Nat) : Option Nat :=
  ((ranges.map Prod.snd).filter fun stop => decide (stop < promptLen ∧ stop % cfg.chunkTokens = 0)).getLast?

def commitPrefill (promptIds : List Tok) (r : Option Tok × Slot Tok Row Win) :
    Except ReplayError (Tok × Slot Tok Row Win) :=
  match r with
  | (some firstToken, s) => .ok (firstToken, { s with kvLen := promptIds.length, committed := promptIds ++ [firstToken] })
  | (none, _) => .error (.index 0)

/-- `_prefill_chunk_ranges` for a prompt, with the window as the shortest final chunk. -/
def coldRanges (promptLen : Nat) : Except ReplayError (List (Nat × Nat)) :=
  match prefillChunkRanges 0 promptLen cfg.chunkTokens cfg.window with
  | .ok ranges => .ok ranges
  | .error e => .error (.range e)

/-- The chunks that a cold prefill forwards: a short prompt goes in one. -/
def coldSchedule (promptLen : Nat) : Except ReplayError (List (Nat × Nat)) :=
  if promptLen ≤ cfg.chunkTokens then .ok [(0, promptLen)] else coldRanges cfg promptLen

/-- `prefill_with_aux` without a hit. -/
def prefillCold (promptIds : List Tok) (s : Slot Tok Row Win) : Except ReplayError (Tok × Slot Tok Row Win) :=
  let s := { s with snapshot := none }
  if promptIds.length ≤ cfg.chunkTokens then
    commitPrefill promptIds (runRanges cfg promptIds none [(0, promptIds.length)] (none, s))
  else
    match coldRanges cfg promptIds.length with
    | .error e => .error e
    | .ok ranges =>
      commitPrefill promptIds
        (runRanges cfg promptIds (prefixSnapshotBoundary cfg ranges promptIds.length) ranges (none, s))

def prefillWithPrefixHit (promptIds : List Tok) (prefixHit : Nat) (s : Slot Tok Row Win) :
    Except ReplayError (Tok × Slot Tok Row Win) :=
  let s := { s with snapshot := none }
  let rebuildLen := min cfg.window prefixHit
  let s := if cfg.window = 0 then s else
    (runChunk cfg (promptIds.extract (prefixHit - rebuildLen) prefixHit) (prefixHit - rebuildLen) 0
      { s with ring := fun _ => cfg.target.zeroWindow }).2
  let s := { s with kvLen := prefixHit }
  if promptIds.length - prefixHit ≤ cfg.chunkTokens then
    commitPrefill promptIds (runRanges cfg promptIds none [(prefixHit, promptIds.length)] (none, s))
  else
    match coldRanges cfg (promptIds.length - prefixHit) with
    | .error e => .error e
    | .ok ranges =>
      commitPrefill promptIds
        (runRanges cfg promptIds none (ranges.map fun range => (prefixHit + range.1, prefixHit + range.2)) (none, s))

def prefillWithAux (promptIds : List Tok) (prefixHit : Nat) (s : Slot Tok Row Win) :
    Except ReplayError (Tok × Slot Tok Row Win) :=
  if 0 < prefixHit then prefillWithPrefixHit cfg promptIds prefixHit s else prefillCold cfg promptIds s

def decodeAt (token : Tok) (position : Nat) (s : Slot Tok Row Win) : Tok × Slot Tok Row Win :=
  let history := (List.range position).map s.kv
  let seen := (List.range' (position + 1 - cfg.window) (position - (position + 1 - cfg.window))).map
    fun p => s.ring (p % cfg.ringSlots)
  (cfg.target.decodeToken token position history seen,
    { s with
      kv := update s.kv position (cfg.target.decodeRow token position history seen)
      ring := if cfg.window = 0 then s.ring else
        update s.ring (position % cfg.ringSlots) (cfg.target.decodeWindow token position history seen)
      origin := update s.origin position none })

/-- The ranges that `continue_prefill_with_aux` runs over a long suffix. -/
def continueRanges (promptLen startPos : Nat) (exactColdReplay : Bool) : Except ReplayError (List (Nat × Nat)) :=
  if exactColdReplay then
    match coldRanges cfg promptLen with
    | .error e => .error e
    | .ok fullRanges =>
      let ranges := fullRanges.filter fun range => startPos ≤ range.1
      if ranges.head?.map Prod.fst = some startPos then .ok ranges else .error (.notBoundary startPos)
  else
    match prefillChunkRanges startPos promptLen cfg.chunkTokens cfg.window with
    | .ok ranges => .ok ranges
    | .error e => .error (.range e)

def continuePrefillWithAux (promptIds : List Tok) (startPos : Nat) (exactColdReplay : Bool) (s : Slot Tok Row Win) :
    Except ReplayError (Tok × Slot Tok Row Win) :=
  let s := { s with kvLen := startPos }
  if promptIds.length ≤ startPos then
    match promptIds[startPos - 1]? with
    | none => .error (.index (startPos - 1))
    | some lastToken =>
      let step := decodeAt cfg lastToken (startPos - 1) s
      .ok (step.1, { step.2 with kvLen := startPos, committed := promptIds ++ [step.1] })
  else if promptIds.length - startPos ≤ cfg.chunkTokens then
    commitPrefill promptIds (runRanges cfg promptIds none [(startPos, promptIds.length)] (none, s))
  else
    match continueRanges cfg promptIds.length startPos exactColdReplay, coldRanges cfg promptIds.length with
    | .ok ranges, .ok fullRanges =>
      commitPrefill promptIds
        (runRanges cfg promptIds (prefixSnapshotBoundary cfg fullRanges promptIds.length) ranges (none, s))
    | .error e, _ => .error e
    | _, .error e => .error e

section Reuse

variable [DecidableEq Tok]

/-- The tokens that a prompt and a history agree on from the start. -/
def matchLength : List Tok → List Tok → Nat
  | a :: as, b :: bs => if a = b then matchLength as bs + 1 else 0
  | _, _ => 0

def findPrefixMatch (promptIds : List Tok) (s : Slot Tok Row Win) : Nat :=
  if s.committed = [] ∨ s.kvLen = 0 then 0
  else min (matchLength s.committed promptIds / cfg.blockSize * cfg.blockSize) s.kvLen

def exactPrefixReplayBoundary (prefixLen promptLen : Nat) (snapshotBoundary : Option Nat) :
    Except ReplayError (Option Nat) :=
  match snapshotBoundary with
  | none => .ok none
  | some boundary =>
    if boundary = 0 then .ok none
    else if prefixLen < boundary then .ok none
    else
      match coldRanges cfg promptLen with
      | .error e => .error e
      | .ok targetRanges => .ok (if targetRanges.any (fun range => range.1 = boundary) then some boundary else none)

def prepareExactPrefixReplay (promptIds : List Tok) (matchedPrefixLen : Nat) (s : Slot Tok Row Win) :
    Except ReplayError (Option (Nat × Slot Tok Row Win)) :=
  match exactPrefixReplayBoundary cfg matchedPrefixLen promptIds.length (s.snapshot.map Prod.fst) with
  | .error e => .error e
  | .ok none => .ok none
  | .ok (some boundary) =>
    match s.snapshot with
    | none => .ok none
    | some snapshot =>
      .ok (some (boundary, { s with ring := snapshot.2, kvLen := boundary, committed := promptIds.take boundary }))

def ringPrefixReuseIsSafe (cachedKvLen prefixLen : Nat) : Bool :=
  decide (0 < prefixLen ∧ prefixLen ≤ cachedKvLen ∧ cachedKvLen - prefixLen ≤ cfg.ringSlots - cfg.window ∧
    cachedKvLen - prefixLen ≤ cfg.draftCapacity - cfg.draftWindow)

def resetSlot (s : Slot Tok Row Win) : Slot Tok Row Win :=
  { s with kvLen := 0, committed := [], snapshot := none }

/-- The replay of a retained prefix, or the reset and cold prefill where there is none to replay. -/
def replayOrReset (promptIds : List Tok) (matchedPrefixLen : Nat) (s : Slot Tok Row Win) :
    Except ReplayError (Tok × Slot Tok Row Win) :=
  match prepareExactPrefixReplay cfg promptIds matchedPrefixLen s with
  | .error e => .error e
  | .ok (some (boundary, s)) => continuePrefillWithAux cfg promptIds boundary true s
  | .ok none => prefillWithAux cfg promptIds 0 (if promptIds = [] then s else resetSlot s)

def generatePrefill (promptIds : List Tok) (s : Slot Tok Row Win) : Except ReplayError (Tok × Slot Tok Row Win) :=
  let prefixLen := findPrefixMatch cfg promptIds s
  if 0 < prefixLen ∧ prefixLen < promptIds.length then replayOrReset cfg promptIds prefixLen s
  else if promptIds.length ≤ prefixLen then
    if ringPrefixReuseIsSafe cfg s.kvLen prefixLen then continuePrefillWithAux cfg promptIds prefixLen false s
    else replayOrReset cfg promptIds promptIds.length s
  else prefillWithAux cfg promptIds 0 (resetSlot s)

end Reuse

/-- What can happen to a retained slot. -/
inductive Op (Tok Row Win : Type) where
  /-- The prefill of `generate_verify_only`. -/
  | generate (promptIds : List Tok)
  /-- A decode or a verify round: the rows it writes behind the KV length, how many stay and the tokens it appends. -/
  | round (rows : List (Row × Win)) (contextCount : Nat) (committed : List Tok)
  /-- `prefill_with_aux`, as the server's admission calls it. -/
  | prefill (promptIds : List Tok) (prefixHit : Nat)
  | reset

def round (rows : List (Row × Win)) (contextCount : Nat) (committed : List Tok) (s : Slot Tok Row Win) :
    Slot Tok Row Win :=
  { s with
    kv := scatter s.kv (rows.mapIdx fun i row => (s.kvLen + i, row.1))
    ring := if cfg.window = 0 then s.ring else
      scatter s.ring (rows.mapIdx fun i row => ((s.kvLen + i) % cfg.ringSlots, row.2))
    origin := fun p => if s.kvLen ≤ p ∧ p < s.kvLen + rows.length then none else s.origin p
    kvLen := s.kvLen + contextCount
    committed := s.committed ++ committed }

def next [DecidableEq Tok] (s : Slot Tok Row Win) : Op Tok Row Win → Option (Slot Tok Row Win)
  | .generate promptIds => (generatePrefill cfg promptIds s).toOption.map Prod.snd
  | .round rows contextCount committed =>
    if contextCount ≤ rows.length then some (round cfg rows contextCount committed s) else none
  | .prefill promptIds prefixHit => (prefillWithAux cfg promptIds prefixHit s).toOption.map Prod.snd
  | .reset => some (resetSlot s)

def fresh (kv : Nat → Row) (ring : Nat → Win) : Slot Tok Row Win := ⟨kv, ring, 0, [], none, fun _ => none, []⟩

end LagunaReplay
