import BlackweLLM.ScratchStore
import BlackweLLM.StepRun

/-!
# The backend over the scratch row

The calls of `Qwen36Backend` with the fixed arena: what a request restores,
what it writes and what it leaves behind.
-/

namespace ScratchStore

open Function RaisingState FixedArena CheckpointPool

variable {Tok Hash β : Type} [DecidableEq Tok] [DecidableEq Hash]

section Hits

variable (cfg : Config Tok Hash)

def prefixHitForSlot (s : Backend Tok Hash β) (tokens : List Tok) (slot : Nat) : PrefixHit :=
  match s.prefixCache slot with
  | none => noHit
  | some (cached, cachedLen) =>
    let matchLen := (((tokens.zip cached).take cachedLen).takeWhile fun pair => pair.1 = pair.2).length
    let aligned := matchLen / cfg.blockSize * cfg.blockSize
    let kvHit := if tokens.length ≤ aligned then (tokens.length - 1) / cfg.blockSize * cfg.blockSize else aligned
    if kvHit = 0 then noHit
    else
      match s.checkpointLen slot with
      | none => ⟨kvHit, 0⟩
      | some length =>
        if length ≤ kvHit ∧ s.checkpointPool.contains (.rolling slot length) ∧
            s.checkpointPool.byHash (cfg.hash (tokens.take length)) = some (.rolling slot length) then
          ⟨kvHit, length⟩
        else ⟨kvHit, 0⟩

def persistentPrefixEntry (s : Backend Tok Hash β) (tokens : List Tok) : Option (Entry Tok Hash) :=
  s.persistent.foldl (fun best entry =>
    if tokens.length < entry.kvLen ∨ tokens.length = entry.kvLen ∧ entry.finalHidden = false ∨
        tokens.take entry.kvLen ≠ entry.tokens then best
    else if ¬s.checkpointPool.contains (.persistent entry.hashValue) then best
    else if s.checkpointPool.byHash (cfg.hash (tokens.take entry.kvLen)) ≠ some (.persistent entry.hashValue) then best
    else if best.all fun found => found.kvLen < entry.kvLen then some entry
    else best) none

def persistentPrefixHit (s : Backend Tok Hash β) (tokens : List Tok) : PrefixHit :=
  match persistentPrefixEntry cfg s tokens with
  | none => noHit
  | some entry => ⟨entry.kvLen, entry.kvLen⟩

/-- The order of two hits; `preferred` says which of them is the preferred slot's. -/
def better (hit best : PrefixHit) (preferred bestPreferred : Bool) : Bool :=
  best.effective < hit.effective ||
    best.effective = hit.effective && (best.kvHit < hit.kvHit || best.kvHit = hit.kvHit && !bestPreferred && preferred)

/-- `_best_prefix_source`; `canRestore` is what the speculative drivers say. -/
def bestPrefixSource (canRestore : Nat → Nat → Bool) (s : Backend Tok Hash β) (tokens : List Tok)
    (preferred : Option Nat) : Option Nat × PrefixHit :=
  (List.range s.arena.geometry.numSlots).foldl (fun best source =>
    let hit := prefixHitForSlot cfg s tokens source
    if s.arena.kvLen source ≠ 0 then best
    else if 0 < hit.effective ∧ canRestore source hit.effective = false then best
    else if better hit best.2 (some source = preferred) (best.1 = preferred) then (some source, hit)
    else best) (none, noHit)

/-- `reconcile_prefix_hit`, which notes the source for a later call. -/
def reconcilePrefixHit (canRestore : Nat → Nat → Bool) (tokens : List Tok) (s : Backend Tok Hash β) :
    Backend Tok Hash β :=
  let best := bestPrefixSource cfg canRestore s tokens none
  if tokens = [] ∨ better (persistentPrefixHit cfg s tokens) best.2 false false then s
  else
    match best.1 with
    | none => s
    | some source =>
      if 0 < best.2.effective then { s with pendingHits := update s.pendingHits source (some best.2) } else s

end Hits

section Restore

variable (cfg : Config Tok Hash)

/-- `_restore_persistent_prefix`; `restores` is whether the speculative driver has its part. -/
def restorePersistentPrefix (restores : Bool) (slot : Nat) (prompt : List Tok) : StoreM Tok Hash β Nat := do
  let s ← get
  match persistentPrefixEntry cfg s prompt with
  | none => pure 0
  | some entry =>
    dropPrefixCache slot
    onArena (shareScratchPrefix slot entry.kvLen (entry.scratchPageOffsets.map s.arena.geometry.scratchPage))
    onArena (rewindSlot slot entry.kvLen)
    raiseIf (restores = false) .speculative
    touch (.persistent entry.hashValue)
    moveToEnd entry
    if entry.kvLen = prompt.length ∧ entry.finalHidden then
      modify fun s => { s with cachedHidden := update s.cachedHidden slot true }
    pure entry.kvLen

/-- Where `_apply_prefix_hit` restores from: the hit that is pending for the slot, else the best source. -/
def findSource (canRestore : Nat → Nat → Bool) (s : Backend Tok Hash β) (slot : Nat) (prompt : List Tok) :
    Option Nat × PrefixHit :=
  match s.pendingHits slot with
  | some hit => if 0 < hit.effective then (some slot, hit) else bestPrefixSource cfg canRestore s prompt (some slot)
  | none => bestPrefixSource cfg canRestore s prompt (some slot)

def applyPrefixHit (canRestore : Nat → Nat → Bool) (restores : Bool) (slot : Nat) (prompt : List Tok) :
    StoreM Tok Hash β Nat := do
  let s ← get
  let persistent := persistentPrefixHit cfg s prompt
  set { s with pendingHits := update s.pendingHits slot none }
  let found := findSource cfg canRestore s slot prompt
  let length := found.2.effective
  if 0 < persistent.effective ∧ length ≤ persistent.effective then restorePersistentPrefix cfg restores slot prompt
  else
    match found.1 with
    | none => pure 0
    | some source =>
      if length = 0 ∨ prompt.length ≤ length ∨ s.checkpointLen source ≠ some length ∨
          s.checkpointPool.byHash (cfg.hash (prompt.take length)) ≠ some (.rolling source length) ∨
          canRestore source length = false then
        pure 0
      else
        if source ≠ slot then
          dropPrefixCache slot
          onArena (sharePrefixKv source slot length)
        onArena (rewindSlot slot length)
        touch (.rolling source length)
        pure length

end Restore

section Forwards

def forward (slot : Nat) (entries : List β) : ArenaM β Unit := do
  let s ← get
  raiseIf (s.geometry.maxSeqLen < s.seen slot + entries.length)
    (.cacheOverflow s.geometry.maxSeqLen (s.seen slot + entries.length))
  modify (writeKv slot (s.seen slot) entries)
  modify fun s => { s with seen := update s.seen slot (s.seen slot + entries.length) }

def progress (slot n : Nat) (s : Backend Tok Hash β) : Backend Tok Hash β :=
  { s with
    inFlight := update s.inFlight slot ((s.inFlight slot).map fun prefill => (prefill.1, prefill.2 + n)) }

/-- A chunk of one slot on the serial branch of `prefill_chunked_step`. -/
def prefillSerial (slot : Nat) (entries : List β) : StoreM Tok Hash β Unit := do
  let s ← get
  match s.inFlight slot with
  | none => pure ()
  | some (prompt, done) =>
    let chunk := entries.take (prompt.length - done)
    onArena (prepareKvWrites slot done chunk.length)
    onArena (forward slot chunk)
    modify (progress slot chunk.length)

/-- A row of a batched chunk is a part of what is left of its prompt. -/
def fitsPrompt (s : Backend Tok Hash β) (row : Nat × List β) : Bool :=
  (s.inFlight row.1).any fun prefill => prefill.2 + row.2.length ≤ prefill.1.length

/-- The checks of `build_prefill_batch` on the host's lengths. -/
def checkPrefillBatch (rows : List (Nat × List β)) : StoreM Tok Hash β Unit := do
  let s ← get
  let slots := rows.map Prod.fst
  let q := ((rows.map Prod.snd).headD []).length
  let past := s.arena.kvLen (slots.headD 0)
  raiseIf (¬slots.Nodup ∨ q = 0 ∨ ∃ row ∈ rows, row.2.length ≠ q ∨ fitsPrompt s row = false) .batch
  raiseIf (∃ slot ∈ slots, s.arena.kvLen slot ≠ past ∨ s.arena.seen slot ≠ past) .batch

/-- A batched chunk: every slot is prepared before the forward, and the lengths follow it. -/
def prefillBatched (rows : List (Nat × List β)) : StoreM Tok Hash β Unit := do
  checkPrefillBatch rows
  let s ← get
  forM rows fun row => onArena (prepareKvWrites row.1 (s.arena.kvLen row.1) row.2.length)
  modify fun s => { s with arena := rows.foldl (fun arena row => writeKv row.1 (arena.kvLen row.1) row.2 arena) s.arena }
  modify fun s => rows.foldl (fun s row =>
    progress row.1 row.2.length
      { s with
        arena :=
          { s.arena with
            kvLen := update s.arena.kvLen row.1 (s.arena.kvLen row.1 + row.2.length)
            seen := update s.arena.seen row.1 (s.arena.kvLen row.1 + row.2.length) } }) s

variable (cfg : Config Tok Hash)

/-- `_commit_prefill` of a prompt that has been forwarded; `false` where there is none. -/
def commitPrefill (slot : Nat) (firstToken : Tok) : StoreM Tok Hash β Bool := do
  let s ← get
  match s.inFlight slot with
  | none => pure false
  | some (prompt, done) =>
    if done ≠ prompt.length then pure false
    else
      set { s with
        arena := { s.arena with kvLen := update s.arena.kvLen slot prompt.length }
        committed := update s.committed slot (prompt ++ [firstToken])
        cachedHidden := update s.cachedHidden slot false
        inFlight := update s.inFlight slot none }
      maybeCheckpoint cfg slot
      pure true

/-- The last call for a slot of `prefill_chunked_step`. -/
def finishPrefill (snapshots : Bool) (slot : Nat) (firstToken : Tok) : StoreM Tok Hash β Unit := do
  if ← commitPrefill cfg slot firstToken then storePersistentPrefix cfg true snapshots slot

/-- `slot_committed_tokens[slot].extend` and the lengths behind a decode. -/
def extendCommitted (slot : Nat) (tokens : List Tok) (kvLen : Nat) (s : Backend Tok Hash β) : Backend Tok Hash β :=
  { s with
    arena :=
      { s.arena with
        kvLen := update s.arena.kvLen slot kvLen, seen := update s.arena.seen slot kvLen }
    committed := update s.committed slot (s.committed slot ++ tokens) }

def stageDecode (slot : Nat) (token : Tok) : StoreM Tok Hash β Unit := do
  let s ← get
  raiseIf (s.arena.geometry.maxSeqLen ≤ s.arena.kvLen slot) (.capacity slot)
  onArena (prepareKvWrites slot (s.arena.kvLen slot) 1)
  modify (extendCommitted slot [token] (s.arena.kvLen slot + 1))

def decodeBatched (rows : List (Nat × Tok × β)) : StoreM Tok Hash β Unit := do
  forM rows fun row => stageDecode row.1 row.2.1
  modify fun s =>
    { s with arena := rows.foldl (fun arena row => writeKv row.1 (arena.kvLen row.1 - 1) [row.2.2] arena) s.arena }
  forM rows fun row => maybeCheckpoint cfg row.1

def decodeSerialOne (slot : Nat) (token : Tok) (entry : β) : StoreM Tok Hash β Unit := do
  onArena (forward slot [entry])
  modify fun s =>
    { s with
      arena := { s.arena with kvLen := update s.arena.kvLen slot (s.arena.kvLen slot + 1) }
      committed := update s.committed slot (s.committed slot ++ [token]) }

/-- A round of plain decoding with `batched_decode=False`. -/
def decodeSerial (rows : List (Nat × Tok × β)) : StoreM Tok Hash β Unit := do
  forM rows fun row => decodeSerialOne row.1 row.2.1 row.2.2
  forM rows fun row => maybeCheckpoint cfg row.1

/-- A verify of one slot: `entries` are written, and the first `accepted` of them stay. The graphs prepare their
writes, the eager forward does not. -/
def verify (prepared : Bool) (slot accepted : Nat) (entries : List β) (tokens : List Tok) : StoreM Tok Hash β Unit := do
  let s ← get
  if prepared then onArena (prepareKvWrites slot (s.arena.kvLen slot) entries.length)
  onArena (forward slot entries)
  modify (extendCommitted slot tokens (s.arena.kvLen slot + min accepted entries.length))
  maybeCheckpoint cfg slot

end Forwards

section Lifecycle

variable (cfg : Config Tok Hash)

/-- The prefix that a slot keeps; `false` where it has none. -/
def retainPrefix (slot : Nat) : StoreM Tok Hash β Bool := do
  let s ← get
  if s.committed slot ≠ [] ∧ 0 < s.arena.kvLen slot then
    set { s with
      prefixCache := update s.prefixCache slot (some (s.committed slot, s.arena.kvLen slot)) }
    pure true
  else pure false

def resetSlot (snapshots : Bool) (slot : Nat) : StoreM Tok Hash β Unit := do
  if ← retainPrefix slot then storePersistentPrefix cfg false snapshots slot
  modify fun s =>
    { s with
      arena := FixedArena.resetSlot slot s.arena
      committed := update s.committed slot []
      pendingHits := update s.pendingHits slot none
      cachedHidden := update s.cachedHidden slot false
      inFlight := update s.inFlight slot none }

def prefillBegin (canRestore : Nat → Nat → Bool) (restores : Bool) (slot : Nat) (prompt : List Tok) :
    StoreM Tok Hash β Unit := do
  let hit ← applyPrefixHit cfg canRestore restores slot prompt
  let s ← get
  raiseIf (s.arena.kvLen slot ≠ hit) (.dirty slot (s.arena.kvLen slot) hit)
  raiseIf (prompt.length ≤ hit ∧ s.cachedHidden slot = false) (.nothing slot)
  set { s with inFlight := update s.inFlight slot (some (prompt, hit)) }

/-- One warm-up of `_capture_decode_graphs`: the slots are reset, staged and written. -/
def captureWarm (rows : List (Nat × Tok × β)) : StoreM Tok Hash β Unit := do
  modify fun s => rows.foldl (fun s row =>
    { s with
      arena := FixedArena.resetSlot row.1 s.arena, committed := update s.committed row.1 [] }) s
  forM rows fun row => stageDecode row.1 row.2.1
  modify fun s =>
    { s with arena := rows.foldl (fun arena row => writeKv row.1 (arena.kvLen row.1 - 1) [row.2.2] arena) s.arena }

def clearPersistentPrefixes : StoreM Tok Hash β Unit := do
  let s ← get
  forM s.persistent fun entry => do
    unpin (.persistent entry.hashValue)
    evict (.persistent entry.hashValue)

/-- What `capture_decode_cuda_graph` does in any case at its end. -/
def captureEnd : StoreM Tok Hash β Unit := do
  modify fun s =>
    { s with
      arena := { s.arena with kvLen := fun _ => 0, seen := fun _ => 0 }
      committed := fun _ => []
      inFlight := fun _ => none }
  clearPersistentPrefixes
  modify fun s => { s with prefixCache := fun _ => none, pendingHits := fun _ => none }

/-- The scratch row's part of a ragged verify: its first positions take what is rejected. -/
def verifyScratch (entries : List β) : StoreM Tok Hash β Unit := do
  let s ← get
  onArena (prepareKvWrites s.arena.geometry.scratchRow 0 entries.length)
  modify fun s => { s with arena := writeKv s.arena.geometry.scratchRow 0 entries s.arena }

end Lifecycle

/-- Calls on the backend, with what the model and the speculative drivers answer. -/
inductive Op (Tok β : Type) where
  | reconcilePrefixHit (canRestore : Nat → Nat → Bool) (tokens : List Tok)
  | prefillBegin (canRestore : Nat → Nat → Bool) (restores : Bool) (slot : Nat) (prompt : List Tok)
  | prefillSerial (slot : Nat) (entries : List β)
  | prefillBatched (rows : List (Nat × List β))
  | finishPrefill (snapshots : Bool) (slot : Nat) (firstToken : Tok)
  | decodeBatched (rows : List (Nat × Tok × β))
  | decodeSerial (rows : List (Nat × Tok × β))
  | verify (prepared : Bool) (slot accepted : Nat) (entries : List β) (tokens : List Tok)
  | verifyScratch (entries : List β)
  | resetSlot (snapshots : Bool) (slot : Nat)
  | dropPrefixCache (slot : Nat)
  | captureWarm (rows : List (Nat × Tok × β))
  | captureEnd

def Op.slots : Op Tok β → List Nat
  | .reconcilePrefixHit _ _ => []
  | .prefillBegin _ _ slot _ => [slot]
  | .prefillSerial slot _ => [slot]
  | .prefillBatched rows => rows.map Prod.fst
  | .finishPrefill _ slot _ => [slot]
  | .decodeBatched rows => rows.map Prod.fst
  | .decodeSerial rows => rows.map Prod.fst
  | .verify _ slot _ _ _ => [slot]
  | .verifyScratch _ => []
  | .resetSlot _ slot => [slot]
  | .dropPrefixCache slot => [slot]
  | .captureWarm rows => rows.map Prod.fst
  | .captureEnd => []

variable (cfg : Config Tok Hash)

def call : Op Tok β → StoreM Tok Hash β Unit
  | .reconcilePrefixHit canRestore tokens => modify (reconcilePrefixHit cfg canRestore tokens)
  | .prefillBegin canRestore restores slot prompt => prefillBegin cfg canRestore restores slot prompt
  | .prefillSerial slot entries => prefillSerial slot entries
  | .prefillBatched rows => prefillBatched rows
  | .finishPrefill snapshots slot firstToken => finishPrefill cfg snapshots slot firstToken
  | .decodeBatched rows => decodeBatched cfg rows
  | .decodeSerial rows => decodeSerial cfg rows
  | .verify prepared slot accepted entries tokens => verify cfg prepared slot accepted entries tokens
  | .verifyScratch entries => verifyScratch entries
  | .resetSlot snapshots slot => resetSlot cfg snapshots slot
  | .dropPrefixCache slot => dropPrefixCache slot
  | .captureWarm rows => captureWarm rows
  | .captureEnd => captureEnd

/-- A step is a call with slots of the pool; a call that raises is a step as well. -/
def next (s : Backend Tok Hash β) (op : Op Tok β) : Option (Backend Tok Hash β) :=
  if ∀ slot ∈ op.slots, slot < s.arena.geometry.numSlots then some (endState (call cfg op s)) else none

end ScratchStore
