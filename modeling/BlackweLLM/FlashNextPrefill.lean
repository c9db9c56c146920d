import BlackweLLM.FlashNextPrefix
import BlackweLLM.StepRun

/-!
# Flash-Next admissions

One slot of `runtime/backends/flashnext.py` at work: `_prefill_slot` with its
hit branches and its chunks, the decode step, the speculative round of
`FlashNextSpecEngine` and the reset. A call that raises leaves what it did. What
the target's head, the sampler and the proposer decide is an input.
-/

namespace FlashNext

open RaisingState (raiseIf)

variable {V : Type}

section Target

variable (M : Model V)

/-- `update_index_cache_eager` of one row: a group is pooled when its last row is written. Without
MRoPE positions the rope rows stay as they are. -/
def updateIndexCacheEager (given : Bool) (Q : Qsa V) (c : AttnState V) (r : Row V × V) : AttnState V :=
  let group := r.1.position / compressRatio
  let raw : AttnState V := { c with
    idxKPool := Function.update c.idxKPool (r.1.position % M.indexRows) (Q.ki r.1.rope r.2)
    idxRopePool := if given then Function.update c.idxRopePool (r.1.position % M.indexRows) r.1.rope else c.idxRopePool }
  if (r.1.position + 1) % compressRatio = 0 then
    { raw with
      pooledKPool := Function.update c.pooledKPool group
        (Q.pool ((List.range compressRatio).map fun offset =>
            raw.idxKPool ((group * compressRatio + offset) % M.indexRows))
          (if given then raw.idxRopePool (group * compressRatio % M.indexRows) else axes (group * compressRatio))) }
  else raw

def prefillQsaStep (given : Bool) (L : Layer V) (Q : Qsa V) (c : AttnState V) (r : Row V × V) :
    AttnState V × (Row V × V) :=
  let c' := writeKv Q (updateIndexCacheEager M given Q c r) [r]
  (c', (r.1, L.combine r.2 (attendRow Q c' r)))

def prefillAttnStep (given : Bool) (L : Layer V) : AttnState V → Row V × V → AttnState V × (Row V × V) :=
  match L.attn with
  | .gdn G => gdnStep L G
  | .qsa Q => prefillQsaStep M given L Q

/-- A layer of `prefill_session`, row by row. -/
def prefillLayer (given : Bool) (L : Layer V) : LayerState V → Row V × V → LayerState V × (Row V × V) :=
  Cascade.comp (pleStep L) (prefillAttnStep M given L)

/-- The rows of a chunk: `history` are the tokens before it that the PLE gather is given. -/
def prefillRows (history : List ℕ) (pos : ℕ) (chunk : List (Input V)) : List (Row V × V) :=
  chunk.mapIdx fun i x =>
    (⟨pos + i, x.rope.getD (axes (pos + i)),
      M.pleRow (ngram M.eosTokenId M.ngramSize (history ++ (chunk.take (i + 1)).map Input.token))⟩, x.embed)

@[simp] theorem prefillRows_length (history : List ℕ) (pos : ℕ) (chunk : List (Input V)) :
    (prefillRows M history pos chunk).length = chunk.length := by
  simp [prefillRows]

def startLayers (pos : ℕ) (layers : List (LayerState V)) : List (LayerState V) :=
  if pos = 0 then layers.map fun c => (c.1, { c.2 with gdn := M.zero }) else layers

variable {M}

/-- `prefill_session`: the last logits and the hidden rows with their positions. -/
def prefillSession (given : Bool) (ropeNext : Option ℕ) (history : List ℕ) (chunk : List (Input V)) (s : Session M) :
    Session M × V × List (ℕ × V) :=
  let done := Cascade.run (Cascade.through (prefillLayer M given) M.layers) (startLayers M s.pos s.layers)
    (prefillRows M history s.pos chunk)
  let hidden := done.2.map Prod.snd
  let last := (chunk.map fun x => match x.rope with
    | none => 0
    | some rope => max rope.1 (max rope.2.1 rope.2.2)).foldl max 0
  (⟨s.pos + chunk.length, if given then some (axes (ropeNext.getD (last + 1))) else s.ropeNext,
      s.window.extend (chunk.map Input.token), done.1⟩,
    M.lmHead (hidden.getLastD M.zero), hidden.mapIdx fun i row => (s.pos + i, row))

end Target

section Mtp

variable {C : Config V}

def forceRows (row : List V → V → V → V) (rows : ℕ → V) (start : ℕ) : List (V × V) → (ℕ → V)
  | [] => rows
  | (hidden, next) :: rest =>
    forceRows row (Function.update rows start (row ((List.range start).map rows) hidden next)) (start + 1) rest

/-- `sync_real_suffix`: `next` are the embeddings of the shifted tokens. -/
def syncRealSuffix (next : List V) (hidden : List (ℕ × V)) : EStateM String (Slot C) PUnit := do
  let s ← get
  raiseIf (next = []) "MTP sync requires at least one shifted real token"
  raiseIf (hidden.length ≠ next.length) "MTP target hc hidden must have one row for each token"
  raiseIf (C.model.maxSeq < s.mtp.syncLen + next.length) "MTP sync exceeds configured max_seq"
  set { s with
    mtp := ⟨s.mtp.syncLen + next.length, s.mtp.syncLen + next.length,
      forceRows C.draftRow s.mtp.rows s.mtp.syncLen ((hidden.map Prod.snd).zip next),
      s.mtp.synced ++ hidden.map Prod.fst⟩ }

/-- What the draft head proposes: K tokens, and its own rows for all but the first. -/
structure Proposal (C : Config V) where
  drafts : List ℕ
  tail : List V
  length_drafts : drafts.length = C.model.k
  length_tail : tail.length = C.model.k - 1

def continueDraft (proposal : Proposal C) : EStateM String (Slot C) (List ℕ) := do
  let s ← get
  raiseIf (C.model.maxSeq < s.mtp.pos + (C.model.k - 1)) "MTP continuation exceeds configured max_seq"
  set { s with
    mtp := { s.mtp with
      pos := s.mtp.pos + (C.model.k - 1)
      rows := LagunaRing.scatter s.mtp.rows (proposal.tail.mapIdx fun i row => (s.mtp.pos + i, row)) } }
  pure proposal.drafts

def syncAndPropose (next : List V) (hidden : List (ℕ × V)) (proposal : Proposal C) :
    EStateM String (Slot C) (List ℕ) := do
  syncRealSuffix next hidden
  continueDraft proposal

end Mtp

section Admission

variable (C : Config V)

/-- A `_prefill_slot` call. `anchor` is the forced or the sampled token. -/
structure Admission where
  promptIds : List ℕ
  sampled : Bool
  forced : Bool
  anchor : ℕ
  chunkSize : ℕ
  vision : Option VisionInputs
  nextRopePosition : Option ℕ
  proposal : Proposal C

variable {C}

namespace Admission

variable (a : Admission C)

def decodeMode : Mode := if a.sampled then .sampled else .greedy

def visionCacheKey : Option (List String) := prefixCacheKeyForVisionInputs a.vision

def cacheable : Prop := a.visionCacheKey ≠ some [uncacheableVisionPrefixKey]

instance : Decidable a.cacheable := inferInstanceAs (Decidable (_ ≠ _))

def cacheKey : CacheKey := ⟨a.decodeMode, a.visionCacheKey⟩

def rows : List (Input V) := inputs C a.promptIds a.vision

/-- `prefix_mtp_resync`. -/
def resync (entry : Option (Entry C)) : Prop :=
  match entry with
  | none => False
  | some e => C.enableMtp ∧ e.mtpReady ∧ e.decodeMode = a.decodeMode ∧ e.mtpTeacherHidden.isSome

instance (entry : Option (Entry C)) : Decidable (a.resync entry) := by
  unfold resync
  split <;> infer_instance

def useMtp (entry : Option (Entry C)) : Prop :=
  C.enableMtp ∧
    match entry with
    | none => True
    | some e => e.mtpPrefixReady ∨ e.mtpReady

instance (entry : Option (Entry C)) : Decidable (useMtp entry) := by
  unfold useMtp
  split <;> infer_instance

/-- The teacher row and the first suffix token that replace the cached proposal's anchor. -/
def teacherRow (entry : Option (Entry C)) : List (ℕ × V) :=
  if a.resync entry then (entry.bind Entry.mtpTeacherHidden).toList else []

/-- The admission's last branch of the full hit. -/
def cachedDrafts (e : Entry C) : List ℕ :=
  if ¬a.forced ∧ ¬a.sampled ∧ e.mtpReady then e.draftTokens else []

end Admission

def fullHit (a : Admission C) (e : Entry C) : EStateM String (Slot C) (List ℕ) := do
  let drafts ←
    if a.sampled ∧ C.enableMtp ∧ e.mtpReady ∧ e.decodeMode = .sampled then
      match e.mtpTeacherHidden with
      | none => throw "Flash-Next sampled prefix hit is missing the target teacher hidden row"
      | some hidden => syncAndPropose [C.model.embed a.anchor] [hidden] a.proposal
    else if Admission.useMtp (some e) ∧ e.mtpPrefixReady then
      match e.mtpTeacherHidden with
      | none => pure (a.cachedDrafts e)
      | some hidden => syncAndPropose [C.model.embed a.anchor] [hidden] a.proposal
    else pure (a.cachedDrafts e)
  modify fun s => { s with slotTokens := a.promptIds }
  pure drafts

/-- `target.prefill`, with the history that the PLE gather of the chunk at `start` was given. -/
def targetPrefill (a : Admission C) (suffix : List (Input V)) (chunked : Bool) (start stop : ℕ) :
    EStateM String (Slot C) (V × List (ℕ × V)) := do
  let s ← get
  let chunk := (suffix.take stop).drop start
  raiseIf (chunk = []) "Flash-Next prefill expects non-empty input_ids"
  raiseIf (C.model.maxSeq < s.session.pos + chunk.length) "Flash-Next prefill exceeds allocated graph capacity"
  let history :=
    if chunked ∧ C.pleAheadPrefetch ∧ start ≠ 0 then
      ((suffix.take start).drop (start - C.model.ngramSize)).map Input.token
    else s.session.window.1
  let ropeNext := if stop < suffix.length then none else a.nextRopePosition
  let done := prefillSession a.vision.isSome ropeNext history chunk s.session
  set { s with session := done.1 }
  pure done.2

/-- The teacher row of a resync, which the first sync of the suffix takes along. -/
def Admission.teacherAt (a : Admission C) (entry : Option (Entry C)) (start : ℕ) : List (ℕ × V) :=
  if start = 0 then a.teacherRow entry else []

/-- The checkpoint of a chunk that crosses an interval. -/
def captureChunk (a : Admission C) (hit start : ℕ) (logits : V) (hidden : List (ℕ × V)) (s : Slot C) : Slot C :=
  let absoluteEnd := hit + (start + a.chunkSize)
  let absoluteStart := hit + start
  if checkpointIntervalRows C ≤ absoluteEnd ∧
      absoluteStart / checkpointIntervalRows C < absoluteEnd / checkpointIntervalRows C ∧ a.cacheable then
    capturePrefixSnapshot
      { tokenIds := a.promptIds.take absoluteEnd
        anchor := C.argmax logits
        draftTokens := []
        anchorLogits := logits
        mtpReady := false
        mtpPrefixReady := true
        targetOnlyReusable := true
        visionCacheKey := a.visionCacheKey
        decodeMode := a.decodeMode
        mtpTeacherHidden := hidden.getLast? } s
  else s

/-- One chunk before the last: the prefill, the teacher sync and the checkpoint. -/
def prefillChunk (a : Admission C) (entry : Option (Entry C)) (hit : ℕ) (suffix : List (Input V)) (start : ℕ) :
    EStateM String (Slot C) PUnit := do
  let out ← targetPrefill a suffix true start (start + a.chunkSize)
  if Admission.useMtp entry then
    let teacher := a.teacherAt entry start
    syncRealSuffix (((suffix.map Input.embed).take (start + a.chunkSize + 1)).drop (start + 1 - teacher.length))
      (teacher ++ out.2)
    modify (captureChunk a hit start out.1 out.2)

def captureEnd (a : Admission C) (entry : Option (Entry C)) (hit : ℕ) (logits : V) (hidden : List (ℕ × V))
    (drafts : List ℕ) (s : Slot C) : Slot C :=
  if a.cacheable then
    capturePrefixSnapshot
      { tokenIds := a.promptIds
        anchor := a.anchor
        draftTokens := drafts
        anchorLogits := logits
        mtpReady := decide (Admission.useMtp entry)
        mtpPrefixReady := decide (Admission.useMtp entry)
        targetOnlyReusable := decide (¬Admission.useMtp entry ∧ 0 < hit)
        visionCacheKey := a.visionCacheKey
        decodeMode := a.decodeMode
        mtpTeacherHidden := if Admission.useMtp entry then hidden.getLast? else none } s
  else s

/-- The last chunk, or the whole suffix: the prefill, the proposal and the entry. -/
def prefillLast (a : Admission C) (entry : Option (Entry C)) (hit : ℕ) (suffix : List (Input V)) (chunked : Bool)
    (start : ℕ) : EStateM String (Slot C) (List ℕ) := do
  let out ← targetPrefill a suffix chunked start suffix.length
  let teacher := a.teacherAt entry start
  let drafts ←
    if Admission.useMtp entry then
      syncAndPropose ((suffix.map Input.embed).drop (start + 1 - teacher.length) ++ [C.model.embed a.anchor])
        (teacher ++ out.2) a.proposal
    else pure []
  modify fun s => captureEnd a entry hit out.1 out.2 drafts { s with slotTokens := a.promptIds }
  pure drafts

/-- `encode_multimodal` has as many feature rows as the prompt has image tokens. -/
def Admission.encodes (a : Admission C) : Prop :=
  ∀ vision, a.vision = some vision → a.promptIds.count C.imageTokenId = (vision.images.map C.imageRows).sum

instance (a : Admission C) : Decidable a.encodes :=
  match h : a.vision with
  | none => isTrue fun vision hsome => by rw [h] at hsome; cases hsome
  | some vision => decidable_of_iff (a.promptIds.count C.imageTokenId = (vision.images.map C.imageRows).sum) (by
      simp [Admission.encodes, h])

def prefillSuffix (a : Admission C) (entry : Option (Entry C)) (hit : ℕ) : EStateM String (Slot C) (List ℕ) := do
  raiseIf (¬a.encodes) "Flash-Next vision/text token mismatch"
  let suffix := a.rows.drop hit
  let chunks := (suffix.length - 1) / a.chunkSize
  if 0 < a.chunkSize ∧ a.chunkSize < suffix.length then
    forM ((List.range chunks).map (· * a.chunkSize)) (prefillChunk a entry hit suffix)
    prefillLast a entry hit suffix true (chunks * a.chunkSize)
  else prefillLast a entry hit suffix false 0

def prefillSlot (a : Admission C) : EStateM String (Slot C) (List ℕ) := do
  raiseIf (a.promptIds = []) "Flash-Next prefill needs at least one token"
  raiseIf (C.model.maxSeq < a.promptIds.length) "prompt length exceeds max_seq_len"
  let s ← get
  let prepared : Option (Entry C) × Slot C :=
    if a.vision.isSome ∧ ¬a.cacheable then
      (none, resetRuntime false { dropPrefixSnapshot s with pending := none })
    else preparePrefillPrefix a.promptIds a.cacheKey s
  set prepared.2
  match prepared.1 with
  | none => prefillSuffix a none 0
  | some e => if e.kvLen = a.promptIds.length then fullHit a e else prefillSuffix a (some e) e.kvLen

/-- A round of `FlashNextSpecEngine` with what its verification decides. -/
structure Round (C : Config V) where
  useSequentialQsa : Bool
  accepted : ℕ
  bonus : ℕ
  proposal : Proposal C

def round (r : Round C) (anchor : ℕ) (drafts : List ℕ) : EStateM String (Slot C) (List ℕ) := do
  let s ← get
  raiseIf (drafts.length ≠ C.model.k) "round requires K drafts"
  raiseIf (s.mtp.syncLen ≠ s.session.pos) "target and MTP real prefixes diverged"
  raiseIf (C.model.k < r.accepted) "accepted drafts"
  match verifyBody r.useSequentialQsa s.session (anchor :: drafts) with
  | none => throw "verify exceeds target cache capacity"
  | some (session, verified, hidden, _) =>
    set { s with session := session }
    match commit session verified (r.accepted + 1) with
    | none => throw "accepted_count must include the anchor"
    | some committed =>
      set { s with session := committed }
      let rows := (hidden.take (r.accepted + 1)).mapIdx fun i row => (s.session.pos + i, row)
      let next ← syncAndPropose ((drafts.take r.accepted ++ [r.bonus]).map C.model.embed) rows r.proposal
      modify fun s => { s with slotTokens := s.slotTokens ++ drafts.take r.accepted ++ [r.bonus] }
      pure next

/-- What happens to the slot. -/
inductive Action (C : Config V) where
  | prefill (a : Admission C)
  | round (r : Round C)
  | decode (next : ℕ)
  | reset
  | reconcile (ids : List ℕ) (key : CacheKey)

/-- One call of the engine; a request that fails is over, a request with drafts goes to the rounds
and one without to the plain decode. -/
def step (s : Slot C) : Action C → Option (Slot C)
  | .prefill a =>
    match prefillSlot a s with
    | .ok drafts s' => some { s' with request := some (a.anchor, drafts) }
    | .error _ s' => some { s' with request := none }
  | .round r =>
    match s.request with
    | some (anchor, draft :: drafts) =>
      match round r anchor (draft :: drafts) s with
      | .ok next s' => some { s' with request := some (r.bonus, next) }
      | .error _ s' => some { s' with request := none }
    | _ => none
  | .decode next =>
    match s.request with
    | some (anchor, []) => some { s with
        session := (decodeStep s.session anchor).1
        slotTokens := s.slotTokens ++ [anchor]
        request := some (next, []) }
    | _ => none
  | .reset => some (resetSlot s)
  | .reconcile ids key =>
    match s.request with
    | none => if prefixHitForSlot C s.history ids key = 0 then some s
        else some { s with pending := some (prefixHitForSlot C s.history ids key, ids, key) }
    | some _ => none

theorem Config.ngramSize_nonneg (C : Config V) : 0 ≤ C.model.ngramSize := Nat.zero_le _

def freshSlot (C : Config V) : Slot C where
  session := zeroState true ⟨0, none, ⟨[], C.ngramSize_nonneg⟩, C.model.layers.map fun _ =>
    (C.model.zero, ⟨C.model.zero, fun _ => C.model.zero, fun _ => C.model.zero, fun _ => axes 0, fun _ => C.model.zero⟩)⟩
  mtp := ⟨0, 0, fun _ => C.model.zero, []⟩
  history := []
  pending := none
  slotTokens := []
  request := none

end Admission

end FlashNext
