import BlackweLLM.FlashNextLayers
import BlackweLLM.RaisingState

/-!
# Flash-Next prefix checkpoints

The prefix history of one slot of `runtime/backends/flashnext.py`: which entry a
prompt selects, what a capture keeps and what a restore puts back. The pools of
the target and of the draft head stay in the slot. An image is named by the
digest that `build_image_cache_keys` gives its processed payload.
-/

namespace FlashNext

open RaisingState (raiseIf)

variable {V : Type}

/-- The backend's settings, and what the vision code makes of an image. -/
structure Config (V : Type) where
  model : Model V
  /-- A row of the draft head: the rows below, the target's hidden row, the next token's embedding. -/
  draftRow : List V → V → V → V
  enableMtp : Bool
  argmax : V → ℕ
  enablePrefixCache : Bool
  checkpointsPerSlot : Option ℤ
  checkpointInterval : Option ℤ
  pleAheadPrefetch : Bool
  imageTokenId : ℕ
  imageRows : String → ℕ
  /-- The feature row of the last token, after the tokens and the images begun by then. -/
  imageEmbed : List ℕ → List String → V
  mropePosition : List ℕ → List String → Rope

inductive Mode where
  | greedy | sampled
  deriving DecidableEq

/-- `_PREFIX_CACHE_MODE_MARKER` keys: the decode mode and the vision key. -/
structure CacheKey where
  mode : Mode
  vision : Option (List String)
  deriving DecidableEq

def uncacheableVisionPrefixKey : String := "<uncacheable-vision-prefix>"

structure VisionInputs where
  images : List String
  imageCacheKeys : Option (List String)
  keys_eq : ∀ keys, imageCacheKeys = some keys → keys = images

def prefixCacheKeyForVisionInputs : Option VisionInputs → Option (List String)
  | none => none
  | some vision =>
    match vision.imageCacheKeys with
    | none => some [uncacheableVisionPrefixKey]
    | some keys => if keys = [] ∨ "" ∈ keys then some [uncacheableVisionPrefixKey] else some keys

def visionCacheMatches (current cached : Option (List String)) : Prop :=
  match current with
  | none => cached = none
  | some current => current ≠ [uncacheableVisionPrefixKey] ∧
      match cached with
      | none => False
      | some cached => cached ≠ [uncacheableVisionPrefixKey] ∧ cached <+: current

instance (current cached : Option (List String)) : Decidable (visionCacheMatches current cached) :=
  match current, cached with
  | none, cached => inferInstanceAs (Decidable (cached = none))
  | some current, none => inferInstanceAs (Decidable (current ≠ _ ∧ False))
  | some current, some cached => inferInstanceAs (Decidable (current ≠ _ ∧ cached ≠ _ ∧ cached <+: current))

/-- An input row of the target; `rope` where the prompt has MRoPE positions. -/
structure Input (V : Type) where
  token : ℕ
  embed : V
  rope : Option Rope

/-- The images whose rows have begun once `rows` image tokens are read. -/
def begunImages (imageRows : String → ℕ) : ℕ → List String → List String
  | _, [] => []
  | 0, _ :: _ => []
  | rows + 1, image :: images => image :: begunImages imageRows (rows + 1 - imageRows image) images

section Entries

variable (C : Config V)

/-- The prompt's rows: `embed_tokens`, or `encode_multimodal` with `rope_positions`. -/
def inputs (ids : List ℕ) : Option VisionInputs → List (Input V)
  | none => ids.map fun token => ⟨token, C.model.embed token, none⟩
  | some vision => ids.mapIdx fun i token =>
      let front := ids.take (i + 1)
      let begun := begunImages C.imageRows (front.count C.imageTokenId) vision.images
      ⟨token, if token = C.imageTokenId then C.imageEmbed front begun else C.model.embed token,
        some (C.mropePosition front begun)⟩

/-- `FlashNextPrefixSnapshot`. A hidden row carries the position it was computed at. `mtpSynced` is not in the
snapshot: the target rows that its draft-head prefix was fed with. -/
structure Entry where
  tokenIds : List ℕ
  states : List (V × V)
  ropeNext : Option Rope
  window : Window C.model.ngramSize
  anchor : ℕ
  draftTokens : List ℕ
  anchorLogits : V
  visionCacheKey : Option (List String)
  mtpSyncLen : ℕ
  mtpPos : ℕ
  mtpReady : Bool
  mtpPrefixReady : Bool
  targetOnlyReusable : Bool
  decodeMode : Mode
  mtpTeacherHidden : Option (ℕ × V)
  mtpSynced : List ℕ

def Entry.kvLen {C : Config V} (e : Entry C) : ℕ := e.tokenIds.length

/-- The draft head's session: `rows` are its pools, `synced` the target rows it was fed with. -/
structure MtpSession (V : Type) where
  syncLen : ℕ
  pos : ℕ
  rows : ℕ → V
  synced : List ℕ

/-- One slot; `request` is what the admission left the engine with, until the slot is reset. -/
structure Slot (C : Config V) where
  session : Session C.model
  mtp : MtpSession V
  history : List (Entry C)
  pending : Option (ℕ × List ℕ × CacheKey)
  slotTokens : List ℕ
  request : Option (ℕ × List ℕ)

def checkpointLimit : ℕ :=
  match C.checkpointsPerSlot with
  | some configured => (max 1 (min configured 16)).toNat
  | none => 6

def checkpointIntervalRows : ℕ :=
  match C.checkpointInterval with
  | some configured => (max 1 configured).toNat
  | none => 8192

/-- The tests of `_select_prefix_entry` for one entry. Captured logits are never empty. -/
def Selectable (ids : List ℕ) (key : CacheKey) (exactKvLen : Option ℕ) (e : Entry C) : Prop :=
  e.tokenIds ≠ [] ∧ visionCacheMatches key.vision e.visionCacheKey ∧
    (key.mode ≠ e.decodeMode → ¬e.mtpReady ∧ e.targetOnlyReusable) ∧
    (e.mtpReady ∧ key.mode = e.decodeMode → e.mtpTeacherHidden.isSome) ∧
    (C.enableMtp ∧ ¬e.mtpReady ∧ ¬e.targetOnlyReusable → key.mode = .sampled) ∧
    (∀ n, exactKvLen = some n → e.kvLen = n) ∧ ids.take e.kvLen = e.tokenIds

instance (ids : List ℕ) (key : CacheKey) (exactKvLen : Option ℕ) (e : Entry C) :
    Decidable (Selectable C ids key exactKvLen e) :=
  have : Decidable (∀ n, exactKvLen = some n → e.kvLen = n) :=
    match exactKvLen with
    | none => isTrue (fun _ h => by cases h)
    | some n => decidable_of_iff (e.kvLen = n) (by simp)
  decidable_of_iff (_ ∧ _ ∧ _ ∧ _ ∧ _ ∧ _ ∧ _) Iff.rfl

/-- `_select_prefix_entry`: the deepest entry that fits, the first of several. -/
def selectPrefixEntry (history : List (Entry C)) (ids : List ℕ) (key : CacheKey) (exactKvLen : Option ℕ) :
    Option (Entry C) :=
  if ¬C.enablePrefixCache ∨ ids = [] then none
  else (history.filter fun e => Selectable C ids key exactKvLen e).foldl
    (fun best e =>
      match best with
      | none => some e
      | some b => if b.kvLen < e.kvLen then some e else some b) none

/-- `_prefix_hit_for_slot(...).effective`. -/
def prefixHitForSlot (history : List (Entry C)) (ids : List ℕ) (key : CacheKey) : ℕ :=
  match selectPrefixEntry C history ids key none with
  | none => 0
  | some e => e.kvLen

variable {C}

def zeroState (clearKv : Bool) (s : Session C.model) : Session C.model where
  pos := 0
  ropeNext := none
  window := ⟨[], Nat.zero_le _⟩
  layers := s.layers.map fun c =>
    let zero := C.model.zero
    (zero, if clearKv then ⟨zero, fun _ => zero, fun _ => zero, fun _ => axes 0, fun _ => zero⟩ else { c.2 with gdn := zero })

def resetMtpState (clearCache : Bool) (m : MtpSession V) : MtpSession V :=
  ⟨0, 0, if clearCache then fun _ => C.model.zero else m.rows, []⟩

def resetRuntime (preservePrefix : Bool) (s : Slot C) : Slot C :=
  let keepPrefix := preservePrefix && !s.history.isEmpty
  { s with
    session := zeroState (!keepPrefix) s.session
    mtp := if C.enableMtp then resetMtpState (C := C) (!keepPrefix) s.mtp else s.mtp
    slotTokens := [] }

/-- `reset_slot`, at the end of the request. -/
def resetSlot (s : Slot C) : Slot C := { resetRuntime C.enablePrefixCache s with request := none }

def dropPrefixSnapshot (s : Slot C) : Slot C := { s with history := [] }

/-- The first entry and the newest tail. -/
def trimHistory (limit : ℕ) (history : List (Entry C)) : List (Entry C) :=
  if history.length ≤ limit then history
  else history.take 1 ++ history.drop (history.length - (limit - 1))

/-- What a capture is given beside the slot. -/
structure Capture (V : Type) where
  tokenIds : List ℕ
  anchor : ℕ
  draftTokens : List ℕ
  anchorLogits : V
  mtpReady : Bool
  mtpPrefixReady : Bool
  targetOnlyReusable : Bool
  visionCacheKey : Option (List String)
  decodeMode : Mode
  mtpTeacherHidden : Option (ℕ × V)

/-- The entry of `_capture_prefix_snapshot`. -/
def snapshotEntry (s : Slot C) (c : Capture V) : Entry C :=
  let retainMtpPrefix := C.enableMtp && (c.mtpReady || c.mtpPrefixReady)
  { tokenIds := c.tokenIds
    states := s.session.layers.map fun layer => (layer.1, layer.2.gdn)
    ropeNext := s.session.ropeNext
    window := s.session.window
    anchor := c.anchor
    draftTokens := c.draftTokens
    anchorLogits := c.anchorLogits
    visionCacheKey := c.visionCacheKey
    mtpSyncLen := if retainMtpPrefix then s.mtp.syncLen else 0
    mtpPos := if retainMtpPrefix then s.mtp.pos else 0
    mtpReady := c.mtpReady && retainMtpPrefix
    mtpPrefixReady := c.mtpPrefixReady && retainMtpPrefix
    targetOnlyReusable := c.targetOnlyReusable
    decodeMode := c.decodeMode
    mtpTeacherHidden := c.mtpTeacherHidden
    mtpSynced := if retainMtpPrefix then s.mtp.synced else [] }

def capturePrefixSnapshot (c : Capture V) (s : Slot C) : Slot C :=
  if ¬C.enablePrefixCache ∨ c.tokenIds = [] then s
  else
    let entry := snapshotEntry s c
    { s with
      history := trimHistory (checkpointLimit C) ((s.history.filter fun old => old.kvLen ≠ entry.kvLen) ++ [entry]) }

/-- `_restore_prefix_snapshot` of an entry that `_select_prefix_entry` has authenticated. -/
def restorePrefixSnapshot (ids : List ℕ) (entry : Entry C) (s : Slot C) : Slot C :=
  let rewind := entry.mtpReady && (decide (entry.kvLen < ids.length) || decide (entry.decodeMode = .sampled))
  let mtp : MtpSession V :=
    if ¬C.enableMtp then s.mtp
    else if entry.mtpPrefixReady || entry.mtpReady then
      if rewind then
        { s.mtp with syncLen := entry.mtpSyncLen - 1, pos := entry.mtpSyncLen - 1, synced := entry.mtpSynced.dropLast }
      else { s.mtp with syncLen := entry.mtpSyncLen, pos := entry.mtpPos, synced := entry.mtpSynced }
    else resetMtpState (C := C) true s.mtp
  { s with
    session := ⟨entry.kvLen, entry.ropeNext, entry.window,
      List.zipWith (fun c state => (state.1, { c.2 with gdn := state.2 })) s.session.layers entry.states⟩
    mtp := mtp }

/-- The hit of an admission: a reconciled one, or that of a new search. -/
def admissionHit (ids : List ℕ) (key : CacheKey) (s : Slot C) : ℕ :=
  match s.pending with
  | some (hit, tokens, pendingKey) => if tokens = ids ∧ pendingKey = key then hit else prefixHitForSlot C s.history ids key
  | none => prefixHitForSlot C s.history ids key

/-- The checkpoint that `_prepare_prefill_prefix` continues from. -/
def hitEntry (ids : List ℕ) (key : CacheKey) (s : Slot C) : Option (Entry C) :=
  if admissionHit ids key s = 0 then none else selectPrefixEntry C s.history ids key (some (admissionHit ids key s))

def preparePrefillPrefix (ids : List ℕ) (key : CacheKey) (s : Slot C) : Option (Entry C) × Slot C :=
  match hitEntry ids key s with
  | some entry => (some entry, restorePrefixSnapshot ids entry (resetRuntime true { s with pending := none }))
  | none => (none, resetRuntime false (dropPrefixSnapshot { s with pending := none }))

end Entries

end FlashNext
