import BlackweLLM.Thinking
import BlackweLLM.ToolCalls

/-!
# The stream processor

`server/formats/stream.py`: the state machine that splits a generation into
reasoning, visible content and tool calls while its tokens arrive. The state
carries the invariants of the decode cache and of the reasoning phase, so the
text it works on is always that of its tokens.
-/

namespace StreamProcessor

open List TextScan PythonText Thinking ToolCalls

variable {τ Call : Type}

/-- A tokenizer whose decoded text only grows with more tokens, once the replacement characters of
incomplete bytes are dropped. -/
structure Tokenizer (τ : Type) where
  decode : List τ → Text
  grows : ∀ ids more, dropReplacement (decode ids) <+: dropReplacement (decode (ids ++ more))

/-- The tokenizer that maps each token to a fixed string. -/
def Tokenizer.ofPieces (piece : τ → Text) : Tokenizer τ where
  decode ids := ids.flatMap piece
  grows ids more := by
    rw [flatMap_append, dropReplacement_append]
    exact prefix_append _ _

def Tokenizer.chars : Tokenizer Char := .ofPieces fun c => [c]

def decodeIds (tok : Tokenizer τ) (thinkingCapable : Bool) (ids : List τ) : Text :=
  let decoded := dropReplacement (tok.decode ids)
  if thinkingCapable ∧ ¬ thinkOpen <+: decoded then thinkOpen ++ ['\n'] ++ decoded else decoded

/-- The text of a token list as `_get_raw` gives it: its cache starts as the empty string, so no
token at all means no text and no synthesized tag. -/
def rawText (tok : Tokenizer τ) (thinkingCapable : Bool) (ids : List τ) : Text :=
  if ids.isEmpty then [] else decodeIds tok thinkingCapable ids

/-- The decoded text could still become `<think>`. -/
def Pending (thinkingCapable : Bool) (raw : Text) : Prop :=
  thinkingCapable = false ∧ raw.length < thinkOpen.length ∧ raw <+: thinkOpen

instance (thinkingCapable : Bool) (raw : Text) : Decidable (Pending thinkingCapable raw) :=
  inferInstanceAs (Decidable (_ ∧ _ ∧ _))

theorem rawText_mono (tok : Tokenizer τ) (ids more : List τ) :
    rawText tok false ids <+: rawText tok false (ids ++ more) := by
  cases ids with
  | nil => simp [rawText]
  | cons t ts => simpa [rawText, decodeIds] using tok.grows (t :: ts) more

theorem Pending.of_append {tok : Tokenizer τ} {thinkingCapable : Bool} {ids more : List τ}
    (h : Pending thinkingCapable (rawText tok thinkingCapable (ids ++ more))) :
    Pending thinkingCapable (rawText tok thinkingCapable ids) := by
  obtain ⟨rfl, hlen, hp⟩ := h
  have hmono := rawText_mono tok ids more
  exact ⟨rfl, by have := hmono.length_le; omega, hmono.trans hp⟩

inductive SpanState where
  | pending
  | none
  | span (start stop : Nat) (closed : Bool)
  deriving DecidableEq, Repr

def reasoningSpan (thinkingCapable : Bool) (raw : Text) (final : Bool) : SpanState :=
  if ¬ final ∧ Pending thinkingCapable raw then .pending
  else match findReasoningSpan raw with
    | Option.none => .none
    | some (start, stop, closed) => .span start stop closed

/-- `_visible_text`: the text without its reasoning span. -/
def visibleText (raw : Text) : Text :=
  match findReasoningSpan raw with
  | none => raw
  | some (_, stop, closed) => if closed then skipNewline (raw.drop (stop + thinkClose.length)) else []

structure Processor (tok : Tokenizer τ) (Call : Type) where
  allIds : List τ
  thinkingCapable : Bool
  toolParser : ToolCallParser Call
  thinkingDone : Bool
  toolCallStarted : Bool
  emittedLen : Nat
  thinkingEmittedLen : Nat
  lastDecodeLen : Nat
  cachedRaw : Text
  internalTokenRanges : List (Nat × Nat)
  lastDecodeLen_le : lastDecodeLen ≤ allIds.length
  cachedRaw_eq : cachedRaw = rawText tok thinkingCapable (allIds.take lastDecodeLen)
  not_pending_of_done : thinkingDone = true → ¬ Pending thinkingCapable (rawText tok thinkingCapable allIds)

variable {tok : Tokenizer τ}

/-- `StreamProcessor(tokenizer, thinking_capable, tool_parser)`. -/
def new (tok : Tokenizer τ) (thinkingCapable : Bool) (toolParser : ToolCallParser Call) :
    Processor tok Call where
  allIds := []
  thinkingCapable := thinkingCapable
  toolParser := toolParser
  thinkingDone := false
  toolCallStarted := false
  emittedLen := 0
  thinkingEmittedLen := 0
  lastDecodeLen := 0
  cachedRaw := []
  internalTokenRanges := []
  lastDecodeLen_le := Nat.le_refl Nat.zero
  cachedRaw_eq := by simp [rawText]
  not_pending_of_done := by simp

namespace Processor

variable (p : Processor tok Call)

def addTokens (p : Processor tok Call) (tokenIds : List τ) : Processor tok Call :=
  { p with
    allIds := p.allIds ++ tokenIds
    lastDecodeLen_le := by
      have := p.lastDecodeLen_le
      rw [length_append]
      omega
    cachedRaw_eq := by
      rw [take_append_of_le_length p.lastDecodeLen_le]
      exact p.cachedRaw_eq
    not_pending_of_done := fun h hp => p.not_pending_of_done h hp.of_append }

theorem allIds_ne_nil (h : ¬ p.allIds.length = p.lastDecodeLen) :
    p.allIds ≠ [] := by
  rintro hnil
  have := p.lastDecodeLen_le
  simp_all

/-- `_get_raw`, with its cache. -/
def getRaw (p : Processor tok Call) : Text × Processor tok Call :=
  if h : p.allIds.length = p.lastDecodeLen then (p.cachedRaw, p)
  else
    (decodeIds tok p.thinkingCapable p.allIds,
      { p with
        cachedRaw := decodeIds tok p.thinkingCapable p.allIds
        lastDecodeLen := p.allIds.length
        lastDecodeLen_le := le_rfl
        cachedRaw_eq := by simp [rawText, p.allIds_ne_nil h] })

/-- The text of the tokens so far. -/
def raw (p : Processor tok Call) : Text := rawText tok p.thinkingCapable p.allIds

/-- The cache is transparent. -/
@[simp] theorem getRaw_fst : p.getRaw.1 = p.raw := by
  unfold getRaw raw
  split_ifs with h
  · simpa [← h] using p.cachedRaw_eq
  · simp [rawText, p.allIds_ne_nil h]

@[simp] theorem getRaw_allIds : p.getRaw.2.allIds = p.allIds := by
  unfold getRaw; split_ifs <;> rfl
@[simp] theorem getRaw_thinkingCapable :
    p.getRaw.2.thinkingCapable = p.thinkingCapable := by
  unfold getRaw; split_ifs <;> rfl
@[simp] theorem getRaw_toolParser :
    p.getRaw.2.toolParser = p.toolParser := by
  unfold getRaw; split_ifs <;> rfl
@[simp] theorem getRaw_thinkingDone :
    p.getRaw.2.thinkingDone = p.thinkingDone := by
  unfold getRaw; split_ifs <;> rfl
@[simp] theorem getRaw_toolCallStarted :
    p.getRaw.2.toolCallStarted = p.toolCallStarted := by
  unfold getRaw; split_ifs <;> rfl
@[simp] theorem getRaw_emittedLen :
    p.getRaw.2.emittedLen = p.emittedLen := by
  unfold getRaw; split_ifs <;> rfl
@[simp] theorem getRaw_thinkingEmittedLen :
    p.getRaw.2.thinkingEmittedLen = p.thinkingEmittedLen := by
  unfold getRaw; split_ifs <;> rfl
@[simp] theorem getRaw_internalTokenRanges :
    p.getRaw.2.internalTokenRanges = p.internalTokenRanges := by
  unfold getRaw; split_ifs <;> rfl

/-- `drain_thinking`: the reasoning text that arrived since the last call. -/
def drainThinking (p : Processor tok Call) : List Text × Processor tok Call :=
  if p.thinkingDone then ([], p)
  else
    let raw := p.getRaw.1
    let p := p.getRaw.2
    match reasoningSpan p.thinkingCapable raw false with
    | .pending => ([], p)
    | .none => ([], p)
    | .span start stop closed =>
      let thinking := (raw.take stop).drop start
      let thinking := if closed then thinking else trimTail thinkClose thinking
      if p.thinkingEmittedLen < thinking.length then
        ([thinking.drop p.thinkingEmittedLen], { p with thinkingEmittedLen := thinking.length })
      else ([], p)

/-- `reasoning_content`: the whole reasoning text, without injected control tokens. -/
def reasoningContent (p : Processor tok Call) : Option Text :=
  let raw := match p.internalTokenRanges with
    | (firstInternalStart, _) :: _ => decodeIds tok p.thinkingCapable (p.allIds.take firstInternalStart)
    | [] => p.getRaw.1
  match reasoningSpan p.thinkingCapable raw true with
  | .span start stop _ =>
    let text := pyStrip ((raw.take stop).drop start)
    if text = [] then none else some text
  | _ => none

/-- `content_text`: the whole visible text with the tool-call markup left in. -/
def contentText (p : Processor tok Call) : Text := stripUsageArtifacts (visibleText p.getRaw.1)

/-- The tail that each branch of `drain_content` repeats: emit `safe` beyond what was emitted. -/
def emit (p : Processor tok Call) (safe : Text) : List Text × Processor tok Call :=
  if p.emittedLen < safe.length then
    ([safe.drop p.emittedLen], { p with emittedLen := safe.length })
  else ([], p)

def markThinkingDone (p : Processor tok Call)
    (h : ¬ Pending p.thinkingCapable (rawText tok p.thinkingCapable p.allIds)) : Processor tok Call :=
  { p with thinkingDone := true, not_pending_of_done := fun _ => h }

/-- The part of `drain_content` behind the reasoning phase. -/
def drainVisible (p : Processor tok Call) (visible : Text) : List Text × Processor tok Call :=
  match findToolCallStart visible p.toolParser.openTag with
  | some tcStart =>
    -- only the complete tag freezes the stream; a beginning of it may still turn out to be text
    if (find p.toolParser.openTag visible).isSome then
      { p with toolCallStarted := true }.emit (visible.take tcStart)
    else p.emit (visible.take tcStart)
  | none =>
    match find usageOpen visible with
    | some usageIdx => p.emit (visible.take usageIdx)
    | none =>
      let safe := trimTail usageOpen visible
      if safe.length < visible.length then p.emit safe else p.emit visible

/-- `drain_content`: the visible text that has become safe since the last call. -/
def drainContent (p : Processor tok Call) : List Text × Processor tok Call :=
  if p.toolCallStarted then ([], p)
  else
    let raw := p.getRaw.1
    let p := p.getRaw.2
    if p.thinkingDone then p.drainVisible (visibleText raw)
    else if h : Pending p.thinkingCapable (rawText tok p.thinkingCapable p.allIds) then ([], p)
    else
      match reasoningSpan p.thinkingCapable raw false with
      | .pending => ([], p)
      | .none => (p.markThinkingDone h).drainVisible (visibleText raw)
      | .span _ _ closed =>
        if closed then (p.markThinkingDone h).drainVisible (visibleText raw) else ([], p)

def completeToolCalls (p : Processor tok Call) : List Call :=
  (parseToolCalls p.toolParser p.contentText).2

end Processor

theorem visibleText_of_not_open {raw : Text} (h : ¬ thinkOpen <+: raw) : visibleText raw = raw := by
  simp [visibleText, findReasoningSpan_of_not_open h]

theorem visibleText_mono_of_open {raw raw' : Text} (hp : thinkOpen <+: raw) (h : raw <+: raw') :
    visibleText raw <+: visibleText raw' := by
  cases hs : findReasoningSpan raw with
  | none =>
    rw [findReasoningSpan_of_open hp] at hs
    split at hs <;> simp at hs
  | some span =>
    obtain ⟨start, stop, closed⟩ := span
    cases closed with
    | false => simp [visibleText, hs]
    | true =>
      simp only [visibleText, hs, findReasoningSpan_closed_mono h hs, if_true]
      exact skipNewline_mono (h.drop _)

/-- What `drain_content` may look at: nothing while `<think>` could still be completed. -/
def view (thinkingCapable : Bool) (raw : Text) : Text :=
  if Pending thinkingCapable raw then [] else visibleText raw

theorem thinkOpen_prefix_of_le {decoded decoded' : Text} (h : decoded <+: decoded')
    (hlen : thinkOpen.length ≤ decoded.length) : thinkOpen <+: decoded ↔ thinkOpen <+: decoded' :=
  ⟨fun hp => hp.trans h, fun hp => prefix_of_prefix_length_le hp h hlen⟩

theorem findReasoningSpan_isSome {raw : Text} (hp : thinkOpen <+: raw) :
    ∃ start stop closed, findReasoningSpan raw = some (start, stop, closed) := by
  rw [findReasoningSpan_of_open hp]
  split <;> exact ⟨_, _, _, rfl⟩

/-- A text too short to hold both tags shows nothing. -/
theorem visibleText_of_short {raw : Text} (hp : thinkOpen <+: raw)
    (hlen : raw.length < thinkOpen.length + thinkClose.length) : visibleText raw = [] := by
  obtain ⟨start, stop, closed, hs⟩ := findReasoningSpan_isSome hp
  cases closed with
  | false => simp [visibleText, hs]
  | true =>
    have hend := findReasoningSpan_closed_le hs
    omega

theorem synthesized_opens (decoded : Text) : thinkOpen <+: thinkOpen ++ ['\n'] ++ decoded := by
  rw [append_assoc]
  exact prefix_append _ _

/-- Decoded text of a request whose prompt leaves `<think>` open. -/
def synthesize (decoded : Text) : Text :=
  if thinkOpen <+: decoded then decoded else thinkOpen ++ ['\n'] ++ decoded

theorem decodeIds_true (tok : Tokenizer τ) (ids : List τ) :
    decodeIds tok true ids = synthesize (dropReplacement (tok.decode ids)) := by
  unfold decodeIds synthesize
  split_ifs <;> simp_all

theorem synthesize_opens (decoded : Text) : thinkOpen <+: synthesize decoded := by
  unfold synthesize
  split_ifs with h
  · exact h
  · exact synthesized_opens decoded

theorem visibleText_synthesize_mono {decoded decoded' : Text} (h : decoded <+: decoded') :
    visibleText (synthesize decoded) <+: visibleText (synthesize decoded') := by
  by_cases hp : thinkOpen <+: decoded
  · simp only [synthesize, hp, hp.trans h, if_true]
    exact visibleText_mono_of_open hp h
  · by_cases hp' : thinkOpen <+: decoded'
    · -- the new text completed the tag, so the old text was too short to close a span
      have hshort : decoded.length < thinkOpen.length := by
        by_contra hlen
        exact hp ((thinkOpen_prefix_of_le h (by omega)).mpr hp')
      have hclose : thinkOpen.length + 1 = thinkClose.length := by decide
      rw [visibleText_of_short (synthesize_opens decoded)]
      · exact nil_prefix
      · simp only [synthesize, hp, if_false, length_append, length_singleton]
        omega
    · simp only [synthesize, hp, hp', if_false]
      exact visibleText_mono_of_open (synthesized_opens _)
        ((prefix_append_right_inj _).mpr h)

/-- A text that has left the beginning of `<think>` never comes to start with it. -/
theorem not_open_of_append {tok : Tokenizer τ} {ids more : List τ}
    (hp : ¬ thinkOpen <+: rawText tok false ids) (hpend : ¬ Pending false (rawText tok false ids)) :
    ¬ thinkOpen <+: rawText tok false (ids ++ more) := by
  intro hp'
  rcases prefix_or_prefix_of_prefix hp' (rawText_mono tok ids more) with h | h
  · exact hp h
  · have hne : rawText tok false ids ≠ thinkOpen := fun he => hp (he ▸ prefix_rfl)
    exact hpend ⟨rfl, lt_of_le_of_ne h.length_le fun hl => hne (h.eq_of_length hl), h⟩

/-- More tokens only append to what may be looked at. -/
theorem view_mono (tok : Tokenizer τ) (thinkingCapable : Bool) (ids more : List τ) :
    view thinkingCapable (rawText tok thinkingCapable ids) <+:
      view thinkingCapable (rawText tok thinkingCapable (ids ++ more)) := by
  by_cases hpend : Pending thinkingCapable (rawText tok thinkingCapable ids)
  · simp only [view, hpend, if_true]
    exact nil_prefix
  have hpend' : ¬ Pending thinkingCapable (rawText tok thinkingCapable (ids ++ more)) :=
    fun hp => hpend hp.of_append
  simp only [view, hpend, hpend', if_false]
  cases thinkingCapable with
  | false =>
    have hmono := rawText_mono tok ids more
    by_cases hp : thinkOpen <+: rawText tok false ids
    · exact visibleText_mono_of_open hp hmono
    · rwa [visibleText_of_not_open hp, visibleText_of_not_open (not_open_of_append hp hpend)]
  | true =>
    cases ids with
    | nil =>
      have hnil : ¬ thinkOpen <+: ([] : Text) := by decide
      simp only [rawText, isEmpty_nil, if_true, visibleText_of_not_open hnil]
      exact nil_prefix
    | cons t ts =>
      simp only [rawText, isEmpty_cons, cons_append, Bool.false_eq_true, if_false,
        decodeIds_true]
      exact visibleText_synthesize_mono (tok.grows (t :: ts) more)

/-- Length of the part of the visible text that one drain considers safe. -/
def safeLen (openTag visible : Text) : Nat :=
  match findToolCallStart visible openTag with
  | some tcStart => tcStart
  | none =>
    match find usageOpen visible with
    | some usageIdx => usageIdx
    | none => visible.length - overlap usageOpen visible

theorem safeLen_le (openTag visible : Text) (h : openTag ≠ []) : safeLen openTag visible ≤ visible.length := by
  unfold safeLen
  cases hf : find openTag visible with
  | some i =>
    have := find_end_le h hf
    rw [findToolCallStart_of_find hf]
    simp only
    omega
  | none =>
    rw [findToolCallStart_of_not_find hf]
    split_ifs
    · cases hu : find usageOpen visible with
      | none => simp
      | some u =>
        have := find_end_le usageOpen_ne_nil hu
        simp only
        omega
    · simp

end StreamProcessor
