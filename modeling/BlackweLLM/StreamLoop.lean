import BlackweLLM.ContentDrain

/-!
# The streaming response loop

The loop of `server/app.py` that answers one streaming request: for each item
of the engine it feeds the processor and delivers the reasoning drain and then
the content drain. Whatever the batches are, both deliveries catch up with the
text that the tokens so far have made safe.
-/

namespace StreamLoop

open List TextScan PythonText Thinking ToolCalls StreamProcessor

variable {τ Call : Type} (tok : Tokenizer τ)

/-- A processor and what its drains have delivered. -/
structure Delivery (tok : Tokenizer τ) (Call : Type) where
  proc : Processor tok Call
  reasoning : Text
  content : Text

variable {tok}

/-- One item of the stream. The deltas of tool calls read neither drain's state. -/
def Delivery.item (d : Delivery tok Call) (batch : List τ) : Delivery tok Call :=
  let proc := d.proc.addTokens batch
  let thinking := proc.drainThinking
  let content := thinking.2.drainContent
  ⟨content.2, d.reasoning ++ thinking.1.flatten, d.content ++ content.1.flatten⟩

variable (tok)

/-- The loop over a generation that arrives in `batches`. -/
def sse (thinkingCapable : Bool) (parser : ToolCallParser Call) (batches : List (List τ)) :
    Delivery tok Call :=
  batches.foldl Delivery.item ⟨new tok thinkingCapable parser, [], []⟩

/-- The text of a generation that arrived in `batches`. -/
def rawOf (thinkingCapable : Bool) (batches : List (List τ)) : Text :=
  rawText tok thinkingCapable batches.flatten

/-- Reasoning body of a text, closed or not. -/
def reasoningBody (raw : Text) : Text :=
  match findReasoningSpan raw with
  | none => []
  | some (start, stop, _) => (raw.take stop).drop start

/-- The part of it that a drain may deliver. -/
def safeReasoning (raw : Text) : Text :=
  match findReasoningSpan raw with
  | none => []
  | some (start, stop, closed) =>
    let thinking := (raw.take stop).drop start
    if closed then thinking else trimTail thinkClose thinking

@[simp] theorem sse_concat (thinkingCapable : Bool) (parser : ToolCallParser Call)
    (batches : List (List τ)) (batch : List τ) :
    sse tok thinkingCapable parser (batches ++ [batch]) =
      (sse tok thinkingCapable parser batches).item batch := by
  simp [sse]

theorem safeReasoning_isPrefix (raw : Text) : safeReasoning raw <+: reasoningBody raw := by
  cases hs : findReasoningSpan raw with
  | none => simp [safeReasoning, reasoningBody, hs]
  | some span =>
    obtain ⟨start, stop, closed⟩ := span
    cases closed with
    | true => simp [safeReasoning, reasoningBody, hs]
    | false =>
      simp only [safeReasoning, reasoningBody, hs, Bool.false_eq_true, if_false]
      exact trimTail_isPrefix _ _

variable {raw : Text}

theorem safeReasoning_of_not_open (h : ¬ thinkOpen <+: raw) : safeReasoning raw = [] := by
  simp [safeReasoning, findReasoningSpan_of_not_open h]

theorem safeReasoning_of_closed {start stop : Nat} (h : findReasoningSpan raw = some (start, stop, true)) :
    safeReasoning raw = (raw.take stop).drop start := by
  simp [safeReasoning, h]

/-- An open span of a text longer than the tag: the body runs to the end of the text. -/
theorem safeReasoning_of_unclosed (hp : thinkOpen <+: raw)
    (hc : find thinkClose (raw.drop (bodyOffset raw)) = none) :
    safeReasoning raw = trimTail thinkClose (raw.drop (bodyOffset raw)) := by
  simp [safeReasoning, findReasoningSpan_of_open hp, hc]

theorem safeReasoning_of_find {i : Nat} (hp : thinkOpen <+: raw)
    (hc : find thinkClose (raw.drop (bodyOffset raw)) = some i) :
    safeReasoning raw = (raw.drop (bodyOffset raw)).take i := by
  simp only [safeReasoning, findReasoningSpan_of_open hp, hc, if_true]
  rw [drop_take, Nat.add_sub_cancel_left]

/-- While the text only grows, so does the part of its reasoning that may be delivered. -/
theorem safeReasoning_mono {raw raw' : Text} (h : raw <+: raw') :
    safeReasoning raw <+: safeReasoning raw' := by
  by_cases hp : thinkOpen <+: raw
  swap
  · rw [safeReasoning_of_not_open hp]
    exact nil_prefix
  rcases lt_or_eq_of_le hp.length_le with hlen | hlen
  swap
  · rw [← hp.eq_of_length hlen]
    have : safeReasoning thinkOpen = [] := by decide
    rw [this]
    exact nil_prefix
  have hoff := bodyOffset_congr h hlen
  have hbody := h.drop (bodyOffset raw)
  cases hc : find thinkClose (raw.drop (bodyOffset raw)) with
  | some i =>
    have hc' := find_mono thinkClose_ne_nil hc hbody
    have hend := find_end_le thinkClose_ne_nil hc
    rw [safeReasoning_of_find hp hc, safeReasoning_of_find (hp.trans h) (by rwa [← hoff]), ← hoff]
    obtain ⟨more, hmore⟩ := hbody
    rw [← hmore, take_append_of_le_length (by omega)]
  | none =>
    rw [safeReasoning_of_unclosed hp hc]
    cases hc' : find thinkClose (raw'.drop (bodyOffset raw)) with
    | none =>
      rw [safeReasoning_of_unclosed (hp.trans h) (by rwa [← hoff]), ← hoff]
      exact trimTail_mono thinkClose_ne_nil hbody
    | some i =>
      -- the closing tag that arrives starts no earlier than the tail that was held back
      rw [safeReasoning_of_find (hp.trans h) (by rwa [← hoff]), ← hoff]
      refine take_isPrefix_take hbody (Nat.sub_le _ _) ?_
      obtain ⟨more, hmore⟩ := hbody
      rw [← hmore] at hc'
      have hocc := ((find_eq_some_iff thinkClose_ne_nil).mp hc').1
      refine length_sub_overlap_le hocc ?_
      by_contra hin
      exact (find_eq_none_iff thinkClose_ne_nil).mp hc i (hocc.of_append (by omega))

variable {tok}

/-- A call of `drain_thinking` from `p` to `p'` over the safe reasoning `s`. -/
structure DrainsThinking (p p' : Processor tok Call) (s : Text) (out : List Text) : Prop where
  out_eq : out.flatten = s.drop p.thinkingEmittedLen
  thinkingEmittedLen : p'.thinkingEmittedLen = max p.thinkingEmittedLen s.length
  allIds : p'.allIds = p.allIds
  thinkingCapable : p'.thinkingCapable = p.thinkingCapable
  toolParser : p'.toolParser = p.toolParser
  emittedLen : p'.emittedLen = p.emittedLen
  toolCallStarted : p'.toolCallStarted = p.toolCallStarted
  thinkingDone : p'.thinkingDone = p.thinkingDone
  internalTokenRanges : p'.internalTokenRanges = p.internalTokenRanges

theorem getRaw_drainsThinking (p : Processor tok Call) {s : Text}
    (h : s.length ≤ p.thinkingEmittedLen) : DrainsThinking p p.getRaw.2 s [] := by
  constructor
  · exact (drop_eq_nil_of_le h).symm
  · rw [Processor.getRaw_thinkingEmittedLen]
    omega
  all_goals simp

/-- The drain keeps up with the safe reasoning; behind the reasoning phase it has nothing left. -/
theorem drainThinking_drains (p : Processor tok Call)
    (hdone : p.thinkingDone = true → (safeReasoning p.raw).length ≤ p.thinkingEmittedLen) :
    DrainsThinking p p.drainThinking.2 (safeReasoning p.raw) p.drainThinking.1 := by
  cases hd : p.thinkingDone with
  | true =>
    have hle := hdone hd
    have hsame : p.drainThinking = ([], p) := by simp [Processor.drainThinking, hd]
    rw [hsame]
    constructor
    · exact (drop_eq_nil_of_le hle).symm
    · change p.thinkingEmittedLen = _
      omega
    all_goals rfl
  | false =>
    simp only [Processor.drainThinking, hd, Bool.false_eq_true, if_false, Processor.getRaw_fst,
      Processor.getRaw_thinkingCapable, Processor.getRaw_thinkingEmittedLen, reasoningSpan, true_and,
      not_false_eq_true]
    by_cases hpend : Pending p.thinkingCapable p.raw
    · have hnil : safeReasoning p.raw = [] := by
        refine safeReasoning_of_not_open fun hp => ?_
        have := hp.length_le
        have := hpend.2.1
        omega
      simp only [hpend, if_true]
      exact getRaw_drainsThinking p (by simp [hnil])
    · simp only [hpend, if_false]
      cases hs : findReasoningSpan p.raw with
      | none => exact getRaw_drainsThinking p (by simp [safeReasoning, hs])
      | some span =>
        obtain ⟨start, stop, closed⟩ := span
        have hsafe : safeReasoning p.raw = if closed then (p.raw.take stop).drop start
            else trimTail thinkClose ((p.raw.take stop).drop start) := by
          simp [safeReasoning, hs]
        simp only [← hsafe]
        by_cases hlt : p.thinkingEmittedLen < (safeReasoning p.raw).length
        · simp only [hlt, if_true]
          constructor
          · simp
          · change (safeReasoning p.raw).length = max _ _
            omega
          all_goals simp
        · simp only [hlt, if_false]
          exact getRaw_drainsThinking p (by omega)

/-- `drain_content` does not touch what the other drain keeps. -/
structure KeepsThinking (p p' : Processor tok Call) : Prop where
  allIds : p'.allIds = p.allIds
  thinkingCapable : p'.thinkingCapable = p.thinkingCapable
  toolParser : p'.toolParser = p.toolParser
  thinkingEmittedLen : p'.thinkingEmittedLen = p.thinkingEmittedLen
  internalTokenRanges : p'.internalTokenRanges = p.internalTokenRanges

theorem drainContent_keepsThinking (p : Processor tok Call) : KeepsThinking p p.drainContent.2 := by
  cases hs : p.toolCallStarted with
  | true =>
    rw [Processor.drainContent_of_started p hs]
    exact ⟨rfl, rfl, rfl, rfl, rfl⟩
  | false =>
    have hd := p.drainContent_drains hs
    exact ⟨hd.allIds, hd.thinkingCapable, hd.toolParser, hd.thinkingEmittedLen, hd.internalTokenRanges⟩

theorem rawText_true {ids : List τ} (h : ids ≠ []) :
    rawText tok true ids = synthesize (dropReplacement (tok.decode ids)) := by
  simp [rawText, h, decodeIds_true]

/-- A closed span stays where it is: the text it closes in is too long to be reread as a tag. -/
theorem rawText_mono_of_closed {thinkingCapable : Bool} {ids : List τ} {start stop : Nat}
    (h : findReasoningSpan (rawText tok thinkingCapable ids) = some (start, stop, true)) (more : List τ) :
    rawText tok thinkingCapable ids <+: rawText tok thinkingCapable (ids ++ more) := by
  cases thinkingCapable with
  | false => exact rawText_mono tok ids more
  | true =>
    have hne : ids ≠ [] := by
      rintro rfl
      have : findReasoningSpan ([] : Text) = none := by decide
      simp [rawText, this] at h
    rw [rawText_true hne] at h ⊢
    rw [rawText_true (by simp [hne])]
    have hgrows := tok.grows ids more
    by_cases hp : thinkOpen <+: dropReplacement (tok.decode ids)
    · simp only [synthesize, hp, hp.trans hgrows, if_true]
      exact hgrows
    · have hlong := findReasoningSpan_closed_le h
      simp only [synthesize, hp, if_false, length_append] at hlong
      have hlens : thinkOpen.length + 1 = thinkClose.length := by decide
      have hp' : ¬ thinkOpen <+: dropReplacement (tok.decode (ids ++ more)) := by
        intro hp'
        exact hp ((thinkOpen_prefix_of_le hgrows (by simp at hlong; omega)).mpr hp')
      simp only [synthesize, hp, hp', if_false]
      exact (prefix_append_right_inj _).mpr hgrows

/-- Once the reasoning phase is over, more tokens add nothing to the reasoning. -/
theorem safeReasoning_settled {thinkingCapable : Bool} {ids : List τ}
    (hne : ids ≠ []) (hpend : ¬ Pending thinkingCapable (rawText tok thinkingCapable ids))
    (hspan : ∀ start stop, findReasoningSpan (rawText tok thinkingCapable ids) ≠ some (start, stop, false))
    (more : List τ) : safeReasoning (rawText tok thinkingCapable (ids ++ more)) =
      safeReasoning (rawText tok thinkingCapable ids) := by
  by_cases hp : thinkOpen <+: rawText tok thinkingCapable ids
  · obtain ⟨start, stop, closed, hs⟩ := findReasoningSpan_isSome hp
    cases closed with
    | false => exact absurd hs (hspan _ _)
    | true =>
      have hmono := rawText_mono_of_closed hs more
      have hs' := findReasoningSpan_closed_mono hmono hs
      have hend := findReasoningSpan_closed_le hs
      rw [safeReasoning_of_closed hs, safeReasoning_of_closed hs']
      obtain ⟨rest, hrest⟩ := hmono
      rw [← hrest, take_append_of_le_length (by omega)]
  · cases thinkingCapable with
    | true => exact absurd (rawText_true hne ▸ synthesize_opens _) hp
    | false => rw [safeReasoning_of_not_open hp, safeReasoning_of_not_open (not_open_of_append hp hpend)]

/-- A call of `drain_content` that ends the reasoning phase has seen its end. -/
theorem drainContent_ends (p : Processor tok Call) (hdone : p.thinkingDone = false)
    (h : p.drainContent.2.thinkingDone = true) :
    ¬ Pending p.thinkingCapable p.raw ∧
      ∀ start stop, findReasoningSpan p.raw ≠ some (start, stop, false) := by
  cases hs : p.toolCallStarted with
  | true =>
    rw [Processor.drainContent_of_started p hs] at h
    simp [hdone] at h
  | false =>
    by_cases hpend : Pending p.thinkingCapable (rawText tok p.thinkingCapable p.allIds)
    · simp [Processor.drainContent, hs, hdone, hpend] at h
    · refine ⟨hpend, fun start stop hspan => ?_⟩
      have hraw : ¬ Pending p.thinkingCapable p.raw := hpend
      simp [Processor.drainContent, hs, hdone, hpend, reasoningSpan, hraw, hspan] at h

/-- The views of the processor after each part of the generation. -/
def views (tok : Tokenizer τ) (thinkingCapable : Bool) (batches : List (List τ)) : List Text :=
  batches.inits.map fun pre => view thinkingCapable (rawOf tok thinkingCapable pre)

theorem views_concat (thinkingCapable : Bool) (batches : List (List τ)) (batch : List τ) :
    views tok thinkingCapable (batches ++ [batch]) = views tok thinkingCapable batches ++
      [view thinkingCapable (rawOf tok thinkingCapable (batches ++ [batch]))] := by
  simp [views, inits_append]

/-- What holds of the loop after `batches`. -/
structure Delivered (thinkingCapable : Bool) (parser : ToolCallParser Call) (batches : List (List τ))
    (d : Delivery tok Call) : Prop where
  allIds : d.proc.allIds = batches.flatten
  capable : d.proc.thinkingCapable = thinkingCapable
  toolParser : d.proc.toolParser = parser
  internalTokenRanges : d.proc.internalTokenRanges = []
  released : Released d.proc (views tok thinkingCapable batches) d.content
  thinkingEmittedLen : d.proc.thinkingEmittedLen = d.reasoning.length
  settled : d.proc.thinkingDone = true → ∀ more,
    (safeReasoning (rawText tok thinkingCapable (batches.flatten ++ more))).length ≤ d.reasoning.length

theorem Delivered.new (thinkingCapable : Bool) (parser : ToolCallParser Call) :
    Delivered thinkingCapable parser [] ⟨new tok thinkingCapable parser, [], []⟩ := by
  refine ⟨rfl, rfl, rfl, rfl, ?_, rfl, fun h => ?_⟩
  · have hview : views tok thinkingCapable [] = [(StreamProcessor.new tok thinkingCapable parser).view] := by
      simp [views, view_new, rawOf, rawText, view, visibleText_of_not_open (show ¬ thinkOpen <+: [] by decide)]
    have hnew : Released (StreamProcessor.new tok thinkingCapable parser) [] [] := Released.new _ _
    refine { hnew with emittedLen := ?_ }
    rw [hview, ← nil_append [_], releasedLen_concat, ← hnew.emittedLen,
      max_eq_left hnew.safe_le]
  · simp [StreamProcessor.new] at h

variable {thinkingCapable : Bool} {parser : ToolCallParser Call} {batches : List (List τ)}
  {d : Delivery tok Call}

theorem Delivered.raw_eq (h : Delivered thinkingCapable parser batches d) (batch : List τ) :
    (d.proc.addTokens batch).raw = rawOf tok thinkingCapable (batches ++ [batch]) := by
  simp [Processor.raw, Processor.addTokens, rawOf, h.allIds, h.capable]

/-- One batch: the reasoning catches up, and the invariant is kept. -/
theorem Delivered.item (h : Delivered thinkingCapable parser batches d) {batch : List τ} (hne : batch ≠ []) :
    (d.item batch).reasoning =
        catchUp d.reasoning (safeReasoning (rawOf tok thinkingCapable (batches ++ [batch]))) ∧
      Delivered thinkingCapable parser (batches ++ [batch]) (d.item batch) := by
  have hraw := h.raw_eq batch
  have hflat : (batches ++ [batch]).flatten = batches.flatten ++ batch := by simp
  have ht := drainThinking_drains (d.proc.addTokens batch) (by
    intro hdone
    rw [hraw, rawOf, hflat]
    exact (h.settled hdone batch).trans_eq h.thinkingEmittedLen.symm)
  rw [hraw] at ht
  have hk := drainContent_keepsThinking (d.proc.addTokens batch).drainThinking.2
  have hids : (d.proc.addTokens batch).drainThinking.2.allIds = batches.flatten ++ batch := by
    rw [ht.allIds]
    exact congrArg (· ++ batch) h.allIds
  have hcap : (d.proc.addTokens batch).drainThinking.2.thinkingCapable = thinkingCapable :=
    ht.thinkingCapable.trans h.capable
  have hreasoning : (d.item batch).reasoning =
      catchUp d.reasoning (safeReasoning (rawOf tok thinkingCapable (batches ++ [batch]))) := by
    change d.reasoning ++ _ = _
    rw [ht.out_eq]
    exact congrArg (fun n => d.reasoning ++ drop n _) h.thinkingEmittedLen
  refine ⟨hreasoning, ?_⟩
  constructor
  · rw [hflat]
    exact hk.allIds.trans hids
  · exact hk.thinkingCapable.trans hcap
  · exact hk.toolParser.trans (ht.toolParser.trans h.toolParser)
  · exact hk.internalTokenRanges.trans (ht.internalTokenRanges.trans h.internalTokenRanges)
  · have hview : (d.proc.addTokens batch).drainThinking.2.view =
        view thinkingCapable (rawOf tok thinkingCapable (batches ++ [batch])) := by
      simp only [Processor.view, Processor.raw, hids, hcap, rawOf, hflat]
    rw [views_concat, ← hview]
    exact h.released.drain (by rw [hids, h.allIds]) (by rw [hcap, h.capable])
      ht.toolParser ht.emittedLen ht.toolCallStarted ht.thinkingDone
  · rw [hreasoning, length_catchUp]
    refine hk.thinkingEmittedLen.trans ?_
    rw [ht.thinkingEmittedLen]
    exact congrArg (max · _) h.thinkingEmittedLen
  · intro hdone more
    rw [hreasoning, length_catchUp, hflat, append_assoc]
    cases hd : (d.proc.addTokens batch).drainThinking.2.thinkingDone with
    | true =>
      rw [ht.thinkingDone] at hd
      exact (h.settled hd _).trans (le_max_left _ _)
    | false =>
      obtain ⟨hpend, hspan⟩ := drainContent_ends _ hd hdone
      rw [Processor.raw, hids, hcap] at hpend
      rw [Processor.raw, hids, hcap] at hspan
      have hset := safeReasoning_settled (by simp [hne]) hpend hspan more
      rw [append_assoc] at hset
      rw [hset, rawOf, hflat]
      exact le_max_right _ _

variable {pre : List (List τ)}

variable (tok thinkingCapable parser)

theorem sse_delivered (hne : ∀ b ∈ batches, b ≠ []) :
    Delivered thinkingCapable parser batches (sse tok thinkingCapable parser batches) := by
  induction batches using reverseRecOn with
  | nil => exact Delivered.new thinkingCapable parser
  | append_singleton batches batch ih =>
    rw [sse_concat]
    exact ((ih fun b hb => hne b (by simp [hb])).item (hne batch (by simp))).2

theorem sse_reasoning_concat {batch : List τ} (hne : ∀ b ∈ batches ++ [batch], b ≠ []) :
    (sse tok thinkingCapable parser (batches ++ [batch])).reasoning =
      catchUp (sse tok thinkingCapable parser batches).reasoning
        (safeReasoning (rawOf tok thinkingCapable (batches ++ [batch]))) := by
  rw [sse_concat]
  exact ((sse_delivered tok _ _ fun b hb => hne b (by simp [hb])).item (hne batch (by simp))).1

theorem view_isPrefix (h : pre <+: batches) :
    view thinkingCapable (rawOf tok thinkingCapable pre) <+:
      view thinkingCapable (rawOf tok thinkingCapable batches) := by
  obtain ⟨post, rfl⟩ := h
  rw [rawOf, rawOf, flatten_append]
  exact view_mono tok _ _ _

section

variable (hne : ∀ b ∈ batches, b ≠ [])
include hne

theorem sse_view : (sse tok thinkingCapable parser batches).proc.view =
      view thinkingCapable (rawOf tok thinkingCapable batches) := by
  have h := sse_delivered tok thinkingCapable parser hne
  simp [Processor.view, Processor.raw, rawOf, h.allIds, h.capable]

theorem sse_content_isPrefix : (sse tok thinkingCapable parser batches).content <+:
      view thinkingCapable (rawOf tok thinkingCapable batches) := by
  rw [(sse_delivered tok _ _ hne).released.out_eq, sse_view tok _ _ hne]
  exact take_prefix _ _

/-- The content reaches as far as the safest of its views, and no further. -/
theorem length_sse_content_le_iff (n : Nat) : (sse tok thinkingCapable parser batches).content.length ≤ n ↔
      ∀ pre, pre <+: batches →
        safeLen parser.openTag (view thinkingCapable (rawOf tok thinkingCapable pre)) ≤ n := by
  have h := sse_delivered tok thinkingCapable parser hne
  have hlen : (sse tok thinkingCapable parser batches).content.length =
      releasedLen parser.openTag (views tok thinkingCapable batches) := by
    have hle := h.released.le_view
    rw [h.released.out_eq, length_take, min_eq_left hle, h.released.emittedLen, h.toolParser]
  rw [hlen, releasedLen_le_iff]
  simp [views]

end

variable {tok thinkingCapable parser}

/-- The reasoning stays inside any text that all of its safe parts begin. -/
theorem sse_reasoning_isPrefix {whole : Text} (hne : ∀ b ∈ batches, b ≠ [])
    (h : ∀ pre, pre <+: batches → safeReasoning (rawOf tok thinkingCapable pre) <+: whole) :
    (sse tok thinkingCapable parser batches).reasoning <+: whole := by
  induction batches using reverseRecOn with
  | nil => exact nil_prefix
  | append_singleton batches batch ih =>
    rw [sse_reasoning_concat tok _ _ hne]
    refine catchUp_isPrefix (ih (fun b hb => hne b (by simp [hb])) fun pre hpre => ?_)
      (h _ prefix_rfl)
    exact h pre (hpre.trans (prefix_append _ _))

/-- Where the safe parts only grow, the last one is what has been delivered. -/
theorem sse_reasoning_of_grows (hne : ∀ b ∈ batches, b ≠ []) (hpos : batches ≠ [])
    (h : ∀ pre, pre <+: batches → safeReasoning (rawOf tok thinkingCapable pre) <+:
      safeReasoning (rawOf tok thinkingCapable batches)) :
    (sse tok thinkingCapable parser batches).reasoning =
      safeReasoning (rawOf tok thinkingCapable batches) := by
  obtain ⟨init, batch, rfl⟩ := (eq_nil_or_concat' batches).resolve_left hpos
  rw [sse_reasoning_concat tok _ _ hne]
  refine catchUp_of_isPrefix (sse_reasoning_isPrefix (fun b hb => hne b (by simp [hb])) ?_)
  exact fun pre hpre => h pre (hpre.trans (prefix_append _ _))

end StreamLoop
