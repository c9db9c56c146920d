import BlackweLLM.StreamProcessor

/-!
# What the content drains deliver

A drain releases the visible text up to its safe length. Over any run of
batches the released text is therefore a prefix of the visible text, as long as
the largest safe length any drain has seen.
-/

namespace StreamProcessor

open List TextScan PythonText Thinking ToolCalls

variable {τ Call : Type} {tok : Tokenizer τ}

/-- One drain from `p` to `p'` over the visible text `v`, with the deltas `out`. -/
structure Drains (p p' : Processor tok Call) (v : Text) (out : List Text) : Prop where
  out_eq : out.flatten = (v.take (safeLen p.toolParser.openTag v)).drop p.emittedLen
  emittedLen : p'.emittedLen = max p.emittedLen (safeLen p.toolParser.openTag v)
  started : p'.toolCallStarted = (p.toolCallStarted || (find p.toolParser.openTag v).isSome)
  allIds : p'.allIds = p.allIds
  thinkingCapable : p'.thinkingCapable = p.thinkingCapable
  toolParser : p'.toolParser = p.toolParser
  thinkingEmittedLen : p'.thinkingEmittedLen = p.thinkingEmittedLen
  internalTokenRanges : p'.internalTokenRanges = p.internalTokenRanges

namespace Processor

theorem emit_drains (p : Processor tok Call) {v safe : Text}
    (hsafe : safe = v.take (safeLen p.toolParser.openTag v))
    (hlen : safe.length = safeLen p.toolParser.openTag v)
    (hfind : find p.toolParser.openTag v = none) : Drains p (p.emit safe).2 v (p.emit safe).1 := by
  unfold emit
  split_ifs with h
  · constructor <;> simp [hfind]
    · rw [hsafe]
    · omega
  · constructor
    · rw [← hsafe, drop_eq_nil_of_le (by omega)]
      rfl
    all_goals simp [hfind]
    omega

theorem drainVisible_drains (p : Processor tok Call) (v : Text) :
    Drains p (p.drainVisible v).2 v (p.drainVisible v).1 := by
  have hne := p.toolParser.openTag_ne_nil
  unfold drainVisible
  cases hf : find p.toolParser.openTag v with
  | some i =>
    have hend := find_end_le hne hf
    have hsafe : safeLen p.toolParser.openTag v = i := by
      simp [safeLen, findToolCallStart_of_find hf]
    simp only [findToolCallStart_of_find hf, Option.isSome_some, if_true]
    unfold emit
    split_ifs with h
    · constructor <;> simp [hf, hsafe]
      simp only [length_take] at h
      omega
    · simp only [length_take] at h
      constructor <;> simp [hf, hsafe] <;> omega
  | none =>
    have hsafe : safeLen p.toolParser.openTag v ≤ v.length := safeLen_le _ _ hne
    simp only [findToolCallStart_of_not_find hf, Option.isSome_none, Bool.false_eq_true, if_false]
    by_cases ho : overlap p.toolParser.openTag v = 0
    · simp only [ho, if_true]
      cases hu : find usageOpen v with
      | some u =>
        have hend := find_end_le usageOpen_ne_nil hu
        have hl : safeLen p.toolParser.openTag v = u := by
          simp [safeLen, findToolCallStart_of_not_find hf, ho, hu]
        exact p.emit_drains (by rw [hl]) (by rw [hl, length_take]; omega) hf
      | none =>
        have hl : safeLen p.toolParser.openTag v = v.length - overlap usageOpen v := by
          simp [safeLen, findToolCallStart_of_not_find hf, ho, hu]
        simp only [length_trimTail]
        split_ifs with hlt
        · exact p.emit_drains (by rw [hl]; rfl) (by rw [hl]; simp) hf
        · have h0 : v.length - overlap usageOpen v = v.length := by omega
          exact p.emit_drains (by rw [hl, h0]; simp) (by omega) hf
    · have hl : safeLen p.toolParser.openTag v = v.length - overlap p.toolParser.openTag v := by
        simp [safeLen, findToolCallStart_of_not_find hf, ho]
      simp only [ho, if_false]
      exact p.emit_drains (by rw [hl]) (by rw [hl, length_take]; omega) hf

end Processor

def Processor.view (p : Processor tok Call) : Text := StreamProcessor.view p.thinkingCapable p.raw

theorem find_nil {tag : Text} (h : tag ≠ []) : find tag [] = none := by simp [find, h]

theorem safeLen_nil {openTag : Text} (h : openTag ≠ []) : safeLen openTag [] = 0 := by
  have := safeLen_le openTag [] h
  simpa using this

namespace Processor

variable (p : Processor tok Call)

/-- A drain that has nothing to look at changes nothing but the decode cache. -/
theorem getRaw_drains : Drains p p.getRaw.2 [] [] := by
  have hne := p.toolParser.openTag_ne_nil
  constructor <;> simp [safeLen_nil hne, find_nil hne]

theorem markThinkingDone_drains {h} {v : Text} {p' : Processor tok Call}
    {out : List Text} (hd : Drains (p.markThinkingDone h) p' v out) : Drains p p' v out :=
  ⟨hd.out_eq, hd.emittedLen, hd.started, hd.allIds, hd.thinkingCapable, hd.toolParser,
    hd.thinkingEmittedLen, hd.internalTokenRanges⟩

theorem getRaw_drains_trans {v : Text} {p' : Processor tok Call}
    {out : List Text} (hd : Drains p.getRaw.2 p' v out) : Drains p p' v out := by
  constructor
  · simpa using hd.out_eq
  · simpa using hd.emittedLen
  · simpa using hd.started
  · simpa using hd.allIds
  · simpa using hd.thinkingCapable
  · simpa using hd.toolParser
  · simpa using hd.thinkingEmittedLen
  · simpa using hd.internalTokenRanges

theorem pending_getRaw :
    Pending p.getRaw.2.thinkingCapable (rawText tok p.getRaw.2.thinkingCapable p.getRaw.2.allIds) ↔
      Pending p.thinkingCapable p.raw := by
  simp [raw]

theorem view_of_done (h : p.thinkingDone = true) : p.view = visibleText p.raw := by
  exact if_neg (p.not_pending_of_done h)

theorem view_of_not_pending (h : ¬ Pending p.thinkingCapable p.raw) :
    p.view = visibleText p.raw := if_neg h

theorem view_of_pending (h : Pending p.thinkingCapable p.raw) :
    p.view = [] := if_pos h

/-- Every drain before the first complete tool tag releases the safe part of the view. -/
theorem drainContent_drains (hs : p.toolCallStarted = false) :
    Drains p p.drainContent.2 p.view p.drainContent.1 := by
  unfold drainContent
  simp only [hs, Bool.false_eq_true, if_false, getRaw_thinkingDone, getRaw_fst]
  split_ifs with hdone hpend
  · rw [p.view_of_done hdone]
    exact p.getRaw_drains_trans (drainVisible_drains _ _)
  · rw [p.view_of_pending (p.pending_getRaw.mp hpend)]
    exact p.getRaw_drains
  · have hopen : ¬ Pending p.thinkingCapable p.raw := fun h => hpend (p.pending_getRaw.mpr h)
    rw [p.view_of_not_pending hopen]
    cases hspan : findReasoningSpan p.raw with
    | none =>
      simp only [reasoningSpan, getRaw_thinkingCapable, hopen, and_false, if_false, hspan]
      exact p.getRaw_drains_trans (markThinkingDone_drains _ (drainVisible_drains _ _))
    | some span =>
      obtain ⟨start, stop, closed⟩ := span
      simp only [reasoningSpan, getRaw_thinkingCapable, hopen, and_false, if_false, hspan]
      cases closed with
      | true => exact p.getRaw_drains_trans (markThinkingDone_drains _ (drainVisible_drains _ _))
      | false =>
        have : visibleText p.raw = [] := by simp [visibleText, hspan]
        rw [this]
        exact p.getRaw_drains

theorem drainContent_of_started (hs : p.toolCallStarted = true) :
    p.drainContent = ([], p) := by
  simp [drainContent, hs]

/-- A drain that leaves the reasoning phase open had nothing to look at. -/
theorem drainContent_done_or_nil (hs : p.toolCallStarted = false) :
    p.drainContent.2.thinkingDone = true ∨ p.view = [] := by
  have hvis : ∀ (q : Processor tok Call) (v : Text),
      (q.drainVisible v).2.thinkingDone = q.thinkingDone := by
    intro q v
    have hemit : ∀ (q : Processor tok Call) safe, (q.emit safe).2.thinkingDone = q.thinkingDone := by
      intro q safe
      unfold emit
      split_ifs <;> rfl
    unfold drainVisible
    split
    · split_ifs <;> rw [hemit]
    · split
      · rw [hemit]
      · simp only
        split_ifs <;> rw [hemit]
  unfold drainContent
  simp only [hs, Bool.false_eq_true, if_false, getRaw_thinkingDone, getRaw_fst]
  split_ifs with hdone hpend
  · left
    rw [hvis, getRaw_thinkingDone, hdone]
  · exact .inr (p.view_of_pending (p.pending_getRaw.mp hpend))
  · have hopen : ¬ Pending p.thinkingCapable p.raw := fun h => hpend (p.pending_getRaw.mpr h)
    cases hspan : findReasoningSpan p.raw with
    | none =>
      simp only [reasoningSpan, getRaw_thinkingCapable, hopen, and_false, if_false, hspan, hvis]
      exact .inl rfl
    | some span =>
      obtain ⟨start, stop, closed⟩ := span
      simp only [reasoningSpan, getRaw_thinkingCapable, hopen, and_false, if_false, hspan]
      cases closed with
      | true =>
        simp only [if_true, hvis]
        exact .inl rfl
      | false =>
        right
        rw [p.view_of_not_pending hopen]
        simp [visibleText, hspan]

theorem view_congr {p q : Processor tok Call} (hids : q.allIds = p.allIds)
    (hcap : q.thinkingCapable = p.thinkingCapable) : q.view = p.view := by
  simp only [Processor.view, raw, hids, hcap]

/-- More tokens only append to the view. -/
theorem view_grows {p q : Processor tok Call} {batch : List τ} (hids : q.allIds = p.allIds ++ batch)
    (hcap : q.thinkingCapable = p.thinkingCapable) : p.view <+: q.view := by
  simp only [Processor.view, raw, hids, hcap]
  exact view_mono tok _ _ _

end Processor

/-- The largest safe length of the views that the drains have seen. -/
def releasedLen (openTag : Text) (views : List Text) : Nat :=
  (views.map (safeLen openTag)).foldl max 0

@[simp] theorem releasedLen_nil (openTag : Text) : releasedLen openTag [] = 0 := rfl
@[simp] theorem releasedLen_concat (openTag : Text) (views : List Text) (v : Text) :
    releasedLen openTag (views ++ [v]) = max (releasedLen openTag views) (safeLen openTag v) := by
  simp [releasedLen]

theorem releasedLen_le_iff (openTag : Text) (views : List Text) (n : Nat) :
    releasedLen openTag views ≤ n ↔ ∀ v ∈ views, safeLen openTag v ≤ n := by
  induction views using reverseRecOn with
  | nil => simp
  | append_singleton views v ih =>
    rw [releasedLen_concat, Nat.max_le, ih]
    simp [or_imp, forall_and]

/-- After drains over `views` the processor has released `out`, and nothing else. -/
structure Released (p : Processor tok Call) (views : List Text) (out : Text) : Prop where
  emittedLen : p.emittedLen = releasedLen p.toolParser.openTag views
  safe_le : safeLen p.toolParser.openTag p.view ≤ p.emittedLen
  le_view : p.emittedLen ≤ p.view.length
  out_eq : out = p.view.take p.emittedLen
  started : p.toolCallStarted = (find p.toolParser.openTag p.view).isSome
  done : p.thinkingDone = true ∨ p.view = []

theorem view_new (thinkingCapable : Bool) (parser : ToolCallParser Call) :
    (new tok thinkingCapable parser).view = [] := by
  cases thinkingCapable <;> rfl

theorem Released.new (thinkingCapable : Bool) (parser : ToolCallParser Call) :
    Released (StreamProcessor.new tok thinkingCapable parser) [] [] := by
  have hne := parser.openTag_ne_nil
  constructor
  · rfl
  · rw [view_new, show (StreamProcessor.new tok thinkingCapable parser).toolParser = parser from rfl,
      safeLen_nil hne]
    exact Nat.zero_le _
  · rw [view_new]; rfl
  · rw [view_new]; rfl
  · rw [view_new, show (StreamProcessor.new tok thinkingCapable parser).toolParser = parser from rfl,
      find_nil hne]
    rfl
  · exact .inr (view_new _ _)

/-- One batch: the drain appends to the released text what the batch made safe. -/
theorem Released.drain {p q : Processor tok Call} {views : List Text} {out : Text} {batch : List τ}
    (h : Released p views out) (hids : q.allIds = p.allIds ++ batch)
    (hcap : q.thinkingCapable = p.thinkingCapable) (hparser : q.toolParser = p.toolParser)
    (hemit : q.emittedLen = p.emittedLen) (hstart : q.toolCallStarted = p.toolCallStarted)
    (hdone : q.thinkingDone = p.thinkingDone) :
    Released q.drainContent.2 (views ++ [q.view]) (out ++ q.drainContent.1.flatten) := by
  have hne := q.toolParser.openTag_ne_nil
  have hmono := Processor.view_grows hids hcap
  have hlen := hmono.length_le
  have hle := h.le_view
  have hout : out = q.view.take q.emittedLen := by
    obtain ⟨more, hmore⟩ := hmono
    rw [h.out_eq, hemit, ← hmore, take_append_of_le_length hle]
  cases hs : q.toolCallStarted with
  | true =>
    have hfind : (find q.toolParser.openTag p.view).isSome := by
      rw [hparser, ← h.started, ← hstart, hs]
    obtain ⟨i, hi⟩ := Option.isSome_iff_exists.mp hfind
    have hi' := find_mono hne hi hmono
    have hsafe : safeLen q.toolParser.openTag q.view = safeLen q.toolParser.openTag p.view := by
      simp [safeLen, findToolCallStart_of_find hi, findToolCallStart_of_find hi']
    have hsafe_le := h.safe_le
    rw [← hparser] at hsafe_le
    rw [q.drainContent_of_started hs]
    constructor
    · rw [releasedLen_concat, hemit, h.emittedLen, hparser, max_eq_left]
      rw [← h.emittedLen, ← hparser, hsafe]
      exact hsafe_le
    · rw [hsafe, hemit]; exact hsafe_le
    · change q.emittedLen ≤ q.view.length
      omega
    · simpa using hout
    · rw [hs, hi', Option.isSome_some]
    · left
      change q.thinkingDone = true
      rcases h.done with hd | hnil
      · rw [hdone, hd]
      · rw [hnil, find_nil hne] at hi
        simp at hi
  | false =>
    have hd := q.drainContent_drains hs
    have hview : q.drainContent.2.view = q.view := Processor.view_congr hd.allIds hd.thinkingCapable
    have hsl := safeLen_le q.toolParser.openTag q.view hne
    constructor
    · rw [hd.emittedLen, hd.toolParser, releasedLen_concat, hemit, h.emittedLen, hparser]
    · rw [hview, hd.toolParser, hd.emittedLen]; exact le_max_right _ _
    · rw [hview, hd.emittedLen]; omega
    · rw [hview, hd.emittedLen, hd.out_eq, hout]
      rcases le_total q.emittedLen (safeLen q.toolParser.openTag q.view) with hm | hm
      · rw [max_eq_right hm]
        nth_rewrite 1 [show q.view.take q.emittedLen =
          (q.view.take (safeLen q.toolParser.openTag q.view)).take q.emittedLen by
            rw [take_take, min_eq_left hm]]
        exact take_append_drop _ _
      · rw [max_eq_left hm, drop_eq_nil_of_le (by rw [length_take]; omega), append_nil]
    · rw [hview, hd.started, hs, hd.toolParser, Bool.false_or]
    · rw [hview]
      exact q.drainContent_done_or_nil hs

end StreamProcessor
