import BlackweLLM.StreamLoop

/-!
# Streaming never retracts

When every delivered text is a beginning of what the completed generation
yields. Two things can break it: a `<usage>` block that is already there when
the end of the text looks like a tool call, and a `<think>` that arrives in
pieces although the prompt had opened the block.
-/

namespace StreamLoop

open List TextScan PythonText Thinking ToolCalls StreamProcessor

variable {w v : Text} {u t : Nat}

/-- The visible text with its closed `<usage>` blocks removed. -/
def withoutBlocks (visible : Text) : Text := removeBlocks usageOpen usageClose isSpace visible

def finalText (visible : Text) : Text := cutAt toolCallOpen (stripUsageArtifacts visible)

/-- Removing the blocks has joined a tag that begins before `u`. -/
def Spliced (visible : Text) (u : Nat) : Prop :=
  ∃ i < u, OccursAt usageOpen (withoutBlocks visible) i ∨ OccursAt toolCallOpen (withoutBlocks visible) i

theorem not_occursAt_both {text : Text} {i : Nat} (hu : OccursAt usageOpen text i) :
    ¬ OccursAt toolCallOpen text i := by
  intro ht
  have h1 : text[i + 1]? = usageOpen[1]? := hu.getElem? (by decide)
  have h2 : text[i + 1]? = toolCallOpen[1]? := ht.getElem? (by decide)
  rw [h1] at h2
  revert h2
  decide

theorem take_withoutBlocks (hu : find usageOpen w = some u) :
    (withoutBlocks w).take u = w.take u := by
  have hend := find_end_le usageOpen_ne_nil hu
  have hlen : (w.take u).length = u := by rw [length_take]; omega
  obtain ⟨rest, hrest⟩ := take_prefix_removeBlocks usageOpen usageClose isSpace hu
  rw [withoutBlocks, ← hrest, take_append_of_le_length (by omega), take_of_length_le (by omega)]

theorem finalText_of_not_usage (h : find usageOpen w = none) :
    finalText w = cutAt toolCallOpen w := by
  rw [finalText, stripUsageArtifacts, removeBlocks_of_not_find _ _ _ h, cutAt_of_not_find h]

theorem finalText_isPrefix (w : Text) : finalText w <+: withoutBlocks w :=
  (cutAt_isPrefix _ _).trans (cutAt_isPrefix _ _)

theorem finalText_of_toolCall (ht : find toolCallOpen w = some t)
    (hfirst : ∀ u, find usageOpen w = some u → t < u) : finalText w = w.take t := by
  obtain ⟨hocc, hmin⟩ := (find_eq_some_iff toolCallOpen_ne_nil).mp ht
  cases hu : find usageOpen w with
  | none => rw [finalText_of_not_usage hu, cutAt_of_find ht]
  | some u =>
    obtain ⟨hoccu, hminu⟩ := (find_eq_some_iff usageOpen_ne_nil).mp hu
    have hsame := take_withoutBlocks hu
    have hdis := hocc.disjoint hoccu toolCallOpen_headed usageOpen_headed (hfirst u hu)
    have htool := (occursAt_congr hsame hdis).mpr hocc
    have hlate : ∀ i < t + toolCallOpen.length, ¬ OccursAt usageOpen (withoutBlocks w) i := by
      intro i hi hi'
      rcases Nat.lt_trichotomy i t with hlt | rfl | hgt
      · have := hi'.disjoint htool usageOpen_headed toolCallOpen_headed hlt
        exact hminu i (by omega) ((occursAt_congr hsame (by omega)).mp hi')
      · exact not_occursAt_both hi' htool
      · have := htool.disjoint hi' toolCallOpen_headed usageOpen_headed hgt
        omega
    have hlen := htool.end_le toolCallOpen_ne_nil
    have hkeep : (stripUsageArtifacts w).take (t + toolCallOpen.length) =
        w.take (t + toolCallOpen.length) := by
      change (cutAt usageOpen (withoutBlocks w)).take _ = _
      rw [cutAt_of_clean usageOpen_ne_nil hlate, take_append_of_le_length (by simp; omega),
        take_take, min_self, ← min_eq_left hdis, ← take_take, hsame, take_take]
    have htool' := (occursAt_congr hkeep le_rfl).mpr hocc
    have hfind : find toolCallOpen (stripUsageArtifacts w) = some t := by
      refine (find_eq_some_iff toolCallOpen_ne_nil).mpr ⟨htool', fun j hj hj' => ?_⟩
      have := hj'.disjoint htool' toolCallOpen_headed toolCallOpen_headed hj
      exact hmin j hj ((occursAt_congr hkeep (by omega)).mp hj')
    rw [finalText, cutAt_of_find hfind, ← min_eq_left (Nat.le_add_right t toolCallOpen.length),
      ← take_take, hkeep, take_take]

/-- Where nothing was joined, the final text keeps what stands before the first block. -/
theorem finalText_of_usage (hu : find usageOpen w = some u) (hs : ¬ Spliced w u) :
    finalText w = w.take u ++
      cutAt toolCallOpen (cutAt usageOpen ((withoutBlocks w).drop u)) := by
  have hclean : ∀ i < u, ¬ OccursAt usageOpen (withoutBlocks w) i :=
    fun i hi h => hs ⟨i, hi, .inl h⟩
  have hstrip : stripUsageArtifacts w = w.take u ++ cutAt usageOpen ((withoutBlocks w).drop u) := by
    rw [← take_withoutBlocks hu]
    exact cutAt_of_clean usageOpen_ne_nil hclean
  have hend := find_end_le usageOpen_ne_nil hu
  have hlen : (w.take u).length = u := by rw [length_take]; omega
  have hclean' : ∀ i < u, ¬ OccursAt toolCallOpen (stripUsageArtifacts w) i := by
    intro i hi h
    obtain ⟨rest, hrest⟩ : stripUsageArtifacts w <+: withoutBlocks w := cutAt_isPrefix _ _
    refine hs ⟨i, hi, .inr ?_⟩
    rw [← hrest]
    have := h.end_le toolCallOpen_ne_nil
    exact h.append (by omega) rest
  rw [finalText, cutAt_of_clean toolCallOpen_ne_nil hclean', hstrip,
    take_append_of_le_length hlen.ge, take_of_length_le hlen.le, drop_append_of_le_length
    hlen.ge, drop_eq_nil_of_le hlen.le, nil_append]

theorem length_finalText_lt_of_spliced {visible : Text} (hs : Spliced visible u) :
    (finalText visible).length < u := by
  obtain ⟨i, hi, h | h⟩ := hs
  · have hcut := length_cutAt_le usageOpen_ne_nil h
    have hle := (cutAt_isPrefix toolCallOpen (stripUsageArtifacts visible)).length_le
    change (cutAt toolCallOpen _).length < u
    change _ ≤ (cutAt usageOpen (withoutBlocks visible)).length at hle
    omega
  · by_cases htool : OccursAt toolCallOpen (stripUsageArtifacts visible) i
    · have := length_cutAt_le toolCallOpen_ne_nil htool
      unfold finalText
      omega
    · -- a joined `<usage>` that cuts the joined tool call stands before it
      cases hj : find usageOpen (withoutBlocks visible) with
      | none =>
        have hsame : stripUsageArtifacts visible = withoutBlocks visible := cutAt_of_not_find hj
        rw [hsame] at htool
        exact absurd h htool
      | some j =>
        have hcut : stripUsageArtifacts visible = (withoutBlocks visible).take j := cutAt_of_find hj
        have hoccj := ((find_eq_some_iff usageOpen_ne_nil).mp hj).1
        have hij : ¬ i < j := by
          intro hij
          have hdis := h.disjoint hoccj toolCallOpen_headed usageOpen_headed hij
          rw [hcut] at htool
          refine htool ((occursAt_congr ?_ hdis).mpr h)
          rw [take_take, min_self]
        have hne : i ≠ j := by
          rintro rfl
          exact not_occursAt_both hoccj h
        have hle := (cutAt_isPrefix toolCallOpen (stripUsageArtifacts visible)).length_le
        rw [hcut, length_take] at hle
        change (cutAt toolCallOpen (stripUsageArtifacts visible)).length < u
        rw [hcut]
        omega

theorem safeLen_le_toolCall (h : v <+: w) (ht : OccursAt toolCallOpen w t) :
    safeLen toolCallOpen v ≤ t := by
  obtain ⟨more, rfl⟩ := h
  cases hf : find toolCallOpen v with
  | some i =>
    have hle : i ≤ t := by
      by_contra hlt
      obtain ⟨j, hj, hfj⟩ := find_le_of_occursAt toolCallOpen_ne_nil ht
      rw [find_append toolCallOpen_ne_nil hf more] at hfj
      cases hfj
      exact hlt hj
    simpa [safeLen, findToolCallStart_of_find hf] using hle
  | none =>
    have hnew : v.length < t + toolCallOpen.length := by
      by_contra hin
      exact (find_eq_none_iff toolCallOpen_ne_nil).mp hf t (ht.of_append (by omega))
    have hheld := length_sub_overlap_le ht hnew
    have hsafe : safeLen toolCallOpen v ≤ v.length - overlap toolCallOpen v := by
      by_cases ho : overlap toolCallOpen v = 0
      · have := safeLen_le toolCallOpen v toolCallOpen_ne_nil
        omega
      · simp [safeLen, findToolCallStart_of_not_find hf, ho]
    omega

/-- A tool-call start that is found behind a complete `<usage>` lies behind all of it. -/
theorem usage_end_le_findToolCallStart (hu : OccursAt usageOpen v u)
    (ht : findToolCallStart v toolCallOpen = some t)
    (hfirst : ∀ i, OccursAt toolCallOpen v i → u < i) : u + usageOpen.length ≤ t := by
  cases hf : find toolCallOpen v with
  | some i =>
    rw [findToolCallStart_of_find hf] at ht
    cases ht
    have hocc := ((find_eq_some_iff toolCallOpen_ne_nil).mp hf).1
    exact hu.disjoint hocc usageOpen_headed toolCallOpen_headed (hfirst _ hocc)
  | none =>
    rw [findToolCallStart_of_not_find hf] at ht
    split_ifs at ht with ho
    cases ht
    -- the held-back tail begins with the head of the tag, which `<usage>` has only at its start
    have hend := hu.end_le usageOpen_ne_nil
    have hle := overlap_le_length toolCallOpen v
    have hheld := (getElem?_overlap toolCallOpen_headed v (Nat.pos_of_ne_zero ho)).mpr rfl
    have hlt := overlap_lt toolCallOpen_ne_nil v
    by_contra hcon
    rcases lt_or_ge u (v.length - overlap toolCallOpen v) with hgt | hge
    · have hbody := hu.getElem? (show v.length - overlap toolCallOpen v - u < usageOpen.length by omega)
      rw [show u + (v.length - overlap toolCallOpen v - u) = v.length - overlap toolCallOpen v + 0 by omega,
        hheld] at hbody
      have := usageOpen_headed.getElem?_eq.mp hbody.symm
      omega
    · have hin : usageOpen <:+: toolCallOpen := by
        have hdrop : v.drop u = (toolCallOpen.take (overlap toolCallOpen v)).drop
            (u - (v.length - overlap toolCallOpen v)) := by
          rw [← drop_overlap, drop_drop]
          congr 1
          omega
        rw [OccursAt, hdrop] at hu
        exact hu.isInfix.trans ((drop_suffix _ _).isInfix.trans ( take_prefix _ _).isInfix)
      exact absurd hin (by decide)

/-- Behind a complete `<usage>` a drain waits, unless the text also looks like a tool call. -/
theorem safeLen_le_usage (h : v <+: w) (hu : find usageOpen w = some u)
    (hheld : find usageOpen v ≠ none → findToolCallStart v toolCallOpen = none) :
    safeLen toolCallOpen v ≤ u := by
  obtain ⟨hocc, -⟩ := (find_eq_some_iff usageOpen_ne_nil).mp hu
  cases hf : find usageOpen v with
  | some i =>
    have hi := find_mono usageOpen_ne_nil hf h
    rw [hu] at hi
    cases hi
    simp [safeLen, hheld (by simp [hf]), hf]
  | none =>
    obtain ⟨more, rfl⟩ := h
    have hnew : v.length < u + usageOpen.length := by
      by_contra hin
      exact (find_eq_none_iff usageOpen_ne_nil).mp hf u (hocc.of_append (by omega))
    have hlens : usageOpen.length ≤ toolCallOpen.length := by decide
    cases ht : find toolCallOpen v with
    | some i =>
      have hend := find_end_le toolCallOpen_ne_nil ht
      simp only [safeLen, findToolCallStart_of_find ht]
      omega
    | none =>
      by_cases ho : overlap toolCallOpen v = 0
      · simp only [safeLen, findToolCallStart_of_not_find ht, ho, if_true, hf]
        exact length_sub_overlap_le hocc hnew
      · simp only [safeLen, findToolCallStart_of_not_find ht, ho, if_false]
        by_contra hcon
        have hle := overlap_le_length toolCallOpen v
        have hhead := (getElem?_overlap toolCallOpen_headed v (Nat.pos_of_ne_zero ho)).mpr rfl
        have hbody := hocc.getElem? (show v.length - overlap toolCallOpen v - u < usageOpen.length by omega)
        rw [show u + (v.length - overlap toolCallOpen v - u) = v.length - overlap toolCallOpen v + 0 by omega,
          getElem?_append_left (by omega), hhead] at hbody
        have := usageOpen_headed.getElem?_eq.mp hbody.symm
        omega

/-- A drain that meets a tool-call start behind a complete `<usage>` releases the block. -/
theorem usage_end_le_safeLen (hu : OccursAt usageOpen v u)
    (ht : findToolCallStart v toolCallOpen ≠ none) (hfirst : ∀ i, OccursAt toolCallOpen v i → u < i) :
    u + usageOpen.length ≤ safeLen toolCallOpen v := by
  obtain ⟨t, ht⟩ := Option.ne_none_iff_exists'.mp ht
  simpa [safeLen, ht] using usage_end_le_findToolCallStart hu ht hfirst

section Batches

variable {τ Call : Type} (tok : Tokenizer τ) (capable : Bool) (parser : ToolCallParser Call)
  (batches : List (List τ))

/-- What `drain_content` may look at after `pre`. -/
def shown (pre : List (List τ)) : Text := view capable (rawOf tok capable pre)

def decodedOf (pre : List (List τ)) : Text := dropReplacement (tok.decode pre.flatten)

/-- The content and the reasoning delivered after `pre` are beginnings of what all `batches` yield,
and the content reaches into no `<usage>` block and into no tool call. -/
structure NotRetracted (pre : List (List τ)) : Prop where
  content : (sse tok capable parser pre).content <+:
    cutAt toolCallOpen (sse tok capable parser batches).proc.contentText
  visible : (sse tok capable parser pre).content <+: visibleText (rawOf tok capable batches)
  usage : ∀ u, OccursAt usageOpen (visibleText (rawOf tok capable batches)) u →
    (sse tok capable parser pre).content.length ≤ u
  toolCall : ∀ t, OccursAt toolCallOpen (visibleText (rawOf tok capable batches)) t →
    (sse tok capable parser pre).content.length ≤ t
  reasoning : (sse tok capable parser pre).reasoning <+:
    reasoningBody (rawOf tok capable batches)

/-- Unless a tool call comes first: no part of the generation that shows a complete `<usage>` ends
in what may be a tool call, and removing the blocks joins no tag in front of the first of them. -/
def UsageHeld : Prop :=
  ∀ u, find usageOpen (shown tok capable batches) = some u →
    (∀ t, find toolCallOpen (shown tok capable batches) = some t → u < t) →
    (∀ pre, pre <+: batches → find usageOpen (shown tok capable pre) ≠ none →
      findToolCallStart (shown tok capable pre) toolCallOpen = none) ∧
    ¬ Spliced (shown tok capable batches) u

/-- A `<think>` that the model repeats although the prompt has opened the block does not arrive in
pieces, or the reasoning begins with the same characters. -/
def TagHeld : Prop :=
  capable = true → thinkOpen <+: decodedOf tok batches →
    ∀ pre, pre <+: batches → pre ≠ [] → 2 ≤ (decodedOf tok pre).length →
      (decodedOf tok pre).length < thinkOpen.length →
      decodedOf tok pre <+: (decodedOf tok batches).drop (bodyOffset (decodedOf tok batches))

end Batches

section Reasoning

variable {τ Call : Type} {tok : Tokenizer τ} {capable : Bool} {parser : ToolCallParser Call}
  {batches pre : List (List τ)}

variable (tok) in
theorem decodedOf_isPrefix (h : pre <+: batches) : decodedOf tok pre <+: decodedOf tok batches := by
  obtain ⟨post, rfl⟩ := h
  rw [decodedOf, decodedOf, flatten_append]
  exact tok.grows _ _

theorem flatten_ne_nil (hne : ∀ b ∈ batches, b ≠ []) (h : pre <+: batches) (hpos : pre ≠ []) :
    pre.flatten ≠ [] := by
  intro hnil
  obtain ⟨b, hb⟩ := exists_mem_of_ne_nil pre hpos
  exact hne b (h.subset hb) (flatten_eq_nil_iff.mp hnil b hb)

theorem flatten_ne_nil_of_isPrefix (h : pre <+: batches) (hnil : pre.flatten ≠ []) :
    batches.flatten ≠ [] := by
  obtain ⟨post, rfl⟩ := h
  rw [flatten_append]
  exact fun happ => hnil (append_eq_nil_iff.mp happ).1

theorem rawOf_true (hne : pre.flatten ≠ []) : rawOf tok true pre = synthesize (decodedOf tok pre) :=
  rawText_true hne

theorem synthesize_of_open {decoded : Text} (h : thinkOpen <+: decoded) : synthesize decoded = decoded := by
  simp [synthesize, h]

theorem safeReasoning_synthesize {decoded : Text} (h : decoded <+: thinkOpen)
    (hlen : decoded.length < thinkOpen.length) :
    safeReasoning (synthesize decoded) = if decoded.length < 2 then [] else decoded := by
  have hcases : ∀ k < thinkOpen.length, safeReasoning (synthesize (thinkOpen.take k)) =
      if (thinkOpen.take k).length < 2 then [] else thinkOpen.take k := by decide
  rw [prefix_iff_eq_take.mp h]
  exact hcases _ hlen

theorem isPrefix_reasoningBody_iff {raw piece : Text} (hp : thinkOpen <+: raw) (h : piece <+: thinkOpen)
    (hlen : 2 ≤ piece.length) : piece <+: reasoningBody raw ↔ piece <+: raw.drop (bodyOffset raw) := by
  cases hc : find thinkClose (raw.drop (bodyOffset raw)) with
  | none => simp [reasoningBody, findReasoningSpan_of_open hp, hc]
  | some i =>
    have hbody : reasoningBody raw = (raw.drop (bodyOffset raw)).take i := by
      simp only [reasoningBody, findReasoningSpan_of_open hp, hc]
      rw [drop_take, Nat.add_sub_cancel_left]
    rw [hbody, prefix_take_iff]
    refine ⟨fun hpre => hpre.1, fun hpre => ⟨hpre, ?_⟩⟩
    -- `</think>` could only start at the head of the piece, and then differs in the next character
    by_contra hlt
    have hocc := ((find_eq_some_iff thinkClose_ne_nil).mp hc).1
    have hsame : ∀ k < piece.length, (raw.drop (bodyOffset raw))[k]? = thinkOpen[k]? := by
      intro k hk
      have h0 : OccursAt piece (raw.drop (bodyOffset raw)) 0 := hpre
      have h1 : OccursAt piece thinkOpen 0 := h
      rw [← Nat.zero_add k, h0.getElem? hk, h1.getElem? hk]
    have hhead := hocc.getElem? (length_pos_iff.mpr thinkClose_ne_nil)
    rw [Nat.add_zero, hsame i (by omega), thinkClose_headed.getElem?_eq.mpr rfl,
      thinkOpen_headed.getElem?_eq] at hhead
    have hnext := hocc.getElem? (show 1 < thinkClose.length by decide)
    rw [hhead, hsame (0 + 1) (by omega)] at hnext
    revert hnext
    decide

theorem early_isPrefix (h : pre <+: batches) (hp : ¬ thinkOpen <+: decodedOf tok pre)
    (hp' : thinkOpen <+: decodedOf tok batches) :
    decodedOf tok pre <+: thinkOpen ∧ (decodedOf tok pre).length < thinkOpen.length := by
  have hgrows := decodedOf_isPrefix tok h
  have hlt : (decodedOf tok pre).length < thinkOpen.length := by
    by_contra hlen
    exact hp ((thinkOpen_prefix_of_le hgrows (by omega)).mpr hp')
  exact ⟨prefix_of_prefix_length_le hgrows hp' hlt.le, hlt⟩

/-- Unless the tag is still in pieces, the reasoning that may be delivered begins the final one. -/
theorem safeReasoning_isPrefix_of_steady (h : pre <+: batches)
    (hsteady : capable = true → pre.flatten ≠ [] →
      thinkOpen <+: decodedOf tok batches → thinkOpen <+: decodedOf tok pre) :
    safeReasoning (rawOf tok capable pre) <+: safeReasoning (rawOf tok capable batches) := by
  cases capable with
  | false =>
    obtain ⟨post, rfl⟩ := h
    refine safeReasoning_mono ?_
    rw [rawOf, rawOf, flatten_append]
    exact rawText_mono tok _ _
  | true =>
    by_cases hnil : pre.flatten = []
    · have : safeReasoning (rawOf tok true pre) = [] := by
        rw [rawOf, hnil]
        rfl
      rw [this]
      exact nil_prefix
    · have hgrows := decodedOf_isPrefix tok h
      have hnil' := flatten_ne_nil_of_isPrefix h hnil
      rw [rawOf_true hnil, rawOf_true hnil']
      by_cases hp : thinkOpen <+: decodedOf tok batches
      · rw [synthesize_of_open hp, synthesize_of_open (hsteady rfl hnil hp)]
        exact safeReasoning_mono hgrows
      · have hp' : ¬ thinkOpen <+: decodedOf tok pre := fun hp' => hp (hp'.trans hgrows)
        simp only [synthesize, hp, hp', if_false]
        exact safeReasoning_mono ((prefix_append_right_inj _).mpr hgrows)

variable (parser) in
/-- The reasoning is never retracted exactly when no piece of the tag has been delivered as such. -/
theorem reasoning_isPrefix_iff (hne : ∀ b ∈ batches, b ≠ []) :
    (∀ pre, pre <+: batches → (sse tok capable parser pre).reasoning <+:
      reasoningBody (rawOf tok capable batches)) ↔ TagHeld tok capable batches := by
  constructor
  · intro h hcap hp pre hpre hpos hlen hlt
    subst hcap
    have hnil := flatten_ne_nil hne hpre hpos
    have hnil' := flatten_ne_nil_of_isPrefix hpre hnil
    have hearly : ¬ thinkOpen <+: decodedOf tok pre := fun hp' => by
      have := hp'.length_le
      omega
    obtain ⟨hpiece, -⟩ := early_isPrefix hpre hearly hp
    have hsafe : safeReasoning (rawOf tok true pre) = decodedOf tok pre := by
      rw [rawOf_true hnil, safeReasoning_synthesize hpiece hlt, if_neg (by omega)]
    -- up to `pre` nothing has been reread, so its piece of the tag is what has been delivered
    have hreason : (sse tok true parser pre).reasoning = decodedOf tok pre := by
      rw [← hsafe]
      refine sse_reasoning_of_grows (fun b hb => hne b (hpre.subset hb)) hpos fun pre' hpre' => ?_
      refine safeReasoning_isPrefix_of_steady hpre' fun _ _ hp' => absurd hp' hearly
    have hbody := h pre hpre
    rw [hreason, rawOf_true hnil', synthesize_of_open hp] at hbody
    exact (isPrefix_reasoningBody_iff hp hpiece hlen).mp hbody
  · intro h pre hpre
    refine sse_reasoning_isPrefix (fun b hb => hne b (hpre.subset hb)) fun pre' hpre' => ?_
    have hpre'' := hpre'.trans hpre
    by_cases hsteady : capable = true → pre'.flatten ≠ [] →
        thinkOpen <+: decodedOf tok batches → thinkOpen <+: decodedOf tok pre'
    · exact (safeReasoning_isPrefix_of_steady hpre'' hsteady).trans (safeReasoning_isPrefix _)
    · simp only [Classical.not_imp] at hsteady
      obtain ⟨rfl, hnil, hp, hearly⟩ := hsteady
      obtain ⟨hpiece, hlt⟩ := early_isPrefix hpre'' hearly hp
      have hpos : pre' ≠ [] := by
        rintro rfl
        exact hnil rfl
      have hnil' := flatten_ne_nil_of_isPrefix hpre'' hnil
      rw [rawOf_true hnil, safeReasoning_synthesize hpiece hlt]
      split_ifs with hlen
      · exact nil_prefix
      · rw [rawOf_true hnil', synthesize_of_open hp]
        exact (isPrefix_reasoningBody_iff hp hpiece (by omega)).mpr
          (h rfl hp pre' hpre'' hpos (by omega) hlt)

end Reasoning

section Content

variable {τ Call : Type} {tok : Tokenizer τ} {capable : Bool} {parser : ToolCallParser Call}
  {batches pre : List (List τ)}

theorem contentText_sse (hne : ∀ b ∈ batches, b ≠ []) :
    cutAt toolCallOpen (sse tok capable parser batches).proc.contentText =
      finalText (visibleText (rawOf tok capable batches)) := by
  have h := sse_delivered tok capable parser hne
  simp [Processor.contentText, finalText, Processor.raw, rawOf, h.allIds, h.capable]

theorem shown_of_not_pending (h : ¬ Pending capable (rawOf tok capable batches)) :
    shown tok capable batches = visibleText (rawOf tok capable batches) := if_neg h

theorem shown_of_pending (h : Pending capable (rawOf tok capable batches)) :
    shown tok capable batches = [] := if_pos h

variable (tok capable parser)

section

variable (hparser : parser.openTag = toolCallOpen) (hne : ∀ b ∈ batches, b ≠ []) (h : pre <+: batches)
include hparser hne h

theorem safeLen_le_length_content : safeLen toolCallOpen (shown tok capable pre) ≤
      (sse tok capable parser batches).content.length := by
  rw [← hparser]
  exact (length_sse_content_le_iff tok _ _ hne _).mp le_rfl pre h

/-- The content keeps out of `<usage>` blocks when the usage condition holds, and out of tool calls
in any case. -/
theorem length_content_le_toolCall (t : Nat) (ht : OccursAt toolCallOpen (shown tok capable batches) t) :
    (sse tok capable parser pre).content.length ≤ t := by
  refine (length_sse_content_le_iff tok _ _ (fun b hb => hne b (h.subset hb)) _).mpr fun pre' hpre' => ?_
  rw [hparser]
  exact safeLen_le_toolCall (view_isPrefix tok _ (hpre'.trans h)) ht

theorem length_content_le_usage {u : Nat} (hu : find usageOpen (shown tok capable batches) = some u)
    (hheld : ∀ pre, pre <+: batches → find usageOpen (shown tok capable pre) ≠ none →
      findToolCallStart (shown tok capable pre) toolCallOpen = none) :
    (sse tok capable parser pre).content.length ≤ u := by
  refine (length_sse_content_le_iff tok _ _ (fun b hb => hne b (h.subset hb)) _).mpr fun pre' hpre' => ?_
  rw [hparser]
  exact safeLen_le_usage (view_isPrefix tok _ (hpre'.trans h)) hu (hheld pre' (hpre'.trans h))

end

theorem content_isPrefix_shown (hne : ∀ b ∈ batches, b ≠ []) (h : pre <+: batches) :
    (sse tok capable parser pre).content <+: shown tok capable batches :=
  (sse_content_isPrefix tok _ _ fun b hb => hne b (h.subset hb)).trans (view_isPrefix tok _ h)

theorem content_safe (hparser : parser.openTag = toolCallOpen) (hne : ∀ b ∈ batches, b ≠ [])
    (h : pre <+: batches) (hheld : UsageHeld tok capable batches) :
    (sse tok capable parser pre).content <+: finalText (shown tok capable batches) ∧
      ∀ u, OccursAt usageOpen (shown tok capable batches) u →
        (sse tok capable parser pre).content.length ≤ u := by
  have hpre := content_isPrefix_shown tok capable parser hne h
  have htool := fun t => length_content_le_toolCall tok capable parser hparser hne h t
  have hcut : ∀ {n}, (sse tok capable parser pre).content.length ≤ n →
      (sse tok capable parser pre).content <+: (shown tok capable batches).take n :=
    fun hle => prefix_take_iff.mpr ⟨hpre, hle⟩
  cases hu : find usageOpen (shown tok capable batches) with
  | none =>
    refine ⟨?_, fun u hocc => absurd hocc ((find_eq_none_iff usageOpen_ne_nil).mp hu u)⟩
    rw [finalText_of_not_usage hu]
    cases ht : find toolCallOpen (shown tok capable batches) with
    | none => rwa [cutAt_of_not_find ht]
    | some t =>
      rw [cutAt_of_find ht]
      exact hcut (htool t ((find_eq_some_iff toolCallOpen_ne_nil).mp ht).1)
  | some u =>
    obtain ⟨hoccu, hminu⟩ := (find_eq_some_iff usageOpen_ne_nil).mp hu
    have hfirst : ∀ u', OccursAt usageOpen (shown tok capable batches) u' → u ≤ u' := by
      intro u' hocc
      by_contra hlt
      exact hminu u' (by omega) hocc
    by_cases hearly : ∀ t, find toolCallOpen (shown tok capable batches) = some t → u < t
    · obtain ⟨hhold, hsplice⟩ := hheld u hu hearly
      have hle := length_content_le_usage tok capable parser hparser hne h hu hhold
      refine ⟨?_, fun u' hocc => hle.trans (hfirst u' hocc)⟩
      rw [finalText_of_usage hu hsplice]
      exact (hcut hle).trans (prefix_append _ _)
    · simp only [not_forall, not_lt] at hearly
      obtain ⟨t, ht, htu⟩ := hearly
      have hocct := ((find_eq_some_iff toolCallOpen_ne_nil).mp ht).1
      have hlt : t < u := by
        refine lt_of_le_of_ne htu ?_
        rintro rfl
        exact not_occursAt_both hoccu hocct
      have hle := htool t hocct
      refine ⟨?_, fun u' hocc => (hle.trans htu).trans (hfirst u' hocc)⟩
      rw [finalText_of_toolCall ht fun u' hu' => by rw [hu] at hu'; cases hu'; exact hlt]
      exact hcut hle

variable {tok capable}

theorem usage_end_le_safeLen_shown (hpre : pre <+: batches) {u : Nat}
    (hu : find usageOpen (shown tok capable batches) = some u)
    (hearly : ∀ t, find toolCallOpen (shown tok capable batches) = some t → u < t)
    (hshows : find usageOpen (shown tok capable pre) ≠ none)
    (hstart : findToolCallStart (shown tok capable pre) toolCallOpen ≠ none) :
    u + usageOpen.length ≤ safeLen toolCallOpen (shown tok capable pre) := by
  have hmono : shown tok capable pre <+: shown tok capable batches :=
    view_isPrefix tok capable hpre
  obtain ⟨i, hi⟩ := Option.ne_none_iff_exists'.mp hshows
  have hui := find_mono usageOpen_ne_nil hi hmono
  rw [hu] at hui
  cases hui
  refine usage_end_le_safeLen ((find_eq_some_iff usageOpen_ne_nil).mp hi).1 hstart fun j hj => ?_
  obtain ⟨more, hmore⟩ := hmono
  have hend := hj.end_le toolCallOpen_ne_nil
  have hocc := hj.append (by omega) more
  rw [hmore] at hocc
  obtain ⟨t, htj, ht⟩ := find_le_of_occursAt toolCallOpen_ne_nil hocc
  exact (hearly t ht).trans_le htj

variable (tok capable)

theorem usageHeld_of_content_safe (hparser : parser.openTag = toolCallOpen)
    (hne : ∀ b ∈ batches, b ≠ [])
    (h : ∀ pre, pre <+: batches →
      (sse tok capable parser pre).content <+: finalText (shown tok capable batches) ∧
        ∀ u, OccursAt usageOpen (shown tok capable batches) u →
          (sse tok capable parser pre).content.length ≤ u) :
    UsageHeld tok capable batches := by
  intro u hu hearly
  have hoccu := ((find_eq_some_iff usageOpen_ne_nil).mp hu).1
  have hhold : ∀ pre, pre <+: batches → find usageOpen (shown tok capable pre) ≠ none →
      findToolCallStart (shown tok capable pre) toolCallOpen = none := by
    intro pre hpre hshows
    by_contra hstart
    have hleak := usage_end_le_safeLen_shown hpre hu hearly hshows hstart
    have hlow := safeLen_le_length_content tok capable parser hparser
      (fun b hb => hne b (hpre.subset hb)) (prefix_refl pre)
    have hup := (h pre hpre).2 u hoccu
    have : 0 < usageOpen.length := by decide
    omega
  refine ⟨hhold, fun hsplice => ?_⟩
  have hsafe : safeLen toolCallOpen (shown tok capable batches) = u := by
    simp [safeLen, hhold batches prefix_rfl (by simp [hu]), hu]
  have hlow := safeLen_le_length_content tok capable parser hparser hne
    (prefix_refl batches)
  have hup := (h batches prefix_rfl).1.length_le
  have hlt := length_finalText_lt_of_spliced hsplice
  omega

end Content

section NeverRetracts

variable {τ Call : Type} {tok : Tokenizer τ} {parser : ToolCallParser Call} {batches : List (List τ)}

/-- Streaming never retracts exactly when usage blocks and repeated tags are held. -/
theorem notRetracted_iff (capable : Bool) (hparser : parser.openTag = toolCallOpen)
    (hne : ∀ b ∈ batches, b ≠ []) :
    (∀ pre, pre <+: batches → NotRetracted tok capable parser batches pre) ↔
      UsageHeld tok capable batches ∧ TagHeld tok capable batches := by
  constructor
  · intro h
    refine ⟨?_, (reasoning_isPrefix_iff parser hne).mp fun pre hpre => (h pre hpre).reasoning⟩
    by_cases hpend : Pending capable (rawOf tok capable batches)
    · intro u hu
      rw [shown_of_pending hpend, find_nil usageOpen_ne_nil] at hu
      cases hu
    · refine usageHeld_of_content_safe tok capable parser hparser hne fun pre hpre => ?_
      have hfinal := (h pre hpre).content
      rw [contentText_sse hne] at hfinal
      rw [shown_of_not_pending hpend]
      exact ⟨hfinal, (h pre hpre).usage⟩
  · rintro ⟨hheld, htag⟩ pre hpre
    have hreason := (reasoning_isPrefix_iff parser hne).mpr htag pre hpre
    have hshown := content_isPrefix_shown tok capable parser hne hpre
    by_cases hpend : Pending capable (rawOf tok capable batches)
    · -- nothing is shown while the text could still become `<think>`
      rw [shown_of_pending hpend] at hshown
      have hnil := prefix_nil.mp hshown
      constructor
      · rw [hnil]; exact nil_prefix
      · rw [hnil]; exact nil_prefix
      · rw [hnil]; exact fun _ _ => Nat.zero_le _
      · rw [hnil]; exact fun _ _ => Nat.zero_le _
      · exact hreason
    · have hsafe := content_safe tok capable parser hparser hne hpre hheld
      have htool := fun t => length_content_le_toolCall tok capable parser hparser hne hpre t
      rw [shown_of_not_pending hpend] at hshown hsafe htool
      refine ⟨?_, hshown, hsafe.2, htool, hreason⟩
      rw [contentText_sse hne]
      exact hsafe.1

/-- A generation without markup, in two batches that cut its `<` off. -/
theorem notRetracted_iff_plain :
    NotRetracted Tokenizer.chars false .verbatim ["a <".toList, "b".toList] ["a <".toList] := by
  have hnone : find usageOpen (shown Tokenizer.chars false ["a <".toList, "b".toList]) = none := by decide
  refine (notRetracted_iff false rfl (by decide)).mpr ⟨fun u hu => ?_, fun h => absurd h (by decide)⟩ _
    (by decide)
  rw [hnone] at hu
  cases hu

/-- A tool call behind a `<usage>` block lets the block out. -/
theorem usage_retracted : ¬ ∀ pre, pre <+: ["Hi<usage>5</usage>".toList, "<tool_call>".toList] →
    NotRetracted Tokenizer.chars false .verbatim ["Hi<usage>5</usage>".toList, "<tool_call>".toList] pre :=
  fun h => absurd (h _ prefix_rfl).content (by decide)

end NeverRetracts

end StreamLoop
