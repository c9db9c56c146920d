import BlackweLLM.StreamSafety

/-!
# What streaming leaves undelivered

The two answers to one generation agree, up to surrounding white space, exactly
when nothing is still held back at its end: the loop delivers no more text once
the last item has come, while the response without streaming reads it all.
-/

namespace StreamLoop

open List TextScan PythonText Thinking ToolCalls StreamProcessor

theorem not_space_lt : isSpace '<' = false := by decide

theorem absurd_of_space {text : Text} {n i : Nat} (h : ∀ c ∈ text.drop n, isSpace c) (hi : n ≤ i)
    (hget : text[i]? = some '<') : False := by
  have hmem : '<' ∈ text.drop n := by
    refine mem_of_getElem? (i := i - n) ?_
    rwa [getElem?_drop, Nat.add_sub_cancel' hi]
  have := h _ hmem
  rw [not_space_lt] at this
  cases this

theorem space_of_isPrefix {out text : Text} (h : out <+: text) (hs : pyStrip out = pyStrip text) :
    ∀ c ∈ text.drop out.length, isSpace c := by
  obtain ⟨rest, rfl⟩ := h
  rw [drop_left]
  exact space_of_strip_append_eq isSpace hs.symm

section Reasoning

theorem eq_of_append_tail {piece front rest tail : Text} {k : Nat} (hpiece : piece <+: thinkOpen)
    (hlen : 2 ≤ piece.length) (htail : tail = thinkClose.take k)
    (h : piece ++ rest = front ++ rest ++ tail) : tail = [] ∧ front = piece := by
  have hlens := congrArg List.length h
  simp only [length_append] at hlens
  have hfront : front <+: piece := by
    refine prefix_of_prefix_length_le ?_ (prefix_append piece rest) (by omega)
    rw [h, append_assoc]
    exact prefix_append _ _
  obtain ⟨back, rfl⟩ := hfront
  rw [append_assoc, append_assoc, append_cancel_left_eq] at h
  have hcount : ∀ c, back.count c = tail.count c := by
    intro c
    have := congrArg (count c) h
    simp only [count_append] at this
    omega
  by_cases hnil : tail = []
  · have hback : back = [] := by
      rw [hnil] at hlens
      simp only [length_append, length_nil] at hlens
      exact length_eq_zero_iff.mp (by omega)
    exact ⟨hnil, by rw [hback, append_nil]⟩
  · -- `<` heads the tail, so it lies in `back`, and a piece of `<think>` has it only in front
    have hk : 0 < k := by
      rcases Nat.eq_zero_or_pos k with rfl | hk
      · exact absurd htail hnil
      · exact hk
    have hhead : '<' ∈ tail := by
      rw [htail]
      exact mem_of_getElem? (i := 0) (by rw [getElem?_take_of_lt hk]; decide)
    have hmem : '<' ∈ back := by
      rw [← count_pos_iff, hcount, count_pos_iff]
      exact hhead
    obtain ⟨j, hj⟩ := mem_iff_getElem?.mp hmem
    have hfront : front.length + j = 0 := by
      refine thinkOpen_headed.getElem?_eq.mp ?_
      obtain ⟨more, hmore⟩ := hpiece
      have hlt := (List.getElem?_eq_some_iff.mp hj).1
      rw [← hmore, getElem?_append_left (by rw [length_append]; omega),
        getElem?_append_right (by omega), Nat.add_sub_cancel_left, hj]
    have hfront' : front = [] := length_eq_zero_iff.mp (by omega)
    subst hfront'
    rw [nil_append] at hpiece hlen
    have hslash : '/' ∈ tail := by
      have htlen : tail.length = min k thinkClose.length := by rw [htail, length_take]
      simp only [length_append, length_nil] at hlens
      rw [htail]
      exact mem_of_getElem? (i := 1) (by rw [getElem?_take_of_lt (by omega)]; decide)
    have hslash' : '/' ∈ back := by
      rw [← count_pos_iff, hcount, count_pos_iff]
      exact hslash
    exact absurd (hpiece.subset hslash') (by decide)

theorem isPrefix_of_strip_catchUp {piece safe tail : Text} {k : Nat} (hpiece : piece <+: thinkOpen)
    (hlen : 2 ≤ piece.length) (htail : tail = thinkClose.take k)
    (h : pyStrip (catchUp piece safe) = pyStrip (safe ++ tail)) : tail = [] ∧ piece <+: safe := by
  have hkeep : ∀ l : Text, (∀ c ∈ l, isSpace c = false) → l.filter (fun c => !isSpace c) = l := by
    intro l hl
    exact filter_eq_self.mpr fun c hc => by simp [hl c hc]
  have hword : piece.filter (fun c => !isSpace c) = piece :=
    hkeep _ fun c hc => not_space_of_mem_thinkOpen (hpiece.subset hc)
  have hword' : tail.filter (fun c => !isSpace c) = tail := by
    rw [htail]
    exact hkeep _ fun c hc => not_space_of_mem_thinkClose (mem_of_mem_take hc)
  -- only the characters that are not white space are compared
  have hfilter := congrArg (filter fun c => !isSpace c) h
  simp only [pyStrip, filter_strip] at hfilter
  have hsplit : safe.filter (fun c => !isSpace c) =
      (safe.take piece.length).filter (fun c => !isSpace c) ++
        (safe.drop piece.length).filter (fun c => !isSpace c) := by
    rw [← filter_append, take_append_drop]
  rw [catchUp, filter_append, filter_append, hword, hword', hsplit] at hfilter
  obtain ⟨hnil, hfront⟩ := eq_of_append_tail hpiece hlen htail hfilter
  refine ⟨hnil, ?_⟩
  have hsub := filter_sublist (p := fun c => !isSpace c) (l := safe.take piece.length)
  rw [hfront] at hsub
  have heq := hsub.eq_of_length_le (by rw [length_take]; omega)
  exact prefix_iff_eq_take.mpr heq

variable {τ Call : Type} {tok : Tokenizer τ} {capable : Bool} {parser : ToolCallParser Call}
  {batches pre : List (List τ)}

theorem exists_early_split (hp : thinkOpen <+: decodedOf tok batches) (h : pre <+: batches)
    (hearly : ¬ thinkOpen <+: decodedOf tok pre) :
    ∃ init post, batches = init ++ post ∧ post ≠ [] ∧ pre <+: init ∧ ¬ thinkOpen <+: decodedOf tok init ∧
      ∀ more, more <+: post → more ≠ [] → thinkOpen <+: decodedOf tok (init ++ more) := by
  induction batches using reverseRecOn with
  | nil =>
    rw [prefix_nil.mp h] at hearly
    exact absurd hp hearly
  | append_singleton batches batch ih =>
    have hpre : pre <+: batches := by
      rcases prefix_concat_iff.mp h with rfl | hpre
      · exact absurd hp hearly
      · exact hpre
    by_cases hp' : thinkOpen <+: decodedOf tok batches
    · obtain ⟨init, post, rfl, hpos, hin, hin', hlater⟩ := ih hp' hpre
      refine ⟨init, post ++ [batch], by simp, by simp, hin, hin', fun more hmore hne => ?_⟩
      rcases prefix_concat_iff.mp hmore with rfl | hmore
      · rwa [← append_assoc]
      · exact hlater more hmore hne
    · refine ⟨batches, [batch], rfl, by simp, hpre, hp', fun more hmore hne => ?_⟩
      have hlen := hmore.length_le
      have hone := length_pos_iff.mpr hne
      simp only [length_singleton] at hlen
      rwa [hmore.eq_of_length (by simp only [length_singleton]; omega)]

theorem sse_reasoning_append {init post : List (List τ)} (hne : ∀ b ∈ init ++ post, b ≠ []) (hpos : post ≠ [])
    (hopen : ∀ more, more <+: post → more ≠ [] → thinkOpen <+: decodedOf tok (init ++ more)) :
    (sse tok capable parser (init ++ post)).reasoning =
      catchUp (sse tok capable parser init).reasoning
        (safeReasoning (rawOf tok capable (init ++ post))) := by
  induction post using reverseRecOn with
  | nil => exact absurd rfl hpos
  | append_singleton post batch ih =>
    rw [← append_assoc] at hne ⊢
    rw [sse_reasoning_concat tok _ _ hne]
    by_cases hnil : post = []
    · rw [hnil, append_nil]
    · have hsteady := hopen post (prefix_append _ _) hnil
      rw [ih (fun b hb => hne b (by simp at hb ⊢; tauto)) hnil
        fun more hmore => hopen more (hmore.trans (prefix_append _ _))]
      exact catchUp_catchUp (safeReasoning_isPrefix_of_steady (prefix_append _ _) fun _ _ _ => hsteady)

/-- No open reasoning ends in what may be the beginning of `</think>`. -/
def CloseHeld (tok : Tokenizer τ) (capable : Bool) (batches : List (List τ)) : Prop :=
  ∀ start stop, findReasoningSpan (rawOf tok capable batches) = some (start, stop, false) →
    overlap thinkClose ((rawOf tok capable batches).drop start) = 0

/-- The body of the reasoning is its safe part and a beginning of `</think>`. -/
theorem reasoningBody_eq (raw : Text) : ∃ k < thinkClose.length,
    reasoningBody raw = safeReasoning raw ++ thinkClose.take k ∧
      (k = 0 ↔ ∀ start stop, findReasoningSpan raw = some (start, stop, false) →
        overlap thinkClose (raw.drop start) = 0) := by
  cases hs : findReasoningSpan raw with
  | none => exact ⟨0, by decide, by simp [reasoningBody, safeReasoning, hs], by simp⟩
  | some span =>
    obtain ⟨start, stop, closed⟩ := span
    cases closed with
    | true => exact ⟨0, by decide, by simp [reasoningBody, safeReasoning, hs], by simp⟩
    | false =>
      have hstop : raw.take stop = raw := by
        have hp : thinkOpen <+: raw := by
          by_contra hp
          simp [findReasoningSpan_of_not_open hp] at hs
        rw [findReasoningSpan_of_open hp] at hs
        split at hs <;> simp only [Option.some.injEq, Prod.mk.injEq, reduceCtorEq, and_false] at hs
        rw [← hs.2.1, take_length]
      refine ⟨overlap thinkClose (raw.drop start), overlap_lt thinkClose_ne_nil _, ?_, ?_⟩
      · simp only [reasoningBody, safeReasoning, hs, hstop, Bool.false_eq_true, if_false]
        rw [trimTail, ← drop_overlap, take_append_drop]
      · constructor
        · intro h0 start' stop' hspan
          simp only [Option.some.injEq, Prod.mk.injEq, and_true] at hspan
          rw [← hspan.1]
          exact h0
        · exact fun h => h start stop rfl

theorem take_thinkClose_eq_nil {k : Nat} (h : ∀ c ∈ thinkClose.take k, isSpace c) : k = 0 := by
  by_contra hk
  have hmem : '<' ∈ thinkClose.take k := by
    refine mem_of_getElem? (i := 0) ?_
    rw [getElem?_take_of_lt (by omega)]
    decide
  exact absurd (h _ hmem) (by decide)

theorem sse_reasoning_eq (hne : ∀ b ∈ batches, b ≠ [])
    (h : ∀ pre, pre <+: batches → safeReasoning (rawOf tok capable pre) <+:
      safeReasoning (rawOf tok capable batches)) :
    (sse tok capable parser batches).reasoning =
      safeReasoning (rawOf tok capable batches) := by
  by_cases hpos : batches = []
  · subst hpos
    rfl
  · exact sse_reasoning_of_grows hne hpos h

variable (parser) in
theorem exists_piece (hne : ∀ b ∈ batches, b ≠ [])
    (h : ¬ ∀ pre, pre <+: batches → safeReasoning (rawOf tok capable pre) <+:
      safeReasoning (rawOf tok capable batches)) :
    ∃ init, init <+: batches ∧ capable = true ∧ thinkOpen <+: decodedOf tok batches ∧
      decodedOf tok init <+: thinkOpen ∧ 2 ≤ (decodedOf tok init).length ∧
      (∀ pre, pre <+: batches → ¬ thinkOpen <+: decodedOf tok pre → pre <+: init) ∧
      (sse tok capable parser batches).reasoning =
        catchUp (decodedOf tok init) (safeReasoning (rawOf tok capable batches)) := by
  simp only [not_forall] at h
  obtain ⟨pre, hpre, hnot⟩ := h
  have hsteady : ¬ (capable = true → pre.flatten ≠ [] →
      thinkOpen <+: decodedOf tok batches → thinkOpen <+: decodedOf tok pre) :=
    fun hs => hnot (safeReasoning_isPrefix_of_steady hpre hs)
  simp only [Classical.not_imp] at hsteady
  obtain ⟨rfl, hnil, hp, hearly⟩ := hsteady
  obtain ⟨init, post, rfl, hpos, hin, hearly', hlater⟩ := exists_early_split hp hpre hearly
  have hinit : init <+: init ++ post := prefix_append _ _
  obtain ⟨hpiece, hlt⟩ := early_isPrefix hinit hearly' hp
  obtain ⟨hpiece₀, hlt₀⟩ := early_isPrefix hpre hearly hp
  have hgrows := decodedOf_isPrefix tok hin
  have hlen₀ : 2 ≤ (decodedOf tok pre).length := by
    by_contra hshort
    rw [rawOf_true hnil, safeReasoning_synthesize hpiece₀ hlt₀, if_pos (by omega)] at hnot
    exact hnot nil_prefix
  have hlen := hlen₀.trans hgrows.length_le
  have hnil' := flatten_ne_nil_of_isPrefix hin hnil
  have hsafe : safeReasoning (rawOf tok true init) = decodedOf tok init := by
    rw [rawOf_true hnil', safeReasoning_synthesize hpiece hlt, if_neg (by omega)]
  refine ⟨init, hinit, rfl, hp, hpiece, hlen, fun pre' hpre' hnot' => ?_, ?_⟩
  · rcases prefix_or_prefix_of_prefix hpre' hinit with h | ⟨more, rfl⟩
    · exact h
    · by_cases hmore : more = []
      · rw [hmore, append_nil]
      · exact absurd (hlater more ((prefix_append_right_inj init).mp hpre') hmore) hnot'
  · rw [sse_reasoning_append hne hpos hlater, ← hsafe]
    congr 1
    refine sse_reasoning_eq (fun b hb => hne b (mem_append_left _ hb)) fun pre' hpre' => ?_
    exact safeReasoning_isPrefix_of_steady hpre' fun _ _ hp' => absurd hp' hearly'

/-- The reasoning is complete exactly when no tag, repeated or closing, is left in pieces. -/
theorem strip_reasoning_iff (hne : ∀ b ∈ batches, b ≠ []) :
    pyStrip (sse tok capable parser batches).reasoning =
        pyStrip (reasoningBody (rawOf tok capable batches)) ↔
      TagHeld tok capable batches ∧ CloseHeld tok capable batches := by
  obtain ⟨k, hk, hbody, hzero⟩ := reasoningBody_eq (rawOf tok capable batches)
  constructor
  · intro h
    by_cases hgrows : ∀ pre, pre <+: batches → safeReasoning (rawOf tok capable pre) <+:
        safeReasoning (rawOf tok capable batches)
    · rw [hbody, sse_reasoning_eq hne hgrows] at h
      have hk0 := take_thinkClose_eq_nil (space_of_strip_append_eq isSpace h.symm)
      refine ⟨(reasoning_isPrefix_iff parser hne).mp fun pre hpre => ?_, hzero.mp hk0⟩
      refine sse_reasoning_isPrefix (fun b hb => hne b (hpre.subset hb)) fun pre' hpre' => ?_
      exact (hgrows pre' (hpre'.trans hpre)).trans (safeReasoning_isPrefix _)
    · obtain ⟨init, hinit, rfl, hp, hpiece, hlen, hlast, hout⟩ := exists_piece parser hne hgrows
      rw [hbody, hout] at h
      obtain ⟨hnil, hsafe⟩ := isPrefix_of_strip_catchUp hpiece hlen rfl h
      have hk0 := take_thinkClose_eq_nil (k := k) (by simp [hnil])
      refine ⟨fun _ _ pre hpre hpos hlen' hlt => ?_, hzero.mp hk0⟩
      have hearly : ¬ thinkOpen <+: decodedOf tok pre := fun hp' => by
        have := hp'.length_le
        omega
      have hin := hlast pre hpre hearly
      have hnil' := flatten_ne_nil_of_isPrefix hpre (flatten_ne_nil hne hpre hpos)
      refine (isPrefix_reasoningBody_iff hp ((decodedOf_isPrefix tok hin).trans hpiece) hlen').mp ?_
      rw [← synthesize_of_open hp, ← rawOf_true hnil', hbody]
      exact (decodedOf_isPrefix tok hin).trans (hsafe.trans (prefix_append _ _))
  · rintro ⟨htag, hclose⟩
    have hk0 := hzero.mpr hclose
    subst hk0
    rw [take_zero, append_nil] at hbody
    rw [hbody]
    congr 1
    by_cases hpos : batches = []
    · subst hpos
      rfl
    · obtain ⟨init, batch, rfl⟩ := (eq_nil_or_concat' batches).resolve_left hpos
      have hin := (reasoning_isPrefix_iff parser hne).mpr htag init (prefix_append _ _)
      rw [sse_reasoning_concat tok _ _ hne]
      rw [hbody] at hin
      exact catchUp_of_isPrefix hin

end Reasoning

section Content

theorem getElem?_length_cutAt {tag text : Text} (ht : HeadedBy '<' tag) (h : cutAt tag text ≠ text) :
    text[(cutAt tag text).length]? = some '<' := by
  cases hf : find tag text with
  | none => exact absurd (cutAt_of_not_find hf) h
  | some i =>
    have hend := find_end_le ht.ne_nil hf
    have hocc := ((find_eq_some_iff ht.ne_nil).mp hf).1
    have hhead := hocc.getElem? (length_pos_iff.mpr ht.ne_nil)
    rw [ht.getElem?_eq.mpr rfl, Nat.add_zero] at hhead
    rwa [cutAt_of_find hf, length_take, Nat.min_eq_left (by omega)]

theorem getElem?_length_finalText {w : Text} (h : finalText w ≠ withoutBlocks w) :
    (withoutBlocks w)[(finalText w).length]? = some '<' := by
  by_cases hcut : finalText w = stripUsageArtifacts w
  · rw [hcut] at h ⊢
    exact getElem?_length_cutAt usageOpen_headed h
  · have hget : (stripUsageArtifacts w)[(finalText w).length]? = some '<' :=
      getElem?_length_cutAt toolCallOpen_headed hcut
    obtain ⟨rest, hrest⟩ : stripUsageArtifacts w <+: withoutBlocks w := cutAt_isPrefix _ _
    rw [← hrest, getElem?_append_left (List.getElem?_eq_some_iff.mp hget).1]
    exact hget

theorem safeLen_le_of_toolCall {v w : Text} (h : v <+: w) (ht : find toolCallOpen w = none) :
    safeLen toolCallOpen v ≤ w.length - overlap toolCallOpen w := by
  have hmono := (trimTail_mono toolCallOpen_ne_nil h).length_le
  rw [length_trimTail, length_trimTail] at hmono
  have htv : find toolCallOpen v = none := by
    cases hf : find toolCallOpen v with
    | none => rfl
    | some i => simp [find_mono toolCallOpen_ne_nil hf h] at ht
  refine le_trans ?_ hmono
  by_cases ho : overlap toolCallOpen v = 0
  · have := safeLen_le toolCallOpen v toolCallOpen_ne_nil
    omega
  · simp [safeLen, findToolCallStart_of_not_find htv, ho]

theorem safeLen_le_of_usage {v w : Text} (h : v <+: w) (ht : find toolCallOpen w = none)
    (hu : find usageOpen w = none) (ho : overlap usageOpen w ≠ 0) :
    safeLen toolCallOpen v ≤ w.length - overlap usageOpen w := by
  have hmono := (trimTail_mono usageOpen_ne_nil h).length_le
  rw [length_trimTail, length_trimTail] at hmono
  have hnone : ∀ {tag : Text}, tag ≠ [] → find tag w = none → find tag v = none := by
    intro tag hne hw
    cases hf : find tag v with
    | none => rfl
    | some i => simp [find_mono hne hf h] at hw
  have htv := hnone toolCallOpen_ne_nil ht
  have huv := hnone usageOpen_ne_nil hu
  by_cases hov : overlap toolCallOpen v = 0
  · simpa [safeLen, findToolCallStart_of_not_find htv, hov, huv] using hmono
  · -- the held-back `<` of a tool call cannot lie inside the held-back `<usage>`
    simp only [safeLen, findToolCallStart_of_not_find htv, hov, if_false]
    by_contra hlt
    have hle := overlap_le_length toolCallOpen v
    have hlen := h.length_le
    have hhead := (getElem?_overlap toolCallOpen_headed v (Nat.pos_of_ne_zero hov)).mpr rfl
    have hk : v.length - overlap toolCallOpen v - (w.length - overlap usageOpen w) < overlap usageOpen w := by
      omega
    have hbody := (getElem?_overlap usageOpen_headed w hk).mp (by
      obtain ⟨more, rfl⟩ := h
      rw [getElem?_append_left (by omega), ← hhead]
      congr 1
      omega)
    omega

variable {τ Call : Type} {tok : Tokenizer τ} {capable : Bool} {parser : ToolCallParser Call}
  {batches : List (List τ)}

/-- Nothing but white space and further blocks follows the first `<usage>`, unless a tool call
comes first. -/
def NothingAfterUsage (tok : Tokenizer τ) (capable : Bool) (batches : List (List τ)) : Prop :=
  ∀ u, find usageOpen (shown tok capable batches) = some u →
    (∀ t, find toolCallOpen (shown tok capable batches) = some t → u < t) →
    ∀ c ∈ cutAt toolCallOpen (cutAt usageOpen ((withoutBlocks (shown tok capable batches)).drop u)),
      isSpace c

/-- No text without these tags ends in a beginning of one. -/
def TailHeld (tok : Tokenizer τ) (capable : Bool) (batches : List (List τ)) : Prop :=
  find usageOpen (shown tok capable batches) = none →
    find toolCallOpen (shown tok capable batches) = none →
    overlap toolCallOpen (shown tok capable batches) = 0 ∧
      overlap usageOpen (shown tok capable batches) = 0

theorem overlap_space {marker text : Text} {n : Nat} (hm : HeadedBy '<' marker)
    (h : ∀ c ∈ text.drop n, isSpace c) (hn : n ≤ text.length - overlap marker text) :
    overlap marker text = 0 := by
  by_contra ho
  exact absurd_of_space h hn ((getElem?_overlap hm text (Nat.pos_of_ne_zero ho)).mpr rfl)

/-- Without tags everything arrives exactly when nothing is held back at the end. -/
theorem strip_content_of_plain (hparser : parser.openTag = toolCallOpen) (hne : ∀ b ∈ batches, b ≠ [])
    (hu : find usageOpen (shown tok capable batches) = none)
    (ht : find toolCallOpen (shown tok capable batches) = none) :
    pyStrip (sse tok capable parser batches).content = pyStrip (shown tok capable batches) ↔
      overlap toolCallOpen (shown tok capable batches) = 0 ∧
        overlap usageOpen (shown tok capable batches) = 0 := by
  have hpre := content_isPrefix_shown tok capable parser hne (prefix_refl batches)
  constructor
  · intro h
    have hspace := space_of_isPrefix hpre h
    have hbound : ∀ n, (∀ pre, pre <+: batches → safeLen toolCallOpen (shown tok capable pre) ≤ n) →
        (sse tok capable parser batches).content.length ≤ n := by
      intro n hn
      refine (length_sse_content_le_iff tok _ _ hne n).mpr fun pre hin => ?_
      rw [hparser]
      exact hn pre hin
    constructor
    · refine overlap_space toolCallOpen_headed hspace (hbound _ fun pre hin => ?_)
      exact safeLen_le_of_toolCall (view_isPrefix tok _ hin) ht
    · by_contra ho
      refine ho (overlap_space usageOpen_headed hspace (hbound _ fun pre hin => ?_))
      exact safeLen_le_of_usage (view_isPrefix tok _ hin) ht hu ho
  · rintro ⟨hot, hou⟩
    have hlow := safeLen_le_length_content tok capable parser hparser hne (prefix_refl batches)
    have hall : safeLen toolCallOpen (shown tok capable batches) =
        (shown tok capable batches).length := by
      simp [safeLen, findToolCallStart_of_not_find ht, hot, hu, hou]
    rw [hpre.eq_of_length_le (by omega)]

theorem length_content_le_of_strip {w out : Text} {u : Nat} (hu : find usageOpen w = some u)
    (hout : out <+: w) (h : pyStrip out = pyStrip (finalText w)) :
    out.length < u + usageOpen.length := by
  by_contra hlong
  have hocc := ((find_eq_some_iff usageOpen_ne_nil).mp hu).1
  obtain ⟨rest, hrest⟩ := hout
  rw [← hrest] at hocc
  obtain ⟨more, hmore⟩ := hocc.of_append (by omega)
  have hin : usageOpen <:+: out := ⟨out.take u, more, by
    rw [append_assoc, hmore, take_append_drop]⟩
  have hstrip : usageOpen <:+: pyStrip (finalText w) := by
    rw [← h]
    exact infix_strip isSpace hin ⟨'<', "usage>".toList, by decide, by decide⟩
      ⟨"<usage".toList, '>', by decide, by decide⟩
  obtain ⟨pre, post, hsplit, -, -⟩ := strip_decompose isSpace (finalText w)
  obtain ⟨a, b, hab⟩ := hstrip
  have hfinal : finalText w <+: stripUsageArtifacts w := cutAt_isPrefix _ _
  obtain ⟨tail, htail⟩ := hfinal
  refine not_occursAt_cutAt usageOpen_ne_nil (pre ++ a).length (show OccursAt usageOpen
    (stripUsageArtifacts w) (pre ++ a).length from ?_)
  have hword : stripUsageArtifacts w = (pre ++ a) ++ (usageOpen ++ (b ++ post ++ tail)) := by
    rw [← htail, hsplit]
    change pre ++ pyStrip (finalText w) ++ post ++ tail = _
    rw [← hab]
    simp only [append_assoc]
  rw [OccursAt, hword, drop_left]
  exact prefix_append _ _

section

variable (hparser : parser.openTag = toolCallOpen) (hne : ∀ b ∈ batches, b ≠ [])
include hparser hne

theorem strip_content_of_usage {u : Nat} (hu : find usageOpen (shown tok capable batches) = some u)
    (hfirst : ∀ t, find toolCallOpen (shown tok capable batches) = some t → u < t) :
    pyStrip (sse tok capable parser batches).content =
        pyStrip (finalText (shown tok capable batches)) ↔
      UsageHeld tok capable batches ∧ NothingAfterUsage tok capable batches := by
  have hpre := content_isPrefix_shown tok capable parser hne (prefix_refl batches)
  have hend := find_end_le usageOpen_ne_nil hu
  have huniq : ∀ {u'}, find usageOpen (shown tok capable batches) = some u' → u' = u := by
    intro u' hu'
    rw [hu] at hu'
    exact (Option.some.inj hu').symm
  -- with the block held, the content ends exactly in front of it
  have hcontent : (∀ pre, pre <+: batches → find usageOpen (shown tok capable pre) ≠ none →
      findToolCallStart (shown tok capable pre) toolCallOpen = none) →
      (sse tok capable parser batches).content = (shown tok capable batches).take u := by
    intro hhold
    have hle := length_content_le_usage tok capable parser hparser hne (prefix_refl batches) hu
      hhold
    have hlow := safeLen_le_length_content tok capable parser hparser hne (prefix_refl batches)
    have hsafe : safeLen toolCallOpen (shown tok capable batches) = u := by
      simp [safeLen, hhold batches prefix_rfl (by simp [hu]), hu]
    have hcut := prefix_take_iff.mpr ⟨hpre, hle⟩
    exact hcut.eq_of_length_le (by rw [length_take]; omega)
  constructor
  · intro h
    have hhold : ∀ pre, pre <+: batches → find usageOpen (shown tok capable pre) ≠ none →
        findToolCallStart (shown tok capable pre) toolCallOpen = none := by
      intro pre hin hshows
      by_contra hstart
      have hleak := usage_end_le_safeLen_shown hin hu hfirst hshows hstart
      have hlow := safeLen_le_length_content tok capable parser hparser hne hin
      have := length_content_le_of_strip hu hpre h
      omega
    have hout := hcontent hhold
    rw [hout] at h
    have hsplice : ¬ Spliced (shown tok capable batches) u := by
      intro hs
      have hlt := length_finalText_lt_of_spliced hs
      have hsame := take_withoutBlocks hu
      have hfinal : finalText (shown tok capable batches) <+:
          (shown tok capable batches).take u := by
        rw [← hsame]
        exact prefix_take_iff.mpr ⟨finalText_isPrefix _, hlt.le⟩
      have hspace := space_of_isPrefix hfinal h.symm
      have hlen : u ≤ (withoutBlocks (shown tok capable batches)).length := by
        have := congrArg List.length hsame
        rw [length_take, length_take] at this
        omega
      have hget := getElem?_length_finalText (w := shown tok capable batches) (by
        intro heq
        rw [← heq] at hlen
        omega)
      refine absurd_of_space hspace le_rfl ?_
      rw [← hsame, getElem?_take_of_lt hlt]
      exact hget
    refine ⟨fun u' hu' _ => ?_, fun u' hu' _ => ?_⟩
    · rw [huniq hu']
      exact ⟨hhold, hsplice⟩
    · rw [finalText_of_usage hu hsplice] at h
      rw [huniq hu']
      exact space_of_strip_append_eq isSpace h.symm
  · rintro ⟨hheld, hafter⟩
    obtain ⟨hhold, hsplice⟩ := hheld u hu hfirst
    rw [hcontent hhold, finalText_of_usage hu hsplice]
    exact (strip_append_of_space isSpace (hafter u hu hfirst)).symm

theorem content_eq_of_toolCall {t : Nat} (ht : find toolCallOpen (shown tok capable batches) = some t)
    (hfirst : ∀ u, find usageOpen (shown tok capable batches) = some u → t < u) :
    (sse tok capable parser batches).content =
      finalText (shown tok capable batches) := by
  have hpre := content_isPrefix_shown tok capable parser hne (prefix_refl batches)
  have hocc := ((find_eq_some_iff toolCallOpen_ne_nil).mp ht).1
  have hle := length_content_le_toolCall tok capable parser hparser hne (prefix_refl batches) t hocc
  have hlow := safeLen_le_length_content tok capable parser hparser hne (prefix_refl batches)
  have hsafe : safeLen toolCallOpen (shown tok capable batches) = t := by
    simp [safeLen, findToolCallStart_of_find ht]
  rw [finalText_of_toolCall ht hfirst]
  exact (prefix_take_iff.mpr ⟨hpre, hle⟩).eq_of_length_le (by rw [length_take]; omega)

theorem strip_shown_iff : pyStrip (sse tok capable parser batches).content =
        pyStrip (finalText (shown tok capable batches)) ↔
      UsageHeld tok capable batches ∧ NothingAfterUsage tok capable batches ∧
        TailHeld tok capable batches := by
  cases hu : find usageOpen (shown tok capable batches) with
  | some u =>
    have htail : TailHeld tok capable batches := fun hnone => by rw [hu] at hnone; cases hnone
    by_cases hfirst : ∀ t, find toolCallOpen (shown tok capable batches) = some t → u < t
    · rw [strip_content_of_usage hparser hne hu hfirst]
      exact ⟨fun h => ⟨h.1, h.2, htail⟩, fun h => ⟨h.1, h.2.1⟩⟩
    · simp only [not_forall, not_lt] at hfirst
      obtain ⟨t, ht, htu⟩ := hfirst
      have hlt : t < u := by
        refine lt_of_le_of_ne htu ?_
        rintro rfl
        exact not_occursAt_both ((find_eq_some_iff usageOpen_ne_nil).mp hu).1
          ((find_eq_some_iff toolCallOpen_ne_nil).mp ht).1
      have hlate : ∀ u', find usageOpen (shown tok capable batches) = some u' → t < u' := by
        intro u' hu'
        rw [hu] at hu'
        cases hu'
        exact hlt
      refine iff_of_true (by rw [content_eq_of_toolCall hparser hne ht hlate]) ⟨?_, ?_, htail⟩
      · intro u' hu' hearly
        have := hearly t ht
        have := hlate u' hu'
        omega
      · intro u' hu' hearly
        have := hearly t ht
        have := hlate u' hu'
        omega
  | none =>
    have husage : UsageHeld tok capable batches := fun u' hu' => by rw [hu] at hu'; cases hu'
    have hafter : NothingAfterUsage tok capable batches := fun u' hu' => by rw [hu] at hu'; cases hu'
    cases ht : find toolCallOpen (shown tok capable batches) with
    | some t =>
      have hlate : ∀ u', find usageOpen (shown tok capable batches) = some u' → t < u' :=
        fun u' hu' => by rw [hu] at hu'; cases hu'
      refine iff_of_true (by rw [content_eq_of_toolCall hparser hne ht hlate]) ⟨husage, hafter, ?_⟩
      intro _ hnone
      rw [ht] at hnone
      cases hnone
    | none =>
      rw [finalText_of_not_usage hu, cutAt_of_not_find ht, strip_content_of_plain hparser hne hu ht]
      exact ⟨fun h => ⟨husage, hafter, fun _ _ => h⟩, fun h => h.2.2 hu ht⟩

end

theorem finalText_of_pending (h : Pending capable (rawOf tok capable batches)) :
    finalText (visibleText (rawOf tok capable batches)) = rawOf tok capable batches := by
  obtain ⟨-, hlt, hpiece⟩ := h
  have hcases : ∀ k < thinkOpen.length, finalText (visibleText (thinkOpen.take k)) = thinkOpen.take k := by
    decide
  rw [prefix_iff_eq_take.mp hpiece]
  exact hcases _ hlt

/-- The content is complete exactly when nothing is withheld at the end. -/
theorem strip_content_iff (hparser : parser.openTag = toolCallOpen) (hne : ∀ b ∈ batches, b ≠ []) :
    pyStrip (sse tok capable parser batches).content =
        pyStrip (finalText (visibleText (rawOf tok capable batches))) ↔
      (Pending capable (rawOf tok capable batches) →
          rawOf tok capable batches = []) ∧
        UsageHeld tok capable batches ∧ NothingAfterUsage tok capable batches ∧
        TailHeld tok capable batches := by
  by_cases hpend : Pending capable (rawOf tok capable batches)
  · have hshown := shown_of_pending hpend
    have hout : (sse tok capable parser batches).content = [] := by
      have hpre := content_isPrefix_shown tok capable parser hne (prefix_refl batches)
      rw [hshown] at hpre
      exact prefix_nil.mp hpre
    have hrest : UsageHeld tok capable batches ∧ NothingAfterUsage tok capable batches ∧
        TailHeld tok capable batches := by
      refine (strip_shown_iff hparser hne).mp ?_
      rw [hout, hshown]
      decide
    rw [hout, finalText_of_pending hpend]
    constructor
    · intro h
      refine ⟨fun _ => ?_, hrest⟩
      by_contra hraw
      have hspace := space_of_isPrefix nil_prefix h
      obtain ⟨c, hc⟩ := exists_mem_of_ne_nil _ hraw
      have := hspace c hc
      rw [not_space_of_mem_thinkOpen (hpend.2.2.subset hc)] at this
      cases this
    · rintro ⟨hraw, -⟩
      rw [hraw hpend]
  · rw [← shown_of_not_pending hpend, strip_shown_iff hparser hne]
    exact ⟨fun h => ⟨fun hp => absurd hp hpend, h⟩, fun h => h.2⟩

end Content

section Completeness

variable {τ Call : Type} (tok : Tokenizer τ) (capable : Bool) (parser : ToolCallParser Call)
  (batches : List (List τ))

/-- The loop has delivered what the response without streaming returns: `content_text` cut at the
first tool call and `reasoning_content`, up to surrounding white space. -/
structure Complete : Prop where
  content : pyStrip (sse tok capable parser batches).content =
    pyStrip (cutAt toolCallOpen (sse tok capable parser batches).proc.contentText)
  reasoning : (sse tok capable parser batches).proc.reasoningContent =
    if pyStrip (sse tok capable parser batches).reasoning = [] then none
    else some (pyStrip (sse tok capable parser batches).reasoning)

/-- Nothing is held back at the end, and nothing was given away before. -/
structure NothingWithheld : Prop where
  pending : Pending capable (rawOf tok capable batches) →
    rawOf tok capable batches = []
  usage : UsageHeld tok capable batches
  afterUsage : NothingAfterUsage tok capable batches
  tail : TailHeld tok capable batches
  tag : TagHeld tok capable batches
  close : CloseHeld tok capable batches

variable {tok capable parser batches}

theorem reasoningContent_sse (hne : ∀ b ∈ batches, b ≠ []) :
    (sse tok capable parser batches).proc.reasoningContent =
      if pyStrip (reasoningBody (rawOf tok capable batches)) = [] then none
      else some (pyStrip (reasoningBody (rawOf tok capable batches))) := by
  have h := sse_delivered tok capable parser hne
  have hraw : (sse tok capable parser batches).proc.raw = rawOf tok capable batches := by
    simp [Processor.raw, rawOf, h.allIds, h.capable]
  have hnil : pyStrip [] = [] := rfl
  simp only [Processor.reasoningContent, h.internalTokenRanges, Processor.getRaw_fst, hraw, reasoningSpan,
    not_true_eq_false, false_and, if_false]
  cases hs : findReasoningSpan (rawOf tok capable batches) with
  | none => simp [reasoningBody, hs, hnil]
  | some span => simp [reasoningBody, hs]

theorem optional_eq_iff {a b : Text} :
    ((if a = [] then none else some a) = if b = [] then none else some b) ↔ b = a := by
  split_ifs with ha hb hb <;> simp_all [eq_comm]

/-- Streaming is complete exactly when nothing is withheld. -/
theorem complete_iff (hparser : parser.openTag = toolCallOpen) (hne : ∀ b ∈ batches, b ≠ []) :
    Complete tok capable parser batches ↔ NothingWithheld tok capable batches := by
  constructor
  · rintro ⟨hc, hr⟩
    rw [contentText_sse hne, strip_content_iff hparser hne] at hc
    rw [reasoningContent_sse hne, optional_eq_iff, strip_reasoning_iff hne] at hr
    obtain ⟨hpend, husage, hafter, htail⟩ := hc
    exact ⟨hpend, husage, hafter, htail, hr.1, hr.2⟩
  · intro h
    constructor
    · rw [contentText_sse hne, strip_content_iff hparser hne]
      exact ⟨h.pending, h.usage, h.afterUsage, h.tail⟩
    · rw [reasoningContent_sse hne, optional_eq_iff, strip_reasoning_iff hne]
      exact ⟨h.tag, h.close⟩

/-- A withheld `<` is delivered with the next item. -/
theorem complete_iff_plain : Complete Tokenizer.chars true .verbatim ["ok</think>a <".toList, "b".toList] := by
  have hnone : find usageOpen (shown Tokenizer.chars true ["ok</think>a <".toList, "b".toList]) = none := by
    decide
  refine (complete_iff rfl (by decide)).mpr ⟨fun h => absurd h (by decide), fun u hu => ?_, fun u hu => ?_,
    fun _ _ => by decide, fun _ hp => absurd hp (by decide), fun start stop hspan => ?_⟩
  · rw [hnone] at hu
    cases hu
  · rw [hnone] at hu
    cases hu
  · have hclosed : findReasoningSpan (rawOf Tokenizer.chars true ["ok</think>a <".toList, "b".toList]) =
        some (8, 10, true) := by decide
    rw [hclosed] at hspan
    cases hspan

/-- The text behind a closed `<usage>` block is never delivered. -/
theorem afterUsage_undelivered :
    ¬ Complete Tokenizer.chars false .verbatim ["Hi<usage>5</usage> there".toList] :=
  fun h => absurd h.content (by decide)

end Completeness

end StreamLoop
