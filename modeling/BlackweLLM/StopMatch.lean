import BlackweLLM.StopBuffer

/-!
# Stop sequences neither leak nor take more than themselves

Both properties hold of a matched request exactly when the right tokens were
held back before the match. The tokenizer, the stop list, the token stream and
its rounds are arbitrary.
-/

namespace CommitLoop

open List TextScan PythonText Thinking StopSequences StreamProcessor ToolCalls

variable {τ Call Lp : Type} (tok : Tokenizer τ)

/-- Offset, in the decoded text of `n` tokens, of the character at `s` of its visible part. -/
def matchOffset (toks : List τ) (n s : Nat) : Nat :=
  (rawAt tok toks n).length - (visibleText (rawAt tok toks n)).length + s

/-- The tokens decode to visible content with a character at or after `offset`. -/
def ShowsFrom (ids : List τ) (offset : Nat) : Prop :=
  ∃ p, (rawText tok false ids).length - (visibleText (rawText tok false ids)).length ≤ p ∧
    p < (rawText tok false ids).length ∧ offset ≤ p

/-- Token `m` is the one in which the character at `offset` begins to be decoded. -/
def MatchToken (toks : List τ) (offset n m : Nat) : Prop :=
  m < n ∧ (rawAt tok toks m).length ≤ offset ∧ offset < (rawAt tok toks (m + 1)).length

variable {tok} {toks : List τ}

theorem visibleText_ne_nil_of_lt {raw raw' : Text} (h : raw <+: raw') (hne : visibleText raw' ≠ [])
    (hlt : raw'.length - (visibleText raw').length < raw.length) : visibleText raw ≠ [] := by
  by_cases hp : thinkOpen <+: raw'
  · obtain ⟨start, stop, closed, hspan⟩ := findReasoningSpan_isSome hp
    cases closed with
    | false => exact absurd (by simp [visibleText, hspan]) hne
    | true =>
      have hvis' : visibleText raw' = skipNewline (raw'.drop (stop + thinkClose.length)) := by
        simp [visibleText, hspan]
      have hend := findReasoningSpan_closed_le hspan
      have hskip : (visibleText raw').length ≤ raw'.length - (stop + thinkClose.length) := by
        rw [hvis', ← length_drop]
        exact length_skipNewline_le _
      have hspan₀ := findReasoningSpan_closed_of_extends h hspan (by omega)
      have hvis : visibleText raw = skipNewline (raw.drop (stop + thinkClose.length)) := by
        simp [visibleText, hspan₀]
      have htail : raw.drop (stop + thinkClose.length) ≠ [] := by
        intro hnil
        have := drop_eq_nil_iff.mp hnil
        omega
      rw [hvis]
      intro hnil
      by_cases hn : ['\n'] <+: raw.drop (stop + thinkClose.length)
      · have hn' := (newline_prefix_congr (h.drop _) htail).mp hn
        have hlen' : (visibleText raw').length = raw'.length - (stop + thinkClose.length + 1) := by
          rw [hvis']
          simp only [skipNewline, hn', if_true, drop_drop, length_drop]
        have hpos' := length_pos_iff.mpr hne
        simp only [skipNewline, hn, if_true, drop_drop, drop_eq_nil_iff] at hnil
        omega
      · simp only [skipNewline, hn, if_false] at hnil
        exact htail hnil
  · have hp₀ : ¬ thinkOpen <+: raw := fun hp₀ => hp (hp₀.trans h)
    rw [visibleText_of_not_open hp₀]
    intro hnil
    rw [hnil] at hlt
    simp at hlt

variable {openTag : Text} {stops : List Text} {n s : Nat} {seq : Text}

theorem FirstMatch.lt_visible (h : FirstMatch tok openTag stops toks n s seq) :
    s < (visibleText (rawAt tok toks n)).length := by
  obtain ⟨-, hne, hfind⟩ := findEarliest_spec h.2.1
  have hend := find_end_le hne hfind
  have hpos := length_pos_iff.mpr hne
  have hview : viewAt tok toks n = visibleText (rawAt tok toks n) := by
    by_cases hp : Pending false (rawAt tok toks n)
    · have hnil : releasedAt tok openTag toks n = [] := by simp [releasedAt, viewAt, view, hp]
      rw [hnil] at hend
      simp only [length_nil] at hend
      omega
    · simp [viewAt, view, hp]
  unfold releasedAt at hend
  rw [hview, length_take] at hend
  omega

theorem FirstMatch.pos (h : FirstMatch tok openTag stops toks n s seq) : 0 < n := by
  rcases Nat.eq_zero_or_pos n with rfl | hpos
  · have := h.lt_visible
    rw [rawAt_zero, visibleText_of_not_open (by decide)] at this
    simp at this
  · exact hpos

theorem length_visibleText_le (raw : Text) : (visibleText raw).length ≤ raw.length := by
  cases hs : findReasoningSpan raw with
  | none => simp [visibleText, hs]
  | some span =>
    obtain ⟨start, stop, closed⟩ := span
    cases closed with
    | false => simp [visibleText, hs]
    | true =>
      have := length_skipNewline_le (raw.drop (stop + thinkClose.length))
      simp only [visibleText, hs, if_true]
      rw [length_drop] at this
      omega

section

variable (h : FirstMatch tok openTag stops toks n s seq)
include h

theorem FirstMatch.offset_lt : matchOffset tok toks n s < (rawAt tok toks n).length := by
  have hlt := h.lt_visible
  have hle := length_visibleText_le (rawAt tok toks n)
  unfold matchOffset
  omega

theorem FirstMatch.showsFrom_iff {k : Nat} (hk : k ≤ n) :
    ShowsFrom tok (toks.take k) (matchOffset tok toks n s) ↔
      matchOffset tok toks n s < (rawAt tok toks k).length := by
  constructor
  · rintro ⟨p, -, hp, hoff⟩
    exact lt_of_le_of_lt hoff hp
  · intro hlt
    have hne : visibleText (rawAt tok toks n) ≠ [] := by
      intro hnil
      have := h.lt_visible
      rw [hnil] at this
      simp at this
    have hshown := visibleText_ne_nil_of_lt (rawAt_mono tok toks hk) hne (by
      unfold matchOffset at hlt
      omega)
    have hpos := length_pos_iff.mpr hshown
    have hle := length_visibleText_le (rawAt tok toks k)
    refine ⟨(rawAt tok toks k).length - 1, ?_, ?_, ?_⟩
    · change (rawAt tok toks k).length - (visibleText (rawAt tok toks k)).length ≤ _
      omega
    · change _ < (rawAt tok toks k).length
      omega
    · omega

theorem FirstMatch.exists_matchToken : ∃ m, MatchToken tok toks (matchOffset tok toks n s) n m := by
  have hoff := h.offset_lt
  have hstart : ∃ k, matchOffset tok toks n s < (rawAt tok toks k).length := ⟨n, hoff⟩
  have hfirst := Nat.find_spec hstart
  have hmin : ∀ k < Nat.find hstart, ¬ _ := fun k hk => Nat.find_min hstart hk
  have hpos : 0 < Nat.find hstart := by
    rcases Nat.eq_zero_or_pos (Nat.find hstart) with h0 | hpos
    · rw [h0, rawAt_zero] at hfirst
      simp at hfirst
    · exact hpos
  have hle : Nat.find hstart ≤ n := Nat.find_min' hstart hoff
  refine ⟨Nat.find hstart - 1, by omega, not_lt.mp (hmin _ (by omega)), ?_⟩
  rwa [Nat.sub_add_cancel hpos]

theorem FirstMatch.hidden_iff :
    ¬ ShowsFrom tok (toks.take (lastFlush tok openTag stops toks (n - 1))) (matchOffset tok toks n s) ↔
      ∀ k < n, matchOffset tok toks n s < (rawAt tok toks k).length →
        HeldBack tok openTag stops toks k := by
  have hpos := h.pos
  have hle := lastFlush_le tok openTag stops toks (n - 1)
  rw [h.showsFrom_iff (by omega)]
  constructor
  · intro hhidden k hk hlt
    by_contra hflushed
    have hlast : k ≤ lastFlush tok openTag stops toks (n - 1) :=
      Nat.le_findGreatest (by omega) hflushed
    have := (rawAt_mono tok toks hlast).length_le
    omega
  · intro hheld hlt
    exact not_heldBack_lastFlush tok openTag stops toks (n - 1) (hheld _ (by omega) hlt)

end

theorem lastFlush_eq_iff {m : Nat} (hm : m < n) :
    lastFlush tok openTag stops toks (n - 1) = m ↔
      ¬ HeldBack tok openTag stops toks m ∧ ∀ k, m < k → k < n → HeldBack tok openTag stops toks k := by
  constructor
  · rintro rfl
    exact ⟨not_heldBack_lastFlush _ _ _ _ _,
      fun k hlt hk => heldBack_of_lastFlush_lt _ _ _ _ hlt (by omega)⟩
  · rintro ⟨hflushed, hheld⟩
    refine le_antisymm ?_ (Nat.le_findGreatest (by omega) hflushed)
    by_contra hlt
    have hle := lastFlush_le tok openTag stops toks (n - 1)
    exact not_heldBack_lastFlush tok openTag stops toks (n - 1) (hheld _ (by omega) (by omega))

variable [DecidableEq τ]

/-- A matched stop sequence stays hidden, in the committed tokens and in the stream, exactly when at
every earlier token whose text reaches the match the released content was held back. -/
theorem stop_hidden_iff (tok : Tokenizer τ) (engine : Engine τ Call) (req : GenerationRequest)
    (anchor : τ) (rounds : List (Round τ Lp)) (r : Result τ Lp) (seq : Text)
    (h : serve tok engine req anchor rounds = .finished r) (hm : r.matchedStopSequence = some seq) :
    ∃ n s, FirstMatch tok engine.toolParser.openTag req.stopSequences
        (anchor :: rounds.flatMap Round.tokens) n s seq ∧
      ((¬ ShowsFrom tok r.committedTokenIds
            (matchOffset tok (anchor :: rounds.flatMap Round.tokens) n s) ∧
          ¬ ShowsFrom tok r.stream.flatten
            (matchOffset tok (anchor :: rounds.flatMap Round.tokens) n s)) ↔
        ∀ k < n, matchOffset tok (anchor :: rounds.flatMap Round.tokens) n s <
            (rawAt tok (anchor :: rounds.flatMap Round.tokens) k).length →
          HeldBack tok engine.toolParser.openTag req.stopSequences
            (anchor :: rounds.flatMap Round.tokens) k) := by
  obtain ⟨n, ⟨s, hfirst⟩, hcommitted, hstream⟩ := serve_stoppedAt h hm
  refine ⟨n, s, hfirst, ?_⟩
  rw [hcommitted, hstream, ← hfirst.hidden_iff]
  refine ⟨fun hhidden => hhidden.1, fun hhidden => ⟨hhidden, ?_⟩⟩
  split_ifs
  · exact hhidden
  · rintro ⟨p, -, hp, -⟩
    simp [rawText] at hp

theorem stop_hidden_iff_newlines :
    ∃ n s, FirstMatch .chars toolCallOpen ["\n\n".toList] ['a', '\n', '\n'] n s "\n\n".toList ∧
      ((¬ ShowsFrom .chars ['a'] (matchOffset .chars ['a', '\n', '\n'] n s) ∧
          ¬ ShowsFrom .chars ['a'] (matchOffset .chars ['a', '\n', '\n'] n s)) ↔
        ∀ k < n, matchOffset .chars ['a', '\n', '\n'] n s < (rawAt .chars ['a', '\n', '\n'] k).length →
          HeldBack .chars toolCallOpen ["\n\n".toList] ['a', '\n', '\n'] k) :=
  stop_hidden_iff .chars charEngine (stopRequest ["\n\n".toList]) 'a'
    [.plain '\n' (none : Option Unit), .plain '\n' none]
    ⟨['a'], [['a']], .stop, some "\n\n".toList, some '\n', .stopSequence, none⟩ _ rfl rfl

/-- The stop sequence `<b>` leaks its first character, which the tag detection withheld. -/
theorem stop_leaks :
    (serve .chars charEngine (stopRequest ["<b>".toList]) 'a'
      [.plain '<' (none : Option Unit), .plain 'b' none, .plain '>' none]).outcome =
        .finished ['a', '<'] ['a', '<'] .stop (some "<b>".toList) (some '>') .stopSequence ∧
      FirstMatch .chars toolCallOpen ["<b>".toList] ['a', '<', 'b', '>'] 4 1 "<b>".toList ∧
      ShowsFrom .chars ['a', '<'] (matchOffset .chars ['a', '<', 'b', '>'] 4 1) :=
  ⟨by decide, ⟨by decide, by decide, by decide⟩, 1, by decide, by decide, by decide⟩

/-- A matched stop sequence takes exactly the tokens from the one in which it begins, in the committed
tokens and in the stream, exactly when that token was the first to be held back for good. -/
theorem stop_exact_iff (tok : Tokenizer τ) (engine : Engine τ Call) (req : GenerationRequest)
    (anchor : τ) (rounds : List (Round τ Lp)) (r : Result τ Lp) (seq : Text)
    (h : serve tok engine req anchor rounds = .finished r) (hm : r.matchedStopSequence = some seq) :
    ∃ n s m, FirstMatch tok engine.toolParser.openTag req.stopSequences
        (anchor :: rounds.flatMap Round.tokens) n s seq ∧
      MatchToken tok (anchor :: rounds.flatMap Round.tokens)
        (matchOffset tok (anchor :: rounds.flatMap Round.tokens) n s) n m ∧
      ((r.committedTokenIds = (anchor :: rounds.flatMap Round.tokens).take m ∧
          (req.streaming → r.stream.flatten = (anchor :: rounds.flatMap Round.tokens).take m)) ↔
        ¬ HeldBack tok engine.toolParser.openTag req.stopSequences
            (anchor :: rounds.flatMap Round.tokens) m ∧
          ∀ k, m < k → k < n → HeldBack tok engine.toolParser.openTag req.stopSequences
            (anchor :: rounds.flatMap Round.tokens) k) := by
  obtain ⟨n, ⟨s, hfirst⟩, hcommitted, hstream⟩ := serve_stoppedAt h hm
  obtain ⟨m, hmatch⟩ := hfirst.exists_matchToken
  refine ⟨n, s, m, hfirst, hmatch, ?_⟩
  have hlen := hfirst.1
  have hle := lastFlush_le tok engine.toolParser.openTag req.stopSequences
    (anchor :: rounds.flatMap Round.tokens) (n - 1)
  rw [← lastFlush_eq_iff hmatch.1, hcommitted, hstream]
  constructor
  · rintro ⟨htake, -⟩
    have := congrArg List.length htake
    rw [length_take, length_take] at this
    have := hmatch.1
    omega
  · intro hlast
    rw [hlast]
    exact ⟨rfl, fun hstr => if_pos hstr⟩

theorem stop_exact_iff_newlines :
    ∃ n s m, FirstMatch .chars toolCallOpen ["\n\n".toList] ['a', '\n', '\n'] n s "\n\n".toList ∧
      MatchToken .chars ['a', '\n', '\n'] (matchOffset .chars ['a', '\n', '\n'] n s) n m ∧
      ((['a'] = ['a', '\n', '\n'].take m ∧ (true → ['a'] = ['a', '\n', '\n'].take m)) ↔
        ¬ HeldBack .chars toolCallOpen ["\n\n".toList] ['a', '\n', '\n'] m ∧
          ∀ k, m < k → k < n → HeldBack .chars toolCallOpen ["\n\n".toList] ['a', '\n', '\n'] k) :=
  stop_exact_iff .chars charEngine (stopRequest ["\n\n".toList]) 'a'
    [.plain '\n' (none : Option Unit), .plain '\n' none]
    ⟨['a'], [['a']], .stop, some "\n\n".toList, some '\n', .stopSequence, none⟩ _ rfl rfl

/-- A newline that began no match is dropped together with the match that follows it. -/
theorem stop_takes_more :
    (serve (.ofPieces fun t : Text => t) ⟨[], .verbatim⟩ (stopRequest ["\n\n".toList]) "\n".toList
      [.plain "x\n".toList (none : Option Unit), .plain "\n".toList none]).outcome =
        .finished [] [] .stop (some "\n\n".toList) (some "\n".toList) .stopSequence ∧
      FirstMatch (.ofPieces fun t : Text => t) toolCallOpen ["\n\n".toList]
        ["\n".toList, "x\n".toList, "\n".toList] 3 2 "\n\n".toList ∧
      MatchToken (.ofPieces fun t : Text => t) ["\n".toList, "x\n".toList, "\n".toList]
        (matchOffset (.ofPieces fun t : Text => t) ["\n".toList, "x\n".toList, "\n".toList] 3 2) 3 1 ∧
      [] ≠ ["\n".toList, "x\n".toList, "\n".toList].take 1 :=
  ⟨by decide, ⟨by decide, by decide, by decide⟩, ⟨by decide, by decide, by decide⟩, by decide⟩

end CommitLoop
