import BlackweLLM.PythonText

/-!
# Reasoning spans and metadata artifacts

`server/formats/thinking.py`. A reasoning span is only recognised at the very
start of the text; `<usage>` blocks are removed wherever they occur.
-/

namespace Thinking

open List TextScan PythonText

variable {text text' : Text}

def thinkOpen : Text := "<think>".toList
def thinkClose : Text := "</think>".toList
def usageOpen : Text := "<usage>".toList
def usageClose : Text := "</usage>".toList

theorem thinkClose_ne_nil : thinkClose ≠ [] := by decide
theorem usageOpen_ne_nil : usageOpen ≠ [] := by decide

theorem thinkOpen_headed : HeadedBy '<' thinkOpen := ⟨"think>".toList, by decide, by decide⟩
theorem thinkClose_headed : HeadedBy '<' thinkClose := ⟨"/think>".toList, by decide, by decide⟩
theorem usageOpen_headed : HeadedBy '<' usageOpen := ⟨"usage>".toList, by decide, by decide⟩

theorem not_space_of_mem_thinkOpen {c : Char} (h : c ∈ thinkOpen) : isSpace c = false := by
  have hall : thinkOpen.all (fun c => !isSpace c) = true := by decide
  simpa using all_eq_true.mp hall c h

theorem not_space_of_mem_thinkClose {c : Char} (h : c ∈ thinkClose) : isSpace c = false := by
  have hall : thinkClose.all (fun c => !isSpace c) = true := by decide
  simpa using all_eq_true.mp hall c h

/-- `(start, end, closed)` of the reasoning body, when the text starts with `<think>`. -/
def findReasoningSpan (text : Text) : Option (Nat × Nat × Bool) :=
  if thinkOpen <+: text then
    let body := text.drop thinkOpen.length
    let newline := ['\n'] <+: body
    let offset := thinkOpen.length + if newline then 1 else 0
    let body := if newline then body.drop 1 else body
    match find thinkClose body with
    | none => some (offset, text.length, false)
    | some closeIdx => some (offset, offset + closeIdx, true)
  else none

/-- Closed blocks with the white space after them first, then an unclosed block to the end. -/
def stripUsageArtifacts (text : Text) : Text :=
  cutAt usageOpen (removeBlocks usageOpen usageClose isSpace text)

def bodyOffset (text : Text) : Nat :=
  thinkOpen.length + if ['\n'] <+: text.drop thinkOpen.length then 1 else 0

theorem findReasoningSpan_of_not_open (h : ¬ thinkOpen <+: text) :
    findReasoningSpan text = none := by
  simp [findReasoningSpan, h]

theorem findReasoningSpan_of_open (h : thinkOpen <+: text) :
    findReasoningSpan text = match find thinkClose (text.drop (bodyOffset text)) with
      | none => some (bodyOffset text, text.length, false)
      | some i => some (bodyOffset text, bodyOffset text + i, true) := by
  unfold findReasoningSpan bodyOffset
  rw [if_pos h]
  by_cases hn : ['\n'] <+: text.drop thinkOpen.length
  · simp only [hn, if_true, drop_drop]
  · simp only [hn, if_false, Nat.add_zero]

def skipNewline (text : Text) : Text := if ['\n'] <+: text then text.drop 1 else text

theorem newline_prefix_congr (h : text <+: text') (hne : text ≠ []) :
    ['\n'] <+: text ↔ ['\n'] <+: text' := by
  obtain ⟨more, rfl⟩ := h
  cases text with
  | nil => exact absurd rfl hne
  | cons c cs => simp [cons_prefix_cons]

theorem length_skipNewline_le (text : Text) : (skipNewline text).length ≤ text.length := by
  unfold skipNewline
  split_ifs <;> simp

section

variable (h : text <+: text')
include h

theorem skipNewline_mono : skipNewline text <+: skipNewline text' := by
  by_cases hne : text = []
  · simp [hne, skipNewline]
  · unfold skipNewline
    simp only [newline_prefix_congr h hne]
    split_ifs
    · exact h.drop 1
    · exact h

theorem bodyOffset_congr (hlen : thinkOpen.length < text.length) : bodyOffset text = bodyOffset text' := by
  have hne : text.drop thinkOpen.length ≠ [] := by
    intro hnil
    have := drop_eq_nil_iff.mp hnil
    omega
  unfold bodyOffset
  simp only [newline_prefix_congr (h.drop _) hne]

/-- Once a span has closed, more text changes neither its start nor its end. -/
theorem findReasoningSpan_closed_mono {start stop : Nat}
    (hspan : findReasoningSpan text = some (start, stop, true)) :
    findReasoningSpan text' = some (start, stop, true) := by
  by_cases hp : thinkOpen <+: text
  · rw [findReasoningSpan_of_open hp] at hspan
    cases hc : find thinkClose (text.drop (bodyOffset text)) with
    | none => simp [hc] at hspan
    | some i =>
      have hend := find_end_le thinkClose_ne_nil hc
      have hlen : thinkOpen.length < text.length := by
        have : 0 < thinkClose.length := by decide
        have : thinkOpen.length ≤ bodyOffset text := Nat.le_add_right _ _
        rw [length_drop] at hend
        omega
      have hoff := bodyOffset_congr h hlen
      rw [findReasoningSpan_of_open (hp.trans h), ← hoff,
        find_mono thinkClose_ne_nil hc (h.drop _)]
      simpa [hc] using hspan
  · simp [findReasoningSpan_of_not_open hp] at hspan

/-- A closed span is already found in any prefix that holds its closing tag. -/
theorem findReasoningSpan_closed_of_extends {start stop : Nat}
    (hspan : findReasoningSpan text' = some (start, stop, true))
    (hlen : stop + thinkClose.length ≤ text.length) :
    findReasoningSpan text = some (start, stop, true) := by
  by_cases hp : thinkOpen <+: text'
  · rw [findReasoningSpan_of_open hp] at hspan
    cases hc : find thinkClose (text'.drop (bodyOffset text')) with
    | none => simp [hc] at hspan
    | some i =>
      simp only [hc, Option.some.injEq, Prod.mk.injEq, and_true] at hspan
      obtain ⟨rfl, rfl⟩ := hspan
      have hopen : thinkOpen.length ≤ bodyOffset text' := Nat.le_add_right _ _
      have hclose : 0 < thinkClose.length := by decide
      have hoff := bodyOffset_congr h (by omega)
      have hp₀ : thinkOpen <+: text := prefix_of_prefix_length_le hp h (by omega)
      obtain ⟨more, rfl⟩ := h
      rw [drop_append_of_le_length (by omega)] at hc
      have hc₀ := find_of_append thinkClose_ne_nil hc (by rw [length_drop]; omega)
      rw [findReasoningSpan_of_open hp₀, hoff, hc₀]
  · simp [findReasoningSpan_of_not_open hp] at hspan

end

/-- A closed span lies inside the text, with its closing tag. -/
theorem findReasoningSpan_closed_le {start stop : Nat}
    (h : findReasoningSpan text = some (start, stop, true)) :
    thinkOpen.length ≤ start ∧ start ≤ stop ∧ stop + thinkClose.length ≤ text.length := by
  by_cases hp : thinkOpen <+: text
  · rw [findReasoningSpan_of_open hp] at h
    cases hc : find thinkClose (text.drop (bodyOffset text)) with
    | none => simp [hc] at h
    | some i =>
      have hend := find_end_le thinkClose_ne_nil hc
      have hpos : 0 < thinkClose.length := by decide
      have hoff : thinkOpen.length ≤ bodyOffset text := Nat.le_add_right _ _
      simp only [hc, Option.some.injEq, Prod.mk.injEq, and_true] at h
      rw [length_drop] at hend
      omega
  · simp [findReasoningSpan_of_not_open hp] at h

end Thinking
