import BlackweLLM.JsonText
import BlackweLLM.PythonText

/-!
# Argument values of a tool call

`value_parsing.py`: an argument value is read as JSON, then as JSON after a
repair, and else stands for itself. A template writes a string as it is and
any other value as JSON, so reading gives every other value back, and a string
exactly when neither attempt reads it.
-/

namespace ToolValues

open List

open PythonText (pyStrip)
open TextScan (strip)
open JsonText (Text Json loads dumps loads_dumps loads_str)

section Source

/-- The mended end of a set literal `{( ... )}`. -/
def closeSet (inner : Text) : Text :=
  if ['}', ')', ']'] <:+ inner then inner.take (inner.length - 3) ++ ['}', ']']
  else if [')', '}'] <:+ inner then inner.take (inner.length - 2) ++ ['}', ']']
  else if [')'] <:+ inner then inner.take (inner.length - 1) ++ ['}', ']']
  else inner

/-- Whether only white space stands before a closing bracket. -/
def closesNext (cs : Text) : Bool :=
  match cs.dropWhile PythonText.isSpace with
  | c :: _ => c == '}' || c == ']'
  | [] => false

/-- `re.sub(r",\s*([}\]])", r"\1", text)`; `dropping` is set between a comma that goes and its bracket. -/
def dropCommas (dropping : Bool) : Text → Text
  | [] => []
  | c :: cs =>
    if dropping && PythonText.isSpace c then dropCommas true cs
    else if c = ',' ∧ closesNext cs = true then dropCommas true cs
    else c :: dropCommas false cs

def repairJson (value : Text) : Text :=
  let repaired := pyStrip value
  dropCommas false (if ['{', '('] <+: repaired then '[' :: '{' :: closeSet (repaired.drop 2) else repaired)

def parseValue (raw : Text) : Json :=
  match loads raw with
  | some v => v
  | none =>
    match loads (repairJson raw) with
    | some v => v
    | none => .str raw

end Source

def renderValue : Json → Text
  | .str s => s
  | v => dumps v

def readBack : Json → Json
  | .str s => parseValue (pyStrip s)
  | v => v

/-- A string that no reading as JSON or as mended JSON takes for something else. -/
structure Plain (s : Text) : Prop where
  stripped : pyStrip s = s
  not_json : loads s = none
  not_mended : loads (repairJson s) = none

section Strip

theorem strip_of_ends {α : Type} {space : α → Bool} {text : List α} (hfirst : ∀ c ∈ text.head?, space c = false)
    (hlast : ∀ c ∈ text.getLast?, space c = false) : strip space text = text := by
  have hleft : text.dropWhile space = text := by
    cases text with
    | nil => rfl
    | cons c cs => rw [dropWhile_cons_of_neg (by simp [hfirst c rfl])]
  rw [strip, hleft, rdropWhile_eq_self_iff]
  intro hne
  have := hlast _ (getLast?_eq_some_getLast hne)
  simpa using this

/-- White space on both sides goes. -/
theorem strip_pad {α : Type} {space : α → Bool} {pad : List α} (hpad : ∀ c ∈ pad, space c) (text : List α) :
    strip space (pad ++ text ++ pad) = strip space text := by
  rw [TextScan.strip_append_of_space space hpad, strip, strip, dropWhile_append_of_pos (by simpa using hpad)]

theorem length_strip_le {α : Type} (space : α → Bool) (text : List α) : (strip space text).length ≤ text.length := by
  obtain ⟨pre, post, hsplit, -, -⟩ := TextScan.strip_decompose space text
  have := congrArg List.length hsplit
  simp only [length_append] at this
  omega

end Strip

section Repair

theorem length_dropCommas (cs : Text) (dropping : Bool) : (dropCommas dropping cs).length ≤ cs.length := by
  induction cs generalizing dropping with
  | nil => rfl
  | cons c cs ih =>
    rw [dropCommas]
    split
    · exact Nat.le_succ_of_le (ih true)
    split
    · exact Nat.le_succ_of_le (ih true)
    · exact Nat.succ_le_succ (ih false)

/-- The text after a repair is an array, or it is no longer than before. -/
theorem repairJson_shape (s : Text) :
    (repairJson s).head? = some '[' ∨ (repairJson s).length ≤ s.length := by
  unfold repairJson
  dsimp only
  split
  · exact .inl (by simp [dropCommas])
  · exact .inr (le_trans (length_dropCommas _ _) (length_strip_le _ s))

theorem repairJson_ne_str {s text : Text} (hlen : text.length ≤ s.length) :
    loads (repairJson text) ≠ some (.str s) := by
  intro h
  obtain ⟨hquote, hlt⟩ := loads_str h
  obtain hhead | hle := repairJson_shape text
  · cases hrepair : repairJson text with
    | nil =>
      rw [hrepair] at hhead
      cases hhead
    | cons c cs =>
      rw [hrepair] at hhead hquote
      cases hhead
      rw [JsonText.skipSpace_cons (by decide)] at hquote
      cases hquote
  · omega

/-- A string comes back as itself exactly when it is plain. -/
theorem readBack_str_iff (s : Text) : readBack (.str s) = .str s ↔ Plain s := by
  have hlen : (pyStrip s).length ≤ s.length := length_strip_le _ s
  constructor
  · intro h
    rw [readBack, parseValue] at h
    split at h
    · rename_i v hread
      rw [h] at hread
      have := (loads_str hread).2
      omega
    · rename_i hread
      split at h
      · rename_i v hmended
        rw [h] at hmended
        exact absurd hmended (repairJson_ne_str hlen)
      · rename_i hmended
        have hstrip : pyStrip s = s := Json.str.inj h
        rw [hstrip] at hread hmended
        exact ⟨hstrip, hread, hmended⟩
  · intro h
    rw [readBack, parseValue, h.stripped, h.not_json]
    dsimp only
    rw [h.not_mended]

end Repair

section Written

theorem isSpace_of_isNumberChar {c : Char} (h : JsonText.isNumberChar c = true) : PythonText.isSpace c = false := by
  by_cases hdigit : c.isDigit = true
  · have hrange : 48 ≤ c.toNat ∧ c.toNat ≤ 57 := by
      simp only [Char.isDigit, Bool.and_eq_true, decide_eq_true_eq, ge_iff_le, UInt32.le_iff_toNat_le] at hdigit
      exact hdigit
    simp only [PythonText.isSpace, Bool.or_eq_false_iff, Bool.and_eq_false_iff, decide_eq_false_iff_not,
      beq_eq_false_iff_ne]
    omega
  · simp only [JsonText.isNumberChar, hdigit, Bool.false_or, Bool.or_eq_true, beq_iff_eq] at h
    obtain ((((rfl | rfl) | rfl) | rfl) | rfl) := h <;> decide

/-- A value that is not a string is written without outer white space. -/
theorem strip_dumps {v : Json} (hv : ∀ s, v ≠ .str s) : pyStrip (dumps v) = dumps v := by
  cases v with
  | null => decide
  | bool b => cases b <;> decide
  | num n =>
    have hchar (c : Char) (hc : c ∈ n.literal) : PythonText.isSpace c = false :=
      isSpace_of_isNumberChar (JsonText.isNumberChar_of_isNumber n.valid c hc)
    exact strip_of_ends (fun c hc => hchar c (mem_of_mem_head? hc)) fun c hc => hchar c (mem_of_mem_getLast? hc)
  | const c => cases c <;> decide
  | str s => exact absurd rfl (hv s)
  | arr elements =>
    refine strip_of_ends ?_ ?_
    · rintro c ⟨⟩
      decide
    · intro c hc
      rw [dumps, ← cons_append, getLast?_append] at hc
      cases hc
      decide
  | obj members =>
    refine strip_of_ends ?_ ?_
    · rintro c ⟨⟩
      decide
    · intro c hc
      rw [dumps, ← cons_append, getLast?_append] at hc
      cases hc
      decide

theorem not_str {v : Json} (hv : ∀ s, v ≠ .str s) : renderValue v = dumps v ∧ readBack v = v := by
  cases v with
  | str s => exact absurd rfl (hv s)
  | _ => exact ⟨rfl, rfl⟩

/-- What a written value is read as, whatever white space the template puts around it. -/
theorem parseValue_renderValue {v : Json} (hv : v.Distinct) {pad : Text} (hpad : ∀ c ∈ pad, PythonText.isSpace c) :
    parseValue (pyStrip (pad ++ renderValue v ++ pad)) = readBack v := by
  rw [pyStrip, strip_pad hpad, ← pyStrip]
  by_cases hstr : ∃ s, v = .str s
  · obtain ⟨s, rfl⟩ := hstr
    rfl
  · have hother (s : Text) : v ≠ .str s := fun h => hstr ⟨s, h⟩
    rw [(not_str hother).1, (not_str hother).2, strip_dumps hother, parseValue, loads_dumps hv]

end Written

end ToolValues
