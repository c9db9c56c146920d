import Mathlib.Data.List.Induction
import Mathlib.Data.List.Nodup

/-!
# JSON text

JSON values, the text that a serialiser with the separators `", "` and `": "`
gives them, and a reader. The reader takes back what the serialiser wrote,
whatever follows it.
-/

namespace JsonText

open List

abbrev Text := List Char

def join (sep : Text) (parts : List Text) : Text := List.intercalate sep parts

@[simp] theorem join_nil (sep : Text) : join sep [] = [] := rfl
@[simp] theorem join_singleton (sep part : Text) : join sep [part] = part := by simp [join, List.intercalate]
@[simp] theorem join_cons_cons (sep part next : Text) (parts : List Text) :
    join sep (part :: next :: parts) = part ++ (sep ++ join sep (next :: parts)) := by
  simp [join, List.intercalate]

section Numbers

def isDigits (cs : Text) : Bool := !cs.isEmpty && cs.all Char.isDigit

def isExponent : Text → Bool
  | [] => true
  | e :: cs => (e == 'e' || e == 'E') && match cs with
    | [] => false
    | sign :: digits => if sign == '+' || sign == '-' then isDigits digits else isDigits (sign :: digits)

def isFraction : Text → Bool
  | [] => true
  | c :: cs =>
    if c = '.' then isDigits (cs.takeWhile Char.isDigit) && isExponent (cs.dropWhile Char.isDigit)
    else isExponent (c :: cs)

def isUnsigned (cs : Text) : Bool :=
  let digits := cs.takeWhile Char.isDigit
  isDigits digits && (digits == ['0'] || digits.head? != some '0') && isFraction (cs.dropWhile Char.isDigit)

/-- The grammar of a number. -/
def isLiteral : Text → Bool
  | [] => false
  | c :: cs => if c = '-' then isUnsigned cs else isUnsigned (c :: cs)

/-- The digits that an integer may have where text and integers are converted. -/
def maxIntDigits : Nat := 4300

def isInteger (cs : Text) : Bool := cs.all fun c => c.isDigit || c == '-'

def isNumber (cs : Text) : Bool := isLiteral cs && (!isInteger cs || cs.countP Char.isDigit ≤ maxIntDigits)

def isNumberChar (c : Char) : Bool := c.isDigit || c == '-' || c == '+' || c == '.' || c == 'e' || c == 'E'

structure Number where
  literal : Text
  valid : isNumber literal = true
  deriving DecidableEq

variable {cs : Text}

theorem mem_digits_or_rest {c : Char} (h : c ∈ cs) :
    c ∈ cs.takeWhile Char.isDigit ∨ c ∈ cs.dropWhile Char.isDigit := by
  rwa [← mem_append, takeWhile_append_dropWhile]

theorem isNumberChar_of_isDigits (h : isDigits cs = true) : ∀ c ∈ cs, isNumberChar c = true := by
  intro c hc
  have hdigit := all_eq_true.mp (Bool.and_eq_true_iff.mp h).2 c hc
  simp [isNumberChar, hdigit]

theorem isNumberChar_of_isExponent (h : isExponent cs = true) : ∀ c ∈ cs, isNumberChar c = true := by
  intro c hc
  cases cs with
  | nil => cases hc
  | cons e cs =>
    obtain ⟨he, hrest⟩ := Bool.and_eq_true_iff.mp h
    cases hc with
    | head =>
      rw [Bool.or_eq_true] at he
      obtain he | he := he <;> simp [isNumberChar, eq_of_beq he]
    | tail _ hc =>
      cases cs with
      | nil => cases hc
      | cons sign digits =>
        dsimp only at hrest
        split at hrest
        · rename_i hsign
          cases hc with
          | head =>
            rw [Bool.or_eq_true] at hsign
            obtain hsign | hsign := hsign <;> simp [isNumberChar, eq_of_beq hsign]
          | tail _ hc => exact isNumberChar_of_isDigits hrest c hc
        · exact isNumberChar_of_isDigits hrest c hc

theorem isNumberChar_of_isFraction (h : isFraction cs = true) : ∀ c ∈ cs, isNumberChar c = true := by
  intro c hc
  cases cs with
  | nil => cases hc
  | cons d cs =>
    rw [isFraction] at h
    by_cases hdot : d = '.'
    · rw [if_pos hdot] at h
      obtain ⟨hdigits, hexp⟩ := Bool.and_eq_true_iff.mp h
      obtain rfl | hc := mem_cons.mp hc
      · simp [isNumberChar, hdot]
      · obtain hc | hc := mem_digits_or_rest hc
        · exact isNumberChar_of_isDigits hdigits c hc
        · exact isNumberChar_of_isExponent hexp c hc
    · rw [if_neg hdot] at h
      exact isNumberChar_of_isExponent h c hc

theorem isNumberChar_of_isUnsigned (h : isUnsigned cs = true) : ∀ c ∈ cs, isNumberChar c = true := by
  intro c hc
  obtain ⟨hint, hfraction⟩ := Bool.and_eq_true_iff.mp h
  obtain hc | hc := mem_digits_or_rest hc
  · exact isNumberChar_of_isDigits (Bool.and_eq_true_iff.mp hint).1 c hc
  · exact isNumberChar_of_isFraction hfraction c hc

theorem isNumberChar_of_isNumber (h : isNumber cs = true) : ∀ c ∈ cs, isNumberChar c = true := by
  intro c hc
  replace h := (Bool.and_eq_true_iff.mp h).1
  cases cs with
  | nil => cases hc
  | cons d cs =>
    rw [isLiteral] at h
    by_cases hminus : d = '-'
    · rw [if_pos hminus] at h
      obtain rfl | hc := mem_cons.mp hc
      · simp [isNumberChar, hminus]
      · exact isNumberChar_of_isUnsigned h c hc
    · rw [if_neg hminus] at h
      exact isNumberChar_of_isUnsigned h c hc

/-- A number starts with a digit or a minus. -/
theorem isNumber_head (h : isNumber cs = true) : ∃ c rest, cs = c :: rest ∧ (c.isDigit = true ∨ c = '-') := by
  replace h := (Bool.and_eq_true_iff.mp h).1
  cases cs with
  | nil => cases h
  | cons c rest =>
    refine ⟨c, rest, rfl, ?_⟩
    by_cases hminus : c = '-'
    · exact .inr hminus
    · rw [isLiteral, if_neg hminus] at h
      have hdigits := (Bool.and_eq_true_iff.mp (Bool.and_eq_true_iff.mp h).1).1
      by_contra hdigit
      rw [not_or] at hdigit
      rw [takeWhile_cons_of_neg hdigit.1] at hdigits
      cases hdigits

end Numbers

section Strings

def hexDigit (n : Nat) : Char := if n < 10 then Char.ofNat (48 + n) else Char.ofNat (87 + n)

def hexValue (c : Char) : Option Nat :=
  if c.isDigit then some (c.toNat - 48)
  else if 'a' ≤ c ∧ c ≤ 'f' then some (c.toNat - 87)
  else if 'A' ≤ c ∧ c ≤ 'F' then some (c.toNat - 55)
  else none

/-- The letters that stand for themselves or a control character behind a backslash. -/
def escapes : List (Char × Char) :=
  [('"', '"'), ('\\', '\\'), ('/', '/'), ('b', '\x08'), ('f', '\x0c'), ('n', '\n'), ('r', '\r'), ('t', '\t')]

/-- A character in a string; what is not ASCII stays as it is. -/
def escapeChar (c : Char) : Text :=
  if c = '"' then ['\\', '"']
  else if c = '\\' then ['\\', '\\']
  else if c = '\x08' then ['\\', 'b']
  else if c = '\x0c' then ['\\', 'f']
  else if c = '\n' then ['\\', 'n']
  else if c = '\r' then ['\\', 'r']
  else if c = '\t' then ['\\', 't']
  else if c.toNat < 32 then ['\\', 'u', '0', '0', hexDigit (c.toNat / 16), hexDigit (c.toNat % 16)]
  else [c]

def dumpString (s : Text) : Text := '"' :: (s.flatMap escapeChar ++ ['"'])

def codeUnit (a b c d : Char) : Option Nat :=
  match hexValue a, hexValue b, hexValue c, hexValue d with
  | some a, some b, some c, some d => some (((a * 16 + b) * 16 + c) * 16 + d)
  | _, _, _, _ => none

/-- What stands for a surrogate without its other half, which no `Char` is. -/
def loneSurrogate : Char := '\uFFFD'

def parseString : Text → Option (Text × Text)
  | [] => none
  | '"' :: rest => some ([], rest)
  | '\\' :: 'u' :: a :: b :: c :: d :: rest =>
    match codeUnit a b c d with
    | none => none
    | some unit =>
      let lone := (parseString rest).map fun r => (loneSurrogate :: r.1, r.2)
      if 0xD800 ≤ unit ∧ unit < 0xDC00 then
        match rest with
        | '\\' :: 'u' :: a' :: b' :: c' :: d' :: rest' =>
          match codeUnit a' b' c' d' with
          | none => none
          | some low =>
            if 0xDC00 ≤ low ∧ low < 0xE000 then
              (parseString rest').map fun r => (Char.ofNat (0x10000 + (unit - 0xD800) * 0x400 + (low - 0xDC00)) :: r.1, r.2)
            else lone
        | _ => lone
      else if 0xDC00 ≤ unit ∧ unit < 0xE000 then lone
      else (parseString rest).map fun r => (Char.ofNat unit :: r.1, r.2)
  | '\\' :: e :: rest =>
    match escapes.lookup e with
    | none => none
    | some c => (parseString rest).map fun r => (c :: r.1, r.2)
  | c :: rest => if c.toNat < 32 ∨ c = '\\' then none else (parseString rest).map fun r => (c :: r.1, r.2)

theorem hexValue_hexDigit : ∀ n < 16, hexValue (hexDigit n) = some n := by decide

theorem parseString_escapeChar (c : Char) (rest : Text) :
    parseString (escapeChar c ++ rest) = (parseString rest).map fun r => (c :: r.1, r.2) := by
  unfold escapeChar
  split
  · subst_vars; simp [parseString, escapes]
  split
  · subst_vars; simp [parseString, escapes, List.lookup_cons]
  split
  · subst_vars; simp [parseString, escapes, List.lookup_cons]
  split
  · subst_vars; simp [parseString, escapes, List.lookup_cons]
  split
  · subst_vars; simp [parseString, escapes, List.lookup_cons]
  split
  · subst_vars; simp [parseString, escapes, List.lookup_cons]
  split
  · subst_vars; simp [parseString, escapes, List.lookup_cons]
  split
  · rename_i hcontrol
    have hunit : codeUnit '0' '0' (hexDigit (c.toNat / 16)) (hexDigit (c.toNat % 16)) = some c.toNat := by
      have hzero : hexValue '0' = some 0 := by decide
      simp only [codeUnit, hzero, hexValue_hexDigit _ (show c.toNat / 16 < 16 by omega),
        hexValue_hexDigit _ (show c.toNat % 16 < 16 by omega), Option.some.injEq]
      omega
    have hhigh : ¬(0xD800 ≤ c.toNat ∧ c.toNat < 0xDC00) := by omega
    have hlow : ¬(0xDC00 ≤ c.toNat ∧ c.toNat < 0xE000) := by omega
    simp only [cons_append, nil_append, parseString, hunit, hhigh, hlow, if_false, Char.ofNat_toNat]
  · rename_i hquote hbackslash _ _ _ _ _ hcontrol
    rw [singleton_append, parseString.eq_def]
    split
    · cases ‹_›
    · rename_i heq
      exact absurd (List.cons.inj heq).1 hquote
    · rename_i heq
      exact absurd (List.cons.inj heq).1 hbackslash
    · rename_i heq
      exact absurd (List.cons.inj heq).1 hbackslash
    · rename_i heq
      obtain ⟨rfl, rfl⟩ := List.cons.inj heq
      rw [if_neg (by simp [hcontrol, hbackslash])]

theorem parseString_dump (s rest : Text) : parseString (s.flatMap escapeChar ++ '"' :: rest) = some (s, rest) := by
  induction s with
  | nil => rfl
  | cons c s ih => rw [flatMap_cons, append_assoc, parseString_escapeChar, ih, Option.map_some]

end Strings

/-- The numbers that have no digits. -/
inductive Constant where
  | nan
  | infinity
  | negInfinity
  deriving DecidableEq

def Constant.literal : Constant → Text
  | nan => ['N', 'a', 'N']
  | infinity => ['I', 'n', 'f', 'i', 'n', 'i', 't', 'y']
  | negInfinity => ['-', 'I', 'n', 'f', 'i', 'n', 'i', 't', 'y']

/-- A JSON value; the members of an object stand in the order they were set in. -/
inductive Json where
  | null
  | bool (b : Bool)
  | num (n : Number)
  | const (c : Constant)
  | str (s : Text)
  | arr (elements : List Json)
  | obj (members : List (Text × Json))

section Dump

def comma : Text := [',', ' ']

mutual

def dumps : Json → Text
  | .null => "null".toList
  | .bool true => "true".toList
  | .bool false => "false".toList
  | .num n => n.literal
  | .const c => c.literal
  | .str s => dumpString s
  | .arr elements => '[' :: (join comma (dumpElements elements) ++ [']'])
  | .obj members => '{' :: (join comma (dumpMembers members) ++ ['}'])

def dumpElements : List Json → List Text
  | [] => []
  | v :: vs => dumps v :: dumpElements vs

def dumpMembers : List (Text × Json) → List Text
  | [] => []
  | (k, v) :: ms => (dumpString k ++ (": ".toList ++ dumps v)) :: dumpMembers ms

end

end Dump

section Load

def isSpace (c : Char) : Bool := c == ' ' || c == '\t' || c == '\n' || c == '\r'

def skipSpace (cs : Text) : Text := cs.dropWhile isSpace

/-- A member set on an object: a name that is there keeps its place. -/
def setMember (members : List (Text × Json)) (k : Text) (v : Json) : List (Text × Json) :=
  if k ∈ members.map Prod.fst then members.map fun m => if m.1 = k then (k, v) else m else members ++ [(k, v)]

/-- The members of an object as they are read, a name that comes again taking the new value. -/
def setMembers (members : List (Text × Json)) : List (Text × Json) :=
  members.foldl (fun done m => setMember done m.1 m.2) []

def keyword (word : Text) (v : Json) (cs : Text) : Option (Json × Text) :=
  if word.isPrefixOf cs then some (v, cs.drop word.length) else none

def parseNumber (cs : Text) : Option (Json × Text) :=
  let literal := cs.takeWhile isNumberChar
  if h : isNumber literal = true then some (.num ⟨literal, h⟩, cs.dropWhile isNumberChar) else none

mutual

def parseValue : Nat → Text → Option (Json × Text)
  | 0, _ => none
  | _ + 1, [] => none
  | fuel + 1, c :: rest =>
    if c = '"' then (parseString rest).map fun r => (.str r.1, r.2)
    else if c = '{' then
      if (skipSpace rest).head? = some '}' then some (.obj [], (skipSpace rest).tail)
      else (parseMembers fuel (skipSpace rest)).map fun r => (.obj (setMembers r.1), r.2)
    else if c = '[' then
      if (skipSpace rest).head? = some ']' then some (.arr [], (skipSpace rest).tail)
      else (parseElements fuel (skipSpace rest)).map fun r => (.arr r.1, r.2)
    else if c = 'n' then keyword "null".toList .null (c :: rest)
    else if c = 't' then keyword "true".toList (.bool true) (c :: rest)
    else if c = 'f' then keyword "false".toList (.bool false) (c :: rest)
    else if c = 'N' then keyword Constant.nan.literal (.const .nan) (c :: rest)
    else if c = 'I' then keyword Constant.infinity.literal (.const .infinity) (c :: rest)
    else (parseNumber (c :: rest)).or (keyword Constant.negInfinity.literal (.const .negInfinity) (c :: rest))

def parseElements : Nat → Text → Option (List Json × Text)
  | 0, _ => none
  | fuel + 1, cs =>
    match parseValue fuel cs with
    | none => none
    | some (v, rest) =>
      match skipSpace rest with
      | ']' :: rest => some ([v], rest)
      | ',' :: rest => (parseElements fuel (skipSpace rest)).map fun r => (v :: r.1, r.2)
      | _ => none

def parseMembers : Nat → Text → Option (List (Text × Json) × Text)
  | 0, _ => none
  | fuel + 1, '"' :: cs =>
    match parseString cs with
    | none => none
    | some (k, rest) =>
      match skipSpace rest with
      | ':' :: rest =>
        match parseValue fuel (skipSpace rest) with
        | none => none
        | some (v, rest) =>
          match skipSpace rest with
          | '}' :: rest => some ([(k, v)], rest)
          | ',' :: rest => (parseMembers fuel (skipSpace rest)).map fun r => ((k, v) :: r.1, r.2)
          | _ => none
      | _ => none
  | _ + 1, _ => none

end

def loads (cs : Text) : Option Json :=
  match parseValue (cs.length + 1) (skipSpace cs) with
  | some (v, rest) => if (skipSpace rest).isEmpty then some v else none
  | none => none

end Load

mutual

def Json.Distinct : Json → Prop
  | .arr elements => Json.DistinctElements elements
  | .obj members => (members.map Prod.fst).Nodup ∧ Json.DistinctMembers members
  | _ => True

def Json.DistinctElements : List Json → Prop
  | [] => True
  | v :: vs => v.Distinct ∧ Json.DistinctElements vs

def Json.DistinctMembers : List (Text × Json) → Prop
  | [] => True
  | (_, v) :: ms => v.Distinct ∧ Json.DistinctMembers ms

end

mutual

/-- The fuel that reading a value back takes. -/
def Json.size : Json → Nat
  | .arr elements => 1 + Json.sizeElements elements
  | .obj members => 1 + Json.sizeMembers members
  | _ => 1

def Json.sizeElements : List Json → Nat
  | [] => 0
  | v :: vs => 1 + v.size + Json.sizeElements vs

def Json.sizeMembers : List (Text × Json) → Nat
  | [] => 0
  | (_, v) :: ms => 1 + v.size + Json.sizeMembers ms

end

theorem Json.DistinctMembers.of_mem {members : List (Text × Json)} (h : Json.DistinctMembers members)
    {m : Text × Json} (hm : m ∈ members) : m.2.Distinct := by
  induction members with
  | nil => cases hm
  | cons first members ih =>
    obtain rfl | hm := mem_cons.mp hm
    · exact h.1
    · exact ih h.2 hm

section RoundTrip

variable {rest : Text} {members : List (Text × Json)}

/-- What may stand behind a number. -/
def Ends (rest : Text) : Prop := ∀ c ∈ rest.head?, isNumberChar c = false

theorem ends_cons {c : Char} (h : isNumberChar c = false) : Ends (c :: rest) := by
  rintro d ⟨⟩
  exact h

@[simp] theorem skipSpace_space (cs : Text) : skipSpace (' ' :: cs) = skipSpace cs := rfl

theorem skipSpace_cons {c : Char} {cs : Text} (h : isSpace c = false) : skipSpace (c :: cs) = c :: cs := by
  simp [skipSpace, h]

theorem takeWhile_append_of_all {p : Char → Bool} {cs : Text} (hall : ∀ c ∈ cs, p c = true)
    (hrest : ∀ c ∈ rest.head?, p c = false) :
    (cs ++ rest).takeWhile p = cs ∧ (cs ++ rest).dropWhile p = rest := by
  induction cs with
  | nil =>
    cases rest with
    | nil => exact ⟨rfl, rfl⟩
    | cons c rest =>
      have hc := hrest c rfl
      simp [hc]
  | cons c cs ih =>
    obtain ⟨htake, hdrop⟩ := ih fun d hd => hall d (mem_cons_of_mem _ hd)
    have hc := hall c mem_cons_self
    simp [hc, htake, hdrop]

theorem parseNumber_literal (n : Number) (h : Ends rest) :
    parseNumber (n.literal ++ rest) = some (.num n, rest) := by
  obtain ⟨htake, hdrop⟩ := takeWhile_append_of_all (isNumberChar_of_isNumber n.valid) h
  simp only [parseNumber, htake, hdrop, n.valid, dif_pos]

/-- A minus needs a digit behind it. -/
theorem parseNumber_minus : parseNumber ('-' :: 'I' :: rest) = none := by
  have hliteral : ('-' :: 'I' :: rest).takeWhile isNumberChar = ['-'] := by simp [isNumberChar]
  simp [parseNumber, hliteral, isNumber, isLiteral, isUnsigned, isDigits]

/-- Where a value starts. -/
theorem dumps_head (v : Json) :
    ∃ c rest, dumps v = c :: rest ∧ isSpace c = false ∧ c ≠ ']' ∧ c ≠ '}' := by
  cases v with
  | null => exact ⟨_, _, rfl, by decide⟩
  | bool b => cases b <;> exact ⟨_, _, rfl, by decide⟩
  | num n =>
    obtain ⟨c, rest, heq, hc⟩ := isNumber_head n.valid
    refine ⟨c, rest, heq, ?_⟩
    obtain hdigit | rfl := hc
    · refine ⟨?_, ?_, ?_⟩
      · by_contra hspace
        rw [Bool.not_eq_false] at hspace
        simp only [isSpace, Bool.or_eq_true, beq_iff_eq] at hspace
        obtain ((rfl | rfl) | rfl) | rfl := hspace <;> exact absurd hdigit (by decide)
      · rintro rfl
        exact absurd hdigit (by decide)
      · rintro rfl
        exact absurd hdigit (by decide)
    · decide
  | const c => cases c <;> exact ⟨_, _, rfl, by decide⟩
  | str s => exact ⟨_, _, rfl, by decide⟩
  | arr elements => exact ⟨_, _, rfl, by decide⟩
  | obj members => exact ⟨_, _, rfl, by decide⟩

theorem skipSpace_dumps (v : Json) (rest : Text) : skipSpace (dumps v ++ rest) = dumps v ++ rest := by
  obtain ⟨c, cs, heq, hspace, -⟩ := dumps_head v
  rw [heq, cons_append, skipSpace_cons hspace]

theorem setMember_of_notMem {k : Text} {v : Json} (h : k ∉ members.map Prod.fst) :
    setMember members k v = members ++ [(k, v)] := if_neg h

theorem setMembers_append (members : List (Text × Json)) (m : Text × Json) :
    setMembers (members ++ [m]) = setMember (setMembers members) m.1 m.2 := by
  simp [setMembers]

/-- Members with names of their own are read as they stand. -/
theorem setMembers_of_nodup (h : (members.map Prod.fst).Nodup) :
    setMembers members = members := by
  induction members using reverseRecOn with
  | nil => rfl
  | append_singleton members m ih =>
    rw [map_append, nodup_append] at h
    rw [setMembers_append, ih h.1]
    refine setMember_of_notMem fun hmem => ?_
    exact h.2.2 _ hmem _ (mem_singleton_self _) rfl

theorem length_setMember (members : List (Text × Json)) (k : Text) (v : Json) :
    (setMember members k v).length = if k ∈ members.map Prod.fst then members.length else members.length + 1 := by
  unfold setMember
  split
  · rw [length_map]
  · rw [length_append, length_singleton]

theorem length_setMembers_le (members : List (Text × Json)) : (setMembers members).length ≤ members.length := by
  induction members using reverseRecOn with
  | nil => exact Nat.le_refl 0
  | append_singleton members m ih =>
    rw [setMembers_append, length_setMember, length_append, length_singleton]
    split <;> omega

/-- Where no member is lost, no name came twice. -/
theorem nodup_of_length_setMembers (h : (setMembers members).length = members.length) :
    (members.map Prod.fst).Nodup := by
  induction members using reverseRecOn with
  | nil => exact nodup_nil
  | append_singleton members m ih =>
    have hle := length_setMembers_le members
    rw [setMembers_append, length_setMember, length_append, length_singleton] at h
    split at h
    · omega
    · rename_i hnew
      have hnodup := ih (Nat.succ.inj h)
      rw [setMembers_of_nodup hnodup] at hnew
      rw [map_append, nodup_append]
      refine ⟨hnodup, nodup_singleton _, fun k hk k' hk' heq => hnew ?_⟩
      rwa [← mem_singleton.mp hk', ← heq]

theorem Json.size_pos (v : Json) : 0 < v.size := by
  cases v <;> simp only [Json.size] <;> omega

theorem dumpElements_head (v : Json) (vs : List Json) (rest : Text) :
    ∃ c cs, join comma (dumpElements (v :: vs)) ++ rest = c :: cs ∧ isSpace c = false ∧ c ≠ ']' := by
  obtain ⟨c, cs, heq, hspace, hclose, -⟩ := dumps_head v
  cases vs with
  | nil => exact ⟨c, cs ++ rest, by simp [dumpElements, heq], hspace, hclose⟩
  | cons next vs =>
    refine ⟨c, cs ++ (comma ++ join comma (dumpElements (next :: vs))) ++ rest, ?_, hspace, hclose⟩
    simp [dumpElements, heq]

theorem dumpMembers_head (m : Text × Json) (ms : List (Text × Json)) (rest : Text) :
    ∃ cs, join comma (dumpMembers (m :: ms)) ++ rest = '"' :: cs := by
  cases ms with
  | nil => exact ⟨_, rfl⟩
  | cons next ms => exact ⟨_, rfl⟩

theorem parseMembers_member {fuel : Nat} {k : Text} {v : Json}
    (hv : parseValue fuel (dumps v ++ rest) = some (v, rest)) :
    parseMembers (fuel + 1) (dumpString k ++ (": ".toList ++ dumps v) ++ rest) =
      match skipSpace rest with
      | '}' :: rest => some ([(k, v)], rest)
      | ',' :: rest => (parseMembers fuel (skipSpace rest)).map fun r => ((k, v) :: r.1, r.2)
      | _ => none := by
  have hcolon : skipSpace (':' :: ' ' :: (dumps v ++ rest)) = ':' :: ' ' :: (dumps v ++ rest) :=
    skipSpace_cons (by decide)
  have htext : dumpString k ++ (": ".toList ++ dumps v) ++ rest =
      '"' :: (k.flatMap escapeChar ++ '"' :: ':' :: ' ' :: (dumps v ++ rest)) := by
    simp [dumpString]
  rw [htext]
  simp only [parseMembers, parseString_dump, hcolon, skipSpace_space, skipSpace_dumps, hv]

theorem parseValue_constant (c : Constant) (fuel : Nat) (rest : Text) :
    parseValue (fuel + 1) (dumps (.const c) ++ rest) = some (.const c, rest) := by
  cases c with
  | nan => simp [dumps, Constant.literal, parseValue, keyword]
  | infinity => simp [dumps, Constant.literal, parseValue, keyword]
  | negInfinity => simp [dumps, Constant.literal, parseValue, keyword, parseNumber_minus]

mutual

theorem parseValue_dumps : ∀ (v : Json) (fuel : Nat) (rest : Text), v.Distinct → v.size ≤ fuel → Ends rest →
    parseValue fuel (dumps v ++ rest) = some (v, rest)
  | v, 0, _, _, hsize, _ => absurd hsize (Nat.not_le.mpr v.size_pos)
  | .null, _ + 1, _, _, _, _ => by simp [dumps, parseValue, keyword]
  | .bool true, _ + 1, _, _, _, _ => by simp [dumps, parseValue, keyword]
  | .bool false, _ + 1, _, _, _, _ => by simp [dumps, parseValue, keyword]
  | .num n, fuel + 1, rest, _, _, hends => by
    obtain ⟨c, cs, heq, hc⟩ := isNumber_head n.valid
    have hnumber := parseNumber_literal n hends
    have hne (d : Char) (hd : d.isDigit = false) (hminus : d ≠ '-') : c ≠ d := by
      rintro rfl
      obtain hc | hc := hc
      · rw [hd] at hc
        cases hc
      · exact hminus hc
    rw [dumps]
    rw [heq, cons_append] at hnumber ⊢
    simp only [parseValue, hne '"' (by decide) (by decide), hne '{' (by decide) (by decide),
      hne '[' (by decide) (by decide), hne 'n' (by decide) (by decide), hne 't' (by decide) (by decide),
      hne 'f' (by decide) (by decide), hne 'N' (by decide) (by decide), hne 'I' (by decide) (by decide), if_false,
      hnumber, Option.some_or]
  | .const c, fuel + 1, rest, _, _, _ => parseValue_constant c fuel rest
  | .str s, _ + 1, _, _, _, _ => by
    simp only [dumps, dumpString, cons_append, append_assoc, nil_append, parseValue, if_true,
      parseString_dump, Option.map_some]
  | .arr [], _ + 1, _, _, _, _ => by
    simp [dumps, dumpElements, parseValue, skipSpace_cons (show isSpace ']' = false by decide)]
  | .arr (v :: vs), fuel + 1, rest, hdistinct, hsize, _ => by
    have helements := parseElements_dumps v vs fuel rest hdistinct (by simp only [Json.size] at hsize; omega)
    obtain ⟨c, cs, heq, hspace, hclose⟩ := dumpElements_head v vs (']' :: rest)
    have htext : dumps (.arr (v :: vs)) ++ rest =
        '[' :: (join comma (dumpElements (v :: vs)) ++ ']' :: rest) := by simp [dumps]
    have hskip : skipSpace (join comma (dumpElements (v :: vs)) ++ ']' :: rest) =
        join comma (dumpElements (v :: vs)) ++ ']' :: rest := by
      rw [heq]
      exact skipSpace_cons hspace
    have hhead : (join comma (dumpElements (v :: vs)) ++ ']' :: rest).head? ≠ some ']' := by
      rw [heq]
      simpa using hclose
    rw [htext]
    simp only [parseValue, Char.reduceEq, if_false, if_true, hskip, hhead, helements, Option.map_some]
  | .obj [], _ + 1, _, _, _, _ => by
    simp [dumps, dumpMembers, parseValue, skipSpace_cons (show isSpace '}' = false by decide)]
  | .obj (m :: ms), fuel + 1, rest, hdistinct, hsize, _ => by
    have hmembers := parseMembers_dumps m ms fuel rest hdistinct.2 (by simp only [Json.size] at hsize; omega)
    obtain ⟨cs, heq⟩ := dumpMembers_head m ms ('}' :: rest)
    have htext : dumps (.obj (m :: ms)) ++ rest =
        '{' :: (join comma (dumpMembers (m :: ms)) ++ '}' :: rest) := by simp [dumps]
    have hskip : skipSpace (join comma (dumpMembers (m :: ms)) ++ '}' :: rest) =
        join comma (dumpMembers (m :: ms)) ++ '}' :: rest := by
      rw [heq]
      exact skipSpace_cons (by decide)
    have hhead : (join comma (dumpMembers (m :: ms)) ++ '}' :: rest).head? ≠ some '}' := by
      rw [heq]
      simp
    rw [htext]
    simp only [parseValue, Char.reduceEq, if_false, if_true, hskip, hhead, hmembers, Option.map_some,
      setMembers_of_nodup hdistinct.1]

theorem parseElements_dumps : ∀ (v : Json) (vs : List Json) (fuel : Nat) (rest : Text),
    Json.DistinctElements (v :: vs) → Json.sizeElements (v :: vs) ≤ fuel →
    parseElements fuel (join comma (dumpElements (v :: vs)) ++ ']' :: rest) = some (v :: vs, rest)
  | v, vs, 0, _, _, hsize => by
    simp only [Json.sizeElements] at hsize
    omega
  | v, [], fuel + 1, rest, hdistinct, hsize => by
    simp only [Json.sizeElements] at hsize
    have hv := parseValue_dumps v fuel (']' :: rest) hdistinct.1 (by omega) (ends_cons (by decide))
    simp [dumpElements, parseElements, hv, skipSpace_cons (show isSpace ']' = false by decide)]
  | v, next :: vs, fuel + 1, rest, hdistinct, hsize => by
    have hnext := parseElements_dumps next vs fuel rest hdistinct.2 (by
      simp only [Json.sizeElements] at hsize ⊢
      omega)
    have hv := parseValue_dumps v fuel (',' :: ' ' :: (join comma (dumpElements (next :: vs)) ++ ']' :: rest))
      hdistinct.1 (by simp only [Json.sizeElements] at hsize; omega) (ends_cons (by decide))
    have htext : join comma (dumpElements (v :: next :: vs)) ++ ']' :: rest =
        dumps v ++ ',' :: ' ' :: (join comma (dumpElements (next :: vs)) ++ ']' :: rest) := by
      simp [dumpElements, comma]
    obtain ⟨c, cs, heq, hspace, -⟩ := dumpElements_head next vs (']' :: rest)
    have hskip : skipSpace (join comma (dumpElements (next :: vs)) ++ ']' :: rest) =
        join comma (dumpElements (next :: vs)) ++ ']' :: rest := by
      rw [heq]
      exact skipSpace_cons hspace
    rw [htext, parseElements, hv]
    simp only [skipSpace_cons (show isSpace ',' = false by decide), skipSpace_space, hskip, hnext, Option.map_some]

theorem parseMembers_dumps : ∀ (m : Text × Json) (ms : List (Text × Json)) (fuel : Nat) (rest : Text),
    Json.DistinctMembers (m :: ms) → Json.sizeMembers (m :: ms) ≤ fuel →
    parseMembers fuel (join comma (dumpMembers (m :: ms)) ++ '}' :: rest) = some (m :: ms, rest)
  | (k, v), ms, 0, _, _, hsize => by
    simp only [Json.sizeMembers] at hsize
    omega
  | (k, v), [], fuel + 1, rest, hdistinct, hsize => by
    simp only [Json.sizeMembers] at hsize
    have hv := parseValue_dumps v fuel ('}' :: rest) hdistinct.1 (by omega) (ends_cons (by decide))
    rw [dumpMembers, dumpMembers, join_singleton, parseMembers_member hv]
    simp only [skipSpace_cons (show isSpace '}' = false by decide)]
  | (k, v), next :: ms, fuel + 1, rest, hdistinct, hsize => by
    have hnext := parseMembers_dumps next ms fuel rest hdistinct.2 (by
      simp only [Json.sizeMembers] at hsize ⊢
      omega)
    have hv := parseValue_dumps v fuel (',' :: ' ' :: (join comma (dumpMembers (next :: ms)) ++ '}' :: rest))
      hdistinct.1 (by simp only [Json.sizeMembers] at hsize; omega) (ends_cons (by decide))
    have htext : join comma (dumpMembers ((k, v) :: next :: ms)) ++ '}' :: rest =
        dumpString k ++ (": ".toList ++ dumps v) ++
          ',' :: ' ' :: (join comma (dumpMembers (next :: ms)) ++ '}' :: rest) := by
      simp [dumpMembers, comma]
    obtain ⟨cs, heq⟩ := dumpMembers_head next ms ('}' :: rest)
    have hskip : skipSpace (join comma (dumpMembers (next :: ms)) ++ '}' :: rest) =
        join comma (dumpMembers (next :: ms)) ++ '}' :: rest := by
      rw [heq]
      exact skipSpace_cons (by decide)
    rw [htext, parseMembers_member hv]
    simp only [skipSpace_cons (show isSpace ',' = false by decide), skipSpace_space, hskip, hnext, Option.map_some]

end

mutual

theorem size_le_length : ∀ v : Json, v.size ≤ (dumps v).length
  | .null => by simp [Json.size, dumps]
  | .bool true => by simp [Json.size, dumps]
  | .bool false => by simp [Json.size, dumps]
  | .num n => by
    obtain ⟨c, rest, heq, -⟩ := isNumber_head n.valid
    simp [Json.size, dumps, heq]
  | .const c => by cases c <;> simp [Json.size, dumps, Constant.literal]
  | .str s => by simp [Json.size, dumps, dumpString]
  | .arr [] => by simp [Json.size, Json.sizeElements, dumps]
  | .arr (v :: vs) => by
    have hle := sizeElements_le_length v vs
    simp only [Json.size, dumps, length_cons, length_append, length_nil]
    omega
  | .obj [] => by simp [Json.size, Json.sizeMembers, dumps]
  | .obj (m :: ms) => by
    have hle := sizeMembers_le_length m ms
    simp only [Json.size, dumps, length_cons, length_append, length_nil]
    omega
termination_by v => sizeOf v

theorem sizeElements_le_length : ∀ (v : Json) (vs : List Json),
    Json.sizeElements (v :: vs) ≤ (join comma (dumpElements (v :: vs))).length + 1
  | v, [] => by
    have hv := size_le_length v
    simp only [Json.sizeElements, dumpElements, join_singleton]
    omega
  | v, next :: vs => by
    have hv := size_le_length v
    have hnext := sizeElements_le_length next vs
    rw [Json.sizeElements]
    simp only [dumpElements, join_cons_cons, comma, length_append, length_cons, length_nil] at hnext ⊢
    omega
termination_by v vs => sizeOf (v :: vs)

theorem sizeMembers_le_length : ∀ (m : Text × Json) (ms : List (Text × Json)),
    Json.sizeMembers (m :: ms) ≤ (join comma (dumpMembers (m :: ms))).length + 1
  | (k, v), [] => by
    have hv := size_le_length v
    simp only [Json.sizeMembers, dumpMembers, join_singleton, length_append]
    omega
  | (k, v), next :: ms => by
    have hv := size_le_length v
    have hnext := sizeMembers_le_length next ms
    rw [Json.sizeMembers]
    simp only [dumpMembers, join_cons_cons, comma, length_append, length_cons, length_nil] at hnext ⊢
    omega
termination_by m ms => sizeOf (m :: ms)

end

/-- A value is read back from its own text. -/
theorem loads_dumps {v : Json} (h : v.Distinct) : loads (dumps v) = some v := by
  have hskip : skipSpace (dumps v) = dumps v := by
    have := skipSpace_dumps v []
    rwa [append_nil] at this
  have hread := parseValue_dumps v ((dumps v).length + 1) [] h (Nat.le_succ_of_le (size_le_length v)) nofun
  rw [append_nil] at hread
  rw [loads, hskip, hread]
  rfl


example : (loads "\x7b\"path\": [1, -2.5e3], \"note\": \"a\\u00e9\\n\"\x7d".toList).map dumps =
    some "\x7b\"path\": [1, -2.5e3], \"note\": \"aé\\n\"\x7d".toList := by decide +kernel

end RoundTrip

section Lengths

theorem length_lt_of_map_cons {read : Option (Text × Text)} {c : Char} {r : Text × Text} {n : Nat}
    (ih : ∀ {q}, read = some q → q.1.length < n) (h : (read.map fun q => (c :: q.1, q.2)) = some r) :
    r.1.length < n + 1 := by
  obtain ⟨q, hq, rfl⟩ := Option.map_eq_some_iff.mp h
  exact Nat.succ_lt_succ (ih hq)

/-- A string is shorter than the text it is written as. -/
theorem length_lt_of_parseString {cs : Text} {r : Text × Text} (h : parseString cs = some r) :
    r.1.length < cs.length := by
  fun_induction parseString cs generalizing r with
  | case1 | case3 | case4 | case10 | case12 => cases h
  | case2 rest =>
    cases h
    exact Nat.succ_pos _
  | _ =>
    rename_i ih
    have hlt := length_lt_of_map_cons ih h
    simp only [length_cons] at hlt ⊢
    omega

/-- Only a quote opens a string. -/
theorem parseValue_str {fuel : Nat} {cs : Text} {s rest : Text} (h : parseValue fuel cs = some (.str s, rest)) :
    ∃ text, cs = '"' :: text ∧ parseString text = some (s, rest) := by
  have hkeyword {word : Text} {v : Json} (hv : ∀ s, v ≠ .str s) : keyword word v cs ≠ some (.str s, rest) := by
    intro h
    unfold keyword at h
    split at h
    · exact hv s (Prod.ext_iff.mp (Option.some.inj h)).1
    · cases h
  have hnumber : parseNumber cs ≠ some (.str s, rest) := by
    intro h
    unfold parseNumber at h
    dsimp only at h
    split at h <;> cases h
  cases fuel with
  | zero => cases h
  | succ fuel =>
    cases cs with
    | nil => cases h
    | cons c cs =>
      rw [parseValue] at h
      split at h
      · obtain ⟨r, hr, heq⟩ := Option.map_eq_some_iff.mp h
        cases heq
        exact ⟨cs, by rw [‹c = '"'›], hr⟩
      split at h
      · split at h
        · cases h
        · obtain ⟨_, _, heq⟩ := Option.map_eq_some_iff.mp h
          cases heq
      split at h
      · split at h
        · cases h
        · obtain ⟨_, _, heq⟩ := Option.map_eq_some_iff.mp h
          cases heq
      split at h
      · exact absurd h (hkeyword nofun)
      split at h
      · exact absurd h (hkeyword nofun)
      split at h
      · exact absurd h (hkeyword nofun)
      split at h
      · exact absurd h (hkeyword nofun)
      split at h
      · exact absurd h (hkeyword nofun)
      obtain h | ⟨-, h⟩ := Option.or_eq_some_iff.mp h
      · exact absurd h hnumber
      · exact absurd h (hkeyword nofun)

/-- A string that is read out of a text is shorter than it, and the text is quoted. -/
theorem loads_str {cs s : Text} (h : loads cs = some (.str s)) :
    (skipSpace cs).head? = some '"' ∧ s.length < cs.length := by
  unfold loads at h
  split at h
  · rename_i v rest hread
    split at h
    · cases h
      obtain ⟨text, htext, hstring⟩ := parseValue_str hread
      have hlt : s.length < text.length := length_lt_of_parseString hstring
      have hle : (skipSpace cs).length ≤ cs.length := (dropWhile_sublist _).length_le
      rw [htext] at hle ⊢
      simp only [length_cons] at hle
      exact ⟨rfl, by omega⟩
    · cases h
  · cases h

end Lengths

end JsonText
