import BlackweLLM.TextScan

/-!
# Strings of the server

A Python `str` is the list of its characters. White space is what `str.strip`
and the pattern `\s` agree on.
-/

namespace PythonText

abbrev Text := List Char

/-- `str.isspace` of one character. -/
def isSpace (c : Char) : Bool :=
  (0x09 ≤ c.toNat && c.toNat ≤ 0x0D) || (0x1C ≤ c.toNat && c.toNat ≤ 0x20) ||
  c.toNat == 0x85 || c.toNat == 0xA0 || c.toNat == 0x1680 ||
  (0x2000 ≤ c.toNat && c.toNat ≤ 0x200A) || c.toNat == 0x2028 || c.toNat == 0x2029 ||
  c.toNat == 0x202F || c.toNat == 0x205F || c.toNat == 0x3000

/-- `str.strip()`. -/
def pyStrip (text : Text) : Text := TextScan.strip isSpace text

/-- `text.replace("\ufffd", "")`: drop the replacement characters of incomplete bytes. -/
def dropReplacement (text : Text) : Text := text.filter fun c => c.toNat != 0xFFFD

theorem dropReplacement_append (a b : Text) :
    dropReplacement (a ++ b) = dropReplacement a ++ dropReplacement b := List.filter_append ..

/-- `text.find(sub, start)`. -/
def findFrom (sub text : Text) (start : Nat) : Option Nat :=
  (TextScan.find sub (text.drop start)).map (start + ·)

end PythonText
