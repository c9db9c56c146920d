import Mathlib.Data.List.Basic

/-!
# UTF-8 with replacement

Text as UTF-8 bytes, and the decoder that puts U+FFFD in the place of bytes
that are no part of a character. What was encoded is decoded to itself.
-/

namespace Utf8Text

open List

def encode (text : List Char) : List UInt8 := text.flatMap String.utf8EncodeChar

def isContinuation (b : UInt8) : Bool := 0x80 ≤ b && b ≤ 0xBF

/-- Whether `c` may stand behind the lead byte `b` of three or four bytes. -/
def mayFollow (b c : UInt8) : Bool :=
  if b = 0xE0 then 0xA0 ≤ c && c ≤ 0xBF
  else if b = 0xED then 0x80 ≤ c && c ≤ 0x9F
  else if b = 0xF0 then 0x90 ≤ c && c ≤ 0xBF
  else if b = 0xF4 then 0x80 ≤ c && c ≤ 0x8F
  else 0xE0 ≤ b && b ≤ 0xF4 && isContinuation c

/-- The bytes at the start of a malformed text that one replacement stands for. -/
def malformedLength : List UInt8 → Nat
  | b :: c :: rest =>
    if mayFollow b c then
      match rest with
      | d :: _ => if 0xF0 ≤ b && isContinuation d then 3 else 2
      | [] => 2
    else 1
  | _ => 1

def decodeUpTo : Nat → List UInt8 → List Char
  | 0, _ => []
  | _ + 1, [] => []
  | fuel + 1, b :: bytes =>
    match (b :: bytes).toByteArray.utf8DecodeChar? 0 with
    | some c => c :: decodeUpTo fuel ((b :: bytes).drop c.utf8Size)
    | none => '\uFFFD' :: decodeUpTo fuel ((b :: bytes).drop (malformedLength (b :: bytes)))

/-- `bytes.decode("utf-8", "replace")` -/
def decode (bytes : List UInt8) : List Char := decodeUpTo bytes.length bytes

theorem decodeUpTo_encode (text : List Char) (fuel : Nat) (hfuel : (encode text).length ≤ fuel) :
    decodeUpTo fuel (encode text) = text := by
  induction text generalizing fuel with
  | nil => cases fuel <;> rfl
  | cons c text ih =>
    have hsplit : encode (c :: text) = String.utf8EncodeChar c ++ encode text := flatMap_cons
    have hlen : (String.utf8EncodeChar c).length = c.utf8Size := String.length_utf8EncodeChar c
    have hpos : 0 < c.utf8Size := c.utf8Size_pos
    have hfirst : (encode (c :: text)).toByteArray.utf8DecodeChar? 0 = some c := by
      rw [hsplit, toByteArray_append]
      exact ByteArray.utf8DecodeChar?_utf8EncodeChar_append
    have hrest : (encode (c :: text)).drop c.utf8Size = encode text := by
      rw [hsplit, ← hlen, drop_left]
    have hle : (encode text).length + c.utf8Size ≤ fuel := by
      rw [hsplit, length_append, hlen] at hfuel
      omega
    cases hbytes : encode (c :: text) with
    | nil =>
      have hempty := congrArg List.length (hsplit.symm.trans hbytes)
      rw [length_append, hlen, length_nil] at hempty
      omega
    | cons b bytes =>
      rw [hbytes] at hfirst hrest
      obtain ⟨left, rfl⟩ : ∃ left, fuel = left + 1 := ⟨fuel - 1, by omega⟩
      rw [decodeUpTo, hfirst]
      dsimp only
      rw [hrest, ih left (by omega)]

theorem decode_encode (text : List Char) : decode (encode text) = text :=
  decodeUpTo_encode text _ (Nat.le_refl _)

end Utf8Text
