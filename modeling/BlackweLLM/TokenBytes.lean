import Mathlib.Data.List.Basic
import Mathlib.Tactic.Ring

/-!
# Bytes of fixed width

Numbers as bytes of a fixed width, the least significant byte first or last, and lists
of numbers packed one behind the other. A packed list can be read back: numbers in
range are told apart by their bytes, and lists by the bytes of their entries.
-/

namespace TokenBytes

open List

/-- The lowest `width` bytes of a number, the least significant first. -/
def littleBytes : Nat → Nat → List UInt8
  | 0, _ => []
  | width + 1, n => UInt8.ofNat n :: littleBytes width (n / 256)

/-- The same bytes, the most significant first. -/
def bigBytes (width n : Nat) : List UInt8 := (littleBytes width n).reverse

/-- One entry of an array of unsigned numbers, which refuses what does not fit. -/
def packItem (width : Nat) (token : Int) : Option (List UInt8) :=
  if 0 ≤ token ∧ token.toNat < 256 ^ width then some (littleBytes width token.toNat) else none

def pack (width : Nat) : List Int → Option (List UInt8)
  | [] => some []
  | token :: tokens =>
    match packItem width token, pack width tokens with
    | some bytes, some rest => some (bytes ++ rest)
    | _, _ => none

@[simp] theorem length_littleBytes (width n : Nat) : (littleBytes width n).length = width := by
  induction width generalizing n with
  | zero => rfl
  | succ width ih => rw [littleBytes, length_cons, ih]

@[simp] theorem length_bigBytes (width n : Nat) : (bigBytes width n).length = width := by
  rw [bigBytes, length_reverse, length_littleBytes]

/-- The number that bytes stand for, the least significant first. -/
def littleNat : List UInt8 → Nat
  | [] => 0
  | b :: bytes => b.toNat + 256 * littleNat bytes

theorem littleNat_littleBytes {width n : Nat} (hn : n < 256 ^ width) : littleNat (littleBytes width n) = n := by
  induction width generalizing n with
  | zero =>
    rw [Nat.pow_zero, Nat.lt_one_iff] at hn
    rw [hn]
    rfl
  | succ width ih =>
    have hdiv : n / 256 < 256 ^ width := Nat.div_lt_of_lt_mul (by rwa [Nat.pow_succ, Nat.mul_comm] at hn)
    have hlow : (UInt8.ofNat n).toNat = n % 256 := UInt8.toNat_ofNat'
    rw [littleBytes, littleNat, ih hdiv, hlow]
    omega

theorem littleBytes_inj {width m n : Nat} (hm : m < 256 ^ width) (hn : n < 256 ^ width)
    (h : littleBytes width m = littleBytes width n) : m = n := by
  induction width generalizing m n with
  | zero => omega
  | succ width ih =>
    rw [littleBytes, littleBytes, List.cons.injEq] at h
    obtain ⟨hlow, hhigh⟩ := h
    have hmod : m % 256 = n % 256 := by simpa using congrArg UInt8.toNat hlow
    have hdiv : m / 256 = n / 256 := by
      apply ih _ _ hhigh
      · exact Nat.div_lt_of_lt_mul (by rwa [Nat.pow_succ, Nat.mul_comm] at hm)
      · exact Nat.div_lt_of_lt_mul (by rwa [Nat.pow_succ, Nat.mul_comm] at hn)
    omega

theorem bigBytes_inj {width m n : Nat} (hm : m < 256 ^ width) (hn : n < 256 ^ width)
    (h : bigBytes width m = bigBytes width n) : m = n :=
  littleBytes_inj hm hn (reverse_injective h)

variable {width : Nat} {bytes : List UInt8}

theorem packItem_eq_some {token : Int} (h : packItem width token = some bytes) :
    0 ≤ token ∧ token.toNat < 256 ^ width ∧ bytes = littleBytes width token.toNat := by
  rw [packItem] at h
  split_ifs at h with hrange
  exact ⟨hrange.1, hrange.2, (Option.some.inj h).symm⟩

theorem pack_cons {token : Int} {tokens : List Int} : pack width (token :: tokens) = some bytes ↔
      ∃ first rest, packItem width token = some first ∧ pack width tokens = some rest ∧ bytes = first ++ rest := by
  rw [pack]
  cases packItem width token <;> cases pack width tokens <;> simp [eq_comm]

theorem length_pack {tokens : List Int} (h : pack width tokens = some bytes) :
    bytes.length = tokens.length * width := by
  induction tokens generalizing bytes with
  | nil =>
    cases h
    simp
  | cons token tokens ih =>
    obtain ⟨first, rest, hfirst, hrest, rfl⟩ := pack_cons.mp h
    obtain ⟨-, -, rfl⟩ := packItem_eq_some hfirst
    rw [length_append, length_littleBytes, ih hrest, length_cons, Nat.succ_mul, Nat.add_comm]

/-- Lists that pack to the same bytes are the same. -/
theorem pack_inj (hwidth : 0 < width) {tokens tokens' : List Int}
    (h : pack width tokens = some bytes) (h' : pack width tokens' = some bytes) : tokens = tokens' := by
  have hlen : tokens.length = tokens'.length :=
    Nat.eq_of_mul_eq_mul_right hwidth ((length_pack h).symm.trans (length_pack h'))
  induction tokens generalizing tokens' bytes with
  | nil => exact (eq_nil_of_length_eq_zero hlen.symm).symm
  | cons token tokens ih =>
    cases tokens' with
    | nil => simp at hlen
    | cons token' tokens' =>
      obtain ⟨first, rest, hfirst, hrest, rfl⟩ := pack_cons.mp h
      obtain ⟨first', rest', hfirst', hrest', heq⟩ := pack_cons.mp h'
      obtain ⟨hpos, hlt, rfl⟩ := packItem_eq_some hfirst
      obtain ⟨hpos', hlt', rfl⟩ := packItem_eq_some hfirst'
      obtain ⟨hsame, rfl⟩ := append_inj heq (by simp)
      have htoken := littleBytes_inj hlt hlt' hsame
      rw [ih hrest hrest' (by simpa using hlen), show token = token' by omega]

theorem pack_append (width : Nat) (tokens tokens' : List Int) (bytes : List UInt8) :
    pack width (tokens ++ tokens') = some bytes ↔
      ∃ first rest, pack width tokens = some first ∧ pack width tokens' = some rest ∧ bytes = first ++ rest := by
  induction tokens generalizing bytes with
  | nil => simp [pack, eq_comm]
  | cons token tokens ih =>
    rw [cons_append, pack_cons]
    simp only [ih, pack_cons]
    constructor
    · rintro ⟨first, rest, hfirst, ⟨middle, last, hmiddle, hlast, rfl⟩, rfl⟩
      exact ⟨first ++ middle, last, ⟨first, middle, hfirst, hmiddle, rfl⟩, hlast, by simp⟩
    · rintro ⟨_, last, ⟨first, middle, hfirst, hmiddle, rfl⟩, hlast, rfl⟩
      exact ⟨first, middle ++ last, hfirst, ⟨middle, last, hmiddle, hlast, rfl⟩, by simp⟩

end TokenBytes
