import BlackweLLM.ArrayFill
import Mathlib.Data.Nat.Bitwise
import Mathlib.Tactic.IntervalCases

/-!
# The GGUF block formats and their decoders

`loader/gguf_dequant.py` assigns the elements of a block one by one;
`runtime/loading/gguf.py` and `runtime/model/dsv4_quant.py` compute whole columns
and concatenate them. An element is kept as its integer code with its exact
scale and minimum. `half` is the number a pattern of 16 bits stands for.
-/

namespace BlockDecoders

open List

section Elements

variable {R : Type}

abbrev Bytes := Nat → UInt8

def u8 (b : Bytes) (i : Nat) : Nat := (b i).toNat

/-- `struct.unpack("<b")`, `view(torch.int8)` -/
def i8 (b : Bytes) (i : Nat) : Int := if u8 b i < 128 then u8 b i else (u8 b i : Int) - 256

/-- `struct.unpack("<H")`, and a view of two bytes as one 16-bit number -/
def u16 (b : Bytes) (i : Nat) : Nat := u8 b i + 256 * u8 b (i + 1)

def shift (b : Bytes) (start : Nat) : Bytes := fun i => b (start + i)

theorem u8_lt (b : Bytes) (i : Nat) : u8 b i < 256 := UInt8.toNat_lt (b i)

@[simp] theorem u8_shift (b : Bytes) (s i : Nat) : u8 (shift b s) i = u8 b (s + i) := rfl

@[simp] theorem i8_shift (b : Bytes) (s i : Nat) : i8 (shift b s) i = i8 b (s + i) := rfl

@[simp] theorem u16_shift (b : Bytes) (s i : Nat) : u16 (shift b s) i = u16 b (s + i) := rfl

@[simp] theorem shift_shift (b : Bytes) (s t : Nat) : shift (shift b s) t = shift b (s + t) := by
  funext i
  rw [shift, shift, shift, add_assoc]

/-- An element: its value is `scale * code - minimum`. -/
structure Decoded (R : Type) where
  code : Int
  scale : R
  minimum : R

def Decoded.value [Ring R] (x : Decoded R) : R := x.scale * x.code - x.minimum

/-- `fp16_bits_to_fp32`, and the tables of `loader/gguf_quant_tables.py`. -/
structure Tables (R : Type) where
  half : Nat → R
  grid : Nat → Nat
  ksigns : Nat → Nat

def kmask : List Nat := [0x01, 0x02, 0x04, 0x08, 0x10, 0x20, 0x40, 0x80]

/-- The five formats. -/
inductive Format where
  | q8_0
  | q4_K
  | q5_K
  | q6_K
  | iq2_XS
  deriving DecidableEq

def Format.blockBytes : Format → Nat
  | .q8_0 => 34
  | .q4_K => 144
  | .q5_K => 176
  | .q6_K => 210
  | .iq2_XS => 74

def Format.blockElements : Format → Nat
  | .q8_0 => 32
  | _ => 256

end Elements

section Loader

variable {R : Type} [Field R] (tables : Tables R)

def getScaleMinK4 (scales : Bytes) (index : Nat) : Nat × Nat :=
  if index < 4 then (u8 scales index &&& 63, u8 scales (index + 4) &&& 63)
  else (u8 scales (index + 4) &&& 0xF ||| (u8 scales (index - 4) >>> 6) <<< 4,
    u8 scales (index + 4) >>> 4 ||| (u8 scales index >>> 6) <<< 4)

/-- A list of a known length that is assigned element by element. -/
def assigned (stores : List (Nat × Decoded R)) : Nat → Decoded R := ArrayFill.stored (fun _ => ⟨0, 0, 0⟩) stores

def dequantizeQ8_0Block (block : Bytes) (e : Nat) : Decoded R :=
  ⟨i8 (shift block 2) e, tables.half (u16 block 0), 0⟩

def dequantizeQ4_KBlock (block : Bytes) : Nat → Decoded R :=
  let d := tables.half (u16 block 0)
  let dmin := tables.half (u16 block 2)
  let scales := shift block 4
  let qs := shift block 16
  assigned ((range 4).flatMap fun chunk =>
    let (sc0, m0) := getScaleMinK4 scales (2 * chunk)
    let (sc1, m1) := getScaleMinK4 scales (2 * chunk + 1)
    let q := shift qs (32 * chunk)
    let base := 64 * chunk
    (range 32).flatMap fun index =>
      [(base + index, ⟨(u8 q index &&& 0xF : Nat), d * sc0, dmin * m0⟩),
        (base + 32 + index, ⟨(u8 q index >>> 4 : Nat), d * sc1, dmin * m1⟩)])

def dequantizeQ5_KBlock (block : Bytes) : Nat → Decoded R :=
  let d := tables.half (u16 block 0)
  let dmin := tables.half (u16 block 2)
  let scales := shift block 4
  let qh := shift block 16
  let ql := shift block 48
  assigned ((range 4).flatMap fun chunk =>
    let (sc0, m0) := getScaleMinK4 scales (2 * chunk)
    let (sc1, m1) := getScaleMinK4 scales (2 * chunk + 1)
    let lowBit := 1 <<< (2 * chunk)
    let highBit := 2 <<< (2 * chunk)
    let q := shift ql (32 * chunk)
    let base := 64 * chunk
    (range 32).flatMap fun index =>
      let q0 := (u8 q index &&& 0xF) + if u8 qh index &&& lowBit ≠ 0 then 16 else 0
      let q1 := (u8 q index >>> 4) + if u8 qh index &&& highBit ≠ 0 then 16 else 0
      [(base + index, ⟨(q0 : Nat), d * sc0, dmin * m0⟩), (base + 32 + index, ⟨(q1 : Nat), d * sc1, dmin * m1⟩)])

def dequantizeQ6_KBlock (block : Bytes) : Nat → Decoded R :=
  let qh := shift block 128
  let scales := shift block 192
  let d := tables.half (u16 block 208)
  assigned ((range 2).flatMap fun half =>
    let qlHalf := shift block (64 * half)
    let qhHalf := shift qh (32 * half)
    let sc := shift scales (8 * half)
    let base := 128 * half
    (range 32).flatMap fun index =>
      let scaleIndex := index / 16
      let q1 : Int := ((u8 qlHalf index &&& 0xF ||| (u8 qhHalf index &&& 3) <<< 4 : Nat) : Int) - 32
      let q2 : Int := ((u8 qlHalf (index + 32) &&& 0xF ||| ((u8 qhHalf index >>> 2) &&& 3) <<< 4 : Nat) : Int) - 32
      let q3 : Int := ((u8 qlHalf index >>> 4 ||| ((u8 qhHalf index >>> 4) &&& 3) <<< 4 : Nat) : Int) - 32
      let q4 : Int := ((u8 qlHalf (index + 32) >>> 4 ||| ((u8 qhHalf index >>> 6) &&& 3) <<< 4 : Nat) : Int) - 32
      [(base + index, ⟨q1, d * i8 sc (scaleIndex + 0), 0⟩), (base + 32 + index, ⟨q2, d * i8 sc (scaleIndex + 2), 0⟩),
        (base + 64 + index, ⟨q3, d * i8 sc (scaleIndex + 4), 0⟩),
        (base + 96 + index, ⟨q4, d * i8 sc (scaleIndex + 6), 0⟩)])

def dequantizeIq2_XsBlock (block : Bytes) : Nat → Decoded R :=
  let d := tables.half (u16 block 0)
  let scales := shift block 66
  assigned ((range 8).flatMap fun ib32 =>
    let scaleByte := u8 scales ib32
    let db0 := d * (1 / 2 + (scaleByte &&& 0xF : Nat)) * (1 / 4)
    let db1 := d * (1 / 2 + (scaleByte >>> 4 : Nat)) * (1 / 4)
    (range 4).flatMap fun group =>
      let code := u16 block (2 + 2 * (4 * ib32 + group))
      let grid := tables.grid (code &&& 511)
      let signs := tables.ksigns (code >>> 9)
      let delta := if group < 2 then db0 else db1
      let base := 32 * ib32 + 8 * group
      (range 8).map fun j =>
        let magnitude : Int := (grid >>> (8 * j) &&& 0xFF : Nat)
        (base + j, ⟨if signs &&& kmask.getD j 0 ≠ 0 then -magnitude else magnitude, delta, 0⟩))

def dequantizeBlock : Format → Bytes → Nat → Decoded R
  | .q8_0 => dequantizeQ8_0Block tables
  | .q4_K => dequantizeQ4_KBlock tables
  | .q5_K => dequantizeQ5_KBlock tables
  | .q6_K => dequantizeQ6_KBlock tables
  | .iq2_XS => dequantizeIq2_XsBlock tables

/-- `_dequantize_row` and its two siblings: one block after the other. -/
def dequantizeRow (format : Format) (data : Bytes) (blocks : Nat) : List (Decoded R) :=
  (range blocks).flatMap fun i =>
    (range format.blockElements).map (dequantizeBlock tables format (shift data (i * format.blockBytes)))

end Loader

section Columns

variable {R : Type} [Field R] (tables : Tables R)

/-- `torch.cat(parts, dim=1)` of parts of one width, for one row. -/
def catColumns (width : Nat) (parts : List (Nat → Decoded R)) (e : Nat) : Decoded R :=
  parts.getD (e / width) (fun _ => ⟨0, 0, 0⟩) (e % width)

def k4ScalesAndMins (scales : Bytes) : List Nat × List Nat :=
  ((range 8).map fun index => if index < 4 then u8 scales index &&& 63
      else u8 scales (index + 4) &&& 0xF ||| (u8 scales (index - 4) >>> 6) <<< 4,
    (range 8).map fun index => if index < 4 then u8 scales (index + 4) &&& 63
      else u8 scales (index + 4) >>> 4 ||| (u8 scales index >>> 6) <<< 4)

/-- The K4 branch of `dequantize_gguf_packed` for one block; `qh` is there for Q5_K. -/
def k4Columns (block : Bytes) (qlStart : Nat) (qh : Option Bytes) : Nat → Decoded R :=
  let d := tables.half (u16 block 0)
  let dmin := tables.half (u16 block 2)
  let (scales, mins) := k4ScalesAndMins (shift block 4)
  let ql := shift block qlStart
  catColumns 32 ((range 4).flatMap fun chunk =>
    let q := shift ql (32 * chunk)
    let q0 index := (u8 q index &&& 0xF) + match qh with
      | some qh => if u8 qh index &&& (1 <<< (2 * chunk)) ≠ 0 then 16 else 0
      | none => 0
    let q1 index := (u8 q index >>> 4) + match qh with
      | some qh => if u8 qh index &&& (2 <<< (2 * chunk)) ≠ 0 then 16 else 0
      | none => 0
    [fun index => ⟨(q0 index : Nat), d * (scales.getD (2 * chunk) 0 : Nat), dmin * (mins.getD (2 * chunk) 0 : Nat)⟩,
      fun index => ⟨(q1 index : Nat), d * (scales.getD (2 * chunk + 1) 0 : Nat),
        dmin * (mins.getD (2 * chunk + 1) 0 : Nat)⟩])

/-- The Q6_K branch of `dequantize_gguf_packed` for one block. -/
def q6Columns (block : Bytes) : Nat → Decoded R :=
  let d := tables.half (u16 block 208)
  let qh := shift block 128
  let scales := shift block 192
  catColumns 128 ((range 2).map fun half =>
    let low := shift block (64 * half)
    let high := shift qh (32 * half)
    let sc := shift scales (8 * half)
    let q1 index := u8 low index &&& 0xF ||| (u8 high index &&& 3) <<< 4
    let q2 index := u8 low (index + 32) &&& 0xF ||| ((u8 high index >>> 2) &&& 3) <<< 4
    let q3 index := u8 low index >>> 4 ||| ((u8 high index >>> 4) &&& 3) <<< 4
    let q4 index := u8 low (index + 32) >>> 4 ||| ((u8 high index >>> 6) &&& 3) <<< 4
    catColumns 32 [fun index => ⟨(q1 index : Nat) - 32, d * i8 sc (index / 16), 0⟩,
      fun index => ⟨(q2 index : Nat) - 32, d * i8 sc (index / 16 + 2), 0⟩,
      fun index => ⟨(q3 index : Nat) - 32, d * i8 sc (index / 16 + 4), 0⟩,
      fun index => ⟨(q4 index : Nat) - 32, d * i8 sc (index / 16 + 6), 0⟩])

/-- `d[:, None] * qs` for one block. -/
def q8Columns (block : Bytes) (e : Nat) : Decoded R := ⟨i8 (shift block 2) e, tables.half (u16 block 0), 0⟩

def iq2Columns (code : Nat → Nat) (block : Bytes) (e : Nat) : Decoded R :=
  let d := tables.half (u16 block 0)
  let scales := shift block 66
  let codeIdx := e / 8
  let j := e % 8
  let magnitude : Int := (tables.grid (code codeIdx &&& 511) >>> (8 * j) &&& 0xFF : Nat)
  let signed := if tables.ksigns (code codeIdx >>> 9) &&& kmask.getD j 0 ≠ 0 then -magnitude else magnitude
  let db0 ib32 := d * (1 / 2 + (u8 scales ib32 &&& 0xF : Nat)) * (1 / 4)
  let db1 ib32 := d * (1 / 2 + (u8 scales ib32 >>> 4 : Nat)) * (1 / 4)
  ⟨signed, if codeIdx % 4 < 2 then db0 (codeIdx / 4) else db1 (codeIdx / 4), 0⟩

/-- `view(torch.int16).to(torch.int32) & 0xFFFF` -/
def maskedInt16 (b : Bytes) (i : Nat) : Nat :=
  ((if u16 b i < 32768 then (u16 b i : Int) else (u16 b i : Int) - 65536) % 65536).toNat

/-- `dequantize_iq2_xs_packed`, in numpy -/
def numpyIq2 (block : Bytes) : Nat → Decoded R :=
  iq2Columns tables (fun codeIdx => u16 (shift block 2) (2 * codeIdx)) block

/-- `dequantize_iq2_xs`, in torch -/
def torchIq2 (block : Bytes) : Nat → Decoded R :=
  iq2Columns tables (fun codeIdx => maskedInt16 (shift block 2) (2 * codeIdx)) block

def flattened (format : Format) (data : Bytes) (blocks : Nat) (row : Bytes → Nat → Decoded R) : List (Decoded R) :=
  (range blocks).flatMap fun i => (range format.blockElements).map (row (shift data (i * format.blockBytes)))

def dequantizeGgufPacked (format : Format) (packed : Bytes) (blocks : Nat) : List (Decoded R) :=
  flattened format packed blocks fun block => match format with
    | .q8_0 => q8Columns tables block
    | .q4_K => k4Columns tables block 16 none
    | .q5_K => k4Columns tables block 48 (some (shift block 16))
    | .q6_K => q6Columns tables block
    | .iq2_XS => numpyIq2 tables block

/-- The two decoders of `runtime/model/dsv4_quant.py`. -/
def dsv4Quant (format : Format) (packed : Bytes) (blocks : Nat) : Option (List (Decoded R)) :=
  match format with
  | .q8_0 => some (flattened .q8_0 packed blocks (q8Columns tables))
  | .iq2_XS => some (flattened .iq2_XS packed blocks (torchIq2 tables))
  | _ => none

/-- The `dequantize_*_packed` functions of `runtime/loading/gguf.py`; the three K formats go through the
reference rows. -/
def numpyPacked (format : Format) (packed : Bytes) (blocks : Nat) : List (Decoded R) :=
  match format with
  | .q8_0 => flattened .q8_0 packed blocks (q8Columns tables)
  | .iq2_XS => flattened .iq2_XS packed blocks (numpyIq2 tables)
  | format => dequantizeRow tables format packed blocks

end Columns

section Values

variable {R : Type} [Field R] (tables : Tables R)

def kScale (scales : Bytes) (index : Nat) : Nat :=
  if index < 4 then u8 scales index &&& 0x3f
  else u8 scales (index + 4) &&& 0x0f ||| (u8 scales (index - 4) >>> 6) <<< 4

def kMin (scales : Bytes) (index : Nat) : Nat :=
  if index < 4 then u8 scales (index + 4) &&& 0x3f
  else u8 scales (index + 4) >>> 4 ||| (u8 scales index >>> 6) <<< 4

def q4KValue (block : Bytes) (index : Nat) : Decoded R :=
  let chunk := index / 64
  let loc := index % 64
  let nibble := loc / 32
  let qbyte := loc % 32
  let q := (u8 block (16 + chunk * 32 + qbyte) >>> (nibble * 4)) &&& 0x0f
  let scaleIndex := chunk * 2 + nibble
  ⟨(q : Nat), tables.half (u16 block 0) * kScale (shift block 4) scaleIndex,
    tables.half (u16 block 2) * kMin (shift block 4) scaleIndex⟩

def q5KValue (block : Bytes) (index : Nat) : Decoded R :=
  let chunk := index / 64
  let loc := index % 64
  let nibble := loc / 32
  let qbyte := loc % 32
  let highBit := (u8 block (16 + qbyte) >>> (chunk * 2 + nibble)) &&& 1
  let q := ((u8 block (48 + chunk * 32 + qbyte) >>> (nibble * 4)) &&& 0x0f) ||| highBit <<< 4
  let scaleIndex := chunk * 2 + nibble
  ⟨(q : Nat), tables.half (u16 block 0) * kScale (shift block 4) scaleIndex,
    tables.half (u16 block 2) * kMin (shift block 4) scaleIndex⟩

def q6KValueImpl (block : Bytes) (index : Nat) (d : R) : Decoded R :=
  let half := index / 128
  let loc := index % 128
  let group := loc / 32
  let j := loc % 32
  let lowOffset := half * 64 + (group &&& 1) * 32 + j
  let highOffset := half * 32 + j
  let lowShift := if group ≥ 2 then 4 else 0
  let highShift := group * 2
  let q := ((u8 block lowOffset >>> lowShift) &&& 0x0f) ||| ((u8 block (128 + highOffset) >>> highShift) &&& 0x03) <<< 4
  let scaleIndex := half * 8 + group * 2 + j / 16
  ⟨(q : Nat) - 32, d * i8 (shift block 192) scaleIndex, 0⟩

def q8_0ValueImpl (qData : Bytes) (index : Nat) (d : R) : Decoded R := ⟨i8 qData index, d, 0⟩

end Values

section Bits

theorem high_nibble {v : Nat} (h : v < 256) : (v >>> 4) &&& 0xF = v >>> 4 := by
  rw [Nat.shiftRight_eq_div_pow, show 0xF = 2 ^ 4 - 1 from rfl, Nat.and_two_pow_sub_one_eq_mod,
    Nat.mod_eq_of_lt (by omega)]

theorem fifth_bit : ∀ v < 256, ∀ i < 8, (if v &&& 1 <<< i ≠ 0 then 16 else 0) =
    ((v >>> i) &&& 1) <<< 4 := by decide +kernel

theorem add_fifth : ∀ x < 16, ∀ b < 2, x + b <<< 4 = x ||| b <<< 4 := by decide

theorem and_one_lt (v : Nat) : v &&& 1 < 2 := Nat.and_lt_two_pow v (by decide : 1 < 2 ^ 1)

theorem low_nibble_lt (v : Nat) : v &&& 0xF < 16 := Nat.and_lt_two_pow v (by decide : 15 < 2 ^ 4)

end Bits

section Agreement

variable {R : Type} [Field R] (tables : Tables R)
variable {e nibble index : Nat}

theorem getScaleMinK4_eq (scales : Bytes) (index : Nat) :
    getScaleMinK4 scales index = (kScale scales index, kMin scales index) := by
  rw [getScaleMinK4, kScale, kMin]
  split <;> rfl

theorem assigned_eq {stores : List (Nat × Decoded R)} {spec : Nat → Decoded R}
    (hcover : ∃ s ∈ stores, s.1 = e) (h : ∀ s ∈ stores, s.2 = spec s.1) : assigned stores e = spec e :=
  ArrayFill.stored_eq hcover h

theorem chunk_position (chunk : Nat) (hnibble : nibble < 2) (hindex : index < 32) :
    (64 * chunk + 32 * nibble + index) / 64 = chunk ∧ (64 * chunk + 32 * nibble + index) % 64 / 32 = nibble ∧
      (64 * chunk + 32 * nibble + index) % 64 % 32 = index := by
  omega

/-- The two nibbles of every byte are stored 32 elements apart. -/
theorem assigned_pairs {a b : Nat → Nat → Decoded R} {spec : Nat → Decoded R} (he : e < 256)
    (ha : ∀ chunk < 4, ∀ index < 32, spec (64 * chunk + 32 * 0 + index) = a chunk index)
    (hb : ∀ chunk < 4, ∀ index < 32, spec (64 * chunk + 32 * 1 + index) = b chunk index) :
    assigned ((range 4).flatMap fun chunk => (range 32).flatMap fun index =>
      [(64 * chunk + index, a chunk index), (64 * chunk + 32 + index, b chunk index)]) e = spec e := by
  have hchunk : e / 64 < 4 := by omega
  have hindex : e % 32 < 32 := by omega
  apply assigned_eq
  · simp only [mem_flatMap, mem_range]
    by_cases hnibble : e % 64 < 32
    · exact ⟨_, ⟨e / 64, hchunk, e % 32, hindex, mem_cons_self⟩, by dsimp only; omega⟩
    · exact ⟨_, ⟨e / 64, hchunk, e % 32, hindex, mem_cons_of_mem _ mem_cons_self⟩, by dsimp only; omega⟩
  · intro s hs
    simp only [mem_flatMap, mem_range, mem_cons, not_mem_nil, or_false] at hs
    obtain ⟨chunk, hchunk, index, hindex, rfl | rfl⟩ := hs
    · exact (ha chunk hchunk index hindex).symm
    · exact (hb chunk hchunk index hindex).symm

theorem q4KValue_position (block : Bytes) (chunk : Nat) (hnibble : nibble < 2) (hindex : index < 32) :
    q4KValue tables block (64 * chunk + 32 * nibble + index) =
      ⟨((u8 block (16 + (32 * chunk + index)) >>> (nibble * 4)) &&& 0x0f : Nat),
        tables.half (u16 block 0) * kScale (shift block 4) (2 * chunk + nibble),
        tables.half (u16 block 2) * kMin (shift block 4) (2 * chunk + nibble)⟩ := by
  obtain ⟨hdiv, hnib, hloc⟩ := chunk_position chunk hnibble hindex
  have hbyte : 16 + chunk * 32 + index = 16 + (32 * chunk + index) := by omega
  simp only [q4KValue, hdiv, hnib, hloc, hbyte, mul_comm chunk 2]

theorem dequantizeQ4_KBlock_eq (block : Bytes) (he : e < 256) :
    dequantizeQ4_KBlock tables block e = q4KValue tables block e := by
  simp only [dequantizeQ4_KBlock, getScaleMinK4_eq, u8_shift]
  refine assigned_pairs he (fun chunk _ index hindex => ?_) fun chunk _ index hindex => ?_
  · rw [q4KValue_position tables block chunk (by decide : 0 < 2) hindex]
    simp
  · simp [q4KValue_position tables block chunk (by decide : 1 < 2) hindex, high_nibble (u8_lt block _)]

theorem two_shiftLeft (n : Nat) : 2 <<< n = 1 <<< (n + 1) := by
  rw [Nat.shiftLeft_eq, Nat.shiftLeft_eq, pow_succ]
  ring

theorem q5KValue_position (block : Bytes) (chunk : Nat) (hchunk : chunk < 4) (hnibble : nibble < 2)
    (hindex : index < 32) : q5KValue tables block (64 * chunk + 32 * nibble + index) =
      ⟨(((u8 block (48 + (32 * chunk + index)) >>> (nibble * 4)) &&& 0x0f) +
          if u8 block (16 + index) &&& 1 <<< (2 * chunk + nibble) ≠ 0 then 16 else 0 : Nat),
        tables.half (u16 block 0) * kScale (shift block 4) (2 * chunk + nibble),
        tables.half (u16 block 2) * kMin (shift block 4) (2 * chunk + nibble)⟩ := by
  obtain ⟨hdiv, hnib, hloc⟩ := chunk_position chunk hnibble hindex
  have hbit : 2 * chunk + nibble < 8 := by omega
  have hbyte : 48 + chunk * 32 + index = 48 + (32 * chunk + index) := by omega
  simp only [q5KValue, hdiv, hnib, hloc, hbyte, mul_comm chunk 2, fifth_bit _ (u8_lt block _) _ hbit,
    add_fifth _ (low_nibble_lt _) _ (and_one_lt _)]

theorem dequantizeQ5_KBlock_eq (block : Bytes) (he : e < 256) :
    dequantizeQ5_KBlock tables block e = q5KValue tables block e := by
  simp only [dequantizeQ5_KBlock, getScaleMinK4_eq, u8_shift, two_shiftLeft]
  refine assigned_pairs he (fun chunk hchunk index hindex => ?_) fun chunk hchunk index hindex => ?_
  · rw [q5KValue_position tables block chunk hchunk (by decide : 0 < 2) hindex]
    simp only [zero_mul, Nat.shiftRight_zero, add_zero]
    rfl
  · simp [q5KValue_position tables block chunk hchunk (by decide : 1 < 2) hindex, high_nibble (u8_lt block _)]

theorem half_position (half : Nat) {group : Nat} (hgroup : group < 4) (hindex : index < 32) :
    (128 * half + 32 * group + index) / 128 = half ∧ (128 * half + 32 * group + index) % 128 / 32 = group ∧
      (128 * half + 32 * group + index) % 128 % 32 = index := by
  omega

theorem q6KValueImpl_position (block : Bytes) (half : Nat) {group : Nat} (hgroup : group < 4) (hindex : index < 32)
    (d : R) : q6KValueImpl block (128 * half + 32 * group + index) d =
      ⟨(((u8 block (64 * half + (index + group % 2 * 32)) >>> (if group ≥ 2 then 4 else 0)) &&& 0x0f) |||
          ((u8 block (128 + 32 * half + index) >>> (group * 2)) &&& 0x03) <<< 4 : Nat) - 32,
        d * i8 block (192 + 8 * half + (index / 16 + group * 2)), 0⟩ := by
  obtain ⟨hdiv, hgrp, hloc⟩ := half_position half hgroup hindex
  have hlow : half * 64 + group % 2 * 32 + index = 64 * half + (index + group % 2 * 32) := by omega
  have hhigh : 128 + (half * 32 + index) = 128 + 32 * half + index := by omega
  have hscale : 192 + (half * 8 + group * 2 + index / 16) = 192 + 8 * half + (index / 16 + group * 2) := by omega
  simp only [q6KValueImpl, hdiv, hgrp, hloc, Nat.and_one_is_mod, hlow, hhigh, i8_shift, hscale]

theorem dequantizeQ6_KBlock_eq (block : Bytes) (he : e < 256) :
    dequantizeQ6_KBlock tables block e = q6KValueImpl block e (tables.half (u16 block 208)) := by
  have hhalf : e / 128 < 2 := by omega
  have hindex : e % 32 < 32 := by omega
  apply assigned_eq
  · simp only [mem_flatMap, mem_range]
    have hgroup : e % 128 / 32 < 4 := by omega
    interval_cases hg : e % 128 / 32
    · exact ⟨_, ⟨e / 128, hhalf, e % 32, hindex, mem_cons_self⟩, by dsimp only; omega⟩
    · exact ⟨_, ⟨e / 128, hhalf, e % 32, hindex, by simp; exact .inr (.inl rfl)⟩, by dsimp only; omega⟩
    · exact ⟨_, ⟨e / 128, hhalf, e % 32, hindex, by simp; exact .inr (.inr (.inl rfl))⟩, by dsimp only; omega⟩
    · exact ⟨_, ⟨e / 128, hhalf, e % 32, hindex, by simp; exact .inr (.inr (.inr rfl))⟩, by dsimp only; omega⟩
  · intro s hs
    simp only [mem_flatMap, mem_range, mem_cons, not_mem_nil, or_false] at hs
    obtain ⟨half, -, index, hindex, rfl | rfl | rfl | rfl⟩ := hs
    · have hvalue := q6KValueImpl_position block half (by decide : 0 < 4) hindex (tables.half (u16 block 208))
      simpa using hvalue.symm
    · have hvalue := q6KValueImpl_position block half (by decide : 1 < 4) hindex (tables.half (u16 block 208))
      simpa using hvalue.symm
    · have hvalue := q6KValueImpl_position block half (by decide : 2 < 4) hindex (tables.half (u16 block 208))
      simpa [high_nibble (u8_lt block _)] using hvalue.symm
    · have hvalue := q6KValueImpl_position block half (by decide : 3 < 4) hindex (tables.half (u16 block 208))
      simpa [high_nibble (u8_lt block _)] using hvalue.symm

omit [Field R] in
theorem pairs_getElem? {α : Type} (a b : Nat → α) {chunk n : Nat} (hchunk : chunk < n) (hnibble : nibble < 2) :
    ((range n).flatMap fun c => [a c, b c])[2 * chunk + nibble]? = some (if nibble = 0 then a chunk else b chunk) := by
  induction n with
  | zero => omega
  | succ n ih =>
    have hlen : ((range n).flatMap fun c => [a c, b c]).length = 2 * n := by
      simp [length_flatMap, mul_comm]
    rw [range_succ, flatMap_append, getElem?_append, hlen]
    by_cases hlast : chunk < n
    · rw [if_pos (by omega), ih hlast]
    · have hchunk : chunk = n := by omega
      subst hchunk
      rw [if_neg (by omega), Nat.add_sub_cancel_left]
      interval_cases nibble <;> rfl

theorem catColumns_pairs (a b : Nat → Nat → Decoded R) {chunk n : Nat} (hchunk : chunk < n)
    (hnibble : nibble < 2) (hindex : index < 32) :
    catColumns 32 ((range n).flatMap fun c => [a c, b c]) (64 * chunk + 32 * nibble + index) =
      if nibble = 0 then a chunk index else b chunk index := by
  have hdiv : (64 * chunk + 32 * nibble + index) / 32 = 2 * chunk + nibble := by omega
  have hmod : (64 * chunk + 32 * nibble + index) % 32 = index := by omega
  rw [catColumns, hdiv, hmod, getD_eq_getElem?_getD, pairs_getElem? a b hchunk hnibble, Option.getD_some]
  split <;> rfl

theorem k4ScalesAndMins_getD (scales : Bytes) (hindex : index < 8) :
    (k4ScalesAndMins scales).1.getD index 0 = kScale scales index ∧
      (k4ScalesAndMins scales).2.getD index 0 = kMin scales index := by
  rw [k4ScalesAndMins, getD_eq_getElem?_getD, getD_eq_getElem?_getD, getElem?_map, getElem?_map,
    getElem?_range hindex]
  exact ⟨rfl, rfl⟩

theorem chunk_split (he : e < 256) :
    ∃ chunk < 4, ∃ nibble < 2, ∃ index < 32, e = 64 * chunk + 32 * nibble + index :=
  ⟨e / 64, by omega, e % 64 / 32, by omega, e % 32, by omega, by omega⟩

section

variable (block : Bytes) (he : e < 256)
include he

theorem k4Columns_q4 : k4Columns tables block 16 none e = q4KValue tables block e := by
  obtain ⟨chunk, hchunk, nibble, hnibble, index, hindex, rfl⟩ := chunk_split he
  rw [q4KValue_position tables block chunk hnibble hindex]
  simp only [k4Columns]
  rw [catColumns_pairs _ _ hchunk hnibble hindex]
  have hscale := fun n (hn : n < 2) => k4ScalesAndMins_getD (shift block 4) (by omega : 2 * chunk + n < 8)
  interval_cases nibble
  · have h0 := hscale 0 (by decide)
    simp only [add_zero] at h0
    simp only [if_true, h0, u8_shift, zero_mul, Nat.shiftRight_zero, add_zero]
  · have h1 := hscale 1 (by decide)
    simp only [if_neg Nat.one_ne_zero, h1, u8_shift, one_mul, high_nibble (u8_lt block _), add_zero]

theorem k4Columns_q5 : k4Columns tables block 48 (some (shift block 16)) e = q5KValue tables block e := by
  obtain ⟨chunk, hchunk, nibble, hnibble, index, hindex, rfl⟩ := chunk_split he
  rw [q5KValue_position tables block chunk hchunk hnibble hindex]
  simp only [k4Columns]
  rw [catColumns_pairs _ _ hchunk hnibble hindex]
  have hscale := fun n (hn : n < 2) => k4ScalesAndMins_getD (shift block 4) (by omega : 2 * chunk + n < 8)
  interval_cases nibble
  · have h0 := hscale 0 (by decide)
    simp only [add_zero] at h0
    simp only [if_true, h0, u8_shift, zero_mul, Nat.shiftRight_zero, add_zero]
    rfl
  · have h1 := hscale 1 (by decide)
    simp only [if_neg Nat.one_ne_zero, h1, u8_shift, one_mul, high_nibble (u8_lt block _), two_shiftLeft]

theorem q6Columns_eq : q6Columns tables block e = q6KValueImpl block e (tables.half (u16 block 208)) := by
  obtain ⟨half, hhalf, group, hgroup, index, hindex, rfl⟩ :
      ∃ half < 2, ∃ group < 4, ∃ index < 32, e = 128 * half + 32 * group + index :=
    ⟨e / 128, by omega, e % 128 / 32, by omega, e % 32, by omega, by omega⟩
  have hdiv : (128 * half + 32 * group + index) / 128 = half := by omega
  have hmod : (128 * half + 32 * group + index) % 128 = 32 * group + index := by omega
  have hpart : (32 * group + index) / 32 = group := by omega
  have hbyte : (32 * group + index) % 32 = index := by omega
  rw [q6KValueImpl_position block half hgroup hindex]
  simp only [q6Columns]
  rw [catColumns, hdiv, hmod, getD_eq_getElem?_getD, getElem?_map, getElem?_range hhalf, Option.map_some,
    Option.getD_some, catColumns, hpart, hbyte]
  interval_cases group <;> simp [high_nibble (u8_lt block _)]

theorem dequantizeIq2_XsBlock_eq : dequantizeIq2_XsBlock tables block e = numpyIq2 tables block e := by
  apply assigned_eq
  · simp only [mem_flatMap, mem_map, mem_range]
    exact ⟨_, ⟨e / 32, by omega, e % 32 / 8, by omega, e % 8, by omega, rfl⟩, by dsimp only; omega⟩
  · intro s hs
    simp only [mem_flatMap, mem_map, mem_range] at hs
    obtain ⟨ib32, -, group, hgroup, j, hj, rfl⟩ := hs
    have hcode : (32 * ib32 + 8 * group + j) / 8 = 4 * ib32 + group := by omega
    have hbyte : (32 * ib32 + 8 * group + j) % 8 = j := by omega
    have hsub : (4 * ib32 + group) / 4 = ib32 := by omega
    have hmod : (4 * ib32 + group) % 4 = group := by omega
    simp only [numpyIq2, iq2Columns, hcode, hbyte, hsub, hmod, u16_shift]

end

theorem maskedInt16_eq (b : Bytes) (i : Nat) : maskedInt16 b i = u16 b i := by
  have hlow := u8_lt b i
  have hhigh := u8_lt b (i + 1)
  rw [maskedInt16, u16]
  split <;> omega

theorem torchIq2_eq (block : Bytes) : torchIq2 tables block = numpyIq2 tables block := by
  rw [torchIq2, numpyIq2]
  simp only [maskedInt16_eq]

omit [Field R] in
theorem flattened_congr {format : Format} {row row' : Bytes → Nat → Decoded R}
    (h : ∀ block, ∀ e < format.blockElements, row block e = row' block e) (data : Bytes) (blocks : Nat) :
    flattened format data blocks row = flattened format data blocks row' := by
  rw [flattened, flattened]
  apply congrArg flatten
  apply map_congr_left
  intro i _
  apply map_congr_left
  intro e he
  exact h _ e (mem_range.mp he)

theorem dequantizeGgufPacked_eq (format : Format) (packed : Bytes) (blocks : Nat) :
    dequantizeGgufPacked tables format packed blocks = dequantizeRow tables format packed blocks := by
  apply flattened_congr
  intro block e he
  cases format with
  | q8_0 => rfl
  | q4_K => exact (k4Columns_q4 tables block he).trans (dequantizeQ4_KBlock_eq tables block he).symm
  | q5_K => exact (k4Columns_q5 tables block he).trans (dequantizeQ5_KBlock_eq tables block he).symm
  | q6_K => exact (q6Columns_eq tables block he).trans (dequantizeQ6_KBlock_eq tables block he).symm
  | iq2_XS => exact (dequantizeIq2_XsBlock_eq tables block he).symm

theorem dsv4Quant_eq {format : Format} {packed : Bytes} {blocks : Nat} {values : List (Decoded R)}
    (h : dsv4Quant tables format packed blocks = some values) : values = dequantizeRow tables format packed blocks := by
  cases format with
  | q8_0 =>
    obtain rfl := Option.some.inj h
    rfl
  | iq2_XS =>
    obtain rfl := Option.some.inj h
    exact flattened_congr (fun block e he => (congrFun (torchIq2_eq tables block) e).trans
      (dequantizeIq2_XsBlock_eq tables block he).symm) packed blocks
  | q4_K => exact absurd h nofun
  | q5_K => exact absurd h nofun
  | q6_K => exact absurd h nofun

theorem numpyPacked_eq (format : Format) (packed : Bytes) (blocks : Nat) :
    numpyPacked tables format packed blocks = dequantizeRow tables format packed blocks := by
  cases format with
  | q8_0 => rfl
  | q4_K => rfl
  | q5_K => rfl
  | q6_K => rfl
  | iq2_XS => exact dequantizeGgufPacked_eq tables .iq2_XS packed blocks

end Agreement

end BlockDecoders
