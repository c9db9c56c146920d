import BlackweLLM.BlockDecoders
import BlackweLLM.PageRing

/-!
# Storage layouts of packed weights, and the kernels that read them

The repacks of `runtime/model/gguf_linear.py` and `runtime/kernels/gguf_qk_triton.py`
move the bytes of a checkpoint; the Triton tile decoder and `decode_value` of
`gguf_qk_sm120.cu` find an element in what they left. A weight has `n` rows of
`blocks` blocks.
-/

namespace WeightLayouts

open List BlockDecoders

section Repacks

/-- The type names of `_TYPE_IDS`. -/
inductive TypeId where
  | q4_K
  | q5_K
  | q6_K
  | q8_0
  | q6_K_SPLIT
  | q8_0_SPLIT
  deriving DecidableEq

def TypeId.format : TypeId → Format
  | .q4_K => .q4_K
  | .q5_K => .q5_K
  | .q6_K | .q6_K_SPLIT => .q6_K
  | .q8_0 | .q8_0_SPLIT => .q8_0

def TypeId.blockElements : TypeId → Nat
  | .q8_0 | .q8_0_SPLIT => 32
  | _ => 256

def TypeId.dataBlockBytes : TypeId → Nat
  | .q4_K => 144
  | .q5_K => 176
  | .q6_K => 210
  | .q8_0 => 34
  | .q6_K_SPLIT => 208
  | .q8_0_SPLIT => 32

def TypeId.rowBlockBytes : TypeId → Nat
  | .q4_K => 144
  | .q5_K => 176
  | .q6_K | .q6_K_SPLIT => 210
  | .q8_0 | .q8_0_SPLIT => 34

def TypeId.isSplit : TypeId → Bool
  | .q6_K_SPLIT | .q8_0_SPLIT => true
  | _ => false

/-- A split row: the `data` bytes of its blocks, then their 16-bit scales. -/
def splitRows (blocks data dataStart scaleStart : Nat) (source : Bytes) : Bytes := fun a =>
  let row := a / (blocks * (data + 2))
  let j := a % (blocks * (data + 2))
  if j < blocks * data then source ((row * blocks + j / data) * (data + 2) + dataStart + j % data)
  else source ((row * blocks + (j - blocks * data) / 2) * (data + 2) + scaleStart + (j - blocks * data) % 2)

/-- The Q8_0 branch of `_native_q8_storage` -/
def splitQ8_0 (blocks : Nat) (source : Bytes) : Bytes := splitRows blocks 32 2 0 source

def splitQ6_K (blocks : Nat) (source : Bytes) : Bytes := splitRows blocks 208 0 208 source

/-- Its aligned Q6_K branch; `new_empty` leaves the padding as it is. -/
def alignedQ6_K (fresh source : Bytes) : Bytes := fun a =>
  if a % 224 < 210 then source (a / 224 * 210 + a % 224) else fresh a

/-- `interleaved` of `gguf_qk_repack_for_tensor_core`, padded rows included -/
def interleaved (type : TypeId) (n blocks : Nat) (source : Bytes) (row block j : Nat) : UInt8 :=
  if n ≤ row then 0
  else if type.isSplit then
    if j < type.dataBlockBytes then source (row * (blocks * type.rowBlockBytes) + block * type.dataBlockBytes + j)
    else source (row * (blocks * type.rowBlockBytes) + blocks * type.dataBlockBytes + block * 2 + (j - type.dataBlockBytes))
  else source (row * (blocks * type.rowBlockBytes) + block * type.rowBlockBytes + j)

/-- `gguf_qk_repack_for_tensor_core` -/
def tileMajor (type : TypeId) (n blocks blockN : Nat) (source : Bytes) : Bytes := fun a =>
  let j := a % type.rowBlockBytes
  let lane := a / type.rowBlockBytes % blockN
  let block := a / type.rowBlockBytes / blockN % blocks
  let tile := a / type.rowBlockBytes / blockN / blocks
  interleaved type n blocks source (tile * blockN + lane) block j

def rowMajor (type : TypeId) (blocks : Nat) (source : Bytes) : Bytes :=
  match type with
  | .q6_K_SPLIT => splitQ6_K blocks source
  | .q8_0_SPLIT => splitQ8_0 blocks source
  | _ => source

end Repacks

section Kernels

variable {R : Type} [Field R] (tables : Tables R)

/-- The arguments of `_gguf_qk_gemm_kernel` that its decoder reads. -/
structure KernelArgs where
  N : Nat
  K : Nat
  rowBytes : Nat
  type : TypeId
  blockBytes : Nat
  blockN : Nat
  tileMajor : Bool
  tileBytes : Nat

def KernelArgs.rowBase (args : KernelArgs) (pidN columnOffset : Nat) : Nat :=
  if args.tileMajor then pidN * args.tileBytes + columnOffset * args.blockBytes
  else (pidN * args.blockN + columnOffset) * args.rowBytes

def KernelArgs.weightBase (args : KernelArgs) (pidN columnOffset blockIndex : Nat) : Nat :=
  if args.tileMajor then args.rowBase pidN columnOffset + blockIndex * args.blockBytes * args.blockN
  else args.rowBase pidN columnOffset + blockIndex * args.blockBytes

def KernelArgs.dBase (args : KernelArgs) (pidN columnOffset blockIndex : Nat) : Nat :=
  let weightBase := args.weightBase pidN columnOffset blockIndex
  match args.type with
  | .q6_K => weightBase + 208
  | .q6_K_SPLIT => if args.tileMajor then weightBase + 208
    else args.rowBase pidN columnOffset + args.K / args.type.blockElements * 208 + blockIndex * 2
  | .q8_0_SPLIT => if args.tileMajor then weightBase + 32
    else args.rowBase pidN columnOffset + args.K / args.type.blockElements * 32 + blockIndex * 2
  | _ => weightBase

def TypeId.codeOffset : TypeId → Nat
  | .q8_0 => 2
  | _ => 0

/-- `weight` of `_gguf_qk_gemm_kernel`: value `i` of the sub-tile at `k0`, for a column of a program. -/
def weightTile (args : KernelArgs) (packed : Bytes) (pidN columnOffset k0 i : Nat) : Decoded R :=
  let columns := pidN * args.blockN + columnOffset
  let load : Bytes := fun a => if columns < args.N then packed a else 0
  let blockIndex := k0 / args.type.blockElements
  let blockOffset := k0 - blockIndex * args.type.blockElements
  let values := blockOffset + i
  let weightBase := args.weightBase pidN columnOffset blockIndex
  let chunk := values / 64
  let nibble := values % 64 / 32
  let qbyte := values % 64 % 32
  let scaleIndex := chunk * 2 + nibble
  let scaleBytes := weightBase + 4
  let scaleLo := u8 load (scaleBytes + scaleIndex)
  let scaleHi := u8 load (scaleBytes + (scaleIndex + 4))
  let scalePrev := u8 load (scaleBytes + scaleIndex - 4)
  let scale := if scaleIndex < 4 then scaleLo &&& 0x3F else scaleHi &&& 0x0F ||| (scalePrev >>> 6) <<< 4
  let minValue := if scaleIndex < 4 then scaleHi &&& 0x3F else scaleHi >>> 4 ||| (scaleLo >>> 6) <<< 4
  let dBits := u16 load (args.dBase pidN columnOffset blockIndex)
  let dminBits := u8 load (weightBase + 2) ||| u8 load (weightBase + 3) <<< 8
  match args.type with
  | .q4_K =>
    let packedQ := u8 load (weightBase + 16 + chunk * 32 + qbyte)
    let q := (packedQ >>> (nibble * 4)) &&& 0x0F
    ⟨(q : Nat), tables.half dBits * scale, tables.half dminBits * minValue⟩
  | .q5_K =>
    let low := u8 load (weightBase + 48 + chunk * 32 + qbyte)
    let high := u8 load (weightBase + 16 + qbyte)
    let highBit := (high >>> (chunk * 2 + nibble)) &&& 1
    let q := ((low >>> (nibble * 4)) &&& 0x0F) ||| highBit <<< 4
    ⟨(q : Nat), tables.half dBits * scale, tables.half dminBits * minValue⟩
  | .q6_K | .q6_K_SPLIT =>
    let half := values / 128
    let group := values % 128 / 32
    let j := values % 128 % 32
    let lowOffset := half * 64 + (group &&& 1) * 32 + j
    let highOffset := half * 32 + j
    let lowShift := if group ≥ 2 then 4 else 0
    let highShift := group * 2
    let low := u8 load (weightBase + lowOffset)
    let high := u8 load (weightBase + 128 + highOffset)
    let q := ((low >>> lowShift) &&& 0x0F) ||| ((high >>> highShift) &&& 0x03) <<< 4
    let scaleIndex := half * 8 + group * 2 + j / 16
    ⟨(q : Nat) - 32, tables.half dBits * i8 load (weightBase + 192 + scaleIndex), 0⟩
  | .q8_0 | .q8_0_SPLIT =>
    ⟨i8 load (weightBase + args.type.codeOffset + values), tables.half dBits, 0⟩

/-- The launch in `gguf_qk_gemm` -/
def gemmArgs (type : TypeId) (n blocks blockN : Nat) : KernelArgs where
  N := n
  K := blocks * type.blockElements
  rowBytes := blocks * type.rowBlockBytes
  type
  blockBytes := type.dataBlockBytes
  blockN
  tileMajor := false
  tileBytes := 0

/-- The launch in `gguf_qk_gemm_tile_major` -/
def tileMajorArgs (type : TypeId) (n blocks blockN : Nat) : KernelArgs where
  N := n
  K := blocks * type.blockElements
  rowBytes := 0
  type
  blockBytes := type.rowBlockBytes
  blockN
  tileMajor := true
  tileBytes := blocks * type.rowBlockBytes * blockN

/-- The storage types of the CUDA kernels. -/
inductive QuantType where
  | q4K
  | q5K
  | q6K
  | q8_0
  | q6KAligned
  | q6KSplit
  | q8_0Split
  deriving DecidableEq

def QuantType.format : QuantType → Format
  | .q4K => .q4_K
  | .q5K => .q5_K
  | .q6K | .q6KAligned | .q6KSplit => .q6_K
  | .q8_0 | .q8_0Split => .q8_0

def QuantType.blockBytes : QuantType → Nat
  | .q4K => 144
  | .q5K => 176
  | .q6K => 210
  | .q6KAligned => 224
  | .q6KSplit => 208
  | .q8_0Split => 32
  | .q8_0 => 34

/-- `decode_value` of `gguf_qk_sm120.cu`; `row` starts at the row. -/
def decodeValue (row : Bytes) (index rowBytes : Nat) (type : QuantType) : Decoded R :=
  let elements := type.format.blockElements
  let block := index / elements
  let within := index - block * elements
  match type with
  | .q6KSplit =>
    let blocksPerRow := rowBytes / 210
    q6KValueImpl (shift row (block * 208)) within (tables.half (u16 row (blocksPerRow * 208 + block * 2)))
  | .q8_0Split =>
    let blocksPerRow := rowBytes / 34
    q8_0ValueImpl (shift row (block * 32)) within (tables.half (u16 row (blocksPerRow * 32 + block * 2)))
  | type =>
    let payload := shift row (block * type.blockBytes)
    match type.format with
    | .q4_K => q4KValue tables payload within
    | .q5_K => q5KValue tables payload within
    | .q6_K => q6KValueImpl payload within (tables.half (u16 payload 208))
    | _ => q8_0ValueImpl (shift payload 2) within (tables.half (u16 payload 0))

/-- The bytes of a row that the native path passes as its stride. -/
def QuantType.rowBytes (type : QuantType) (blocks : Nat) : Nat :=
  match type with
  | .q6KAligned => blocks * 224
  | type => blocks * type.format.blockBytes

/-- The storage of a type that `_native_q8_storage` makes. -/
def QuantType.storage (type : QuantType) (blocks : Nat) (fresh source : Bytes) : Bytes :=
  match type with
  | .q6KAligned => alignedQ6_K fresh source
  | .q6KSplit => splitQ6_K blocks source
  | .q8_0Split => splitQ8_0 blocks source
  | _ => source

end Kernels

def TypeId.decodeElements : TypeId → Nat
  | .q8_0 | .q8_0_SPLIT => 32
  | _ => 64

/-- `_tensor_core_decode_elements`: the sub-tile, with the number in `QSR_GGUF_TC_DECODE_ELEMENTS` if there is one and the
gate of the narrow Q6 shape. -/
def tensorCoreDecodeElements (value : Option Nat) (q6SmallMDown : Bool) (type : TypeId) (n k : Nat)
    (rows : Option Nat) :
    Nat :=
  if value.any (fun value => [32, 64, 128, 256].contains value && decide (value ≤ type.blockElements)) then value.getD 0
  else if type = .q8_0 ∨ type = .q8_0_SPLIT then type.decodeElements
  else if (type = .q6_K ∨ type = .q6_K_SPLIT) ∧ rows.all (fun rows => decide (rows ≤ 8)) ∧ q6SmallMDown then 128
  else if n ≥ k then type.decodeElements
  else type.blockElements

section Elements

variable {R : Type} [Field R] (tables : Tables R)

/-- The bytes of a block without its 16-bit scale, if that stands apart from them. -/
def dataBytes : Format → Nat
  | .q8_0 => 32
  | .q4_K => 144
  | .q5_K => 176
  | .q6_K => 208
  | .iq2_XS => 74

def dataStart : Format → Nat
  | .q8_0 => 2
  | _ => 0

def scaleStart : Format → Nat
  | .q6_K => 208
  | _ => 0

/-- An element from the bytes of its block and the bits of its scale. -/
def blockValue (format : Format) (data : Bytes) (dBits e : Nat) : Decoded R :=
  match format with
  | .q8_0 => q8_0ValueImpl data e (tables.half dBits)
  | .q4_K => q4KValue tables data e
  | .q5_K => q5KValue tables data e
  | .q6_K => q6KValueImpl data e (tables.half dBits)
  | .iq2_XS => numpyIq2 tables data e

theorem dequantizeBlock_eq (format : Format) (block : Bytes) {e : Nat} (he : e < format.blockElements) :
    dequantizeBlock tables format block e =
      blockValue tables format (shift block (dataStart format)) (u16 block (scaleStart format)) e := by
  have hzero : shift block 0 = block := funext fun i => congrArg block (zero_add i)
  cases format with
  | q8_0 => rfl
  | q4_K => exact (dequantizeQ4_KBlock_eq tables block he).trans (congrArg (fun b => q4KValue tables b e) hzero.symm)
  | q5_K => exact (dequantizeQ5_KBlock_eq tables block he).trans (congrArg (fun b => q5KValue tables b e) hzero.symm)
  | q6_K =>
    exact (dequantizeQ6_KBlock_eq tables block he).trans
      (congrArg (fun b => q6KValueImpl b e (tables.half (u16 block 208))) hzero.symm)
  | iq2_XS => exact (dequantizeIq2_XsBlock_eq tables block he).trans (congrArg (fun b => numpyIq2 tables b e) hzero.symm)

omit [Field R] in
/-- One block after the other. -/
theorem flatMap_getElem? {α : Type} (f : Nat → Nat → α) {m n i e : Nat} (hi : i < n) (he : e < m) :
    ((range n).flatMap fun i => (range m).map (f i))[i * m + e]? = some (f i e) := by
  induction n with
  | zero => omega
  | succ n ih =>
    have hlen : ((range n).flatMap fun i => (range m).map (f i)).length = n * m := by
      simp [length_flatMap]
    rw [range_succ, flatMap_append, getElem?_append, hlen]
    by_cases hlast : i < n
    · have hlt : i * m + e < n * m := by
        calc i * m + e < (i + 1) * m := by rw [Nat.succ_mul]; omega
          _ ≤ n * m := Nat.mul_le_mul_right _ hlast
      rw [if_pos hlt, ih hlast]
    · have hin : i = n := by omega
      subst hin
      rw [if_neg (by omega), Nat.add_sub_cancel_left, flatMap_singleton, getElem?_map, getElem?_range he,
        Option.map_some]

/-- An element of the reference. -/
theorem dequantizeRow_getElem? (format : Format) (data : Bytes) {blocks i e : Nat} (hi : i < blocks)
    (he : e < format.blockElements) : (dequantizeRow tables format data blocks)[i * format.blockElements + e]? =
      some (blockValue tables format (shift data (i * format.blockBytes + dataStart format))
        (u16 data (i * format.blockBytes + scaleStart format)) e) := by
  rw [dequantizeRow, flatMap_getElem? _ hi he, dequantizeBlock_eq tables format _ he, shift_shift, u16_shift]

section Congruence

variable {data data' : Bytes}

omit [Field R] in
theorem u8_congr {i : Nat} (h : data i = data' i) : u8 data i = u8 data' i := congrArg UInt8.toNat h

omit [Field R] in
theorem kScale_congr {index : Nat} (hindex : index < 8) (h : ∀ j < 12, data j = data' j) :
    kScale data index = kScale data' index ∧ kMin data index = kMin data' index := by
  rw [kScale, kScale, kMin, kMin, u8_congr (h index (by omega)), u8_congr (h (index + 4) (by omega)),
    u8_congr (h (index - 4) (by omega))]
  exact ⟨rfl, rfl⟩

omit [Field R] in
/-- The 16 bytes in front of the codes of a K4 block. -/
theorem header_congr {index : Nat} (hindex : index < 8) (h : ∀ j < 16, data j = data' j) :
    u16 data 0 = u16 data' 0 ∧ u16 data 2 = u16 data' 2 ∧ kScale (shift data 4) index = kScale (shift data' 4) index ∧
      kMin (shift data 4) index = kMin (shift data' 4) index := by
  have hscales : ∀ j < 12, shift data 4 j = shift data' 4 j := fun j hj => h (4 + j) (by omega)
  rw [u16, u16, u16, u16, u8_congr (h 0 (by decide)), u8_congr (h 1 (by decide)), u8_congr (h 2 (by decide)),
    u8_congr (h 3 (by decide))]
  exact ⟨rfl, rfl, kScale_congr hindex hscales⟩

/-- An element depends on the bytes of its block only. -/
theorem blockValue_congr {format : Format} (hformat : format ≠ .iq2_XS) {dBits e : Nat} (he : e < format.blockElements)
    (h : ∀ j < dataBytes format, data j = data' j) :
    blockValue tables format data dBits e = blockValue tables format data' dBits e := by
  cases format with
  | q8_0 =>
    have hcode : i8 data e = i8 data' e := by rw [i8, i8, u8_congr (h e he)]
    simp only [blockValue, q8_0ValueImpl, hcode]
  | q4_K =>
    have he : e < 256 := he
    have hheader := header_congr (by omega : e / 64 * 2 + e % 64 / 32 < 8)
      (fun j hj => h j (lt_of_lt_of_le hj (by decide)))
    have hcode : u8 data (16 + e / 64 * 32 + e % 64 % 32) = u8 data' (16 + e / 64 * 32 + e % 64 % 32) :=
      u8_congr (h _ (by rw [dataBytes]; omega))
    simp only [blockValue, q4KValue, hheader, hcode]
  | q5_K =>
    have he : e < 256 := he
    have hheader := header_congr (by omega : e / 64 * 2 + e % 64 / 32 < 8)
      (fun j hj => h j (lt_of_lt_of_le hj (by decide)))
    have hlow : u8 data (48 + e / 64 * 32 + e % 64 % 32) = u8 data' (48 + e / 64 * 32 + e % 64 % 32) :=
      u8_congr (h _ (by rw [dataBytes]; omega))
    have hhigh : u8 data (16 + e % 64 % 32) = u8 data' (16 + e % 64 % 32) := u8_congr (h _ (by rw [dataBytes]; omega))
    simp only [blockValue, q5KValue, hheader, hlow, hhigh]
  | q6_K =>
    have he : e < 256 := he
    have hpair : (e % 128 / 32) &&& 1 < 2 := and_one_lt _
    have hlow : u8 data (e / 128 * 64 + ((e % 128 / 32) &&& 1) * 32 + e % 128 % 32) =
        u8 data' (e / 128 * 64 + ((e % 128 / 32) &&& 1) * 32 + e % 128 % 32) := u8_congr (h _ (by rw [dataBytes]; omega))
    have hhigh : u8 data (128 + (e / 128 * 32 + e % 128 % 32)) = u8 data' (128 + (e / 128 * 32 + e % 128 % 32)) :=
      u8_congr (h _ (by rw [dataBytes]; omega))
    have hscale : i8 (shift data 192) (e / 128 * 8 + e % 128 / 32 * 2 + e % 128 % 32 / 16) =
        i8 (shift data' 192) (e / 128 * 8 + e % 128 / 32 * 2 + e % 128 % 32 / 16) := by
      rw [i8_shift, i8_shift, i8, i8, u8_congr (h _ (by rw [dataBytes]; omega))]
    simp only [blockValue, q6KValueImpl, hlow, hhigh, hscale]
  | iq2_XS => exact absurd rfl hformat

end Congruence

section Tiles

section

omit [Field R]

theorem format_blockElements (type : TypeId) : type.format.blockElements = type.blockElements := by cases type <;> rfl

theorem blockElements_pos (type : TypeId) : 0 < type.blockElements := by cases type <;> decide

theorem kScale_loads (p : Bytes) (base index : Nat) :
    (if index < 4 then u8 p (base + index) &&& 0x3F
      else u8 p (base + (index + 4)) &&& 0x0F ||| (u8 p (base + index - 4) >>> 6) <<< 4) =
      kScale (shift p base) index := by
  rw [kScale]
  split
  · rfl
  · rw [Nat.add_sub_assoc (by omega)]
    rfl

theorem or_shiftLeft_eq (p : Bytes) (a : Nat) : u8 p a ||| u8 p (a + 1) <<< 8 = u16 p a := by
  have hlt : u8 p a < 2 ^ 8 := u8_lt p a
  have hor := Nat.shiftLeft_add_eq_or_of_lt hlt (u8 p (a + 1))
  rw [Nat.lor_comm, ← hor, Nat.shiftLeft_eq, u16]
  omega

theorem dBase_of_k4 {args : KernelArgs} (htype : args.type = .q4_K ∨ args.type = .q5_K)
    (pidN columnOffset block : Nat) :
    args.dBase pidN columnOffset block = args.weightBase pidN columnOffset block := by
  cases htype with
  | inl h => simp only [KernelArgs.dBase, h]
  | inr h => simp only [KernelArgs.dBase, h]

end

/-- The tile decoder reads an element of the block at `weight_base`. -/
theorem weightTile_eq {args : KernelArgs} {packed : Bytes} {pidN columnOffset k0 i : Nat}
    (hcolumn : pidN * args.blockN + columnOffset < args.N) :
    weightTile tables args packed pidN columnOffset k0 i =
      blockValue tables args.type.format
        (shift packed (args.weightBase pidN columnOffset (k0 / args.type.blockElements) + args.type.codeOffset))
        (u16 packed (args.dBase pidN columnOffset (k0 / args.type.blockElements)))
        (k0 % args.type.blockElements + i) := by
  have hload : (fun a => if pidN * args.blockN + columnOffset < args.N then packed a else 0) = packed :=
    funext fun a => if_pos hcolumn
  have hvalues : k0 - k0 / args.type.blockElements * args.type.blockElements = k0 % args.type.blockElements := by
    have hdiv := Nat.div_add_mod' k0 args.type.blockElements
    omega
  have hk4 : args.type = .q4_K ∨ args.type = .q5_K → args.dBase pidN columnOffset (k0 / args.type.blockElements) =
      args.weightBase pidN columnOffset (k0 / args.type.blockElements) := fun h => dBase_of_k4 h _ _ _
  simp only [weightTile, hload, hvalues, kScale_loads, or_shiftLeft_eq]
  generalize args.weightBase pidN columnOffset (k0 / args.type.blockElements) = weightBase at *
  generalize args.dBase pidN columnOffset (k0 / args.type.blockElements) = dBase at *
  generalize k0 % args.type.blockElements + i = values at *
  cases htype : args.type with
  | q4_K =>
    obtain rfl := hk4 (.inl htype)
    simp only [TypeId.format, TypeId.codeOffset, blockValue, q4KValue, u8_shift, u16_shift, shift_shift, add_zero,
      kMin, add_assoc]
  | q5_K =>
    obtain rfl := hk4 (.inr htype)
    simp only [TypeId.format, TypeId.codeOffset, blockValue, q5KValue, u8_shift, u16_shift, shift_shift, add_zero,
      kMin, add_assoc]
  | q6_K =>
    simp only [TypeId.format, TypeId.codeOffset, blockValue, q6KValueImpl, u8_shift, i8_shift, add_zero, add_assoc]
  | q8_0 =>
    simp only [TypeId.format, TypeId.codeOffset, blockValue, q8_0ValueImpl, i8_shift]
  | q6_K_SPLIT =>
    simp only [TypeId.format, TypeId.codeOffset, blockValue, q6KValueImpl, u8_shift, i8_shift, add_zero, add_assoc]
  | q8_0_SPLIT =>
    simp only [TypeId.format, TypeId.codeOffset, blockValue, q8_0ValueImpl, i8_shift]

omit [Field R] in
/-- A sub-tile does not cross a block. -/
theorem decodeElements_dvd (value : Option Nat) (q6SmallMDown : Bool) (type : TypeId) (n k : Nat) (rows : Option Nat) :
    tensorCoreDecodeElements value q6SmallMDown type n k rows ∣ type.blockElements := by
  have hdecode : type.decodeElements ∣ type.blockElements := by cases type <;> decide
  rw [tensorCoreDecodeElements]
  split
  · next hvalue =>
    cases value with
    | none => exact absurd hvalue Bool.false_ne_true
    | some value =>
      obtain ⟨hmem, hle⟩ := Bool.and_eq_true_iff.mp hvalue
      simp only [contains_iff_mem, mem_cons, not_mem_nil, or_false] at hmem
      have hle := of_decide_eq_true hle
      rw [Option.getD_some]
      obtain rfl | rfl | rfl | rfl := hmem <;> revert hle <;> cases type <;> decide
  · split
    · exact hdecode
    · split
      · next hq6 =>
        obtain ⟨rfl | rfl, -⟩ := hq6 <;> decide
      · split
        · exact hdecode
        · exact dvd_rfl

omit [Field R] in
theorem subtile_lt {size decode t i : Nat} (hsize : 0 < size) (hdvd : decode ∣ size) (hi : i < decode) :
    decode * t % size + i < size := by
  obtain ⟨m, rfl⟩ := hdvd
  have hm : 0 < m := Nat.pos_of_mul_pos_left hsize
  rw [Nat.mul_mod_mul_left]
  calc decode * (t % m) + i < decode * (t % m + 1) := by rw [Nat.mul_succ]; omega
    _ ≤ decode * m := Nat.mul_le_mul_left _ (Nat.mod_lt _ hm)

/-- In a storage, the bytes of a block of the checkpoint are from `dataAt` on and its scale is at `dAt`. -/
structure Places (format : Format) (storage payload : Bytes) (dataAt dAt blockAt : Nat) : Prop where
  data : ∀ j < dataBytes format, storage (dataAt + j) = payload (blockAt + dataStart format + j)
  scale : ∀ t < 2, storage (dAt + t) = payload (blockAt + scaleStart format + t)

theorem Places.blockValue {format : Format} {storage payload : Bytes} {dataAt dAt blockAt e : Nat}
    (h : Places format storage payload dataAt dAt blockAt) (hformat : format ≠ .iq2_XS)
    (he : e < format.blockElements) :
    blockValue tables format (shift storage dataAt) (u16 storage dAt) e =
      blockValue tables format (shift payload (blockAt + dataStart format))
        (u16 payload (blockAt + scaleStart format)) e := by
  have hscale : u16 storage dAt = u16 payload (blockAt + scaleStart format) := by
    have h0 : u8 storage dAt = u8 payload (blockAt + scaleStart format) := congrArg UInt8.toNat (h.scale 0 (by decide))
    have h1 : u8 storage (dAt + 1) = u8 payload (blockAt + scaleStart format + 1) :=
      congrArg UInt8.toNat (h.scale 1 (by decide))
    rw [u16, u16, h0, h1]
  rw [hscale]
  exact blockValue_congr tables hformat he h.data

end Tiles

section Layouts

variable {payload : Bytes} {blocks row block : Nat}

section

omit [Field R]

theorem splitRows_data (data dataStart scaleStart : Nat) (hblock : block < blocks) {j : Nat} (hj : j < data) :
    splitRows blocks data dataStart scaleStart payload (row * (blocks * (data + 2)) + block * data + j) =
      payload ((row * blocks + block) * (data + 2) + dataStart + j) := by
  have hdata : block * data + j < blocks * data := by
    calc block * data + j < (block + 1) * data := by rw [Nat.succ_mul]; omega
      _ ≤ blocks * data := Nat.mul_le_mul_right _ hblock
  have hrow : block * data + j < blocks * (data + 2) :=
    lt_of_lt_of_le hdata (Nat.mul_le_mul_left _ (Nat.le_add_right _ _))
  have hmod : (row * (blocks * (data + 2)) + (block * data + j)) % (blocks * (data + 2)) = block * data + j := by
    rw [Nat.mul_add_mod_self_right, Nat.mod_eq_of_lt hrow]
  have hbyte : (block * data + j) % data = j := by rw [Nat.mul_add_mod_self_right, Nat.mod_eq_of_lt hj]
  rw [splitRows, add_assoc, PageRing.mul_add_div hrow, hmod, if_pos hdata, PageRing.mul_add_div hj, hbyte]

theorem splitRows_scale (data dataStart scaleStart : Nat) (hblock : block < blocks) {t : Nat} (ht : t < 2) :
    splitRows blocks data dataStart scaleStart payload (row * (blocks * (data + 2)) + blocks * data + block * 2 + t) =
      payload ((row * blocks + block) * (data + 2) + scaleStart + t) := by
  have hrow : blocks * data + block * 2 + t < blocks * (data + 2) := by
    rw [mul_add]
    omega
  have hmod : (row * (blocks * (data + 2)) + (blocks * data + block * 2 + t)) % (blocks * (data + 2)) =
      blocks * data + block * 2 + t := by rw [Nat.mul_add_mod_self_right, Nat.mod_eq_of_lt hrow]
  have haddr : row * (blocks * (data + 2)) + blocks * data + block * 2 + t =
      row * (blocks * (data + 2)) + (blocks * data + block * 2 + t) := by omega
  have htail : blocks * data + block * 2 + t - blocks * data = block * 2 + t := by omega
  have hbit : (block * 2 + t) % 2 = t := by omega
  rw [splitRows, haddr, PageRing.mul_add_div hrow, hmod, if_neg (by omega), htail, PageRing.mul_add_div ht, hbit]

/-- The repack puts the lanes of a tile next to each other. -/
theorem tileMajor_eq {type : TypeId} {n blocks blockN pidN columnOffset block j : Nat} {source : Bytes}
    (hcolumn : columnOffset < blockN) (hblock : block < blocks) (hj : j < type.rowBlockBytes) :
    tileMajor type n blocks blockN source
      (pidN * (blocks * type.rowBlockBytes * blockN) + columnOffset * type.rowBlockBytes + block * type.rowBlockBytes * blockN + j) =
    interleaved type n blocks source (pidN * blockN + columnOffset) block j := by
  have haddr : pidN * (blocks * type.rowBlockBytes * blockN) + columnOffset * type.rowBlockBytes +
      block * type.rowBlockBytes * blockN + j = ((pidN * blocks + block) * blockN + columnOffset) * type.rowBlockBytes + j := by
    ring
  have hbyte : (((pidN * blocks + block) * blockN + columnOffset) * type.rowBlockBytes + j) % type.rowBlockBytes = j := by
    rw [Nat.mul_add_mod_self_right, Nat.mod_eq_of_lt hj]
  have hlane : ((pidN * blocks + block) * blockN + columnOffset) % blockN = columnOffset := by
    rw [Nat.mul_add_mod_self_right, Nat.mod_eq_of_lt hcolumn]
  have hmod : (pidN * blocks + block) % blocks = block := by rw [Nat.mul_add_mod_self_right, Nat.mod_eq_of_lt hblock]
  rw [haddr, tileMajor, hbyte, PageRing.mul_add_div hj, hlane, PageRing.mul_add_div hcolumn, hmod,
    PageRing.mul_add_div hblock]

theorem places_rowMajor (type : TypeId) (n blockN pidN columnOffset : Nat) (hblock : block < blocks) :
    Places type.format (rowMajor type blocks payload) payload
      ((gemmArgs type n blocks blockN).weightBase pidN columnOffset block + type.codeOffset)
      ((gemmArgs type n blocks blockN).dBase pidN columnOffset block)
      (((pidN * blockN + columnOffset) * blocks + block) * type.format.blockBytes) := by
  have hstride : ∀ size : Nat, (pidN * blockN + columnOffset) * (blocks * size) + block * size =
      ((pidN * blockN + columnOffset) * blocks + block) * size := fun size => by ring
  have hplain : ∀ size start j : Nat, payload ((pidN * blockN + columnOffset) * (blocks * size) + block * size + start + j) =
      payload (((pidN * blockN + columnOffset) * blocks + block) * size + start + j) :=
        fun size start j => by rw [hstride]
  have hcount : ∀ type' : TypeId, blocks * type'.blockElements / type'.blockElements = blocks := fun type' =>
    Nat.mul_div_cancel _ (blockElements_pos type')
  cases type with
  | q4_K => exact ⟨fun j _ => hplain 144 0 j, fun t _ => hplain 144 0 t⟩
  | q5_K => exact ⟨fun j _ => hplain 176 0 j, fun t _ => hplain 176 0 t⟩
  | q6_K => exact ⟨fun j _ => hplain 210 0 j, fun t _ => hplain 210 208 t⟩
  | q8_0 => exact ⟨fun j _ => hplain 34 2 j, fun t _ => hplain 34 0 t⟩
  | q6_K_SPLIT =>
    constructor
    · intro j hj
      exact splitRows_data 208 0 208 hblock hj
    · intro t ht
      simp only [gemmArgs, KernelArgs.dBase, KernelArgs.rowBase, hcount, Bool.false_eq_true, if_false]
      exact splitRows_scale 208 0 208 hblock ht
  | q8_0_SPLIT =>
    constructor
    · intro j hj
      exact splitRows_data 32 2 0 hblock hj
    · intro t ht
      simp only [gemmArgs, KernelArgs.dBase, KernelArgs.rowBase, hcount, Bool.false_eq_true, if_false]
      exact splitRows_scale 32 2 0 hblock ht

end

section Interleaved

variable {type : TypeId} {n j : Nat}

omit [Field R] in
theorem interleaved_plain (htype : type.isSplit = false) (hrow : row < n) :
    interleaved type n blocks payload row block j = payload ((row * blocks + block) * type.rowBlockBytes + j) := by
  have hstride : row * (blocks * type.rowBlockBytes) + block * type.rowBlockBytes =
      (row * blocks + block) * type.rowBlockBytes := by
    ring
  rw [interleaved, if_neg (by omega), htype, if_neg Bool.false_ne_true, hstride]

omit [Field R] in
theorem interleaved_data (htype : type.isSplit = true) (hrow : row < n) (hj : j < type.dataBlockBytes) :
    interleaved type n blocks payload row block j =
      payload (row * (blocks * type.rowBlockBytes) + block * type.dataBlockBytes + j) := by
  rw [interleaved, if_neg (by omega), htype, if_pos rfl, if_pos hj]

omit [Field R] in
theorem interleaved_scale (htype : type.isSplit = true) (hrow : row < n) (t : Nat) :
    interleaved type n blocks payload row block (type.dataBlockBytes + t) =
      payload (row * (blocks * type.rowBlockBytes) + blocks * type.dataBlockBytes + block * 2 + t) := by
  rw [interleaved, if_neg (by omega), htype, if_pos rfl, if_neg (by omega), Nat.add_sub_cancel_left]

end Interleaved

omit [Field R] in
/-- A tile-major repack of a row-major payload, as the launch addresses it. -/
theorem places_tileMajor (type : TypeId) {n blockN pidN columnOffset : Nat} (hcolumn : columnOffset < blockN)
    (hrow : pidN * blockN + columnOffset < n) (hblock : block < blocks) :
    Places type.format (tileMajor type n blocks blockN (rowMajor type blocks payload)) payload
      ((tileMajorArgs type n blocks blockN).weightBase pidN columnOffset block + type.codeOffset)
      ((tileMajorArgs type n blocks blockN).dBase pidN columnOffset block)
      (((pidN * blockN + columnOffset) * blocks + block) * type.format.blockBytes) := by
  have hcell : ∀ (source : Bytes) {j : Nat}, j < type.rowBlockBytes →
      tileMajor type n blocks blockN source ((tileMajorArgs type n blocks blockN).weightBase pidN columnOffset block + j) =
        interleaved type n blocks source (pidN * blockN + columnOffset) block j := fun source _ hj =>
    tileMajor_eq hcolumn hblock hj
  have hplain : type.isSplit = false → ∀ start j, start + j < type.rowBlockBytes →
      tileMajor type n blocks blockN payload
        ((tileMajorArgs type n blocks blockN).weightBase pidN columnOffset block + start + j) =
          payload (((pidN * blockN + columnOffset) * blocks + block) * type.rowBlockBytes + start + j) := by
    intro htype start j hj
    rw [add_assoc, hcell payload hj, interleaved_plain htype hrow, add_assoc]
  cases type with
  | q4_K =>
    exact ⟨fun j hj => hplain rfl 0 j (by rwa [zero_add]),
      fun t ht => hplain rfl 0 t (lt_trans (by omega) (by decide : 2 < 144))⟩
  | q5_K =>
    exact ⟨fun j hj => hplain rfl 0 j (by rwa [zero_add]),
      fun t ht => hplain rfl 0 t (lt_trans (by omega) (by decide : 2 < 176))⟩
  | q6_K =>
    exact ⟨fun j hj => hplain rfl 0 j (lt_trans (by rwa [zero_add]) (by decide : 208 < 210)),
      fun t ht => hplain rfl 208 t (Nat.add_lt_add_left ht 208)⟩
  | q8_0 =>
    exact ⟨fun j hj => hplain rfl 2 j (Nat.add_lt_add_left hj 2),
      fun t ht => hplain rfl 0 t (lt_trans (by omega) (by decide : 2 < 34))⟩
  | q6_K_SPLIT =>
    constructor
    · intro j hj
      exact ((hcell _ (lt_trans hj (by decide))).trans (interleaved_data rfl hrow hj)).trans
        (splitRows_data 208 0 208 hblock hj)
    · intro t ht
      exact (((congrArg _ (add_assoc _ 208 t)).trans (hcell _ (Nat.add_lt_add_left ht 208))).trans
        (interleaved_scale rfl hrow t)).trans (splitRows_scale 208 0 208 hblock ht)
  | q8_0_SPLIT =>
    constructor
    · intro j hj
      exact ((hcell _ (lt_trans hj (by decide))).trans (interleaved_data rfl hrow hj)).trans
        (splitRows_data 32 2 0 hblock hj)
    · intro t ht
      exact (((congrArg _ (add_assoc _ 32 t)).trans (hcell _ (Nat.add_lt_add_left ht 32))).trans
        (interleaved_scale rfl hrow t)).trans (splitRows_scale 32 2 0 hblock ht)

end Layouts

section Agreement

/-- A launch of the tile decoder over a storage reads the elements of the checkpoint. -/
theorem weightTile_of_places {args : KernelArgs} {storage payload : Bytes} {n blocks pidN columnOffset decode t i : Nat}
    (hcolumn : pidN * args.blockN + columnOffset < args.N) (hrow : pidN * args.blockN + columnOffset < n)
    (hplaces : ∀ block < blocks, Places args.type.format storage payload
      (args.weightBase pidN columnOffset block + args.type.codeOffset) (args.dBase pidN columnOffset block)
      (((pidN * args.blockN + columnOffset) * blocks + block) * args.type.format.blockBytes))
    (hdvd : decode ∣ args.type.blockElements) (hi : i < decode) (ht : decode * t < blocks * args.type.blockElements) :
    some (weightTile tables args storage pidN columnOffset (decode * t) i) =
      (dequantizeRow tables args.type.format payload (n * blocks))[(pidN * args.blockN + columnOffset) *
        (blocks * args.type.blockElements) + (decode * t + i)]? := by
  have hformat : args.type.format ≠ .iq2_XS := by cases args.type <;> decide
  have hpos := blockElements_pos args.type
  have hblock : decode * t / args.type.blockElements < blocks := Nat.div_lt_of_lt_mul (lt_of_lt_of_eq ht (mul_comm _ _))
  have helement := subtile_lt (t := t) hpos hdvd hi
  have hindex : (pidN * args.blockN + columnOffset) * (blocks * args.type.blockElements) + (decode * t + i) =
      ((pidN * args.blockN + columnOffset) * blocks + decode * t / args.type.blockElements) * args.type.blockElements +
        (decode * t % args.type.blockElements + i) := by
    have hdiv := Nat.div_add_mod' (decode * t) args.type.blockElements
    calc (pidN * args.blockN + columnOffset) * (blocks * args.type.blockElements) + (decode * t + i)
        = (pidN * args.blockN + columnOffset) * (blocks * args.type.blockElements) +
          (decode * t / args.type.blockElements * args.type.blockElements + decode * t % args.type.blockElements + i) := by
            rw [hdiv]
      _ = _ := by ring
  have hwhole : (pidN * args.blockN + columnOffset) * blocks + decode * t / args.type.blockElements < n * blocks := by
    calc (pidN * args.blockN + columnOffset) * blocks + decode * t / args.type.blockElements
        < (pidN * args.blockN + columnOffset + 1) * blocks := by rw [Nat.succ_mul]; omega
      _ ≤ n * blocks := Nat.mul_le_mul_right _ hrow
  have helement' : decode * t % args.type.blockElements + i < args.type.format.blockElements := by
    rwa [format_blockElements]
  have href := dequantizeRow_getElem? tables args.type.format payload hwhole helement'
  rw [format_blockElements] at href
  rw [hindex, href, weightTile_eq tables hcolumn]
  exact congrArg some ((hplaces _ hblock).blockValue tables hformat helement')

omit [Field R] in
theorem alignedQ6_K_eq (fresh source : Bytes) (cell : Nat) {j : Nat} (hj : j < 210) :
    alignedQ6_K fresh source (cell * 224 + j) = source (cell * 210 + j) := by
  have hbyte : (cell * 224 + j) % 224 = j := by omega
  have hcell : (cell * 224 + j) / 224 = cell := by omega
  rw [alignedQ6_K, hbyte, hcell, if_pos hj]

/-- `decode_value` reads the elements of the checkpoint, whatever the storage. -/
theorem decodeValue_eq (type : QuantType) (fresh payload : Bytes) (row : Nat) {blocks index : Nat}
    (hindex : index / type.format.blockElements < blocks)
    (he : index % type.format.blockElements < type.format.blockElements) :
    decodeValue tables (shift (type.storage blocks fresh payload) (row * type.rowBytes blocks)) index
      (type.rowBytes blocks) type =
      blockValue tables type.format
        (shift payload ((row * blocks + index / type.format.blockElements) * type.format.blockBytes + dataStart type.format))
        (u16 payload ((row * blocks + index / type.format.blockElements) * type.format.blockBytes + scaleStart type.format))
        (index % type.format.blockElements) := by
  have hwithin : index - index / type.format.blockElements * type.format.blockElements =
      index % type.format.blockElements := by
    have hdiv := Nat.div_add_mod' index type.format.blockElements
    omega
  have hstride : ∀ size block start : Nat, row * (blocks * size) + (block * size + start) =
      (row * blocks + block) * size + start :=
    fun size block start => by ring
  have hsplit : ∀ size : Nat, 0 < size → blocks * size / size = blocks := fun size hsize => Nat.mul_div_cancel _ hsize
  simp only [decodeValue, hwithin]
  generalize index / type.format.blockElements = block at *
  generalize index % type.format.blockElements = e at *
  cases type with
  | q4K =>
    have hblock := hstride 144 block 0
    simp only [add_zero] at hblock
    simp only [QuantType.format, QuantType.storage, QuantType.rowBytes, QuantType.blockBytes, Format.blockBytes,
      blockValue, dataStart, shift_shift, hblock, add_zero]
  | q5K =>
    have hblock := hstride 176 block 0
    simp only [add_zero] at hblock
    simp only [QuantType.format, QuantType.storage, QuantType.rowBytes, QuantType.blockBytes, Format.blockBytes,
      blockValue, dataStart, shift_shift, hblock, add_zero]
  | q6K =>
    have hblock := hstride 210 block 0
    simp only [add_zero] at hblock
    simp only [QuantType.format, QuantType.storage, QuantType.rowBytes, QuantType.blockBytes, Format.blockBytes,
      blockValue, dataStart, scaleStart, shift_shift, u16_shift, hblock, add_zero]
  | q8_0 =>
    have hblock := hstride 34 block 0
    simp only [add_zero] at hblock
    simp only [QuantType.format, QuantType.storage, QuantType.rowBytes, QuantType.blockBytes, Format.blockBytes,
      blockValue, dataStart, scaleStart, shift_shift, u16_shift, hblock, add_zero]
  | q6KAligned =>
    have hplaces : Places .q6_K (alignedQ6_K fresh payload) payload ((row * blocks + block) * 224)
        ((row * blocks + block) * 224 + 208) ((row * blocks + block) * 210) := by
      constructor
      · intro j hj
        exact alignedQ6_K_eq fresh payload _ (lt_trans hj (by decide))
      · intro t ht
        rw [add_assoc, alignedQ6_K_eq fresh payload _ (Nat.add_lt_add_left ht 208), add_assoc]
        rfl
    have hblock := hstride 224 block 0
    simp only [add_zero] at hblock
    simp only [QuantType.format, QuantType.storage, QuantType.rowBytes, QuantType.blockBytes, shift_shift,
      u16_shift, hblock]
    exact hplaces.blockValue tables (by decide) he
  | q6KSplit =>
    have hplaces : Places .q6_K (splitQ6_K blocks payload) payload (row * (blocks * 210) + block * 208)
        (row * (blocks * 210) + (blocks * 208 + block * 2)) ((row * blocks + block) * 210) := by
      constructor
      · intro j hj
        exact splitRows_data 208 0 208 hindex hj
      · intro t ht
        rw [← add_assoc]
        exact splitRows_scale 208 0 208 hindex ht
    simp only [QuantType.storage, QuantType.rowBytes, QuantType.format, Format.blockBytes, shift_shift, u16_shift,
      hsplit 210 (by decide)]
    exact hplaces.blockValue tables (by decide) he
  | q8_0Split =>
    have hplaces : Places .q8_0 (splitQ8_0 blocks payload) payload (row * (blocks * 34) + block * 32)
        (row * (blocks * 34) + (blocks * 32 + block * 2)) ((row * blocks + block) * 34) := by
      constructor
      · intro j hj
        exact splitRows_data 32 2 0 hindex hj
      · intro t ht
        rw [← add_assoc]
        exact splitRows_scale 32 2 0 hindex ht
    simp only [QuantType.storage, QuantType.rowBytes, QuantType.format, Format.blockBytes, shift_shift, u16_shift,
      hsplit 34 (by decide)]
    exact hplaces.blockValue tables (by decide) he

end Agreement

end Elements

end WeightLayouts
