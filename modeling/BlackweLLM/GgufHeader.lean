import BlackweLLM.ByteCursor
import BlackweLLM.OrderedDict
import BlackweLLM.TokenBytes
import BlackweLLM.Utf8Text
import Mathlib.Order.Bounds.Basic

/-!
# The GGUF header reader

`loader/gguf_header.py` over the bytes of a file: the metadata and the tensor
index are read, the payloads are not. A float is the pattern of its bits.
-/

namespace GgufHeader

open List ByteCursor TokenBytes

abbrev Text := List Char

def maxKvCount : Nat := 4096
def maxTensorCount : Nat := 1000000
def maxNameLength : Nat := 4096
def maxStringValueLength : Nat := 1000000
def maxArrayLength : Nat := 4000000

/-- The value types of fixed width. -/
inductive ScalarType where
  | u8 | i8 | u16 | i16 | u32 | i32 | f32 | bool | u64 | i64 | f64
  deriving DecidableEq, Repr

def kvString : Nat := 8
def kvArray : Nat := 9

namespace ScalarType

def id : ScalarType → Nat
  | u8 => 0 | i8 => 1 | u16 => 2 | i16 => 3 | u32 => 4 | i32 => 5 | f32 => 6 | bool => 7 | u64 => 10 | i64 => 11 | f64 => 12

/-- `_SCALAR_FORMATS` and `_ARRAY_ELEMENT_FORMATS`, which agree. -/
def ofId (typeId : Nat) : Option ScalarType :=
  [u8, i8, u16, i16, u32, i32, f32, bool, u64, i64, f64].find? fun t => t.id == typeId

def width : ScalarType → Nat
  | u8 | i8 | bool => 1
  | u16 | i16 => 2
  | u32 | i32 | f32 => 4
  | u64 | i64 | f64 => 8

end ScalarType

/-- A scalar or a string as Python has it. -/
inductive Item where
  | int (n : Int)
  | float (width bits : Nat)
  | bool (b : Bool)
  | str (s : Text)
  deriving DecidableEq, Repr

inductive Value where
  | item (x : Item)
  | array (xs : List Item)
  deriving DecidableEq, Repr

/-- `GgufHeaderError`, with what its text names besides the path. -/
inductive HeaderError where
  | truncated (wanted offset got : Nat)
  | stringLength (length : Nat)
  | scalarType (typeId : Nat)
  | arrayLength (count : Nat)
  | elementType (typeId : Nat)
  | notGguf
  | version (version : Nat)
  | counts (tensors kv : Nat)
  | nDims (name : Text) (n : Nat)
  | alignment (value : Value)
  deriving DecidableEq, Repr

structure TensorInfo where
  name : Text
  dims : List Nat
  typeId : Nat
  offset : Nat
  deriving DecidableEq, Repr

structure Header where
  version : Nat
  kv : OrderedDict Text Value
  tensors : List TensorInfo
  headerEnd : Nat
  dataStart : Nat

section Source

abbrev HeaderReader (A : Type) := Reader HeaderError A

def take (count : Nat) : HeaderReader (List UInt8) := ByteCursor.take .truncated count

/-- `struct.unpack` of an unsigned number; bytes of another length are a `struct.error`. -/
def unpackUnsigned (width : Nat) (data : List UInt8) : HeaderReader Nat :=
  if data.length = width then pure (littleNat data) else throw .foreign

def unsigned (width : Nat) : HeaderReader Nat := do unpackUnsigned width (← take width)

def u32 : HeaderReader Nat := unsigned 4

def u64 : HeaderReader Nat := unsigned 8

def string (maxLength : Nat) : HeaderReader Text := do
  let length ← u64
  if length > maxLength then refuse (.stringLength length)
  else do
    let data ← take length
    pure (Utf8Text.decode data)

def toSigned (width n : Nat) : Int := if 2 * n < 256 ^ width then n else (n : Int) - (256 ^ width : Nat)

def ScalarType.decode (t : ScalarType) (data : List UInt8) : Item :=
  match t with
  | u8 | u16 | u32 | u64 => .int (littleNat data)
  | i8 | i16 | i32 | i64 => .int (toSigned t.width (littleNat data))
  | f32 | f64 => .float t.width (littleNat data)
  | bool => .bool (littleNat data != 0)

/-- `count` numbers of one width, one behind the other. -/
def decodeMany (t : ScalarType) : Nat → List UInt8 → List Item
  | 0, _ => []
  | count + 1, data => t.decode (data.take t.width) :: decodeMany t count (data.drop t.width)

/-- `list(struct.unpack(f"<{count}...", data))` -/
def unpackMany (t : ScalarType) (count : Nat) (data : List UInt8) : HeaderReader (List Item) :=
  if data.length = t.width * count then pure (decodeMany t count data) else throw .foreign

/-- `struct.unpack(fmt, data)[0]` -/
def unpackOne (t : ScalarType) (data : List UInt8) : HeaderReader Item :=
  if data.length = t.width then pure (t.decode data) else throw .foreign

def scalar (typeId : Nat) : HeaderReader Item :=
  match ScalarType.ofId typeId with
  | none => refuse (.scalarType typeId)
  | some t => do unpackOne t (← take t.width)

def stringItem : HeaderReader Item := do
  let s ← string maxStringValueLength
  pure (.str s)

def array : HeaderReader Value := do
  let elemType ← u32
  let count ← u64
  if count > maxArrayLength then refuse (.arrayLength count)
  else if elemType = kvString then do
    let xs ← repeatRead stringItem count
    pure (.array xs)
  else
    match ScalarType.ofId elemType with
    | none => refuse (.elementType elemType)
    | some t => do
      let xs ← take (t.width * count) >>= unpackMany t count
      pure (.array xs)

def value : HeaderReader Value := do
  let typeId ← u32
  if typeId = kvString then do
    let x ← stringItem
    pure (.item x)
  else if typeId = kvArray then array
  else do
    let x ← scalar typeId
    pure (.item x)

def keyValue : HeaderReader (Text × Value) := do
  let key ← string maxNameLength
  let v ← value
  pure (key, v)

def tensorInfo : HeaderReader TensorInfo := do
  let name ← string maxNameLength
  let nDims ← u32
  if ¬ (0 < nDims ∧ nDims ≤ 8) then refuse (.nDims name nDims)
  else do
    let dims ← repeatRead u64 nDims
    let typeId ← u32
    let offset ← u64
    pure ⟨name, dims, typeId, offset⟩

def magic : List UInt8 := [0x47, 0x47, 0x55, 0x46]

/-- The body of the `with` block. -/
def index : HeaderReader (OrderedDict Text Value × List TensorInfo) := do
  let start ← take 4
  if start ≠ magic then refuse .notGguf
  else do
    let version ← u32
    if version ≠ 3 then refuse (.version version)
    else do
      let tensorCount ← u64
      let kvCount ← u64
      if tensorCount > maxTensorCount ∨ kvCount > maxKvCount then refuse (.counts tensorCount kvCount)
      else do
        let pairs ← repeatRead keyValue kvCount
        let tensors ← repeatRead tensorInfo tensorCount
        pure (OrderedDict.empty.update pairs, tensors)

def alignmentKey : Text := "general.alignment".toList

/-- The alignment of the data; a `bool` is an `int`. -/
def alignmentOf (kv : OrderedDict Text Value) : Except (Failure HeaderError) Nat :=
  match kv.get? alignmentKey with
  | none => .ok 32
  | some (.item (.int n)) =>
    if n ≤ 0 ∨ n.toNat &&& (n.toNat - 1) ≠ 0 then .error (.refused (.alignment (.item (.int n)))) else .ok n.toNat
  | some (.item (.bool true)) => .ok 1
  | some v => .error (.refused (.alignment v))

def readGgufHeader (file : List UInt8) : Except (Failure HeaderError) Header :=
  match index.run ⟨0, file⟩ with
  | .error e => .error e
  | .ok ((kv, tensors), cur) =>
    match alignmentOf kv with
    | .error e => .error e
    | .ok alignment => .ok ⟨3, kv, tensors, cur.pos, (cur.pos + alignment - 1) / alignment * alignment⟩

end Source

section Written

def stringBytes (s : Text) : List UInt8 := littleBytes 8 (Utf8Text.encode s).length ++ Utf8Text.encode s

def ScalarType.Fits (t : ScalarType) (x : Item) : Prop :=
  match t with
  | u8 | u16 | u32 | u64 => ∃ n : Nat, x = .int n ∧ n < 256 ^ t.width
  | i8 | i16 | i32 | i64 => ∃ n : Int, x = .int n ∧ -((256 ^ t.width : Nat) : Int) ≤ 2 * n ∧ 2 * n < (256 ^ t.width : Nat)
  | f32 | f64 => ∃ bits, x = .float t.width bits ∧ bits < 256 ^ t.width
  | bool => ∃ b, x = .bool b

def ScalarType.encode (t : ScalarType) : Item → List UInt8
  | .int n => littleBytes t.width (n % (256 ^ t.width : Nat)).toNat
  | .float _ bits => littleBytes t.width bits
  | .bool b => littleBytes t.width b.toNat
  | .str _ => []

/-- A value as it is written: with the type that is chosen for it. -/
inductive Written where
  | scalar (t : ScalarType) (x : Item)
  | str (s : Text)
  | scalars (t : ScalarType) (xs : List Item)
  | strs (ss : List Text)
  deriving DecidableEq, Repr

namespace Written

def value : Written → Value
  | scalar _ x => .item x
  | str s => .item (.str s)
  | scalars _ xs => .array xs
  | strs ss => .array (ss.map Item.str)

def bytes : Written → List UInt8
  | scalar t x => littleBytes 4 t.id ++ t.encode x
  | str s => littleBytes 4 kvString ++ stringBytes s
  | scalars t xs => littleBytes 4 kvArray ++ (littleBytes 4 t.id ++ (littleBytes 8 xs.length ++ xs.flatMap t.encode))
  | strs ss => littleBytes 4 kvArray ++ (littleBytes 4 kvString ++ (littleBytes 8 ss.length ++ ss.flatMap stringBytes))

/-- Values within the limits of the reader. -/
def Fits : Written → Prop
  | scalar t x => t.Fits x
  | str s => (Utf8Text.encode s).length ≤ maxStringValueLength
  | scalars t xs => xs.length ≤ maxArrayLength ∧ ∀ x ∈ xs, t.Fits x
  | strs ss => ss.length ≤ maxArrayLength ∧ ∀ s ∈ ss, (Utf8Text.encode s).length ≤ maxStringValueLength

end Written

def keyValueBytes (pair : Text × Written) : List UInt8 := stringBytes pair.1 ++ pair.2.bytes

def TensorInfo.bytes (t : TensorInfo) : List UInt8 :=
  stringBytes t.name ++ (littleBytes 4 t.dims.length ++
    (t.dims.flatMap (littleBytes 8) ++ (littleBytes 4 t.typeId ++ littleBytes 8 t.offset)))

structure TensorInfo.Fits (t : TensorInfo) : Prop where
  name_le : (Utf8Text.encode t.name).length ≤ maxNameLength
  dims_pos : 0 < t.dims.length
  dims_le : t.dims.length ≤ 8
  dims_lt : ∀ d ∈ t.dims, d < 256 ^ 8
  typeId_lt : t.typeId < 256 ^ 4
  offset_lt : t.offset < 256 ^ 8

/-- What a file is written from. -/
structure Contents where
  kv : List (Text × Written)
  tensors : List TensorInfo

namespace Contents

def bytes (c : Contents) : List UInt8 :=
  magic ++ (littleBytes 4 3 ++ (littleBytes 8 c.tensors.length ++ (littleBytes 8 c.kv.length ++
    (c.kv.flatMap keyValueBytes ++ c.tensors.flatMap TensorInfo.bytes))))

/-- The alignment that is written, or the default. -/
def alignment (c : Contents) : Nat :=
  match c.kv.find? fun pair => pair.1 == alignmentKey with
  | some (_, .scalar _ (.int n)) => n.toNat
  | _ => 32

/-- The limits of the reader, with keys of their own and an alignment that is a power of two. -/
structure WellFormed (c : Contents) : Prop where
  kv_le : c.kv.length ≤ maxKvCount
  tensors_le : c.tensors.length ≤ maxTensorCount
  keys_nodup : (c.kv.map Prod.fst).Nodup
  keys_le : ∀ pair ∈ c.kv, (Utf8Text.encode pair.1).length ≤ maxNameLength
  kv_fits : ∀ pair ∈ c.kv, pair.2.Fits
  tensors_fit : ∀ t ∈ c.tensors, t.Fits
  alignment_power : ∀ pair ∈ c.kv, pair.1 = alignmentKey → ∃ k : Nat, pair.2.value = .item (.int (2 ^ k : Nat))

end Contents

end Written

section Scalars

theorem emod_toNat {m n : Nat} (h : n < m) : ((n : Int) % (m : Int)).toNat = n := by
  rw [Int.emod_eq_of_lt (by omega) (by omega), Int.toNat_natCast]

/-- Two's complement takes a number in range back. -/
theorem toSigned_emod {width : Nat} {n : Int} (hlow : -((256 ^ width : Nat) : Int) ≤ 2 * n)
    (hhigh : 2 * n < (256 ^ width : Nat)) :
    toSigned width (n % (256 ^ width : Nat)).toNat = n ∧ (n % (256 ^ width : Nat)).toNat < 256 ^ width := by
  unfold toSigned
  generalize 256 ^ width = m at hlow hhigh ⊢
  by_cases hneg : n < 0
  · have hmod : n % (m : Int) = n + m := by
      rw [← Int.add_emod_right, Int.emod_eq_of_lt (by omega) (by omega)]
    rw [hmod]
    split <;> omega
  · rw [Int.emod_eq_of_lt (by omega) (by omega)]
    split <;> omega

/-- What fits a type is read back from its bytes, and has its width. -/
theorem ScalarType.Fits.roundTrip {t : ScalarType} {x : Item} (h : t.Fits x) :
    t.decode (t.encode x) = x ∧ (t.encode x).length = t.width := by
  cases t with
  | u8 | u16 | u32 | u64 =>
    obtain ⟨n, rfl, hn⟩ := h
    have hnat := littleNat_littleBytes hn
    refine ⟨?_, length_littleBytes _ _⟩
    rw [ScalarType.encode, emod_toNat hn]
    exact congrArg (fun m : Nat => Item.int m) hnat
  | i8 | i16 | i32 | i64 =>
    obtain ⟨n, rfl, hlow, hhigh⟩ := h
    obtain ⟨hsigned, hlt⟩ := toSigned_emod hlow hhigh
    refine ⟨?_, length_littleBytes _ _⟩
    rw [ScalarType.encode]
    exact congrArg Item.int ((congrArg (toSigned _) (littleNat_littleBytes hlt)).trans hsigned)
  | f32 | f64 =>
    obtain ⟨bits, rfl, hbits⟩ := h
    exact ⟨congrArg (Item.float _) (littleNat_littleBytes hbits), length_littleBytes _ _⟩
  | bool =>
    obtain ⟨b, rfl⟩ := h
    cases b <;> exact ⟨rfl, rfl⟩

theorem decodeMany_flatMap {t : ScalarType} {xs : List Item} (h : ∀ x ∈ xs, t.Fits x) :
    decodeMany t xs.length (xs.flatMap t.encode) = xs ∧ (xs.flatMap t.encode).length = t.width * xs.length := by
  induction xs with
  | nil => exact ⟨rfl, rfl⟩
  | cons x xs ih =>
    obtain ⟨hdecode, hlen⟩ := (h x mem_cons_self).roundTrip
    obtain ⟨hrest, hlenRest⟩ := ih fun y hy => h y (mem_cons_of_mem x hy)
    constructor
    · rw [flatMap_cons, length_cons, decodeMany, ← hlen, take_left, drop_left, hdecode, hrest]
    · rw [flatMap_cons, length_append, hlen, hlenRest, length_cons, Nat.mul_succ, Nat.add_comm]

theorem ofId_id (t : ScalarType) : ScalarType.ofId t.id = some t := by
  cases t <;> rfl

theorem id_cases (t : ScalarType) : t.id < 256 ^ 4 ∧ t.id ≠ kvString ∧ t.id ≠ kvArray := by
  cases t <;> decide

end Scalars

section Reading

theorem reads_unsigned {width n : Nat} (hn : n < 256 ^ width) : Reads (unsigned width) (littleBytes width n) n := by
  have htake : Reads (take width) (littleBytes width n) (littleBytes width n) := by
    have := reads_take HeaderError.truncated (littleBytes width n)
    rwa [length_littleBytes] at this
  have hpure : Reads (unpackUnsigned width (littleBytes width n)) [] n := by
    rw [unpackUnsigned, if_pos (length_littleBytes _ _), littleNat_littleBytes hn]
    exact Reads.pure n
  have := htake.bind hpure
  rwa [append_nil] at this

theorem reads_string {s : Text} {maxLength : Nat} (hle : (Utf8Text.encode s).length ≤ maxLength)
    (hmax : maxLength < 256 ^ 8) : Reads (string maxLength) (stringBytes s) s := by
  refine (reads_unsigned (lt_of_le_of_lt hle hmax)).bind ?_
  rw [if_neg (not_lt.mpr hle)]
  have := (reads_take HeaderError.truncated (Utf8Text.encode s)).then_pure Utf8Text.decode
  rwa [Utf8Text.decode_encode] at this

theorem reads_stringItem {s : Text} (hle : (Utf8Text.encode s).length ≤ maxStringValueLength) :
    Reads stringItem (stringBytes s) (.str s) :=
  (reads_string hle (by decide)).then_pure Item.str

theorem reads_scalar {t : ScalarType} {x : Item} (h : t.Fits x) : Reads (scalar t.id) (t.encode x) x := by
  obtain ⟨hdecode, hlen⟩ := h.roundTrip
  have htake : Reads (take t.width) (t.encode x) (t.encode x) := by
    have := reads_take HeaderError.truncated (t.encode x)
    rwa [hlen] at this
  have hpure : Reads (unpackOne t (t.encode x)) [] x := by
    rw [unpackOne, if_pos hlen, hdecode]
    exact Reads.pure x
  have := htake.bind hpure
  rw [append_nil] at this
  rw [scalar, ofId_id]
  exact this

theorem reads_array {w : Written} (h : w.Fits) :
    (∀ t xs, w = .scalars t xs →
      Reads array (littleBytes 4 t.id ++ (littleBytes 8 xs.length ++ xs.flatMap t.encode)) (.array xs)) ∧
    ∀ ss, w = .strs ss →
      Reads array (littleBytes 4 kvString ++ (littleBytes 8 ss.length ++ ss.flatMap stringBytes))
        (.array (ss.map Item.str)) := by
  have hcount {n : Nat} (hn : n ≤ maxArrayLength) : n < 256 ^ 8 := lt_of_le_of_lt hn (by decide)
  constructor
  · rintro t xs rfl
    obtain ⟨hle, hfits⟩ := h
    obtain ⟨hid, hstring, -⟩ := id_cases t
    obtain ⟨hdecode, hlen⟩ := decodeMany_flatMap hfits
    refine (reads_unsigned hid).bind ((reads_unsigned (hcount hle)).bind ?_)
    rw [if_neg (not_lt.mpr hle), if_neg hstring, ofId_id]
    have htake : Reads (take (t.width * xs.length)) (xs.flatMap t.encode) (xs.flatMap t.encode) := by
      have := reads_take HeaderError.truncated (xs.flatMap t.encode)
      rwa [hlen] at this
    have hpure : Reads (unpackMany t xs.length (xs.flatMap t.encode)) [] xs := by
      rw [unpackMany, if_pos hlen, hdecode]
      exact Reads.pure xs
    have hmany := htake.bind hpure
    rw [append_nil] at hmany
    exact hmany.then_pure Value.array
  · rintro ss rfl
    obtain ⟨hle, hfits⟩ := h
    refine (reads_unsigned (by decide)).bind ((reads_unsigned (hcount hle)).bind ?_)
    rw [if_neg (not_lt.mpr hle), if_pos rfl]
    exact (Reads.repeatRead fun s hs => reads_stringItem (hfits s hs)).then_pure Value.array

theorem reads_value {w : Written} (h : w.Fits) : Reads value w.bytes w.value := by
  cases w with
  | scalar t x =>
    obtain ⟨hid, hstring, harray⟩ := id_cases t
    refine (reads_unsigned hid).bind ?_
    rw [if_neg hstring, if_neg harray]
    exact (reads_scalar h).then_pure Value.item
  | str s =>
    refine (reads_unsigned (by decide)).bind ?_
    rw [if_pos rfl]
    exact (reads_stringItem h).then_pure Value.item
  | scalars t xs =>
    refine (reads_unsigned (by decide)).bind ?_
    rw [if_neg (by decide), if_pos rfl]
    exact (reads_array h).1 t xs rfl
  | strs ss =>
    refine (reads_unsigned (by decide)).bind ?_
    rw [if_neg (by decide), if_pos rfl]
    exact (reads_array h).2 ss rfl

theorem reads_keyValue {pair : Text × Written} (hkey : (Utf8Text.encode pair.1).length ≤ maxNameLength)
    (hfits : pair.2.Fits) : Reads keyValue (keyValueBytes pair) (pair.1, pair.2.value) :=
  (reads_string hkey (by decide)).bind ((reads_value hfits).then_pure fun v => (pair.1, v))

theorem reads_tensorInfo {t : TensorInfo} (h : t.Fits) : Reads tensorInfo t.bytes t := by
  refine (reads_string h.name_le (by decide)).bind ((reads_unsigned (lt_of_le_of_lt h.dims_le (by decide))).bind ?_)
  rw [if_neg (not_not.mpr ⟨h.dims_pos, h.dims_le⟩)]
  have hdims : Reads (repeatRead u64 t.dims.length) (t.dims.flatMap (littleBytes 8)) t.dims := by
    have := @Reads.repeatRead _ _ _ u64 (littleBytes 8) id t.dims fun d hd => reads_unsigned (h.dims_lt d hd)
    rwa [map_id] at this
  exact hdims.bind ((reads_unsigned h.typeId_lt).bind
    ((reads_unsigned h.offset_lt).then_pure (TensorInfo.mk t.name t.dims t.typeId)))

theorem reads_index {c : Contents} (h : c.WellFormed) :
    Reads index c.bytes (OrderedDict.empty.update (c.kv.map fun pair => (pair.1, pair.2.value)), c.tensors) := by
  refine (reads_take HeaderError.truncated magic).bind ?_
  rw [if_neg (by decide)]
  refine (reads_unsigned (by decide)).bind ?_
  rw [if_neg (by decide)]
  refine (reads_unsigned (lt_of_le_of_lt h.tensors_le (by decide))).bind
    ((reads_unsigned (lt_of_le_of_lt h.kv_le (by decide))).bind ?_)
  rw [if_neg (not_or.mpr ⟨not_lt.mpr h.tensors_le, not_lt.mpr h.kv_le⟩)]
  have hpairs := @Reads.repeatRead _ _ _ keyValue keyValueBytes _ c.kv fun pair hpair =>
    reads_keyValue (h.keys_le pair hpair) (h.kv_fits pair hpair)
  have htensors : Reads (repeatRead tensorInfo c.tensors.length) (c.tensors.flatMap TensorInfo.bytes) c.tensors := by
    have := @Reads.repeatRead _ _ _ tensorInfo TensorInfo.bytes id c.tensors fun t ht =>
      reads_tensorInfo (h.tensors_fit t ht)
    rwa [map_id] at this
  exact hpairs.bind (htensors.then_pure fun tensors =>
    (OrderedDict.empty.update (c.kv.map fun pair => (pair.1, pair.2.value)), tensors))

end Reading

section Outcomes

theorem clean_unsigned (width : Nat) : Clean (unsigned width) := by
  refine clean_take_bind _ fun data hlen => ?_
  rw [unpackUnsigned, if_pos hlen]
  exact Clean.pure _

theorem clean_string (maxLength : Nat) : Clean (string maxLength) := by
  refine (clean_unsigned 8).bind fun length => ?_
  split
  · exact clean_refuse _
  · exact (clean_take _ _).bind fun data => Clean.pure _

theorem clean_stringItem : Clean stringItem := (clean_string _).bind fun _ => Clean.pure _

theorem clean_scalar (typeId : Nat) : Clean (scalar typeId) := by
  unfold scalar
  split
  · exact clean_refuse _
  · rename_i t _
    refine clean_take_bind _ fun data hlen => ?_
    rw [unpackOne, if_pos hlen]
    exact Clean.pure _

theorem clean_array : Clean array := by
  refine (clean_unsigned 4).bind fun elemType => (clean_unsigned 8).bind fun count => ?_
  split
  · exact clean_refuse _
  split
  · exact (clean_stringItem.repeatRead count).bind fun xs => Clean.pure _
  split
  · exact clean_refuse _
  · rename_i t _
    have hmany : Clean (take (t.width * count) >>= unpackMany t count) := by
      refine clean_take_bind _ fun data hlen => ?_
      rw [unpackMany, if_pos hlen]
      exact Clean.pure _
    exact hmany.bind fun xs => Clean.pure _

theorem clean_value : Clean value := by
  refine (clean_unsigned 4).bind fun typeId => ?_
  split
  · exact clean_stringItem.bind fun x => Clean.pure _
  split
  · exact clean_array
  · exact (clean_scalar typeId).bind fun x => Clean.pure _

theorem clean_keyValue : Clean keyValue :=
  (clean_string _).bind fun _ => clean_value.bind fun _ => Clean.pure _

theorem clean_tensorInfo : Clean tensorInfo := by
  refine (clean_string _).bind fun name => (clean_unsigned 4).bind fun nDims => ?_
  split
  · exact clean_refuse _
  · exact ((clean_unsigned 8).repeatRead nDims).bind fun dims => (clean_unsigned 4).bind fun typeId =>
      (clean_unsigned 8).bind fun offset => Clean.pure _

/-- Whatever the bytes are, the index is read or refused. -/
theorem clean_index : Clean index := by
  refine (clean_take _ _).bind fun start => ?_
  split
  · exact clean_refuse _
  refine (clean_unsigned 4).bind fun version => ?_
  split
  · exact clean_refuse _
  refine (clean_unsigned 8).bind fun tensorCount => (clean_unsigned 8).bind fun kvCount => ?_
  split
  · exact clean_refuse _
  · exact (clean_keyValue.repeatRead kvCount).bind fun pairs =>
      (clean_tensorInfo.repeatRead tensorCount).bind fun tensors => Clean.pure _

theorem alignmentOf_ne_foreign (kv : OrderedDict Text Value) : alignmentOf kv ≠ .error .foreign := by
  intro h
  unfold alignmentOf at h
  split at h
  · cases h
  · split at h <;> cases h
  · cases h
  · cases h

end Outcomes

section Alignment

theorem alignmentOf_contents {c : Contents} (h : c.WellFormed) :
    alignmentOf (OrderedDict.empty.update (c.kv.map fun pair => (pair.1, pair.2.value))) = .ok c.alignment ∧
      0 < c.alignment := by
  have hkeys : ((c.kv.map fun pair => (pair.1, pair.2.value)).map Prod.fst).Nodup := by
    rw [map_map]
    exact h.keys_nodup
  unfold Contents.alignment
  cases hfind : c.kv.find? fun pair => pair.1 == alignmentKey with
  | none =>
    have hnone : (OrderedDict.empty.update (c.kv.map fun pair => (pair.1, pair.2.value))).get? alignmentKey = none := by
      rw [Option.eq_none_iff_forall_ne_some]
      intro v hv
      obtain hmem | ⟨-, hempty⟩ := OrderedDict.get?_of_update hv
      · obtain ⟨pair, hpair, heq⟩ := mem_map.mp hmem
        have hkey := find?_eq_none.mp hfind pair hpair
        exact hkey (beq_iff_eq.mpr (Prod.ext_iff.mp heq).1)
      · cases hempty
    exact ⟨by rw [alignmentOf, hnone], by decide⟩
  | some pair =>
    have hmem := mem_of_find?_eq_some hfind
    have hfound := find?_some hfind
    have hkey : pair.1 = alignmentKey := beq_iff_eq.mp hfound
    obtain ⟨k, hvalue⟩ := h.alignment_power pair hmem hkey
    have hget : (OrderedDict.empty.update (c.kv.map fun pair => (pair.1, pair.2.value))).get? alignmentKey =
        some (.item (.int (2 ^ k : Nat))) := by
      refine OrderedDict.get?_update_of_nodup hkeys (mem_map.mpr ⟨pair, hmem, ?_⟩)
      rw [hkey, hvalue]
    have hpos : 0 < 2 ^ k := Nat.two_pow_pos k
    have hand : 2 ^ k &&& (2 ^ k - 1) = 0 := by rw [Nat.and_two_pow_sub_one_eq_mod, Nat.mod_self]
    obtain ⟨key, w⟩ := pair
    cases w with
    | scalar t x =>
      obtain rfl : x = .int (2 ^ k : Nat) := Value.item.inj hvalue
      refine ⟨?_, hpos⟩
      have hok : ¬ (((2 ^ k : Nat) : Int) ≤ 0 ∨
          ((2 ^ k : Nat) : Int).toNat &&& (((2 ^ k : Nat) : Int).toNat - 1) ≠ 0) := by
        rw [Int.toNat_natCast, hand]
        omega
      rw [alignmentOf, hget]
      exact if_neg hok
    | str s => cases hvalue
    | scalars t xs => cases hvalue
    | strs ss => cases hvalue

/-- Rounding up gives the least multiple that is not below. -/
theorem roundUp_isLeast {a : Nat} (ha : 0 < a) (n : Nat) : IsLeast {m | a ∣ m ∧ n ≤ m} ((n + a - 1) / a * a) := by
  have hmod := Nat.div_add_mod (n + a - 1) a
  have hlt := Nat.mod_lt (n + a - 1) ha
  rw [Nat.mul_comm] at hmod
  refine ⟨⟨Nat.dvd_mul_left _ _, by omega⟩, ?_⟩
  rintro m ⟨⟨q, rfl⟩, hle⟩
  rw [Nat.mul_comm a q]
  refine Nat.mul_le_mul_right a ?_
  rw [Nat.div_le_iff_le_mul_add_pred ha]
  omega

end Alignment

section Main

/-- A well-formed header is read exactly, whatever bytes follow, every proper prefix of it is refused, and a file of
any bytes is either read or refused. -/
theorem readGgufHeader_exact (c : Contents) (h : c.WellFormed) :
    (∀ rest, ∃ header, readGgufHeader (c.bytes ++ rest) = .ok header ∧ header.version = 3 ∧
      header.kv.entries = c.kv.map (fun pair => (pair.1, pair.2.value)) ∧ header.tensors = c.tensors ∧
      header.headerEnd = c.bytes.length ∧ IsLeast {m | c.alignment ∣ m ∧ c.bytes.length ≤ m} header.dataStart) ∧
    (∀ front, front <+: c.bytes → front ≠ c.bytes → ∃ e, readGgufHeader front = .error (.refused e)) ∧
    ∀ file, (∃ header, readGgufHeader file = .ok header) ∨ ∃ e, readGgufHeader file = .error (.refused e) := by
  have hreads := reads_index h
  obtain ⟨halign, hpos⟩ := alignmentOf_contents h
  refine ⟨fun rest => ?_, fun front hfront hne => ?_, fun file => ?_⟩
  · have hrun := hreads.whole 0 rest
    rw [Nat.zero_add] at hrun
    refine ⟨_, by rw [readGgufHeader, hrun]; dsimp only; rw [halign], rfl, ?_, rfl, rfl, roundUp_isLeast hpos _⟩
    refine OrderedDict.entries_update_of_nodup ?_
    rw [map_map]
    exact h.keys_nodup
  · obtain ⟨e, he⟩ := hreads.short 0 front hfront hne
    exact ⟨e, by rw [readGgufHeader, he]⟩
  · unfold readGgufHeader
    cases hrun : index.run ⟨0, file⟩ with
    | error e =>
      cases e with
      | refused e => exact .inr ⟨e, rfl⟩
      | foreign => exact absurd hrun (clean_index _)
    | ok out =>
      obtain ⟨⟨kv, tensors⟩, cur⟩ := out
      dsimp only
      cases hkv : alignmentOf kv with
      | error e =>
        cases e with
        | refused e => exact .inr ⟨e, rfl⟩
        | foreign => exact absurd hkv (alignmentOf_ne_foreign kv)
      | ok alignment => exact .inl ⟨_, rfl⟩

def smallHeader : Contents where
  kv := [(alignmentKey, .scalar .u32 (.int 64)), ("general.name".toList, .str "Größe".toList)]
  tensors := [⟨"blk.0".toList, [64, 2], 8, 0⟩]

theorem smallHeader_wellFormed : smallHeader.WellFormed where
  kv_le := by decide
  tensors_le := by decide
  keys_nodup := by decide
  keys_le := by decide
  kv_fits pair hpair := by
    obtain rfl | hpair := mem_cons.mp hpair
    · exact ⟨64, rfl, by decide⟩
    · obtain rfl := mem_singleton.mp hpair
      change (Utf8Text.encode "Größe".toList).length ≤ maxStringValueLength
      decide
  tensors_fit t ht := by
    obtain rfl := mem_singleton.mp ht
    exact ⟨by decide, by decide, by decide, by decide, by decide, by decide⟩
  alignment_power pair hpair hkey := by
    obtain rfl | hpair := mem_cons.mp hpair
    · exact ⟨6, rfl⟩
    · obtain rfl := mem_singleton.mp hpair
      exact absurd hkey (by decide)

theorem readGgufHeader_exact_small : ∃ header, readGgufHeader (smallHeader.bytes ++ [0, 0]) = .ok header ∧
    header.tensors = [⟨"blk.0".toList, [64, 2], 8, 0⟩] ∧
    IsLeast {m | 64 ∣ m ∧ smallHeader.bytes.length ≤ m} header.dataStart := by
  obtain ⟨header, hread, -, -, htensors, -, hstart⟩ := (readGgufHeader_exact smallHeader smallHeader_wellFormed).1 [0, 0]
  exact ⟨header, hread, htensors, hstart⟩

end Main

end GgufHeader
