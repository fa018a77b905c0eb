import Fon9.Base.RevBuffer

/-! Bitv: values with their type in the first byte. The encoder puts the bytes of a value in
front of what the buffer holds, so a value of several parts goes in from its last part to
its first. -/

namespace Fon9.Bitv

def bitvT_Mask : UInt8 := 0xf8
def bitvT_ByteArray : UInt8 := 0x80
def bitvT_Container : UInt8 := 0x88
def bitvT_IntegerPos : UInt8 := 0x90
def bitvT_IntegerNeg : UInt8 := 0xa0
def bitvT_Decimal : UInt8 := 0xb0
def bitvT_TimeStamp_Orig7 : UInt8 := 0xe0

def bitvV_Number0 : UInt8 := 0xf0
def bitvV_Char0 : UInt8 := 0xf1
def bitvV_BoolFalse : UInt8 := 0xf2
def bitvV_ByteArrayEmpty : UInt8 := 0xf8
def bitvV_NumberNull : UInt8 := 0xf9
def bitvV_ContainerEmpty : UInt8 := 0xfa
def bitvV_BoolTrue : UInt8 := 0xfb

/-! ### Integer types -/

inductive IntType
  | int8
  | uint8
  | int16
  | uint16
  | int32
  | uint32
  | int64
  | uint64
  deriving DecidableEq, Repr

namespace IntType

/-- `sizeof` -/
def size : IntType → ℕ
  | int8 | uint8 => 1
  | int16 | uint16 => 2
  | int32 | uint32 => 4
  | int64 | uint64 => 8

def isSigned : IntType → Bool
  | int8 | int16 | int32 | int64 => true
  | uint8 | uint16 | uint32 | uint64 => false

variable (t : IntType)

def min : ℤ := if t.isSigned then -(2 ^ (8 * t.size - 1)) else 0

def max : ℤ := if t.isSigned then 2 ^ (8 * t.size - 1) - 1 else 2 ^ (8 * t.size) - 1

/-- A value of the type. -/
abbrev Val := {v : ℤ // t.min ≤ v ∧ v ≤ t.max}

/-- `static_cast<T>`. -/
def wrap (v : ℤ) : ℤ :=
  let r := v % 2 ^ (8 * t.size)
  if t.isSigned ∧ 2 ^ (8 * t.size - 1) ≤ r then r - 2 ^ (8 * t.size) else r

theorem wrap_mem (v : ℤ) : t.min ≤ t.wrap v ∧ t.wrap v ≤ t.max := by
  cases t <;> simp only [min, max, wrap, isSigned, size] <;> norm_num <;> omega

theorem wrap_of_mem {t : IntType} {v : ℤ} (h : t.min ≤ v ∧ v ≤ t.max) : t.wrap v = v := by
  cases t <;> simp only [min, max, wrap, isSigned, size] at h ⊢ <;> norm_num at h ⊢ <;> omega

def cast (v : ℤ) : t.Val := ⟨t.wrap v, t.wrap_mem v⟩

theorem cast_val {t : IntType} (v : t.Val) : t.cast v.1 = v := Subtype.ext (wrap_of_mem v.2)

end IntType

/-- What `AllocPrefix` is asked for, and the bytes that are put there. -/
structure Put where
  alloc : ℕ
  text : Bytes
  deriving DecidableEq, Repr

def revPutBitv (v : UInt8) : Put := ⟨1, [v]⟩

def boolToBitv (value : Bool) : Put := revPutBitv (if value then bitvV_BoolTrue else bitvV_BoolFalse)

def charToBitv (value : UInt8) : Put := if value = 0 then revPutBitv bitvV_Char0 else ⟨2, [0, value]⟩

/-! ### Integers -/

/-- `PackBigEndianRev` of a value of `size` bytes: as few bytes as hold it, at least one. -/
def packBigEndianRev : ℕ → ℕ → Bytes
  | 0, _ => []
  | size + 1, value =>
    if value / 256 = 0 then [UInt8.ofNat value] else packBigEndianRev size (value / 256) ++ [UInt8.ofNat value]

/-- The first byte says how many bytes the value has. -/
def intToBitv_NoZero (size value : ℕ) (type : UInt8) : Put :=
  let packed := packBigEndianRev size value
  ⟨size + 1, (type ||| UInt8.ofNat (packed.length - 1)) :: packed⟩

variable (value : ℤ)

/-- `~value` of a negative value. -/
def complement : ℕ := (-value - 1).toNat

def intToBitv (t : IntType) (value : ℤ) : Put :=
  if value = 0 then revPutBitv bitvV_Number0
  else if value > 0 then intToBitv_NoZero t.size value.toNat bitvT_IntegerPos
  else intToBitv_NoZero t.size (complement value) bitvT_IntegerNeg

/-! ### Decimals -/

/-- `OrigNull` -/
def origNull (t : IntType) : ℤ := if t.isSigned then t.min else t.max

/-- The end of `BitvAdjustScale`: one more zero goes. -/
def dropZero (scale : ℕ) : ℤ × ℕ :=
  if Int.tmod value 10 = 0 then (Int.tdiv value 10, scale - 1) else (value, scale)

/-- Zeros at the end of the decimal places go, two at a time, until the value has ten bits. -/
def bitvAdjustScale : ℤ → ℕ → ℤ × ℕ
  | value, 0 => (value, 0)
  | value, 1 => if 0 ≤ value ∧ value < 0x400 then (value, 1) else dropZero value 1
  | value, scale + 2 =>
    if 0 ≤ value ∧ value < 0x400 then (value, scale + 2)
    else if Int.tmod value 100 ≠ 0 then dropZero value (scale + 2)
    else bitvAdjustScale (Int.tdiv value 100) scale

/-- The byte of the scale holds the first two bits of the value too, if they fit. -/
def decToBitvAux (value scale : ℕ) (isNeg : Bool) : Put :=
  let scaleByte : UInt8 := UInt8.ofNat (scale * 8) ||| (if isNeg then 0x04 else 0)
  match packBigEndianRev 8 value with
  | hi :: next :: rest =>
    if hi &&& 0xfc = 0 then
      ⟨10, (bitvT_Decimal ||| UInt8.ofNat rest.length) :: (hi ||| scaleByte) :: next :: rest⟩
    else ⟨10, (bitvT_Decimal ||| UInt8.ofNat (rest.length + 1)) :: scaleByte :: hi :: next :: rest⟩
  | packed => ⟨10, (bitvT_Decimal ||| UInt8.ofNat (packed.length - 1)) :: scaleByte :: packed⟩

def decToBitv (scale : ℕ) : Put :=
  if value = 0 then revPutBitv bitvV_Number0
  else
    let (value, scale) := bitvAdjustScale value scale
    if scale = 0 then
      if value < 0 then intToBitv_NoZero 8 (complement value) bitvT_IntegerNeg
      else intToBitv_NoZero 8 value.toNat bitvT_IntegerPos
    else if value < 0 then decToBitvAux (complement value) scale true
    else decToBitvAux value.toNat scale false

/-- `ToBitv` of a `Decimal` with its original value. -/
def decimalToBitv (t : IntType) (scale : ℕ) (value : ℤ) : Put :=
  if value = origNull t then revPutBitv bitvV_NumberNull else decToBitv value scale

/-! ### Time stamps -/

def timeStampScale : ℕ := 6

def kBitvTimeStampOrigSize : ℕ := 7

/-- `ToBitvFixedRev`: the last `len` bytes. -/
def toBitvFixedRev : ℕ → ℤ → Bytes
  | 0, _ => []
  | len + 1, val => toBitvFixedRev len (val / 256) ++ [UInt8.ofNat (val % 256).toNat]

def timeStampToBitv : Put :=
  if value = origNull .int64 then revPutBitv bitvV_NumberNull
  else
    let hi2 := value / 2 ^ 48 % 2 ^ 16
    if hi2 = 0 ∨ hi2 / 2 ^ 8 ≠ 0 then decToBitv value timeStampScale
    else ⟨kBitvTimeStampOrigSize + 1, bitvT_TimeStamp_Orig7 :: toBitvFixedRev kBitvTimeStampOrigSize value⟩

/-! ### Bytes -/

def kBitvMaxByteArraySize : ℕ := 2 ^ 32 - 1 - 5

/-- A leading byte of the size that is 1 goes into the byte of the type. -/
def byteArraySizeToBitvT_AboveX80 (byteCount : ℕ) : Bytes :=
  match packBigEndianRev 4 (byteCount - 0x80 - 1) with
  | hi :: next :: rest =>
    if hi = 1 then (hi ||| (bitvT_ByteArray ||| (UInt8.ofNat rest.length <<< 1))) :: next :: rest
    else (bitvT_ByteArray ||| (UInt8.ofNat (rest.length + 1) <<< 1)) :: hi :: next :: rest
  | packed => (bitvT_ByteArray ||| (UInt8.ofNat (packed.length - 1) <<< 1)) :: packed

def byteArraySizeToBitvT_NoEmpty (byteCount : ℕ) : Bytes :=
  if byteCount ≤ 0x80 then [UInt8.ofNat (byteCount - 1)] else byteArraySizeToBitvT_AboveX80 byteCount

/-- `ByteArrayToBitv` of at most `kBitvMaxByteArraySize` bytes. -/
def byteArrayToBitv (byteArray : Bytes) : Put :=
  if byteArray.length > 0 then
    ⟨4 + byteArray.length + 1, byteArraySizeToBitvT_NoEmpty byteArray.length ++ byteArray⟩
  else revPutBitv bitvV_ByteArrayEmpty

/-- `ToBitv(const char (&ary)[arysz])`: a zero at the end is left out. -/
def charAryToBitv (ary : Bytes) : Put :=
  byteArrayToBitv (if ary.getLast? = some 0 then ary.dropLast else ary)

/-! ### Values of several parts -/

/-- The types with both `ToBitv` and `BitvTo`. -/
inductive Ty
  | bool
  | char
  | int (t : IntType)
  | decimal (t : IntType) (scale : Fin 32)
  | timeStamp
  | str
  | byteAry (size : ℕ)
  | charAry (size : ℕ)
  | array (size : ℕ) (t : Ty)
  | vector (t : Ty)
  | pair (key value : Ty)
  | map (key value : Ty)
  deriving DecidableEq, Repr

/-- The representation of the values; a map is the list of its entries. -/
@[reducible] def Ty.Val : Ty → Type
  | bool => Bool
  | char => UInt8
  | int t => t.Val
  | decimal t _ => t.Val
  | timeStamp => IntType.int64.Val
  | str => Bytes
  | byteAry _ => Bytes
  | charAry _ => Bytes
  | array _ t => List t.Val
  | vector t => List t.Val
  | pair key value => key.Val × value.Val
  | map key value => List (key.Val × value.Val)

/-- Arrays have their size, the others fit a `size_t` or a `uint32_t`, and the keys of a map
ascend in the order of the map. -/
def Ty.Valid (less : (k : Ty) → k.Val → k.Val → Bool) : (t : Ty) → t.Val → Prop
  | bool, _ | char, _ | int _, _ | decimal _ _, _ | timeStamp, _ => True
  | str, s => s.length ≤ kBitvMaxByteArraySize
  | byteAry size, s => s.length = size ∧ size ≤ kBitvMaxByteArraySize
  | charAry size, s => s.length = size ∧ size ≤ kBitvMaxByteArraySize
  | array size t, l => l.length = size ∧ ∀ v ∈ l, t.Valid less v
  | vector t, l => l.length < 2 ^ 64 ∧ ∀ v ∈ l, t.Valid less v
  | pair key value, v => key.Valid less v.1 ∧ value.Valid less v.2
  | map key value, l => l.length < 2 ^ 64 ∧ (l.Pairwise fun e e' => less key e.1 e'.1 = true) ∧
      ∀ e ∈ l, key.Valid less e.1 ∧ value.Valid less e.2

/-- The values of a type. -/
def Ty.Value (less : (k : Ty) → k.Val → k.Val → Bool) (t : Ty) := {v : t.Val // t.Valid less v}

def elementCountToBitv (count : ℕ) : Put :=
  if count = 0 then revPutBitv bitvV_ContainerEmpty else intToBitv_NoZero 8 count bitvT_Container

section Buffer

variable (blockRoom : ℕ → ℕ)

/-- The bytes go in front of what the buffer holds. -/
def Put.into (p : Put) (rbuf : RevBufferList) : RevBufferList := rbuf.revPut blockRoom p.alloc p.text

def toBitv : (t : Ty) → t.Val → RevBufferList → RevBufferList
  | .bool, v, rbuf => (boolToBitv v).into blockRoom rbuf
  | .char, v, rbuf => (charToBitv v).into blockRoom rbuf
  | .int t, v, rbuf => (intToBitv t v.1).into blockRoom rbuf
  | .decimal t scale, v, rbuf => (decimalToBitv t scale v.1).into blockRoom rbuf
  | .timeStamp, v, rbuf => (timeStampToBitv v.1).into blockRoom rbuf
  | .str, v, rbuf => (byteArrayToBitv v).into blockRoom rbuf
  | .byteAry _, v, rbuf => (byteArrayToBitv v).into blockRoom rbuf
  | .charAry _, v, rbuf => (charAryToBitv v).into blockRoom rbuf
  | .array _ t, v, rbuf => List.foldr (toBitv t) rbuf v
  | .vector t, v, rbuf => (elementCountToBitv (List.length v)).into blockRoom (List.foldr (toBitv t) rbuf v)
  | .pair key value, v, rbuf => toBitv key v.1 (toBitv value v.2 rbuf)
  | .map key value, v, rbuf => (elementCountToBitv (List.length v)).into blockRoom
      (List.foldr (fun e rbuf => toBitv key e.1 (toBitv value e.2 rbuf)) rbuf v)

end Buffer

end Fon9.Bitv
