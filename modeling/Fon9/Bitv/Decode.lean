import Fon9.Bitv.Encode
import Fon9.Buffer.Blocks

/-! The decoder takes a value from the front of a queue of bytes, or says which rule the
bytes break. -/

namespace Fon9.Bitv

open Buffer

/-- The exceptions, with their texts. -/
inductive BitvError
  | needsMore (what : String)
  | typeNotMatch (what : String)
  | signedError (what : String)
  | overflow (what : String)
  | range (what : String)
  | outOfRange (what : String)
  deriving DecidableEq, Repr

section Decode

variable {Q : Type} [DcQueue Q]

variable (buf : Q)

def bitvToBool : Except BitvError (Bool × Q) :=
  match peek1 buf with
  | some val =>
    if val = bitvV_BoolTrue then .ok (true, DcQueue.popConsumed buf 1)
    else if val = bitvV_BoolFalse then .ok (false, DcQueue.popConsumed buf 1)
    else .error (.typeNotMatch "BitvToBool: type not match")
  | none => .error (.needsMore "BitvToBool: needs more")

def bitvToChar : Except BitvError (UInt8 × Q) :=
  match peek1 buf with
  | some type =>
    if type = bitvV_Char0 then .ok (0, DcQueue.popConsumed buf 1)
    else if type ≠ 0 then .error (.typeNotMatch "BitvToChar: type not match")
    else
      match DcQueue.peek buf 2 with
      | some pbuf => .ok (pbuf.getD 1 0, DcQueue.popConsumed buf 2)
      | none => .error (.needsMore "BitvToChar: needs more")
  | none => .error (.needsMore "BitvToChar: needs more")

/-! ### Integers -/

/-- `GetPackedBigEndian`, before the value is cut to its type. -/
def getPackedBigEndian (address : Bytes) : ℕ := address.foldl (fun value b => value * 256 + b.toNat) 0

/-- `BitvToIntAux`, with the types of a positive number, of zero and of null. -/
def bitvToIntAux (t : IntType) (pos zero null : UInt8) (buf : Q) (nullValue : t.Val) :
    Except BitvError (t.Val × Q) :=
  match peek1 buf with
  | some first =>
    let type := first &&& bitvT_Mask
    let popIntValue : Unit → Except BitvError (t.Val × Q) := fun _ =>
      let byteCount := (first &&& 0x07).toNat + 1
      if byteCount ≤ t.size then
        match DcQueue.peek buf (byteCount + 1) with
        | some pnum =>
          let num := t.cast (getPackedBigEndian (pnum.drop 1))
          .ok (if type = bitvT_IntegerNeg then t.cast (-num.1 - 1) else num,
            DcQueue.popConsumed buf (byteCount + 1))
        | none => .error (.needsMore "BitvToInt: needs more")
      else .error (.overflow "BitvToInt: overflow")
    if type = pos then popIntValue ()
    else if type = bitvT_IntegerNeg then
      if t.isSigned then popIntValue ()
      else .error (.signedError "BitvToInt: cannot load BitvNeg to unsigned")
    else if first = zero then .ok (t.cast 0, DcQueue.popConsumed buf 1)
    else if first = null then .ok (nullValue, DcQueue.popConsumed buf 1)
    else .error (.typeNotMatch "BitvToInt: type not match")
  | none => .error (.needsMore "BitvToInt: needs more")

/-- `BitvTo` of an integer; a null leaves the value that it had. -/
def bitvToInt (t : IntType) (buf : Q) (value : t.Val) : Except BitvError (t.Val × Q) :=
  bitvToIntAux t bitvT_IntegerPos bitvV_Number0 bitvV_NumberNull buf value

/-! ### Decimals -/

inductive BitvNumT
  | null
  | zero
  | neg
  | pos
  deriving DecidableEq, Repr

structure BitvNumR where
  type : BitvNumT
  num : ℕ
  scale : ℕ
  deriving DecidableEq, Repr

/-- `~num` of a `uintmax_t`. -/
def complement64 (num : ℕ) : ℕ := 2 ^ 64 - 1 - num

def bitvToNumber : Except BitvError (BitvNumR × Q) :=
  match peek1 buf with
  | none => .error (.needsMore "BitvToNumber: needs more")
  | some first =>
    let type := first &&& bitvT_Mask
    let byteCount := (first &&& 0x07).toNat + 1
    if type = bitvT_IntegerPos ∨ type = bitvT_IntegerNeg then
      match DcQueue.peek buf (byteCount + 1) with
      | none => .error (.needsMore "BitvToInteger: needs more")
      | some pnum =>
        let num := getPackedBigEndian (pnum.drop 1)
        .ok (if type = bitvT_IntegerPos then ⟨.pos, num, 0⟩ else ⟨.neg, complement64 num, 0⟩,
          DcQueue.popConsumed buf (byteCount + 1))
    else if type = bitvT_Decimal then
      match DcQueue.peek buf (byteCount + 2) with
      | none => .error (.needsMore "BitvToDecimal: needs more")
      | some pnum =>
        let second := pnum.getD 1 0
        let num := ((pnum.drop 2).foldl (fun num b => num * 256 + b.toNat) (second &&& 0x03).toNat) % 2 ^ 64
        .ok (if second &&& 0x04 ≠ 0 then ⟨.neg, complement64 num, (second >>> 3).toNat⟩
          else ⟨.pos, num, (second >>> 3).toNat⟩, DcQueue.popConsumed buf (byteCount + 2))
    else if first = bitvV_Number0 then .ok (⟨.zero, 0, 0⟩, DcQueue.popConsumed buf 1)
    else if first = bitvV_NumberNull then .ok (⟨.null, 0, 0⟩, DcQueue.popConsumed buf 1)
    else .error (.typeNotMatch "BitvToNumber: type not match")

def decScaleMax : ℕ := 18

def getDecDivisor (scale : ℕ) : Except BitvError ℕ :=
  if scale ≤ decScaleMax then .ok (10 ^ scale) else .error (.range "GetDecDivisor(scale > DecScaleMax)")

/-- `RoundByDivisor` -/
def roundByDivisor (num : ℤ) (divisor : ℕ) : ℤ :=
  if num < 0 then Int.tdiv num divisor - (if -num % divisor ≥ divisor / 2 then 1 else 0)
  else num / divisor + (if num % divisor ≥ divisor / 2 then 1 else 0)

/-- `AdjustDecScale` of an `intmax_t` or a `uintmax_t`, with what overflows ignored. -/
def adjustDecScale (maxType : IntType) (src : ℤ) (srcScale reScale : ℕ) : Except BitvError ℤ :=
  if reScale = srcScale then .ok src
  else if reScale < srcScale then do
    let divisor ← getDecDivisor (srcScale - reScale)
    return roundByDivisor src divisor
  else do
    let m ← getDecDivisor (reScale - srcScale)
    return maxType.wrap (src * m)

/-- `BitvToDec`: the original value of a `Decimal`. -/
def bitvToDec (t : IntType) (scale : ℕ) (buf : Q) : Except BitvError (t.Val × Q) := do
  let (numr, buf) ← bitvToNumber buf
  match numr.type with
  | .null => return (t.cast (origNull t), buf)
  | .zero => return (t.cast 0, buf)
  | .neg =>
    if t.isSigned = false then
      throw (.signedError "BitvToDec: cannot load BitvNeg to unsigned")
    let value ← adjustDecScale .int64 (IntType.wrap .int64 numr.num) numr.scale scale
    return (t.cast value, buf)
  | .pos =>
    let value ← adjustDecScale .uint64 numr.num numr.scale scale
    return (t.cast value, buf)

def bitvToTimeStamp : Except BitvError (IntType.int64.Val × Q) :=
  if peek1 buf = some bitvT_TimeStamp_Orig7 then
    match DcQueue.peek buf (kBitvTimeStampOrigSize + 1) with
    | some pnum => .ok (IntType.int64.cast (getPackedBigEndian (pnum.drop 1)),
        DcQueue.popConsumed buf (kBitvTimeStampOrigSize + 1))
    | none => .error (.needsMore "BitvTo(TimeStamp): needs more")
  else bitvToDec .int64 timeStampScale buf

/-! ### Bytes -/

/-- `PopBitvByteArraySize`: nothing where there are not all of the bytes. -/
def popBitvByteArraySize : Except BitvError (Option (ℕ × Q)) :=
  match peek1 buf with
  | none => .ok none
  | some type =>
    if type &&& 0x80 = 0 then
      let barySize := type.toNat + 1
      .ok (if isSizeEnough buf (barySize + 1) then some (barySize, DcQueue.popConsumed buf 1) else none)
    else if type = bitvV_ByteArrayEmpty then .ok (some (0, DcQueue.popConsumed buf 1))
    else if type &&& bitvT_Mask ≠ bitvT_ByteArray then
      .error (.typeNotMatch "PopBitvByteArraySize: type not match")
    else
      let bCount := ((type >>> 1) &&& 0x03).toNat + 1
      match DcQueue.peek buf (bCount + 1) with
      | none => .ok none
      | some pnum =>
        let low := getPackedBigEndian (pnum.drop 1)
        let barySize := (if type &&& 0x01 ≠ 0 then low ||| 2 ^ (bCount * 8) else low) + 0x80 + 1
        .ok (if isSizeEnough buf (barySize + (bCount + 1)) then
          some (barySize, DcQueue.popConsumed buf (bCount + 1)) else none)

/-- `BitvToStrAppend` to an empty string; the bytes come block by block. -/
def bitvToStr : Except BitvError (Bytes × Q) := do
  match ← popBitvByteArraySize buf with
  | none => throw (.needsMore "BitvToStrAppend: needs more")
  | some (byteCount, buf) =>
    let r := DcQueue.read buf byteCount
    return (r.2, r.1)

/-- `BitvToByteArray`: the rest of the array is zeros. -/
def bitvToByteArray (barySize : ℕ) (buf : Q) : Except BitvError (Bytes × Q) := do
  match ← popBitvByteArraySize buf with
  | none => throw (.needsMore "BitvToByteArray: needs more")
  | some (byteCount, buf) =>
    if barySize < byteCount then throw (.outOfRange "BitvToByteArray: bary buffer too small.")
    let r := DcQueue.read buf byteCount
    return (r.2 ++ List.replicate (barySize - byteCount) 0, r.1)

/-! ### Values of several parts -/

/-- `BitvTo` of elements, one after the other. -/
def bitvToElements {α : Type} (bitvTo : Q → Except BitvError (α × Q)) :
    (count : ℕ) → Q → Except BitvError (List α × Q)
  | 0, buf => .ok ([], buf)
  | count + 1, buf => do
    let (v, buf) ← bitvTo buf
    let (vs, buf) ← bitvToElements bitvTo count buf
    return (v :: vs, buf)

def bitvToContainerElementCount : Except BitvError (IntType.uint64.Val × Q) :=
  bitvToIntAux .uint64 bitvT_Container bitvV_ContainerEmpty bitvV_ContainerEmpty buf (IntType.uint64.cast 0)

/-- `insert` of an entry: behind the keys that are less, unless the key is there. -/
def insertEntry {α β : Type} (less : α → α → Bool) (entries : List (α × β)) (e : α × β) : List (α × β) :=
  let before := entries.takeWhile fun e' => less e'.1 e.1
  match entries.drop before.length with
  | [] => entries ++ [e]
  | next :: after => if less e.1 next.1 then before ++ e :: next :: after else entries

/-- `BitvTo`; an integer is zero before it is loaded. -/
def bitvTo (less : (k : Ty) → k.Val → k.Val → Bool) : (t : Ty) → Q → Except BitvError (t.Val × Q)
  | .bool, buf => bitvToBool buf
  | .char, buf => bitvToChar buf
  | .int t, buf => bitvToInt t buf (t.cast 0)
  | .decimal t scale, buf => bitvToDec t scale buf
  | .timeStamp, buf => bitvToTimeStamp buf
  | .str, buf => bitvToStr buf
  | .byteAry size, buf => bitvToByteArray size buf
  | .charAry size, buf => bitvToByteArray size buf
  | .array size t, buf => bitvToElements (bitvTo less t) size buf
  | .vector t, buf => do
    let (count, buf) ← bitvToContainerElementCount buf
    bitvToElements (bitvTo less t) count.1.toNat buf
  | .pair key value, buf => do
    let (k, buf) ← bitvTo less key buf
    let (v, buf) ← bitvTo less value buf
    return ((k, v), buf)
  | .map key value, buf => do
    let (count, buf) ← bitvToContainerElementCount buf
    let (entries, buf) ← bitvToElements (fun buf => do
      let (k, buf) ← bitvTo less key buf
      let (v, buf) ← bitvTo less value buf
      return ((k, v), buf)) count.1.toNat buf
    return (entries.foldl (insertEntry (less key)) [], buf)

end Decode

end Fon9.Bitv
