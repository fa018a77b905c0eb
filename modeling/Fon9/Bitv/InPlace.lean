import Fon9.Bitv.Decode
import Fon9.Buffer.Pointed

/-! The decoders step by step, with the queue as they leave it. A byte is read through a
pointer, and a pointer may lead out of the queue. -/

namespace Fon9.Bitv.InPlace

open Buffer

/-- How a call ends without a value. -/
inductive Fault
  | raised (e : BitvError)
  | strayRead
  deriving DecidableEq, Repr

/-- How a call ends, and the queue that it leaves. -/
abbrev Ended (α Q : Type) := Except Fault α × Q

section Decode

variable {α Q : Type} [PointedDcQueue Q]

def raise (e : BitvError) (buf : Q) : Ended α Q := (.error (.raised e), buf)

/-- `*ptype`: the first byte from the pointer on. -/
def deref (ptr : Bytes) (buf : Q) (next : UInt8 → Ended α Q) : Ended α Q :=
  match ptr with
  | first :: _ => next first
  | [] => (.error .strayRead, buf)

/-- The `count` bytes at `pnum + offset`. -/
def derefBytes (pnum : Bytes) (offset count : ℕ) (buf : Q) (next : Bytes → Ended α Q) : Ended α Q :=
  if offset + count ≤ pnum.length then next ((pnum.drop offset).take count) else (.error .strayRead, buf)

def bitvToBool (buf : Q) : Ended Bool Q :=
  match PointedDcQueue.mem buf with
  | some pval => deref pval buf fun val =>
      if val = bitvV_BoolTrue then (.ok true, DcQueue.popConsumed buf 1)
      else if val = bitvV_BoolFalse then (.ok false, DcQueue.popConsumed buf 1)
      else raise (.typeNotMatch "BitvToBool: type not match") buf
  | none => raise (.needsMore "BitvToBool: needs more") buf

def bitvToChar (buf : Q) : Ended UInt8 Q :=
  match PointedDcQueue.mem buf with
  | some ptype => deref ptype buf fun type =>
      if type = bitvV_Char0 then (.ok 0, DcQueue.popConsumed buf 1)
      else if type ≠ 0 then raise (.typeNotMatch "BitvToChar: type not match") buf
      else
        match DcQueue.peek buf 2 with
        | some pbuf => derefBytes pbuf 1 1 buf fun bytes => (.ok (bytes.getD 0 0), DcQueue.popConsumed buf 2)
        | none => raise (.needsMore "BitvToChar: needs more") buf
  | none => raise (.needsMore "BitvToChar: needs more") buf

/-- `BitvToIntAux`, with the types of a positive number, of zero and of null. -/
def bitvToIntAux (t : IntType) (pos zero null : UInt8) (buf : Q) (nullValue : t.Val) : Ended t.Val Q :=
  match PointedDcQueue.mem buf with
  | some ptype => deref ptype buf fun first =>
      let type := first &&& bitvT_Mask
      let popIntValue : Unit → Ended t.Val Q := fun _ =>
        let byteCount := (first &&& 0x07).toNat + 1
        if byteCount ≤ t.size then
          match DcQueue.peek buf (byteCount + 1) with
          | some pnum => derefBytes pnum 1 byteCount buf fun bytes =>
              let num := t.cast (getPackedBigEndian bytes)
              (.ok (if type = bitvT_IntegerNeg then t.cast (-num.1 - 1) else num),
                DcQueue.popConsumed buf (byteCount + 1))
          | none => raise (.needsMore "BitvToInt: needs more") buf
        else raise (.overflow "BitvToInt: overflow") buf
      if type = pos then popIntValue ()
      else if type = bitvT_IntegerNeg then
        if t.isSigned then popIntValue ()
        else raise (.signedError "BitvToInt: cannot load BitvNeg to unsigned") buf
      else if first = zero then (.ok (t.cast 0), DcQueue.popConsumed buf 1)
      else if first = null then (.ok nullValue, DcQueue.popConsumed buf 1)
      else raise (.typeNotMatch "BitvToInt: type not match") buf
  | none => raise (.needsMore "BitvToInt: needs more") buf

def bitvToInt (t : IntType) (buf : Q) (nullValue : t.Val) : Ended t.Val Q :=
  bitvToIntAux t bitvT_IntegerPos bitvV_Number0 bitvV_NumberNull buf nullValue

def bitvToNumber (buf : Q) : Ended BitvNumR Q :=
  match PointedDcQueue.mem buf with
  | none => raise (.needsMore "BitvToNumber: needs more") buf
  | some ptype => deref ptype buf fun first =>
      let type := first &&& bitvT_Mask
      let byteCount := (first &&& 0x07).toNat + 1
      if type = bitvT_IntegerPos ∨ type = bitvT_IntegerNeg then
        match DcQueue.peek buf (byteCount + 1) with
        | none => raise (.needsMore "BitvToInteger: needs more") buf
        | some pnum => derefBytes pnum 1 byteCount buf fun bytes =>
            let num := getPackedBigEndian bytes
            (.ok (if type = bitvT_IntegerPos then ⟨.pos, num, 0⟩ else ⟨.neg, complement64 num, 0⟩),
              DcQueue.popConsumed buf (byteCount + 1))
      else if type = bitvT_Decimal then
        match DcQueue.peek buf (byteCount + 2) with
        | none => raise (.needsMore "BitvToDecimal: needs more") buf
        | some pnum => derefBytes pnum 1 (byteCount + 1) buf fun bytes =>
            let second := bytes.getD 0 0
            let num := ((bytes.drop 1).foldl (fun num b => num * 256 + b.toNat) (second &&& 0x03).toNat) % 2 ^ 64
            (.ok (if second &&& 0x04 ≠ 0 then ⟨.neg, complement64 num, (second >>> 3).toNat⟩
              else ⟨.pos, num, (second >>> 3).toNat⟩), DcQueue.popConsumed buf (byteCount + 2))
      else if first = bitvV_Number0 then (.ok ⟨.zero, 0, 0⟩, DcQueue.popConsumed buf 1)
      else if first = bitvV_NumberNull then (.ok ⟨.null, 0, 0⟩, DcQueue.popConsumed buf 1)
      else raise (.typeNotMatch "BitvToNumber: type not match") buf

/-! ### Bytes -/

/-- `PeekBitvByteArraySizeR`; the data are ready behind `hdrSize` bytes. -/
inductive PeekBitvByteArraySizeR
  | needsMoreHead
  | needsMoreData
  | dataReady (hdrSize : ℕ)
  deriving DecidableEq, Repr

/-- What `PeekBitvByteArraySize` returns, with `barySize` where it is set. -/
def peekBitvByteArraySize (buf : Q) : Ended (PeekBitvByteArraySizeR × ℕ) Q :=
  match PointedDcQueue.mem buf with
  | none => (.ok (.needsMoreHead, 0), buf)
  | some ptype => deref ptype buf fun type =>
      if type &&& 0x80 = 0 then
        let barySize := type.toNat + 1
        if isSizeEnough buf (barySize + 1) then (.ok (.dataReady 1, barySize), buf)
        else (.ok (.needsMoreData, barySize), buf)
      else if type = bitvV_ByteArrayEmpty then (.ok (.dataReady 1, 0), buf)
      else if type &&& bitvT_Mask ≠ bitvT_ByteArray then
        raise (.typeNotMatch "PopBitvByteArraySize: type not match") buf
      else
        let bCount := ((type >>> 1) &&& 0x03).toNat + 1
        match DcQueue.peek buf (bCount + 1) with
        | none => (.ok (.needsMoreHead, 0), buf)
        | some pnum => derefBytes pnum 1 bCount buf fun bytes =>
            let low := getPackedBigEndian bytes
            let barySize := (if type &&& 0x01 ≠ 0 then low ||| 2 ^ (bCount * 8) else low) + 0x80 + 1
            if isSizeEnough buf (barySize + (bCount + 1)) then (.ok (.dataReady (bCount + 1), barySize), buf)
            else (.ok (.needsMoreData, barySize), buf)

/-- `PopBitvByteArraySize`: what it returns, and `barySize`. -/
def popBitvByteArraySize (buf : Q) : Ended (Bool × ℕ) Q :=
  match peekBitvByteArraySize buf with
  | (.ok (.dataReady hdrSize, barySize), buf) => (.ok (true, barySize), DcQueue.popConsumed buf hdrSize)
  | (.ok (.needsMoreHead, _), buf) => (.ok (false, 0), buf)
  | (.ok (.needsMoreData, barySize), buf) => (.ok (false, barySize), buf)
  | (.error e, buf) => (.error e, buf)

/-- `BitvToByteArray`: the rest of the array is zeros. -/
def bitvToByteArray (barySize : ℕ) (buf : Q) : Ended Bytes Q :=
  match popBitvByteArraySize buf with
  | (.ok (false, _), buf) => raise (.needsMore "BitvToByteArray: needs more") buf
  | (.ok (true, byteCount), buf) =>
    if barySize < byteCount then raise (.outOfRange "BitvToByteArray: bary buffer too small.") buf
    else
      let r := DcQueue.read buf byteCount
      (.ok (r.2 ++ List.replicate (barySize - byteCount) 0), r.1)
  | (.error e, buf) => (.error e, buf)

end Decode

end Fon9.Bitv.InPlace
