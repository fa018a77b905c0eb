import Fon9.Bitv.Atomic
import Fon9.Bitv.Bytes
import Fon9.Rc.Session

/-! A turn of the parser over the bytes of a call. Where they are there it comes to the call,
whatever follows; where some are missing it waits, and what it has taken it remembers. -/

namespace Fon9.Rc

open Bitv Buffer Pk List InPlace LawfulDcQueue DcQueue

namespace RcSession

/-! ### Checksums -/

variable {q q' : DcQueueList} {s rest params : Bytes}

theorem sizedParams_text (params : Bytes) :
    byteArraySizeToBitvT params.length ++ params = (byteArrayToBitv params).text := by
  rw [byteArraySizeToBitvT, byteArrayToBitv]
  split
  · next hzero =>
    obtain rfl : params = [] := length_eq_zero_iff.mp hzero
    rfl
  · next hpos =>
    rw [if_pos (by omega)]

/-- A call of the other side. -/
structure Call where
  functionCode : UInt8
  params : Bytes
  deriving DecidableEq, Repr

/-- What `Send` puts before the size of the parameters. -/
def sendHead (isNoChecksum : Bool) (c : Call) : Bytes :=
  if isNoChecksum then [c.functionCode]
  else
    let cksum := feedCalcCheckSum 0 (c.functionCode :: (byteArrayToBitv c.params).text)
    [(cksum >>> 8).toUInt8, cksum.toUInt8, c.functionCode]

theorem send_eq (isNoChecksum : Bool) (c : Call) :
    send isNoChecksum c.functionCode c.params = sendHead isNoChecksum c ++ (byteArrayToBitv c.params).text := by
  rw [send, sendHead, sizedParams_text]
  cases isNoChecksum with
  | false => rfl
  | true => rfl

/-- The session that has taken the head of the call. -/
def headed (ses : RcSession) (c : Call) : RcSession :=
  { ses with
    rxChecksum := if ses.isNoChecksum then ses.rxChecksum
      else feedCalcCheckSum 0 (c.functionCode :: (byteArrayToBitv c.params).text)
    rxFunctionCode := c.functionCode
    isRxFunctionCodeReady := true }

/-- The session that has found the call. -/
def found (ses : RcSession) (c : Call) : RcSession := { ses.headed c with isRxFunctionCodeReady := false }

/-- The bytes that are to come until the call is there: `base` is the session that has taken none of
them. -/
inductive Awaits (base : RcSession) (c : Call) : RcSession → Bytes → Prop
  | head : Awaits base c base (send base.isNoChecksum c.functionCode c.params)
  | params : Awaits base c (base.headed c) (byteArrayToBitv c.params).text

variable {base ses : RcSession} {c : Call} {bytes : Bytes}

section

variable (env : Env) (hmax : c.params.length ≤ kRcSession_FunctionParam_MaxSize)
include hmax

end

end RcSession

end Fon9.Rc
