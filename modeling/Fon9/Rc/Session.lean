import Fon9.Bitv.InPlace
import Fon9.Pk.Receiver

/-! The session of a host: the version line, the calls that it finds in the bytes received, and
the functions that are called. A function takes its parameters from the queue itself. -/

namespace Fon9.Rc

open Bitv Buffer Pk

/-! ### Constants -/

inductive RcSessionSt
  | closing
  | deviceLinkReady
  | protocolReady
  | connecting
  | logoning
  | apReady
  deriving DecidableEq, Repr

/-- The value of the enumeration. -/
def RcSessionSt.value : RcSessionSt → ℤ
  | closing => -1
  | deviceLinkReady => 0
  | protocolReady => 1
  | connecting => 2
  | logoning => 3
  | apReady => 4

instance : LT RcSessionSt := ⟨fun a b => a.value < b.value⟩

instance (a b : RcSessionSt) : Decidable (a < b) := inferInstanceAs (Decidable (a.value < b.value))

def f9rc_FunctionCode_SASL : UInt8 := 1
def f9rc_FunctionCode_Heartbeat : UInt8 := 3
def f9rc_FunctionCode_SeedVisitor : UInt8 := 6
def f9rc_FunctionCode_Count : ℕ := 8

def kRcSession_FunctionParam_MaxSize : ℕ := 1024 * 1024 * 64

/-! ### What is called -/

/-- The functions a host registers. -/
inductive RcFunctionAgent
  | logout
  | heartbeat
  | connServer
  | saslServer
  | seedVisitorServer
  deriving DecidableEq, Repr

def RcFunctionAgent.sessionStRequired : RcFunctionAgent → RcSessionSt
  | logout => .protocolReady
  | heartbeat => .apReady
  | connServer => .protocolReady
  | saslServer => .connecting
  | seedVisitorServer => .apReady

/-- What a function may leave with the session, to be called in its place. -/
inductive RcFunctionNote
  | saslAuth
  | seedVisitorServer
  deriving DecidableEq, Repr

/-- What happens to a session. Of the two logouts the first is forced by a function, the second
by the parser itself. -/
inductive Event
  /-- A call is dispatched with the bytes that `RemainParamSize_` covers. -/
  | called (functionCode : UInt8) (params : Bytes)
  | forceLogout (reason : String)
  | refused (reason : String)
  deriving DecidableEq, Repr

/-- The session as far as receiving is concerned. `log` is no field of the source: its head is the
latest event. With `noRecvEvent` the device has been told to tell of no more bytes. -/
structure RcSession where
  sessionSt : RcSessionSt := .deviceLinkReady
  rcVer : ℤ := -1
  isNoChecksum : Bool := false
  apVer : Bytes := []
  isRxFunctionCodeReady : Bool := false
  rxFunctionCode : UInt8 := 0
  rxChecksum : UInt16 := 0
  notes : UInt8 → Option RcFunctionNote := fun _ => none
  noRecvEvent : Bool := false
  log : List Event := []

/-- How a verification ends at once. -/
inductive AuthR
  | needsMore
  | success
  | failed (info : String)
  deriving DecidableEq, Repr

/-- What the session asks of others: its manager's agents, the authentication, the policies, and
what becomes of a request for a seed. The answers may depend on the calls so far. -/
structure Env where
  isInitiator : Bool
  functionMgr : UInt8 → Option RcFunctionAgent
  createAuthSession : List Event → Bytes → Bool
  /-- `none` where the answer does not come at once. -/
  authVerify : List Event → Bytes → Option AuthR
  hasPolicyAcl : Bool
  /-- A derived agent may make no note. -/
  createsNote : List Event → Bool
  /-- What is done with a copy of the parameters: an exception, a reason to log out, or neither. -/
  serve : List Event → UInt8 → Bytes → Except String (Option String)

namespace RcSession

variable (ses : RcSession) (rxbuf : DcQueueList) (env : Env)

def note (event : Event) : RcSession := { ses with log := event :: ses.log }

/-- `ForceLogout` by a function; the device is closed later. -/
def forceLogout (reason : String) : RcSession := ses.note (.forceLogout reason)

def resetNote (functionCode : UInt8) (note : RcFunctionNote) : RcSession :=
  { ses with notes := Function.update ses.notes functionCode (some note) }

/-! ### The functions -/

section Functions

variable {Q : Type} [DcQueue Q] (env : Env) (ses : RcSession) (recvBuffer : Q)

/-- `RcFuncLogout`. -/
def recvLogout : Except BitvError (RcSession × Q) := do
  let (_, recvBuffer) ← bitvToStr recvBuffer
  return ({ ses with sessionSt := .closing }, recvBuffer)

variable (remainParamSize : ℕ)

/-- `RcFuncHeartbeat`: removed, or read for the answer. -/
def recvHeartbeat : Except BitvError (RcSession × Q) :=
  if env.isInitiator then .ok (ses, DcQueue.popConsumed recvBuffer remainParamSize)
  else .ok (ses, (DcQueue.read recvBuffer remainParamSize).1)

/-- `RcFuncConnServer`. -/
def recvConnServer : Except BitvError (RcSession × Q) :=
  if RcSessionSt.connecting < ses.sessionSt then .ok (ses.forceLogout "Dup FuncConnServer", recvBuffer)
  else do
    let (apVer, recvBuffer) ← bitvToStr recvBuffer
    let (_, recvBuffer) ← bitvToStr recvBuffer
    return ({ ses with apVer := apVer, sessionSt := .connecting }, recvBuffer)

/-- `SendSasl`. -/
def sendSasl : RcSession :=
  if ses.sessionSt = .connecting ∨ ses.sessionSt = .logoning then { ses with sessionSt := .logoning } else ses

/-- `VerifyRequest`, with `OnAuthVerifyCB` and `OnSaslDone` where the answer comes at once. -/
def verifyRequest (response : Bytes) : RcSession :=
  match env.authVerify ses.log response with
  | none => ses
  | some .needsMore => ses.sendSasl
  | some .success => { ses.sendSasl with sessionSt := .apReady }
  | some (.failed info) => ses.sendSasl.forceLogout info

/-- `RcFuncSaslServer`. -/
def recvSaslServer : Except BitvError (RcSession × Q) := do
  let (mechName, recvBuffer) ← bitvToStr recvBuffer
  let (firstMessage, recvBuffer) ← bitvToStr recvBuffer
  if env.createAuthSession ses.log mechName then
    return ((ses.resetNote f9rc_FunctionCode_SASL .saslAuth).verifyRequest env firstMessage, recvBuffer)
  else return (ses.forceLogout "SASL mech not found.", recvBuffer)

/-- `RcServerNote_SaslAuth`. -/
def recvSaslAuth : Except BitvError (RcSession × Q) :=
  if RcSessionSt.logoning < ses.sessionSt then .ok (ses.forceLogout "Dup FuncSaslServer.", recvBuffer)
  else do
    let (response, recvBuffer) ← bitvToStr recvBuffer
    return (ses.verifyRequest env response, recvBuffer)

/-- `RcSeedVisitorServerAgent`: the parameters are not looked at. -/
def recvSeedVisitorAgent : Except BitvError (RcSession × Q) :=
  if ses.notes f9rc_FunctionCode_SASL = some .saslAuth then
    if env.hasPolicyAcl then
      if env.createsNote ses.log then
        .ok (ses.resetNote f9rc_FunctionCode_SeedVisitor .seedVisitorServer, recvBuffer)
      else .ok (ses, recvBuffer)
    else .ok (ses.forceLogout "Auth PolicyAclAgent not found.", recvBuffer)
  else .ok (ses.forceLogout "Auth SASL note not found.", recvBuffer)

def svFuncCode_Unsubscribe : UInt8 := 4

def kSubrIndexNull : IntType.uint32.Val := IntType.uint32.cast (2 ^ 32 - 1)

/-- `RcSeedVisitorServerNote`: an exception, or the session and the queue. But for the request to
unsubscribe the parameters are copied first. -/
def recvSeedVisitorNote : Except (BitvError ⊕ String) (RcSession × Q) :=
  match peek1 recvBuffer with
  | none => .ok (ses, recvBuffer)
  | some fc =>
    if remainParamSize = 0 then .ok (ses, recvBuffer)
    else
      let recvBuffer := DcQueue.popConsumed recvBuffer 1
      let remainParamSize := remainParamSize - 1
      if fc &&& 0x0f = svFuncCode_Unsubscribe then
        match bitvToInt .uint32 recvBuffer kSubrIndexNull with
        | .ok (_, recvBuffer) => .ok (ses, recvBuffer)
        | .error e => .error (.inl e)
      else
        let r := DcQueue.read recvBuffer remainParamSize
        match env.serve ses.log fc r.2 with
        | .error what => .error (.inr what)
        | .ok none => .ok (ses, r.1)
        | .ok (some reason) => .ok (ses.forceLogout reason, r.1)

/-- What a call comes to. -/
inductive Function
  | agent (agent : RcFunctionAgent)
  | note (note : RcFunctionNote)
  deriving DecidableEq, Repr

/-- `OnRecvFunctionCall`. -/
def onRecvFunctionCall : Function → Except (BitvError ⊕ String) (RcSession × Q)
  | .agent .logout => (ses.recvLogout recvBuffer).mapError .inl
  | .agent .heartbeat => (ses.recvHeartbeat env recvBuffer remainParamSize).mapError .inl
  | .agent .connServer => (ses.recvConnServer recvBuffer).mapError .inl
  | .agent .saslServer => (ses.recvSaslServer env recvBuffer).mapError .inl
  | .agent .seedVisitorServer => (ses.recvSeedVisitorAgent env recvBuffer).mapError .inl
  | .note .saslAuth => (ses.recvSaslAuth env recvBuffer).mapError .inl
  | .note .seedVisitorServer => ses.recvSeedVisitorNote env recvBuffer remainParamSize

end Functions

/-! ### Checksums -/

/-- `FeedCalcCheckSum`. -/
def feedCalcCheckSum (cksum : UInt16) (bytes : Bytes) : UInt16 :=
  bytes.foldl (fun cksum b => (((cksum &&& 1) <<< 15) ||| (cksum >>> 1)) + b.toUInt16) cksum

/-- The blocks of the buffer, one after the other, until all the bytes have been fed. -/
def feedBlocks (cksum : UInt16) (paramSize : ℕ) : List Bytes → UInt16
  | [] => cksum
  | blk :: blks =>
    if blk.length = 0 then feedBlocks cksum paramSize blks
    else
      let cksum := feedCalcCheckSum cksum (blk.take paramSize)
      if paramSize - blk.length = 0 then cksum else feedBlocks cksum (paramSize - blk.length) blks

def funcParam_CalcRcChecksum (buf : DcQueueList) (funcCode : UInt8) (paramSize : ℕ) : UInt16 :=
  if paramSize = 0 then funcCode.toUInt16 else feedBlocks funcCode.toUInt16 paramSize buf.blocks

/-! ### The parser -/

/-- What a turn of the parser comes to: more bytes are needed, there is no more to receive, or a
function has been called. -/
inductive Turn
  | wait (ses : RcSession) (rxbuf : DcQueueList)
  | close (ses : RcSession) (rxbuf : DcQueueList)
  | next (ses : RcSession) (rxbuf : DcQueueList)

/-- The checksum and the function code, unless they are there from the last time. -/
def takeHead : Option (RcSession × DcQueueList) :=
  if ses.isRxFunctionCodeReady then some (ses, rxbuf)
  else if ses.isNoChecksum then
    match peek1 rxbuf with
    | none => none
    | some functionCode =>
      some ({ ses with rxFunctionCode := functionCode, isRxFunctionCodeReady := true }, DcQueue.popConsumed rxbuf 1)
  else
    match DcQueue.peek rxbuf 3 with
    | some [hi, lo, functionCode] =>
      some ({ ses with
        rxChecksum := (hi.toUInt16 <<< 8) ||| lo.toUInt16
        rxFunctionCode := functionCode
        isRxFunctionCodeReady := true }, DcQueue.popConsumed rxbuf 3)
    | _ => none

/-- The note of the function, or its agent if the session is ready for it. -/
def findFunction (ses : RcSession) : Except String Function :=
  if ses.rxFunctionCode.toNat < f9rc_FunctionCode_Count then
    match ses.notes ses.rxFunctionCode with
    | some note => .ok (.note note)
    | none =>
      match env.functionMgr ses.rxFunctionCode with
      | some agent =>
        if ses.sessionSt < agent.sessionStRequired then .error "SessionSt not ready" else .ok (.agent agent)
      | none => .error "Unknown function code"
  else .error "Unknown function code"

/-- The texts that a caught exception is logged out with. -/
def exceptionText : BitvError ⊕ String → String
  | .inl (.needsMore what) => "Rc.BitvDecodeError:" ++ what
  | .inl (.typeNotMatch what) => "Rc.BitvDecodeError:" ++ what
  | .inl (.signedError what) => "Rc.BitvDecodeError:" ++ what
  | .inl (.overflow what) => "Rc.BitvDecodeError:" ++ what
  | .inl (.range what) => "Rc.BitvDecodeError:" ++ what
  | .inl (.outOfRange what) => "Rc.Exception:" ++ what
  | .inr what => "Rc.Exception:" ++ what

/-- `ForceLogout` by the parser: nothing more is received. -/
def refuse (reason : String) : Turn :=
  .close { ses.note (.refused reason) with noRecvEvent := true } rxbuf

/-- The call is dispatched. -/
def dispatch (ses : RcSession) (rxbuf : DcQueueList) (paramSize : ℕ) : Turn :=
  match ses.findFunction env with
  | .error reason => ses.refuse rxbuf reason
  | .ok function =>
    let ses := ses.note (.called ses.rxFunctionCode ((DcQueue.read rxbuf paramSize).2))
    match ses.onRecvFunctionCall env rxbuf paramSize function with
    | .ok (ses, rxbuf) => .next ses rxbuf
    | .error e => ses.refuse rxbuf (exceptionText e)

/-- A turn of `OnDevice_Recv_Parser`. -/
def turn (ses : RcSession) (rxbuf : DcQueueList) : Turn :=
  match ses.takeHead rxbuf with
  | none => .wait ses rxbuf
  | some (ses, rxbuf) =>
    match (InPlace.peekBitvByteArraySize rxbuf).1 with
    | .ok (.dataReady hdrSize, paramSize) =>
      let ses := { ses with isRxFunctionCodeReady := false }
      if ¬ ses.isNoChecksum ∧
          funcParam_CalcRcChecksum rxbuf ses.rxFunctionCode (hdrSize + paramSize) ≠ ses.rxChecksum then
        ses.refuse rxbuf "Checksum error"
      else ses.dispatch env (DcQueue.popConsumed rxbuf hdrSize) paramSize
    | .ok (_, paramSize) =>
      if kRcSession_FunctionParam_MaxSize < paramSize then ses.refuse rxbuf "Function param size over limit"
      else .wait ses rxbuf
    | .error (.raised e) => ses.refuse rxbuf (exceptionText (.inl e))
    | .error .strayRead => .wait ses rxbuf

/-- The turns of the parser; each that goes on takes a byte at least. -/
def parseLoop (env : Env) : ℕ → RcSession → DcQueueList → RcSession × DcQueueList
  | 0, ses, rxbuf => (ses, rxbuf)
  | fuel + 1, ses, rxbuf =>
    match turn env ses rxbuf with
    | .wait ses rxbuf => (ses, rxbuf)
    | .close ses rxbuf => (ses, rxbuf)
    | .next ses rxbuf => parseLoop env fuel ses rxbuf

def onDevice_Recv_Parser (ses : RcSession) (rxbuf : DcQueueList) : RcSession × DcQueueList :=
  parseLoop env (DcQueue.calcSize rxbuf + 1) ses rxbuf

/-! ### The version line -/

def protocolHead : Bytes := [102, 57, 114, 99, 46]

def protocolParam_NoChecksum : Bytes := [67, 104, 101, 99, 107, 115, 117, 109, 61, 78]

/-- `cstrProtocolHeadMax` has 18 bytes. -/
def protocolHeadMaxSize : ℕ := 18

/-- The parameters, separated by commas: `true` where all of them are known. -/
def takeParams : ℕ → RcSession → Bytes → RcSession × Bool
  | 0, ses, _ => (ses, true)
  | fuel + 1, ses, params =>
    if params = [] then (ses, true)
    else if params.takeWhile (· ≠ 44) = protocolParam_NoChecksum then
      takeParams fuel { ses with isNoChecksum := true } ((params.dropWhile (· ≠ 44)).drop 1)
    else (ses, false)

/-- `OnProtocolReady`. -/
def onProtocolReady : RcSession :=
  if ses.sessionSt < .protocolReady then { ses with sessionSt := .protocolReady } else ses

/-- The line is unknown: the device is closed. -/
def unknownProtocol : Turn := .close { ses with noRecvEvent := true } rxbuf

/-- The line is refused with a message. -/
def errorClose : Turn :=
  .close { ses with rcVer := -1, sessionSt := .closing, noRecvEvent := true } rxbuf

/-- `OnDevice_Recv_CheckProtocolVersion`: the current block is looked at. -/
def onDevice_Recv_CheckProtocolVersion : Turn :=
  let blk := rxbuf.currBlock
  match blk.findIdx? (· == 10) with
  | none => if blk.length < protocolHeadMaxSize then .wait ses rxbuf else ses.unknownProtocol rxbuf
  | some pend =>
    if blk.take 5 ≠ protocolHead then ses.unknownProtocol rxbuf
    else
      let rcVer : ℤ := ((blk.getD 5 0).toNat : ℤ) - 48
      if rcVer ≠ 0 then ses.errorClose rxbuf
      else
        let ses := { ses with rcVer := rcVer }
        let ready := fun ses : RcSession => Turn.next ses.onProtocolReady (DcQueue.popConsumed rxbuf (pend + 1))
        let last := blk.getD 6 0
        if last = 10 then ready ses
        else if last = 58 then
          match takeParams (blk.length + 1) ses ((blk.take pend).drop 7) with
          | (ses, true) => ready ses
          | (ses, false) => ses.errorClose rxbuf
        else ses.errorClose rxbuf

/-- `OnDevice_Recv`. -/
def onDevice_Recv (ses : RcSession) (rxbuf : DcQueueList) : RcSession × DcQueueList :=
  if ses.rcVer < 0 then
    match ses.onDevice_Recv_CheckProtocolVersion rxbuf with
    | .wait ses rxbuf => (ses, rxbuf)
    | .close ses rxbuf => (ses, rxbuf)
    | .next ses rxbuf => ses.onDevice_Recv_Parser env rxbuf
  else ses.onDevice_Recv_Parser env rxbuf

/-- Bytes arrive, and the session is told if it still wants to be. -/
def recv (s : RcSession × DcQueueList) (chunk : List Arrival) : RcSession × DcQueueList :=
  if s.1.noRecvEvent then s else s.1.onDevice_Recv env (chunk.foldl arrive s.2)

/-! ### The other side -/

/-- `SendProtocolVersion`. -/
def protocolVersion (isNoChecksum : Bool) : Bytes :=
  protocolHead ++ [48] ++ (if isNoChecksum then 58 :: protocolParam_NoChecksum else []) ++ [10]

def byteArraySizeToBitvT (byteCount : ℕ) : Bytes :=
  if byteCount = 0 then [bitvV_ByteArrayEmpty] else byteArraySizeToBitvT_NoEmpty byteCount

/-- `Send`: the parameters behind their size, the function code and the checksum of these. -/
def send (isNoChecksum : Bool) (fnCode : UInt8) (params : Bytes) : Bytes :=
  let rbuf := fnCode :: (byteArraySizeToBitvT params.length ++ params)
  if isNoChecksum then rbuf
  else
    let cksum := feedCalcCheckSum 0 rbuf
    (cksum >>> 8).toUInt8 :: cksum.toUInt8 :: rbuf

end RcSession

end Fon9.Rc
