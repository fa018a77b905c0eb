import Fon9.Mc.Packet

/-! The session that asks the exchange for lost packets. It logs in, sends one request at a time
and takes the packets that the answer announces out of the stream, up to the last of them. What
the session does on a link is recorded. -/

namespace Fon9.Mr

open Lib Buffer Pk Mc

inductive ExgMrState
  | linking | linkBroken | apReady | requesting
  deriving DecidableEq

/-- `ExgMrState::ApReady` or behind it. -/
def ExgMrState.isReady : ExgMrState → Bool
  | apReady | requesting => true
  | linking | linkBroken => false

/-- What a session is made with. -/
structure Args where
  isPrimary : Bool
  sessionId : ℕ
  pass : ℕ

/-- What a session has sent, received and told the device and the channels. -/
inductive Act
  | loginReq020 (mx checkCode sessionId msgSeqNum : ℕ)
  | heartbeat105 (msgSeqNum : ℕ)
  | recoverReq101 (channelId beginSeqNo recoverNum msgSeqNum : ℕ)
  | recoverSt102 (channelId beginSeqNo recoverNum : ℕ) (statusCode : UInt8)
  | pkReceived (pk : Bytes)
  | channelPkReceived (channelId : ℕ) (pk : Bytes)
  | onRecoverEnd (channelId : ℕ)
  | onRecoverErr (channelId beginSeqNo recoverNum : ℕ) (statusCode : UInt8)
  | addRecover (channelId : ℕ)
  | delRecover (channelId : ℕ)
  | stateUpdated (msg : Bytes)
  | asyncClose
  | asyncOpen
  | commonTimerRunAfter
  deriving DecidableEq

structure ExgMrRecoverSession where
  apReadyMsg : Bytes := []
  msgSeqNum : ℕ := 0
  requestCount : ℕ := 0
  recovering : ℕ := 0
  state : ExgMrState := .linking
  rx : PkReceiver := {}
  log : List Act := []

def kChannelCount : ℕ := 20

/-- The text of a message of the session. -/
def text (s : String) : Bytes := s.toList.map ch

/-! ### The messages of the exchange -/

/-- `sizeof(ExgMrMsgHeader)` -/
def kExgMrMsgHeaderSize : ℕ := 16

namespace ExgMrMsg

/-- A field of a message; `behind` is the memory that a message shorter than its layout is read on in. -/
def field (behind : ℕ → UInt8) (pk : Bytes) (offset size : ℕ) : ℕ :=
  BigEndian.value ((List.range size).map fun i => (pk[offset + i]?).getD (behind (offset + i)))

def getPacketSize (head : Bytes) : ℕ := BigEndian.value (head.take 2) + 3

/-- `ExgMrCalcCheckSum` -/
def calcCheckSum (pk : Bytes) (pksz : ℕ) : UInt8 := (pk.take (pksz - 1)).foldl (· + ·) 0

end ExgMrMsg

namespace ExgMrRecoverSession

variable (s : ExgMrRecoverSession)

def act (a : Act) : ExgMrRecoverSession := { s with log := s.log ++ [a] }

/-- An act on a channel, where there is such a channel. -/
def actOn (channelId : ℕ) (a : Act) : ExgMrRecoverSession := if channelId < kChannelCount then s.act a else s

/-! ### The link -/

/-- `OnDevice_LinkReady`; `gMx` is the last multiplication operator. The record starts here. -/
def onDeviceLinkReady (args : Args) (gMx : ℕ) : ExgMrRecoverSession :=
  let mx := u16 (gMx + 1)
  let mx := if mx ≤ 1 then u16 (mx + 465) else mx
  { s with
    recovering := 0
    apReadyMsg := []
    msgSeqNum := 1
    log := [.loginReq020 mx (u32 (mx * args.pass) / 100 % 100) args.sessionId 1] }

def setDelRecover (apStMsg : Bytes) : ExgMrRecoverSession :=
  (List.range kChannelCount).foldl (fun s channelId => s.act (.delRecover channelId)) (s.act (.stateUpdated apStMsg))

/-- `OnDevice_StateChanged` -/
def onDeviceStateChanged : ExgMrRecoverSession :=
  if s.state.isReady then { s with state := .linkBroken }.setDelRecover (text "ApBroken") else s

/-- The numbers of a list of channels, each behind a colon or a comma. -/
def channelList : ℕ → Bytes → List ℕ
  | 0, _ => []
  | _ + 1, [] => []
  | fuel + 1, _ :: chList =>
    let r := strToUInt 65535 chList 0
    r.1 :: channelList fuel r.2

/-- `OnDevice_CommonTimer` -/
def onDeviceCommonTimer : ExgMrRecoverSession :=
  let chList := s.apReadyMsg.dropWhile (· ≠ ch ':')
  if chList = [] then s
  else
    (channelList chList.length chList).foldl (fun s channelId => s.actOn channelId (.addRecover channelId))
      ({ s with state := .apReady }.act (.stateUpdated (s.apReadyMsg ++ text "/Resume")))

/-! ### Requests and packets -/

/-- `RequestMcRecover` -/
def requestMcRecover (channelId «from» count : ℕ) : ExgMrRecoverSession × ExgMrState :=
  if s.state.isReady = false then (s, s.state)
  else if s.state = .requesting then (s, .apReady)
  else
    let msgSeqNum := u32 (s.msgSeqNum + 1)
    ({ s with state := .requesting, requestCount := u32 (s.requestCount + 1), msgSeqNum := msgSeqNum }.act
      (.recoverReq101 channelId «from» count msgSeqNum), .requesting)

/-- `OnPkReceived` -/
def onPkReceived (pk : Bytes) : ExgMrRecoverSession × Bool :=
  let channelId := ExgMcHead.getChannelId pk
  let isRecovering := decide (0 < s.recovering - 1)
  let s := { s with recovering := s.recovering - 1, state := if isRecovering then s.state else .apReady }.act (.pkReceived pk)
  let s := s.actOn channelId (.channelPkReceived channelId pk)
  (if isRecovering then s else s.actOn channelId (.onRecoverEnd channelId), isRecovering)

/-! ### Messages -/

/-- A login reply (030). -/
def onLoginCfm030 (args : Args) (channelId : ℕ) : ExgMrRecoverSession :=
  let s := if s.state.isReady then s else { s with state := .apReady }
  if channelId < kChannelCount then
    { s with
      apReadyMsg :=
        (if s.apReadyMsg = [] then text (if args.isPrimary then "ApReady.P:" else "ApReady.S:")
        else s.apReadyMsg ++ [ch ',']) ++ uintToStr channelId }.act (.addRecover channelId)
  else s

/-- An answer to a request (102). -/
def onRecoverSt102 (channelId beginSeqNo recoverNum : ℕ) (statusCode : UInt8) : ExgMrRecoverSession :=
  let s := { s with recovering := recoverNum }.act (.recoverSt102 channelId beginSeqNo recoverNum statusCode)
  if statusCode ≠ 0 then
    let s :=
      if recoverNum = 0 then
        { s with state := .apReady }.actOn channelId (.onRecoverErr channelId beginSeqNo recoverNum statusCode)
      else s
    if statusCode = 9 then (s.setDelRecover (text "OverTimes.Suspend")).act .commonTimerRunAfter else s
  else s

end ExgMrRecoverSession

/-- What is left to do after a turn of the loop of `OnDevice_Recv`. -/
inductive Turn (Q : Type)
  | stop (s : ExgMrRecoverSession)
  | closeRecv (s : ExgMrRecoverSession)
  | next (s : ExgMrRecoverSession) (rxbuf : Q)

namespace Turn

variable {Q : Type}

def session : Turn Q → ExgMrRecoverSession
  | stop s | closeRecv s | next s _ => s

end Turn

namespace ExgMrRecoverSession

variable {Q : Type} [DcQueue Q] (s : ExgMrRecoverSession)

/-- The receiver of the packets, interrupted at each of them. -/
def pkConfig : Config := { exgMcPkReceiver with onPkReceived := fun _ => false }

/-- A turn of the loop of `FeedBuffer`, which goes on as long as `OnPkReceived` says so. -/
def feedTurn (rxbuf : Q) : Turn Q :=
  match s.rx.turn pkConfig rxbuf with
  | .stop => .stop s
  | .next rx rxbuf => .next { s with rx := rx } rxbuf
  | .interrupt rx rxbuf => .next ({ s with rx := rx }.onPkReceived (rx.received.getLastD [])).1 rxbuf

/-- What a message with a good checksum brings; none where the link is closed. -/
def onMsg (args : Args) (behind : ℕ → UInt8) (pk : Bytes) : Option ExgMrRecoverSession :=
  let field := ExgMrMsg.field behind pk
  match field 2 2 with
  | 10 => none
  | 30 => some (s.onLoginCfm030 args (field 16 2))
  | 50 => some (s.act (.stateUpdated s.apReadyMsg))
  | 104 =>
    let msgSeqNum := u32 (s.msgSeqNum + 1)
    some ({ s with msgSeqNum := msgSeqNum }.act (.heartbeat105 msgSeqNum))
  | 102 => some (s.onRecoverSt102 (field 16 2) (field 19 4) (field 23 2) (UInt8.ofNat (field 18 1)))
  | _ => some s

/-- A turn of the loop over the messages. -/
def msgTurn (args : Args) (behind : ℕ → UInt8) (rxbuf : Q) : Turn Q :=
  match DcQueue.peek rxbuf kExgMrMsgHeaderSize with
  | none => .stop s
  | some head =>
    let pksz := ExgMrMsg.getPacketSize head
    match DcQueue.peek rxbuf pksz with
    | none => .stop s
    | some pk =>
      if pk[pksz - 1]? ≠ some (ExgMrMsg.calcCheckSum pk pksz) then .closeRecv (s.act .asyncClose)
      else
        match s.onMsg args behind pk with
        | none => .closeRecv ((s.act .asyncClose).act .asyncOpen)
        | some s => .next s (DcQueue.popConsumed rxbuf pksz)

/-- A turn of `OnDevice_Recv`: packets as long as some are awaited, else a message. -/
def turn (args : Args) (behind : ℕ → UInt8) (rxbuf : Q) : Turn Q :=
  if 0 < s.recovering then s.feedTurn rxbuf else s.msgTurn args behind rxbuf

/-- `OnDevice_Recv`. Each turn takes a byte at least, so that the size of the queue bounds the
number of turns. -/
def onDeviceRecvLoop (args : Args) (behind : ℕ → UInt8) : ℕ → ExgMrRecoverSession → Q → ExgMrRecoverSession
  | 0, s, _ => s
  | fuel + 1, s, rxbuf =>
    match s.turn args behind rxbuf with
    | .stop s | .closeRecv s => s
    | .next s rxbuf => onDeviceRecvLoop args behind fuel s rxbuf

def onDeviceRecv (args : Args) (behind : ℕ → UInt8) (rxbuf : Q) : ExgMrRecoverSession :=
  onDeviceRecvLoop args behind (DcQueue.calcSize rxbuf + 1) s rxbuf

end ExgMrRecoverSession

end Fon9.Mr
