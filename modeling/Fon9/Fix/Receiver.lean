import Fon9.Fix.Parser

/-! The FIX receiver: `FixReceiver` with the receiving side of its `FixRecorder`.
A message in sequence goes to the handler of its type and moves `NextRecvSeq_` on;
one that is too high opens a gap, for which the missing numbers are requested again
while messages that stay valid are kept. The derived class is a state of its own
that handlers and virtual calls change. Beside what the code holds, a history
follows `NextRecvSeq_`, the kept messages and the calls to `OnRecoverDone`. -/

namespace Fon9.Fix

open Lib

/-- Where a message number stands against the expected one. -/
inductive FixSeqSt
  | conform
  | tooHigh
  | tooLow
  deriving DecidableEq

def compareFixSeqNum (rxMsgSeqNum expectSeqNum : ℕ) : FixSeqSt :=
  if rxMsgSeqNum = expectSeqNum then .conform
  else if rxMsgSeqNum < expectSeqNum then .tooLow
  else .tooHigh

structure GapFlags where
  keepRequired : Bool := false
  skipRecord : Bool := false
  deriving DecidableEq

def gapDontKeep : GapFlags := {}

def gapKeepRequired : GapFlags := { keepRequired := true }

def gapSkipRecord : GapFlags := { skipRecord := true }

/-- The flags of `FixSeqAllow_`. -/
structure FixSeqAllow where
  tooHigh : Bool := false
  tooLow : Bool := false
  noPreRecord : Bool := false
  deriving DecidableEq

def FixSeqAllow.contains (allow : FixSeqAllow) : FixSeqSt → Bool
  | .conform => true
  | .tooHigh => allow.tooHigh
  | .tooLow => allow.tooLow

/-- The lines a receiver writes to the recorder, less their times. -/
inductive Record
  | recv (msg : Bytes)
  | error (msg : Bytes)
  | gapRecv (msg : Bytes)
  | ignoreRecv (msg : Bytes)
  | replay (msg : Bytes)
  | info (text : Bytes)
  | idx (nextRecvSeq : ℕ)
  | rst (nextRecvSeq : ℕ)
  deriving DecidableEq

/-- A place where a number is taken: a message given to its handler (or refused for
want of one), a message only recorded, or a number set from outside. `before` and
`after` are `NextRecvSeq_` around it. -/
inductive Move
  | dispatched (msg : FixMsg) (seqSt : FixSeqSt) (before after : ℕ)
  | recorded (msg : FixMsg) (before after : ℕ)
  | forced (before after : ℕ)
  deriving DecidableEq

/-- A call to `OnRecoverDone`. -/
structure RecoverDone where
  nextRecvSeq : ℕ
  lastGapSeqNo : ℕ
  deriving DecidableEq

/-- What has happened: the moves and the recoveries since the start, and the messages
kept, those taken out again for dispatch and the highest number seen since the
keeper was last cleared. -/
structure History where
  moves : List Move := []
  dones : List RecoverDone := []
  kept : List FixMsg := []
  taken : List FixMsg := []
  seen : ℕ := 0
  deriving DecidableEq

/-- The data of the receiver that decide about the sequence. -/
structure Core where
  nextRecvSeq : ℕ := 1
  msgKeeper : List FixMsg := []
  resendRequestEndSeqNo : ℕ := 0
  lastGapSeqNo : ℕ := 0
  history : History := {}
  deriving DecidableEq

structure FixReceiver (σ : Type*) extends Core where
  records : List Record := []
  sent : List Sent := []
  derived : σ

/-- What a handler of the derived class does: its new state, what it writes and
sends, and the call to `OnMsgSeqNumNotExpected` it ends with. -/
structure HandlerEffect (σ : Type*) where
  derived : σ
  records : List Record := []
  sent : List Sent := []
  notExpected : Option GapFlags := none

/-- A handler of the derived class. `writesConform`: it calls `WriteInputConform`
for a message in sequence. -/
structure UserHandler (σ : Type*) where
  writesConform : Bool := false
  onMsg : FixReceiver σ → FixMsg → FixSeqSt → HandlerEffect σ

inductive FixMsgHandler (σ : Type*)
  | onRecvSequenceReset
  | onRecvResendRequest
  | user (h : UserHandler σ)

structure FixMsgTypeConfig (σ : Type*) where
  isInfiniteTTL : Bool := false
  fixSeqAllow : FixSeqAllow := {}
  fixMsgHandler : Option (FixMsgHandler σ) := none

/-- What a receiver is set up with: the message types, the CompIDs, and the virtual
calls to the derived class. -/
structure Env (σ : Type*) where
  compIDs : CompIDs
  config : Bytes → Option (FixMsgTypeConfig σ)
  onRecoverDone : σ → σ × List Sent := fun d => (d, [])
  onLogoutRequired : σ → Bytes → σ × List Sent :=
    fun d text => (d, [.send kMsgTypeLogout [(kTagText, text)]])

/-- `FixReceiver::InitFixConfig`, over the types registered elsewhere. -/
def initFixConfig {σ : Type*} (config : Bytes → Option (FixMsgTypeConfig σ)) :
    Bytes → Option (FixMsgTypeConfig σ) := fun msgType =>
  if msgType = kMsgTypeSequenceReset then
    some { fixSeqAllow := ⟨true, true, true⟩, fixMsgHandler := some .onRecvSequenceReset }
  else if msgType = kMsgTypeResendRequest then
    some { fixSeqAllow := ⟨true, true, true⟩, fixMsgHandler := some .onRecvResendRequest }
  else config msgType

variable {σ : Type*} (env : Env σ)

namespace FixReceiver

variable (s : FixReceiver σ) (msg : FixMsg) (seqSt : FixSeqSt)

def write (r : Record) : FixReceiver σ := { s with records := s.records ++ [r] }

def send (m : Sent) : FixReceiver σ := { s with sent := s.sent ++ [m] }

def writeInputConform : FixReceiver σ :=
  { s with
    nextRecvSeq := u32 (s.nextRecvSeq + 1)
    records := s.records ++ [.recv msg.origMsgStr] }

def writeInputSeqReset (newSeqNo : ℕ) (isGapFill : Bool) :
    FixReceiver σ :=
  { s with
    nextRecvSeq := newSeqNo
    records := s.records ++
      [.recv msg.origMsgStr, if isGapFill then .idx newSeqNo else .rst newSeqNo] }

def forceResetRecvSeq (info : Bytes) (newSeqNo : ℕ) : FixReceiver σ :=
  { s with
    nextRecvSeq := newSeqNo
    records := s.records ++ [.info info, .rst newSeqNo]
    history.moves := s.history.moves ++ [.forced s.nextRecvSeq newSeqNo] }

def clearRecvKeeper : FixReceiver σ :=
  { s with
    msgKeeper := []
    resendRequestEndSeqNo := 0
    lastGapSeqNo := 0
    history := { moves := s.history.moves, dones := s.history.dones } }

def sendResendRequest (beginSeqNo endSeqNo : ℕ) : FixReceiver σ :=
  { s with
    resendRequestEndSeqNo := endSeqNo
    sent := s.sent ++ [.send kMsgTypeResendRequest
      [(kTagBeginSeqNo, uintToStr beginSeqNo), (kTagEndSeqNo, uintToStr endSeqNo)]] }

def onRecoverDone : FixReceiver σ :=
  let r := env.onRecoverDone s.derived
  { s with
    resendRequestEndSeqNo := 0
    lastGapSeqNo := 0
    records := s.records ++ [.info (cstr "OnRecoverDone|NextRecvSeq=" ++ uintToStr s.nextRecvSeq)]
    sent := s.sent ++ r.2
    derived := r.1
    history.dones := s.history.dones ++ [⟨s.nextRecvSeq, s.lastGapSeqNo⟩] }

def onMsgSeqNumTooLow : FixReceiver σ :=
  if msg.isFlagSet kTagPossDupFlag then s.write (.ignoreRecv msg.origMsgStr)
  else
    let s := s.write (.error msg.origMsgStr)
    let r := env.onLogoutRequired s.derived (cstr "MsgSeqNum too low, expecting " ++
      uintToStr s.nextRecvSeq ++ cstr " but received " ++ uintToStr msg.msgSeqNum)
    { s with sent := s.sent ++ r.2, derived := r.1 }

/-- The line `OnMsgSeqNumNotExpected` writes, unless it is told to skip it. -/
def writeGap (flags : GapFlags) (r : Record) : FixReceiver σ :=
  if flags.skipRecord then s else s.write r

/-- The part of `OnMsgSeqNumNotExpected` about a number that is too high. -/
def onMsgSeqNumTooHigh (flags : GapFlags) : FixReceiver σ :=
  if msg.msgSeqNum ≤ s.lastGapSeqNo then s.writeGap flags (.ignoreRecv msg.origMsgStr)
  else
    let s : FixReceiver σ := { s with lastGapSeqNo := msg.msgSeqNum }
    let s : FixReceiver σ :=
      if flags.keepRequired then
        let s := s.writeGap flags (.gapRecv msg.origMsgStr)
        { s with msgKeeper := s.msgKeeper ++ [msg], history.kept := s.history.kept ++ [msg] }
      else s.writeGap flags (.ignoreRecv msg.origMsgStr)
    let msgSeqNum := if flags.keepRequired then msg.msgSeqNum - 1 else msg.msgSeqNum
    if s.resendRequestEndSeqNo > 0 then s
    else s.sendResendRequest s.nextRecvSeq msgSeqNum

def onMsgSeqNumNotExpected (flags : GapFlags) :
    FixReceiver σ :=
  match seqSt with
  | .conform => s
  | .tooLow => s.onMsgSeqNumTooLow env msg
  | .tooHigh => s.onMsgSeqNumTooHigh msg flags

/-- Note in the history that a message has been recorded without being handled. -/
def noteRecorded (before : ℕ) : FixReceiver σ :=
  { s with history.moves := s.history.moves ++ [.recorded msg before s.nextRecvSeq] }

def onBadCompID (errTag : ℕ) (msgType : Bytes) :
    FixReceiver σ :=
  let s' :=
    if seqSt = .conform then (s.writeInputConform msg).noteRecorded msg s.nextRecvSeq
    else s.write (.error msg.origMsgStr)
  s'.send (sendSessionReject msg.msgSeqNum errTag msgType
    [(kTagSessionRejectReason, cstr "9"), (kTagText, cstr "CompID problem")])

/-- `OnRecvSequenceReset`, up to the call to `CheckMsgKeeper` it may end with; the
argument of that call is returned. -/
def onRecvSequenceReset :
    FixReceiver σ × Option ℕ :=
  let isGapFill := msg.isFlagSet kTagGapFillFlag
  if isGapFill && seqSt ≠ .conform then (s.onMsgSeqNumNotExpected env msg seqSt gapDontKeep, none)
  else
    match msg.seqNumOf kTagNewSeqNo with
    | none =>
      ((s.write (.error msg.origMsgStr)).send
        (sendRequiredTagMissing msg.msgSeqNum kTagNewSeqNo kMsgTypeSequenceReset), none)
    | some newSeqNo =>
      if isGapFill then
        if newSeqNo < msg.msgSeqNum then
          ((s.writeInputConform msg).send
            (sendSessionReject msg.msgSeqNum kTagNewSeqNo kMsgTypeSequenceReset
              [(kTagSessionRejectReason, cstr "5"),
                (kTagText, cstr "NewSeqNo(" ++ uintToStr newSeqNo ++ cstr ") < Expection(" ++
                  uintToStr msg.msgSeqNum ++ cstr ")")]), none)
        else
          let s := s.writeInputSeqReset msg newSeqNo true
          if s.resendRequestEndSeqNo < newSeqNo then
            ({ s with resendRequestEndSeqNo := 0 }, some newSeqNo)
          else (s, none)
      else ((s.clearRecvKeeper.writeInputSeqReset msg newSeqNo false).onRecoverDone env, none)

/-- `OnRecvResendRequest` with both fields present, or the first that is missing. -/
def onRecvResendRequest : FixReceiver σ :=
  let s := s.write (.replay msg.origMsgStr)
  let s :=
    match msg.seqNumOf kTagBeginSeqNo, msg.seqNumOf kTagEndSeqNo with
    | some beginSeqNo, some endSeqNo => s.send (.replay beginSeqNo endSeqNo)
    | none, _ => s.send (sendRequiredTagMissing msg.msgSeqNum kTagBeginSeqNo kMsgTypeResendRequest)
    | some _, none => s.send (sendRequiredTagMissing msg.msgSeqNum kTagEndSeqNo kMsgTypeResendRequest)
  s.onMsgSeqNumNotExpected env msg seqSt gapSkipRecord

/-- A handler of the derived class at work. -/
def callUser (h : UserHandler σ) (msg : FixMsg) (seqSt : FixSeqSt) : FixReceiver σ :=
  let s := if h.writesConform && seqSt = .conform then s.writeInputConform msg else s
  let r := h.onMsg s msg seqSt
  let s := { s with records := s.records ++ r.records, sent := s.sent ++ r.sent, derived := r.derived }
  match r.notExpected with
  | some flags => s.onMsgSeqNumNotExpected env msg seqSt flags
  | none => s

/-- `FixMsgHandler_(rxargs)`, up to the call to `CheckMsgKeeper` it may end with. -/
def callHandler (h : FixMsgHandler σ) (msg : FixMsg) (seqSt : FixSeqSt) :
    FixReceiver σ × Option ℕ :=
  match h with
  | .onRecvSequenceReset => s.onRecvSequenceReset env msg seqSt
  | .onRecvResendRequest => (s.onRecvResendRequest env msg seqSt, none)
  | .user h => (s.callUser env h msg seqSt, none)

/-- Note in the history that a message has been handled. -/
def noteDispatched (before : ℕ) : FixReceiver σ :=
  { s with history.moves := s.history.moves ++ [.dispatched msg seqSt before s.nextRecvSeq] }

/-- Note in the history the number of a message whose header is in order. -/
def see : FixReceiver σ :=
  { s with history.seen := max s.history.seen msg.msgSeqNum }

/-- Note in the history that a kept message is taken out for dispatch. -/
def noteTaken : FixReceiver σ :=
  { s with history.taken := s.history.taken ++ [msg] }

section Dispatch

-- `CheckMsgKeeper`, on which the dispatch of a message depends.
variable (check : FixReceiver σ → ℕ → FixReceiver σ)

variable (s : FixReceiver σ)

def onMessageProcessed (msgSeqNumProcessed : ℕ) : FixReceiver σ :=
  if s.resendRequestEndSeqNo > 0 ∧ msgSeqNumProcessed = s.resendRequestEndSeqNo then
    check s (u32 (msgSeqNumProcessed + 1))
  else s

/-- A handler called for a message, and the call to `CheckMsgKeeper` it may end with. -/
def handle (h : FixMsgHandler σ) (msg : FixMsg) (seqSt : FixSeqSt) (before : ℕ) :
    FixReceiver σ :=
  let r := s.callHandler env h msg seqSt
  let s := r.1.noteDispatched msg seqSt before
  match r.2 with
  | some newSeqNo => check s newSeqNo
  | none => s

/-- The branch of `DispatchFixMessage` for a message in sequence. -/
def dispatchConform (msg : FixMsg) (msgType : Bytes) (cfg : Option (FixMsgTypeConfig σ)) : FixReceiver σ :=
  let before := s.nextRecvSeq
  let s :=
    match cfg.bind fun c => c.fixMsgHandler.map fun h => (c, h) with
    | some (c, h) =>
      let s := if c.fixSeqAllow.noPreRecord then s else s.writeInputConform msg
      s.handle env check h msg .conform before
    | none =>
      ((s.writeInputConform msg).send (sendInvalidMsgType msg.msgSeqNum msgType)).noteDispatched
        msg .conform before
  s.onMessageProcessed check msg.msgSeqNum

/-- The branch of `DispatchFixMessage` for a message out of sequence. -/
def dispatchNotExpected (msg : FixMsg) (seqSt : FixSeqSt) (cfg : Option (FixMsgTypeConfig σ)) : FixReceiver σ :=
  match cfg with
  | none => s.onMsgSeqNumNotExpected env msg seqSt gapDontKeep
  | some c =>
    match c.fixMsgHandler with
    | some h =>
      if c.fixSeqAllow.contains seqSt then s.handle env check h msg seqSt s.nextRecvSeq
      else s.onMsgSeqNumNotExpected env msg seqSt (if c.isInfiniteTTL then gapKeepRequired else gapDontKeep)
    | none => s.onMsgSeqNumNotExpected env msg seqSt (if c.isInfiniteTTL then gapKeepRequired else gapDontKeep)

def dispatchWith (msg : FixMsg) : FixReceiver σ :=
  match msg.getField kTagMsgType with
  | none =>
    (s.write (.error msg.origMsgStr)).send (sendRequiredTagMissing msg.msgSeqNum kTagMsgType [])
  | some msgType =>
    let seqSt := compareFixSeqNum msg.msgSeqNum s.nextRecvSeq
    let errTag := env.compIDs.check msg
    if errTag ≠ 0 then s.onBadCompID msg seqSt errTag msgType
    else
      let s := s.see msg
      if seqSt = .conform then s.dispatchConform env check msg msgType (env.config msgType)
      else s.dispatchNotExpected env check msg seqSt (env.config msgType)

end Dispatch

def popKeeper : FixReceiver σ := { s with msgKeeper := s.msgKeeper.tail }

/-- The loop of `CheckMsgKeeper`. A kept message is dispatched like a received one,
so the loop may be entered again from inside; `fuel` bounds the turns of both. -/
def checkMsgKeeper : ℕ → FixReceiver σ → ℕ → FixReceiver σ
  | 0, s, _ => s
  | fuel + 1, s, newSeqNo =>
    match s.msgKeeper with
    | [] =>
      if newSeqNo < s.lastGapSeqNo then s.sendResendRequest newSeqNo s.lastGapSeqNo
      else s.onRecoverDone env
    | msg :: _ =>
      if newSeqNo < msg.msgSeqNum then s.sendResendRequest newSeqNo (msg.msgSeqNum - 1)
      else
        let r :=
          if newSeqNo = msg.msgSeqNum then
            ((s.noteTaken msg).dispatchWith env (checkMsgKeeper fuel) msg, u32 (newSeqNo + 1))
          else (s, newSeqNo)
        checkMsgKeeper fuel r.1.popKeeper r.2

/-- `DispatchFixMessage`. The loop of `CheckMsgKeeper` takes a message off the keeper
each turn, and one more turn ends it. -/
def dispatchFixMessage : FixReceiver σ :=
  s.dispatchWith env (fun s n => s.checkMsgKeeper env (s.msgKeeper.length + 1) n) msg

/-- The Logon request of the other side, at an acceptor: recorded in sequence, and
reported as a gap above it. -/
def acceptLogon : FixReceiver σ :=
  match compareFixSeqNum msg.msgSeqNum s.nextRecvSeq with
  | .tooLow => s.write (.error msg.origMsgStr)
  | .conform => ((s.writeInputConform msg).noteRecorded msg s.nextRecvSeq).see msg
  | .tooHigh => ((s.write (.ignoreRecv msg.origMsgStr)).onMsgSeqNumTooHigh msg gapSkipRecord).see msg

end FixReceiver

/-- What can happen to a receiver: a message arrives, an acceptor takes a Logon
request, the connection is cleared, the number is forced, or the derived class does
something of its own (timers, sends). -/
inductive Op (σ : Type*)
  | dispatch (msg : FixMsg)
  | acceptLogon (msg : FixMsg)
  | clearRecvKeeper
  | forceResetRecvSeq (info : Bytes) (newSeqNo : ℕ)
  | derived (f : σ → σ)

def step (s : FixReceiver σ) : Op σ → FixReceiver σ
  | .dispatch msg => s.dispatchFixMessage env msg
  | .acceptLogon msg => s.acceptLogon msg
  | .clearRecvKeeper => s.clearRecvKeeper
  | .forceResetRecvSeq info newSeqNo => s.forceResetRecvSeq info newSeqNo
  | .derived f => { s with derived := f s.derived }

def run (s : FixReceiver σ) (ops : List (Op σ)) : FixReceiver σ := ops.foldl (step env) s

end Fon9.Fix
