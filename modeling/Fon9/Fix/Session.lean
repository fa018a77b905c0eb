import Fon9.Fix.Recovery

/-! The FIX session: `FixSession` over its receiver, with the logon of `IoFixManager` for
an acceptor. The session state is the derived state of the receiver; the handlers of
the administrative messages and the timer move it on. Calls to the device, the timer
and the manager are recorded. The session uses one sender, hence one recorder. -/

namespace Fon9.Fix

open Lib

inductive FixSessionSt
  | disconnected
  | connected
  | logonSent
  | logonRecovering
  | logonTest
  | apReady
  | logoutPending
  deriving DecidableEq

/-- The value of the enumeration, by which states are compared. -/
def FixSessionSt.toNat : FixSessionSt → ℕ
  | disconnected => 0
  | connected => 1
  | logonSent => 2
  | logonRecovering => 3
  | logonTest => 4
  | apReady => 5
  | logoutPending => 6

/-- `TimeInterval_Second`, in microseconds. -/
def timeIntervalSecond (n : ℕ) : ℤ := n * 1000000

/-- What the session's manager does with a Logon request: `OnLogonAccepted`, a Logout
with the fields it has filled in, or nothing. -/
inductive LogonDecision
  | accepted
  | refused (fields : List (ℕ × Bytes))
  | ignored

def LogonDecision.isAccepted : LogonDecision → Bool
  | accepted => true
  | _ => false

/-- The part of `FixConfig` the session uses, and its manager. -/
structure SessionConfig where
  tiWaitForLogon : ℤ := timeIntervalSecond 3
  tiLogonRecover : ℤ := timeIntervalSecond 10
  tiLogonTest : ℤ := timeIntervalSecond 1
  maxLogonTestCount : ℕ := 10
  hbTestRequestCount : ℕ := 2
  tiLogoutPending : ℤ := timeIntervalSecond 10
  onRecvLogonRequest : FixMsg → LogonDecision := fun _ => .accepted
  deviceId : Bytes := []

/-- What the receiver knows when the session becomes ready. -/
structure ApReadyView where
  resendRequestEndSeqNo : ℕ
  nextRecvSeq : ℕ
  seen : ℕ
  deriving DecidableEq

/-- The state of the session beside its receiver, with the application's own state, the
timer it has set, the calls to close the session and the messages it has forced out.
`apReady` notes each entry into the ApReady state. -/
structure FixSession (τ : Type*) where
  fixSt : FixSessionSt := .disconnected
  heartBtInt : ℕ := 0
  hbTestCount : ℕ := 0
  msgReceivedCount : ℕ := 0
  resetNextSendSeq : ℕ := 0
  resetNextRecvSeq : ℕ := 0
  hasSender : Bool := false
  timer : Option ℤ := none
  closed : List Bytes := []
  forced : List (List (ℕ × Bytes)) := []
  apReady : List ApReadyView := []
  app : τ

variable {τ : Type*} (cfg : SessionConfig)

namespace FixSession

variable (d : FixSession τ)

def closeFixSession (cause : Bytes) : FixSession τ := { d with closed := d.closed ++ [cause] }

/-- `SendLogout`, `fields` being those in the builder. Without a sender the message goes
out by force, with the CompIDs of the last message turned round. -/
def sendLogout (fields : List (ℕ × Bytes)) : FixSession τ × List Sent :=
  if d.hasSender then
    if d.fixSt ≠ .logoutPending then
      ({ d with fixSt := .logoutPending, timer := some cfg.tiLogoutPending }, [.send kMsgTypeLogout fields])
    else (d, [])
  else
    ({ d with
      fixSt := .disconnected
      timer := none
      forced := d.forced ++ [(kTagMsgType, kMsgTypeLogout) :: (kTagMsgSeqNum, cstr "0") :: fields]
      closed := d.closed ++ (fields.lookup kTagText).toList.map (cstr "ForceLogout:" ++ ·) }, [])

def sendLogonTestRequest : FixSession τ × List Sent :=
  if FixSessionSt.logonSent.toNat ≤ d.fixSt.toNat ∧ d.fixSt.toNat ≤ FixSessionSt.logonTest.toNat then
    ({ d with fixSt := .logonTest, timer := some cfg.tiLogonTest },
      [.send kMsgTypeTestRequest [(kTagTestReqID, cstr "LogonTest")]])
  else (d, [])

/-- `SetApReadySt`: the new state and the lines written. -/
def setApReadySt (view : ApReadyView) : FixSession τ × List Record :=
  if d.fixSt.toNat < FixSessionSt.apReady.toNat then
    if d.hasSender then
      ({ d with
        hbTestCount := 0
        fixSt := .apReady
        timer := some (timeIntervalSecond d.heartBtInt)
        apReady := d.apReady ++ [view] }, [.info (cstr "ApReady")])
    else (d.closeFixSession (cstr "SetApReadySt|err=No FixSender."), [])
  else (d, [])

/-- `OnLogonResponsed`, up to the call to `OnMsgSeqNumNotExpected` it ends with out of
sequence. -/
def onLogonResponsed (seqSt : FixSeqSt) : FixSession τ × List Sent :=
  if seqSt = .conform then d.sendLogonTestRequest cfg
  else
    ({ d with fixSt := .logonRecovering, msgReceivedCount := 0, timer := some cfg.tiLogonRecover }, [])

end FixSession

/-- What a handler of the application does: its new state, what it writes and sends, a
`SendLogout`, and the call to `OnMsgSeqNumNotExpected` it ends with. -/
structure AppEffect (τ : Type*) where
  app : τ
  records : List Record := []
  sent : List Sent := []
  logout : Option Bytes := none
  notExpected : Option GapFlags := none

structure AppHandler (τ : Type*) where
  writesConform : Bool := false
  onMsg : FixReceiver (FixSession τ) → FixMsg → FixSeqSt → AppEffect τ

structure AppConfig (τ : Type*) where
  isInfiniteTTL : Bool := false
  fixSeqAllow : FixSeqAllow := {}
  fixMsgHandler : Option (AppHandler τ) := none

def apReadyView (s : FixReceiver (FixSession τ)) : ApReadyView :=
  ⟨s.resendRequestEndSeqNo, s.nextRecvSeq, s.history.seen⟩

def onRecvHeartbeat : UserHandler (FixSession τ) where
  onMsg s _ _ :=
    let r := s.derived.setApReadySt (apReadyView s)
    { derived := r.1, records := r.2 }

def onRecvTestRequest : UserHandler (FixSession τ) where
  onMsg s msg _ :=
    let r := s.derived.setApReadySt (apReadyView s)
    { derived := r.1, records := r.2, sent := [sendHeartbeat (msg.getField kTagTestReqID)] }

def onRecvLogonResponse : UserHandler (FixSession τ) where
  onMsg s msg seqSt :=
    if s.derived.fixSt = .logonSent then
      let r := s.derived.onLogonResponsed cfg seqSt
      { derived := r.1, sent := r.2, notExpected := some gapDontKeep }
    else { derived := s.derived, sent := [sendInvalidMsgType msg.msgSeqNum kMsgTypeLogon] }

def onRecvLogout : UserHandler (FixSession τ) where
  onMsg s msg seqSt :=
    if seqSt = .tooLow then { derived := s.derived, notExpected := some gapDontKeep }
    else
      let r :=
        if s.derived.fixSt = .apReady then s.derived.sendLogout cfg [(kTagText, cstr "Logout response")]
        else (s.derived, [])
      { derived := r.1
        records := if seqSt = .conform then [] else [.ignoreRecv msg.origMsgStr]
        sent := r.2
        notExpected := some gapDontKeep }

/-- An application's handler, run by the session. -/
def appHandler (h : AppHandler τ) : UserHandler (FixSession τ) where
  writesConform := h.writesConform
  onMsg s msg seqSt :=
    let e := h.onMsg s msg seqSt
    let d := { s.derived with app := e.app }
    let r := match e.logout with
      | some text => d.sendLogout cfg [(kTagText, text)]
      | none => (d, [])
    { derived := r.1, records := e.records, sent := e.sent ++ r.2, notExpected := e.notExpected }

/-- `FixSession::InitFixConfig`, over the types the application registers. -/
def sessionConfig (app : Bytes → Option (AppConfig τ)) : Bytes → Option (FixMsgTypeConfig (FixSession τ)) :=
  initFixConfig fun msgType =>
    if msgType = kMsgTypeHeartbeat then some { fixMsgHandler := some (.user onRecvHeartbeat) }
    else if msgType = kMsgTypeTestRequest then some { fixMsgHandler := some (.user onRecvTestRequest) }
    else if msgType = kMsgTypeLogout then
      some { fixSeqAllow := ⟨true, true, false⟩, fixMsgHandler := some (.user (onRecvLogout cfg)) }
    else if msgType = kMsgTypeLogon then
      some { fixSeqAllow := ⟨true, false, false⟩, fixMsgHandler := some (.user (onRecvLogonResponse cfg)) }
    else (app msgType).map fun c =>
      { isInfiniteTTL := c.isInfiniteTTL
        fixSeqAllow := c.fixSeqAllow
        fixMsgHandler := c.fixMsgHandler.map fun h => .user (appHandler cfg h) }

/-- The receiver of a session. -/
def sessionEnv (compIDs : CompIDs) (app : Bytes → Option (AppConfig τ)) : Env (FixSession τ) where
  compIDs := compIDs
  config := sessionConfig cfg app
  onRecoverDone d := d.sendLogonTestRequest cfg
  onLogoutRequired d text := d.sendLogout cfg [(kTagText, text)]

namespace FixSession

variable (env : Env (FixSession τ))

variable (s : FixReceiver (FixSession τ)) (msg : FixMsg)

/-- The effect of a session function that sends. -/
def apply (r : FixSession τ × List Sent) : FixReceiver (FixSession τ) :=
  { s with derived := r.1, sent := s.sent ++ r.2 }

def clearFixSession (st : FixSessionSt) : FixReceiver (FixSession τ) :=
  { s.clearRecvKeeper with derived := { s.derived with fixSt := st, msgReceivedCount := 0, hbTestCount := 0 } }

def onFixSessionConnected : FixReceiver (FixSession τ) :=
  let s := clearFixSession s .connected
  { s with derived.timer := some cfg.tiWaitForLogon }

def onFixSessionDisconnected (info : Bytes) : FixReceiver (FixSession τ) :=
  let s := clearFixSession s .disconnected
  let s := if s.derived.hasSender then s.write (.info (cstr "OnFixSessionDisconnected: " ++ info)) else s
  { s with derived := { s.derived with timer := none, hasSender := false } }

/-- `SendLogon` where the operator has set the next number to send. -/
def resetSendAtLogon : FixReceiver (FixSession τ) :=
  if s.derived.resetNextSendSeq > 0 then
    { s.send (.resetNextSendSeq s.derived.resetNextSendSeq) with derived.resetNextSendSeq := 0 }
  else s

/-- `SendLogon` where the operator has set the next number to receive. -/
def resetRecvAtLogon : FixReceiver (FixSession τ) :=
  if s.derived.resetNextRecvSeq > 0 then
    { s.forceResetRecvSeq (cstr "Reset RECV seqNum on SendLogon()") s.derived.resetNextRecvSeq with
      derived.resetNextRecvSeq := 0 }
  else s

def sendLogon (heartBtInt : ℕ) (fields : List (ℕ × Bytes)) :
    FixReceiver (FixSession τ) :=
  let s := { s with derived := { s.derived with fixSt := .logonSent, heartBtInt := heartBtInt } }
  let s := resetRecvAtLogon (resetSendAtLogon s)
  { s.send (.send kMsgTypeLogon ((kTagHeartBtInt, uintToStr heartBtInt) :: fields)) with
    derived.hasSender := true }

/-- `SendLogout` with the recorder it writes the forced message to. -/
def refuseLogon (fields : List (ℕ × Bytes)) : FixReceiver (FixSession τ) :=
  apply s (s.derived.sendLogout cfg fields)

/-- The first of the two fields `OnLogonAccepted` looks at that is not as it has to be,
or 0. -/
def badLogonTag : ℕ :=
  if (msg.seqNumOf kTagHeartBtInt).getD 0 = 0 then kTagHeartBtInt
  else if (msg.getField kTagEncryptMethod).any (fun v => v.head? == some (ch '0')) then 0
  else kTagEncryptMethod

/-- A Logon request in order: it is recorded in sequence, and answered. -/
def answerLogon (seqSt : FixSeqSt) :
    FixReceiver (FixSession τ) :=
  let s' := (if seqSt = .conform then (s.writeInputConform msg).noteRecorded msg s.nextRecvSeq
    else s.write (.ignoreRecv msg.origMsgStr)).see msg
  let s' := sendLogon s' ((msg.seqNumOf kTagHeartBtInt).getD 0) [(kTagEncryptMethod, cstr "0")]
  let s' := apply s' (s'.derived.onLogonResponsed cfg seqSt)
  s'.onMsgSeqNumNotExpected env msg seqSt gapSkipRecord

/-- `IoFixManager::OnLogonAccepted`. -/
def onLogonAccepted : FixReceiver (FixSession τ) :=
  let seqSt := compareFixSeqNum msg.msgSeqNum s.nextRecvSeq
  let s := s.write (.info (cstr "OnLogon.Accepted|from=" ++ cfg.deviceId))
  if seqSt = .tooLow then
    refuseLogon cfg (s.write (.error msg.origMsgStr)) [(kTagText,
      cstr "Bad Logon, MsgSeqNum too low, expecting " ++ uintToStr s.nextRecvSeq ++
        cstr " but received " ++ uintToStr msg.msgSeqNum)]
  else if badLogonTag msg = 0 then answerLogon cfg env s msg seqSt
  else
    refuseLogon cfg (s.write (.error msg.origMsgStr))
      [(kTagText, cstr "Bad Logon, Tag#" ++ uintToStr (badLogonTag msg))]

/-- `Check1stMustLogon`: the reason to close the session, if it has to be closed. -/
def check1stMustLogon : Option Bytes :=
  match msg.getField kTagMsgType with
  | none => some (cstr "Unknown 1st msg.")
  | some t =>
    if t = kMsgTypeLogon then none
    else if t = kMsgTypeLogout then some (cstr "1st msg is Logout:" ++ (msg.getField kTagText).getD [])
    else some (cstr "1st msg is not Logon.")

def close (cause : Bytes) : FixReceiver (FixSession τ) :=
  { s with derived := s.derived.closeFixSession cause }

def countReceived : FixReceiver (FixSession τ) :=
  { s with derived.msgReceivedCount := u32 (s.derived.msgReceivedCount + 1) }

def onFixMessageParsed : FixReceiver (FixSession τ) :=
  let s := countReceived s
  match s.derived.fixSt with
  | .disconnected => s
  | .connected =>
    match check1stMustLogon msg with
    | some cause => close s cause
    | none =>
      match cfg.onRecvLogonRequest msg with
      | .accepted => onLogonAccepted cfg env s msg
      | .refused fields => refuseLogon cfg s fields
      | .ignored => s
  | .logonSent =>
    match check1stMustLogon msg with
    | some cause => close s cause
    | none => s.dispatchFixMessage env msg
  | _ => s.dispatchFixMessage env msg

/-- `FixSessionOnTimer`; `sinceLastSent` is the time since the sender last sent. -/
def fixSessionOnTimer (sinceLastSent : ℤ) : FixReceiver (FixSession τ) :=
  let d := s.derived
  match d.fixSt with
  | .disconnected => s
  | .connected => close s (cstr "Logon timeout.")
  | .logonSent => close s (cstr "Logon timeout.")
  | .logonRecovering =>
    if d.msgReceivedCount = 0 then close s (cstr "LogonRecover timeout.")
    else { s with derived := { d with msgReceivedCount := 0, timer := some cfg.tiLogonRecover } }
  | .logonTest =>
    let d :=
      if d.msgReceivedCount = 0 then { d with hbTestCount := u32 (d.hbTestCount + 1) }
      else { d with hbTestCount := 0, msgReceivedCount := 0 }
    if s.derived.msgReceivedCount = 0 ∧ d.hbTestCount ≥ cfg.maxLogonTestCount then
      close { s with derived := d } (cstr "LogonTest|err=Remote no response")
    else apply s (d.sendLogonTestRequest cfg)
  | .logoutPending => close s (cstr "Logout timeout.")
  | .apReady =>
    let hbTi := timeIntervalSecond d.heartBtInt - sinceLastSent
    if hbTi > timeIntervalSecond 1 then { s with derived := { d with timer := some hbTi } }
    else
      let d := { d with timer := some (timeIntervalSecond d.heartBtInt) }
      if d.msgReceivedCount = 0 then
        let d := { d with hbTestCount := u32 (d.hbTestCount + 1) }
        if d.hbTestCount ≥ u32 (cfg.hbTestRequestCount + 1) then
          close { s with derived := d } (cstr "Remote no response")
        else if d.hbTestCount ≥ cfg.hbTestRequestCount then
          apply s (d, [.send kMsgTypeTestRequest [(kTagTestReqID, cstr "AliveTest")]])
        else apply s (d, [sendHeartbeat none])
      else apply s ({ d with hbTestCount := 0, msgReceivedCount := 0 }, [sendHeartbeat none])

/-- `ResetNextSendSeq`, the number being read already. -/
def resetNextSendSeqTo (nextSendSeq : ℕ) : FixReceiver (FixSession τ) :=
  if nextSendSeq = 0 then { s with derived.resetNextSendSeq := 0 }
  else if s.derived.fixSt = .apReady then
    { s.send (.sequenceReset nextSendSeq) with derived.resetNextSendSeq := 0 }
  else { s with derived.resetNextSendSeq := nextSendSeq }

/-- `ResetNextRecvSeq`, the number being read already. -/
def resetNextRecvSeqTo (nextRecvSeq : ℕ) : FixReceiver (FixSession τ) :=
  if nextRecvSeq = 0 then { s with derived.resetNextRecvSeq := 0 }
  else if s.derived.hasSender then
    { s.forceResetRecvSeq (cstr "FixSession.ResetNextRecvSeq") nextRecvSeq with derived.resetNextRecvSeq := 0 }
  else { s with derived.resetNextRecvSeq := nextRecvSeq }

end FixSession

/-- What can happen to a session: the device connects or disconnects, the manager logs on
as initiator, a message is parsed, the timer fires (with the time since the last
message sent), someone logs out, an operator sets a number, or the application does
something of its own. -/
inductive SessionOp (τ : Type*)
  | connected
  | disconnected (info : Bytes)
  | sendLogon (heartBtInt : ℕ) (fields : List (ℕ × Bytes))
  | parsed (msg : FixMsg)
  | timer (sinceLastSent : ℤ)
  | sendLogout (fields : List (ℕ × Bytes))
  | resetNextSendSeq (nextSendSeq : ℕ)
  | resetNextRecvSeq (nextRecvSeq : ℕ)
  | app (f : τ → τ)

open FixSession in
def sessionStep (env : Env (FixSession τ)) (s : FixReceiver (FixSession τ)) :
    SessionOp τ → FixReceiver (FixSession τ)
  | .connected => onFixSessionConnected cfg s
  | .disconnected info => onFixSessionDisconnected s info
  | .sendLogon heartBtInt fields =>
    -- asserted by `SendLogon`
    if s.derived.fixSt.toNat < FixSessionSt.logonSent.toNat ∧ s.derived.hasSender = false then
      sendLogon s heartBtInt fields
    else s
  | .parsed msg => onFixMessageParsed cfg env s msg
  | .timer sinceLastSent => fixSessionOnTimer cfg s sinceLastSent
  | .sendLogout fields => apply s (s.derived.sendLogout cfg fields)
  | .resetNextSendSeq nextSendSeq => resetNextSendSeqTo s nextSendSeq
  | .resetNextRecvSeq nextRecvSeq => resetNextRecvSeqTo s nextRecvSeq
  | .app f => { s with derived.app := f s.derived.app }

def sessionRun (env : Env (FixSession τ)) (s : FixReceiver (FixSession τ)) (ops : List (SessionOp τ)) :
    FixReceiver (FixSession τ) :=
  ops.foldl (sessionStep cfg env) s

end Fon9.Fix
