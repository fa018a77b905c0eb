import Mathlib.Data.Int.Order.Basic
import Mathlib.Logic.Function.Basic

/-! `TradingLineManager`: requests go out through the lines that are ready, through a helper,
or wait in a queue. A call under the lock is a step; what the lines, the helper and the requests
answer is given from outside, answer by answer. -/

namespace Fon9.Fmkt

/-- `TradingLine::SendResult`; a flow control says how long to wait. -/
inductive LineSendResult
  | sent
  | flowControl (interval : ℕ)
  | busy
  | broken
  | rejectRequest
  | notSupport
  deriving DecidableEq, Repr

inductive SendRequestResult
  | noReadyLine
  | rejectRequest
  | sent
  | queuing
  | requestEnd
  deriving DecidableEq, Repr

/-- `TradingRequest::OpQueuingRequestResult` -/
inductive OpQueuingRequestResult
  | notSupported
  | notTarget
  | thisDone
  | targetDone
  | allDone
  deriving DecidableEq, Repr

/-- What the code outside answers when it is asked for the `n`-th time, and what lines are. -/
structure Env where
  lineAnswer : ℕ → LineSendResult
  helperAnswer : ℕ → SendRequestResult
  offerAnswer : ℕ → SendRequestResult
  isHelperReady : ℕ → Bool
  preOpQueuingRequest : ℕ → Bool
  opQueuingRequest : ℕ → OpQueuingRequestResult
  utcNow : ℕ → ℤ
  lineFlowCount : ℕ → ℕ
  lineFlowInterval : ℕ → ℤ
  /-- `gTradingLineSelect_TryLastLine_YN` -/
  tryLastLine : Bool

/-- How a request leaves the manager; `returned` to the manager that asked for help. -/
inductive Outcome
  | sent
  | rejected
  | ended
  | handed
  | returned
  deriving DecidableEq, Repr

/-- An outcome, with the queue at that time. -/
structure Settled where
  req : ℕ
  outcome : Outcome
  queue : List ℕ
  deriving DecidableEq, Repr

/-- `TradingSvrImpl`, with the interval that the timer is armed for, and what has happened. -/
structure TradingSvr where
  lines : List ℕ := []
  lastIndex : ℕ := 0
  lastLineSentCount : ℕ := 0
  lastLineSentBeginTime : ℤ := 0
  helper : Option ℕ := none
  reqQueue : List ℕ := []
  flowControlTimer : Option ℕ := none
  /-- How many answers there have been. -/
  ticks : ℕ := 0
  /-- The lines that have been asked, with what they have answered. -/
  asked : List (ℕ × LineSendResult) := []
  /-- The last answer of a line since it was ready. -/
  lineAnswers : ℕ → Option LineSendResult := fun _ => none
  /-- The last answer of the helper since it was set, ready or broken. -/
  helperAnswer : Option SendRequestResult := none
  submitted : List ℕ := []
  settled : List Settled := []
  /-- What `RequestPushToQueue` has put in the queue. -/
  pushed : List ℕ := []

namespace TradingSvr

variable (env : Env)

variable (m : TradingSvr) (req : ℕ)

def tick : TradingSvr := { m with ticks := m.ticks + 1 }

def settle (outcome : Outcome) : TradingSvr :=
  { m with settled := m.settled ++ [⟨req, outcome, m.reqQueue⟩] }

/-- `NoReadyLineReject` -/
def noReadyLineReject : SendRequestResult × TradingSvr :=
  (.noReadyLine, m.settle req .rejected)

/-! ### Lines -/

/-- The line that is tried first. -/
def selectLine : ℤ × TradingSvr :=
  if env.tryLastLine then
    let utcNow := env.utcNow m.ticks
    let m := m.tick
    if m.lastIndex < m.lines.length then
      let lastLine := m.lines.getD m.lastIndex 0
      if env.lineFlowInterval lastLine < utcNow - m.lastLineSentBeginTime ∨ env.lineFlowInterval lastLine = 0 then
        (utcNow, { m with lastLineSentCount := 0 })
      else if env.lineFlowCount lastLine ≤ m.lastLineSentCount then
        (utcNow, { m with lastLineSentCount := 0, lastIndex := m.lastIndex + 1 })
      else (utcNow, m)
    else (utcNow, m)
  else (0, { m with lastIndex := m.lastIndex + 1 })

def wrapLastIndex : TradingSvr :=
  { m with lastIndex := if m.lines.length ≤ m.lastIndex then 0 else m.lastIndex }

/-- The line at `LastIndex_` is asked. -/
def askLine : LineSendResult × TradingSvr :=
  let res := env.lineAnswer m.ticks
  let line := m.lines.getD m.lastIndex 0
  (res, { m.tick with
    asked := m.asked ++ [(line, res)]
    lineAnswers := Function.update m.lineAnswers line (some res) })

def lineSent (utcNow : ℤ) (m : TradingSvr) : TradingSvr :=
  if env.tryLastLine then
    { m with
      lastLineSentCount := m.lastLineSentCount + 1
      lastLineSentBeginTime := if m.lastLineSentCount + 1 = 1 then utcNow else m.lastLineSentBeginTime }
  else m

def nextLine : TradingSvr := { m with lastIndex := m.lastIndex + 1 }

/-- The line at `LastIndex_` goes. -/
def eraseLine : TradingSvr := { m with lines := m.lines.eraseIdx m.lastIndex }

/-- The shorter interval. -/
def lessFlowControl (resFlowControl : Option ℕ) (interval : ℕ) : ℕ :=
  match resFlowControl with
  | some least => if interval < least then interval else least
  | none => interval

/-- The loop of `SendRequest_ByLinesOnly`: each of the `remaining` lines is asked once, so that
they bound the turns. Behind it the timer is armed, if some line has a flow control. -/
def askLines (req : ℕ) (utcNow : ℤ) : ℕ → TradingSvr → Option ℕ → Bool → SendRequestResult × TradingSvr
  | 0, m, resFlowControl, hasBusyLine =>
    match resFlowControl with
    | some interval => (.queuing, { m with flowControlTimer := some interval })
    | none => (if hasBusyLine then .queuing else .noReadyLine, m)
  | remaining + 1, m, resFlowControl, hasBusyLine =>
    let r := m.wrapLastIndex.askLine env
    match r.1 with
    | .sent => (.sent, (r.2.lineSent env utcNow).settle req .sent)
    | .flowControl interval =>
      askLines req utcNow remaining r.2.nextLine (some (lessFlowControl resFlowControl interval)) hasBusyLine
    | .rejectRequest => (.rejectRequest, r.2.settle req .rejected)
    | .notSupport => askLines req utcNow remaining r.2.nextLine resFlowControl hasBusyLine
    | .busy => askLines req utcNow remaining r.2.nextLine resFlowControl true
    | .broken =>
      if r.2.eraseLine.lines = [] then (.noReadyLine, r.2.eraseLine)
      else askLines req utcNow remaining r.2.eraseLine resFlowControl hasBusyLine

def sendRequest_ByLinesOnly (m : TradingSvr) : SendRequestResult × TradingSvr :=
  if m.lines = [] then (.noReadyLine, m)
  else
    let r := m.selectLine env
    askLines env req r.1 r.2.lines.length r.2 none false

/-- The loop of `SelectPreferNextLine`; `prefer` is `IsPreferTradingLine` of the request. -/
def selectPreferLoop (prefer : ℕ → Bool) : ℕ → TradingSvr → TradingSvr
  | 0, m => m
  | turns + 1, m =>
    let nextIndex := (m.lastIndex + 1) % m.lines.length
    if prefer (m.lines.getD nextIndex 0) then m else selectPreferLoop prefer turns { m with lastIndex := nextIndex }

def selectPreferNextLine (prefer : ℕ → Bool) (m : TradingSvr) : TradingSvr := selectPreferLoop prefer m.lines.length m

/-! ### Helper -/

/-- What an answer of the helper, or of an offer, makes of the request. -/
def helped : SendRequestResult → TradingSvr
  | .sent => m.settle req .handed
  | .rejectRequest => m.settle req .rejected
  | .requestEnd => m.settle req .ended
  | .queuing | .noReadyLine => m

/-- `OnAskFor_BeforeQueue`, `OnAskFor_NoReadyLine` -/
def askHelper (m : TradingSvr) : SendRequestResult × TradingSvr :=
  let res := env.helperAnswer m.ticks
  (res, { m.tick with helperAnswer := some res }.helped req res)

def sendRequest_ByLinesOrHelper (m : TradingSvr) : SendRequestResult × TradingSvr :=
  let r := sendRequest_ByLinesOnly env req m
  match r.1 with
  | .queuing =>
    if r.2.helper.isSome then
      let h := askHelper env req r.2
      (if h.1 = .noReadyLine then .queuing else h.1, h.2)
    else r
  | .noReadyLine =>
    if r.2.helper.isSome then
      let h := askHelper env req r.2
      if h.1 ≠ .noReadyLine then h else noReadyLineReject h.2 req
    else noReadyLineReject r.2 req
  | _ => r

/-! ### Queue -/

/-- `ReqQueue_.pop_front` -/
def popFront : TradingSvr := { m with reqQueue := m.reqQueue.tail }

/-- The loop of `SendReqQueue`; each turn takes the front away, so that the requests in the queue
bound the turns. -/
def sendReqQueueLoop : ℕ → TradingSvr → TradingSvr
  | 0, m => m
  | turns + 1, m =>
    match m.reqQueue with
    | [] => m
    | req :: _ =>
      let r := sendRequest_ByLinesOrHelper env req m
      if r.1 = .queuing then r.2 else sendReqQueueLoop turns r.2.popFront

def sendReqQueue : TradingSvr := sendReqQueueLoop env m.reqQueue.length m

/-- The loop of `SendReqQueueByOffer`. -/
def sendReqQueueByOfferLoop : ℕ → TradingSvr → TradingSvr
  | 0, m => m
  | turns + 1, m =>
    match m.reqQueue with
    | [] => m
    | req :: _ =>
      let res := env.offerAnswer m.ticks
      if res = .queuing ∨ res = .noReadyLine then m.tick
      else sendReqQueueByOfferLoop turns (m.tick.helped req res).popFront

def sendReqQueueByOffer : TradingSvr := sendReqQueueByOfferLoop env m.reqQueue.length m

/-- A request in the queue is done with. -/
def eraseTarget (i target : ℕ) : TradingSvr :=
  { m with reqQueue := m.reqQueue.eraseIdx i }.settle target .ended

/-- The loop of `CheckOpQueuingRequest`, from the place `i` of the queue on. -/
def checkOpLoop (req : ℕ) : ℕ → List ℕ → TradingSvr → SendRequestResult × TradingSvr
  | _, [], m => (.queuing, m)
  | i, target :: rest, m =>
    match env.opQueuingRequest m.ticks with
    | .notSupported => (.queuing, m.tick)
    | .thisDone => (.requestEnd, m.tick.settle req .ended)
    | .allDone => (.requestEnd, (m.tick.eraseTarget i target).settle req .ended)
    | .targetDone => (.queuing, m.tick.eraseTarget i target)
    | .notTarget => checkOpLoop req (i + 1) rest m.tick

def checkOpQueuingRequest (m : TradingSvr) : SendRequestResult × TradingSvr :=
  if env.preOpQueuingRequest m.ticks then checkOpLoop env req 0 m.reqQueue m.tick else (.queuing, m.tick)

def requestPushToQueue : TradingSvr :=
  { m with reqQueue := m.reqQueue ++ [req], pushed := m.pushed ++ [req] }

/-- `ClearReqQueue`; the requests are rejected after the lock is given up. -/
def clearReqQueue : TradingSvr :=
  m.reqQueue.foldl (fun m req => (noReadyLineReject m req).2) { m with reqQueue := [] }

/-! ### Calls -/

def submit : TradingSvr := { m with submitted := m.submitted ++ [req] }

def sendRequest (m : TradingSvr) : TradingSvr :=
  let m := m.submit req
  let r := if m.reqQueue = [] then sendRequest_ByLinesOrHelper env req m else checkOpQueuingRequest env req m
  if r.1 ≠ .queuing then r.2 else requestPushToQueue r.2 req

/-- `OnAskFor_SendRequest_FromLocal`: help for another manager, that keeps what is not sent. -/
def onAskFor_SendRequest_FromLocal (m : TradingSvr) : TradingSvr :=
  let m := m.submit req
  let r := if m.reqQueue = [] then sendRequest_ByLinesOnly env req m else (.queuing, m)
  if r.1 = .queuing ∨ r.1 = .noReadyLine then r.2.settle req .returned else r.2

/-- `IsSendable` -/
def isSendable : Bool := m.lines ≠ [] || (m.helper.isSome && env.isHelperReady m.ticks)

/-- The line at the end of the lines, or where it is; it has not answered yet. -/
def addLine (src : ℕ) : TradingSvr :=
  let m := { m with lineAnswers := Function.update m.lineAnswers src none }
  match m.lines.idxOf? src with
  | none => { m with lastIndex := m.lines.length, lines := m.lines ++ [src] }
  | some i => { m with lastIndex := i }

def onTradingLineReady (src : ℕ) (m : TradingSvr) : TradingSvr := sendReqQueue env (m.addLine src)

/-- What is left when a line or the helper has gone. -/
def clearUnlessSendable : TradingSvr :=
  if isSendable env m then m.tick else clearReqQueue m.tick

def removeLine (i : ℕ) : TradingSvr :=
  { m with
    lastIndex := if i < m.lastIndex then m.lastIndex - 1 else m.lastIndex
    lines := m.lines.eraseIdx i }

def onTradingLineBroken (src : ℕ) (m : TradingSvr) : TradingSvr :=
  match m.lines.idxOf? src with
  | none => m
  | some i => clearUnlessSendable env (m.removeLine i)

/-- The timer fires where it is armed: `EmitOnTimer`. -/
def emitOnTimer : TradingSvr :=
  if m.flowControlTimer.isSome then
    let m := { m with flowControlTimer := none }
    if m.lines = [] then m else sendReqQueue env m
  else m

/-- The helper that there is from now on; it has not answered yet. -/
def setHelper (helper : Option ℕ) : TradingSvr := { m with helper := helper, helperAnswer := none }

def onHelperBroken : TradingSvr := clearUnlessSendable env m

def updateHelper (helper : Option ℕ) (m : TradingSvr) : TradingSvr :=
  let m := m.setHelper helper
  if helper.isSome && env.isHelperReady m.ticks then sendReqQueue env m.tick else onHelperBroken env m.tick

def updateHelperReady : TradingSvr := sendReqQueue env (m.setHelper m.helper)

def updateHelperBroken : TradingSvr := onHelperBroken env (m.setHelper m.helper)

inductive Op
  | sendRequest (req : ℕ)
  | onAskFor (req : ℕ)
  | tradingLineReady (src : ℕ)
  | tradingLineBroken (src : ℕ)
  | timer
  | updateHelper (helper : Option ℕ)
  | updateHelperReady
  | updateHelperBroken
  | sendReqQueueByOffer
  deriving DecidableEq, Repr

def step : Op → TradingSvr
  | .sendRequest req => sendRequest env req m
  | .onAskFor req => onAskFor_SendRequest_FromLocal env req m
  | .tradingLineReady src => onTradingLineReady env src m
  | .tradingLineBroken src => onTradingLineBroken env src m
  | .timer => emitOnTimer env m
  | .updateHelper helper => updateHelper env helper m
  | .updateHelperReady => updateHelperReady env m
  | .updateHelperBroken => updateHelperBroken env m
  | .sendReqQueueByOffer => sendReqQueueByOffer env m

end TradingSvr

end Fon9.Fmkt
