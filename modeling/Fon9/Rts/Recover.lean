import Fon9.Rts.Storage

/-! `MdRtRecover::OnTimer`: a subscriber who asks for the packets of the past gets them from
the storage, block by block, until the position that it had when he subscribed. -/

namespace Fon9.Rts

open Lib Buffer Bitv

/-- The original value of a `TimeInterval`. -/
abbrev TimeInterval := IntType.int64.Val

def TimeInterval.isNullOrZero (t : TimeInterval) : Bool := t = dayTimeNull ∨ t.1 = 0

/-- A wait below zero: what was sent has not been taken. -/
def TimeInterval.isForced (t : TimeInterval) : Bool := !TimeInterval.isNullOrZero t && t.1 < 0

def isStartTime (infoTime reqTime dailyClearTime : DayTime) : Bool :=
  if infoTime = dayTimeNull then false
  else if infoTime.1 < dailyClearTime.1 then
    if reqTime.1 < dailyClearTime.1 then infoTime.1 ≥ reqTime.1 else true
  else if reqTime.1 < dailyClearTime.1 then false
  else infoTime.1 ≥ reqTime.1

inductive NotifyKind
  | streamRecover | streamRecoverEnd
  deriving DecidableEq

structure NotifyArgs where
  notifyKind : NotifyKind := .streamRecover
  streamDataKind : MdRtsKind := 0
  cacheGV : Bytes := []
  pos : ℕ
  flowControlWait : TimeInterval := IntType.int64.cast 0

/-- `StartInfoTime_` and `LastPos_` share their bytes: a new position overwrites the time. -/
structure MdRtRecover where
  isStarted : Bool
  startInfoTime : DayTime
  lastPos : ℕ
  lastInfoTime : DayTime
  endPos : ℕ

def MdRtRecover.setLastPos (recover : MdRtRecover) (pos : ℕ) : MdRtRecover :=
  { recover with lastPos := pos, startInfoTime := IntType.int64.cast pos }

def MdRtRecover.setStartInfoTime (recover : MdRtRecover) (tm : DayTime) : MdRtRecover :=
  if tm = dayTimeNull then { recover with isStarted := true }.setLastPos 0
  else { recover with isStarted := false, startInfoTime := tm }

/-- What a subscriber has been called with: how often, and what it has taken. -/
structure MdRtSubr where
  calls : ℕ := 0
  taken : List (NotifyKind × Bytes) := []

/-- What `OnTimer` finds outside: the storage, the two filters of the subscription, and what
the subscriber answers to the call of each number. -/
structure RecoverArgs where
  reader : Bytes
  rtArgs : MdRtsKind
  reArgs : MdRtsKind
  dailyClearTime : DayTime
  answer : ℕ → TimeInterval

variable (args : RecoverArgs) (recover : MdRtRecover)

def RecoverArgs.rtFilter : MdRtsKind := strToMdRtsKind args.rtArgs

def RecoverArgs.filter : MdRtsKind := strToMdRtsKind args.reArgs

/-- The state inside of `OnTimer`. -/
structure RecoverWork where
  recover : MdRtRecover
  nargs : NotifyArgs
  subr : MdRtSubr

namespace RecoverWork

variable (args : RecoverArgs) (w : RecoverWork)

/-- `this->RtSubr_(nargs)` -/
def notify : RecoverWork :=
  if isEnumContainsAny args.rtFilter w.nargs.streamDataKind then
    let wait := args.answer w.subr.calls
    { w with
      nargs := { w.nargs with flowControlWait := wait }
      subr := {
        calls := w.subr.calls + 1
        taken := if TimeInterval.isForced wait then w.subr.taken else w.subr.taken ++ [(w.nargs.notifyKind, w.nargs.cacheGV)] } }
  else w

/-- Whether the packet is one to be recovered, before its kind is looked at. -/
def checkStart (pkRtsKind : MdRtsKind) (data : Bytes) : MdRtRecover × Bool :=
  if isEnumContains pkRtsKind mdRtsKind_NoInfoTime then (w.recover, w.recover.isStarted)
  else
    match bitvToDec .int64 dayTimeScale (data.drop 1) with
    | .error _ => (w.recover, false)
    | .ok (infoTime, _) =>
      let recover := { w.recover with lastInfoTime := infoTime }
      if recover.isStarted then (recover, true)
      else if isStartTime infoTime recover.startInfoTime args.dailyClearTime then ({ recover with isStarted := true }, true)
      else (recover, false)

/-- A packet joins those to be sent, which are sent where they are many; `true` where they
are refused, and the timer runs again. -/
def addPacket (currChkPos : ℕ) (pkRtsKind : MdRtsKind) (packed : Bytes) : RecoverWork × Bool :=
  let w := { w with
    nargs := { w.nargs with
      streamDataKind := w.nargs.streamDataKind ||| pkRtsKind
      pos := if w.nargs.cacheGV = [] then currChkPos else w.nargs.pos
      cacheGV := w.nargs.cacheGV ++ packed } }
  if w.nargs.cacheGV.length > 1024 then
    let w := w.notify args
    if TimeInterval.isForced w.nargs.flowControlWait then ({ w with recover := w.recover.setLastPos w.nargs.pos }, true)
    else ({ w with nargs := { w.nargs with cacheGV := [], streamDataKind := 0, pos := currChkPos } }, false)
  else (w, false)

def onPacket (currChkPos : ℕ) (pkRtsKind : MdRtsKind) (packed data : Bytes) : RecoverWork × Bool :=
  let (recover, isRecover) := w.checkStart args pkRtsKind data
  let w := { w with recover := recover }
  if isRecover && isEnumContainsAny args.filter pkRtsKind then w.addPacket args currChkPos pkRtsKind packed
  else (w, false)

end RecoverWork

/-- The packets of a block that ends at `nextReadPos`, and the bytes that stay, with a header
that was taken already; `none` where what was sent is refused. -/
def recordLoop (args : RecoverArgs) (nextReadPos : ℕ) : ℕ → Bytes → RecoverWork → RecoverWork × Option Bytes
  | 0, dcq, w => (w, some dcq)
  | fuel + 1, dcq, w =>
    if dcq.length ≤ kChkHeaderSize then (w, some dcq)
    else
      let currChkPos := nextReadPos - dcq.length
      if currChkPos % 2 ^ 32 ≠ chkValue dcq then recordLoop args nextReadPos fuel (dcq.drop 1) w
      else
        let pkRtsKind := chkKind dcq
        let body := dcq.drop kChkHeaderSize
        match popBitvByteArraySize body with
        | .error _ => recordLoop args nextReadPos fuel (body.drop 1) w
        | .ok none => (w, some dcq)
        | .ok (some (pksz, pk)) =>
          if pksz = 0 then recordLoop args nextReadPos fuel pk w
          else
            match w.onPacket args currChkPos pkRtsKind (body.take (body.length - pk.length + pksz)) (pk.take pksz) with
            | (w, true) => (w, none)
            | (w, false) => recordLoop args nextReadPos fuel (pk.drop pksz) w

/-- `sizeof(rdbuf)` -/
def rdbufSize : ℕ := 4 * 1024

/-- Block after block until the first packet that is asked for, and the block of that one.
It gives the position behind it. -/
def blockLoop (args : RecoverArgs) : ℕ → Bytes → ℕ → RecoverWork → RecoverWork × Option ℕ
  | 0, _, nextReadPos, w => (w, some nextReadPos)
  | fuel + 1, rdbuf, nextReadPos, w =>
    let szToEnd := w.recover.endPos - nextReadPos
    if szToEnd = 0 then (w, some nextReadPos)
    else
      let rd := (args.reader.drop nextReadPos).take (min (rdbufSize - rdbuf.length) szToEnd)
      if rd = [] then ({ w with recover := { w.recover with endPos := nextReadPos } }, some nextReadPos)
      else
        let nextReadPos := nextReadPos + rd.length
        match recordLoop args nextReadPos (rdbuf ++ rd).length (rdbuf ++ rd) w with
        | (w, none) => (w, none)
        | (w, some rest) =>
          if w.recover.isStarted then
            let nextReadPos := nextReadPos - rest.length
            ({ w with recover := w.recover.setLastPos nextReadPos }, some nextReadPos)
          else blockLoop args fuel rest nextReadPos w

/-- The end of `OnTimer`, after the last notification; `true` where the timer runs again. -/
def RecoverWork.finish (w : RecoverWork) : RecoverWork × Bool :=
  if TimeInterval.isNullOrZero w.nargs.flowControlWait then (w, w.nargs.notifyKind ≠ .streamRecoverEnd)
  else if w.nargs.flowControlWait.1 < 0 then
    let isEmptyEnd := w.nargs.notifyKind = .streamRecoverEnd ∧ w.nargs.cacheGV = []
    ({ w with recover := w.recover.setLastPos (if isEmptyEnd then w.recover.endPos else w.nargs.pos) }, true)
  else (w, w.nargs.notifyKind ≠ .streamRecoverEnd)

def onTimer (subr : MdRtSubr) : RecoverWork × Bool :=
  let nextReadPos := if recover.isStarted then recover.lastPos else 0
  match blockLoop args (recover.endPos + 1) [] nextReadPos ⟨recover, { pos := nextReadPos }, subr⟩ with
  | (w, none) => (w, true)
  | (w, some nextReadPos) =>
    if nextReadPos ≥ w.recover.endPos then
      let w := { w with nargs := { w.nargs with notifyKind := .streamRecoverEnd, streamDataKind := mdRtsKind_Full } }
      (w.notify args).finish
    else if w.nargs.cacheGV = [] then (w, true)
    else (w.notify args).finish

/-! ### The firings of the timer -/

structure Recovering where
  recover : MdRtRecover
  subr : MdRtSubr := {}
  isRunAfter : Bool := true

def Recovering.fire (s : Recovering) : Recovering :=
  if s.isRunAfter then
    let (w, isRunAfter) := onTimer args s.recover s.subr
    ⟨w.recover, w.subr, isRunAfter⟩
  else s

/-- What a subscription starts. -/
def Recovering.init (endPos : ℕ) (startInfoTime : DayTime) : Recovering where
  recover := MdRtRecover.setStartInfoTime ⟨false, dayTimeNull, 0, dayTimeNull, endPos⟩ startInfoTime

end Fon9.Rts
