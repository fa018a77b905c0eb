import Fon9.PkCont.Derived
import Fon9.Mc.Packet

/-! The channels of the exchange and their manager. The packets of the real time channels wait
in the log until the basic information has come round and a snapshot is complete; what is
recorded are the packets that a channel passes on, and the messages dispatched. -/

namespace Fon9.Mc

open Lib Buffer PkCont

/-! ### Styles and states -/

abbrev ExgMcChannelStyle := BitVec 8

namespace ExgMcChannelStyle

def anySeq : ExgMcChannelStyle := 0x01

def pkLog : ExgMcChannelStyle := 0x02

def reload : ExgMcChannelStyle := 0x04

def pkLogChangeable : ExgMcChannelStyle := 0x08

def waitBasic : ExgMcChannelStyle := 0x10

def waitSnapshot : ExgMcChannelStyle := 0x20

def cycledClose : ExgMcChannelStyle := 0x40

def cycledNotify : ExgMcChannelStyle := 0x80

def basicInfo : ExgMcChannelStyle := anySeq ||| reload ||| pkLog ||| cycledNotify

def snapshot : ExgMcChannelStyle := pkLog ||| cycledClose ||| waitBasic

end ExgMcChannelStyle

open ExgMcChannelStyle

def isEnumContains (a b : ExgMcChannelStyle) : Bool := a &&& b == b

def isEnumContainsAny (a b : ExgMcChannelStyle) : Bool := a &&& b != 0

inductive ExgMcChannelState
  | running | waiting | cycled | canBeClosed
  deriving DecidableEq

/-- `Cycled` or behind it. -/
def ExgMcChannelState.isCycled : ExgMcChannelState → Bool
  | running => false
  | waiting => false
  | cycled => true
  | canBeClosed => true

def kChannelCount : ℕ := 20

variable (c : ℕ)

/-- `Style_`, as the constructor of the manager sets it. -/
def channelStyle : ExgMcChannelStyle :=
  if c = 1 ∨ c = 2 then pkLog ||| waitSnapshot
  else if c = 3 ∨ c = 4 then basicInfo
  else if 5 ≤ c ∧ c ≤ 10 then anySeq ||| pkLogChangeable
  else if c = 11 ∨ c = 12 then pkLogChangeable
  else if c = 13 ∨ c = 14 then snapshot
  else 0

/-- `ChannelId_`, as the constructor of the manager sets it. -/
def channelId : ℕ := if 1 ≤ c ∧ c ≤ 14 then c else 0

def isBasicInfo : Bool := c = 3 ∨ c = 4

def isSnapshot : Bool := c = 13 ∨ c = 14

def isRealtime : Bool := c = 1 ∨ c = 2

def getRealtimeChannel : ℕ := 2 - c % 2

def getSnapshotChannel : ℕ := 14 - c % 2

/-- The channel that `IsBasicInfoCycled` looks at. -/
def getBasicInfoChannel : ℕ := 4 - c % 2

/-! ### A channel, behind its feeder -/

structure ExgMcChannel where
  state : ExgMcChannelState := .running
  isSkipPkLog : Bool := false
  isSetupReloading : Bool := false
  pkLog : Option PkLog := none
  pk1stPos : ℕ := 0
  pk1stSeq : ℕ := 0
  cycleStartSeq : ℕ := 0
  cycleBeforeLostCount : ℕ := 0

namespace ExgMcChannel

/-- `StartupChannel`; `opened` is what the log holds, where it can be opened. -/
def startup (c : ℕ) (opened : Option Bytes) : ExgMcChannel :=
  let log : Option PkLog :=
    if isEnumContainsAny (channelStyle c) (ExgMcChannelStyle.pkLog ||| reload) then opened.map fun bytes => ⟨bytes, []⟩ else none
  { state := if isEnumContainsAny (channelStyle c) (waitBasic ||| waitSnapshot) then .waiting else .running
    isSkipPkLog := isSnapshot c
    pkLog := log
    pk1stPos := (log.map PkLog.fileSize).getD 0 }

def onCycleStart (lostCount seq : ℕ) (ch : ExgMcChannel) : ExgMcChannel :=
  { ch with cycleStartSeq := seq, cycleBeforeLostCount := lostCount }

/-- A round begins while another has not come to its end. -/
def beginAgain (currSeq : ℕ) (ch : ExgMcChannel) : ExgMcChannel :=
  match ch.pkLog with
  | none => ch
  | some log => { ch with pk1stPos := log.fileSize, pk1stSeq := currSeq }

end ExgMcChannel

/-! ### The manager -/

inductive McEvent
  | received (channelId : ℕ) (pk : ExgMcPk)
  | dispatched (channelId : ℕ) (pk : Bytes)
  | closed (channelId : ℕ)
  | channelCycled (channelId : ℕ)
  | snapshotDone (channelId lastRtSeq : ℕ)
  deriving DecidableEq

/-- The channels without their feeders, and how often `UtcNow` was read. -/
structure ExgMcChannelMgr where
  channels : ℕ → ExgMcChannel
  ticks : ℕ := 0
  events : List McEvent := []

namespace ExgMcChannelMgr

variable (m : ExgMcChannelMgr)

def record (e : McEvent) : ExgMcChannelMgr := { m with events := m.events ++ [e] }

def modify (c : ℕ) (f : ExgMcChannel → ExgMcChannel) : ExgMcChannelMgr :=
  { m with channels := Function.update m.channels c (f (m.channels c)) }

def dispatchMcMessage (c : ℕ) (pk : Bytes) : ExgMcChannelMgr := m.record (.dispatched c pk)

def pkLogAppend (utcNow : ℕ → ℕ) (c : ℕ) (pk : ExgMcPk) (seq : ℕ) : ExgMcChannelMgr :=
  match (m.channels c).isSkipPkLog, (m.channels c).pkLog with
  | false, some log =>
    { m.modify c fun ch => { ch with
        pk1stSeq := if ch.pk1stSeq = 0 then seq else ch.pk1stSeq
        pkLog := some (log.tsAppend ⟨utcNow m.ticks, pk⟩) } with
      ticks := m.ticks + 1 }
  | _, _ => m

/-- `OnPkReceived` of the reader in `ReloadDispatch`. -/
def reloadPk (c fromSeq : ℕ) (m : ExgMcChannelMgr) (pk : Bytes) : ExgMcChannelMgr :=
  if fromSeq = 0 ∨ fromSeq ≤ ExgMcHead.getChannelSeq pk then m.dispatchMcMessage c pk else m

def reloadDispatch (c fromSeq : ℕ) : ExgMcChannelMgr :=
  match (m.channels c).pkLog with
  | none => m
  | some log =>
    let m := (log.readAll (m.channels c).pk1stPos).foldl (reloadPk c fromSeq) m
    if (m.channels c).state.isCycled then m else m.modify c fun ch => { ch with state := .running }

/-- `ExgMcChannel::OnBasicInfoCycled` -/
def onBasicInfoCycled (c : ℕ) : ExgMcChannelMgr :=
  if isEnumContains (channelStyle c) waitBasic then m.reloadDispatch c 0 else m

/-- `ExgMcChannel::OnSnapshotDone` -/
def channelOnSnapshotDone (lastRtSeq c : ℕ) : ExgMcChannelMgr :=
  if isEnumContains (channelStyle c) waitSnapshot ∧ (m.channels c).state = .waiting then
    m.reloadDispatch c (if isRealtime c then u64 (lastRtSeq + 1) else 0)
  else m

/-- The loop over the channels of a market. -/
def forMarket (src : ℕ) (f : ExgMcChannelMgr → ℕ → ExgMcChannelMgr) : ExgMcChannelMgr :=
  (List.range kChannelCount).foldl (fun m c => if channelId c % 2 = src % 2 then f m c else m) m

/-- `ExgMcChannelMgr::OnSnapshotDone` -/
def onSnapshotDone (src lastRtSeq : ℕ) : ExgMcChannelMgr :=
  (m.record (.snapshotDone src lastRtSeq)).forMarket src fun m c => m.channelOnSnapshotDone lastRtSeq c

def channelCycled (src : ℕ) : ExgMcChannelMgr :=
  let m := m.record (.channelCycled src)
  if isBasicInfo src then
    let m := m.forMarket src onBasicInfoCycled
    let ss := m.channels (getSnapshotChannel src)
    if ss.state = .canBeClosed then m.onSnapshotDone (getSnapshotChannel src) ss.cycleStartSeq else m
  else m

/-- Whether the real time channel can go on behind a snapshot. -/
def rtSeq (c : ℕ) : ℕ := (m.channels (getRealtimeChannel c)).pk1stSeq

/-- `OnPkContSnapshot` of an `A`, Refresh Begin: whether it is taken. -/
def refreshBegin (c lostCount : ℕ) (pk : Bytes) : ExgMcChannelMgr × Bool :=
  let lastRtSeq := ExgMcI084.lastSeq pk
  if (m.channels c).isSkipPkLog then
    if m.rtSeq c > lastRtSeq then (m, false)
    else (m.modify c fun ch => { ch with isSkipPkLog := false }.onCycleStart lostCount lastRtSeq, true)
  else (m.modify c fun ch => (ch.onCycleStart lostCount lastRtSeq).beginAgain (ExgMcHead.getChannelSeq pk), true)

/-- A round that is complete, and that the real time channel can go on behind. -/
def closeRound (c lastRtSeq : ℕ) : ExgMcChannelMgr :=
  let m := (m.modify c fun ch => { ch with state := .canBeClosed }).record (.closed c)
  if (m.channels (getBasicInfoChannel c)).state.isCycled then m.onSnapshotDone c lastRtSeq else m

/-- `OnPkContSnapshot` of a `Z`, Refresh Complete, where a round has begun. -/
def refreshComplete (c lostCount : ℕ) (pk : Bytes) : ExgMcChannelMgr :=
  let ch := m.channels c
  let lastRtSeq := ExgMcI084.lastSeq pk
  if lastRtSeq = ch.cycleStartSeq ∧ (m.rtSeq c = 1 ∨ m.rtSeq c ≤ lastRtSeq) ∧ u64sub lostCount ch.cycleBeforeLostCount = 0 then
    m.closeRound c lastRtSeq
  else m

/-- `OnPkContSnapshot`, with `AfterNextSeq_`. -/
def onPkContSnapshot (c : ℕ) (lostCount : ℕ) (pk : Bytes) (afterNextSeq : ℕ) : ExgMcChannelMgr × ℕ × Bool :=
  let ch := m.channels c
  if ch.state = .canBeClosed then (m, afterNextSeq, false)
  else if ExgMcHead.messageKind pk ≠ 67 then (m, afterNextSeq, false)
  else if ExgMcHead.transmissionCode pk ≠ 50 ∧ ExgMcHead.transmissionCode pk ≠ 53 then (m, afterNextSeq, false)
  else if ExgMcI084.messageType pk = 65 then -- 'A'
    ((m.refreshBegin c lostCount pk).1, afterNextSeq, (m.refreshBegin c lostCount pk).2)
  else if ExgMcI084.messageType pk = 90 then -- 'Z'
    if ch.isSkipPkLog then (m, 0, false)
    else
      let m := m.refreshComplete c lostCount pk
      (m, if (m.channels c).state = .canBeClosed then afterNextSeq else 0, true)
  else (m, afterNextSeq, !ch.isSkipPkLog)

/-- `PkContOnReceived` -/
def pkContOnReceived (utcNow : ℕ → ℕ) (c : ℕ) : OnReceived ExgMcChannelMgr ExgMcPk := fun m feeder pk seq =>
  let m := m.record (.received c pk)
  let afterNextSeq := u64 (seq + 1)
  if isEnumContains (channelStyle c) anySeq then (m.pkLogAppend utcNow c pk seq, afterNextSeq)
  else
    let (m, afterNextSeq, isTaken) :=
      if isSnapshot c then m.onPkContSnapshot c feeder.lostCount pk.data afterNextSeq else (m, afterNextSeq, true)
    if isTaken then
      let m := if (m.channels c).state = .waiting then m else m.dispatchMcMessage c pk.data
      (m.pkLogAppend utcNow c pk seq, afterNextSeq)
    else (m, afterNextSeq)

end ExgMcChannelMgr

/-! ### The channels with their feeders -/

/-- What the channels find outside: the readings of the clock, and their wait intervals. -/
structure McArgs where
  utcNow : ℕ → ℕ
  waitInterval : ℕ → ℤ

/-- The constants of a channel's feeder. -/
def McArgs.config (args : McArgs) (c : ℕ) : Config := ⟨9999999999, 0, args.waitInterval c⟩

structure McSystem where
  mgr : ExgMcChannelMgr
  feeders : ℕ → PkContFeeder ExgMcPk

/-- What a channel's recover sessions say when they are asked for what is missing. -/
inductive RecoverAnswer
  | requesting | busy | none
  deriving DecidableEq

namespace McSystem

variable (args : McArgs) (sys : McSystem)

variable (c : ℕ) (pk : ExgMcPk)

def setFeeder (feeder : PkContFeeder ExgMcPk)
    : McSystem := { sys with feeders := Function.update sys.feeders c feeder }

/-- The work of a channel's feeder with the manager. -/
def withFeeder (f : OnReceived ExgMcChannelMgr ExgMcPk → Config → ExgMcChannelMgr × PkContFeeder ExgMcPk →
      ExgMcChannelMgr × PkContFeeder ExgMcPk) : McSystem :=
  let r := f (ExgMcChannelMgr.pkContOnReceived args.utcNow c) (args.config c) (sys.mgr, sys.feeders c)
  { mgr := r.1, feeders := Function.update sys.feeders c r.2 }

def feedPacket : McSystem :=
  sys.withFeeder args c fun on cfg s => Derived.feedPacket on cfg s pk (ExgMcHead.getChannelSeq pk.data)

/-- `PkContOnTimer`; only where no recover session can help, those that wait are handed over. -/
def pkContOnTimer : RecoverAnswer → McSystem
  | .none => if (sys.feeders c).pkPendings = [] then sys else sys.withFeeder args c Derived.pkContOnTimer
  | _ => sys

def onPkHb : McSystem :=
  if isSnapshot c then sys
  else
    let seq := ExgMcHead.getChannelSeq pk.data
    let feeder := sys.feeders c
    let m :=
      if (sys.mgr.channels c).isSetupReloading then sys.mgr
      else (sys.mgr.pkLogAppend args.utcNow c pk seq).dispatchMcMessage c pk.data
    let ch := m.channels c
    if feeder.nextSeq ≠ u64 (seq + 1) then { sys with mgr := m }
    else if seq = 0 ∨ ch.cycleStartSeq = u64 (seq + 1) then { sys with mgr := m }
    else
      let m :=
        if isEnumContainsAny (channelStyle c) (cycledClose ||| cycledNotify) ∧ ch.cycleStartSeq ≠ 0 ∧
            ch.state.isCycled = false ∧ u64sub feeder.lostCount ch.cycleBeforeLostCount = 0 then
          (m.modify c fun ch =>
            { ch with state := if isEnumContains (channelStyle c) cycledClose then .canBeClosed else .cycled }).channelCycled c
        else m
      { sys with mgr := m.modify c (ExgMcChannel.onCycleStart feeder.lostCount (u64 (seq + 1))) }

/-- `OnPkSeqReset`, of the channel alone. -/
def onPkSeqReset : McSystem :=
  let m := sys.mgr.pkLogAppend args.utcNow c pk (ExgMcHead.getChannelSeq pk.data)
  let sys := { sys with mgr := m }.setFeeder c { sys.feeders c with pkPendings := [], nextSeq := 0 }
  if (m.channels c).isSetupReloading then sys else { sys with mgr := m.dispatchMcMessage c pk.data }

/-- `ExgMcChannel::OnPkReceived` -/
def channelOnPkReceived : McSystem :=
  if ExgMcHead.transmissionCode pk.data = 48 ∧ ExgMcHead.messageKind pk.data = 49 then sys.onPkHb args c pk
  else if ExgMcHead.transmissionCode pk.data = 48 ∧ ExgMcHead.messageKind pk.data = 50 then sys.onPkSeqReset args c pk
  else
    let sys :=
      if ExgMcHead.getChannelSeq pk.data = 1 ∧ isSnapshot c then sys.setFeeder c { sys.feeders c with nextSeq := 1 } else sys
    let sys :=
      if isEnumContains (channelStyle c) anySeq ∧ (sys.mgr.channels c).state ≠ .waiting then
        { sys with mgr := sys.mgr.dispatchMcMessage c pk.data }
      else sys
    if channelStyle c &&& ~~~ anySeq ≠ 0 ∨ channelStyle c = 0 then sys.feedPacket args c pk else sys

/-- `SetupReload`; `pks` are the packets in the log. -/
def setupReload (pks : ℕ → List ExgMcPk) (sys : McSystem) (c : ℕ) : McSystem :=
  if (sys.mgr.channels c).pkLog.isNone ∨ isEnumContains (channelStyle c) reload = false then sys
  else
    let set (isReloading : Bool) (sys : McSystem) : McSystem :=
      { sys with mgr := sys.mgr.modify c fun ch => { ch with isSkipPkLog := isReloading, isSetupReloading := isReloading } }
    set false ((pks c).foldl (fun sys pk => sys.channelOnPkReceived args c pk) (set true sys))

/-- `StartupChannelMgr` -/
def startup (opened : ℕ → Option Bytes) (pks : ℕ → List ExgMcPk) : McSystem :=
  (List.range kChannelCount).foldl (setupReload args pks)
    { mgr := { channels := fun c => ExgMcChannel.startup c (opened c) }, feeders := fun _ => {} }

end McSystem

/-- A packet arrives, or the timer of a channel fires. -/
inductive McOp
  | onPkReceived (pk : ExgMcPk)
  | pkContOnTimer (c : ℕ) (answer : RecoverAnswer)

def step (args : McArgs) (sys : McSystem) : McOp → McSystem
  | .onPkReceived pk =>
    if ExgMcHead.getChannelId pk.data < kChannelCount then sys.channelOnPkReceived args (ExgMcHead.getChannelId pk.data) pk
    else sys
  | .pkContOnTimer c answer => sys.pkContOnTimer args c answer

def run (args : McArgs) (sys : McSystem) (ops : List McOp) : McSystem := ops.foldl (step args) sys

end Fon9.Mc
