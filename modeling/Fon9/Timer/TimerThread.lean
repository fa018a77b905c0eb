import Mathlib.Algebra.Group.Int.Defs
import Mathlib.Algebra.Group.Nat.Defs
import Mathlib.Data.Prod.Lex
import Fon9.Lib.SortedInsert

/-! The timer thread and the entries it emits. Every section that holds the lock is one
step. The entries that wait are sorted so that the one to emit first is at the back. -/

namespace Fon9.Timer

open Lib

/-! ### Keys -/

/-- An `uint64_t`. -/
abbrev TimerSeqNo := ℕ

namespace TimerSeqNo

/-- Not in the queue: not started, or its callback runs. -/
def noWaiting : TimerSeqNo := 0

def disposed : TimerSeqNo := 1

/-- The first of the numbers an entry has while it waits in the queue. -/
def waitInLine : TimerSeqNo := 2

end TimerSeqNo

def isTimerWaitInLine (seqNo : TimerSeqNo) : Prop := TimerSeqNo.waitInLine ≤ seqNo

instance (seqNo : TimerSeqNo) : Decidable (isTimerWaitInLine seqNo) := inferInstanceAs (Decidable (_ ≤ _))

/-- The number after the last one given; it starts again where 64 bits end. -/
def TimerSeqNo.next (lastSeqNo : TimerSeqNo) : TimerSeqNo :=
  let seqNo := (lastSeqNo + 1) % 2 ^ 64
  if isTimerWaitInLine seqNo then seqNo else waitInLine

/-- `TimeStamp::Null()`, in microseconds. -/
def timeStampNull : ℤ := -2 ^ 63

structure TimerEntryKey where
  emitTime : ℤ
  seqNo : TimerSeqNo

/-- The later of two emit times is first, and of the same the greater number. -/
def TimerEntryKey.rank (key : TimerEntryKey) : (ℤ ×ₗ ℕ)ᵒᵈ := .toDual (toLex (key.emitTime, key.seqNo))

theorem TimerEntryKey.rank_injective : Function.Injective TimerEntryKey.rank := by
  rintro ⟨emitTime, seqNo⟩ ⟨emitTime', seqNo'⟩ h
  cases h
  rfl

instance : LinearOrder TimerEntryKey := LinearOrder.lift' TimerEntryKey.rank TimerEntryKey.rank_injective

/-- `operator<` of the keys. -/
theorem TimerEntryKey.lt_iff (lhs rhs : TimerEntryKey) :
    lhs < rhs ↔ if lhs.emitTime = rhs.emitTime then rhs.seqNo < lhs.seqNo else rhs.emitTime < lhs.emitTime := by
  have hlex : lhs < rhs ↔ toLex (rhs.emitTime, rhs.seqNo) < toLex (lhs.emitTime, lhs.seqNo) := Iff.rfl
  rw [hlex, Prod.Lex.toLex_lt_toLex]
  dsimp only
  split
  · next heq => rw [heq, lt_self_iff_false, false_or, and_iff_right rfl]
  · next hne => exact or_iff_left fun h => hne h.1.symm

/-! ### The timer thread -/

/-- Those of the states that a running timer thread goes through. -/
inductive ThreadState
  | executingOrWaiting
  | endNow
  | terminated
deriving DecidableEq

/-- Where the timer thread is when it does not hold the lock. -/
inductive Phase
  /-- `ThrRun` has not yet got the lock. -/
  | starting
  /-- In the callback of `currEntry`. -/
  | emitting
  /-- Since when it waits and how long, below 0 for ever; it has been notified. -/
  | waiting (since secs : ℤ) (notified : Bool)
  | ended
deriving DecidableEq

/-- Who calls: the timer thread, from a callback, or one of the other threads. -/
inductive Caller
  | timerThread
  | other (index : ℕ)
deriving DecidableEq

/-- The call a thread is in, and for those that wait whether it is about to test `IsThreadEnding`
or to take the lock. -/
inductive Call (Timer : Type)
  | none
  | setupRun (timer : Timer) (atTimePoint : ℤ) (after : Option ℤ)
  | disposeNoWait (timer : Timer)
  | stopNoWait (timer : Timer)
  | disposeAndWait (timer : Timer)
  | disposeAndWaitLock (timer : Timer)
  | stopAndWait (timer : Timer)
  | stopAndWaitLock (timer : Timer)
deriving DecidableEq

/-- What has happened. -/
inductive Event (Timer : Type)
  | armed (timer : Timer)
  | begun (timer : Timer)
  | done (timer : Timer)
  /-- `DisposeAndWait` or `DisposeNoWait` has returned. -/
  | disposed (timer : Timer)
deriving DecidableEq

/-- The thread's data, the keys of the entries, and what each thread does. Times are in
microseconds. `log` is no field of the source: its head is the latest event. -/
structure TimerThread (Timer : Type) where
  now : ℤ
  threadState : ThreadState
  lastSeqNo : TimerSeqNo
  timers : List (TimerEntryKey × Timer)
  cvWaitSecs : ℤ
  currEntry : Option Timer
  key : Timer → TimerEntryKey
  thread : Phase
  calls : Caller → Call Timer
  log : List (Event Timer)

namespace TimerThread

variable {Timer : Type} [DecidableEq Timer]

/-- No entry has been run. -/
def create (now : ℤ) : TimerThread Timer where
  now := now
  threadState := .executingOrWaiting
  lastSeqNo := TimerSeqNo.waitInLine
  timers := []
  cvWaitSecs := 0
  currEntry := none
  key := fun _ => ⟨timeStampNull, TimerSeqNo.noWaiting⟩
  thread := .starting
  calls := fun _ => .none
  log := []

variable (s : TimerThread Timer) (timer : Timer)

def isThreadEnding : Prop := s.threadState ≠ .executingOrWaiting

instance (s : TimerThread Timer) : Decidable s.isThreadEnding := inferInstanceAs (Decidable (_ ≠ _))

/-- `TimerThreadData::Erase`. -/
def erase (key : TimerEntryKey) : TimerThread Timer :=
  if key.seqNo = TimerSeqNo.noWaiting then s else { s with timers := sortedErase Prod.fst key s.timers }

def setKey (key : TimerEntryKey) : TimerThread Timer :=
  { s with key := Function.update s.key timer key }

def note (event : Event Timer) : TimerThread Timer := { s with log := event :: s.log }

/-- `NotifyOne` and `NotifyAll`: only the timer thread waits. -/
def notify : TimerThread Timer :=
  match s.thread with
  | .waiting since secs _ => { s with thread := .waiting since secs true }
  | _ => s

/-! ### The entries -/

/-- The new key is put in the queue, after the old one has been taken out. -/
def arm (atTimePoint : ℤ) : TimerThread Timer :=
  let s' := if isTimerWaitInLine (s.key timer).seqNo then s.erase (s.key timer) else s
  let key : TimerEntryKey := ⟨atTimePoint, s.lastSeqNo.next⟩
  { s' with
    lastSeqNo := s.lastSeqNo.next
    key := Function.update s.key timer key
    timers := (sortedInsert Prod.fst (key, timer) s'.timers).1
    log := .armed timer :: s.log }

/-- The timer thread is woken when the entry is at the back of the queue. The keys differ, so that
the back is where the insertion was if it has the key. -/
def wakeFor (atTimePoint : ℤ) (after : Option ℤ) : TimerThread Timer :=
  if s.timers.getLast?.map Prod.fst ≠ some (s.key timer) then s
  else
    let wsecs := after.getD (atTimePoint - s.now)
    if s.cvWaitSecs = wsecs then s
    else { s with cvWaitSecs := wsecs }.notify

def setupRun (atTimePoint : ℤ) (after : Option ℤ) : TimerThread Timer :=
  if s.isThreadEnding then s
  else if (s.key timer).seqNo = TimerSeqNo.disposed then s
  else (s.arm timer atTimePoint).wakeFor timer atTimePoint after

def stopNoWait : TimerThread Timer :=
  if s.isThreadEnding then s
  else if isTimerWaitInLine (s.key timer).seqNo then
    (s.erase (s.key timer)).setKey timer { s.key timer with seqNo := TimerSeqNo.noWaiting }
  else s

def disposeNoWait : TimerThread Timer :=
  if s.isThreadEnding then s
  else
    let s' := if isTimerWaitInLine (s.key timer).seqNo then s.erase (s.key timer) else s
    s'.setKey timer { s.key timer with seqNo := TimerSeqNo.disposed }

/-- The entry's callback runs, and not below the caller: it is to try again. -/
def checkCurrEmit (caller : Caller) (timer : Timer) : Prop :=
  s.currEntry = some timer ∧ caller ≠ .timerThread

instance (s : TimerThread Timer) (caller : Caller) (timer : Timer) : Decidable (s.checkCurrEmit caller timer) :=
  inferInstanceAs (Decidable (_ ∧ _))

/-- What `DisposeAndWait` does with the lock, before it looks at the current entry. -/
def disposeLocked : TimerThread Timer :=
  if isTimerWaitInLine (s.key timer).seqNo then
    (s.erase (s.key timer)).setKey timer ⟨timeStampNull, TimerSeqNo.disposed⟩
  else s

/-- What `StopAndWait` does with the lock, unless the entry is disposed. -/
def stopLocked : TimerThread Timer :=
  (s.erase (s.key timer)).setKey timer ⟨timeStampNull, TimerSeqNo.noWaiting⟩

/-! ### The loop of the thread -/

/-- `ThrRun` waits as long as `RunTimer` has found. -/
def enterWait (cvWaitSecs : ℤ) : TimerThread Timer :=
  { s with cvWaitSecs := cvWaitSecs, thread := .waiting s.now cvWaitSecs false }

/-- One second below 0. -/
def waitForEver : ℤ := -1000000

/-- The entry at the back is taken out and its callback begins. -/
def emit : TimerThread Timer :=
  { s with
    key := Function.update s.key timer { s.key timer with seqNo := TimerSeqNo.noWaiting }
    timers := s.timers.dropLast
    currEntry := some timer
    thread := .emitting
    log := .begun timer :: s.log }

/-- `RunTimer` up to where the lock is given up: in a callback, in the wait of `ThrRun`, or at the end. -/
def runTimer : TimerThread Timer :=
  if s.isThreadEnding then { s with threadState := .terminated, thread := .ended }
  else
    match s.timers.getLast? with
    | none => s.enterWait waitForEver
    | some (_, timer) =>
      let ti := (s.key timer).emitTime - s.now
      if 0 < ti then s.enterWait ti else s.emit timer

/-- The thread gets the lock: at its start, or when its wait ends, which it may do at any time. -/
def wake : TimerThread Timer :=
  match s.thread with
  | .starting => s.runTimer
  | .waiting .. => s.runTimer
  | _ => s

/-- The callback has returned and the thread gets the lock. -/
def emitted : TimerThread Timer :=
  match s.thread, s.currEntry with
  | .emitting, some timer => ({ s with currEntry := none }.note (.done timer)).runTimer
  | _, _ => s

/-- `NotifyForEndNow`. -/
def notifyForEndNow : TimerThread Timer :=
  (if s.threadState = .executingOrWaiting then { s with threadState := .endNow } else s).notify

/-! ### The threads -/

/-- What a thread may call. -/
inductive Request (Timer : Type)
  | runAt (timer : Timer) (atTimePoint : ℤ)
  | runAfter (timer : Timer) (after : ℤ)
  | stopNoWait (timer : Timer)
  | stopAndWait (timer : Timer)
  | disposeNoWait (timer : Timer)
  | disposeAndWait (timer : Timer)
deriving DecidableEq

/-- `RunAfter` reads the clock before the lock is taken. -/
def Request.call (now : ℤ) : Request Timer → Call Timer
  | runAt timer atTimePoint => .setupRun timer atTimePoint none
  | runAfter timer after => .setupRun timer (now + after) (some after)
  | stopNoWait timer => .stopNoWait timer
  | stopAndWait timer => .stopAndWait timer
  | disposeNoWait timer => .disposeNoWait timer
  | disposeAndWait timer => .disposeAndWait timer

def setCall (caller : Caller) (call : Call Timer) : TimerThread Timer :=
  { s with calls := Function.update s.calls caller call }

/-- A thread that is in no call begins one; the timer thread is in no call while it is in no callback. -/
def request (s : TimerThread Timer) (caller : Caller) (request : Request Timer) : TimerThread Timer :=
  if s.calls caller = .none ∧ (caller = .timerThread → s.thread = .emitting) then
    s.setCall caller (request.call s.now)
  else s

/-- The next step of the thread's call. -/
def proceed (caller : Caller) : TimerThread Timer :=
  match s.calls caller with
  | .none => s
  | .setupRun timer atTimePoint after => (s.setupRun timer atTimePoint after).setCall caller .none
  | .stopNoWait timer => (s.stopNoWait timer).setCall caller .none
  | .disposeNoWait timer => ((s.disposeNoWait timer).note (.disposed timer)).setCall caller .none
  | .disposeAndWait timer =>
    if s.isThreadEnding then (s.note (.disposed timer)).setCall caller .none
    else s.setCall caller (.disposeAndWaitLock timer)
  | .disposeAndWaitLock timer =>
    let s' := s.disposeLocked timer
    if s'.checkCurrEmit caller timer then s'.setCall caller (.disposeAndWait timer)
    else (s'.note (.disposed timer)).setCall caller .none
  | .stopAndWait timer =>
    if s.isThreadEnding then s.setCall caller .none else s.setCall caller (.stopAndWaitLock timer)
  | .stopAndWaitLock timer =>
    if (s.key timer).seqNo = TimerSeqNo.disposed then s.setCall caller .none
    else
      let s' := s.stopLocked timer
      if s'.checkCurrEmit caller timer then s'.setCall caller (.stopAndWait timer)
      else s'.setCall caller .none

inductive Op (Timer : Type)
  | request (caller : Caller) (request : Request Timer)
  | proceed (caller : Caller)
  | advance (elapsed : ℕ)
  | wake
  | emitted
  | notifyForEndNow

/-- A callback returns when it is in no call. -/
def step : Op Timer → TimerThread Timer
  | .request caller request => s.request caller request
  | .proceed caller => s.proceed caller
  | .advance elapsed => { s with now := s.now + elapsed }
  | .wake => s.wake
  | .emitted => if s.calls .timerThread = .none then s.emitted else s
  | .notifyForEndNow => s.notifyForEndNow

end TimerThread

end Fon9.Timer
