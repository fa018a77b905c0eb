import Fon9.AQueue.WorkContent

/-! Threads around an AQueue. Each thread has a stack of the lockers it has constructed and
of the call of TakeCall it is in; `frames` holds the frames of all threads, the newest
first. A step is one section under the mutex, or one move of the loop in TakeCall. -/

namespace Fon9.AQueue

open Option

/-- An object of `ALockerBase`. -/
structure Locker where
  thread : ThreadId
  taskKind : AQueueTaskKind
  inTakingCallThread : Bool
  isAllowInplace : Bool
  ownsLock : Bool
  deriving DecidableEq, Repr

/-- A call of `TakeCall` between its two locked sections: the tasks whose `Invoke` has not
begun, and whether one has begun and not returned. -/
structure Taking (Task : Type*) where
  thread : ThreadId
  tasks : List Task
  invoking : Bool
  deriving DecidableEq, Repr

inductive Frame (Task : Type*) where
  | locker (l : Locker)
  | taking (t : Taking Task)
  deriving DecidableEq, Repr

variable {Task : Type*}

namespace Frame

def thread : Frame Task → ThreadId
  | .locker l => l.thread
  | .taking t => t.thread

def ownsLock : Frame Task → Bool
  | .locker l => l.ownsLock
  | .taking _ => false

/-- The kind of a section that runs in place and is not part of a task of TakeCall. -/
def openKind : Frame Task → Option AQueueTaskKind
  | .locker l => if l.isAllowInplace && !l.inTakingCallThread then some l.taskKind else none
  | .taking _ => none

def takingThread : Frame Task → Option ThreadId
  | .locker _ => none
  | .taking t => some t.thread

/-- The thread of a locker constructed inside a task of TakeCall. -/
def nestedThread : Frame Task → Option ThreadId
  | .locker l => if l.inTakingCallThread then some l.thread else none
  | .taking _ => none

/-- The thread of a call of TakeCall that is between two tasks. -/
def idleThread : Frame Task → Option ThreadId
  | .locker _ => none
  | .taking t => if t.invoking then none else some t.thread

/-- A locker that may not run in place. -/
def isDenied : Frame Task → Bool
  | .locker l => !l.isAllowInplace
  | .taking _ => false

def todo : Frame Task → List Task
  | .locker _ => []
  | .taking t => t.tasks

end Frame

/-- The queue and its threads. `calls` counts the calls of `MakeCallForWork` that no
`TakeCall` has answered; `added` and `invoked` record the tasks in the order in which they
were put in the queue and in which their `Invoke` began. -/
structure System (Task : Type*) where
  work : WorkContent Task := {}
  frames : List (Frame Task) := []
  calls : ℕ := 0
  added : List Task := []
  invoked : List Task := []
  deriving DecidableEq, Repr

namespace System

variable (s : System Task)

def openKinds : List AQueueTaskKind := s.frames.filterMap Frame.openKind

def todo : List Task := s.frames.flatMap Frame.todo

/-- The mutex is held, between two steps, by the locker that owns it. -/
def isLocked : Bool := s.frames.any Frame.ownsLock

/-- The thread runs code of its own, and not the loop in TakeCall. -/
def inUserCode (thread : ThreadId) : Bool :=
  match s.frames.find? (fun f => f.thread == thread) with
  | some (.taking t) => t.invoking
  | _ => true

/-- No newer frame is of the same thread. -/
def isTop (n : ℕ) (thread : ThreadId) : Bool :=
  (s.frames.take n).all (fun f => f.thread != thread)

def setFrame (n : ℕ) (f : Frame Task) : System Task :=
  { s with frames := s.frames.set n f }

def push (task : Task) : System Task :=
  { s with work := s.work.pushTask task, added := s.added ++ [task] }

def afterAddTask : System Task :=
  if s.work.workingTaskKind = 0#32 then
    let r := s.work.setToRinging
    if r.1 then { s with work := r.2, calls := s.calls + 1 } else s
  else s

def addTask (task : Task) : System Task := (s.push task).afterAddTask

/-- The constructor of `ALockerBase`, with the lock. -/
def construct (thread : ThreadId) (taskKind : AQueueTaskKind) : System Task :=
  let inTakingCallThread := s.work.inTakingCallThread thread
  let r := if inTakingCallThread then (true, s.work) else s.work.checkAndSet taskKind
  { s with
    work := r.2
    frames := .locker ⟨thread, taskKind, inTakingCallThread, r.1, true⟩ :: s.frames }

/-- The body of `~ALockerBase`, with the lock where it takes it. -/
def destruct (l : Locker) : System Task :=
  if l.isAllowInplace then
    if l.inTakingCallThread then s
    else
      let r := s.work.clearTaskKind l.taskKind
      let s := { s with work := r.2 }
      if r.1 && !s.work.tasks.isEmpty then s.afterAddTask else s
  else if !s.work.tasks.isEmpty then s.afterAddTask else s

/-- The first section of `TakeCall` where it does not return. -/
def swapTasks (thread : ThreadId) : System Task :=
  { s with
    work := { s.work with tasks := [], takingCallThreadId := some thread, state := .Working }
    frames := .taking ⟨thread, s.work.tasks, false⟩ :: s.frames
    calls := s.calls - 1 }

/-- The final section of `TakeCall`. -/
def endTakeCall : System Task :=
  let work := { s.work with takingCallThreadId := none }
  if work.tasks.isEmpty then { s with work := { work with state := .Sleeping } }
  else { s with work := { work with state := .Ringing }, calls := s.calls + 1 }

end System

/-- What a thread does next. A frame is named by its place in `frames`. -/
inductive Act (Task : Type*) where
  | addTask (thread : ThreadId) (task : Task)
  | construct (thread : ThreadId) (taskKind : AQueueTaskKind)
  | unlockForInplace (n : ℕ)
  | relock (n : ℕ)
  | addAsyncTask (n : ℕ) (task : Task)
  | destruct (n : ℕ)
  | takeCall (thread : ThreadId)
  | invoke (n : ℕ)
  | returned (n : ℕ)
  | endTakeCall (n : ℕ)
  deriving DecidableEq, Repr

/-- One step, or `none` where the thread cannot take it: it waits for the mutex, the frame
is not of the kind the action is about, or an assertion of the source forbids it. -/
def step (s : System Task) : Act Task → Option (System Task)
  | .addTask thread task =>
    if s.inUserCode thread && !s.isLocked then some (s.addTask task) else none
  | .construct thread taskKind =>
    if s.inUserCode thread && !s.isLocked then some (s.construct thread taskKind) else none
  | .unlockForInplace n =>
    match s.frames[n]? with
    | some (.locker l) =>
      if s.inUserCode l.thread && l.isAllowInplace && l.ownsLock then
        some (s.setFrame n (.locker { l with ownsLock := false }))
      else none
    | _ => none
  | .relock n =>
    match s.frames[n]? with
    | some (.locker l) =>
      if s.inUserCode l.thread && !l.ownsLock && !s.isLocked then
        some (s.setFrame n (.locker { l with ownsLock := true }))
      else none
    | _ => none
  | .addAsyncTask n task =>
    match s.frames[n]? with
    | some (.locker l) => if s.inUserCode l.thread && l.ownsLock then some (s.push task) else none
    | _ => none
  | .destruct n =>
    match s.frames[n]? with
    | some (.locker l) =>
      if s.isTop n l.thread && (l.ownsLock || l.inTakingCallThread || !s.isLocked) then
        some ({ s with frames := s.frames.eraseIdx n }.destruct l)
      else none
    | _ => none
  | .takeCall thread =>
    if s.inUserCode thread && !s.isLocked then
      if s.work.workingTaskKind ≠ 0#32 ∨ s.work.isTakingCall then
        some { s with calls := s.calls - 1 }
      else some (s.swapTasks thread)
    else none
  | .invoke n =>
    match s.frames[n]? with
    | some (.taking ⟨thread, task :: tasks, false⟩) =>
      if s.isTop n thread then
        some { s.setFrame n (.taking ⟨thread, tasks, true⟩) with invoked := s.invoked ++ [task] }
      else none
    | _ => none
  | .returned n =>
    match s.frames[n]? with
    | some (.taking ⟨thread, tasks, true⟩) =>
      if s.isTop n thread then some (s.setFrame n (.taking ⟨thread, tasks, false⟩)) else none
    | _ => none
  | .endTakeCall n =>
    match s.frames[n]? with
    | some (.taking ⟨thread, [], false⟩) =>
      if s.isTop n thread && !s.isLocked then
        some { s with frames := s.frames.eraseIdx n }.endTakeCall
      else none
    | _ => none

/-! ### What a step can do -/

/-- The effect of a step, with what the step knows of the state before it. The frame it is
about stands between the newer frames `pre` and the older frames `post`. -/
inductive Effect (s : System Task) : System Task → Prop where
  | addTask (task : Task) : s.isLocked = false → Effect s (s.addTask task)
  | construct (thread : ThreadId) (taskKind : AQueueTaskKind) : s.isLocked = false →
      s.inUserCode thread = true → Effect s (s.construct thread taskKind)
  | unlock {pre post : List (Frame Task)} {l : Locker} :
      s.frames = pre ++ .locker l :: post → l.isAllowInplace = true →
      Effect s { s with frames := pre ++ .locker { l with ownsLock := false } :: post }
  | relock {pre post : List (Frame Task)} {l : Locker} :
      s.frames = pre ++ .locker l :: post → s.isLocked = false →
      Effect s { s with frames := pre ++ .locker { l with ownsLock := true } :: post }
  | addAsyncTask {pre post : List (Frame Task)} {l : Locker} (task : Task) :
      s.frames = pre ++ .locker l :: post → l.ownsLock = true → Effect s (s.push task)
  | destruct {pre post : List (Frame Task)} {l : Locker} :
      s.frames = pre ++ .locker l :: post →
      (l.ownsLock || l.inTakingCallThread || !s.isLocked) = true →
      Effect s ({ s with frames := pre ++ post }.destruct l)
  | returnEarly : s.isLocked = false → s.work.workingTaskKind ≠ 0#32 ∨ s.work.isTakingCall = true →
      Effect s { s with calls := s.calls - 1 }
  | swapTasks (thread : ThreadId) : s.isLocked = false → s.work.workingTaskKind = 0#32 →
      s.work.isTakingCall = false → Effect s (s.swapTasks thread)
  | invoke {pre post : List (Frame Task)} {thread : ThreadId} {task : Task} {tasks : List Task} :
      s.frames = pre ++ .taking ⟨thread, task :: tasks, false⟩ :: post →
      (∀ f ∈ pre, f.thread ≠ thread) →
      Effect s { s with
        frames := pre ++ .taking ⟨thread, tasks, true⟩ :: post
        invoked := s.invoked ++ [task] }
  | returned {pre post : List (Frame Task)} {thread : ThreadId} {tasks : List Task} :
      s.frames = pre ++ .taking ⟨thread, tasks, true⟩ :: post →
      (∀ f ∈ pre, f.thread ≠ thread) →
      Effect s { s with frames := pre ++ .taking ⟨thread, tasks, false⟩ :: post }
  | endTakeCall {pre post : List (Frame Task)} {thread : ThreadId} :
      s.frames = pre ++ .taking ⟨thread, [], false⟩ :: post → (∀ f ∈ pre, f.thread ≠ thread) →
      s.isLocked = false → Effect s { s with frames := pre ++ post }.endTakeCall

/-- The frame at a place stands between the newer and the older ones. -/
theorem frame_split {s : System Task} {n : ℕ} {f : Frame Task} (h : s.frames[n]? = some f) :
    s.frames = s.frames.take n ++ f :: s.frames.drop (n + 1) ∧
      s.frames.eraseIdx n = s.frames.take n ++ s.frames.drop (n + 1) ∧
      ∀ g, s.frames.set n g = s.frames.take n ++ g :: s.frames.drop (n + 1) := by
  obtain ⟨hn, hf⟩ := List.getElem?_eq_some_iff.mp h
  refine ⟨?_, List.eraseIdx_eq_take_drop_succ .., fun g => List.set_eq_take_append_cons_drop .. |>.trans (if_pos hn)⟩
  rw [← hf, ← List.drop_eq_getElem_cons hn, List.take_append_drop]

theorem isTop_iff {s : System Task} {n : ℕ} {thread : ThreadId} :
    s.isTop n thread = true ↔ ∀ f ∈ s.frames.take n, f.thread ≠ thread := by
  simp [System.isTop]

theorem step_effect {s s' : System Task} {a : Act Task} (h : step s a = some s') : Effect s s' := by
  cases a with
  | addTask thread task =>
    simp only [step, ite_none_right_eq_some, Bool.and_eq_true, Bool.not_eq_true',
      some.injEq] at h
    obtain ⟨⟨-, hlock⟩, rfl⟩ := h
    exact .addTask task hlock
  | construct thread taskKind =>
    simp only [step, ite_none_right_eq_some, Bool.and_eq_true, Bool.not_eq_true',
      some.injEq] at h
    obtain ⟨⟨huser, hlock⟩, rfl⟩ := h
    exact .construct thread taskKind hlock huser
  | unlockForInplace n =>
    simp only [step] at h
    split at h
    next l hf =>
      obtain ⟨hsplit, -, hset⟩ := frame_split hf
      simp only [ite_none_right_eq_some, Bool.and_eq_true, some.injEq] at h
      obtain ⟨⟨⟨-, hallow⟩, -⟩, rfl⟩ := h
      rw [System.setFrame, hset]
      exact .unlock hsplit hallow
    next => cases h
  | relock n =>
    simp only [step] at h
    split at h
    next l hf =>
      obtain ⟨hsplit, -, hset⟩ := frame_split hf
      simp only [ite_none_right_eq_some, Bool.and_eq_true, Bool.not_eq_true',
        some.injEq] at h
      obtain ⟨⟨-, hlock⟩, rfl⟩ := h
      rw [System.setFrame, hset]
      exact .relock hsplit hlock
    next => cases h
  | addAsyncTask n task =>
    simp only [step] at h
    split at h
    next l hf =>
      simp only [ite_none_right_eq_some, Bool.and_eq_true, some.injEq] at h
      obtain ⟨⟨-, howns⟩, rfl⟩ := h
      exact .addAsyncTask task (frame_split hf).1 howns
    next => cases h
  | destruct n =>
    simp only [step] at h
    split at h
    next l hf =>
      obtain ⟨hsplit, herase, -⟩ := frame_split hf
      rw [ite_none_right_eq_some, Bool.and_eq_true] at h
      obtain ⟨⟨-, hlock⟩, hs⟩ := h
      rw [some.injEq, herase] at hs
      rw [← hs]
      exact .destruct hsplit hlock
    next => cases h
  | takeCall thread =>
    simp only [step, ite_none_right_eq_some, Bool.and_eq_true, Bool.not_eq_true'] at h
    obtain ⟨⟨-, hlock⟩, h⟩ := h
    split at h
    next hearly =>
      cases h
      exact .returnEarly hlock hearly
    next htake =>
      cases h
      rw [not_or, not_not, Bool.not_eq_true] at htake
      exact .swapTasks thread hlock htake.1 htake.2
  | invoke n =>
    simp only [step] at h
    split at h
    next thread task tasks hf =>
      obtain ⟨hsplit, -, hset⟩ := frame_split hf
      simp only [ite_none_right_eq_some, some.injEq] at h
      obtain ⟨htop, rfl⟩ := h
      rw [System.setFrame, hset]
      exact .invoke hsplit (isTop_iff.mp htop)
    next => cases h
  | returned n =>
    simp only [step] at h
    split at h
    next thread tasks hf =>
      obtain ⟨hsplit, -, hset⟩ := frame_split hf
      simp only [ite_none_right_eq_some, some.injEq] at h
      obtain ⟨htop, rfl⟩ := h
      rw [System.setFrame, hset]
      exact .returned hsplit (isTop_iff.mp htop)
    next => cases h
  | endTakeCall n =>
    simp only [step] at h
    split at h
    next thread hf =>
      obtain ⟨hsplit, herase, -⟩ := frame_split hf
      simp only [ite_none_right_eq_some, Bool.and_eq_true, Bool.not_eq_true',
        some.injEq] at h
      obtain ⟨⟨htop, hlock⟩, rfl⟩ := h
      rw [herase]
      exact .endTakeCall hsplit (isTop_iff.mp htop) hlock
    next => cases h

end Fon9.AQueue
