import Fon9.AQueue.System

/-! What holds of the queue, its threads and the mutex whatever the threads do. -/

namespace Fon9.AQueue

variable {Task : Type*}

/-- Somebody will look at the tasks: a notification is on its way, a TakeCall runs, or a
section is open and looks at them when it ends. -/
def Awake (s : System Task) : Prop :=
  s.work.state = .Ringing ∨ s.work.state = .Working ∨ s.openKinds ≠ []

/-- The parts of the invariant that do not ask for a notification. -/
structure Core (s : System Task) : Prop where
  taking_frames : s.frames.filterMap Frame.takingThread = s.work.takingCallThreadId.toList
  working : s.work.state = .Working ↔ s.work.isTakingCall = true
  ringing : s.work.state = .Ringing →
    0 < s.calls ∧ s.work.tasks ≠ [] ∧ s.work.workingTaskKind = 0#32
  tracks : Tracks s.work s.openKinds
  taking_kind : s.work.isTakingCall = true → s.work.workingTaskKind = 0#32
  nested : ∀ f ∈ s.frames, ∀ i, f.nestedThread = some i → s.work.takingCallThreadId = some i
  stacked : s.frames.Pairwise fun newer older =>
    ∀ i, newer.takingThread = some i → older.nestedThread ≠ some i
  idle_top : s.frames.Pairwise fun newer older => older.idleThread ≠ some newer.thread
  order : s.invoked ++ s.todo ++ s.work.tasks = s.added
  owners : s.frames.countP Frame.ownsLock ≤ 1
  denied : ∀ f ∈ s.frames, f.isDenied = true → f.ownsLock = true

/-- The invariant of the queue: while a task waits, or a locker that was refused may still
add one, somebody will look at the tasks. -/
structure Inv (s : System Task) : Prop extends Core s where
  awake : (s.work.tasks ≠ [] ∨ ∃ f ∈ s.frames, f.isDenied = true) → Awake s

theorem inv_init : Inv ({} : System Task) where
  taking_frames := rfl
  working := ⟨fun h => (by cases h), fun h => (by cases h)⟩
  ringing h := by cases h
  tracks := ⟨List.Pairwise.nil, fun i => by simp [System.openKinds], rfl⟩
  taking_kind h := by cases h
  nested f hf := by cases hf
  stacked := List.Pairwise.nil
  idle_top := List.Pairwise.nil
  order := rfl
  owners := Nat.zero_le _
  denied f hf := by cases hf
  awake h := by
    rcases h with h | ⟨f, hf, -⟩
    · exact absurd rfl h
    · cases hf

theorem pairwise_replace {α : Type*} {R : α → α → Prop} {pre post : List α} {a b : α}
    (hleft : ∀ x, R x a → R x b) (hright : ∀ x, R a x → R b x)
    (h : (pre ++ a :: post).Pairwise R) : (pre ++ b :: post).Pairwise R := by
  simp only [List.pairwise_append, List.pairwise_cons, List.mem_cons, forall_eq_or_imp] at h ⊢
  obtain ⟨hpre, ⟨ha, hpost⟩, hcross⟩ := h
  exact ⟨hpre, ⟨fun x hx => hright x (ha x hx), hpost⟩,
    fun x hx => ⟨hleft x (hcross x hx).1, (hcross x hx).2⟩⟩

/-- Either a notification is asked for, or nothing changes because one is not needed. -/
theorem afterAddTask_cases (s : System Task) :
    (s.work.workingTaskKind = 0#32 ∧ s.work.state = .Sleeping ∧
      s.afterAddTask = { s with work := { s.work with state := .Ringing }, calls := s.calls + 1 }) ∨
    ((s.work.workingTaskKind ≠ 0#32 ∨ s.work.state ≠ .Sleeping) ∧ s.afterAddTask = s) := by
  unfold System.afterAddTask WorkContent.setToRinging
  by_cases hkind : s.work.workingTaskKind = 0#32
  · by_cases hstate : s.work.state = .Sleeping
    · exact .inl ⟨hkind, hstate, by simp [hkind, hstate]⟩
    · exact .inr ⟨.inr hstate, by simp [hkind, hstate]⟩
  · exact .inr ⟨.inl hkind, by simp [hkind]⟩

theorem not_locked_iff {s : System Task} :
    s.isLocked = false ↔ s.frames.countP Frame.ownsLock = 0 := by
  rw [List.countP_eq_zero]
  simp [System.isLocked]

variable {thread : ThreadId} {l : Locker}

namespace Core

variable {s : System Task} {pre post : List (Frame Task)} {f g : Frame Task}

/-- A frame that owns the mutex is the only one that does. -/
theorem owner_unique (h : Core s) (hs : s.frames = pre ++ f :: post) (howns : f.ownsLock = true) :
    ∀ f' ∈ pre ++ post, f'.ownsLock = false := by
  have hcount := h.owners
  rw [hs, List.countP_append, List.countP_cons_of_pos howns] at hcount
  have hzero : (pre ++ post).countP Frame.ownsLock = 0 := by
    rw [List.countP_append]
    omega
  intro f' hf'
  simpa using List.countP_eq_zero.mp hzero f' hf'

/-- A call of TakeCall that stands in one frame stands in no other. -/
theorem taking_unique (h : Core s) (hs : s.frames = pre ++ f :: post) (hf : f.takingThread = some thread)
    : s.work.takingCallThreadId = some thread ∧
      ∀ f' ∈ pre ++ post, f'.takingThread = none := by
  have hlist := h.taking_frames
  rw [hs, List.filterMap_append, List.filterMap_cons_some hf] at hlist
  cases hid : s.work.takingCallThreadId with
  | none => simp [hid] at hlist
  | some thread' =>
    rw [hid, Option.toList_some, List.append_eq_singleton_iff] at hlist
    simp only [List.cons.injEq, reduceCtorEq, and_false, or_false, List.filterMap_eq_nil_iff] at hlist
    obtain ⟨hpre, rfl, hpost⟩ := hlist
    refine ⟨rfl, fun f' hf' => ?_⟩
    rcases List.mem_append.mp hf' with hf' | hf'
    · exact hpre f' hf'
    · exact hpost f' hf'

theorem todo_eq_nil {frames : List (Frame Task)} (h : ∀ f ∈ frames, f.takingThread = none) :
    frames.flatMap Frame.todo = [] := by
  rw [List.flatMap_eq_nil_iff]
  intro f hf
  cases f with
  | locker l => rfl
  | taking t => cases h _ hf

theorem todo_replace (h : g.todo = f.todo) :
    (pre ++ g :: post).flatMap Frame.todo = (pre ++ f :: post).flatMap Frame.todo := by
  rw [List.flatMap_append, List.flatMap_append, List.flatMap_cons, List.flatMap_cons, h]

section

variable (h : Core s)
include h

/-- The task whose `Invoke` begins is the next one of the tasks that TakeCall has taken. -/
theorem invoke_taken {task : Task} {tasks : List Task}
    (hs : s.frames = pre ++ .taking ⟨thread, task :: tasks, false⟩ :: post) :
    s.invoked ++ [task] ++ (pre ++ .taking ⟨thread, tasks, true⟩ :: post).flatMap Frame.todo =
      s.invoked ++ (pre ++ .taking ⟨thread, task :: tasks, false⟩ :: post).flatMap Frame.todo := by
  obtain ⟨-, hother⟩ := h.taking_unique hs rfl
  rw [List.flatMap_append, List.flatMap_append, List.flatMap_cons, List.flatMap_cons,
    todo_eq_nil fun f hf => hother f (List.mem_append_left _ hf)]
  simp [Frame.todo]

theorem push (task : Task) : Core (s.push task) where
  taking_frames := h.taking_frames
  working := h.working
  ringing hr := ⟨(h.ringing hr).1, by simp [System.push, WorkContent.pushTask], (h.ringing hr).2.2⟩
  tracks := h.tracks.congr rfl rfl
  taking_kind := h.taking_kind
  nested := h.nested
  stacked := h.stacked
  idle_top := h.idle_top
  order := by
    show s.invoked ++ s.todo ++ (s.work.tasks ++ [task]) = s.added ++ [task]
    rw [← List.append_assoc, h.order]
  owners := h.owners
  denied := h.denied

theorem afterAddTask (htasks : s.work.tasks ≠ []) : Core s.afterAddTask := by
  rcases afterAddTask_cases s with ⟨hkind, hstate, heq⟩ | ⟨-, heq⟩
  · rw [heq]
    have hidle : ¬ s.work.isTakingCall = true := by
      rw [← h.working, hstate]
      decide
    exact
      { h with
        working := iff_of_false (fun hw => by cases hw) hidle
        ringing := fun _ => ⟨Nat.succ_pos _, htasks, hkind⟩
        tracks := h.tracks.congr rfl rfl }
  · rw [heq]
    exact h

/-- After `AfterAddTask` somebody will look at the tasks. -/
theorem awake_afterAddTask : Awake s.afterAddTask := by
  rcases afterAddTask_cases s with ⟨-, -, heq⟩ | ⟨hno, heq⟩
  · rw [heq]
    exact .inl rfl
  · rw [heq]
    rcases hno with hkind | hstate
    · exact .inr (.inr (h.tracks.ne_nil hkind))
    · cases hs : s.work.state with
      | Sleeping => exact absurd hs hstate
      | Ringing => exact .inl hs
      | Working => exact .inr (.inl hs)

/-- A new frame on top of the stack of its thread, with the state the mutex protects
changed to `w`. -/
theorem cons (hlock : s.isLocked = false) {w : WorkContent Task} (howns : l.ownsLock = true)
    (hbusy : ∀ f ∈ s.frames, f.idleThread ≠ some l.thread)
    (hnest : l.inTakingCallThread = true → s.work.takingCallThreadId = some l.thread)
    (hframe : w = { s.work with workingTaskKind := w.workingTaskKind, countGetter := w.countGetter })
    (htracks : Tracks w ((Frame.locker l :: s.frames).filterMap Frame.openKind))
    (hidle : w = s.work ∨ (s.work.takingCallThreadId = none ∧ s.work.tasks = [])) :
    Core { s with work := w, frames := .locker l :: s.frames } := by
  have hid : w.takingCallThreadId = s.work.takingCallThreadId := by rw [hframe]
  have hstate : w.state = s.work.state := by rw [hframe]
  have htasks : w.tasks = s.work.tasks := by rw [hframe]
  have htaking : w.isTakingCall = s.work.isTakingCall := by rw [WorkContent.isTakingCall, hid]; rfl
  exact
    { taking_frames := by rw [hid]; exact h.taking_frames
      working := by rw [hstate, htaking]; exact h.working
      ringing := by
        intro hr
        rw [hstate] at hr
        rcases hidle with rfl | ⟨-, hempty⟩
        · exact h.ringing hr
        · exact absurd hempty (h.ringing hr).2.1
      tracks := htracks
      taking_kind := by
        intro ht
        rcases hidle with rfl | ⟨hnone, -⟩
        · exact h.taking_kind ht
        · rw [htaking, WorkContent.isTakingCall, hnone] at ht
          cases ht
      nested := by
        intro f hf i hi
        rw [hid]
        rcases List.mem_cons.mp hf with rfl | hf
        · simp only [Frame.nestedThread, Option.ite_none_right_eq_some, Option.some.injEq] at hi
          rw [hnest hi.1, hi.2]
        · exact h.nested f hf i hi
      stacked := List.pairwise_cons.mpr ⟨fun _ _ i hi => (by cases hi), h.stacked⟩
      idle_top := List.pairwise_cons.mpr ⟨hbusy, h.idle_top⟩
      order := by rw [htasks]; exact h.order
      owners := by
        have howns' : (Frame.locker l : Frame Task).ownsLock = true := howns
        rw [List.countP_cons_of_pos howns', not_locked_iff.mp hlock]
      denied := by
        intro f hf hdeny
        rcases List.mem_cons.mp hf with rfl | hf
        · exact howns
        · exact h.denied f hf hdeny }

/-- A thread that runs code of its own is not between two tasks of TakeCall. -/
theorem busy_of_inUserCode (huser : s.inUserCode thread = true) :
    ∀ f ∈ s.frames, f.idleThread ≠ some thread := by
  intro f hf hidle
  obtain ⟨pre, post, hs⟩ := List.append_of_mem hf
  have hthread : f.thread = thread := by
    cases f with
    | locker l => cases hidle
    | taking t =>
      simp only [Frame.idleThread, Option.ite_none_left_eq_some, Option.some.injEq] at hidle
      exact hidle.2
  have hpre : ∀ f' ∈ pre, ¬ (f'.thread == thread) = true := by
    intro f' hf' hsame
    have hidle_top := h.idle_top
    rw [hs] at hidle_top
    have := (List.pairwise_append.mp hidle_top).2.2 f' hf' f List.mem_cons_self
    rw [eq_of_beq hsame] at this
    exact this hidle
  have hfind : s.frames.find? (fun f => f.thread == thread) = some f := by
    rw [hs, List.find?_append, List.find?_eq_none.mpr hpre, Option.none_or,
      List.find?_cons_of_pos (by simpa using hthread)]
  unfold System.inUserCode at huser
  rw [hfind] at huser
  cases f with
  | locker l => cases hidle
  | taking t =>
    simp only [Frame.idleThread, Option.ite_none_left_eq_some] at hidle
    exact hidle.1 huser

theorem construct (thread : ThreadId) (taskKind : AQueueTaskKind) (hlock : s.isLocked = false)
    (huser : s.inUserCode thread = true) :
    Core (s.construct thread taskKind) := by
  have hbusy := h.busy_of_inUserCode huser
  unfold System.construct
  cases hin : s.work.inTakingCallThread thread with
  | true =>
    -- in a task of TakeCall the locker leaves the shared state alone
    have hthread : s.work.takingCallThreadId = some thread := by
      simpa [WorkContent.inTakingCallThread] using hin
    exact h.cons hlock rfl hbusy (fun _ => hthread) rfl h.tracks (.inl rfl)
  | false =>
    simp only [Bool.false_eq_true, if_false]
    cases hc : (s.work.checkAndSet taskKind).1 with
    | false =>
      rw [(WorkContent.checkAndSet_false h.tracks hc).1]
      exact h.cons hlock rfl hbusy (fun hno => by cases hno) rfl h.tracks (.inl rfl)
    | true =>
      obtain ⟨hidle, hempty, htracks, hframe⟩ := WorkContent.checkAndSet_true h.tracks hc
      exact h.cons hlock rfl hbusy (fun hno => by cases hno) hframe htracks (.inr ⟨hidle, hempty⟩)

/-- A frame changes, and what the others see of it does not. -/
theorem replace (hs : s.frames = pre ++ f :: post) {invoked : List Task} (hopen : g.openKind = f.openKind)
    (htaking : g.takingThread = f.takingThread) (hnested : g.nestedThread = f.nestedThread)
    (hthread : g.thread = f.thread)
    (hidle : g.idleThread = none ∨ (g.idleThread = some g.thread ∧ ∀ f ∈ pre, f.thread ≠ g.thread))
    (horder : invoked ++ (pre ++ g :: post).flatMap Frame.todo = s.invoked ++ (pre ++ f :: post).flatMap Frame.todo)
    (hown : g.ownsLock = true → f.ownsLock = true ∨ s.isLocked = false)
    (hdenied : g.isDenied = true → g.ownsLock = true) :
    Core { s with frames := pre ++ g :: post, invoked } := by
  have hmem : ∀ f' ∈ pre ++ g :: post, f' = g ∨ f' ∈ s.frames := by
    intro f' hf'
    rw [hs]
    simp only [List.mem_append, List.mem_cons] at hf' ⊢
    tauto
  have hf : f ∈ s.frames := by simp [hs]
  exact
    { h with
      taking_frames := by
        rw [← h.taking_frames, hs, List.filterMap_append, List.filterMap_append,
          List.filterMap_cons, List.filterMap_cons, htaking]
      tracks := by
        have htracks := h.tracks
        unfold System.openKinds at htracks ⊢
        rw [hs, List.filterMap_append, List.filterMap_cons, ← hopen] at htracks
        rw [List.filterMap_append, List.filterMap_cons]
        exact htracks
      nested := by
        intro f' hf' i hi
        rcases hmem f' hf' with rfl | hf'
        · exact h.nested f hf i (hnested ▸ hi)
        · exact h.nested f' hf' i hi
      stacked := by
        have hstacked := h.stacked
        rw [hs] at hstacked
        apply pairwise_replace ?_ ?_ hstacked
        · intro x hx i hi
          rw [hnested]
          exact hx i hi
        · intro x hx i hi
          exact hx i (htaking ▸ hi)
      idle_top := by
        have htop := h.idle_top
        rw [hs, List.pairwise_append, List.pairwise_cons] at htop
        obtain ⟨hpre, ⟨hf, hpost⟩, hcross⟩ := htop
        refine List.pairwise_append.mpr ⟨hpre, List.pairwise_cons.mpr ⟨?_, hpost⟩, ?_⟩
        · rw [hthread]
          exact hf
        · intro a ha b hb
          rcases List.mem_cons.mp hb with rfl | hb
          · rcases hidle with hnone | ⟨hsome, hother⟩
            · rw [hnone]
              exact fun hno => by cases hno
            · rw [hsome]
              exact fun heq => hother a ha (Option.some.inj heq).symm
          · exact hcross a ha b (List.mem_cons_of_mem _ hb)
      order := by
        show invoked ++ (pre ++ g :: post).flatMap Frame.todo ++ s.work.tasks = s.added
        rw [horder, ← hs]
        exact h.order
      owners := by
        have hcount := h.owners
        rw [hs, List.countP_append, List.countP_cons] at hcount
        rw [List.countP_append, List.countP_cons]
        by_cases hg : g.ownsLock = true
        · rw [if_pos hg]
          rcases hown hg with hf | hlock
          · rw [if_pos hf] at hcount
            exact hcount
          · have hzero := not_locked_iff.mp hlock
            rw [hs, List.countP_append, List.countP_cons] at hzero
            omega
        · rw [if_neg hg]
          omega
      denied := by
        intro f' hf' hdeny
        rcases hmem f' hf' with rfl | hf'
        · exact hdenied hdeny
        · exact h.denied f' hf' hdeny }

/-- The newest frame of a thread goes, and with it the section it stands for. -/
theorem erase {w : WorkContent Task} (hs : s.frames = pre ++ .locker l :: post)
    (hframe : w = { s.work with workingTaskKind := w.workingTaskKind, countGetter := w.countGetter })
    (htracks : Tracks w ((pre ++ post).filterMap Frame.openKind))
    (hkind : s.work.workingTaskKind = 0#32 → w.workingTaskKind = 0#32) :
    Core { s with work := w, frames := pre ++ post } := by
  have hid : w.takingCallThreadId = s.work.takingCallThreadId := by rw [hframe]
  have hstate : w.state = s.work.state := by rw [hframe]
  have htasks : w.tasks = s.work.tasks := by rw [hframe]
  have htaking : w.isTakingCall = s.work.isTakingCall := by rw [WorkContent.isTakingCall, hid]; rfl
  have hsub : (pre ++ post).Sublist s.frames := by
    rw [hs]
    exact (List.sublist_cons_self _ _).append_left _
  exact
    { taking_frames := by
        rw [hid, ← h.taking_frames, hs, List.filterMap_append, List.filterMap_append]
        rfl
      working := by rw [hstate, htaking]; exact h.working
      ringing := by
        intro hr
        rw [hstate] at hr
        obtain ⟨hcalls, hne, hzero⟩ := h.ringing hr
        rw [htasks]
        exact ⟨hcalls, hne, hkind hzero⟩
      tracks := htracks
      taking_kind := by
        intro ht
        rw [htaking] at ht
        exact hkind (h.taking_kind ht)
      nested := by
        intro f hf i hi
        rw [hid]
        exact h.nested f (hsub.subset hf) i hi
      stacked := h.stacked.sublist hsub
      idle_top := h.idle_top.sublist hsub
      order := by
        have horder := h.order
        unfold System.todo at horder
        rw [hs, List.flatMap_append, List.flatMap_cons] at horder
        show s.invoked ++ (pre ++ post).flatMap Frame.todo ++ w.tasks = s.added
        rw [List.flatMap_append, htasks]
        exact horder
      owners := le_trans (hsub.countP_le) h.owners
      denied := fun f hf => h.denied f (hsub.subset hf) }

theorem swapTasks (thread : ThreadId) (hlock : s.isLocked = false) (hkind : s.work.workingTaskKind = 0#32)
    (hidle : s.work.isTakingCall = false) :
    Core (s.swapTasks thread) := by
  have hnone : s.work.takingCallThreadId = none := by simpa [WorkContent.isTakingCall] using hidle
  have hframes : ∀ f ∈ s.frames, f.takingThread = none := by
    have := h.taking_frames
    rw [hnone, Option.toList_none, List.filterMap_eq_nil_iff] at this
    exact this
  have hnested : ∀ f ∈ s.frames, ∀ i, f.nestedThread ≠ some i := by
    intro f hf i hi
    have := h.nested f hf i hi
    rw [hnone] at this
    cases this
  exact
    { taking_frames := by
        show thread :: s.frames.filterMap Frame.takingThread = [thread]
        rw [h.taking_frames, hnone]
        rfl
      working := iff_of_true rfl rfl
      ringing := fun hr => by cases hr
      tracks := h.tracks.congr rfl rfl
      taking_kind := fun _ => hkind
      nested := by
        intro f hf i hi
        rcases List.mem_cons.mp hf with rfl | hf
        · cases hi
        · exact absurd hi (hnested f hf i)
      stacked := List.pairwise_cons.mpr ⟨fun f hf i _ => hnested f hf i, h.stacked⟩
      idle_top := by
        refine List.pairwise_cons.mpr ⟨fun f hf hidle => ?_, h.idle_top⟩
        have hno := hframes f hf
        cases f with
        | locker l => cases hidle
        | taking t => cases hno
      order := by
        have horder := h.order
        unfold System.todo at horder
        rw [todo_eq_nil hframes, List.append_nil] at horder
        show s.invoked ++ (s.work.tasks ++ s.frames.flatMap Frame.todo) ++ [] = s.added
        rw [todo_eq_nil hframes, List.append_nil, List.append_nil]
        exact horder
      owners := by
        have hfree : (Frame.taking ⟨thread, s.work.tasks, false⟩ : Frame Task).ownsLock ≠ true :=
          Bool.false_ne_true
        show (Frame.taking ⟨thread, s.work.tasks, false⟩ :: s.frames).countP Frame.ownsLock ≤ 1
        rw [List.countP_cons_of_neg hfree, not_locked_iff.mp hlock]
        exact Nat.zero_le 1
      denied := by
        intro f hf hdeny
        rcases List.mem_cons.mp hf with rfl | hf
        · cases hdeny
        · exact h.denied f hf hdeny }

/-- The call of TakeCall ends after the lockers of its tasks. -/
theorem endTakeCall (hs : s.frames = pre ++ .taking ⟨thread, [], false⟩ :: post) (htop : ∀ f ∈ pre, f.thread ≠ thread)
    :
    Core { s with frames := pre ++ post }.endTakeCall := by
  obtain ⟨hid, hother⟩ := h.taking_unique hs rfl
  have hsub : (pre ++ post).Sublist s.frames := by
    rw [hs]
    exact (List.sublist_cons_self _ _).append_left _
  have htaking : s.work.isTakingCall = true := by rw [WorkContent.isTakingCall, hid]; rfl
  have hnested : ∀ f ∈ pre ++ post, ∀ i, f.nestedThread ≠ some i := by
    intro f hf i hi
    have hi' := h.nested f (hsub.subset hf) i hi
    rw [hid, Option.some.injEq] at hi'
    subst hi'
    rcases List.mem_append.mp hf with hpre | hpost
    · -- a locker above the call is of another thread
      apply htop f hpre
      cases f with
      | locker l =>
        simp only [Frame.nestedThread, Option.ite_none_right_eq_some, Option.some.injEq] at hi
        exact hi.2
      | taking t => cases hi
    · have hstacked := h.stacked
      rw [hs] at hstacked
      have := List.rel_of_pairwise_cons (List.pairwise_append.mp hstacked).2.1 hpost
      exact this thread rfl hi
  have horder := h.order
  unfold System.todo at horder
  rw [hs, List.flatMap_append, List.flatMap_cons] at horder
  have hcore : ∀ state calls, state ≠ .Working →
      (state = .Ringing → 0 < calls ∧ s.work.tasks ≠ []) →
      Core { s with
        frames := pre ++ post
        work := { s.work with takingCallThreadId := none, state }
        calls } := by
    intro state calls hstate hring
    exact
      { taking_frames := List.filterMap_eq_nil_iff.mpr hother
        working := iff_of_false hstate (fun ht => by cases ht)
        ringing := fun hr => ⟨(hring hr).1, (hring hr).2, h.taking_kind htaking⟩
        tracks := by
          have htracks := h.tracks
          unfold System.openKinds at htracks ⊢
          rw [hs, List.filterMap_append, List.filterMap_cons] at htracks
          rw [List.filterMap_append]
          exact htracks.congr rfl rfl
        taking_kind := fun ht => by cases ht
        nested := fun f hf i hi => absurd hi (hnested f hf i)
        stacked := h.stacked.sublist hsub
        idle_top := h.idle_top.sublist hsub
        order := by
          show s.invoked ++ (pre ++ post).flatMap Frame.todo ++ s.work.tasks = s.added
          rw [List.flatMap_append]
          exact horder
        owners := le_trans hsub.countP_le h.owners
        denied := fun f hf => h.denied f (hsub.subset hf) }
  unfold System.endTakeCall
  dsimp only
  split
  · exact hcore .Sleeping s.calls (by decide) (fun hr => by cases hr)
  next hne =>
    apply hcore .Ringing (s.calls + 1) (by decide)
    intro _
    exact ⟨Nat.succ_pos _, by simpa using hne⟩

/-- `~ALockerBase` of a section that ran in place. -/
theorem clear (hs : s.frames = pre ++ .locker l :: post) (hbound : s.openKinds.count .Get ≤ 2 ^ 32)
    (hallow : l.isAllowInplace = true) (hnest : l.inTakingCallThread = false) :
    Core { s with work := (s.work.clearTaskKind l.taskKind).2, frames := pre ++ post } ∧
      ((s.work.clearTaskKind l.taskKind).1 = false → (pre ++ post).filterMap Frame.openKind ≠ []) := by
  have hperm : s.openKinds.Perm (l.taskKind :: (pre ++ post).filterMap Frame.openKind) := by
    unfold System.openKinds
    rw [hs, List.filterMap_append, List.filterMap_append, List.filterMap_cons_some (b := l.taskKind)]
    · exact List.perm_middle
    · simp [Frame.openKind, hallow, hnest]
  have htracks := h.tracks.perm hperm
  rw [hperm.count_eq] at hbound
  obtain ⟨hrest, hlast⟩ := WorkContent.clearTaskKind_tracks htracks hbound
  refine ⟨h.erase hs WorkContent.clearTaskKind_frame hrest ?_, ?_⟩
  · intro hzero
    -- no bit is set, so all the open sections are of the kind without bits
    apply BitVec.eq_of_getLsbD_eq
    intro i _
    rw [BitVec.getLsbD_zero, ← Bool.not_eq_true, hrest.bits i]
    rintro ⟨k, hk, hi⟩
    have hempty := htracks.eq_empty hzero (List.mem_cons_of_mem _ hk)
    simp [hempty, AQueueTaskKind.bits] at hi
  · intro hfalse
    apply hrest.ne_nil
    intro hzero
    rw [hlast.mpr hzero] at hfalse
    cases hfalse

theorem awake_of_taking (ht : s.work.isTakingCall = true) : Awake s :=
  .inr (.inl (h.working.mpr ht))

/-- A free mutex leaves no locker that was refused. -/
theorem no_denied (hlock : s.isLocked = false) : ¬ ∃ f ∈ s.frames, f.isDenied = true := by
  rintro ⟨f, hf, hdeny⟩
  have howns := h.denied f hf hdeny
  have hfree := List.countP_eq_zero.mp (not_locked_iff.mp hlock) f hf
  exact hfree howns

end

end Core

namespace Inv

variable {s : System Task} {pre post : List (Frame Task)} {f g : Frame Task}

theorem addTask (h : Inv s) (task : Task) : Inv (s.addTask task) where
  toCore := (h.push task).afterAddTask (by simp [System.push, WorkContent.pushTask])
  awake _ := (h.push task).awake_afterAddTask

theorem construct (h : Inv s) (thread : ThreadId) (taskKind : AQueueTaskKind)
    (hlock : s.isLocked = false) (huser : s.inUserCode thread = true) :
    Inv (s.construct thread taskKind) where
  toCore := h.toCore.construct thread taskKind hlock huser
  awake := by
    unfold System.construct
    cases hin : s.work.inTakingCallThread thread with
    | true =>
      intro _
      have ht : s.work.isTakingCall = true := by
        have hthread : s.work.takingCallThreadId = some thread := by
          simpa [WorkContent.inTakingCallThread] using hin
        rw [WorkContent.isTakingCall, hthread]
        rfl
      exact .inr (.inl (h.working.mpr ht))
    | false =>
      simp only [Bool.false_eq_true, if_false]
      cases hc : (s.work.checkAndSet taskKind).1 with
      | true => exact fun _ => .inr (.inr (List.cons_ne_nil _ _))
      | false =>
        intro _
        obtain ⟨hsame, hreason⟩ := WorkContent.checkAndSet_false h.tracks hc
        rw [hsame]
        rcases hreason with ht | htasks | hkinds
        · exact h.awake_of_taking ht
        · exact h.awake (.inl htasks)
        · exact .inr (.inr hkinds)

/-- A locker that owns the mutex may add a task: somebody will look at it. -/
theorem addAsyncTask (h : Inv s) (hs : s.frames = pre ++ .locker l :: post) (task : Task) : Inv (s.push task) where
  toCore := h.push task
  awake _ := by
    show Awake s
    have hmem : Frame.locker l ∈ s.frames := by simp [hs]
    cases hallow : l.isAllowInplace with
    | false => exact h.awake (.inr ⟨_, hmem, by simp [Frame.isDenied, hallow]⟩)
    | true =>
      cases hnest : l.inTakingCallThread with
      | true =>
        have hthread := h.nested _ hmem l.thread (by simp [Frame.nestedThread, hnest])
        apply h.awake_of_taking
        rw [WorkContent.isTakingCall, hthread]
        rfl
      | false =>
        refine .inr (.inr (List.ne_nil_of_mem (a := l.taskKind) ?_))
        rw [System.openKinds, List.mem_filterMap]
        exact ⟨_, hmem, by simp [Frame.openKind, hallow, hnest]⟩

theorem replace (h : Inv s) (hs : s.frames = pre ++ f :: post) {invoked : List Task}
    (hcore : Core { s with frames := pre ++ g :: post, invoked }) (hopen : g.openKind = f.openKind)
    (hdeny : g.isDenied = f.isDenied) : Inv { s with frames := pre ++ g :: post, invoked } where
  toCore := hcore
  awake hwait := by
    have hkinds : (pre ++ g :: post).filterMap Frame.openKind = s.openKinds := by
      unfold System.openKinds
      rw [hs, List.filterMap_append, List.filterMap_append, List.filterMap_cons,
        List.filterMap_cons, hopen]
    have hawake : Awake s := by
      apply h.awake
      apply hwait.imp_right
      rintro ⟨f', hf', hd⟩
      rcases List.mem_append.mp hf' with hf' | hf'
      · exact ⟨f', by simp [hs, hf'], hd⟩
      · rcases List.mem_cons.mp hf' with rfl | hf'
        · exact ⟨f, by simp [hs], hdeny ▸ hd⟩
        · exact ⟨f', by simp [hs, hf'], hd⟩
    rcases hawake with hr | hw | hk
    · exact .inl hr
    · exact .inr (.inl hw)
    · exact .inr (.inr (by rw [System.openKinds, hkinds]; exact hk))

/-- While a locker is destroyed that takes the mutex, no other was refused. -/
theorem destruct_no_denied (h : Inv s) (hs : s.frames = pre ++ .locker l :: post)
    (hlock : (l.ownsLock || !s.isLocked) = true) : ¬ ∃ f ∈ pre ++ post, f.isDenied = true := by
  rintro ⟨f, hf, hdeny⟩
  have hmem : f ∈ s.frames := by
    rw [hs]
    exact ((List.sublist_cons_self _ _).append_left _).subset hf
  have howns := h.denied f hmem hdeny
  cases hl : l.ownsLock with
  | true =>
    rw [h.owner_unique hs hl f hf] at howns
    cases howns
  | false =>
    rw [hl, Bool.false_or, Bool.not_eq_true'] at hlock
    exact h.no_denied hlock ⟨f, hmem, hdeny⟩

theorem destruct (h : Inv s) (hs : s.frames = pre ++ .locker l :: post)
    (hlock : (l.ownsLock || l.inTakingCallThread || !s.isLocked) = true) (hbound : s.openKinds.count .Get ≤ 2 ^ 32) :
    Inv ({ s with frames := pre ++ post }.destruct l) := by
  have hmem : Frame.locker l ∈ s.frames := by simp [hs]
  have hkeep : Frame.openKind (Frame.locker l : Frame Task) = none →
      (pre ++ post).filterMap Frame.openKind = s.openKinds := by
    intro hnone
    unfold System.openKinds
    rw [hs, List.filterMap_append, List.filterMap_append, List.filterMap_cons_none hnone]
  have hrest : Frame.openKind (Frame.locker l : Frame Task) = none →
      Core { s with frames := pre ++ post } := by
    intro hnone
    exact h.erase hs rfl (by rw [hkeep hnone]; exact h.tracks) id
  unfold System.destruct
  cases hallow : l.isAllowInplace with
  | true =>
    rw [if_pos rfl]
    cases hnest : l.inTakingCallThread with
    | true =>
      rw [if_pos rfl]
      have hnone : Frame.openKind (Frame.locker l : Frame Task) = none := by
        simp [Frame.openKind, hnest]
      have hthread := h.nested _ hmem l.thread (by simp [Frame.nestedThread, hnest])
      have hcore := hrest hnone
      refine ⟨hcore, fun _ => hcore.awake_of_taking ?_⟩
      rw [WorkContent.isTakingCall, hthread]
      rfl
    | false =>
      rw [if_neg Bool.false_ne_true]
      rw [hnest, Bool.or_false] at hlock
      obtain ⟨hcore, hother⟩ := h.clear hs hbound hallow hnest
      have hnone := h.destruct_no_denied hs hlock
      dsimp only
      split
      next hring =>
        rw [Bool.and_eq_true, Bool.not_eq_true', List.isEmpty_eq_false_iff] at hring
        exact ⟨hcore.afterAddTask hring.2, fun _ => hcore.awake_afterAddTask⟩
      next hring =>
        refine ⟨hcore, fun hwait => ?_⟩
        have htasks := hwait.resolve_right hnone
        have hfirst : (s.work.clearTaskKind l.taskKind).1 = false := by
          by_contra hfirst
          apply hring
          rw [Bool.and_eq_true, Bool.not_eq_true', List.isEmpty_eq_false_iff]
          exact ⟨by simpa using hfirst, htasks⟩
        exact .inr (.inr (hother hfirst))
  | false =>
    rw [if_neg Bool.false_ne_true]
    have howns : l.ownsLock = true := h.denied _ hmem (by simp [Frame.isDenied, hallow])
    have hcore := hrest (by simp [Frame.openKind, hallow])
    have hnone := h.destruct_no_denied hs (by rw [howns]; rfl)
    dsimp only
    split
    next hring =>
      rw [Bool.not_eq_true', List.isEmpty_eq_false_iff] at hring
      exact ⟨hcore.afterAddTask hring, fun _ => hcore.awake_afterAddTask⟩
    next hring =>
      refine ⟨hcore, fun hwait => absurd (hwait.resolve_right hnone) ?_⟩
      simpa using hring

theorem endTakeCall (h : Inv s) (hs : s.frames = pre ++ .taking ⟨thread, [], false⟩ :: post)
    (htop : ∀ f ∈ pre, f.thread ≠ thread) (hlock : s.isLocked = false) :
    Inv { s with frames := pre ++ post }.endTakeCall where
  toCore := h.toCore.endTakeCall hs htop
  awake hwait := by
    have hnone : ¬ ∃ f ∈ pre ++ post, f.isDenied = true := by
      rintro ⟨f, hf, hdeny⟩
      refine h.no_denied hlock ⟨f, ?_, hdeny⟩
      rw [hs]
      exact ((List.sublist_cons_self _ _).append_left _).subset hf
    unfold System.endTakeCall at hwait ⊢
    dsimp only at hwait ⊢
    split at hwait
    next hempty =>
      have htasks := hwait.resolve_right hnone
      exact absurd (by simpa using hempty) htasks
    next hne =>
      rw [if_neg hne]
      exact .inl rfl

/-- One step keeps the invariant. -/
theorem effect (h : Inv s) {s' : System Task} (he : Effect s s')
    (hbound : s.openKinds.count .Get ≤ 2 ^ 32) : Inv s' := by
  cases he with
  | addTask task hlock => exact h.addTask task
  | construct thread taskKind hlock huser => exact h.construct thread taskKind hlock huser
  | @unlock pre post l hs hallow =>
    have hnot : ∀ owns, Frame.isDenied (Frame.locker { l with ownsLock := owns } : Frame Task) = true →
        owns = true := by
      intro owns hdeny
      simp [Frame.isDenied, hallow] at hdeny
    have hcore := h.toCore.replace hs (g := .locker { l with ownsLock := false }) rfl rfl rfl rfl
      (.inl rfl) (congrArg _ (Core.todo_replace rfl)) (fun hno => by cases hno) (hnot false)
    exact h.replace hs hcore rfl rfl
  | @relock pre post l hs hlock =>
    have hcore := h.toCore.replace hs (g := .locker { l with ownsLock := true }) rfl rfl rfl rfl
      (.inl rfl) (congrArg _ (Core.todo_replace rfl)) (fun _ => .inr hlock) fun _ => rfl
    exact h.replace hs hcore rfl rfl
  | addAsyncTask task hs howns => exact h.addAsyncTask hs task
  | destruct hs hlock => exact h.destruct hs hlock hbound
  | returnEarly hlock hearly =>
    exact
      { h with
        ringing := by
          intro hr
          obtain ⟨-, -, hzero⟩ := h.ringing hr
          rcases hearly with hkind | ht
          · exact absurd hzero hkind
          · have hw := h.working.mpr ht
            rw [show s.work.state = .Ringing from hr] at hw
            cases hw }
  | swapTasks thread hlock hkind hidle =>
    exact ⟨h.toCore.swapTasks thread hlock hkind hidle, fun _ => .inr (.inl rfl)⟩
  | @invoke pre post thread task tasks hs htop =>
    have hcore := h.toCore.replace hs (g := .taking ⟨thread, tasks, true⟩) rfl rfl rfl rfl
      (.inl rfl) (h.invoke_taken hs) (fun hno => by cases hno) fun hno => by cases hno
    exact h.replace hs hcore rfl rfl
  | @returned pre post thread tasks hs htop =>
    have hcore := h.toCore.replace hs (g := .taking ⟨thread, tasks, false⟩) rfl rfl rfl rfl
      (.inr ⟨rfl, htop⟩) (congrArg _ (Core.todo_replace rfl)) (fun hno => by cases hno) fun hno => by cases hno
    exact h.replace hs hcore rfl rfl
  | endTakeCall hs htop hlock => exact h.endTakeCall hs htop hlock

end Inv

end Fon9.AQueue
