import Fon9.AQueue.Invariant
import Fon9.Lib.Run

/-! No task of an AQueue is lost. At every time the tasks that were invoked, those of the
TakeCall that runs and those that wait are the tasks that were added, in order; sections
and tasks exclude each other as their kinds say; and in a fair run every task is invoked. -/

namespace Fon9.AQueue

open Lib List Core Frame WorkContent UInt32

variable {Task : Type*}

/-- What holds of the queue at every time. -/
structure Safe (s : System Task) : Prop where
  /-- Each task is invoked once, in the order in which it was added. -/
  order : s.invoked ++ s.todo ++ s.work.tasks = s.added
  /-- At most one TakeCall invokes tasks. -/
  one_taking : (s.frames.filterMap Frame.takingThread).length ≤ 1
  /-- Sections that are open at once are compatible: Set excludes Get, DenyGet and Set. -/
  exclusive : s.openKinds.Pairwise Compatible
  /-- While a TakeCall runs, a section in place is of the kind without bits, or it belongs
  to the task that is being invoked. -/
  alone : ∀ t, .taking t ∈ s.frames → ∀ l, .locker l ∈ s.frames → l.isAllowInplace = true →
    l.taskKind = .Empty ∨ (l.inTakingCallThread = true ∧ l.thread = t.thread ∧ t.invoking = true)
  /-- A section that belongs to a task is open only while a TakeCall is in that task. -/
  nested : ∀ l, .locker l ∈ s.frames → l.inTakingCallThread = true →
    ∃ t, .taking t ∈ s.frames ∧ l.thread = t.thread ∧ t.invoking = true
  /-- A task that waits is seen: a notification is outstanding, a TakeCall runs, or a
  section is open. -/
  awake : s.work.tasks ≠ [] → (s.work.state = .Ringing ∧ 0 < s.calls) ∨
    (∃ t, .taking t ∈ s.frames) ∨ s.openKinds ≠ []

/-- The threads do their part: a notification is answered by a TakeCall, a TakeCall that
runs comes to its end, and where sections are open one of them ends. -/
structure Fair {init : System Task} (b : Behaviour step init) : Prop where
  answers : ∀ n, 0 < (b.state n).calls → ∃ m, n ≤ m ∧ ∃ thread, b.action m = some (.takeCall thread)
  returns : ∀ n, (b.state n).work.isTakingCall = true →
    ∃ m, n ≤ m ∧ (b.state m).work.isTakingCall = false
  closes : ∀ n, (b.state n).openKinds ≠ [] →
    ∃ m, n ≤ m ∧ (b.state (m + 1)).openKinds.length < (b.state m).openKinds.length

namespace Inv

variable {s s' : System Task}

/-- The frame of the TakeCall that runs. -/
theorem exists_taking (h : Inv s) (ht : s.work.isTakingCall = true) :
    ∃ t, .taking t ∈ s.frames ∧ s.work.takingCallThreadId = some t.thread := by
  obtain ⟨i, hi⟩ := Option.isSome_iff_exists.mp ht
  have hmem : i ∈ s.frames.filterMap takingThread := by
    rw [h.taking_frames, hi]
    exact mem_singleton_self i
  obtain ⟨f, hf, hthread⟩ := mem_filterMap.mp hmem
  cases f with
  | locker l => cases hthread
  | taking t =>
    cases hthread
    exact ⟨t, hf, hi⟩

/-- A locker constructed in a task lives while its TakeCall is in that task. -/
theorem exists_invoking (h : Inv s) {l : Locker} (hl : .locker l ∈ s.frames)
    (hnest : l.inTakingCallThread = true) :
    s.work.isTakingCall = true ∧
      ∀ t, .taking t ∈ s.frames → l.thread = t.thread ∧ t.invoking = true := by
  have hid := h.nested _ hl l.thread (by simp [nestedThread, hnest])
  refine ⟨by rw [isTakingCall, hid]; rfl, fun t ht => ?_⟩
  obtain ⟨pre, post, hs⟩ := append_of_mem ht
  have hthread : l.thread = t.thread := by
    have := (h.taking_unique hs rfl).1
    rw [hid] at this
    exact Option.some.inj this
  refine ⟨hthread, ?_⟩
  by_contra hidle
  have hnewer : .locker l ∈ pre := by
    rw [hs] at hl
    rcases mem_append.mp hl with hl | hl
    · exact hl
    · rcases mem_cons.mp hl with hl | hl
      · cases hl
      · have hstacked := h.stacked
        rw [hs] at hstacked
        have := rel_of_pairwise_cons (pairwise_append.mp hstacked).2.1 hl
        exact absurd (by simp [nestedThread, hnest, hthread]) (this t.thread rfl)
  have htop := h.idle_top
  rw [hs] at htop
  apply (pairwise_append.mp htop).2.2 _ hnewer _ mem_cons_self
  simp [idleThread, hidle, Frame.thread, hthread]

theorem safe (h : Inv s) : Safe s where
  order := h.order
  one_taking := by
    rw [h.taking_frames]
    cases s.work.takingCallThreadId <;> simp
  exclusive := h.tracks.compatible
  alone := by
    intro t ht l hl hallow
    cases hnest : l.inTakingCallThread with
    | true =>
      obtain ⟨hthread, hinvoke⟩ := (h.exists_invoking hl hnest).2 t ht
      exact .inr ⟨rfl, hthread, hinvoke⟩
    | false =>
      left
      obtain ⟨pre, post, hs⟩ := append_of_mem ht
      have hid := (h.taking_unique hs rfl).1
      have htaking : s.work.isTakingCall = true := by rw [isTakingCall, hid]; rfl
      apply h.tracks.eq_empty (h.taking_kind htaking)
      rw [System.openKinds, mem_filterMap]
      exact ⟨_, hl, by simp [openKind, hallow, hnest]⟩
  nested := by
    intro l hl hnest
    obtain ⟨htaking, hframe⟩ := h.exists_invoking hl hnest
    obtain ⟨t, ht, -⟩ := h.exists_taking htaking
    exact ⟨t, ht, hframe t ht⟩
  awake := by
    intro htasks
    rcases h.awake (.inl htasks) with hr | hw | hk
    · exact .inl ⟨hr, (h.ringing hr).1⟩
    · obtain ⟨t, ht, -⟩ := h.exists_taking (h.working.mp hw)
      exact .inr (.inl ⟨t, ht⟩)
    · exact .inr (.inr hk)

end Inv

/-! ### What a step does to the tasks -/

/-- The tasks that TakeCall has taken from the queue. -/
def System.taken (s : System Task) : List Task := s.invoked ++ s.todo

/-- A step that takes no tasks from the queue: it may add some, and it opens no section
outside TakeCall while some wait. -/
structure Keeps (s s' : System Task) : Prop where
  idle : s'.work.isTakingCall = true → s.work.isTakingCall = true
  tasks : s.work.tasks <+: s'.work.tasks
  taken : s'.taken = s.taken
  added : s.added <+: s'.added
  opens : s.work.tasks ≠ [] → s.work.isTakingCall = false →
    s'.openKinds.length ≤ s.openKinds.length

namespace Keeps

variable {s s' : System Task} {pre post : List (Frame Task)} {f g : Frame Task}

theorem afterAddTask (h : Keeps s s') : Keeps s s'.afterAddTask := by
  rcases afterAddTask_cases s' with ⟨-, -, heq⟩ | ⟨-, heq⟩
  · rw [heq]
    exact ⟨h.idle, h.tasks, h.taken, h.added, h.opens⟩
  · rw [heq]
    exact h

theorem push (s : System Task) (task : Task) : Keeps s (s.push task) where
  idle ht := ht
  tasks := prefix_append _ _
  taken := rfl
  added := prefix_append _ _
  opens _ _ := le_rfl

theorem construct (h : Inv s) (thread : ThreadId) (taskKind : AQueueTaskKind) :
    Keeps s (s.construct thread taskKind) := by
  unfold System.construct
  cases hin : s.work.inTakingCallThread thread with
  | true => exact ⟨id, prefix_rfl, rfl, prefix_rfl, fun _ _ => le_rfl⟩
  | false =>
    simp only [Bool.false_eq_true, if_false]
    cases hc : (s.work.checkAndSet taskKind).1 with
    | false =>
      rw [(checkAndSet_false h.tracks hc).1]
      exact ⟨id, prefix_rfl, rfl, prefix_rfl, fun _ _ => le_rfl⟩
    | true =>
      obtain ⟨-, hempty, -, hframe⟩ := checkAndSet_true h.tracks hc
      rw [hframe]
      exact ⟨id, prefix_rfl, rfl, prefix_rfl, fun htasks => absurd hempty htasks⟩

theorem replace (hs : s.frames = pre ++ f :: post) {invoked : List Task}
    (hopen : g.openKind = f.openKind)
    (htaken : invoked ++ (pre ++ g :: post).flatMap Frame.todo =
      s.invoked ++ (pre ++ f :: post).flatMap Frame.todo) :
    Keeps s { s with frames := pre ++ g :: post, invoked } where
  idle ht := ht
  tasks := prefix_rfl
  taken := by
    unfold System.taken System.todo
    rw [hs]
    exact htaken
  added := prefix_rfl
  opens _ _ := by
    unfold System.openKinds
    rw [hs, filterMap_append, filterMap_append, filterMap_cons, filterMap_cons,
      hopen]

theorem erase (hs : s.frames = pre ++ f :: post) (htodo : f.todo = []) {w : WorkContent Task}
    (hidle : w.isTakingCall = true → s.work.isTakingCall = true) (htasks : w.tasks = s.work.tasks)
    {calls : ℕ} : Keeps s { s with work := w, frames := pre ++ post, calls } where
  idle := hidle
  tasks := by rw [htasks]
  taken := by
    unfold System.taken System.todo
    rw [hs, flatMap_append, flatMap_append, flatMap_cons, htodo, nil_append]
  added := prefix_rfl
  opens _ _ := by
    have hsub : (pre ++ post).Sublist s.frames := by
      rw [hs]
      exact (sublist_cons_self _ _).append_left _
    exact (hsub.filterMap _).length_le

theorem destruct {l : Locker} (hs : s.frames = pre ++ .locker l :: post) :
    Keeps s ({ s with frames := pre ++ post }.destruct l) := by
  have hsame : Keeps s { s with frames := pre ++ post } := erase hs rfl id rfl
  have hclear : Keeps s { s with work := (s.work.clearTaskKind l.taskKind).2, frames := pre ++ post } := by
    apply erase hs rfl
    · rw [clearTaskKind_frame]
      exact id
    · rw [clearTaskKind_frame]
  unfold System.destruct
  dsimp only
  split
  · split
    · exact hsame
    · split
      · exact hclear.afterAddTask
      · exact hclear
  · split
    · exact hsame.afterAddTask
    · exact hsame

theorem endTakeCall {thread : ThreadId} (hs : s.frames = pre ++ .taking ⟨thread, [], false⟩ :: post) :
    Keeps s { s with frames := pre ++ post }.endTakeCall := by
  unfold System.endTakeCall
  dsimp only
  split
  · exact erase hs rfl (w := { s.work with takingCallThreadId := none, state := .Sleeping })
      (fun ht => by cases ht) rfl
  · exact erase hs rfl (w := { s.work with takingCallThreadId := none, state := .Ringing })
      (fun ht => by cases ht) rfl

end Keeps

/-- The first section of TakeCall is the only one that takes tasks. -/
theorem Effect.keeps {s s' : System Task} (h : Inv s) (he : Effect s s') :
    Keeps s s' ∨ (s.work.isTakingCall = false ∧ ∃ thread, s' = s.swapTasks thread) := by
  cases he with
  | addTask task hlock => exact .inl (Keeps.push s task).afterAddTask
  | construct thread taskKind hlock huser => exact .inl (Keeps.construct h thread taskKind)
  | unlock hs hallow => exact .inl (Keeps.replace hs rfl (congrArg _ (todo_replace rfl)))
  | relock hs hlock => exact .inl (Keeps.replace hs rfl (congrArg _ (todo_replace rfl)))
  | addAsyncTask task hs howns => exact .inl (Keeps.push s task)
  | destruct hs hlock => exact .inl (Keeps.destruct hs)
  | returnEarly hlock hearly =>
    exact .inl ⟨id, prefix_rfl, rfl, prefix_rfl, fun _ _ => le_rfl⟩
  | swapTasks thread hlock hkind hidle => exact .inr ⟨hidle, thread, rfl⟩
  | invoke hs htop => exact .inl (Keeps.replace hs rfl (h.invoke_taken hs))
  | returned hs htop => exact .inl (Keeps.replace hs rfl (congrArg _ (todo_replace rfl)))
  | endTakeCall hs htop hlock => exact .inl (Keeps.endTakeCall hs)

/-! ### Runs -/

section

variable {b : Behaviour (step : System Task → Act Task → Option (System Task)) {}}

/-- The counter of the Get sections has not come round. -/
def GettersBounded (b : Behaviour (step : System Task → Act Task → Option (System Task)) {}) : Prop :=
  ∀ n, (b.state n).openKinds.count .Get ≤ 2 ^ 32

section

variable (hb : GettersBounded b)
include hb

theorem GettersBounded.inv (n : ℕ) : Inv (b.state n) :=
  b.always inv_init (fun n _ hinv hstep => hinv.effect (step_effect hstep) (hb n)) n

theorem next_keeps (n : ℕ) :
    Keeps (b.state n) (b.state (n + 1)) ∨
      ((b.state n).work.isTakingCall = false ∧
        ∃ thread, b.state (n + 1) = (b.state n).swapTasks thread) := by
  cases ha : b.action n with
  | none =>
    rw [b.stay n ha]
    exact .inl ⟨id, prefix_rfl, rfl, prefix_rfl, fun _ _ => le_rfl⟩
  | some a => exact Effect.keeps (hb.inv n) (step_effect (b.move n a ha))

/-- A TakeCall that begins takes all the tasks there are. -/
theorem next_taken_all {n : ℕ} {thread : ThreadId} (heq : b.state (n + 1) = (b.state n).swapTasks thread) :
    (b.state (n + 1)).taken = (b.state n).added := by
  have horder := (hb.inv (n + 1)).order
  have htasks : (b.state (n + 1)).work.tasks = [] := by rw [heq]; rfl
  have hadded : (b.state (n + 1)).added = (b.state n).added := by rw [heq]; rfl
  rw [htasks, append_nil, hadded] at horder
  exact horder

theorem next_taken (n : ℕ) :
    (b.state n).taken <+: (b.state (n + 1)).taken ∧ (b.state n).added <+: (b.state (n + 1)).added := by
  rcases next_keeps hb n with hkeep | ⟨hidle, thread, heq⟩
  · rw [hkeep.taken]
    exact ⟨prefix_rfl, hkeep.added⟩
  · constructor
    · rw [next_taken_all hb heq, ← (hb.inv n).order]
      exact prefix_append _ _
    · rw [heq]
      exact prefix_rfl

theorem taken_mono {m n : ℕ} (hmn : m ≤ n) :
    (b.state m).taken <+: (b.state n).taken := by
  induction n, hmn using Nat.le_induction with
  | base => exact prefix_rfl
  | succ n _ ih => exact ih.trans (next_taken hb n).1

theorem added_mono {m n : ℕ} (hmn : m ≤ n) :
    (b.state m).added <+: (b.state n).added := by
  induction n, hmn using Nat.le_induction with
  | base => exact prefix_rfl
  | succ n _ ih => exact ih.trans (next_taken hb n).2

/-- While no TakeCall begins, the tasks that wait go on waiting and no section opens. -/
theorem waiting {m n : ℕ} (hmn : m ≤ n) (hidle : ∀ k, m ≤ k → (b.state k).work.isTakingCall = false)
    (htasks : (b.state m).work.tasks ≠ []) :
    (b.state n).work.tasks ≠ [] ∧ (b.state n).openKinds.length ≤ (b.state m).openKinds.length := by
  induction n, hmn using Nat.le_induction with
  | base => exact ⟨htasks, le_rfl⟩
  | succ n hmn ih =>
    rcases next_keeps hb n with hkeep | ⟨-, thread, heq⟩
    · constructor
      · intro hempty
        apply ih.1
        have hprefix := hkeep.tasks
        rw [hempty] at hprefix
        exact prefix_nil.mp hprefix
      · exact (hkeep.opens ih.1 (hidle n hmn)).trans ih.2
    · have := hidle (n + 1) (by omega)
      rw [heq] at this
      cases this

/-- A task that waits brings about a TakeCall. -/
theorem eventually_taking (hfair : Fair b) {m : ℕ} (htasks : (b.state m).work.tasks ≠ []) :
    ∃ n, m ≤ n ∧ (b.state n).work.isTakingCall = true := by
  by_contra hnever
  have hidle : ∀ k, m ≤ k → (b.state k).work.isTakingCall = false := by
    intro k hk
    rw [← Bool.not_eq_true]
    exact fun ht => hnever ⟨k, hk, ht⟩
  -- the sections that are open end one after the other
  obtain ⟨c, hmc, hclosed⟩ : ∃ c, m ≤ c ∧ (b.state c).openKinds = [] := by
    apply eventually_of_measure (fun k => (b.state k).openKinds.length)
    intro k hmk hopen
    obtain ⟨k', hkk', hless⟩ := hfair.closes k hopen
    have hstay := waiting hb hkk' (fun j hj => hidle j (hmk.trans hj)) (waiting hb hmk hidle htasks).1
    exact ⟨k' + 1, by omega, .inl (hless.trans_le hstay.2)⟩
  have hringing : ∀ k, c ≤ k → (b.state k).work.state = .Ringing := by
    intro k hck
    have hidle' : ∀ j, c ≤ j → (b.state j).work.isTakingCall = false := fun j hj => hidle j (hmc.trans hj)
    obtain ⟨hwait, hlen⟩ := waiting hb hck hidle' (waiting hb hmc hidle htasks).1
    rcases (hb.inv k).awake (.inl hwait) with hr | hw | hk
    · exact hr
    · rw [(hb.inv k).working, hidle' k hck] at hw
      cases hw
    · rw [hclosed, length_nil, Nat.le_zero, length_eq_zero_iff] at hlen
      exact absurd hlen hk
  obtain ⟨n, hcn, thread, ha⟩ := hfair.answers c ((hb.inv c).ringing (hringing c le_rfl)).1
  have hkind := ((hb.inv n).ringing (hringing n hcn)).2.2
  have hn := hidle n (hmc.trans hcn)
  have hmove := b.move n _ ha
  simp only [step, Option.ite_none_right_eq_some, hkind, hn, ne_eq, not_true_eq_false,
    Bool.false_eq_true, or_self, if_false, Option.some.injEq] at hmove
  have hnext := hidle (n + 1) (by omega)
  rw [← hmove.2] at hnext
  cases hnext

end

/-- Between two TakeCalls the tasks that were taken are the tasks that were invoked. -/
theorem taken_of_idle {s : System Task} (h : Inv s) (hidle : s.work.isTakingCall = false) :
    s.taken = s.invoked := by
  have hframes := h.taking_frames
  rw [isTakingCall, Option.isSome_eq_false_iff, Option.isNone_iff_eq_none] at hidle
  rw [hidle, Option.toList_none, filterMap_eq_nil_iff] at hframes
  rw [System.taken, System.todo, todo_eq_nil hframes, append_nil]

theorem eventually_idle (hfair : Fair b) (m : ℕ) :
    ∃ n, m ≤ n ∧ (b.state n).work.isTakingCall = false := by
  cases ht : (b.state m).work.isTakingCall with
  | false => exact ⟨m, le_rfl, ht⟩
  | true => exact hfair.returns m ht

theorem eventually_invoked (hb : GettersBounded b) (hfair : Fair b) (m : ℕ) :
    ∃ n, m ≤ n ∧ (b.state m).added <+: (b.state n).invoked := by
  obtain ⟨m₁, hm₁, hidle⟩ := eventually_idle hfair m
  by_cases htasks : (b.state m₁).work.tasks = []
  · refine ⟨m₁, hm₁, (added_mono hb hm₁).trans ?_⟩
    have horder := (hb.inv m₁).order
    rw [htasks, append_nil] at horder
    rw [← taken_of_idle (hb.inv m₁) hidle, System.taken, horder]
  · -- the next TakeCall takes all that was added before it
    obtain ⟨m₂, hm₂, htaking⟩ := eventually_taking hb hfair htasks
    obtain ⟨c, hc, hbefore, hafter⟩ := exists_change
      (P := fun n => (b.state n).work.isTakingCall = true) hm₂ (by simp [hidle]) htaking
    rcases next_keeps hb c with hkeep | ⟨-, thread, heq⟩
    · exact absurd (hkeep.idle hafter) hbefore
    obtain ⟨n, hn, hdone⟩ := eventually_idle hfair (c + 1)
    refine ⟨n, by omega, (added_mono hb (hm₁.trans hc)).trans ?_⟩
    rw [← next_taken_all hb heq, ← taken_of_idle (hb.inv n) hdone]
    exact taken_mono hb hn

/-- At every time the queue is safe, and where the threads do their part every task that
was added is invoked. -/
theorem no_task_lost (b : Behaviour (step : System Task → Act Task → Option (System Task)) {})
    (hb : GettersBounded b) : (∀ n, Safe (b.state n)) ∧
      (Fair b → ∀ m, ∃ n, m ≤ n ∧ (b.state m).added <+: (b.state n).invoked) :=
  ⟨fun n => (hb.inv n).safe, fun hfair m => eventually_invoked hb hfair m⟩

end

/-- A task comes while a section runs in place, and waits for its end. -/
def taskBehindSet : Behaviour (step : System ℕ → Act ℕ → Option (System ℕ)) {} :=
  .ofSteps [.construct 0 .Set, .unlockForInplace 0, .addTask 1 7, .destruct 0, .takeCall 2,
    .invoke 0, .returned 0, .endTakeCall 0] (by decide +kernel)

theorem no_task_lost_taskBehindSet : (∀ n, Safe (taskBehindSet.state n)) ∧
    ∀ m, ∃ n, m ≤ n ∧ (taskBehindSet.state m).added <+: (taskBehindSet.state n).invoked := by
  have hrest : ∀ n, 8 ≤ n → taskBehindSet.state n = taskBehindSet.state 8 :=
    fun n hn => Behaviour.ofSteps_state hn
  have hbound : GettersBounded taskBehindSet := by
    intro n
    by_cases hn : n < 8
    · have : ∀ n < 8, (taskBehindSet.state n).openKinds.count .Get ≤ 2 ^ 32 := by decide +kernel
      exact this n hn
    · rw [hrest n (by omega)]
      decide +kernel
  have hfair : Fair taskBehindSet := by
    constructor
    · intro n hcalls
      refine ⟨4, ?_, 2, rfl⟩
      by_contra hn
      by_cases hn' : n < 8
      · have : ∀ n < 8, 4 < n → (taskBehindSet.state n).calls = 0 := by decide +kernel
        have := this n hn' (by omega)
        omega
      · rw [hrest n (by omega)] at hcalls
        exact absurd hcalls (by decide +kernel)
    · intro n _
      refine ⟨n + 8, by omega, ?_⟩
      rw [hrest _ (by omega)]
      decide +kernel
    · intro n hopen
      refine ⟨3, ?_, by decide +kernel⟩
      by_contra hn
      by_cases hn' : n < 8
      · have : ∀ n < 8, 3 < n → (taskBehindSet.state n).openKinds = [] := by decide +kernel
        exact hopen (this n hn' (by omega))
      · rw [hrest n (by omega)] at hopen
        exact hopen (by decide +kernel)
  have h := no_task_lost taskBehindSet hbound
  exact ⟨h.1, h.2 hfair⟩

/-! ### Where sections do not exclude each other -/

/-- `n` Get sections that run in place, each in a thread of its own. -/
def getters : ℕ → System ℕ
  | 0 => {}
  | n + 1 => { getters n with
      work := { (getters n).work with workingTaskKind := 1#32, countGetter := UInt32.ofNat (n + 1) }
      frames := .locker ⟨n, .Get, false, true, false⟩ :: (getters n).frames }

variable (n : ℕ)

theorem getters_frames : ∀ f ∈ (getters n).frames, ∃ i < n,
    f = .locker ⟨i, .Get, false, true, false⟩ := by
  induction n with
  | zero => exact fun f hf => by cases hf
  | succ n ih =>
    intro f hf
    rcases mem_cons.mp hf with rfl | hf
    · exact ⟨n, by omega, rfl⟩
    · obtain ⟨i, hi, hfi⟩ := ih f hf
      exact ⟨i, by omega, hfi⟩

theorem getters_work : (getters n).work = { ({} : WorkContent ℕ) with
    workingTaskKind := if n = 0 then 0#32 else 1#32, countGetter := ofNat n } := by
  induction n with
  | zero => rfl
  | succ n ih =>
    rw [getters, ih]
    rfl

theorem getters_free : (getters n).isLocked = false ∧
    ∀ thread, (getters n).inUserCode thread = true := by
  constructor
  · rw [System.isLocked, any_eq_false]
    intro f hf
    obtain ⟨i, -, rfl⟩ := getters_frames n f hf
    exact Bool.false_ne_true
  · intro thread
    unfold System.inUserCode
    split
    next t hfind =>
      obtain ⟨i, -, hf⟩ := getters_frames n _ (List.mem_of_find?_eq_some hfind)
      cases hf
    next => rfl

theorem getters_checkAndSet :
    (getters n).work.checkAndSet .Get = (true, (getters (n + 1)).work) := by
  rw [getters_work, getters_work, ofNat_add]
  rcases Nat.eq_zero_or_pos n with rfl | hn
  · rfl
  · rw [if_neg (by omega), if_neg (by omega)]
    unfold checkAndSet
    dsimp only
    split
    next hbusy => cases hbusy
    · rw [if_pos rfl, if_neg (by decide)]
      split <;> rfl

theorem getters_succ : steps step (getters n) [.construct n .Get, .unlockForInplace 0] =
    some (getters (n + 1)) := by
  obtain ⟨hlock, huser⟩ := getters_free n
  have hin : (getters n).work.inTakingCallThread n = false := by rw [getters_work]; rfl
  have hopen : step (getters n) (.construct n .Get) = some { getters (n + 1) with
      frames := .locker ⟨n, .Get, false, true, true⟩ :: (getters n).frames } := by
    simp only [step, huser, hlock, Bool.not_false, Bool.and_self, if_true, System.construct, hin,
      Bool.false_eq_true, if_false, getters_checkAndSet]
    rfl
  rw [steps, hopen, Option.bind_some, steps]
  simp [step, System.inUserCode, System.setFrame, Frame.thread, steps]
  rfl

theorem getters_reachable : ∃ acts, steps step {} acts = some (getters n) := by
  induction n with
  | zero => exact ⟨[], rfl⟩
  | succ n ih =>
    obtain ⟨acts, hacts⟩ := ih
    refine ⟨acts ++ [.construct n .Get, .unlockForInplace 0], ?_⟩
    rw [steps_append, hacts]
    exact getters_succ n

/-- Where the counter has come round, the end of one Get section clears the bit of all. -/
theorem getters_destruct {n : ℕ} (hn : ofNat n = 0) : step (getters (n + 1)) (.destruct 0) =
    some { getters n with work := {} } := by
  have hclear : (getters (n + 1)).work.clearTaskKind .Get = (true, {}) := by
    rw [getters_work, if_neg (Nat.succ_ne_zero n), ofNat_add, hn]
    rfl
  have hlock := (getters_free (n + 1)).1
  have hframes : (getters (n + 1)).frames =
      .locker ⟨n, .Get, false, true, false⟩ :: (getters n).frames := rfl
  simp only [step, hframes, hlock, System.isTop, System.destruct, hclear, getElem?_cons_zero,
    take_zero, all_nil, eraseIdx_cons_zero]
  rfl

theorem getters_set {n : ℕ} (hn : ofNat n = 0) :
    ∃ acts s, steps step {} acts = some s ∧ .locker ⟨n, .Set, false, true, true⟩ ∈ s.frames ∧
      ∀ f ∈ (getters n).frames, f ∈ s.frames := by
  obtain ⟨acts, hacts⟩ := getters_reachable (n + 1)
  obtain ⟨hlock, huser⟩ := getters_free n
  have hset : step { getters n with work := {} } (.construct n .Set) = some { getters n with
      work := { workingTaskKind := AQueueTaskKind.Set.bits }
      frames := .locker ⟨n, .Set, false, true, true⟩ :: (getters n).frames } := by
    have hlock' : System.isLocked { getters n with work := {} } = false := hlock
    have huser' : System.inUserCode { getters n with work := {} } n = true := huser n
    have hin : ({} : WorkContent ℕ).inTakingCallThread n = false := rfl
    have hcheck : ({} : WorkContent ℕ).checkAndSet .Set =
        (true, { workingTaskKind := AQueueTaskKind.Set.bits }) := by decide
    simp only [step, hlock', huser', Bool.not_false, Bool.and_self, if_true, System.construct, hin,
      Bool.false_eq_true, if_false, hcheck]
  have hrun : steps step ({} : System ℕ) (acts ++ [.destruct 0, .construct n .Set]) = some { getters n with
      work := { workingTaskKind := AQueueTaskKind.Set.bits }
      frames := .locker ⟨n, .Set, false, true, true⟩ :: (getters n).frames } := by
    rw [steps_append, hacts, Option.bind_some, steps, getters_destruct hn, Option.bind_some, steps, hset]
    rfl
  exact ⟨_, _, hrun, mem_cons_self, fun f hf => mem_cons_of_mem _ hf⟩

/-- Inside a task a Set and a Get section are open at once; a section of the kind without
bits is open while another thread invokes a task; and a Set section is open beside Get
sections whose count has come round. -/
theorem sections_overlap :
    (∃ acts s, steps step ({} : System ℕ) acts = some s ∧
      .locker ⟨2, .Set, true, true, false⟩ ∈ s.frames ∧
      .locker ⟨2, .Get, true, true, false⟩ ∈ s.frames ∧ .taking ⟨2, [], true⟩ ∈ s.frames) ∧
    (∃ acts s, steps step ({} : System ℕ) acts = some s ∧
      .locker ⟨0, .Empty, false, true, false⟩ ∈ s.frames ∧ .taking ⟨2, [], true⟩ ∈ s.frames) ∧
    ∃ acts s, steps step ({} : System ℕ) acts = some s ∧
      .locker ⟨2 ^ 32, .Set, false, true, true⟩ ∈ s.frames ∧
      .locker ⟨0, .Get, false, true, false⟩ ∈ s.frames := by
  refine ⟨⟨[.addTask 0 7, .takeCall 2, .invoke 0, .construct 2 .Set, .unlockForInplace 0,
    .construct 2 .Get, .unlockForInplace 0], _, rfl, ?_, ?_, ?_⟩, ⟨[.construct 0 .Empty,
    .unlockForInplace 0, .addTask 1 7, .takeCall 2, .invoke 0], _, rfl, ?_, ?_⟩, ?_⟩
  · decide +kernel
  · decide +kernel
  · decide +kernel
  · decide +kernel
  · decide +kernel
  · have hfirst : ∀ n, 0 < n → .locker ⟨0, .Get, false, true, false⟩ ∈ (getters n).frames := by
      intro n hn
      induction n, hn using Nat.le_induction with
      | base => exact List.mem_cons_self
      | succ n _ ih => exact List.mem_cons_of_mem _ ih
    obtain ⟨acts, s, hacts, hset, hget⟩ := @getters_set (2 ^ 32) (by decide)
    exact ⟨acts, s, hacts, hset, hget _ (hfirst _ (by decide))⟩

end Fon9.AQueue
