import Mathlib.Data.UInt

/-! What the mutex of an AQueue protects: the state of the worker, the thread in TakeCall,
the kinds of the sections that run in place, the count of the Get sections and the tasks
that wait. -/

namespace Fon9.AQueue

open List UInt32

inductive WorkerState where
  | Sleeping
  | Ringing
  | Working
  deriving DecidableEq, Repr

inductive AQueueTaskKind where
  | Empty
  | Get
  | DenyGet
  | Set
  | Send
  | Recv
  deriving DecidableEq, Repr

/-- The value of the enumerator. -/
def AQueueTaskKind.bits : AQueueTaskKind → BitVec 32
  | .Empty => 0#32
  | .Get => 0x01
  | .DenyGet => 0x02 ||| 0x01
  | .Set => 0x04 ||| (0x02 ||| 0x01)
  | .Send => 0x010
  | .Recv => 0x020

/-- `IsEnumContains(a, b)` -/
def isEnumContains (a b : BitVec 32) : Bool := a &&& b == b

/-- `IsEnumContainsAny(a, b)` -/
def isEnumContainsAny (a b : BitVec 32) : Bool := a &&& b != 0#32

abbrev ThreadId := ℕ

/-- The thread id `none` is the `IdType{}` of the source. -/
structure WorkContent (Task : Type*) where
  state : WorkerState := .Sleeping
  takingCallThreadId : Option ThreadId := none
  workingTaskKind : BitVec 32 := 0#32
  countGetter : UInt32 := 0
  tasks : List Task := []
  deriving DecidableEq, Repr

variable {Task : Type*}

namespace WorkContent

variable (w : WorkContent Task) (taskKind : AQueueTaskKind)

def isTakingCall : Bool := w.takingCallThreadId.isSome

def inTakingCallThread (thread : ThreadId) : Bool :=
  w.takingCallThreadId == some thread

def setToRinging : Bool × WorkContent Task :=
  if w.state = .Sleeping then (true, { w with state := .Ringing }) else (false, w)

def checkAndSet : Bool × WorkContent Task :=
  if w.isTakingCall || !w.tasks.isEmpty then (false, w)
  else if taskKind = .Get then
    if isEnumContains w.workingTaskKind AQueueTaskKind.DenyGet.bits then (false, w)
    else
      let w := { w with countGetter := w.countGetter + 1 }
      if 1 < w.countGetter then (true, w)
      else (true, { w with workingTaskKind := w.workingTaskKind ||| taskKind.bits })
  else if isEnumContainsAny w.workingTaskKind taskKind.bits then (false, w)
  else (true, { w with workingTaskKind := w.workingTaskKind ||| taskKind.bits })

/-- `WorkingTaskKind_ -= taskKind`, and whether no kind is left. -/
def dropKind : Bool × WorkContent Task :=
  let kind := w.workingTaskKind &&& ~~~ taskKind.bits
  (kind == 0#32, { w with workingTaskKind := kind })

def clearTaskKind : Bool × WorkContent Task :=
  if taskKind = .Get then
    let w := { w with countGetter := w.countGetter - 1 }
    if 0 < w.countGetter then (false, w) else w.dropKind taskKind
  else w.dropKind taskKind

def pushTask (task : Task) : WorkContent Task :=
  { w with tasks := w.tasks ++ [task] }

end WorkContent

/-! ### The kinds of the open sections -/

/-- Two sections that may be open at once. -/
def Compatible (a b : AQueueTaskKind) : Prop := (a = .Get ∧ b = .Get) ∨ a.bits &&& b.bits = 0#32

instance : DecidableRel Compatible := fun _ _ => inferInstanceAs (Decidable (_ ∨ _))

theorem Compatible.symm {a b : AQueueTaskKind} (h : Compatible a b) : Compatible b a := by
  rcases h with ⟨ha, hb⟩ | h
  · exact .inl ⟨hb, ha⟩
  · exact .inr (by rw [BitVec.and_comm]; exact h)

/-- Set excludes Get and Set, and DenyGet excludes Get. -/
theorem Compatible.excludes {b : AQueueTaskKind} (h : Compatible .Set b) :
    b ≠ .Get ∧ b ≠ .DenyGet ∧ b ≠ .Set := by
  cases b <;> first | exact absurd h (by decide) | exact ⟨by decide, by decide, by decide⟩

/-- The bits and the counter are those of the open sections `kinds`. -/
structure Tracks (w : WorkContent Task) (kinds : List AQueueTaskKind) : Prop where
  compatible : kinds.Pairwise Compatible
  bits : ∀ i, w.workingTaskKind.getLsbD i = true ↔ ∃ k ∈ kinds, k.bits.getLsbD i = true
  getters : w.countGetter = UInt32.ofNat (kinds.count .Get)

namespace Tracks

variable {w w' : WorkContent Task} {k : AQueueTaskKind} {kinds kinds' : List AQueueTaskKind}

section

variable (h : Tracks w kinds)
include h

theorem perm (hp : kinds.Perm kinds') : Tracks w kinds' where
  compatible := (hp.pairwise_iff Compatible.symm).mp h.compatible
  bits i := by
    rw [h.bits i]
    constructor
    · rintro ⟨k, hk, hi⟩
      exact ⟨k, hp.mem_iff.mp hk, hi⟩
    · rintro ⟨k, hk, hi⟩
      exact ⟨k, hp.mem_iff.mpr hk, hi⟩
  getters := by rw [h.getters, hp.count_eq]

theorem congr (hk : w'.workingTaskKind = w.workingTaskKind) (hc : w'.countGetter = w.countGetter)
    : Tracks w' kinds where
  compatible := h.compatible
  bits i := by rw [hk]; exact h.bits i
  getters := by rw [hc]; exact h.getters

theorem contains (hk : k ∈ kinds) : w.workingTaskKind &&& k.bits = k.bits := by
  apply BitVec.eq_of_getLsbD_eq
  intro i _
  rw [BitVec.getLsbD_and]
  cases hi : k.bits.getLsbD i with
  | false => simp
  | true => simp [(h.bits i).mpr ⟨k, hk, hi⟩]

theorem ne_nil (hw : w.workingTaskKind ≠ 0#32) : kinds ≠ [] := by
  rintro rfl
  apply hw
  apply BitVec.eq_of_getLsbD_eq
  intro i _
  have := h.bits i
  simpa using this

/-- Where no bit is set, the sections that are open are of the kind without bits. -/
theorem eq_empty (hw : w.workingTaskKind = 0#32) (hk : k ∈ kinds) :
    k = .Empty := by
  have hbits := h.contains hk
  rw [hw, BitVec.zero_and] at hbits
  cases k <;> first | rfl | exact absurd hbits (by decide)

theorem compatible_of_disjoint (hd : isEnumContainsAny w.workingTaskKind k.bits = false)
    : ∀ k' ∈ kinds, Compatible k k' := by
  intro k' hk'
  right
  have hzero : w.workingTaskKind &&& k.bits = 0#32 := by simpa [isEnumContainsAny] using hd
  rw [← h.contains hk', ← BitVec.and_assoc, BitVec.and_comm k.bits, hzero, BitVec.zero_and]

theorem compatible_of_not_denyGet (hd : isEnumContains w.workingTaskKind AQueueTaskKind.DenyGet.bits = false) :
    ∀ k' ∈ kinds, Compatible .Get k' := by
  intro k' hk'
  have hc := h.contains hk'
  have hne : w.workingTaskKind &&& AQueueTaskKind.DenyGet.bits ≠ AQueueTaskKind.DenyGet.bits := by
    simpa [isEnumContains] using hd
  cases k' with
  | DenyGet => exact absurd hc hne
  | Set =>
    have hsub : AQueueTaskKind.Set.bits &&& AQueueTaskKind.DenyGet.bits =
        AQueueTaskKind.DenyGet.bits := by decide
    have := congrArg (· &&& AQueueTaskKind.DenyGet.bits) hc
    simp only [BitVec.and_assoc, hsub] at this
    exact absurd this hne
  | Get => exact .inl ⟨rfl, rfl⟩
  | Empty => exact .inr (by decide)
  | Send => exact .inr (by decide)
  | Recv => exact .inr (by decide)

theorem cons (hk : ∀ k' ∈ kinds, Compatible k k') (hbits : w'.workingTaskKind = w.workingTaskKind ||| k.bits)
    (hget : w'.countGetter = ofNat ((k :: kinds).count .Get)) : Tracks w' (k :: kinds) where
  compatible := pairwise_cons.mpr ⟨hk, h.compatible⟩
  bits i := by
    rw [hbits, BitVec.getLsbD_or, Bool.or_eq_true, h.bits i]
    simp only [exists_mem_cons_iff]
    rw [or_comm]
  getters := hget

/-- Another Get beside one that is open sets no bit. -/
theorem cons_get (hk : ∀ k' ∈ kinds, Compatible .Get k') (hmem : .Get ∈ kinds)
    (hbits : w'.workingTaskKind = w.workingTaskKind) (hget : w'.countGetter = w.countGetter + 1)
    : Tracks w' (.Get :: kinds) where
  compatible := pairwise_cons.mpr ⟨hk, h.compatible⟩
  bits i := by
    rw [hbits, h.bits i]
    constructor
    · rintro ⟨k, hk, hi⟩
      exact ⟨k, mem_cons_of_mem _ hk, hi⟩
    · rintro ⟨k, hk, hi⟩
      obtain rfl | hk := mem_cons.mp hk
      · exact ⟨_, hmem, hi⟩
      · exact ⟨k, hk, hi⟩
  getters := by
    rw [hget, h.getters, count_cons_self, ofNat_add]
    rfl

end

theorem drop (h : Tracks w (k :: kinds)) (hget : k = .Get → .Get ∉ kinds)
    (hbits : w'.workingTaskKind = w.workingTaskKind &&& ~~~ k.bits)
    (hcount : w'.countGetter = ofNat (kinds.count .Get)) : Tracks w' kinds where
  compatible := h.compatible.of_cons
  bits i := by
    rw [hbits, BitVec.getLsbD_and, Bool.and_eq_true, h.bits i, BitVec.getLsbD_not]
    constructor
    · rintro ⟨⟨k', hk', hi⟩, hnot⟩
      obtain rfl | hk' := mem_cons.mp hk'
      · simp [hi] at hnot
      · exact ⟨k', hk', hi⟩
    · rintro ⟨k', hk', hi⟩
      refine ⟨⟨k', mem_cons_of_mem _ hk', hi⟩, ?_⟩
      -- a kind that shares a bit with `k` is not open beside it
      have hlt : i < 32 := BitVec.lt_of_getLsbD hi
      rcases rel_of_pairwise_cons h.compatible hk' with ⟨rfl, rfl⟩ | hd
      · exact absurd hk' (hget rfl)
      · have := congrArg (fun b => b.getLsbD i) hd
        simp only [BitVec.getLsbD_and, hi, Bool.and_true, BitVec.getLsbD_zero] at this
        rw [this, decide_eq_true hlt]
        rfl
  getters := hcount

/-- The end of one Get beside others clears no bit. -/
theorem drop_get (h : Tracks w (.Get :: kinds)) (hmem : .Get ∈ kinds)
    (hbits : w'.workingTaskKind = w.workingTaskKind)
    (hcount : w'.countGetter = ofNat (kinds.count .Get)) : Tracks w' kinds where
  compatible := h.compatible.of_cons
  bits i := by
    rw [hbits, h.bits i]
    constructor
    · rintro ⟨k', hk', hi⟩
      obtain rfl | hk' := mem_cons.mp hk'
      · exact ⟨_, hmem, hi⟩
      · exact ⟨k', hk', hi⟩
    · rintro ⟨k', hk', hi⟩
      exact ⟨k', mem_cons_of_mem _ hk', hi⟩
  getters := hcount

end Tracks

namespace WorkContent

variable {w : WorkContent Task} {k : AQueueTaskKind} {kinds : List AQueueTaskKind}

/-- A refusal changes nothing, and there is a reason for it. -/
theorem checkAndSet_false (h : Tracks w kinds) (hc : (w.checkAndSet k).1 = false) :
    (w.checkAndSet k).2 = w ∧ (w.isTakingCall = true ∨ w.tasks ≠ [] ∨ kinds ≠ []) := by
  unfold checkAndSet at hc ⊢
  by_cases hbusy : (w.isTakingCall || !w.tasks.isEmpty) = true
  · rw [if_pos hbusy]
    refine ⟨rfl, ?_⟩
    simp only [Bool.or_eq_true, Bool.not_eq_true', isEmpty_eq_false_iff] at hbusy
    exact hbusy.imp_right .inl
  rw [if_neg hbusy] at hc ⊢
  have hkinds : ∀ b, w.workingTaskKind &&& b ≠ 0#32 → kinds ≠ [] := by
    intro b hb
    apply h.ne_nil
    intro hzero
    rw [hzero, BitVec.zero_and] at hb
    exact hb rfl
  by_cases hget : k = .Get
  · rw [if_pos hget] at hc ⊢
    by_cases hdeny : isEnumContains w.workingTaskKind AQueueTaskKind.DenyGet.bits = true
    · rw [if_pos hdeny]
      refine ⟨rfl, .inr (.inr (hkinds AQueueTaskKind.DenyGet.bits ?_))⟩
      rw [eq_of_beq hdeny]
      decide
    · rw [if_neg hdeny] at hc
      dsimp only at hc
      split at hc <;> simp at hc
  · rw [if_neg hget] at hc ⊢
    by_cases hany : isEnumContainsAny w.workingTaskKind k.bits = true
    · rw [if_pos hany]
      refine ⟨rfl, .inr (.inr (hkinds k.bits ?_))⟩
      simpa [isEnumContainsAny] using hany
    · rw [if_neg hany] at hc
      simp at hc

/-- A permit is given only to an idle queue, and the section is open from then on. -/
theorem checkAndSet_true (h : Tracks w kinds) (hc : (w.checkAndSet k).1 = true) :
    w.takingCallThreadId = none ∧ w.tasks = [] ∧ Tracks (w.checkAndSet k).2 (k :: kinds) ∧
      (w.checkAndSet k).2 = { w with
        workingTaskKind := (w.checkAndSet k).2.workingTaskKind
        countGetter := (w.checkAndSet k).2.countGetter } := by
  unfold checkAndSet at hc ⊢
  by_cases hbusy : (w.isTakingCall || !w.tasks.isEmpty) = true
  · rw [if_pos hbusy] at hc
    simp at hc
  rw [if_neg hbusy] at hc ⊢
  have hidle : w.takingCallThreadId = none ∧ w.tasks = [] := by
    simpa [isTakingCall] using hbusy
  refine ⟨hidle.1, hidle.2, ?_⟩
  by_cases hget : k = .Get
  · subst hget
    rw [if_pos rfl] at hc ⊢
    by_cases hdeny : isEnumContains w.workingTaskKind AQueueTaskKind.DenyGet.bits = true
    · rw [if_pos hdeny] at hc
      simp at hc
    rw [if_neg hdeny]
    have hcomp := h.compatible_of_not_denyGet (by simpa using hdeny)
    dsimp only
    by_cases hmore : 1 < w.countGetter + 1
    · rw [if_pos hmore]
      refine ⟨h.cons_get hcomp ?_ rfl rfl, rfl⟩
      by_contra hmem
      rw [h.getters, count_eq_zero.mpr hmem] at hmore
      exact absurd hmore (by decide)
    · rw [if_neg hmore]
      refine ⟨h.cons hcomp rfl ?_, rfl⟩
      rw [count_cons_self, ofNat_add, ← h.getters]
      rfl
  · rw [if_neg hget] at hc ⊢
    by_cases hany : isEnumContainsAny w.workingTaskKind k.bits = true
    · rw [if_pos hany] at hc
      simp at hc
    rw [if_neg hany]
    refine ⟨h.cons (h.compatible_of_disjoint (by simpa using hany)) rfl ?_, rfl⟩
    rw [count_cons_of_ne (by simpa using hget)]
    exact h.getters

theorem clearTaskKind_frame : (w.clearTaskKind k).2 = { w with
    workingTaskKind := (w.clearTaskKind k).2.workingTaskKind
    countGetter := (w.clearTaskKind k).2.countGetter } := by
  unfold clearTaskKind dropKind
  split
  · dsimp only
    split <;> rfl
  · rfl

theorem dropKind_tracks {v : WorkContent Task} (h : Tracks w (k :: kinds))
    (hget : k = .Get → .Get ∉ kinds) (hbits : v.workingTaskKind = w.workingTaskKind)
    (hcount : v.countGetter = ofNat (kinds.count .Get)) :
    Tracks (v.dropKind k).2 kinds ∧
      ((v.dropKind k).1 = true ↔ (v.dropKind k).2.workingTaskKind = 0#32) :=
  ⟨h.drop hget (by rw [← hbits]; rfl) hcount, by simp [dropKind]⟩

/-- The end of a section: what is left are the other sections, and where it is not the
last one to hold a bit there is another. -/
theorem clearTaskKind_tracks (h : Tracks w (k :: kinds)) (hbound : (k :: kinds).count .Get ≤ 2 ^ 32) :
    Tracks (w.clearTaskKind k).2 kinds ∧
      ((w.clearTaskKind k).1 = true ↔ (w.clearTaskKind k).2.workingTaskKind = 0#32) := by
  unfold clearTaskKind
  by_cases hget : k = .Get
  · subst hget
    rw [if_pos rfl]
    dsimp only
    have hcount : w.countGetter - 1 = ofNat (kinds.count .Get) := by
      rw [h.getters, count_cons_self, ofNat_add]
      exact UInt32.add_sub_cancel _ _
    rw [count_cons_self] at hbound
    by_cases hmore : 0 < w.countGetter - 1
    · rw [if_pos hmore]
      have hmem : .Get ∈ kinds := by
        by_contra hmem
        rw [hcount, count_eq_zero.mpr hmem] at hmore
        exact absurd hmore (by decide)
      have hrest : Tracks { w with countGetter := w.countGetter - 1 } kinds :=
        h.drop_get hmem rfl hcount
      refine ⟨hrest, iff_of_false (by simp) ?_⟩
      intro hzero
      exact absurd (hrest.eq_empty hzero hmem) (by decide)
    · rw [if_neg hmore]
      refine dropKind_tracks h ?_ rfl hcount
      intro _ hmem
      apply hmore
      have hpos := count_pos_iff.mpr hmem
      rw [hcount, lt_iff_toNat_lt, toNat_ofNat', Nat.mod_eq_of_lt (by omega)]
      exact hpos
  · rw [if_neg hget]
    refine dropKind_tracks h (fun hk => absurd hk hget) rfl ?_
    rw [h.getters, count_cons_of_ne (by simpa using hget)]

end WorkContent

end Fon9.AQueue
