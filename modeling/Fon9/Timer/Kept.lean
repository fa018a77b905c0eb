import Fon9.Lib.Run
import Fon9.Timer.TimerThread
import Mathlib.Data.List.Nodup
import Mathlib.Order.MinMax

/-! What holds in every state of a run: the queue has the entries that wait, once each and
under their keys, the callbacks run one at a time and once for an arming, the thread wakes in
time, and an entry that has been disposed is quiet. -/

namespace Fon9.Timer

open Lib List Function TimerSeqNo Prod Function

section Queue

variable {Timer : Type} {timers : List (TimerEntryKey × Timer)} {key : Timer → TimerEntryKey}
  {timer : Timer} {k : TimerEntryKey}

/-- The queue is in order, and an entry is in it under its key while its number is one that waits. -/
structure Queued (timers : List (TimerEntryKey × Timer)) (key : Timer → TimerEntryKey) : Prop where
  sorted : timers.Pairwise fun a b => a.1 < b.1
  mem_iff : ∀ e, e ∈ timers ↔ e.1 = key e.2 ∧ isTimerWaitInLine (key e.2).seqNo

namespace Queued

theorem keys_nodup (h : Queued timers key) : (timers.map fst).Nodup :=
  pairwise_map.mpr (h.sorted.imp fun hlt => hlt.ne)

theorem nodup (h : Queued timers key) : timers.Nodup := h.keys_nodup.of_map

theorem mem_of_wait (h : Queued timers key) (hwait : isTimerWaitInLine (key timer).seqNo) :
    (key timer, timer) ∈ timers := (h.mem_iff _).mpr ⟨rfl, hwait⟩

variable {e : TimerEntryKey × Timer}

theorem lt_getLast (h : Queued timers key) (hlast : timers.getLast? = some e) {d : TimerEntryKey × Timer}
    (hd : d ∈ timers) (hne : d ≠ e) : d.1 < e.1 := by
  have hsplit : timers.dropLast ++ [e] = timers := List.dropLast_append_getLast? e hlast
  have hsorted : (timers.dropLast ++ [e]).Pairwise fun a b => a.1 < b.1 := by
    rw [hsplit]
    exact h.sorted
  rw [← hsplit, mem_append, mem_singleton] at hd
  exact (pairwise_append.mp hsorted).2.2 d (hd.resolve_right hne) e (mem_singleton.mpr rfl)

/-- The entry at the back is the one to emit first. -/
theorem emitTime_getLast_le (h : Queued timers key) (hlast : timers.getLast? = some e) {d : TimerEntryKey × Timer}
    (hd : d ∈ timers) : e.1.emitTime ≤ d.1.emitTime := by
  by_cases hne : d = e
  · rw [hne]
  · have hlt := h.lt_getLast hlast hd hne
    rw [TimerEntryKey.lt_iff] at hlt
    split at hlt
    · next heq => exact heq.ge
    · exact hlt.le

variable [DecidableEq Timer]

/-- An entry that waits is in the queue once and under its key, and no other entry is. -/
theorem filter_eq (h : Queued timers key) (timer : Timer) :
    timers.filter (fun e => e.2 = timer) =
      if isTimerWaitInLine (key timer).seqNo then [(key timer, timer)] else [] := by
  split
  · next hwait =>
    have honly : ∀ e ∈ timers.filter (fun e => e.2 = timer), e = (key timer, timer) := by
      intro e he
      obtain ⟨hmem, htimer⟩ := mem_filter.mp he
      have heq := of_decide_eq_true htimer
      rw [← heq, ← ((h.mem_iff e).mp hmem).1]
    have hmem : (key timer, timer) ∈ timers.filter (fun e => e.2 = timer) :=
      mem_filter.mpr ⟨h.mem_of_wait hwait, decide_eq_true rfl⟩
    exact perm_singleton.mp ((perm_ext_iff_of_nodup (h.nodup.filter _) (nodup_singleton _)).mpr
      fun e => ⟨fun he => mem_singleton.mpr (honly e he), fun he => mem_singleton.mp he ▸ hmem⟩)
  · next hidle =>
    apply filter_eq_nil_iff.mpr
    intro e he htimer
    have heq := of_decide_eq_true htimer
    exact hidle (heq ▸ ((h.mem_iff e).mp he).2)

/-- The key of an entry that is not in the queue changes to one that does not wait. -/
theorem setKey (h : Queued timers key) (hidle : ¬ isTimerWaitInLine (key timer).seqNo)
    (hk : ¬ isTimerWaitInLine k.seqNo) : Queued timers (update key timer k) where
  sorted := h.sorted
  mem_iff e := by
    rw [h.mem_iff]
    by_cases he : e.2 = timer
    · rw [he, update_self]
      exact iff_of_false (fun hwait => hidle hwait.2) fun hwait => hk hwait.2
    · rw [update_of_ne he]

/-- An entry is taken out of the queue, if it is there, and its key changes to one that does not wait. -/
theorem erase (h : Queued timers key) (hk : ¬ isTimerWaitInLine k.seqNo) :
    Queued (sortedErase fst (key timer) timers) (update key timer k) := by
  rw [sortedErase_eq_filter h.sorted]
  refine ⟨h.sorted.filter _, fun e => ?_⟩
  rw [mem_filter, h.mem_iff, decide_eq_true_iff]
  by_cases he : e.2 = timer
  · rw [he, update_self]
    exact iff_of_false (fun hmem => hmem.2 hmem.1.1) fun hmem => hk hmem.2
  · rw [update_of_ne he, and_iff_left_iff_imp]
    intro hmem heq
    have hwait : isTimerWaitInLine (key timer).seqNo := by
      rw [← heq, hmem.1]
      exact hmem.2
    have hsame := inj_on_of_nodup_map h.keys_nodup ((h.mem_iff e).mpr hmem) (h.mem_of_wait hwait) heq
    exact he (congrArg snd hsame)

/-- An entry is put in the queue under a key that is not there. -/
theorem insert (h : Queued timers key) (hidle : ¬ isTimerWaitInLine (key timer).seqNo)
    (hk : isTimerWaitInLine k.seqNo) (hfree : ∀ e ∈ timers, e.1 ≠ k) :
    Queued (sortedInsert fst (k, timer) timers).1 (update key timer k) where
  sorted := sortedInsert_sorted h.sorted
  mem_iff e := by
    rw [mem_sortedInsert_iff h.sorted hfree, h.mem_iff]
    by_cases he : e.2 = timer
    · rw [he, update_self, and_iff_left hk, or_iff_left fun hmem => hidle hmem.2]
      exact ⟨congrArg fst, fun hfst => Prod.ext hfst he⟩
    · rw [update_of_ne he, or_iff_right]
      exact fun heq => he (congrArg snd heq)

/-- The entry at the back is taken out and its key changes to one that does not wait. -/
theorem pop (h : Queued timers key) (hlast : timers.getLast? = some e) (hk : ¬ isTimerWaitInLine k.seqNo)
    : Queued timers.dropLast (update key e.2 k) := by
  have hsplit : timers.dropLast ++ [e] = timers := List.dropLast_append_getLast? e hlast
  have hnodup : (timers.dropLast ++ [e]).Nodup := by
    rw [hsplit]
    exact h.nodup
  refine ⟨h.sorted.sublist (dropLast_sublist _), fun d => ?_⟩
  have hmem : d ∈ timers ↔ d ∈ timers.dropLast ∨ d = e := by
    rw [← mem_singleton, ← mem_append, hsplit]
  have hnot : e ∉ timers.dropLast := fun he =>
    (nodup_append.mp hnodup).2.2 e he e (mem_singleton.mpr rfl) rfl
  by_cases hd : d.2 = e.2
  · rw [hd, update_self]
    refine iff_of_false (fun hin => hnot ?_) fun hwait => hk hwait.2
    have hd' := (h.mem_iff d).mp (hmem.mpr (.inl hin))
    have he' := (h.mem_iff e).mp (mem_of_getLast? hlast)
    have heq : d = e := Prod.ext (hd'.1.trans (hd ▸ he'.1.symm)) hd
    exact heq ▸ hin
  · rw [update_of_ne hd, ← h.mem_iff, hmem, or_iff_left]
    exact fun heq => hd (congrArg snd heq)

end Queued

end Queue

section Runs

variable {Timer : Type}

/-! ### What has happened -/

/-- Each event meets `P` with the events before it. -/
def Each (P : Event Timer → List (Event Timer) → Prop) : List (Event Timer) → Prop
  | [] => True
  | event :: older => P event older ∧ Each P older

/-- The entry whose callback has begun and not returned. -/
def running : List (Event Timer) → Option Timer
  | [] => none
  | .begun timer :: _ => some timer
  | .done _ :: _ => none
  | .armed _ :: older => running older
  | .disposed _ :: older => running older

/-- The entry has been armed since its callback last began. -/
def Armed (timer : Timer) : List (Event Timer) → Prop
  | [] => False
  | .armed timer' :: older => timer' = timer ∨ Armed timer older
  | .begun timer' :: older => timer' ≠ timer ∧ Armed timer older
  | .done _ :: older => Armed timer older
  | .disposed _ :: older => Armed timer older

/-- A callback begins when none runs, and it is that one that returns. -/
def OneAtATime : List (Event Timer) → Prop :=
  Each fun event older => match event with
    | .begun _ => running older = none
    | .done timer => running older = some timer
    | _ => True

/-- Between two callbacks of an entry it has been armed. -/
def EmittedOnce : List (Event Timer) → Prop :=
  Each fun event older => ∀ timer, event = .begun timer → Armed timer older

/-- No callback begins of an entry whose disposal has returned. One that ran then has begun before. -/
def NoneAfterDisposal : List (Event Timer) → Prop :=
  Each fun event older => ∀ timer, event = .begun timer → .disposed timer ∉ older

namespace TimerThread

variable (s : TimerThread Timer)

/-- A thread that waits, and has not been notified, waits no longer than to each emit time in the
queue, or its wait is over. -/
def WakesInTime : Prop :=
  ∀ since secs, s.thread = .waiting since secs false →
    ∀ e ∈ s.timers, 0 ≤ secs ∧ since + secs ≤ max e.1.emitTime s.now

structure Kept [DecidableEq Timer] (s : TimerThread Timer) : Prop where
  queued : ∀ timer, s.timers.filter (fun e => e.2 = timer) =
    if isTimerWaitInLine (s.key timer).seqNo then [(s.key timer, timer)] else []
  oneAtATime : OneAtATime s.log
  emittedOnce : EmittedOnce s.log
  wakesInTime : s.WakesInTime
  noneAfterDisposal : NoneAfterDisposal s.log

/-! ### When it holds -/

/-- `SetupRun` does nothing, or: the entry's disposal has not returned, the number it gets is not
one in the queue for that time, and where the thread is not notified because it waits that long,
the wait has an end and began no later than the clock was read for it. -/
def SetupRunOk (timer : Timer) (atTimePoint : ℤ) (after : Option ℤ) : Prop :=
  s.isThreadEnding ∨ (s.key timer).seqNo = TimerSeqNo.disposed ∨
    .disposed timer ∉ s.log ∧
    (∀ e ∈ s.timers, e.2 ≠ timer → e.1 ≠ ⟨atTimePoint, s.lastSeqNo.next⟩) ∧
    ((∀ e ∈ s.timers, e.2 ≠ timer → e.1 < ⟨atTimePoint, s.lastSeqNo.next⟩) →
      ∀ since secs, s.thread = .waiting since secs false → secs = after.getD (atTimePoint - s.now) →
        0 ≤ secs ∧ (since ≤ atTimePoint - secs ∨ since + secs ≤ s.now))

def StepOk : Op Timer → Prop
  | .proceed caller =>
    match s.calls caller with
    | .setupRun timer atTimePoint after => s.SetupRunOk timer atTimePoint after
    | _ => True
  | _ => True

/-! ### The invariant -/

/-- What holds of the queue, the keys and the log. -/
structure Core (s : TimerThread Timer) : Prop where
  queued : Queued s.timers s.key
  running : running s.log = s.currEntry
  idle : s.thread ≠ .emitting → s.currEntry = none
  armed : ∀ timer, isTimerWaitInLine (s.key timer).seqNo → Armed timer s.log
  disposed : ∀ timer, .disposed timer ∈ s.log → s.isThreadEnding ∨ ¬ isTimerWaitInLine (s.key timer).seqNo
  oneAtATime : OneAtATime s.log
  emittedOnce : EmittedOnce s.log
  noneAfterDisposal : NoneAfterDisposal s.log

/-- The wait of a thread that has not been notified is the one that `CvWaitSecs_` says. -/
def WaitKnown : Prop :=
  ∀ since secs, s.thread = .waiting since secs false → s.cvWaitSecs = secs

structure Inv (s : TimerThread Timer) : Prop extends Core s where
  waitKnown : s.WaitKnown
  wakesInTime : s.WakesInTime

variable {s : TimerThread Timer} {timer : Timer} {key : TimerEntryKey} {caller : Caller}

theorem noWaiting_not_wait : ¬ isTimerWaitInLine noWaiting := by decide

theorem disposed_not_wait : ¬ isTimerWaitInLine TimerSeqNo.disposed := by decide

theorem create_inv (now : ℤ) : Inv (create now : TimerThread Timer) where
  queued := ⟨List.Pairwise.nil, fun _ => iff_of_false not_mem_nil fun h => noWaiting_not_wait h.2⟩
  running := rfl
  idle _ := rfl
  armed _ h := absurd h noWaiting_not_wait
  disposed _ h := absurd h not_mem_nil
  oneAtATime := trivial
  emittedOnce := trivial
  noneAfterDisposal := trivial
  waitKnown := nofun
  wakesInTime := nofun

theorem Inv.setCall (h : Inv s) (call : Call Timer) : Inv (s.setCall caller call) where
  queued := h.queued
  running := h.running
  idle := h.idle
  armed := h.armed
  disposed := h.disposed
  oneAtATime := h.oneAtATime
  emittedOnce := h.emittedOnce
  noneAfterDisposal := h.noneAfterDisposal
  waitKnown := h.waitKnown
  wakesInTime := h.wakesInTime

/-- The disposal of an entry returns when the entry does not wait. -/
theorem Inv.noteDisposed (h : Inv s) (hidle : s.isThreadEnding ∨ ¬ isTimerWaitInLine (s.key timer).seqNo) :
    Inv (s.note (.disposed timer)) where
  queued := h.queued
  running := h.running
  idle := h.idle
  armed := h.armed
  disposed timer' hmem := by
    rcases mem_cons.mp hmem with heq | hmem
    · cases heq
      exact hidle
    · exact h.disposed timer' hmem
  oneAtATime := ⟨trivial, h.oneAtATime⟩
  emittedOnce := ⟨nofun, h.emittedOnce⟩
  noneAfterDisposal := ⟨nofun, h.noneAfterDisposal⟩
  waitKnown := h.waitKnown
  wakesInTime := h.wakesInTime

theorem next_wait (lastSeqNo : TimerSeqNo) : isTimerWaitInLine lastSeqNo.next := by
  rw [TimerSeqNo.next]
  split
  · assumption
  · exact le_refl _

theorem notify_fields (s : TimerThread Timer) : ∃ thread, s.notify = { s with thread := thread } ∧
    (thread = .emitting ↔ s.thread = .emitting) ∧ ∀ since secs, thread ≠ .waiting since secs false := by
  rw [notify]
  split
  · next since secs notified hthread => exact ⟨_, rfl, iff_of_false nofun (hthread ▸ nofun), nofun⟩
  · next hother => exact ⟨s.thread, rfl, Iff.rfl, fun since secs heq => hother since secs false heq⟩

/-- A notified thread does not wait without a notification. -/
theorem Core.notify (h : Core s) : Inv s.notify := by
  obtain ⟨thread, heq, hemitting, hnot⟩ := notify_fields s
  rw [heq]
  exact {
    queued := h.queued
    running := h.running
    idle := fun hthread => h.idle fun hs => hthread (hemitting.mpr hs)
    armed := h.armed
    disposed := h.disposed
    oneAtATime := h.oneAtATime
    emittedOnce := h.emittedOnce
    noneAfterDisposal := h.noneAfterDisposal
    waitKnown := fun since secs hthread => absurd hthread (hnot since secs)
    wakesInTime := fun since secs hthread => absurd hthread (hnot since secs) }

theorem Inv.notifyForEndNow (h : Inv s) : Inv s.notifyForEndNow := by
  rw [TimerThread.notifyForEndNow]
  split
  · refine Core.notify { h.toCore with idle := h.idle, disposed := fun _ _ => .inl nofun }
  · exact h.toCore.notify

/-- An entry that is not at the back is emitted no earlier than the one that is. -/
theorem wakes_not_last (hqueued : Queued s.timers s.key) {new : TimerEntryKey × Timer}
    (hlast : s.timers.getLast?.map fst ≠ some new.1) (hnew : new ∈ s.timers) {since secs now : ℤ}
    (hothers : ∀ e ∈ s.timers, e ≠ new → 0 ≤ secs ∧ since + secs ≤ max e.1.emitTime now) :
    0 ≤ secs ∧ since + secs ≤ max new.1.emitTime now := by
  cases hback : s.timers.getLast? with
  | none => exact absurd (getLast?_eq_none_iff.mp hback) (ne_nil_of_mem hnew)
  | some back =>
    have hne : back ≠ new := by
      rintro rfl
      exact hlast (by rw [hback]; rfl)
    obtain ⟨hpos, hle⟩ := hothers back (mem_of_getLast? hback) hne
    exact ⟨hpos, hle.trans (max_le_max (hqueued.emitTime_getLast_le hback hnew) le_rfl)⟩

variable [DecidableEq Timer]

theorem Inv.kept (h : Inv s) : Kept s where
  queued := h.queued.filter_eq
  oneAtATime := h.oneAtATime
  emittedOnce := h.emittedOnce
  wakesInTime := h.wakesInTime
  noneAfterDisposal := h.noneAfterDisposal

/-- An entry gets a key that does not wait, and where it was in the queue it has been taken out. -/
theorem Inv.unqueue {timers : List (TimerEntryKey × Timer)} (h : Inv s)
    (hqueued : Queued timers (update s.key timer key)) (hsub : timers ⊆ s.timers)
    (hkey : ¬ isTimerWaitInLine key.seqNo) :
    Inv { s with timers := timers, key := update s.key timer key } where
  queued := hqueued
  running := h.running
  idle := h.idle
  armed timer' hwait := by
    by_cases heq : timer' = timer
    · subst heq
      dsimp only at hwait
      rw [update_self] at hwait
      exact absurd hwait hkey
    · dsimp only at hwait
      rw [update_of_ne heq] at hwait
      exact h.armed timer' hwait
  disposed timer' hmem := by
    by_cases heq : timer' = timer
    · subst heq
      dsimp only
      rw [update_self]
      exact .inr hkey
    · dsimp only
      rw [update_of_ne heq]
      exact h.disposed timer' hmem
  oneAtATime := h.oneAtATime
  emittedOnce := h.emittedOnce
  noneAfterDisposal := h.noneAfterDisposal
  waitKnown := h.waitKnown
  wakesInTime since secs hthread e he := h.wakesInTime since secs hthread e (hsub he)

/-- The entry is taken out by its key. -/
theorem Inv.erase (h : Inv s) (hkey : ¬ isTimerWaitInLine key.seqNo) :
    Inv ((s.erase (s.key timer)).setKey timer key) := by
  rw [TimerThread.erase]
  split
  · next hnone =>
    have hidle : ¬ isTimerWaitInLine (s.key timer).seqNo := hnone ▸ noWaiting_not_wait
    exact h.unqueue (h.queued.setKey hidle hkey) (List.Subset.refl _) hkey
  · have hsub : sortedErase fst (s.key timer) s.timers ⊆ s.timers := by
      rw [sortedErase_eq_filter h.queued.sorted]
      exact filter_sublist.subset
    exact h.unqueue (h.queued.erase hkey) hsub hkey

/-- The entry is taken out if it waits. -/
theorem Inv.eraseWaiting (h : Inv s) (hkey : ¬ isTimerWaitInLine key.seqNo) :
    Inv ((if isTimerWaitInLine (s.key timer).seqNo then s.erase (s.key timer) else s).setKey timer key) := by
  split
  · exact h.erase hkey
  · next hidle => exact h.unqueue (h.queued.setKey hidle hkey) (List.Subset.refl _) hkey

/-! ### The sections of the entries -/

theorem Inv.stopNoWait (h : Inv s) (timer : Timer) : Inv (s.stopNoWait timer) := by
  rw [TimerThread.stopNoWait]
  split_ifs
  · exact h
  · exact h.erase noWaiting_not_wait
  · exact h

theorem Inv.disposeNoWait (h : Inv s) (timer : Timer) : Inv ((s.disposeNoWait timer).note (.disposed timer)) := by
  rw [TimerThread.disposeNoWait]
  split
  · next hending => exact h.noteDisposed (.inl hending)
  · have herased : Inv (TimerThread.setKey (if isTimerWaitInLine (s.key timer).seqNo then s.erase (s.key timer) else s)
        timer { s.key timer with seqNo := TimerSeqNo.disposed }) := h.eraseWaiting disposed_not_wait
    refine herased.noteDisposed (.inr ?_)
    rw [setKey]
    dsimp only
    rw [update_self]
    exact disposed_not_wait

/-- After the section the entry does not wait. -/
theorem Inv.disposeLocked (h : Inv s) (timer : Timer) :
    Inv (s.disposeLocked timer) ∧ ¬ isTimerWaitInLine ((s.disposeLocked timer).key timer).seqNo := by
  rw [TimerThread.disposeLocked]
  split
  · refine ⟨h.erase disposed_not_wait, ?_⟩
    rw [setKey]
    dsimp only
    rw [update_self]
    exact disposed_not_wait
  · next hidle => exact ⟨h, hidle⟩

/-! ### The section of `SetupRun` -/

variable {atTimePoint : ℤ}

/-- The other entries that are in the queue stay there, and the entry is put in under its new key. -/
theorem arm_queued (h : Queued s.timers s.key)
    (hfree : ∀ e ∈ s.timers, e.2 ≠ timer → e.1 ≠ ⟨atTimePoint, s.lastSeqNo.next⟩) :
    Queued (s.arm timer atTimePoint).timers (s.arm timer atTimePoint).key ∧
      ∀ e ∈ (s.arm timer atTimePoint).timers,
        e = (⟨atTimePoint, s.lastSeqNo.next⟩, timer) ∨ e ∈ s.timers ∧ e.2 ≠ timer := by
  generalize hnew : (⟨atTimePoint, s.lastSeqNo.next⟩ : TimerEntryKey) = new at hfree ⊢
  have hwait : isTimerWaitInLine new.seqNo := hnew ▸ next_wait s.lastSeqNo
  -- the entry is out of the queue before it is put in
  obtain ⟨timers, htimers, hqueued, hsub⟩ : ∃ timers,
      (if isTimerWaitInLine (s.key timer).seqNo then s.erase (s.key timer) else s).timers = timers ∧
      Queued timers (update s.key timer ⟨atTimePoint, noWaiting⟩) ∧ timers ⊆ s.timers := by
    split
    · next hold =>
      have hnone : (s.key timer).seqNo ≠ noWaiting := fun heq => noWaiting_not_wait (heq ▸ hold)
      refine ⟨_, rfl, ?_, ?_⟩
      · rw [TimerThread.erase, if_neg hnone]
        exact h.erase noWaiting_not_wait
      · rw [TimerThread.erase, if_neg hnone]
        dsimp only
        rw [sortedErase_eq_filter h.sorted]
        exact filter_sublist.subset
    · next hidle => exact ⟨_, rfl, h.setKey hidle noWaiting_not_wait, List.Subset.refl _⟩
  have hout : ∀ e ∈ timers, e.2 ≠ timer := by
    intro e he heq
    have hmem := ((hqueued.mem_iff e).mp he).2
    rw [heq, update_self] at hmem
    exact noWaiting_not_wait hmem
  have hfree' : ∀ e ∈ timers, e.1 ≠ new := fun e he => hfree e (hsub he) (hout e he)
  have hidle : ¬ isTimerWaitInLine
      (update s.key timer ⟨atTimePoint, noWaiting⟩ timer).seqNo := by
    rw [update_self]
    exact noWaiting_not_wait
  have hins := hqueued.insert hidle hwait hfree'
  rw [update_idem] at hins
  rw [arm]
  dsimp only
  rw [htimers, hnew]
  refine ⟨hins, fun e he => ?_⟩
  rcases (mem_sortedInsert_iff hqueued.sorted hfree').mp he with heq | hmem
  · exact .inl heq
  · exact .inr ⟨hsub hmem, hout e hmem⟩

/-- An entry that is armed is not disposed. -/
theorem Core.arm (h : Core s) (hlive : .disposed timer ∉ s.log)
    (hfree : ∀ e ∈ s.timers, e.2 ≠ timer → e.1 ≠ ⟨atTimePoint, s.lastSeqNo.next⟩) :
    Core (s.arm timer atTimePoint) := by
  have hthread : (s.arm timer atTimePoint).thread = s.thread := by
    rw [TimerThread.arm, TimerThread.erase]
    dsimp only
    split_ifs <;> rfl
  have hcurr : (s.arm timer atTimePoint).currEntry = s.currEntry := by
    rw [TimerThread.arm, TimerThread.erase]
    dsimp only
    split_ifs <;> rfl
  have hstate : (s.arm timer atTimePoint).threadState = s.threadState := by
    rw [TimerThread.arm, TimerThread.erase]
    dsimp only
    split_ifs <;> rfl
  have hkey : ∀ timer', timer' ≠ timer → (s.arm timer atTimePoint).key timer' = s.key timer' :=
    fun _ hne => update_of_ne hne _ _
  have hlog : (s.arm timer atTimePoint).log = .armed timer :: s.log := rfl
  exact {
    queued := (arm_queued h.queued hfree).1
    running := hlog ▸ hcurr ▸ h.running
    idle := by
      rw [hthread, hcurr]
      exact h.idle
    armed := by
      intro timer' hwait
      rw [hlog]
      by_cases heq : timer' = timer
      · exact .inl heq.symm
      · rw [hkey timer' heq] at hwait
        exact .inr (h.armed timer' hwait)
    disposed := by
      intro timer' hmem
      rw [hlog, mem_cons, or_iff_right nofun] at hmem
      have hne : timer' ≠ timer := fun heq => hlive (heq ▸ hmem)
      rw [hkey timer' hne, isThreadEnding, hstate]
      exact h.disposed timer' hmem
    oneAtATime := hlog ▸ ⟨trivial, h.oneAtATime⟩
    emittedOnce := hlog ▸ ⟨nofun, h.emittedOnce⟩
    noneAfterDisposal := hlog ▸ ⟨nofun, h.noneAfterDisposal⟩ }

theorem Inv.setupRun (h : Inv s) {after : Option ℤ} (hok : s.SetupRunOk timer atTimePoint after)
    : Inv (s.setupRun timer atTimePoint after) := by
  rw [TimerThread.setupRun]
  split
  · exact h
  · next hstate =>
    split
    · exact h
    · next hnot =>
      obtain ⟨hlive, hfree, hlong⟩ := (hok.resolve_left hstate).resolve_left hnot
      have hcore : Core (s.arm timer atTimePoint) := h.toCore.arm hlive hfree
      have hmem := (arm_queued h.queued hfree).2
      have hsame : (s.arm timer atTimePoint).thread = s.thread ∧
          (s.arm timer atTimePoint).cvWaitSecs = s.cvWaitSecs ∧ (s.arm timer atTimePoint).now = s.now := by
        rw [TimerThread.arm, TimerThread.erase]
        dsimp only
        split_ifs <;> exact ⟨rfl, rfl, rfl⟩
      obtain ⟨hthread, hsecs, hnow⟩ := hsame
      have hkey : (s.arm timer atTimePoint).key timer = ⟨atTimePoint, s.lastSeqNo.next⟩ := update_self _ _ _
      have hknown : (s.arm timer atTimePoint).WaitKnown := by
        rw [WaitKnown, hthread, hsecs]
        exact h.waitKnown
      have hnewmem : ((⟨atTimePoint, s.lastSeqNo.next⟩, timer) : TimerEntryKey × Timer) ∈
          (s.arm timer atTimePoint).timers := by
        rw [hcore.queued.mem_iff, hkey]
        exact ⟨rfl, next_wait _⟩
      have hold : ∀ since secs, (s.arm timer atTimePoint).thread = .waiting since secs false →
          ∀ e ∈ (s.arm timer atTimePoint).timers, e ≠ (⟨atTimePoint, s.lastSeqNo.next⟩, timer) →
            0 ≤ secs ∧ since + secs ≤ max e.1.emitTime s.now := by
        intro since secs hwaits e he hne
        rw [hthread] at hwaits
        exact h.wakesInTime since secs hwaits e ((hmem e he).resolve_left hne).1
      rw [wakeFor, hkey, hnow, hsecs]
      split
      · next hlast =>
        refine { hcore with waitKnown := hknown, wakesInTime := fun since secs hwaits e he => ?_ }
        rw [hnow]
        by_cases heq : e = (⟨atTimePoint, s.lastSeqNo.next⟩, timer)
        · rw [heq]
          exact wakes_not_last hcore.queued hlast hnewmem (hold since secs hwaits)
        · exact hold since secs hwaits e he heq
      · next hlast =>
        dsimp only
        split
        · next hskip =>
          -- the thread is not notified
          refine { hcore with waitKnown := hknown, wakesInTime := fun since secs hwaits e he => ?_ }
          rw [hnow]
          by_cases heq : e = (⟨atTimePoint, s.lastSeqNo.next⟩, timer)
          · obtain ⟨back, hback, hbackkey⟩ := Option.map_eq_some_iff.mp (not_not.mp hlast)
            have hfirst : ∀ d ∈ s.timers, d.2 ≠ timer → d.1 < ⟨atTimePoint, s.lastSeqNo.next⟩ := by
              intro d hd hne
              have hd' : d ∈ (s.arm timer atTimePoint).timers := by
                have hother : (s.arm timer atTimePoint).key d.2 = s.key d.2 := update_of_ne hne _ _
                rw [hcore.queued.mem_iff, hother, ← h.queued.mem_iff]
                exact hd
              rw [← hbackkey]
              exact hcore.queued.lt_getLast hback hd' fun heq => hfree d hd hne (heq ▸ hbackkey)
            have hwait : s.thread = .waiting since secs false := hthread ▸ hwaits
            obtain ⟨hpos, hbound⟩ := hlong hfirst since secs hwait ((h.waitKnown since secs hwait).symm.trans hskip)
            rw [heq]
            refine ⟨hpos, ?_⟩
            rcases hbound with hread | hover
            · exact le_max_of_le_left (by dsimp only; omega)
            · exact le_max_of_le_right hover
          · exact hold since secs hwaits e he heq
        · exact Core.notify { hcore with }

/-! ### The loop of the thread -/

/-- The thread runs the loop while no callback runs. -/
theorem Core.runTimer (h : Core s) (hcurr : s.currEntry = none) : Inv s.runTimer := by
  rw [TimerThread.runTimer]
  split
  · next hending =>
    exact {
      queued := h.queued
      running := h.running
      idle := fun _ => hcurr
      armed := h.armed
      disposed := fun _ _ => .inl nofun
      oneAtATime := h.oneAtATime
      emittedOnce := h.emittedOnce
      noneAfterDisposal := h.noneAfterDisposal
      waitKnown := nofun
      wakesInTime := nofun }
  · next hstate =>
    have henter : ∀ secs, (∀ e ∈ s.timers, 0 ≤ secs ∧ s.now + secs ≤ e.1.emitTime) → Inv (s.enterWait secs) :=
      fun secs hsecs => {
        queued := h.queued
        running := h.running
        idle := fun _ => hcurr
        armed := h.armed
        disposed := h.disposed
        oneAtATime := h.oneAtATime
        emittedOnce := h.emittedOnce
        noneAfterDisposal := h.noneAfterDisposal
        waitKnown := by
          intro since secs' hwaits
          cases hwaits
          rfl
        wakesInTime := by
          intro since secs' hwaits e he
          cases hwaits
          exact ⟨(hsecs e he).1, le_max_of_le_left (hsecs e he).2⟩ }
    cases hlast : s.timers.getLast? with
    | none =>
      have hnil : s.timers = [] := getLast?_eq_none_iff.mp hlast
      exact henter _ fun e he => absurd (hnil ▸ he) not_mem_nil
    | some back =>
      obtain ⟨key, timer⟩ := back
      obtain ⟨hkey, hwait⟩ := (h.queued.mem_iff _).mp (mem_of_getLast? hlast)
      dsimp only at hkey hwait ⊢
      split
      · next hpos =>
        refine henter _ fun e he => ⟨hpos.le, ?_⟩
        have hle := h.queued.emitTime_getLast_le hlast he
        rw [hkey] at hle
        dsimp only at hle
        omega
      · have hpopped : Queued s.timers.dropLast (update s.key timer
            { s.key timer with seqNo := noWaiting }) := h.queued.pop hlast noWaiting_not_wait
        have hlive : .disposed timer ∉ s.log := fun hmem => (h.disposed timer hmem).elim hstate fun hnot => hnot hwait
        have hother : ∀ timer', timer' ≠ timer → (s.emit timer).key timer' = s.key timer' :=
          fun _ hne => update_of_ne hne _ _
        have hself : ¬ isTimerWaitInLine ((s.emit timer).key timer).seqNo := by
          rw [emit]
          dsimp only
          rw [update_self]
          exact noWaiting_not_wait
        exact {
          queued := hpopped
          running := rfl
          idle := fun hne => absurd rfl hne
          armed := by
            intro timer' hwait'
            have hne : timer' ≠ timer := fun heq => hself (heq ▸ hwait')
            rw [hother timer' hne] at hwait'
            exact ⟨hne.symm, h.armed timer' hwait'⟩
          disposed := by
            intro timer' hmem
            have hmem' : .disposed timer' ∈ s.log := (mem_cons.mp hmem).resolve_left nofun
            have hne : timer' ≠ timer := fun heq => hlive (heq ▸ hmem')
            rw [hother timer' hne]
            exact h.disposed timer' hmem'
          oneAtATime := ⟨h.running.trans hcurr, h.oneAtATime⟩
          emittedOnce := ⟨fun timer' heq => by cases heq; exact h.armed timer hwait, h.emittedOnce⟩
          noneAfterDisposal := ⟨fun timer' heq => by cases heq; exact hlive, h.noneAfterDisposal⟩
          waitKnown := nofun
          wakesInTime := nofun }

theorem Inv.wake (h : Inv s) : Inv s.wake := by
  rw [TimerThread.wake]
  split
  · next hthread => exact h.toCore.runTimer (h.idle (hthread ▸ nofun))
  · next hthread => exact h.toCore.runTimer (h.idle (hthread ▸ nofun))
  · exact h

theorem Inv.emitted (h : Inv s) : Inv s.emitted := by
  rw [TimerThread.emitted]
  split
  · next timer hthread hcurr =>
    have hcore : Core ({ s with currEntry := none }.note (.done timer)) := {
      queued := h.queued
      running := rfl
      idle := fun _ => rfl
      armed := h.armed
      disposed := fun timer' hmem => h.disposed timer' ((mem_cons.mp hmem).resolve_left nofun)
      oneAtATime := ⟨h.running.trans hcurr, h.oneAtATime⟩
      emittedOnce := ⟨nofun, h.emittedOnce⟩
      noneAfterDisposal := ⟨nofun, h.noneAfterDisposal⟩ }
    exact hcore.runTimer rfl
  · exact h

/-! ### Every step -/

theorem Inv.proceed (h : Inv s) (hok : s.StepOk (.proceed caller)) : Inv (s.proceed caller) := by
  rw [TimerThread.proceed]
  cases hcall : s.calls caller with
  | none => exact h
  | setupRun timer atTimePoint after =>
    have hok' : s.SetupRunOk timer atTimePoint after := by
      simpa only [StepOk, hcall] using hok
    exact (h.setupRun hok').setCall _
  | stopNoWait timer => exact (h.stopNoWait timer).setCall _
  | disposeNoWait timer => exact (h.disposeNoWait timer).setCall _
  | disposeAndWait timer =>
    dsimp only
    split
    · next hending => exact (h.noteDisposed (.inl hending)).setCall _
    · exact h.setCall _
  | disposeAndWaitLock timer =>
    obtain ⟨hlocked, hidle⟩ := h.disposeLocked timer
    dsimp only
    split
    · exact hlocked.setCall _
    · exact (hlocked.noteDisposed (.inr hidle)).setCall _
  | stopAndWait timer =>
    dsimp only
    split
    · exact h.setCall _
    · exact h.setCall _
  | stopAndWaitLock timer =>
    have hlocked : Inv (s.stopLocked timer) := h.erase noWaiting_not_wait
    dsimp only
    split_ifs
    · exact h.setCall _
    · exact hlocked.setCall _
    · exact hlocked.setCall _

theorem Inv.step (op : Op Timer) (h : Inv s) (hok : s.StepOk op) : Inv (s.step op) := by
  cases op with
  | request caller request =>
    rw [TimerThread.step, TimerThread.request]
    split
    · exact h.setCall _
    · exact h
  | proceed caller => exact h.proceed hok
  | advance elapsed =>
    refine { h with wakesInTime := fun since secs hwaits e he => ?_ }
    obtain ⟨hpos, hle⟩ := h.wakesInTime since secs hwaits e he
    have hlater : s.now ≤ s.now + elapsed := by omega
    exact ⟨hpos, hle.trans (max_le_max le_rfl hlater)⟩
  | wake => exact h.wake
  | emitted =>
    rw [TimerThread.step]
    split
    · exact h.emitted
    · exact h
  | notifyForEndNow => exact h.notifyForEndNow

/-- In every run whose steps meet their condition the queue has the entries that wait, the callbacks
run one at a time, once for an arming and not after a disposal, and the thread wakes in time. -/
theorem run_timers_kept (now : ℤ) (ops : List (Op Timer)) (hok : Along TimerThread.step StepOk (create now) ops) :
    Kept (ops.foldl TimerThread.step (create now)) :=
  (hok.foldl (fun _ op h hstep => h.step op hstep) (create_inv now)).kept

/-- An entry that waits is disposed, and is not run again. -/
theorem run_timers_kept_disposed :
    Kept ([.request (.other 0) (.runAfter 0 5), .proceed (.other 0), .wake,
      .request (.other 1) (.disposeAndWait 0), .proceed (.other 1), .proceed (.other 1),
      .request (.other 0) (.runAfter 0 1), .proceed (.other 0), .advance 5, .wake].foldl
        TimerThread.step (create 0 : TimerThread ℕ)) :=
  run_timers_kept 0 _ ⟨trivial, .inr (.inr ⟨by decide, nofun, nofun⟩), trivial, trivial, trivial, trivial, trivial,
    .inr (.inl (by decide)), trivial, trivial, trivial⟩

/-- An entry that does not wait is not marked by `DisposeAndWait`, so that it is run after it. -/
theorem not_timers_kept :
    ¬ ∀ (now : ℤ) (ops : List (Op ℕ)), Kept (ops.foldl TimerThread.step (create now)) := by
  intro h
  have hkept := h 0 [.request (.other 0) (.disposeAndWait 0), .proceed (.other 0), .proceed (.other 0),
    .request (.other 0) (.runAfter 0 0), .proceed (.other 0), .wake]
  have hbegun : NoneAfterDisposal [.begun 0, .armed 0, .disposed 0] := hkept.noneAfterDisposal
  exact hbegun.1 0 rfl (by decide)

/-- The thread waits for ever, and is not woken for an entry that is to run a second ago. -/
example : ¬ WakesInTime ([.wake, .request (.other 0) (.runAfter 0 (-1000000)), .proceed (.other 0)].foldl
    TimerThread.step (create 0 : TimerThread ℕ)) := by
  intro h
  have hsecs := (h 0 (-1000000) rfl (⟨-1000000, 3⟩, 0) (List.mem_singleton.mpr rfl)).1
  exact absurd hsecs (by decide)

/-- The clock is read before the thread begins a wait of the same length. -/
example : ¬ WakesInTime ([.request (.other 0) (.runAfter 0 10), .advance 2, .request (.other 1) (.runAfter 1 10),
    .proceed (.other 1), .wake, .proceed (.other 0)].foldl TimerThread.step (create 0 : TimerThread ℕ)) := by
  intro h
  have hbound := (h 2 10 rfl (⟨10, 4⟩, 0) (List.mem_cons_of_mem _ (List.mem_singleton.mpr rfl))).2
  exact absurd hbound (by decide)

end TimerThread

end Runs

end Fon9.Timer
