import Fon9.Fmkt.Accounting
import Fon9.Lib.Cyclic

/-! What wakes the queue: the timer, a line that is busy and says when it is ready, or a helper
that has the request in mind. It is lost when that line breaks, or that helper, while the others
that are left have refused the request. -/

namespace Fon9.Fmkt.TradingSvr

open Lib List

variable {env : Env} {m : TradingSvr} {req : ℕ}

/-- A line has answered that it is busy. -/
def HasBusyLine (m : TradingSvr) : Prop := ∃ line ∈ m.lines, m.lineAnswers line = some .busy

def HelperQueues (m : TradingSvr) : Prop := m.helper.isSome ∧ m.helperAnswer = some .queuing

/-- Something will have the queue tried again. -/
def HasWaker (m : TradingSvr) : Prop := m.flowControlTimer.isSome ∨ m.HasBusyLine ∨ m.HelperQueues

/-- Where requests wait and a line is ready, something wakes them. -/
def Woken (m : TradingSvr) : Prop := m.reqQueue ≠ [] → m.lines ≠ [] → m.HasWaker

instance (m : TradingSvr) : Decidable m.HasBusyLine := inferInstanceAs (Decidable (∃ line ∈ m.lines, _))

instance (m : TradingSvr) : Decidable m.HelperQueues := inferInstanceAs (Decidable (_ ∧ _))

instance (m : TradingSvr) : Decidable m.HasWaker := inferInstanceAs (Decidable (_ ∨ _ ∨ _))

instance (m : TradingSvr) : Decidable m.Woken := inferInstanceAs (Decidable (_ → _ → _))

/-! ### The lines are asked -/

theorem wrapLastIndex_lt (h : m.lines ≠ []) : m.wrapLastIndex.lastIndex < m.lines.length := by
  have hpos := length_pos_iff.mpr h
  show (if m.lines.length ≤ m.lastIndex then 0 else m.lastIndex) < m.lines.length
  split <;> omega

/-- The lines are asked for a request: some may go, and where it is to wait there is a reason. -/
structure Asked (m : TradingSvr) (r : SendRequestResult × TradingSvr) : Prop where
  lines : r.2.lines.Sublist m.lines
  wakes : r.1 = .queuing → r.2.flowControlTimer.isSome ∨ r.2.HasBusyLine

theorem Asked.mono {m₁ : TradingSvr} {r : SendRequestResult × TradingSvr} (h : Asked m₁ r)
    (hlines : m₁.lines.Sublist m.lines) : Asked m r := ⟨h.lines.trans hlines, h.wakes⟩

theorem lines_lineSent (utcNow : ℤ) : (m.lineSent env utcNow).lines = m.lines := by
  rw [lineSent]
  split
  · rfl
  · rfl

/-- A line has been passed that is busy. Each line is asked once, so that its answer stays. -/
theorem askLines_asked (utcNow : ℤ) (remaining : ℕ) (m : TradingSvr) (resFlowControl : Option ℕ) (hasBusyLine : Bool)
    (hnodup : m.lines.Nodup) (hremaining : remaining ≤ m.lines.length)
    (hbusy : hasBusyLine = true → ∃ line ∈ passed m.lines m.lastIndex remaining, m.lineAnswers line = some .busy) :
    Asked m (askLines env req utcNow remaining m resFlowControl hasBusyLine) := by
  induction remaining generalizing m resFlowControl hasBusyLine with
  | zero =>
    cases resFlowControl with
    | some interval => exact ⟨List.Sublist.refl _, fun _ => .inl rfl⟩
    | none =>
      cases hasBusyLine with
      | true =>
        obtain ⟨line, hline, hanswer⟩ := hbusy rfl
        exact ⟨List.Sublist.refl _, fun _ => .inr ⟨line, passed_subset _ _ _ hline, hanswer⟩⟩
      | false => exact ⟨List.Sublist.refl _, fun h => by cases h⟩
  | succ remaining ih =>
    have hlt : m.wrapLastIndex.lastIndex < m.lines.length :=
      wrapLastIndex_lt (ne_nil_of_length_pos (by omega))
    generalize hj : m.wrapLastIndex.lastIndex = j at hlt
    have hanswers : (m.wrapLastIndex.askLine env).2.lineAnswers =
        Function.update m.lineAnswers m.lines[j] (some (m.wrapLastIndex.askLine env).1) := by
      have hget : m.lines.getD j 0 = m.lines[j] := by
        rw [getD_eq_getElem?_getD, getElem?_eq_getElem hlt, Option.getD_some]
      rw [← hget, ← hj]
      rfl
    -- the busy lines that have been passed are not asked again
    have hpassed : hasBusyLine = true → ∃ line ∈ passed m.lines j (remaining + 1),
        (m.wrapLastIndex.askLine env).2.lineAnswers line = some .busy := by
      intro hb
      obtain ⟨line, hline, hanswer⟩ := hbusy hb
      have hwrap : passed m.lines j (remaining + 1) = passed m.lines m.lastIndex (remaining + 1) := by
        rw [← hj]
        exact congrArg (List.drop (remaining + 1)) (roundFrom_wrap m.lines m.lastIndex)
      rw [← hwrap] at hline
      refine ⟨line, hline, ?_⟩
      rw [hanswers, Function.update_of_ne, hanswer]
      rintro rfl
      exact not_mem_passed hnodup hlt hline
    have hnext : passed m.lines (j + 1) remaining = passed m.lines j (remaining + 1) ++ [m.lines[j]] :=
      passed_succ hlt (by omega)
    have hlines : (m.wrapLastIndex.askLine env).2.lines = m.lines := rfl
    have hindex : (m.wrapLastIndex.askLine env).2.lastIndex = j := hj
    rw [askLines]
    generalize m.wrapLastIndex.askLine env = r at hanswers hpassed hlines hindex
    obtain ⟨res, m'⟩ := r
    dsimp only at hanswers hpassed hlines hindex ⊢
    have hgo : ∀ (resFlowControl : Option ℕ) (hasBusyLine' : Bool),
        (hasBusyLine' = true → hasBusyLine = true ∨ res = .busy) →
        Asked m (askLines env req utcNow remaining m'.nextLine resFlowControl hasBusyLine') := by
      intro resFlowControl hasBusyLine' hor
      refine (ih m'.nextLine _ _ (hlines ▸ hnodup) (hlines ▸ Nat.le_of_succ_le hremaining) fun hb => ?_).mono
        (hlines ▸ List.Sublist.refl _)
      show ∃ line ∈ passed m'.lines (m'.lastIndex + 1) remaining, m'.lineAnswers line = _
      rw [hlines, hindex, hnext]
      rcases hor hb with hold | hnew
      · obtain ⟨line, hline, hanswer⟩ := hpassed hold
        exact ⟨line, mem_append_left _ hline, hanswer⟩
      · refine ⟨m.lines[j], mem_append_right _ (mem_singleton.mpr rfl), ?_⟩
        rw [hanswers, Function.update_self, hnew]
    cases res with
    | sent => exact ⟨(lines_lineSent utcNow).trans hlines ▸ List.Sublist.refl _, fun h => by cases h⟩
    | flowControl interval => exact hgo _ _ .inl
    | rejectRequest => exact ⟨hlines ▸ List.Sublist.refl _, fun h => by cases h⟩
    | notSupport => exact hgo _ _ .inl
    | busy => exact hgo _ _ fun _ => .inr rfl
    | broken =>
      have herase : m'.eraseLine.lines = m.lines.eraseIdx j := by
        show m'.lines.eraseIdx m'.lastIndex = _
        rw [hlines, hindex]
      have hsub : (m.lines.eraseIdx j).Sublist m.lines := eraseIdx_sublist _ _
      dsimp only
      split
      · exact ⟨herase ▸ hsub, fun h => by cases h⟩
      · refine (ih m'.eraseLine _ _ (herase ▸ hnodup.sublist hsub) ?_ fun hb => ?_).mono (herase ▸ hsub)
        · rw [herase, length_eraseIdx_of_lt hlt]
          omega
        · obtain ⟨line, hline, hanswer⟩ := hpassed hb
          refine ⟨line, ?_, hanswer⟩
          show line ∈ passed m'.eraseLine.lines m'.lastIndex remaining
          rw [herase, hindex, passed_eraseIdx hlt]
          exact hline

theorem lines_selectLine : (m.selectLine env).2.lines = m.lines := by
  rw [selectLine]
  split_ifs
  · dsimp only
    split_ifs <;> rfl
  · rfl

theorem byLinesOnly_asked (env : Env) (req : ℕ) (h : m.lines.Nodup) : Asked m (sendRequest_ByLinesOnly env req m) := by
  rw [sendRequest_ByLinesOnly]
  split
  · exact ⟨List.Sublist.refl _, fun h => by cases h⟩
  · refine (askLines_asked _ _ _ none false ?_ le_rfl fun hb => absurd hb Bool.false_ne_true).mono ?_
    · rw [lines_selectLine]
      exact h
    · rw [lines_selectLine]

/-! ### The helper is asked -/

/-- Nothing has changed that wakes the queue. -/
structure SameWaker (m m' : TradingSvr) : Prop where
  lines : m'.lines = m.lines
  flowControlTimer : m'.flowControlTimer = m.flowControlTimer
  lineAnswers : m'.lineAnswers = m.lineAnswers
  helper : m'.helper = m.helper
  helperAnswer : m'.helperAnswer = m.helperAnswer

theorem SameWaker.refl (m : TradingSvr) : SameWaker m m := ⟨rfl, rfl, rfl, rfl, rfl⟩

theorem SameWaker.trans {m₁ m₂ m₃ : TradingSvr} (h : SameWaker m₁ m₂) (h' : SameWaker m₂ m₃) : SameWaker m₁ m₃ :=
  ⟨h'.lines.trans h.lines, h'.flowControlTimer.trans h.flowControlTimer, h'.lineAnswers.trans h.lineAnswers,
    h'.helper.trans h.helper, h'.helperAnswer.trans h.helperAnswer⟩

theorem SameWaker.tick (m : TradingSvr) : SameWaker m m.tick := ⟨rfl, rfl, rfl, rfl, rfl⟩

theorem SameWaker.settle (m : TradingSvr) (req : ℕ) (outcome : Outcome) : SameWaker m (m.settle req outcome) :=
  ⟨rfl, rfl, rfl, rfl, rfl⟩

theorem SameWaker.helped (m : TradingSvr) (req : ℕ) (res : SendRequestResult) : SameWaker m (m.helped req res) := by
  cases res with
  | sent => exact .settle m req _
  | rejectRequest => exact .settle m req _
  | requestEnd => exact .settle m req _
  | queuing => exact .refl m
  | noReadyLine => exact .refl m

theorem SameWaker.hasBusyLine {m' : TradingSvr} (h : SameWaker m m') : m'.HasBusyLine ↔ m.HasBusyLine := by
  rw [HasBusyLine, h.lines, h.lineAnswers, HasBusyLine]

theorem SameWaker.hasWaker {m' : TradingSvr} (h : SameWaker m m') : m'.HasWaker ↔ m.HasWaker := by
  rw [HasWaker, h.hasBusyLine, h.flowControlTimer, HelperQueues, h.helper, h.helperAnswer, HasWaker, HelperQueues]

/-- The answer of the helper is all that is new. -/
theorem askHelper_wakers (env : Env) (req : ℕ) (m : TradingSvr) :
    SameWaker { m with helperAnswer := some (askHelper env req m).1 } (askHelper env req m).2 :=
  (SameWaker.tick { m with helperAnswer := some (askHelper env req m).1 }).trans (.helped _ req _)

/-- A request is tried: some lines may go, and where it is to wait something will wake it. -/
structure Woke (m : TradingSvr) (r : SendRequestResult × TradingSvr) : Prop where
  lines : r.2.lines.Sublist m.lines
  wakes : r.1 = .queuing → r.2.HasWaker

theorem byLinesOrHelper_woke (env : Env) (req : ℕ) (h : m.lines.Nodup) :
    Woke m (sendRequest_ByLinesOrHelper env req m) := by
  have hasked := byLinesOnly_asked env req h
  have htried := @byLinesOnly_tried env req m
  rw [sendRequest_ByLinesOrHelper]
  generalize sendRequest_ByLinesOnly env req m = r at hasked htried
  obtain ⟨hlines, hwakes⟩ := hasked
  cases htried with
  | @waits m' hbook =>
    dsimp only
    split
    · -- a line has a reason for the queue, whatever the helper says
      have hsame := askHelper_wakers env req m'
      refine ⟨hsame.lines ▸ hlines, fun _ => hsame.hasWaker.mpr ?_⟩
      rcases hwakes rfl with htimer | hbusy
      · exact .inl htimer
      · exact .inr (.inl hbusy)
    · exact ⟨hlines, fun _ => (hwakes rfl).elim .inl fun hbusy => .inr (.inl hbusy)⟩
  | @refused m' hbook =>
    dsimp only
    split
    · next hhelper =>
      have hsame := askHelper_wakers env req m'
      split
      · exact ⟨hsame.lines ▸ hlines, fun hqueuing => hsame.hasWaker.mpr (.inr (.inr ⟨hhelper, congrArg some hqueuing⟩))⟩
      · exact ⟨hsame.lines ▸ hlines, fun h => by cases h⟩
    · exact ⟨hlines, fun h => by cases h⟩
  | sent hbook => exact ⟨hlines, fun h => by cases h⟩
  | rejected hbook => exact ⟨hlines, fun h => by cases h⟩

/-! ### The queue is tried -/

/-- The queue is left empty, or with something that wakes it. -/
theorem sendReqQueueLoop_woken (turns : ℕ) (m : TradingSvr) (h : m.lines.Nodup) (hturns : m.reqQueue.length ≤ turns) :
    (sendReqQueueLoop env turns m).lines.Nodup ∧ (sendReqQueueLoop env turns m).Woken := by
  induction turns generalizing m with
  | zero => exact ⟨h, fun hqueue => absurd (length_eq_zero_iff.mp (Nat.le_zero.mp hturns)) hqueue⟩
  | succ turns ih =>
    rw [sendReqQueueLoop]
    cases hqueue : m.reqQueue with
    | nil => exact ⟨h, fun hne => absurd hqueue hne⟩
    | cons req rest =>
      obtain ⟨hlines, hwakes⟩ := byLinesOrHelper_woke env req h
      have hkeeps := (byLinesOrHelper_tried env req m).reqQueue
      dsimp only
      split
      · next hres => exact ⟨h.sublist hlines, fun _ _ => hwakes hres⟩
      · refine ih _ (h.sublist hlines) ?_
        show (sendRequest_ByLinesOrHelper env req m).2.reqQueue.tail.length ≤ turns
        rw [hkeeps, length_tail]
        omega

theorem sendReqQueue_woken (env : Env) (h : m.lines.Nodup) :
    (sendReqQueue env m).lines.Nodup ∧ (sendReqQueue env m).Woken := sendReqQueueLoop_woken _ m h le_rfl

theorem sendReqQueueByOfferLoop_wakers (turns : ℕ) (m : TradingSvr) :
    SameWaker m (sendReqQueueByOfferLoop env turns m) ∧
      ((sendReqQueueByOfferLoop env turns m).reqQueue ≠ [] → m.reqQueue ≠ []) := by
  induction turns generalizing m with
  | zero => exact ⟨.refl m, id⟩
  | succ turns ih =>
    rw [sendReqQueueByOfferLoop]
    cases hqueue : m.reqQueue with
    | nil => exact ⟨.refl m, fun hne => absurd hqueue hne⟩
    | cons req rest =>
      refine ⟨?_, fun _ => cons_ne_nil req rest⟩
      dsimp only
      split
      · exact .tick m
      · have hpop : SameWaker m (m.tick.helped req (env.offerAnswer m.ticks)).popFront :=
          ((SameWaker.tick m).trans (.helped _ req _)).trans ⟨rfl, rfl, rfl, rfl, rfl⟩
        exact hpop.trans (ih _).1

theorem checkOpLoop_wakers (rest : List ℕ) (i : ℕ) (m : TradingSvr) :
    SameWaker m (checkOpLoop env req i rest m).2 := by
  induction rest generalizing i m with
  | nil => exact .refl m
  | cons target rest ih =>
    rw [checkOpLoop]
    cases env.opQueuingRequest m.ticks with
    | notSupported => exact .tick m
    | thisDone => exact (SameWaker.tick m).trans (.settle _ _ _)
    | allDone => exact ⟨rfl, rfl, rfl, rfl, rfl⟩
    | targetDone => exact ⟨rfl, rfl, rfl, rfl, rfl⟩
    | notTarget => exact (SameWaker.tick m).trans (ih (i + 1) m.tick)

theorem Woken.of_sameWaker {m' : TradingSvr} (h : m.Woken) (hqueue : m.reqQueue ≠ []) (hsame : SameWaker m m') :
    m'.Woken := fun _ hlines => hsame.hasWaker.mpr (h hqueue (hsame.lines ▸ hlines))

/-! ### Calls -/

theorem sendRequest_woken (env : Env) (req : ℕ) (hnodup : m.lines.Nodup) (h : m.Woken) :
    (sendRequest env req m).lines.Nodup ∧ (sendRequest env req m).Woken := by
  rw [sendRequest]
  by_cases hqueue : (m.submit req).reqQueue = []
  · obtain ⟨hlines, hwakes⟩ := byLinesOrHelper_woke (m := m.submit req) env req hnodup
    have hkeeps := (byLinesOrHelper_tried env req (m.submit req)).reqQueue
    rw [if_pos hqueue]
    split
    · refine ⟨hnodup.sublist hlines, fun hne => absurd ?_ hne⟩
      rw [hkeeps, hqueue]
    · next hres => exact ⟨hnodup.sublist hlines, fun _ _ => hwakes (not_not.mp hres)⟩
  · rw [if_neg hqueue]
    have hsame : SameWaker m (checkOpQueuingRequest env req (m.submit req)).2 := by
      rw [checkOpQueuingRequest]
      split
      · exact (⟨rfl, rfl, rfl, rfl, rfl⟩ : SameWaker m (m.submit req).tick).trans (checkOpLoop_wakers _ _ _)
      · exact ⟨rfl, rfl, rfl, rfl, rfl⟩
    split
    · exact ⟨hsame.lines ▸ hnodup, h.of_sameWaker hqueue hsame⟩
    · have hpush : SameWaker m (requestPushToQueue (checkOpQueuingRequest env req (m.submit req)).2 req) :=
        hsame.trans ⟨rfl, rfl, rfl, rfl, rfl⟩
      exact ⟨hpush.lines ▸ hnodup, h.of_sameWaker hqueue hpush⟩

theorem onAskFor_woken (env : Env) (req : ℕ) (hnodup : m.lines.Nodup) (h : m.Woken) :
    (onAskFor_SendRequest_FromLocal env req m).lines.Nodup ∧ (onAskFor_SendRequest_FromLocal env req m).Woken := by
  rw [onAskFor_SendRequest_FromLocal]
  by_cases hqueue : (m.submit req).reqQueue = []
  · obtain ⟨hlines, -⟩ := byLinesOnly_asked (m := m.submit req) env req hnodup
    have hkeeps := (@byLinesOnly_tried env req (m.submit req)).reqQueue
    rw [if_pos hqueue]
    split
    · refine ⟨hnodup.sublist hlines, fun hne => absurd ?_ hne⟩
      show (sendRequest_ByLinesOnly env req (m.submit req)).2.reqQueue = []
      rw [hkeeps, hqueue]
    · refine ⟨hnodup.sublist hlines, fun hne => absurd ?_ hne⟩
      rw [hkeeps, hqueue]
  · rw [if_neg hqueue, if_pos (.inl rfl)]
    exact ⟨hnodup, h.of_sameWaker hqueue ⟨rfl, rfl, rfl, rfl, rfl⟩⟩

theorem addLine_nodup (src : ℕ) (h : m.lines.Nodup) : (m.addLine src).lines.Nodup := by
  rw [addLine]
  split
  · next hnone =>
    show (m.lines ++ [src]).Nodup
    rw [← concat_eq_append]
    exact h.concat (idxOf?_eq_none_iff.mp hnone)
  · exact h

/-- What has become unsendable is cleared, so that nothing is left to be woken. -/
theorem clearUnlessSendable_woken_iff (env : Env) (m : TradingSvr) : (clearUnlessSendable env m).Woken ↔ m.Woken := by
  rw [clearUnlessSendable]
  split
  · exact Iff.rfl
  · next hnot =>
    have hempty : m.lines = [] := by
      by_contra hne
      exact hnot (by rw [isSendable, decide_eq_true hne]; rfl)
    have hbook := congrArg Book.queue (clearReqQueue_book m.tick)
    exact iff_of_true (fun hne => absurd hbook hne) fun _ hne => absurd hempty hne

theorem lines_clearReqQueue (m : TradingSvr) : m.clearReqQueue.lines = m.lines := by
  have hfold : ∀ (reqs : List ℕ) (m : TradingSvr),
      (reqs.foldl (fun m req => (noReadyLineReject m req).2) m).lines = m.lines := by
    intro reqs
    induction reqs with
    | nil => exact fun _ => rfl
    | cons req reqs ih => exact fun m => ih (noReadyLineReject m req).2
  exact hfold m.reqQueue { m with reqQueue := [] }

theorem lines_clearUnlessSendable (env : Env) (m : TradingSvr) : (clearUnlessSendable env m).lines = m.lines := by
  rw [clearUnlessSendable]
  split
  · rfl
  · exact lines_clearReqQueue m.tick

/-! ### Steps -/

/-- A line or a helper goes, and with it what would have woken the queue: it has answered that it
is busy, or that the request is to wait, no other one has, and the lines that are left have
refused. -/
def StepOk (env : Env) (m : TradingSvr) : Op → Prop
  | .tradingLineBroken src =>
    src ∈ m.lines → m.lineAnswers src = some .busy → m.reqQueue ≠ [] → (∃ line ∈ m.lines, line ≠ src) →
      m.flowControlTimer.isSome ∨ (∃ line ∈ m.lines, line ≠ src ∧ m.lineAnswers line = some .busy) ∨ m.HelperQueues
  | .updateHelper helper =>
    (helper.isSome && env.isHelperReady m.ticks) = false → m.HelperQueues → m.reqQueue ≠ [] → m.lines ≠ [] →
      m.flowControlTimer.isSome ∨ m.HasBusyLine
  | .updateHelperBroken =>
    m.HelperQueues → m.reqQueue ≠ [] → m.lines ≠ [] → m.flowControlTimer.isSome ∨ m.HasBusyLine
  | _ => True

theorem mem_removeLine {src i line : ℕ} (hnodup : m.lines.Nodup) (hi : m.lines.idxOf? src = some i) :
    src ∈ m.lines ∧ (line ∈ (m.removeLine i).lines ↔ line ∈ m.lines ∧ line ≠ src) := by
  obtain ⟨hlt, hget, -⟩ := idxOf?_eq_some_iff.mp hi
  have hperm := getElem_cons_eraseIdx_perm hlt
  rw [hget] at hperm
  have hnot : src ∉ m.lines.eraseIdx i := (nodup_cons.mp (hperm.nodup_iff.mpr hnodup)).1
  refine ⟨hperm.subset mem_cons_self, ?_⟩
  rw [← hperm.mem_iff, mem_cons]
  constructor
  · intro hline
    refine ⟨.inr hline, ?_⟩
    rintro rfl
    exact hnot hline
  · rintro ⟨rfl | hline, hne⟩
    · exact absurd rfl hne
    · exact hline

theorem removeLine_woken_iff {src i : ℕ} (env : Env) (hnodup : m.lines.Nodup) (h : m.Woken)
    (hi : m.lines.idxOf? src = some i) : (m.removeLine i).Woken ↔ StepOk env m (.tradingLineBroken src) := by
  have hmem := fun line => (@mem_removeLine m src i line hnodup hi).2
  have hsrc := (@mem_removeLine m src i src hnodup hi).1
  have hbusy : (m.removeLine i).HasBusyLine ↔ ∃ line ∈ m.lines, line ≠ src ∧ m.lineAnswers line = some .busy := by
    simp only [HasBusyLine, hmem, and_assoc]
    exact Iff.rfl
  have hne : (m.removeLine i).lines ≠ [] ↔ ∃ line ∈ m.lines, line ≠ src := by
    simp only [ne_eq, eq_nil_iff_forall_not_mem, hmem, not_forall, not_not]
  have hwaker : (m.removeLine i).HasWaker ↔
      m.flowControlTimer.isSome ∨ (∃ line ∈ m.lines, line ≠ src ∧ m.lineAnswers line = some .busy) ∨ m.HelperQueues := by
    rw [← hbusy]
    exact Iff.rfl
  constructor
  · exact fun hwoken _ _ hqueue hlines => hwaker.mp (hwoken hqueue (hne.mpr hlines))
  · intro hok hqueue hlines
    rw [hwaker]
    by_cases hanswer : m.lineAnswers src = some .busy
    · exact hok hsrc hanswer hqueue (hne.mp hlines)
    · -- the line that goes has not been what wakes the queue
      rcases h hqueue (ne_nil_of_mem hsrc) with htimer | ⟨line, hline, hlineBusy⟩ | hhelper
      · exact .inl htimer
      · refine .inr (.inl ⟨line, hline, ?_, hlineBusy⟩)
        rintro rfl
        exact hanswer hlineBusy
      · exact .inr (.inr hhelper)

theorem setHelper_woken_iff (helper : Option ℕ) (h : m.Woken) :
    (m.setHelper helper).Woken ↔
      (m.HelperQueues → m.reqQueue ≠ [] → m.lines ≠ [] → m.flowControlTimer.isSome ∨ m.HasBusyLine) := by
  have hwaker : (m.setHelper helper).HasWaker ↔ m.flowControlTimer.isSome ∨ m.HasBusyLine := by
    have hnot : ¬ (m.setHelper helper).HelperQueues := fun hq => nomatch hq.2
    constructor
    · rintro (htimer | hbusy | hhelper)
      · exact .inl htimer
      · exact .inr hbusy
      · exact absurd hhelper hnot
    · exact fun hor => hor.elim .inl fun hbusy => .inr (.inl hbusy)
  constructor
  · exact fun hwoken _ hqueue hlines => hwaker.mp (hwoken hqueue hlines)
  · intro hok hqueue hlines
    rw [hwaker]
    rcases h hqueue hlines with htimer | hbusy | hhelper
    · exact .inl htimer
    · exact .inr hbusy
    · exact hok hhelper hqueue hlines

/-- A step keeps the queue woken exactly if it meets its condition. -/
theorem step_woken_iff (env : Env) (op : Op) (hnodup : m.lines.Nodup) (h : m.Woken) :
    (step env m op).lines.Nodup ∧ ((step env m op).Woken ↔ StepOk env m op) := by
  have hyes : ∀ {m' : TradingSvr}, m'.lines.Nodup ∧ m'.Woken → m'.lines.Nodup ∧ (m'.Woken ↔ True) :=
    fun h' => ⟨h'.1, iff_of_true h'.2 trivial⟩
  cases op with
  | sendRequest req => exact hyes (sendRequest_woken env req hnodup h)
  | onAskFor req => exact hyes (onAskFor_woken env req hnodup h)
  | tradingLineReady src => exact hyes (sendReqQueue_woken env (addLine_nodup src hnodup))
  | tradingLineBroken src =>
    show (onTradingLineBroken env src m).lines.Nodup ∧ ((onTradingLineBroken env src m).Woken ↔ _)
    rw [onTradingLineBroken]
    split
    · next hnone => exact ⟨hnodup, iff_of_true h fun hsrc => absurd hsrc (idxOf?_eq_none_iff.mp hnone)⟩
    · next i hi =>
      rw [lines_clearUnlessSendable, clearUnlessSendable_woken_iff]
      exact ⟨hnodup.sublist (eraseIdx_sublist _ _), removeLine_woken_iff env hnodup h hi⟩
  | timer =>
    show (emitOnTimer env m).lines.Nodup ∧ ((emitOnTimer env m).Woken ↔ True)
    rw [emitOnTimer]
    split
    · dsimp only
      split
      · next hnil => exact ⟨hnodup, iff_of_true (fun _ hlines => absurd hnil hlines) trivial⟩
      · exact hyes (sendReqQueue_woken (m := { m with flowControlTimer := none }) env hnodup)
    · exact ⟨hnodup, iff_of_true h trivial⟩
  | updateHelper helper =>
    show (updateHelper env helper m).lines.Nodup ∧ ((updateHelper env helper m).Woken ↔ _)
    rw [updateHelper]
    split
    · next hready =>
      obtain ⟨hnodup', hwoken⟩ := sendReqQueue_woken (m := (m.setHelper helper).tick) env hnodup
      exact ⟨hnodup', iff_of_true hwoken fun hnot => absurd (hready.symm.trans hnot) (by decide)⟩
    · next hready =>
      rw [onHelperBroken, lines_clearUnlessSendable, clearUnlessSendable_woken_iff]
      refine ⟨hnodup, (setHelper_woken_iff helper h).trans ?_⟩
      exact ⟨fun hok _ => hok, fun hok => hok (Bool.eq_false_iff.mpr hready)⟩
  | updateHelperReady => exact hyes (sendReqQueue_woken (m := m.setHelper m.helper) env hnodup)
  | updateHelperBroken =>
    show (onHelperBroken env (m.setHelper m.helper)).lines.Nodup ∧ ((onHelperBroken env (m.setHelper m.helper)).Woken ↔ _)
    rw [onHelperBroken, lines_clearUnlessSendable, clearUnlessSendable_woken_iff]
    exact ⟨hnodup, setHelper_woken_iff m.helper h⟩
  | sendReqQueueByOffer =>
    obtain ⟨hsame, hqueue⟩ := @sendReqQueueByOfferLoop_wakers env m.reqQueue.length m
    refine hyes ⟨hsame.lines ▸ hnodup, fun hne => ?_⟩
    exact h.of_sameWaker (hqueue hne) hsame hne

/-! ### Runs -/

/-- Every request is in one place and the queue is left in its order, in every state of every
run; and something wakes the queue throughout a run exactly if all of its steps meet their
condition. -/
theorem run_kept_and_woken (env : Env) (ops : List Op) :
    Throughout (step env) (fun m => m.book.Kept) {} ops ∧
      (Throughout (step env) Woken {} ops ↔ Along (step env) (StepOk env) {} ops) := by
  constructor
  · have hthrough : ∀ (ops : List Op) (m : TradingSvr), m.book.Kept →
        Throughout (step env) (fun m => m.book.Kept) m ops := by
      intro ops
      induction ops with
      | nil => exact fun _ h => h
      | cons op ops ih => exact fun m h => ⟨h, ih _ ((step_steps env m op).kept h)⟩
    exact hthrough ops {} ⟨fun _ => rfl, nofun, List.Sublist.refl []⟩
  · have hstart : ({} : TradingSvr).lines.Nodup ∧ ({} : TradingSvr).Woken := ⟨List.nodup_nil, fun hne => absurd rfl hne⟩
    refine throughout_iff_along (I := fun m : TradingSvr => m.lines.Nodup ∧ m.Woken) (fun _ h => h.2) ?_ ?_ hstart
    · rintro m op ⟨hnodup, h⟩ hok
      obtain ⟨hnodup', hiff⟩ := step_woken_iff env op hnodup h
      exact ⟨hnodup', hiff.mpr hok⟩
    · rintro m op ⟨hnodup, h⟩ hwoken
      exact (step_woken_iff env op hnodup h).2.mp hwoken

/-- The first line asked is busy, the others do not support the request. -/
def busyOrNotSupport : Env where
  lineAnswer n := if n = 0 then .busy else .notSupport
  helperAnswer _ := .noReadyLine
  offerAnswer _ := .noReadyLine
  isHelperReady _ := false
  preOpQueuingRequest _ := false
  opQueuingRequest _ := .notSupported
  utcNow _ := 0
  lineFlowCount _ := 0
  lineFlowInterval _ := 0
  tryLastLine := false

/-- Line 0 breaks and leaves a request behind that line 1 has refused. -/
theorem not_woken : ¬ ∀ (env : Env) (ops : List Op), Throughout (step env) Woken {} ops := by
  intro h
  have hrun := h busyOrNotSupport [.tradingLineReady 0, .tradingLineReady 1, .sendRequest 7, .tradingLineBroken 0]
  have hlast : Woken ([Op.tradingLineReady 0, .tradingLineReady 1, .sendRequest 7, .tradingLineBroken 0].foldl
      (step busyOrNotSupport) {}) := hrun.2.2.2.2
  exact absurd hlast (by decide)

end Fon9.Fmkt.TradingSvr
