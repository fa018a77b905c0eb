import Fon9.Fmkt.Book
import Fon9.Lib.Run

/-! The manager keeps books: each of its calls is a series of steps of the book. -/

namespace Fon9.Fmkt.TradingSvr

variable {env : Env} {m : TradingSvr} {req : ℕ}

/-- What has become of the requests. -/
def book (m : TradingSvr) : Book := ⟨m.reqQueue, m.submitted, m.settled, m.pushed⟩

@[simp] theorem book_tick : m.tick.book = m.book := rfl

@[simp] theorem book_settle (outcome : Outcome) : (m.settle req outcome).book = m.book.settle req outcome := rfl

@[simp] theorem book_wrapLastIndex : m.wrapLastIndex.book = m.book := rfl

@[simp] theorem book_askLine : (m.askLine env).2.book = m.book := rfl

@[simp] theorem book_nextLine : m.nextLine.book = m.book := rfl

@[simp] theorem book_eraseLine : m.eraseLine.book = m.book := rfl

@[simp] theorem book_lineSent (utcNow : ℤ) : (m.lineSent env utcNow).book = m.book := by
  rw [lineSent]
  split
  · rfl
  · rfl

@[simp] theorem book_selectLine : (m.selectLine env).2.book = m.book := by
  rw [selectLine]
  split_ifs <;> first | rfl | (dsimp only; split_ifs <;> rfl)

/-- A request is tried: it is to wait and stays where it is, or it leaves. -/
inductive Tried (req : ℕ) (m : TradingSvr) : SendRequestResult × TradingSvr → Prop
  | waits {m' : TradingSvr} (h : m'.book = m.book) : Tried req m (.queuing, m')
  | leaves {res : SendRequestResult} {m' : TradingSvr} (outcome : Outcome) (hres : res ≠ .queuing)
      (h : m'.book = m.book.settle req outcome) : Tried req m (res, m')

variable {r : SendRequestResult × TradingSvr}

theorem Tried.reqQueue (h : Tried req m r) : r.2.reqQueue = m.reqQueue := by
  cases h with
  | waits h => exact congrArg Book.queue h
  | leaves outcome hres h => exact congrArg Book.queue h

/-- The same of the lines alone, which may have refused it. -/
inductive LinesTried (req : ℕ) (m : TradingSvr) : SendRequestResult × TradingSvr → Prop
  | waits {m' : TradingSvr} (h : m'.book = m.book) : LinesTried req m (.queuing, m')
  | refused {m' : TradingSvr} (h : m'.book = m.book) : LinesTried req m (.noReadyLine, m')
  | sent {m' : TradingSvr} (h : m'.book = m.book.settle req .sent) : LinesTried req m (.sent, m')
  | rejected {m' : TradingSvr} (h : m'.book = m.book.settle req .rejected) : LinesTried req m (.rejectRequest, m')

theorem LinesTried.reqQueue (h : LinesTried req m r) :
    r.2.reqQueue = m.reqQueue := by
  cases h with
  | waits h => exact congrArg Book.queue h
  | refused h => exact congrArg Book.queue h
  | sent h => exact congrArg Book.queue h
  | rejected h => exact congrArg Book.queue h

theorem LinesTried.congr {m₁ : TradingSvr} (h : LinesTried req m₁ r) (hbook : m₁.book = m.book)
    : LinesTried req m r := by
  cases h with
  | waits h => exact .waits (h.trans hbook)
  | refused h => exact .refused (h.trans hbook)
  | sent h => exact .sent (h.trans (by rw [hbook]))
  | rejected h => exact .rejected (h.trans (by rw [hbook]))

theorem askLines_tried (utcNow : ℤ) (remaining : ℕ) (m : TradingSvr) (resFlowControl : Option ℕ)
    (hasBusyLine : Bool) : LinesTried req m (askLines env req utcNow remaining m resFlowControl hasBusyLine) := by
  induction remaining generalizing m resFlowControl hasBusyLine with
  | zero =>
    cases resFlowControl with
    | some interval => exact .waits rfl
    | none =>
      cases hasBusyLine with
      | true => exact .waits rfl
      | false => exact .refused rfl
  | succ remaining ih =>
    rw [askLines]
    cases hres : (m.wrapLastIndex.askLine env).1 with
    | sent => exact .sent (by simp)
    | flowControl interval => exact (ih _ _ _).congr (by simp)
    | rejectRequest => exact .rejected (by simp)
    | notSupport => exact (ih _ _ _).congr (by simp)
    | busy => exact (ih _ _ _).congr (by simp)
    | broken =>
      dsimp only
      split
      · exact .refused (by simp)
      · exact (ih _ _ _).congr (by simp)

theorem byLinesOnly_tried (m : TradingSvr) : LinesTried req m (sendRequest_ByLinesOnly env req m) := by
  rw [sendRequest_ByLinesOnly]
  split
  · exact .refused rfl
  · exact (askLines_tried _ _ _ _ _).congr book_selectLine

/-- The helper takes the request, or it is to wait, or it is sent back. -/
theorem book_helped (res : SendRequestResult) :
    (res = .queuing ∨ res = .noReadyLine) ∧ (m.helped req res).book = m.book ∨
      (res ≠ .queuing ∧ res ≠ .noReadyLine) ∧ ∃ outcome, (m.helped req res).book = m.book.settle req outcome := by
  cases res with
  | noReadyLine => exact .inl ⟨.inr rfl, rfl⟩
  | queuing => exact .inl ⟨.inl rfl, rfl⟩
  | rejectRequest => exact .inr ⟨⟨nofun, nofun⟩, _, rfl⟩
  | sent => exact .inr ⟨⟨nofun, nofun⟩, _, rfl⟩
  | requestEnd => exact .inr ⟨⟨nofun, nofun⟩, _, rfl⟩

theorem book_askHelper (env : Env) (req : ℕ) (m : TradingSvr) :
    ((askHelper env req m).1 = .queuing ∨ (askHelper env req m).1 = .noReadyLine) ∧
        (askHelper env req m).2.book = m.book ∨
      ((askHelper env req m).1 ≠ .queuing ∧ (askHelper env req m).1 ≠ .noReadyLine) ∧
        ∃ outcome, (askHelper env req m).2.book = m.book.settle req outcome :=
  @book_helped { m.tick with helperAnswer := some (env.helperAnswer m.ticks) } req (env.helperAnswer m.ticks)

theorem byLinesOrHelper_tried (env : Env) (req : ℕ) (m : TradingSvr) :
    Tried req m (sendRequest_ByLinesOrHelper env req m) := by
  have hlines := @byLinesOnly_tried env req m
  rw [sendRequest_ByLinesOrHelper]
  generalize sendRequest_ByLinesOnly env req m = r at hlines
  cases hlines with
  | @waits m' h =>
    dsimp only
    split
    · rcases book_askHelper env req m' with ⟨hres | hres, hbook⟩ | ⟨⟨hne, hne'⟩, outcome, hbook⟩
      · rw [hres, if_neg nofun]
        exact .waits (hbook.trans h)
      · rw [hres, if_pos rfl]
        exact .waits (hbook.trans h)
      · rw [if_neg hne']
        exact .leaves outcome hne (by rw [hbook, h])
    · exact .waits h
  | @refused m' h =>
    dsimp only
    split
    · have hhelp := book_askHelper env req m'
      generalize askHelper env req m' = a at hhelp
      obtain ⟨res, m''⟩ := a
      rcases hhelp with ⟨rfl | rfl, hbook⟩ | ⟨⟨hne, hne'⟩, outcome, hbook⟩
      · exact .waits (hbook.trans h)
      · exact .leaves .rejected nofun (by rw [book_settle, hbook, h])
      · rw [if_pos hne']
        exact .leaves outcome hne (by rw [hbook, h])
    · exact .leaves .rejected nofun (by rw [book_settle, h])
  | sent h => exact .leaves .sent nofun h
  | rejected h => exact .leaves .rejected nofun h

/-! ### The queue -/

theorem sendReqQueueLoop_steps (turns : ℕ) (m : TradingSvr) : Book.Steps m.book (sendReqQueueLoop env turns m).book := by
  induction turns generalizing m with
  | zero => exact .refl
  | succ turns ih =>
    rw [sendReqQueueLoop]
    cases hqueue : m.reqQueue with
    | nil => exact .refl
    | cons req rest =>
      have htried := byLinesOrHelper_tried env req m
      dsimp only
      generalize sendRequest_ByLinesOrHelper env req m = r at htried
      cases htried with
      | waits h =>
        rw [if_pos rfl, h]
      | @leaves res m' outcome hres h =>
        rw [if_neg hres]
        have hfront : m.book.queue.head? = some req := congrArg List.head? hqueue
        have hpop : m'.popFront.book = (m.book.settle req outcome).pop := by
          rw [← h]
          rfl
        refine .head (.front req outcome hfront) ?_
        rw [← hpop]
        exact ih m'.popFront

theorem sendReqQueue_steps (env : Env) (m : TradingSvr) : Book.Steps m.book (sendReqQueue env m).book :=
  sendReqQueueLoop_steps _ m

theorem sendReqQueueByOfferLoop_steps (turns : ℕ) (m : TradingSvr) :
    Book.Steps m.book (sendReqQueueByOfferLoop env turns m).book := by
  induction turns generalizing m with
  | zero => exact .refl
  | succ turns ih =>
    rw [sendReqQueueByOfferLoop]
    cases hqueue : m.reqQueue with
    | nil => exact .refl
    | cons req rest =>
      dsimp only
      have hfront : m.book.queue.head? = some req := congrArg List.head? hqueue
      rcases @book_helped m.tick req (env.offerAnswer m.ticks) with ⟨hres, -⟩ | ⟨⟨hne, hne'⟩, outcome, hbook⟩
      · rw [if_pos hres]
        exact .refl
      · rw [if_neg (not_or.mpr ⟨hne, hne'⟩)]
        have hpop : (m.tick.helped req (env.offerAnswer m.ticks)).popFront.book = (m.book.settle req outcome).pop :=
          congrArg Book.pop hbook
        refine .head (.front req outcome hfront) ?_
        rw [← hpop]
        exact ih _

theorem clearReqQueue_book (m : TradingSvr) : m.clearReqQueue.book = m.book.clear := by
  have hfold : ∀ (reqs : List ℕ) (m : TradingSvr), m.reqQueue = [] →
      (reqs.foldl (fun m req => (noReadyLineReject m req).2) m).book =
        { m.book with settled := m.book.settled ++ reqs.map fun req => ⟨req, .rejected, []⟩ } := by
    intro reqs
    induction reqs with
    | nil =>
      intro m _
      simp
    | cons req reqs ih =>
      intro m hm
      rw [List.foldl_cons, ih (noReadyLineReject m req).2 hm]
      show Book.mk _ _ ((m.settled ++ [⟨req, .rejected, m.reqQueue⟩]) ++ _) _ = _
      rw [hm, List.append_assoc]
      rfl
  exact hfold m.reqQueue { m with reqQueue := [] } rfl

/-- A request that comes while others wait. -/
theorem checkOpLoop_steps {b : Book} (rest : List ℕ) (i : ℕ) (m : TradingSvr) (hrest : m.reqQueue.drop i = rest)
    (hbook : m.book = b.submit req) :
    Book.Steps b (if (checkOpLoop env req i rest m).1 ≠ .queuing then (checkOpLoop env req i rest m).2
      else requestPushToQueue (checkOpLoop env req i rest m).2 req).book := by
  have hwait : Book.Steps b (requestPushToQueue m req).book := by
    have heq : (requestPushToQueue m req).book = (b.submit req).push req := congrArg (fun b => b.push req) hbook
    rw [heq]
    exact .single (.wait req)
  induction rest generalizing i m with
  | nil => exact hwait
  | cons target rest ih =>
    have hget : b.queue[i]? = some target := by
      have hqueue : m.reqQueue = b.queue := congrArg Book.queue hbook
      rw [← hqueue, ← List.head?_drop, hrest]
      rfl
    have herase : (m.tick.eraseTarget i target).book = ((b.erase i).settle target .ended).submit req :=
      congrArg (fun b => (b.erase i).settle target .ended) hbook
    rw [checkOpLoop]
    cases env.opQueuingRequest m.ticks with
    | notSupported => exact hwait
    | thisDone =>
      have heq : (m.tick.settle req .ended).book = (b.submit req).settle req .ended :=
        congrArg (fun b => b.settle req .ended) hbook
      dsimp only
      rw [if_pos nofun, heq]
      exact .single (.aside req .ended (.inl rfl))
    | allDone =>
      dsimp only
      rw [if_pos nofun, book_settle, herase]
      exact .head (.target i target hget) (.single (.aside req .ended (.inl rfl)))
    | targetDone =>
      have heq : (requestPushToQueue (m.tick.eraseTarget i target) req).book =
          (((b.erase i).settle target .ended).submit req).push req := congrArg (fun b => b.push req) herase
      dsimp only
      rw [if_neg (not_not.mpr rfl), heq]
      exact .head (.target i target hget) (.single (.wait req))
    | notTarget =>
      have hdrop : m.reqQueue.drop (i + 1) = rest := by rw [← List.tail_drop, hrest, List.tail_cons]
      exact ih (i + 1) m.tick hdrop hbook hwait

/-! ### Calls -/

theorem book_submit : (m.submit req).book = m.book.submit req := rfl

theorem sendRequest_steps (env : Env) (req : ℕ) (m : TradingSvr) : Book.Steps m.book (sendRequest env req m).book := by
  rw [sendRequest]
  by_cases hqueue : (m.submit req).reqQueue = []
  · have htried := byLinesOrHelper_tried env req (m.submit req)
    rw [if_pos hqueue]
    generalize sendRequest_ByLinesOrHelper env req (m.submit req) = r at htried
    cases htried with
    | @waits m' h =>
      have heq : (requestPushToQueue m' req).book = (m.book.submit req).push req := congrArg (fun b => b.push req) h
      rw [if_neg (not_not.mpr rfl), heq]
      exact .single (.wait req)
    | leaves outcome hres h =>
      rw [if_pos hres, h, book_submit]
      exact .single (.direct req outcome hqueue)
  · rw [if_neg hqueue, checkOpQueuingRequest]
    split
    · exact checkOpLoop_steps _ 0 (m.submit req).tick rfl rfl
    · exact @checkOpLoop_steps env req m.book [] (m.submit req).reqQueue.length (m.submit req).tick List.drop_length rfl

theorem onAskFor_steps (env : Env) (req : ℕ) (m : TradingSvr) :
    Book.Steps m.book (onAskFor_SendRequest_FromLocal env req m).book := by
  rw [onAskFor_SendRequest_FromLocal]
  by_cases hqueue : (m.submit req).reqQueue = []
  · have htried := @byLinesOnly_tried env req (m.submit req)
    rw [if_pos hqueue]
    generalize sendRequest_ByLinesOnly env req (m.submit req) = r at htried
    cases htried with
    | waits h =>
      rw [if_pos (.inl rfl), book_settle, h]
      exact .single (.aside req .returned (.inr rfl))
    | refused h =>
      rw [if_pos (.inr rfl), book_settle, h]
      exact .single (.aside req .returned (.inr rfl))
    | sent h =>
      rw [if_neg (not_or.mpr ⟨nofun, nofun⟩), h]
      exact .single (.direct req .sent hqueue)
    | rejected h =>
      rw [if_neg (not_or.mpr ⟨nofun, nofun⟩), h]
      exact .single (.direct req .rejected hqueue)
  · rw [if_neg hqueue, if_pos (.inl rfl), book_settle]
    exact .single (.aside req .returned (.inr rfl))

theorem book_addLine (src : ℕ) : (m.addLine src).book = m.book := by
  rw [addLine]
  dsimp only
  split
  · rfl
  · rfl

theorem clearUnlessSendable_steps (env : Env) (m : TradingSvr) :
    Book.Steps m.book (clearUnlessSendable env m).book := by
  rw [clearUnlessSendable]
  split
  · exact .refl
  · rw [clearReqQueue_book]
    exact .single .clear

theorem step_steps (env : Env) (m : TradingSvr) (op : Op) : Book.Steps m.book (step env m op).book := by
  cases op with
  | sendRequest req => exact sendRequest_steps env req m
  | onAskFor req => exact onAskFor_steps env req m
  | tradingLineReady src =>
    have hsteps := sendReqQueue_steps env (m.addLine src)
    rw [book_addLine] at hsteps
    exact hsteps
  | tradingLineBroken src =>
    show Book.Steps m.book (onTradingLineBroken env src m).book
    rw [onTradingLineBroken]
    split
    · exact .refl
    · next i hi => exact clearUnlessSendable_steps env (m.removeLine i)
  | timer =>
    show Book.Steps m.book (emitOnTimer env m).book
    rw [emitOnTimer]
    split
    · dsimp only
      split
      · exact .refl
      · exact sendReqQueue_steps env { m with flowControlTimer := none }
    · exact .refl
  | updateHelper helper =>
    show Book.Steps m.book (updateHelper env helper m).book
    rw [updateHelper]
    split
    · exact sendReqQueue_steps env (m.setHelper helper).tick
    · exact clearUnlessSendable_steps env (m.setHelper helper).tick
  | updateHelperReady => exact sendReqQueue_steps env (m.setHelper m.helper)
  | updateHelperBroken => exact clearUnlessSendable_steps env (m.setHelper m.helper)
  | sendReqQueueByOffer => exact sendReqQueueByOfferLoop_steps _ m

end Fon9.Fmkt.TradingSvr
