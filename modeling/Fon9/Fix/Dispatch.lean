import Fon9.Fix.Receiver

/-! What the dispatch of a message does to the core of the receiver. A message means
one of three things for the sequence, by its type and fields alone. In sequence it
takes its number, when exactly one of dispatcher and handler records it; out of
sequence it is reported as a gap, ignored, or resets the sequence. -/

namespace Fon9.Fix

open Lib

variable {σ : Type*} (env : Env σ)

variable (msg : FixMsg)

/-- The configuration and the handler of a message's type. -/
def handlerOf : Option (FixMsgTypeConfig σ × FixMsgHandler σ) :=
  (msg.getField kTagMsgType).bind fun t =>
    (env.config t).bind fun c => c.fixMsgHandler.map fun h => (c, h)

/-- What a message means for the sequence. -/
inductive Action
  | plain
  | gapFill (newSeqNo : ℕ)
  | reset (newSeqNo : ℕ)
  deriving DecidableEq

/-- The action of a `SequenceReset`; a `NewSeqNo` below the message is refused. -/
def sequenceResetAction : Action :=
  match msg.seqNumOf kTagNewSeqNo with
  | none => .plain
  | some n =>
    if msg.isFlagSet kTagGapFillFlag then if n < msg.msgSeqNum then .plain else .gapFill n
    else .reset n

def actionOf : Action :=
  match handlerOf env msg with
  | some (_, .onRecvSequenceReset) => sequenceResetAction msg
  | _ => .plain

/-- The number that should be expected after a message dispatched in sequence. -/
def nextAfter : ℕ :=
  match actionOf env msg with
  | .plain => msg.msgSeqNum + 1
  | .gapFill n => n
  | .reset n => n

/-- How often a message in sequence is recorded, by the dispatcher and by its handler. -/
def recordCount : ℕ :=
  match handlerOf env msg with
  | none => 1
  | some (c, h) =>
    (if c.fixSeqAllow.noPreRecord then 0 else 1) +
      match h with
      | .onRecvSequenceReset => if (msg.seqNumOf kTagNewSeqNo).isSome then 1 else 0
      | .onRecvResendRequest => 0
      | .user h => if h.writesConform then 1 else 0

/-- The number that is expected after a message dispatched in sequence. -/
def handledNext : ℕ :=
  match actionOf env msg with
  | .plain => (fun n => u32 (n + 1))^[recordCount env msg] msg.msgSeqNum
  | .gapFill n => n
  | .reset n => n

/-- The number a `SequenceReset` in reset mode sets. -/
def resetsTo : Option ℕ :=
  match actionOf env msg with
  | .reset n => some n
  | _ => none

/-- The flag under which a number that is too high is reported as a gap, if it is:
whether the message is kept. -/
def reports (s : FixReceiver σ) (msg : FixMsg) : Option Bool :=
  match handlerOf env msg with
  | some (c, h) =>
    if c.fixSeqAllow.tooHigh then
      match h with
      | .onRecvSequenceReset => if msg.isFlagSet kTagGapFillFlag then some false else none
      | .onRecvResendRequest => some false
      | .user h => (h.onMsg s msg .tooHigh).notExpected.map GapFlags.keepRequired
    else some c.isInfiniteTTL
  | none => some (((msg.getField kTagMsgType).bind env.config).any FixMsgTypeConfig.isInfiniteTTL)

/-- In sequence the message moves `NextRecvSeq_` as it should: on by one, or to the
`NewSeqNo` of a `SequenceReset`, a `GapFill` forward. -/
def Advances : Prop :=
  handledNext env msg = nextAfter env msg ∧ (resetsTo env msg = none → msg.msgSeqNum < nextAfter env msg)

instance (msg : FixMsg) : Decidable (Advances env msg) := inferInstanceAs (Decidable (_ ∧ _))

/-- The header of a message is in order: it has a type and the right CompIDs. -/
def Checked : Prop := (msg.getField kTagMsgType).isSome ∧ env.compIDs.check msg = 0

instance (msg : FixMsg) : Decidable (Checked env msg) := inferInstanceAs (Decidable (_ ∧ _))

namespace Core

variable (c : Core)

def note (mv : Move) : Core := { c with history.moves := c.history.moves ++ [mv] }

variable (msg : FixMsg)

def see : Core := { c with history.seen := max c.history.seen msg.msgSeqNum }

/-- A gap reported by a message, which is kept or not. -/
def gap (keep : Bool) : Core :=
  if msg.msgSeqNum ≤ c.lastGapSeqNo then c
  else
    { c with
      lastGapSeqNo := msg.msgSeqNum
      msgKeeper := if keep then c.msgKeeper ++ [msg] else c.msgKeeper
      resendRequestEndSeqNo :=
        if c.resendRequestEndSeqNo > 0 then c.resendRequestEndSeqNo
        else if keep then msg.msgSeqNum - 1 else msg.msgSeqNum
      history.kept := if keep then c.history.kept ++ [msg] else c.history.kept }

def gapIf : Option Bool → Core
  | none => c
  | some keep => c.gap msg keep

def cleared : Core :=
  { nextRecvSeq := c.nextRecvSeq
    history := { moves := c.history.moves, dones := c.history.dones } }

def recovered : Core :=
  { c with
    resendRequestEndSeqNo := 0
    lastGapSeqNo := 0
    history.dones := c.history.dones ++ [⟨c.nextRecvSeq, c.lastGapSeqNo⟩] }

/-- The sequence set to `n` by a `SequenceReset` in reset mode. -/
def reset (n : ℕ) : Core := recovered { c.cleared with nextRecvSeq := n }

/-- A message handled in sequence, before the keeper is looked at. -/
def handled (msg : FixMsg) : Core :=
  let c' : Core :=
    match actionOf env msg with
    | .plain => { c with nextRecvSeq := handledNext env msg }
    | .gapFill n =>
      { c with
        nextRecvSeq := n
        resendRequestEndSeqNo := if c.resendRequestEndSeqNo < n then 0 else c.resendRequestEndSeqNo }
    | .reset n => c.reset n
  c'.note (.dispatched msg .conform msg.msgSeqNum c'.nextRecvSeq)

/-- A message handled out of sequence. -/
def strayed (seqSt : FixSeqSt) (report : Option Bool) : Core :=
  let c' : Core :=
    match resetsTo env msg with
    | some n => c.reset n
    | none => if seqSt = .tooHigh then c.gapIf msg report else c
  c'.note (.dispatched msg seqSt c.nextRecvSeq c'.nextRecvSeq)

end Core

variable {env}

namespace FixReceiver

variable (s : FixReceiver σ) (check : FixReceiver σ → ℕ → FixReceiver σ)

@[simp] theorem write_toCore (r : Record) : (s.write r).toCore = s.toCore := rfl

@[simp] theorem send_toCore (m : Sent) : (s.send m).toCore = s.toCore := rfl

@[simp] theorem writeGap_toCore (flags : GapFlags) (r : Record) :
    (s.writeGap flags r).toCore = s.toCore := by
  unfold writeGap
  split <;> rfl

@[simp] theorem onRecoverDone_toCore :
    (s.onRecoverDone env).toCore = s.toCore.recovered := rfl

@[simp] theorem onMsgSeqNumTooLow_toCore (msg : FixMsg) :
    (s.onMsgSeqNumTooLow env msg).toCore = s.toCore := by
  unfold onMsgSeqNumTooLow
  split <;> rfl

@[simp] theorem onMsgSeqNumTooHigh_toCore (msg : FixMsg) (flags : GapFlags) :
    (s.onMsgSeqNumTooHigh msg flags).toCore = s.toCore.gap msg flags.keepRequired := by
  unfold onMsgSeqNumTooHigh Core.gap
  by_cases hlast : msg.msgSeqNum ≤ s.lastGapSeqNo
  · rw [if_pos hlast, if_pos hlast, writeGap_toCore]
  · rw [if_neg hlast, if_neg hlast]
    obtain ⟨keep, skip⟩ := flags
    by_cases hend : s.resendRequestEndSeqNo > 0
    · cases keep <;> cases skip <;>
        simp [writeGap, write, hend]
    · cases keep <;> cases skip <;>
        simp [writeGap, write, sendResendRequest, hend]

theorem onMsgSeqNumNotExpected_toCore (env : Env σ) (s : FixReceiver σ) (msg : FixMsg) (seqSt : FixSeqSt)
    (flags : GapFlags) :
    (s.onMsgSeqNumNotExpected env msg seqSt flags).toCore =
      if seqSt = .tooHigh then s.toCore.gap msg flags.keepRequired else s.toCore := by
  cases seqSt with
  | conform => rfl
  | tooHigh => exact onMsgSeqNumTooHigh_toCore s msg flags
  | tooLow => exact onMsgSeqNumTooLow_toCore s msg

theorem callUser_conform_toCore (h : UserHandler σ) (msg : FixMsg) :
    (s.callUser env h msg .conform).toCore =
      (if h.writesConform then s.writeInputConform msg else s).toCore := by
  unfold callUser
  cases hw : h.writesConform <;> simp only [Bool.false_and, Bool.true_and, decide_true, if_true,
    Bool.false_eq_true, if_false] <;> split <;> rfl

variable {seqSt : FixSeqSt} {s : FixReceiver σ} {msg : FixMsg} {n : ℕ} {h : FixMsgHandler σ}

theorem callUser_stray_toCore (s : FixReceiver σ) (h : UserHandler σ) (msg : FixMsg) (hst : seqSt ≠ .conform) :
    (s.callUser env h msg seqSt).toCore =
      if seqSt = .tooHigh then
        s.toCore.gapIf msg ((h.onMsg s msg seqSt).notExpected.map GapFlags.keepRequired)
      else s.toCore := by
  unfold callUser
  simp only [hst, decide_false, Bool.and_false, Bool.false_eq_true, if_false]
  cases (h.onMsg s msg seqSt).notExpected with
  | none =>
    show s.toCore = _
    split <;> rfl
  | some flags => exact onMsgSeqNumNotExpected_toCore env _ msg seqSt flags

theorem onRecvResendRequest_toCore (s : FixReceiver σ) (msg : FixMsg) (seqSt : FixSeqSt) :
    (s.onRecvResendRequest env msg seqSt).toCore =
      if seqSt = .tooHigh then s.toCore.gap msg false else s.toCore := by
  unfold onRecvResendRequest
  rw [onMsgSeqNumNotExpected_toCore]
  cases msg.seqNumOf kTagBeginSeqNo <;> cases msg.seqNumOf kTagEndSeqNo <;> rfl

theorem onRecvSequenceReset_plain (env : Env σ) (h : sequenceResetAction msg = .plain) :
    (s.onRecvSequenceReset env msg .conform).2 = none ∧
      (s.onRecvSequenceReset env msg .conform).1.toCore =
        if (msg.seqNumOf kTagNewSeqNo).isSome then { s.toCore with nextRecvSeq := u32 (s.nextRecvSeq + 1) }
        else s.toCore := by
  unfold sequenceResetAction at h
  unfold onRecvSequenceReset
  cases hn : msg.seqNumOf kTagNewSeqNo with
  | none => simp
  | some n =>
    rw [hn] at h
    by_cases hf : msg.isFlagSet kTagGapFillFlag
    · by_cases hlt : n < msg.msgSeqNum
      · simp [hf, hlt, writeInputConform]
      · simp [hf, hlt] at h
    · simp [hf] at h

theorem onRecvSequenceReset_gapFill (env : Env σ) (h : sequenceResetAction msg = .gapFill n) :
    (s.onRecvSequenceReset env msg .conform).2 = (if s.resendRequestEndSeqNo < n then some n else none) ∧
      (s.onRecvSequenceReset env msg .conform).1.toCore =
        { s.toCore with
          nextRecvSeq := n
          resendRequestEndSeqNo := if s.resendRequestEndSeqNo < n then 0 else s.resendRequestEndSeqNo } := by
  unfold sequenceResetAction at h
  unfold onRecvSequenceReset
  cases hn : msg.seqNumOf kTagNewSeqNo with
  | none => simp [hn] at h
  | some k =>
    by_cases hf : msg.isFlagSet kTagGapFillFlag
    · by_cases hlt : k < msg.msgSeqNum
      · simp [hn, hf, hlt] at h
      · obtain rfl : k = n := by simpa [hn, hf, hlt] using h
        by_cases hend : s.resendRequestEndSeqNo < k <;>
          simp [hf, hlt, hend, writeInputSeqReset]
    · simp [hn, hf] at h

theorem sequenceResetAction_reset (h : sequenceResetAction msg = .reset n) :
    msg.seqNumOf kTagNewSeqNo = some n ∧ msg.isFlagSet kTagGapFillFlag = false := by
  unfold sequenceResetAction at h
  cases hn : msg.seqNumOf kTagNewSeqNo with
  | none => simp [hn] at h
  | some k =>
    by_cases hf : msg.isFlagSet kTagGapFillFlag
    · by_cases hlt : k < msg.msgSeqNum <;> simp [hn, hf, hlt] at h
    · exact ⟨by simpa [hn, hf] using h, by simpa using hf⟩

theorem onRecvSequenceReset_reset (env : Env σ) (seqSt : FixSeqSt) (h : sequenceResetAction msg = .reset n) :
    (s.onRecvSequenceReset env msg seqSt).2 = none ∧
      (s.onRecvSequenceReset env msg seqSt).1.toCore = s.toCore.reset n := by
  obtain ⟨hn, hf⟩ := sequenceResetAction_reset h
  unfold onRecvSequenceReset
  simp only [hf, hn, Bool.false_and, Bool.false_eq_true, if_false, onRecoverDone_toCore, true_and]
  rfl

/-- Out of sequence a `SequenceReset` that does not reset only reports a gap. -/
theorem onRecvSequenceReset_stray (env : Env σ) (hst : seqSt ≠ .conform) (h : ∀ n, sequenceResetAction msg ≠ .reset n)
    :
    (s.onRecvSequenceReset env msg seqSt).2 = none ∧
      (s.onRecvSequenceReset env msg seqSt).1.toCore =
        if seqSt = .tooHigh then
          s.toCore.gapIf msg (if msg.isFlagSet kTagGapFillFlag then some false else none)
        else s.toCore := by
  unfold sequenceResetAction at h
  unfold onRecvSequenceReset
  by_cases hf : msg.isFlagSet kTagGapFillFlag
  · simp only [hf, hst, ne_eq, not_false_eq_true, decide_true, Bool.and_self, if_true,
      onMsgSeqNumNotExpected_toCore, true_and]
    rfl
  · cases hn : msg.seqNumOf kTagNewSeqNo with
    | none => simp [hf, Core.gapIf]
    | some n => simp [hn, hf] at h

/-- The call to `CheckMsgKeeper` a handler ends with, `endSeqNo` being the end of the
requested range before it. -/
def resume (s : FixReceiver σ) (endSeqNo : ℕ) :
    Action → FixReceiver σ
  | .gapFill n => if endSeqNo < n then check s n else s
  | _ => s

/-- The derived state after the handling of a message in sequence. -/
def handledDerived (env : Env σ) (s : FixReceiver σ) (msg : FixMsg) : σ :=
  match handlerOf env msg with
  | some (c, h) =>
    ((if c.fixSeqAllow.noPreRecord then s else s.writeInputConform msg).callHandler env h msg .conform).1.derived
  | none => s.derived

/-- What the handling of a message in sequence comes to. -/
def Taken (env : Env σ) (check : FixReceiver σ → ℕ → FixReceiver σ) (s s' : FixReceiver σ) (msg : FixMsg) : Prop :=
  ∃ s1 : FixReceiver σ, s1.toCore = s.toCore.handled env msg ∧ s1.derived = s.handledDerived env msg ∧
    s' = resume check s1 s.resendRequestEndSeqNo (actionOf env msg)

section Conform

variable {check : FixReceiver σ → ℕ → FixReceiver σ} {s : FixReceiver σ} {msg : FixMsg}

/-- A handler that leaves the number taken, and nothing else. -/
theorem Taken.of_plain (hplain : actionOf env msg = .plain) (hseq : msg.msgSeqNum = s.nextRecvSeq)
    (s1 : FixReceiver σ) (h1 : s1.toCore = { s.toCore with nextRecvSeq := handledNext env msg })
    (hd : s1.derived = s.handledDerived env msg) :
    Taken env check s (s1.noteDispatched msg .conform s.nextRecvSeq) msg := by
  refine ⟨s1.noteDispatched msg .conform s.nextRecvSeq, ?_, hd, by rw [hplain]; rfl⟩
  show s1.toCore.note (.dispatched msg .conform s.nextRecvSeq s1.toCore.nextRecvSeq) = _
  rw [h1, Core.handled, hplain, hseq]

variable {s0 : FixReceiver σ}

theorem handle_plain (hplain : actionOf env msg = .plain) (hseq : msg.msgSeqNum = s.nextRecvSeq)
    (h1 : (s0.callHandler env h msg .conform).1.toCore = { s.toCore with nextRecvSeq := handledNext env msg })
    (h2 : (s0.callHandler env h msg .conform).2 = none)
    (hd : (s0.callHandler env h msg .conform).1.derived = s.handledDerived env msg) :
    Taken env check s (s0.handle env check h msg .conform s.nextRecvSeq) msg := by
  have : s0.handle env check h msg .conform s.nextRecvSeq =
      (s0.callHandler env h msg .conform).1.noteDispatched msg .conform s.nextRecvSeq := by
    simp only [handle, h2]
  rw [this]
  exact .of_plain hplain hseq _ h1 hd

theorem handle_gapFill (haction : actionOf env msg = .gapFill n) (hact : sequenceResetAction msg = .gapFill n)
    (hseq : msg.msgSeqNum = s.nextRecvSeq) (h0 : ∃ k, s0.toCore = { s.toCore with nextRecvSeq := k })
    (hd : (s0.callHandler env .onRecvSequenceReset msg .conform).1.derived = s.handledDerived env msg) :
    Taken env check s (s0.handle env check .onRecvSequenceReset msg .conform s.nextRecvSeq) msg := by
  obtain ⟨k, h0⟩ := h0
  obtain ⟨h2, h1⟩ := onRecvSequenceReset_gapFill env (s := s0) hact
  have hend : s0.resendRequestEndSeqNo = s.resendRequestEndSeqNo := by
    have := congrArg Core.resendRequestEndSeqNo h0
    exact this
  rw [hend] at h1 h2
  refine ⟨(onRecvSequenceReset env s0 msg .conform).1.noteDispatched msg .conform s.nextRecvSeq, ?_, hd, ?_⟩
  · show Core.note _ (.dispatched msg .conform s.nextRecvSeq (Core.nextRecvSeq _)) = _
    rw [h1, h0, Core.handled, haction, hseq]
  · simp only [handle, callHandler, h2, haction, resume]
    by_cases hlt : s.resendRequestEndSeqNo < n
    · simp only [hlt, if_true]
    · simp only [hlt, if_false]

theorem handle_reset (haction : actionOf env msg = .reset n) (hact : sequenceResetAction msg = .reset n)
    (hseq : msg.msgSeqNum = s.nextRecvSeq) (h0 : ∃ k, s0.toCore = { s.toCore with nextRecvSeq := k })
    (hd : (s0.callHandler env .onRecvSequenceReset msg .conform).1.derived = s.handledDerived env msg) :
    Taken env check s (s0.handle env check .onRecvSequenceReset msg .conform s.nextRecvSeq) msg := by
  obtain ⟨k, h0⟩ := h0
  obtain ⟨h2, h1⟩ := onRecvSequenceReset_reset env (s := s0) .conform hact
  refine ⟨(onRecvSequenceReset env s0 msg .conform).1.noteDispatched msg .conform s.nextRecvSeq, ?_, hd, ?_⟩
  · show Core.note _ (.dispatched msg .conform s.nextRecvSeq (Core.nextRecvSeq _)) = _
    rw [h1, h0, Core.handled, haction, hseq]
    rfl
  · simp only [handle, callHandler, h2, haction, resume]

theorem handledNext_plain (hplain : actionOf env msg = .plain) :
    handledNext env msg = (fun n => u32 (n + 1))^[recordCount env msg] msg.msgSeqNum := by
  rw [handledNext, hplain]

theorem handle_taken {c : FixMsgTypeConfig σ} (hseq : msg.msgSeqNum = s.nextRecvSeq)
    (hh : handlerOf env msg = some (c, h)) :
    Taken env check s ((if c.fixSeqAllow.noPreRecord then s else s.writeInputConform msg).handle
      env check h msg .conform s.nextRecvSeq) msg := by
  have hd : ((if c.fixSeqAllow.noPreRecord then s else s.writeInputConform msg).callHandler
      env h msg .conform).1.derived = s.handledDerived env msg := by
    simp only [handledDerived, hh]
  cases h with
  | onRecvResendRequest =>
    have hplain : actionOf env msg = .plain := by simp [actionOf, hh]
    refine handle_plain hplain hseq ?_ rfl hd
    show (onRecvResendRequest env _ msg .conform).toCore = _
    have hcount : recordCount env msg = if c.fixSeqAllow.noPreRecord then 0 else 1 := by simp [recordCount, hh]
    rw [onRecvResendRequest_toCore, handledNext_plain hplain, hcount, hseq]
    cases c.fixSeqAllow.noPreRecord <;> rfl
  | user h =>
    have hplain : actionOf env msg = .plain := by simp [actionOf, hh]
    refine handle_plain hplain hseq ?_ rfl hd
    show (callUser env _ h msg .conform).toCore = _
    have hcount : recordCount env msg =
        (if c.fixSeqAllow.noPreRecord then 0 else 1) + if h.writesConform then 1 else 0 := by
      simp [recordCount, hh]
    rw [callUser_conform_toCore, handledNext_plain hplain, hcount, hseq]
    cases c.fixSeqAllow.noPreRecord <;> cases h.writesConform <;> rfl
  | onRecvSequenceReset =>
    have haction : actionOf env msg = sequenceResetAction msg := by simp [actionOf, hh]
    have hrest : ∃ k, (if c.fixSeqAllow.noPreRecord then s else s.writeInputConform msg).toCore =
        { s.toCore with nextRecvSeq := k } := by
      cases c.fixSeqAllow.noPreRecord
      · exact ⟨u32 (s.nextRecvSeq + 1), rfl⟩
      · exact ⟨s.nextRecvSeq, rfl⟩
    cases hact : sequenceResetAction msg with
    | plain =>
      rw [hact] at haction
      refine handle_plain haction hseq ?_ (onRecvSequenceReset_plain env hact).1 hd
      show (onRecvSequenceReset env _ msg .conform).1.toCore = _
      have hcount : recordCount env msg = (if c.fixSeqAllow.noPreRecord then 0 else 1) +
          if (msg.seqNumOf kTagNewSeqNo).isSome then 1 else 0 := by
        simp [recordCount, hh]
      rw [(onRecvSequenceReset_plain env hact).2, handledNext_plain haction, hcount, hseq]
      cases c.fixSeqAllow.noPreRecord <;> cases (msg.seqNumOf kTagNewSeqNo).isSome <;> rfl
    | gapFill n =>
      rw [hact] at haction
      exact handle_gapFill haction hact hseq hrest hd
    | reset n =>
      rw [hact] at haction
      exact handle_reset haction hact hseq hrest hd

theorem dispatchWith_conform (check : FixReceiver σ → ℕ → FixReceiver σ) (hck : Checked env msg)
    (hseq : msg.msgSeqNum = s.nextRecvSeq) :
    ∃ s1 : FixReceiver σ, Taken env check (s.see msg) s1 msg ∧
      s.dispatchWith env check msg = s1.onMessageProcessed check msg.msgSeqNum := by
  obtain ⟨hty, hcomp⟩ := hck
  obtain ⟨t, ht⟩ := Option.isSome_iff_exists.mp hty
  have hst : compareFixSeqNum msg.msgSeqNum s.nextRecvSeq = .conform := if_pos hseq
  simp only [dispatchWith, ht, hcomp, hst, ne_eq, not_true_eq_false, if_false, if_true]
  refine ⟨_, ?_, rfl⟩
  cases hh : (env.config t).bind fun c => c.fixMsgHandler.map fun h => (c, h) with
  | none =>
    have hhand : handlerOf env msg = none := by simp [handlerOf, ht, hh]
    have hplain : actionOf env msg = .plain := by simp [actionOf, hhand]
    refine .of_plain (s := s.see msg) hplain hseq
      (((s.see msg).writeInputConform msg).send (sendInvalidMsgType msg.msgSeqNum t)) ?_ (by simp only [handledDerived, hhand]; rfl)
    have hcount : recordCount env msg = 1 := by simp [recordCount, hhand]
    rw [handledNext_plain hplain, hcount, hseq]
    rfl
  | some p =>
    have hhand : handlerOf env msg = some p := by simp [handlerOf, ht, hh]
    exact handle_taken (s := s.see msg) hseq hhand

end Conform

theorem handle_of_none {check : FixReceiver σ → ℕ → FixReceiver σ} (h : FixMsgHandler σ) (before : ℕ)
    (h2 : (s.callHandler env h msg seqSt).2 = none) :
    (s.handle env check h msg seqSt before).toCore =
      (s.callHandler env h msg seqSt).1.toCore.note
        (.dispatched msg seqSt before (s.callHandler env h msg seqSt).1.nextRecvSeq) := by
  simp only [handle, h2]
  rfl

/-- A handler that takes the message out of sequence reports a gap or resets. -/
theorem handle_stray {check : FixReceiver σ → ℕ → FixReceiver σ} {c : FixMsgTypeConfig σ} (hst : seqSt ≠ .conform)
    (hh : handlerOf env msg = some (c, h)) (hallow : c.fixSeqAllow.contains seqSt = true) :
    (s.handle env check h msg seqSt s.nextRecvSeq).toCore =
      s.toCore.strayed env msg seqSt (reports env s msg) := by
  have htoo : seqSt = .tooHigh → c.fixSeqAllow.tooHigh = true := by
    rintro rfl
    exact hallow
  cases h with
  | onRecvResendRequest =>
    have hnone : resetsTo env msg = none := by simp [resetsTo, actionOf, hh]
    rw [handle_of_none .onRecvResendRequest _ rfl]
    show Core.note (onRecvResendRequest env s msg seqSt).toCore
      (.dispatched msg seqSt _ (onRecvResendRequest env s msg seqSt).toCore.nextRecvSeq) = _
    rw [onRecvResendRequest_toCore, Core.strayed, hnone]
    by_cases hhigh : seqSt = .tooHigh
    · have hrep : reports env s msg = some false := by simp [reports, hh, htoo hhigh]
      rw [hrep]
      simp only [hhigh, if_true, Core.gapIf]
    · simp only [hhigh, if_false]
  | user h =>
    have hnone : resetsTo env msg = none := by simp [resetsTo, actionOf, hh]
    rw [handle_of_none (.user h) _ rfl]
    show Core.note (callUser env s h msg seqSt).toCore
      (.dispatched msg seqSt _ (callUser env s h msg seqSt).toCore.nextRecvSeq) = _
    rw [callUser_stray_toCore s h msg hst, Core.strayed, hnone]
    by_cases hhigh : seqSt = .tooHigh
    · have hrep : reports env s msg = (h.onMsg s msg seqSt).notExpected.map GapFlags.keepRequired := by
        subst hhigh
        simp [reports, hh, htoo rfl]
      rw [hrep]
    · simp only [hhigh, if_false]
  | onRecvSequenceReset =>
    have haction : actionOf env msg = sequenceResetAction msg := by simp [actionOf, hh]
    cases hreset : resetsTo env msg with
    | some n =>
      have hact : sequenceResetAction msg = .reset n := by
        rw [resetsTo, haction] at hreset
        cases hact : sequenceResetAction msg <;> simp_all
      obtain ⟨h2, h1⟩ := onRecvSequenceReset_reset env (s := s) seqSt hact
      rw [handle_of_none .onRecvSequenceReset _ h2]
      show Core.note (onRecvSequenceReset env s msg seqSt).1.toCore
        (.dispatched msg seqSt _ (onRecvSequenceReset env s msg seqSt).1.toCore.nextRecvSeq) = _
      rw [h1, Core.strayed, hreset]
    | none =>
      have hact : ∀ n, sequenceResetAction msg ≠ .reset n := by
        intro n hact
        simp [resetsTo, haction, hact] at hreset
      obtain ⟨h2, h1⟩ := onRecvSequenceReset_stray env (s := s) hst hact
      rw [handle_of_none .onRecvSequenceReset _ h2]
      show Core.note (onRecvSequenceReset env s msg seqSt).1.toCore
        (.dispatched msg seqSt _ (onRecvSequenceReset env s msg seqSt).1.toCore.nextRecvSeq) = _
      rw [h1, Core.strayed, hreset]
      by_cases hhigh : seqSt = .tooHigh
      · have hrep : reports env s msg = if msg.isFlagSet kTagGapFillFlag then some false else none := by
          simp [reports, hh, htoo hhigh]
        rw [hrep]
      · simp only [hhigh, if_false]

/-- Out of sequence a message with its header in order is handled or reported. -/
theorem dispatchWith_stray (hck : Checked env msg) (hseq : msg.msgSeqNum ≠ s.nextRecvSeq) :
    (s.dispatchWith env check msg).toCore =
      (s.see msg).toCore.strayed env msg (compareFixSeqNum msg.msgSeqNum s.nextRecvSeq)
        (reports env (s.see msg) msg) ∨
    ∃ keep, (compareFixSeqNum msg.msgSeqNum s.nextRecvSeq = .tooHigh →
        reports env (s.see msg) msg = some keep) ∧
      (s.dispatchWith env check msg).toCore =
        if compareFixSeqNum msg.msgSeqNum s.nextRecvSeq = .tooHigh then (s.see msg).toCore.gap msg keep
        else (s.see msg).toCore := by
  obtain ⟨hty, hcomp⟩ := hck
  obtain ⟨t, ht⟩ := Option.isSome_iff_exists.mp hty
  have hst : compareFixSeqNum msg.msgSeqNum s.nextRecvSeq ≠ .conform := by
    unfold compareFixSeqNum
    rw [if_neg hseq]
    split <;> simp
  have hkeep : ∀ ttl : Bool, (if ttl then gapKeepRequired else gapDontKeep).keepRequired = ttl := by decide
  have hdisp : s.dispatchWith env check msg = (s.see msg).dispatchNotExpected env check msg
      (compareFixSeqNum msg.msgSeqNum s.nextRecvSeq) (env.config t) := by
    simp only [dispatchWith, ht, hcomp, ne_eq, not_true_eq_false, if_false, hst]
  rw [hdisp]
  generalize compareFixSeqNum msg.msgSeqNum s.nextRecvSeq = seqSt at hst
  cases hc : env.config t with
  | none =>
    exact .inr ⟨false, fun _ => by simp [reports, handlerOf, ht, hc],
      onMsgSeqNumNotExpected_toCore env (s.see msg) msg seqSt gapDontKeep⟩
  | some c =>
    have hexp := onMsgSeqNumNotExpected_toCore env (s.see msg) msg seqSt
      (if c.isInfiniteTTL then gapKeepRequired else gapDontKeep)
    rw [hkeep] at hexp
    cases hh : c.fixMsgHandler with
    | none =>
      simp only [dispatchNotExpected, hh]
      exact .inr ⟨c.isInfiniteTTL, fun _ => by simp [reports, handlerOf, ht, hc, hh], hexp⟩
    | some h =>
      have hhand : handlerOf env msg = some (c, h) := by simp [handlerOf, ht, hc, hh]
      simp only [dispatchNotExpected, hh]
      by_cases hallow : c.fixSeqAllow.contains seqSt = true
      · simp only [hallow, if_true]
        exact .inl (handle_stray hst hhand hallow)
      · simp only [hallow]
        refine .inr ⟨c.isInfiniteTTL, ?_, hexp⟩
        rintro rfl
        have htoo : c.fixSeqAllow.tooHigh = false := by simpa [FixSeqAllow.contains] using hallow
        simp [reports, hhand, htoo]

/-- A message with a header that is not in order is not handled; with a type and the
expected number it is recorded. -/
theorem dispatchWith_unchecked (s : FixReceiver σ) (hck : ¬ Checked env msg) :
    (s.dispatchWith env check msg).toCore = s.toCore ∨
    ((msg.getField kTagMsgType).isSome ∧ msg.msgSeqNum = s.nextRecvSeq ∧
      (s.dispatchWith env check msg).toCore =
        { s.toCore with nextRecvSeq := u32 (s.nextRecvSeq + 1) }.note
          (.recorded msg s.nextRecvSeq (u32 (s.nextRecvSeq + 1)))) := by
  cases ht : msg.getField kTagMsgType with
  | none =>
    left
    simp only [dispatchWith, ht]
    rfl
  | some t =>
    have herr : env.compIDs.check msg ≠ 0 := fun h0 => hck ⟨by simp [ht], h0⟩
    have hbad : s.dispatchWith env check msg =
        s.onBadCompID msg (compareFixSeqNum msg.msgSeqNum s.nextRecvSeq) (env.compIDs.check msg) t := by
      simp only [dispatchWith, ht]
      rw [if_pos herr]
    rw [hbad]
    by_cases hseq : msg.msgSeqNum = s.nextRecvSeq
    · right
      refine ⟨rfl, hseq, ?_⟩
      rw [show compareFixSeqNum msg.msgSeqNum s.nextRecvSeq = .conform from if_pos hseq]
      rfl
    · left
      have hst : compareFixSeqNum msg.msgSeqNum s.nextRecvSeq ≠ .conform := by
        unfold compareFixSeqNum
        rw [if_neg hseq]
        split <;> simp
      unfold onBadCompID
      rw [if_neg hst]
      rfl

section CheckMsgKeeper

variable {fuel n : ℕ} {s : FixReceiver σ} {msg : FixMsg} {rest : List FixMsg}

theorem checkMsgKeeper_nil (hk : s.msgKeeper = []) :
    s.checkMsgKeeper env (fuel + 1) n =
      if n < s.lastGapSeqNo then s.sendResendRequest n s.lastGapSeqNo else s.onRecoverDone env := by
  simp only [checkMsgKeeper, hk]

theorem checkMsgKeeper_gap (hk : s.msgKeeper = msg :: rest) (hlt : n < msg.msgSeqNum) :
    s.checkMsgKeeper env (fuel + 1) n = s.sendResendRequest n (msg.msgSeqNum - 1) := by
  simp only [checkMsgKeeper, hk, hlt, if_true]

theorem checkMsgKeeper_next (hk : s.msgKeeper = msg :: rest) (heq : n = msg.msgSeqNum) :
    s.checkMsgKeeper env (fuel + 1) n =
      ((s.noteTaken msg).dispatchWith env (checkMsgKeeper env fuel) msg).popKeeper.checkMsgKeeper env fuel
        (u32 (n + 1)) := by
  simp only [checkMsgKeeper, hk, heq, lt_irrefl, if_false, if_true]

theorem checkMsgKeeper_skip (hk : s.msgKeeper = msg :: rest) (hgt : msg.msgSeqNum < n) :
    s.checkMsgKeeper env (fuel + 1) n = s.popKeeper.checkMsgKeeper env fuel n := by
  have hlt : ¬ n < msg.msgSeqNum := by omega
  have hne : n ≠ msg.msgSeqNum := by omega
  simp only [checkMsgKeeper, hk, hlt, hne, if_false]

end CheckMsgKeeper

end FixReceiver

end Fon9.Fix
