import Fon9.Fix.Recovery

/-! The derived class while a message is dispatched, and the highest number seen. What
the virtual calls and the handlers keep up holds behind every dispatch. The highest
number seen lies behind the gap while a request is out, and is expected next at most
when none is. -/

namespace Fon9.Fix

open Lib FixReceiver

variable {σ : Type*} {env : Env σ} {P : σ → Prop}

namespace FixReceiver

variable {s : FixReceiver σ} {msg : FixMsg} {seqSt : FixSeqSt}

@[simp] theorem writeGap_derived (s : FixReceiver σ) (flags : GapFlags) (r : Record) :
    (s.writeGap flags r).derived = s.derived := by
  unfold writeGap
  split <;> rfl

theorem onMsgSeqNumTooHigh_derived (s : FixReceiver σ) (msg : FixMsg) (flags : GapFlags) :
    (s.onMsgSeqNumTooHigh msg flags).derived = s.derived := by
  unfold onMsgSeqNumTooHigh
  by_cases hlast : msg.msgSeqNum ≤ s.lastGapSeqNo
  · rw [if_pos hlast, writeGap_derived]
  · rw [if_neg hlast]
    cases flags.keepRequired <;> simp only [Bool.false_eq_true, if_false, if_true]
    · split
      · rw [writeGap_derived]
      · show (writeGap _ flags _).derived = _
        rw [writeGap_derived]
    · split
      · show (writeGap _ flags _).derived = _
        rw [writeGap_derived]
      · show (writeGap _ flags _).derived = _
        rw [writeGap_derived]

theorem onMsgSeqNumNotExpected_derived (h : Lasting env P) (flags : GapFlags) (hs : P s.derived) :
    P (s.onMsgSeqNumNotExpected env msg seqSt flags).derived := by
  cases seqSt with
  | conform => exact hs
  | tooLow =>
    show P (s.onMsgSeqNumTooLow env msg).derived
    unfold onMsgSeqNumTooLow
    split
    · exact hs
    · exact h.logoutRequired _ _ hs
  | tooHigh =>
    show P (s.onMsgSeqNumTooHigh msg flags).derived
    rw [onMsgSeqNumTooHigh_derived]
    exact hs

theorem onRecvSequenceReset_derived (h : Lasting env P) (hs : P s.derived) :
    P (s.onRecvSequenceReset env msg seqSt).1.derived := by
  unfold onRecvSequenceReset
  show P (ite _ _ _ : FixReceiver σ × Option ℕ).1.derived
  split
  · exact onMsgSeqNumNotExpected_derived h _ hs
  · cases msg.seqNumOf kTagNewSeqNo with
    | none => exact hs
    | some n =>
      show P (ite _ _ _ : FixReceiver σ × Option ℕ).1.derived
      split
      · show P (ite _ _ _ : FixReceiver σ × Option ℕ).1.derived
        split
        · exact hs
        · show P (ite _ _ _ : FixReceiver σ × Option ℕ).1.derived
          split <;> exact hs
      · exact h.recoverDone _ hs

theorem onRecvResendRequest_derived (h : Lasting env P) (hs : P s.derived) :
    P (s.onRecvResendRequest env msg seqSt).derived := by
  unfold onRecvResendRequest
  refine onMsgSeqNumNotExpected_derived h _ ?_
  cases msg.seqNumOf kTagBeginSeqNo <;> cases msg.seqNumOf kTagEndSeqNo <;> exact hs

theorem callUser_derived (h : Lasting env P) (u : UserHandler σ)
    (hu : P (u.onMsg (if u.writesConform && seqSt = .conform then s.writeInputConform msg else s) msg seqSt).derived) :
    P (s.callUser env u msg seqSt).derived := by
  unfold callUser
  simp only
  split
  · exact onMsgSeqNumNotExpected_derived h _ hu
  · exact hu

/-- What a handler leaves of the derived state. -/
theorem callHandler_derived (h : Lasting env P) (hd : FixMsgHandler σ) (hs : P s.derived)
    (hu : ∀ u, hd = .user u →
      P (u.onMsg (if u.writesConform && seqSt = .conform then s.writeInputConform msg else s) msg seqSt).derived) :
    P (s.callHandler env hd msg seqSt).1.derived := by
  cases hd with
  | onRecvSequenceReset => exact onRecvSequenceReset_derived h hs
  | onRecvResendRequest => exact onRecvResendRequest_derived h hs
  | user u => exact callUser_derived h u (hu u rfl)

/-- Out of sequence no handler looks at the keeper. -/
theorem callHandler_stray (hst : seqSt ≠ .conform) (hd : FixMsgHandler σ) :
    (s.callHandler env hd msg seqSt).2 = none := by
  cases hd with
  | onRecvResendRequest => rfl
  | user u => rfl
  | onRecvSequenceReset =>
    show (s.onRecvSequenceReset env msg seqSt).2 = none
    unfold onRecvSequenceReset
    by_cases hf : msg.isFlagSet kTagGapFillFlag
    · simp only [hf, hst, ne_eq, not_false_eq_true, decide_true, Bool.and_self, if_true]
    · cases msg.seqNumOf kTagNewSeqNo <;> simp only [hf, Bool.false_and, Bool.false_eq_true, if_false]

theorem dispatchWith_stray_derived {check : FixReceiver σ → ℕ → FixReceiver σ} (h : Lasting env P)
    (hck : Checked env msg) (hseq : msg.msgSeqNum ≠ s.nextRecvSeq) (hs : P s.derived)
    (hu : ∀ c u, handlerOf env msg = some (c, .user u) →
      c.fixSeqAllow.contains (compareFixSeqNum msg.msgSeqNum s.nextRecvSeq) = true →
      P (u.onMsg (s.see msg) msg (compareFixSeqNum msg.msgSeqNum s.nextRecvSeq)).derived) :
    P (s.dispatchWith env check msg).derived := by
  obtain ⟨hty, hcomp⟩ := hck
  obtain ⟨t, ht⟩ := Option.isSome_iff_exists.mp hty
  have hst : compareFixSeqNum msg.msgSeqNum s.nextRecvSeq ≠ .conform := compareFixSeqNum_of_ne hseq
  have hsee : P (s.see msg).derived := hs
  simp only [dispatchWith, ht, hcomp, ne_eq, not_true_eq_false, if_false, hst]
  generalize compareFixSeqNum msg.msgSeqNum s.nextRecvSeq = seqSt at hst hu
  cases hc : env.config t with
  | none => exact onMsgSeqNumNotExpected_derived h _ hsee
  | some c =>
    cases hh : c.fixMsgHandler with
    | none =>
      simp only [dispatchNotExpected, hh]
      exact onMsgSeqNumNotExpected_derived h _ hsee
    | some hd =>
      simp only [dispatchNotExpected, hh]
      split
      · next hallow =>
        have hnone : ((s.see msg).callHandler env hd msg seqSt).2 = none := callHandler_stray hst hd
        simp only [handle, hnone]
        refine callHandler_derived (s := s.see msg) h hd hsee fun u hu' => ?_
        subst hu'
        have := hu c u (by simp [handlerOf, ht, hc, hh]) hallow
        simpa only [hst, decide_false, Bool.and_false, Bool.false_eq_true, if_false] using this
      · exact onMsgSeqNumNotExpected_derived h _ hsee

theorem dispatchWith_unchecked_derived {check : FixReceiver σ → ℕ → FixReceiver σ} (hck : ¬ Checked env msg) :
    (s.dispatchWith env check msg).derived = s.derived := by
  unfold dispatchWith
  cases ht : msg.getField kTagMsgType with
  | none => rfl
  | some t =>
    have herr : env.compIDs.check msg ≠ 0 := fun h0 => hck ⟨by simp [ht], h0⟩
    simp only [herr, ne_eq, not_false_eq_true, if_true]
    unfold onBadCompID
    split <;> rfl

/-- The rule for the derived state: what the virtual calls keep up holds behind a dispatch
when the handler of the message has left it. -/
theorem dispatchFixMessage_derived (h : Upheld env P) (hk : KeeperInv env s.toCore)
    (hok : KeeperOk env s (.dispatch msg)) (hs : P s.derived)
    (hconform : Checked env msg → msg.msgSeqNum = s.nextRecvSeq → P ((s.see msg).handledDerived env msg))
    (hstray : Checked env msg → ∀ c u, handlerOf env msg = some (c, .user u) →
      ∀ seqSt, seqSt ≠ .conform → c.fixSeqAllow.contains seqSt = true →
      P (u.onMsg (s.see msg) msg seqSt).derived) :
    P (s.dispatchFixMessage env msg).derived := by
  by_cases hck : Checked env msg
  · by_cases hseq : msg.msgSeqNum = s.nextRecvSeq
    · exact (dispatchFixMessage_conform hk hck hseq (hok.1 hck hseq)).2 P h (hconform hck hseq)
    · exact dispatchWith_stray_derived h.toLasting hck hseq hs fun c u hh hallow =>
        hstray hck c u hh _ (compareFixSeqNum_of_ne hseq) hallow
  · rw [dispatchFixMessage, dispatchWith_unchecked_derived hck]
    exact hs

end FixReceiver

/-! ### The highest number seen -/

/-- Where the highest number seen stands: it is expected next at most while nothing is
asked for, and is not passed by the gap otherwise. -/
structure SeenInv (c : Core) : Prop where
  idle : c.resendRequestEndSeqNo = 0 → c.history.seen ≤ c.nextRecvSeq
  busy : c.resendRequestEndSeqNo ≠ 0 → c.history.seen ≤ c.lastGapSeqNo

namespace SeenInv

variable {c : Core} {msg : FixMsg}

theorem note (h : SeenInv c) (mv : Move) : SeenInv (c.note mv) := ⟨h.idle, h.busy⟩

theorem reset (c : Core) (n : ℕ) : SeenInv (c.reset n) := ⟨fun _ => Nat.zero_le _, fun h0 => absurd rfl h0⟩

/-- Seen up to the number expected or the highest one behind the gap. -/
theorem drain {n : ℕ} {ks : List FixMsg} (h : Draining env c n ks) (hseen : c.history.seen ≤ max n c.lastGapSeqNo) :
    SeenInv (c.drain env n ks) := by
  refine h.rule (P := fun c n => c.history.seen ≤ max n c.lastGapSeqNo) ?_ ?_ ?_ ?_ hseen
  · intro c k ks h hseen
    rw [takeKept_eq (h.asc.keepable k (by simp)) h.keeper]
    show max c.history.seen k.msgSeqNum ≤ max (k.msgSeqNum + 1) c.lastGapSeqNo
    omega
  · intro c n k ks h hseen hlt
    have hpos := h.pos
    have hle := h.le_last k (by simp)
    refine ⟨fun h0 => ?_, fun _ => ?_⟩
    · have h0 : k.msgSeqNum - 1 = 0 := h0
      omega
    · show c.history.seen ≤ c.lastGapSeqNo
      omega
  · intro c n h hseen hlt
    refine ⟨fun h0 => ?_, fun _ => ?_⟩
    · have h0 : c.lastGapSeqNo = 0 := h0
      omega
    · show c.history.seen ≤ c.lastGapSeqNo
      omega
  · intro c n h hseen hle
    refine ⟨fun _ => ?_, fun h0 => absurd rfl h0⟩
    show c.history.seen ≤ c.nextRecvSeq
    rw [h.next]
    omega

theorem processed (h : SeenInv c) (hk : KeeperInv env c) (hseq : msg.msgSeqNum = c.nextRecvSeq)
    (hfits : (actionOf env msg).Fits c msg (handledNext env msg)) :
    SeenInv ((c.see msg).processed env msg) := by
  have hpos := hk.pos
  have hend := hk.end_le
  -- what is seen before the message is handled
  have hmax : max c.history.seen msg.msgSeqNum ≤ max msg.msgSeqNum c.lastGapSeqNo := by
    by_cases h0 : c.resendRequestEndSeqNo = 0
    · have := h.idle h0
      omega
    · have := h.busy h0
      omega
  have hsee := hk.see msg
  unfold Core.processed
  cases hact : actionOf env msg with
  | plain =>
    rw [hact] at hfits
    show SeenInv (if _ then _ else _)
    split
    · next hend =>
      have hnext := hfits.resolve_right fun hf => hf.2 hend.2
      refine drain (hsee.draining_plain hact hnext hend.2) ?_
      rw [handled_plain hact hnext]
      show max c.history.seen msg.msgSeqNum ≤ max (msg.msgSeqNum + 1) c.lastGapSeqNo
      omega
    · rw [Core.handled, hact]
      refine SeenInv.note ⟨fun h0 => ?_, fun h0 => ?_⟩ _
      · have hseen := h.idle h0
        show max c.history.seen msg.msgSeqNum ≤ handledNext env msg
        obtain hnext | ⟨hnext, -⟩ := hfits <;> omega
      · have hseen := h.busy h0
        have hnext := hk.next_le h0
        show max c.history.seen msg.msgSeqNum ≤ c.lastGapSeqNo
        omega
  | gapFill n =>
    rw [hact] at hfits
    have hle := actionOf_gapFill_le hact
    show SeenInv (if _ then _ else _)
    split
    · refine drain (hsee.draining_gapFill hact (by omega) hfits.1) ?_
      rw [Core.handled, hact]
      show max c.history.seen msg.msgSeqNum ≤ max n c.lastGapSeqNo
      omega
    · next hnot =>
      have hnot : ¬ c.resendRequestEndSeqNo < n := hnot
      rw [Core.handled, hact]
      refine SeenInv.note ⟨fun h0 => ?_, fun _ => ?_⟩ _
      · have h0 : (if c.resendRequestEndSeqNo < n then 0 else c.resendRequestEndSeqNo) = 0 := h0
        rw [if_neg hnot] at h0
        omega
      · have hseen := h.busy (by omega)
        have hnext := hk.next_le (by omega)
        show max c.history.seen msg.msgSeqNum ≤ c.lastGapSeqNo
        omega
  | reset n =>
    rw [Core.handled, hact]
    exact (SeenInv.reset _ n).note _

/-- A message below the expected number adds nothing. -/
theorem see_low (h : SeenInv c) (hk : KeeperInv env c) (hlow : msg.msgSeqNum ≤ c.nextRecvSeq) :
    SeenInv (c.see msg) := by
  have hend := hk.end_le
  refine ⟨fun h0 => ?_, fun h0 => ?_⟩
  · have := h.idle h0
    show max c.history.seen msg.msgSeqNum ≤ c.nextRecvSeq
    omega
  · have := h.busy h0
    have := hk.next_le h0
    show max c.history.seen msg.msgSeqNum ≤ c.lastGapSeqNo
    omega

/-- A number that is too high is seen, and reported as a gap. -/
theorem gap (h : SeenInv c) (hk : KeeperInv env c) {keep : Bool} (hle : c.nextRecvSeq ≤ msg.msgSeqNum)
    (hkeep : keep = true → c.nextRecvSeq < msg.msgSeqNum) : SeenInv ((c.see msg).gap msg keep) := by
  have hpos := hk.pos
  unfold Core.gap
  by_cases hlast : msg.msgSeqNum ≤ c.lastGapSeqNo
  · rw [if_pos (show msg.msgSeqNum ≤ (c.see msg).lastGapSeqNo from hlast)]
    refine ⟨fun h0 => ?_, fun h0 => ?_⟩
    · have := (hk.idle h0).2
      omega
    · have := h.busy h0
      show max c.history.seen msg.msgSeqNum ≤ c.lastGapSeqNo
      omega
  · rw [if_neg (show ¬ msg.msgSeqNum ≤ (c.see msg).lastGapSeqNo from hlast)]
    have hseen : max c.history.seen msg.msgSeqNum ≤ msg.msgSeqNum := by
      by_cases h0 : c.resendRequestEndSeqNo = 0
      · have := h.idle h0
        omega
      · have := h.busy h0
        omega
    refine ⟨fun h0 => ?_, fun _ => hseen⟩
    have h0 : (if c.resendRequestEndSeqNo > 0 then c.resendRequestEndSeqNo
      else if keep then msg.msgSeqNum - 1 else msg.msgSeqNum) = 0 := h0
    cases keep with
    | true =>
      have := hkeep rfl
      split at h0
      · omega
      · have h0 : msg.msgSeqNum - 1 = 0 := h0
        omega
    | false =>
      split at h0
      · omega
      · have h0 : msg.msgSeqNum = 0 := h0
        omega

end SeenInv

/-- A dispatch that reports a number that is too high, or resets, keeps the highest
number seen in its place. -/
theorem dispatchFixMessage_seen {s : FixReceiver σ} {msg : FixMsg} (h : SeenInv s.toCore)
    (hk : KeeperInv env s.toCore) (hok : KeeperOk env s (.dispatch msg))
    (hrep : Checked env msg → s.nextRecvSeq < msg.msgSeqNum →
      (reports env (s.see msg) msg).isSome ∨ (resetsTo env msg).isSome) :
    SeenInv (s.dispatchFixMessage env msg).toCore := by
  by_cases hck : Checked env msg
  · by_cases hseq : msg.msgSeqNum = s.nextRecvSeq
    · rw [(dispatchFixMessage_conform hk hck hseq (hok.1 hck hseq)).1]
      exact h.processed hk hseq (hok.1 hck hseq)
    · have hlow : compareFixSeqNum msg.msgSeqNum s.nextRecvSeq ≠ .tooHigh → msg.msgSeqNum ≤ s.nextRecvSeq := by
        intro hst
        unfold compareFixSeqNum at hst
        rw [if_neg hseq] at hst
        split at hst
        · omega
        · exact absurd rfl hst
      have hgap : ∀ keep, compareFixSeqNum msg.msgSeqNum s.nextRecvSeq = .tooHigh →
          SeenInv ((s.see msg).toCore.gap msg keep) := fun keep hst =>
        have hhigh := compareFixSeqNum_tooHigh hst
        h.gap hk hhigh.le fun _ => hhigh
      obtain hcore | ⟨keep, -, hcore⟩ := dispatchWith_stray
        (fun s n => s.checkMsgKeeper env (s.msgKeeper.length + 1) n) hck hseq
      · rw [dispatchFixMessage, hcore]
        unfold Core.strayed
        refine SeenInv.note ?_ _
        cases hr : resetsTo env msg with
        | some n => exact SeenInv.reset _ n
        | none =>
          show SeenInv (if _ then _ else _)
          split
          · next hst =>
            have hsome := hrep hck (compareFixSeqNum_tooHigh hst)
            rw [hr] at hsome
            obtain ⟨keep, hkeep⟩ := Option.isSome_iff_exists.mp (hsome.resolve_right (by simp))
            rw [hkeep]
            exact hgap keep hst
          · next hst => exact h.see_low hk (hlow hst)
      · rw [dispatchFixMessage, hcore]
        split
        · next hst => exact hgap keep hst
        · next hst => exact h.see_low hk (hlow hst)
  · obtain hcore | ⟨hty, hseq, hcore⟩ := dispatchWith_unchecked
      (fun s n => s.checkMsgKeeper env (s.msgKeeper.length + 1) n) s hck
    · rw [dispatchFixMessage, hcore]
      exact h
    · rw [dispatchFixMessage, hcore]
      have hlt := (hok.2.2 hck hty hseq).1
      rw [hseq] at hlt
      refine SeenInv.note ?_ _
      rw [u32_of_lt hlt]
      exact ⟨fun h0 => (h.idle h0).trans (Nat.le_succ _), h.busy⟩

end Fon9.Fix
