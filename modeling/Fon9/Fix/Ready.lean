import Fon9.Fix.Derived
import Fon9.Fix.Session

/-! Readiness of the session. It becomes ready on a Heartbeat or a TestRequest in
sequence, in whatever state the logon is; so it is ready without a gap as long as none
of them is in sequence while a request is out. -/

namespace Fon9.Fix

open Lib FixReceiver FixSessionSt Option

variable {τ : Type*} {cfg : SessionConfig} {compIDs : CompIDs} {app : Bytes → Option (AppConfig τ)}

/-- Ready without a gap: nothing is asked for, and every number seen has been passed. -/
def ApReadyView.Settled (v : ApReadyView) : Prop := v.resendRequestEndSeqNo = 0 ∧ v.seen < v.nextRecvSeq

instance (v : ApReadyView) : Decidable v.Settled := inferInstanceAs (Decidable (_ ∧ _))

/-- The session has logged on, with a sender, and has become ready without a gap. -/
structure Held (d : FixSession τ) : Prop where
  ready : ∀ v ∈ d.apReady, v.Settled
  logged : FixSessionSt.logonSent.toNat ≤ d.fixSt.toNat
  sender : d.hasSender = true

namespace FixSession

variable {d : FixSession τ}

theorem sendLogout_held (h : Held d) (fields : List (ℕ × Bytes)) : Held (d.sendLogout cfg fields).1 := by
  unfold sendLogout
  rw [if_pos h.sender]
  split
  · exact ⟨h.ready, (by decide : 2 ≤ 6), h.sender⟩
  · exact h

theorem sendLogonTestRequest_held (h : Held d) : Held (d.sendLogonTestRequest cfg).1 := by
  unfold sendLogonTestRequest
  split
  · exact ⟨h.ready, (by decide : 2 ≤ 4), h.sender⟩
  · exact h

theorem onLogonResponsed_held (h : Held d) (seqSt : FixSeqSt) : Held (d.onLogonResponsed cfg seqSt).1 := by
  unfold onLogonResponsed
  split
  · exact sendLogonTestRequest_held h
  · exact ⟨h.ready, (by decide : 2 ≤ 3), h.sender⟩

theorem setApReadySt_held (h : Held d) {view : ApReadyView}
    (hview : d.fixSt.toNat < FixSessionSt.apReady.toNat → view.Settled) : Held (d.setApReadySt view).1 := by
  unfold setApReadySt
  split
  · next hlt =>
    rw [if_pos h.sender]
    refine ⟨fun v hv => ?_, (by decide : 2 ≤ 5), h.sender⟩
    obtain hv | hv := List.mem_append.mp hv
    · exact h.ready v hv
    · rw [List.mem_singleton.mp hv]
      exact hview hlt
  · exact h

end FixSession

open FixSession

/-! ### The handlers -/

variable (s : FixReceiver (FixSession τ))

theorem onRecvLogonResponse_held (msg : FixMsg) (seqSt : FixSeqSt) (h : Held s.derived)
    : Held ((onRecvLogonResponse cfg).onMsg s msg seqSt).derived := by
  show Held (ite _ _ _ : HandlerEffect (FixSession τ)).derived
  split
  · exact onLogonResponsed_held h seqSt
  · exact h

theorem onRecvLogout_held (msg : FixMsg) (seqSt : FixSeqSt) (h : Held s.derived)
    : Held ((onRecvLogout cfg).onMsg s msg seqSt).derived := by
  show Held (ite _ _ _ : HandlerEffect (FixSession τ)).derived
  split
  · exact h
  · show Held (ite _ _ _ : FixSession τ × List Sent).1
    split
    · exact sendLogout_held h _
    · exact h

theorem appHandler_held (a : AppHandler τ) (s : FixReceiver (FixSession τ)) (msg : FixMsg) (seqSt : FixSeqSt)
    (h : Held s.derived) : Held ((appHandler cfg a).onMsg s msg seqSt).derived := by
  have happ : ∀ x : τ, Held { s.derived with app := x } := fun x => ⟨h.ready, h.logged, h.sender⟩
  unfold appHandler
  simp only
  cases (a.onMsg s msg seqSt).logout with
  | none => exact happ _
  | some text => exact sendLogout_held (happ _) _

/-- The message makes the session ready when it is handled. -/
def MakesReady (msg : FixMsg) : Prop :=
  msg.getField kTagMsgType = some kMsgTypeHeartbeat ∨ msg.getField kTagMsgType = some kMsgTypeTestRequest

instance (msg : FixMsg) : Decidable (MakesReady msg) := inferInstanceAs (Decidable (_ ∨ _))

/-- The handler of a type is one that makes the session ready, which is called in
sequence only, or keeps what holds since the logon. -/
theorem sessionConfig_user {t : Bytes} {c : FixMsgTypeConfig (FixSession τ)} {u : UserHandler (FixSession τ)}
    (hc : sessionConfig cfg app t = some c) (hu : c.fixMsgHandler = some (.user u)) :
    (t = kMsgTypeHeartbeat ∨ t = kMsgTypeTestRequest) ∧ (u = onRecvHeartbeat ∨ u = onRecvTestRequest) ∧
        c.fixSeqAllow = {} ∧ c.isInfiniteTTL = false ∨
      ∀ s msg seqSt, Held s.derived → Held (u.onMsg s msg seqSt).derived := by
  simp only [sessionConfig, initFixConfig] at hc
  split_ifs at hc with h1 h2 h3 h4 h5 h6
  · obtain rfl := some.inj hc
    cases hu
  · obtain rfl := some.inj hc
    cases hu
  · obtain rfl := some.inj hc
    cases hu
    exact .inl ⟨.inl h3, .inl rfl, rfl, rfl⟩
  · obtain rfl := some.inj hc
    cases hu
    exact .inl ⟨.inr h4, .inr rfl, rfl, rfl⟩
  · obtain rfl := some.inj hc
    cases hu
    exact .inr onRecvLogout_held
  · obtain rfl := some.inj hc
    cases hu
    exact .inr onRecvLogonResponse_held
  · obtain ⟨a, -, rfl⟩ := map_eq_some_iff.mp hc
    obtain ⟨h, -, hh⟩ := map_eq_some_iff.mp hu
    cases hh
    exact .inr (appHandler_held h)

variable {msg : FixMsg}

theorem handlerOf_user {c : FixMsgTypeConfig (FixSession τ)} {u : UserHandler (FixSession τ)}
    (hh : handlerOf (sessionEnv cfg compIDs app) msg = some (c, .user u)) :
    MakesReady msg ∧ (u = onRecvHeartbeat ∨ u = onRecvTestRequest) ∧
        c.fixSeqAllow = {} ∧ c.isInfiniteTTL = false ∨
      ∀ s msg seqSt, Held s.derived → Held (u.onMsg s msg seqSt).derived := by
  unfold handlerOf at hh
  obtain ⟨t, ht, hh⟩ := bind_eq_some_iff.mp hh
  obtain ⟨c', hc, hh⟩ := bind_eq_some_iff.mp hh
  obtain ⟨h, hu, heq⟩ := map_eq_some_iff.mp hh
  cases heq
  obtain ⟨hty, hrest⟩ | hkeep := sessionConfig_user hc hu
  · refine .inl ⟨?_, hrest⟩
    obtain rfl | rfl := hty
    · exact .inl ht
    · exact .inr ht
  · exact .inr hkeep

theorem lasting_held : Lasting (sessionEnv cfg compIDs app) Held where
  recoverDone _ h := sendLogonTestRequest_held h
  logoutRequired _ _ h := sendLogout_held h _

theorem handledDerived_held {s : FixReceiver (FixSession τ)} (h : Held s.derived)
    (hu : ∀ c u, handlerOf (sessionEnv cfg compIDs app) msg = some (c, .user u) → Held (u.onMsg (if u.writesConform && FixSeqSt.conform = .conform then (if c.fixSeqAllow.noPreRecord then s else s.writeInputConform msg).writeInputConform msg else if c.fixSeqAllow.noPreRecord then s else s.writeInputConform msg) msg .conform).derived)
    :
    Held (s.handledDerived (sessionEnv cfg compIDs app) msg) := by
  unfold handledDerived
  cases hh : handlerOf (sessionEnv cfg compIDs app) msg with
  | none => exact h
  | some p =>
    obtain ⟨c, hd⟩ := p
    refine callHandler_derived lasting_held hd ?_ ?_
    · split <;> exact h
    · rintro u rfl
      exact hu c u hh

theorem upheld_held : Upheld (sessionEnv cfg compIDs app) Held where
  toLasting := lasting_held
  kept s msg hk h := by
    refine handledDerived_held h fun c u hh => ?_
    obtain ⟨-, -, hallow, httl⟩ | hkeep := handlerOf_user hh
    · -- such a message is never kept
      obtain ⟨s', hrep⟩ := hk.kept
      simp [reports, hh, hallow, httl] at hrep
    · apply hkeep
      split
      · show Held (ite _ _ _ : FixReceiver (FixSession τ)).derived
        split <;> exact h
      · split <;> exact h

/-! ### A message that is dispatched -/

/-- What a message that is dispatched must meet: it fits the keeper, a number that is too
high is reported or reset, and one that makes the session ready is not in sequence
while a request is out. -/
def DispatchOk (env : Env (FixSession τ)) (s : FixReceiver (FixSession τ)) (msg : FixMsg) : Prop :=
  KeeperOk env s (.dispatch msg) ∧
  (Checked env msg → s.nextRecvSeq < msg.msgSeqNum →
    (reports env (s.see msg) msg).isSome ∨ (resetsTo env msg).isSome) ∧
  (Checked env msg → msg.msgSeqNum = s.nextRecvSeq → MakesReady msg →
    s.derived.fixSt.toNat < FixSessionSt.apReady.toNat → s.resendRequestEndSeqNo = 0)

instance (env : Env (FixSession τ)) (s : FixReceiver (FixSession τ)) (msg : FixMsg) :
    Decidable (DispatchOk env s msg) := inferInstanceAs (Decidable (_ ∧ _ ∧ _))

/-- A message that is recorded by the dispatcher only and fits the keeper leaves room
for its number. -/
theorem fits_succ_lt {env : Env (FixSession τ)} {c : Core} (hplain : actionOf env msg = .plain)
    (hcount : recordCount env msg = 1) (hfits : (actionOf env msg).Fits c msg (handledNext env msg)) :
    msg.msgSeqNum + 1 < 2 ^ 32 := by
  rw [hplain] at hfits
  obtain hnext | ⟨hnext, -⟩ := hfits
  · exact succ_lt_of_handledNext hplain hnext
  · rw [handledNext_plain hplain, hcount] at hnext
    have hnext : (msg.msgSeqNum + 1) % 2 ^ 32 = msg.msgSeqNum := hnext
    omega

theorem dispatch_held {s : FixReceiver (FixSession τ)} (h : Held s.derived)
    (hk : KeeperInv (sessionEnv cfg compIDs app) s.toCore) (hseen : SeenInv s.toCore)
    (hok : DispatchOk (sessionEnv cfg compIDs app) s msg) :
    Held (s.dispatchFixMessage (sessionEnv cfg compIDs app) msg).derived := by
  refine dispatchFixMessage_derived upheld_held hk hok.1 h ?_ ?_
  · intro hck hseq
    have hsee : Held (s.see msg).derived := h
    refine handledDerived_held hsee fun c u hh => ?_
    obtain ⟨hready, hu, hallow, -⟩ | hkeep := handlerOf_user hh
    · have hplain : actionOf (sessionEnv cfg compIDs app) msg = .plain := by simp [actionOf, hh]
      have hcount : recordCount (sessionEnv cfg compIDs app) msg = 1 := by
        obtain rfl | rfl := hu <;> simp [recordCount, hh, hallow, onRecvHeartbeat, onRecvTestRequest]
      have hlt := fits_succ_lt hplain hcount (hok.1.1 hck hseq)
      have hview : s.derived.fixSt.toNat < FixSessionSt.apReady.toNat →
          (apReadyView ((s.see msg).writeInputConform msg)).Settled := by
        intro hst
        have hend := hok.2.2 hck hseq hready hst
        refine ⟨hend, ?_⟩
        have hle := hseen.idle hend
        show max s.history.seen msg.msgSeqNum < u32 (s.nextRecvSeq + 1)
        rw [u32_of_lt (hseq ▸ hlt)]
        omega
      rw [hallow]
      obtain rfl | rfl := hu
      · exact setApReadySt_held h hview
      · exact setApReadySt_held h hview
    · apply hkeep
      split
      · show Held (ite _ _ _ : FixReceiver (FixSession τ)).derived
        split <;> exact h
      · split <;> exact h
  · intro hck c u hh seqSt hst hcontains
    obtain ⟨-, -, hallow, -⟩ | hkeep := handlerOf_user hh
    · rw [hallow] at hcontains
      cases seqSt with
      | conform => exact absurd rfl hst
      | tooHigh => cases hcontains
      | tooLow => cases hcontains
    · exact hkeep _ _ _ h

/-! ### A step of the session -/

/-- The session between two events: the receiver is in order; before the logon nothing is
missing, and from then on there is a sender; and the session has become ready without
a gap only. -/
structure ReadyInv (env : Env (FixSession τ)) (s : FixReceiver (FixSession τ)) : Prop where
  keeper : KeeperInv env s.toCore
  seen : SeenInv s.toCore
  ready : ∀ v ∈ s.derived.apReady, v.Settled
  low : s.derived.fixSt.toNat < FixSessionSt.logonSent.toNat → s.resendRequestEndSeqNo = 0 ∧ s.history.seen = 0
  sender : FixSessionSt.logonSent.toNat ≤ s.derived.fixSt.toNat → s.derived.hasSender = true

namespace ReadyInv

variable {env : Env (FixSession τ)} {s s' : FixReceiver (FixSession τ)}

/-- The session alone moves on. -/
theorem congr (h : ReadyInv env s) (hcore : s'.toCore = s.toCore) (hready : s'.derived.apReady = s.derived.apReady)
    (hlow : s'.derived.fixSt.toNat < logonSent.toNat →
      s.derived.fixSt.toNat < logonSent.toNat)
    (hsender : logonSent.toNat ≤ s'.derived.fixSt.toNat → s'.derived.hasSender = true) :
    ReadyInv env s' :=
  ⟨hcore ▸ h.keeper, hcore ▸ h.seen, hready ▸ h.ready, fun hst => hcore ▸ h.low (hlow hst), hsender⟩

theorem held (h : ReadyInv env s) (hst : logonSent.toNat ≤ s.derived.fixSt.toNat) : Held s.derived :=
  ⟨h.ready, hst, h.sender hst⟩

/-- Behind the logon the invariant is that of the receiver and of the session. -/
theorem of_held (hk : KeeperInv env s.toCore) (hseen : SeenInv s.toCore) (h : Held s.derived) : ReadyInv env s :=
  ⟨hk, hseen, h.ready, fun hst => absurd h.logged (not_le.mpr hst), fun _ => h.sender⟩

theorem sendLogout (h : ReadyInv env s) (fields : List (ℕ × Bytes)) :
    ReadyInv env (apply s (s.derived.sendLogout cfg fields)) := by
  by_cases hsender : s.derived.hasSender = true
  · unfold FixSession.sendLogout
    rw [if_pos hsender]
    split
    · exact h.congr rfl rfl (fun hst => absurd hst (by decide : ¬ 6 < 2)) fun _ => hsender
    · exact h.congr rfl rfl id h.sender
  · have hlow : s.derived.fixSt.toNat < logonSent.toNat :=
      not_le.mp fun hst => hsender (h.sender hst)
    unfold FixSession.sendLogout
    rw [if_neg hsender]
    exact h.congr rfl rfl (fun _ => hlow) fun hst => absurd hst (by decide : ¬ 2 ≤ 0)

theorem refuseLogon (h : ReadyInv env s) (r : Record) (fields : List (ℕ × Bytes)) :
    ReadyInv env (FixSession.refuseLogon cfg (s.write r) fields) :=
  sendLogout (s := s.write r) (h.congr rfl rfl id h.sender) fields

theorem close (h : ReadyInv env s) (cause : Bytes) : ReadyInv env (FixSession.close s cause) :=
  h.congr rfl rfl id h.sender

theorem clearFixSession (h : ReadyInv env s) {st : FixSessionSt} (hst : st.toNat < logonSent.toNat) :
    ReadyInv env (FixSession.clearFixSession s st) :=
  ⟨step_keeperInv s .clearRecvKeeper h.keeper trivial, ⟨fun _ => Nat.zero_le _, fun h0 => absurd rfl h0⟩,
    h.ready, fun _ => ⟨rfl, rfl⟩, fun hge => absurd hst (not_lt.mpr hge)⟩

theorem sendLogonTestRequest (h : ReadyInv env s) {d : FixSession τ} (hready : d.apReady = s.derived.apReady)
    (hst : d.fixSt = s.derived.fixSt) (hsender : d.hasSender = s.derived.hasSender) :
    ReadyInv env (apply s (d.sendLogonTestRequest cfg)) := by
  unfold FixSession.sendLogonTestRequest
  split
  · next hle =>
    refine h.congr rfl hready (fun hlt => absurd hlt (by decide : ¬ 4 < 2)) fun _ => ?_
    exact hsender.trans (h.sender (hst ▸ hle.1))
  · refine h.congr rfl hready (fun hlt => ?_) fun hle => ?_
    · exact hst ▸ hlt
    · exact hsender.trans (h.sender (hst ▸ hle))

theorem forced (h : ReadyInv env s) {n : ℕ} (hn : n ≠ 0)
    (hbusy : s.resendRequestEndSeqNo ≠ 0 → n ≤ s.resendRequestEndSeqNo)
    (hidle : s.resendRequestEndSeqNo = 0 → s.history.seen ≤ n) (info : Bytes) :
    ReadyInv env { s.forceResetRecvSeq info n with derived.resetNextRecvSeq := 0 } :=
  ⟨step_keeperInv s (.forceResetRecvSeq info n) h.keeper ⟨hn, hbusy⟩, ⟨hidle, h.seen.busy⟩,
    h.ready, h.low, h.sender⟩

end ReadyInv

/-! ### The logon -/

/-- What an acceptor's Logon request must meet: its number fits in 32 bits with the next,
and a number the operator has set for the logon does not pass it over. -/
def LogonOk (msg : FixMsg) : Prop :=
  (msg.msgSeqNum = s.nextRecvSeq → msg.msgSeqNum + 1 < 2 ^ 32 ∧
    (s.derived.resetNextRecvSeq ≠ 0 → msg.msgSeqNum ≤ s.derived.resetNextRecvSeq)) ∧
  (s.nextRecvSeq < msg.msgSeqNum → s.derived.resetNextRecvSeq ≤ msg.msgSeqNum)

instance (s : FixReceiver (FixSession τ)) (msg : FixMsg) : Decidable (LogonOk s msg) :=
  inferInstanceAs (Decidable (_ ∧ _))

section Logon

variable {env : Env (FixSession τ)} {s : FixReceiver (FixSession τ)}

/-- The number `SendLogon` leaves expected. -/
def nextAtLogon (s : FixReceiver (FixSession τ)) : ℕ :=
  if s.derived.resetNextRecvSeq > 0 then s.derived.resetNextRecvSeq else s.nextRecvSeq

section

variable (s : FixReceiver (FixSession τ))

theorem resetSendAtLogon_derived :
    (resetSendAtLogon s).derived = { s.derived with resetNextSendSeq := 0 } := by
  unfold resetSendAtLogon
  split
  · rfl
  · next h0 =>
    have h0 : s.derived.resetNextSendSeq = 0 := by omega
    rw [← h0]

theorem resetSendAtLogon_toCore : (resetSendAtLogon s).toCore = s.toCore := by
  unfold resetSendAtLogon
  split <;> rfl

theorem resetRecvAtLogon_derived :
    (resetRecvAtLogon s).derived = { s.derived with resetNextRecvSeq := 0 } := by
  unfold resetRecvAtLogon
  split
  · rfl
  · next h0 =>
    have h0 : s.derived.resetNextRecvSeq = 0 := by omega
    rw [← h0]

theorem resetRecvAtLogon_toCore :
    ∃ moves, (resetRecvAtLogon s).toCore =
      { s.toCore with
        nextRecvSeq := nextAtLogon s
        history.moves := s.history.moves ++ moves } := by
  unfold resetRecvAtLogon nextAtLogon
  split
  · exact ⟨[.forced s.nextRecvSeq s.derived.resetNextRecvSeq], rfl⟩
  · exact ⟨[], by rw [List.append_nil]⟩

theorem sendLogon_toCore (heartBtInt : ℕ) (fields : List (ℕ × Bytes)) :
    ∃ moves, (sendLogon s heartBtInt fields).toCore =
      { s.toCore with
        nextRecvSeq := nextAtLogon s
        history.moves := s.history.moves ++ moves } := by
  obtain ⟨moves, hcore⟩ := resetRecvAtLogon_toCore (resetSendAtLogon
    { s with derived := { s.derived with fixSt := .logonSent, heartBtInt := heartBtInt } })
  refine ⟨moves, ?_⟩
  show (resetRecvAtLogon _).toCore = _
  have hnext : ∀ s' : FixReceiver (FixSession τ), nextAtLogon (resetSendAtLogon s') = nextAtLogon s' := by
    intro s'
    unfold nextAtLogon
    rw [resetSendAtLogon_derived, resetSendAtLogon_toCore]
  rw [hcore, hnext, resetSendAtLogon_toCore]
  rfl

end

theorem sendLogon_held (h : ∀ v ∈ s.derived.apReady, v.Settled) (heartBtInt : ℕ) (fields : List (ℕ × Bytes)) :
    Held (sendLogon s heartBtInt fields).derived := by
  show Held { (resetRecvAtLogon _).derived with hasSender := true }
  rw [resetRecvAtLogon_derived, resetSendAtLogon_derived]
  exact ⟨h, le_rfl, rfl⟩

theorem nextAtLogon_pos (h : KeeperInv env s.toCore) : nextAtLogon s ≠ 0 := by
  unfold nextAtLogon
  split
  · omega
  · exact h.pos

/-- The number expected is set while nothing is missing. -/
theorem KeeperInv.logon {c : Core} (h : KeeperInv env c) (hend : c.resendRequestEndSeqNo = 0) {n : ℕ}
    (hn : n ≠ 0) (hseen : c.history.seen ≤ n) (moves : List Move) :
    KeeperInv env { c with nextRecvSeq := n, history.moves := c.history.moves ++ moves } ∧
      SeenInv { c with nextRecvSeq := n, history.moves := c.history.moves ++ moves } := by
  refine ⟨⟨hn, h.idle, fun h0 => absurd hend h0, h.end_le, h.asc, h.le_last, h.accounted.kept, ?_⟩,
    ⟨fun _ => hseen, fun h0 => absurd hend h0⟩⟩
  show List.Sublist _ ((c.history.moves ++ moves).filterMap _)
  rw [List.filterMap_append]
  exact h.accounted.taken.trans (List.sublist_append_left _ _)

/-- What follows the answer to the Logon request. -/
theorem logonResponse_inv {seqSt : FixSeqSt} (h : Held s.derived)
    (hinv : KeeperInv (sessionEnv cfg compIDs app) (if seqSt = .tooHigh then s.toCore.gap msg false else s.toCore) ∧ SeenInv (if seqSt = .tooHigh then s.toCore.gap msg false else s.toCore))
    :
    ReadyInv (sessionEnv cfg compIDs app)
      ((apply s (s.derived.onLogonResponsed cfg seqSt)).onMsgSeqNumNotExpected (sessionEnv cfg compIDs app)
        msg seqSt gapSkipRecord) := by
  have hcore := onMsgSeqNumNotExpected_toCore (sessionEnv cfg compIDs app)
    (apply s (s.derived.onLogonResponsed cfg seqSt)) msg seqSt gapSkipRecord
  refine .of_held (hcore ▸ hinv.1) (hcore ▸ hinv.2) ?_
  exact onMsgSeqNumNotExpected_derived lasting_held _ (onLogonResponsed_held h seqSt)

theorem answerLogon_inv (h : ReadyInv (sessionEnv cfg compIDs app) s)
    (hst : s.derived.fixSt.toNat < logonSent.toNat) (hok : LogonOk s msg)
    (hlow : compareFixSeqNum msg.msgSeqNum s.nextRecvSeq ≠ .tooLow) :
    ReadyInv (sessionEnv cfg compIDs app) (answerLogon cfg (sessionEnv cfg compIDs app) s msg
      (compareFixSeqNum msg.msgSeqNum s.nextRecvSeq)) := by
  obtain ⟨hend, hseen⟩ := h.low hst
  have hpos := h.keeper.pos
  unfold answerLogon
  cases hcmp : compareFixSeqNum msg.msgSeqNum s.nextRecvSeq with
  | tooLow => exact absurd hcmp hlow
  | conform =>
    have hseq : msg.msgSeqNum = s.nextRecvSeq :=
      by_contra fun hne => compareFixSeqNum_of_ne hne hcmp
    obtain ⟨hlt, hreset⟩ := hok.1 hseq
    rw [if_pos rfl]
    obtain ⟨moves, hcore⟩ := sendLogon_toCore (((s.writeInputConform msg).noteRecorded msg s.nextRecvSeq).see msg)
      ((msg.seqNumOf kTagHeartBtInt).getD 0) [(kTagEncryptMethod, cstr "0")]
    have hk : KeeperInv (sessionEnv cfg compIDs app)
        (((s.writeInputConform msg).noteRecorded msg s.nextRecvSeq).see msg).toCore := by
      have hstep := step_keeperInv s (.acceptLogon msg) h.keeper fun _ => ⟨hlt, by omega⟩
      simpa only [step, FixReceiver.acceptLogon, hcmp] using hstep
    have hnext : max s.history.seen msg.msgSeqNum ≤
        nextAtLogon (((s.writeInputConform msg).noteRecorded msg s.nextRecvSeq).see msg) := by
      show _ ≤ if s.derived.resetNextRecvSeq > 0 then s.derived.resetNextRecvSeq else u32 (s.nextRecvSeq + 1)
      rw [u32_of_lt (hseq ▸ hlt)]
      split
      · have := hreset (by omega)
        omega
      · omega
    refine logonResponse_inv (sendLogon_held (by exact h.ready) _ _) ?_
    rw [if_neg (by decide), hcore]
    exact hk.logon hend (nextAtLogon_pos hk) hnext moves
  | tooHigh =>
    have hhigh := compareFixSeqNum_tooHigh hcmp
    have hreset := hok.2 hhigh
    rw [if_neg (by decide)]
    obtain ⟨moves, hcore⟩ := sendLogon_toCore ((s.write (.ignoreRecv msg.origMsgStr)).see msg)
      ((msg.seqNumOf kTagHeartBtInt).getD 0) [(kTagEncryptMethod, cstr "0")]
    obtain ⟨hk, hs⟩ := h.keeper.logon hend (nextAtLogon_pos h.keeper) (hseen ▸ Nat.zero_le _) moves
    have hle : nextAtLogon s ≤ msg.msgSeqNum := by
      unfold nextAtLogon
      split <;> omega
    refine logonResponse_inv (sendLogon_held (by exact h.ready) _ _) ?_
    rw [if_pos rfl, hcore]
    exact ⟨(hk.see msg).gap hle (fun hf => absurd hf (by decide)) fun hf => absurd hf (by decide),
      hs.gap hk hle fun hf => absurd hf (by decide)⟩

theorem onLogonAccepted_inv (h : ReadyInv (sessionEnv cfg compIDs app) s)
    (hst : s.derived.fixSt.toNat < logonSent.toNat) (hok : badLogonTag msg = 0 → LogonOk s msg) :
    ReadyInv (sessionEnv cfg compIDs app) (onLogonAccepted cfg (sessionEnv cfg compIDs app) s msg) := by
  have hw : ReadyInv (sessionEnv cfg compIDs app)
      (s.write (.info (cstr "OnLogon.Accepted|from=" ++ cfg.deviceId))) := h.congr rfl rfl id h.sender
  unfold onLogonAccepted
  show ReadyInv _ (ite _ _ _)
  split
  · exact hw.refuseLogon _ _
  · next hlow =>
    show ReadyInv _ (ite _ _ _)
    split
    · next htag => exact answerLogon_inv hw hst (hok htag) hlow
    · exact hw.refuseLogon _ _

end Logon

/-! ### Runs -/

/-- The message is a Logon request an acceptor answers. -/
def Answered (cfg : SessionConfig) (s : FixReceiver (FixSession τ)) (msg : FixMsg) : Prop :=
  s.derived.fixSt = .connected ∧ check1stMustLogon msg = none ∧
    (cfg.onRecvLogonRequest msg).isAccepted = true ∧ badLogonTag msg = 0

instance (s : FixReceiver (FixSession τ)) (msg : FixMsg) : Decidable (Answered cfg s msg) :=
  inferInstanceAs (Decidable (_ ∧ _))

/-- The message is dispatched. -/
def Dispatched (msg : FixMsg) : Prop :=
  FixSessionSt.logonSent.toNat ≤ s.derived.fixSt.toNat ∧
    (s.derived.fixSt = .logonSent → check1stMustLogon msg = none)

instance (s : FixReceiver (FixSession τ)) (msg : FixMsg) : Decidable (Dispatched s msg) :=
  inferInstanceAs (Decidable (_ ∧ _))

/-- What a step must meet for the session to become ready without a gap only. -/
def ReadyOk (cfg : SessionConfig) (env : Env (FixSession τ)) (s : FixReceiver (FixSession τ)) :
    SessionOp τ → Prop
  | .parsed msg =>
    (Answered cfg s msg → LogonOk s msg) ∧ (Dispatched s msg → DispatchOk env (countReceived s) msg)
  | .resetNextRecvSeq n =>
    s.derived.hasSender = true → n ≠ 0 →
      (s.resendRequestEndSeqNo ≠ 0 → n ≤ s.resendRequestEndSeqNo) ∧
        (s.resendRequestEndSeqNo = 0 → s.history.seen ≤ n)
  | _ => True

instance (env : Env (FixSession τ)) (s : FixReceiver (FixSession τ)) : ∀ op, Decidable (ReadyOk cfg env s op)
  | .connected => .isTrue trivial
  | .disconnected _ => .isTrue trivial
  | .sendLogon _ _ => .isTrue trivial
  | .parsed _ => inferInstanceAs (Decidable (_ ∧ _))
  | .timer _ => .isTrue trivial
  | .sendLogout _ => .isTrue trivial
  | .resetNextSendSeq _ => .isTrue trivial
  | .resetNextRecvSeq _ => inferInstanceAs (Decidable (_ → _))
  | .app _ => .isTrue trivial

section Run

variable {s : FixReceiver (FixSession τ)}

theorem onFixMessageParsed_inv (h : ReadyInv (sessionEnv cfg compIDs app) s)
    (hok : ReadyOk cfg (sessionEnv cfg compIDs app) s (.parsed msg)) :
    ReadyInv (sessionEnv cfg compIDs app) (onFixMessageParsed cfg (sessionEnv cfg compIDs app) s msg) := by
  have hs : ReadyInv (sessionEnv cfg compIDs app) (countReceived s) := h.congr rfl rfl id h.sender
  have hdispatch : Dispatched s msg → ReadyInv (sessionEnv cfg compIDs app)
      ((countReceived s).dispatchFixMessage (sessionEnv cfg compIDs app) msg) := by
    intro hd
    have hmsg := hok.2 hd
    exact .of_held (step_keeperInv _ (.dispatch msg) hs.keeper hmsg.1)
      (dispatchFixMessage_seen hs.seen hs.keeper hmsg.1 hmsg.2.1)
      (dispatch_held (hs.held hd.1) hs.keeper hs.seen hmsg)
  have hfixSt : (countReceived s).derived.fixSt = s.derived.fixSt := rfl
  unfold onFixMessageParsed
  simp only [hfixSt]
  cases hst : s.derived.fixSt with
  | disconnected => exact hs
  | connected =>
    cases hcheck : check1stMustLogon msg with
    | some cause => exact hs.close cause
    | none =>
      cases hreq : cfg.onRecvLogonRequest msg with
      | accepted =>
        refine onLogonAccepted_inv hs (by rw [hfixSt, hst]; decide) fun htag => ?_
        exact hok.1 ⟨hst, hcheck, by rw [hreq]; rfl, htag⟩
      | refused fields => exact hs.sendLogout fields
      | ignored => exact hs
  | logonSent =>
    cases hcheck : check1stMustLogon msg with
    | some cause => exact hs.close cause
    | none => exact hdispatch ⟨by rw [hst], fun _ => hcheck⟩
  | logonRecovering => exact hdispatch ⟨by rw [hst]; decide, fun h => by rw [hst] at h; cases h⟩
  | logonTest => exact hdispatch ⟨by rw [hst]; decide, fun h => by rw [hst] at h; cases h⟩
  | apReady => exact hdispatch ⟨by rw [hst]; decide, fun h => by rw [hst] at h; cases h⟩
  | logoutPending => exact hdispatch ⟨by rw [hst]; decide, fun h => by rw [hst] at h; cases h⟩

theorem fixSessionOnTimer_inv {env : Env (FixSession τ)} (h : ReadyInv env s) (sinceLastSent : ℤ) :
    ReadyInv env (fixSessionOnTimer cfg s sinceLastSent) := by
  -- the timer touches neither the receiver nor what is held
  have hmove : ∀ (d : FixSession τ) (sent : List Sent), d.apReady = s.derived.apReady →
      d.fixSt = s.derived.fixSt → d.hasSender = s.derived.hasSender → ReadyInv env (apply s (d, sent)) := by
    intro d sent hready hst hsender
    refine h.congr rfl hready (fun hlt => ?_) fun hle => ?_
    · exact hst ▸ hlt
    · exact hsender.trans (h.sender (hst ▸ hle))
  have hclose : ∀ (d : FixSession τ) (cause : Bytes), d.apReady = s.derived.apReady →
      d.fixSt = s.derived.fixSt → d.hasSender = s.derived.hasSender →
      ReadyInv env (FixSession.close { s with derived := d } cause) := by
    intro d cause hready hst hsender
    refine h.congr rfl hready (fun hlt => ?_) fun hle => ?_
    · exact hst ▸ hlt
    · exact hsender.trans (h.sender (hst ▸ hle))
  unfold fixSessionOnTimer
  simp only
  cases hst : s.derived.fixSt with
  | disconnected => exact h
  | connected => exact h.close _
  | logonSent => exact h.close _
  | logoutPending => exact h.close _
  | logonRecovering =>
    simp only
    split
    · exact h.close _
    · exact h.congr rfl rfl (by rw [← hst]; exact id) (by rw [← hst]; exact h.sender)
  | logonTest =>
    by_cases hcount : s.derived.msgReceivedCount = 0
    · simp only [hcount, if_true, true_and]
      split
      · exact hclose _ _ rfl hst.symm rfl
      · exact h.sendLogonTestRequest rfl hst.symm rfl
    · simp only [hcount, if_false, false_and]
      exact h.sendLogonTestRequest rfl hst.symm rfl
  | apReady =>
    simp only
    split
    · exact h.congr rfl rfl (by rw [← hst]; exact id) (by rw [← hst]; exact h.sender)
    · split
      · split
        · exact hclose _ _ rfl hst.symm rfl
        · split
          · exact hmove _ _ rfl hst.symm rfl
          · exact hmove _ _ rfl hst.symm rfl
      · exact hmove _ _ rfl hst.symm rfl

theorem sessionStep_inv (op : SessionOp τ) (h : ReadyInv (sessionEnv cfg compIDs app) s)
    (hok : ReadyOk cfg (sessionEnv cfg compIDs app) s op) :
    ReadyInv (sessionEnv cfg compIDs app) (sessionStep cfg (sessionEnv cfg compIDs app) s op) := by
  cases op with
  | connected =>
    have hclear := h.clearFixSession (by decide : FixSessionSt.connected.toNat < 2)
    exact hclear.congr rfl rfl id fun hle => absurd hle (by decide : ¬ 2 ≤ 1)
  | disconnected info =>
    have hclear := h.clearFixSession (by decide : FixSessionSt.disconnected.toNat < 2)
    show ReadyInv _ (onFixSessionDisconnected s info)
    unfold onFixSessionDisconnected
    simp only
    split
    · exact hclear.congr rfl rfl id fun hle => absurd hle (by decide : ¬ 2 ≤ 0)
    · exact hclear.congr rfl rfl id fun hle => absurd hle (by decide : ¬ 2 ≤ 0)
  | sendLogon heartBtInt fields =>
    show ReadyInv _ (ite _ _ _)
    split
    · next hst =>
      obtain ⟨hend, hseen⟩ := h.low hst.1
      obtain ⟨moves, hcore⟩ := sendLogon_toCore s heartBtInt fields
      obtain ⟨hk, hs⟩ := h.keeper.logon hend (nextAtLogon_pos h.keeper) (hseen ▸ Nat.zero_le _) moves
      exact .of_held (hcore ▸ hk) (hcore ▸ hs) (sendLogon_held h.ready heartBtInt fields)
    · exact h
  | parsed msg => exact onFixMessageParsed_inv h hok
  | timer sinceLastSent => exact fixSessionOnTimer_inv h sinceLastSent
  | sendLogout fields => exact h.sendLogout fields
  | resetNextSendSeq n =>
    show ReadyInv _ (resetNextSendSeqTo s n)
    unfold resetNextSendSeqTo
    split
    · exact h.congr rfl rfl id h.sender
    · split
      · exact h.congr rfl rfl id h.sender
      · exact h.congr rfl rfl id h.sender
  | resetNextRecvSeq n =>
    show ReadyInv _ (resetNextRecvSeqTo s n)
    unfold resetNextRecvSeqTo
    split
    · exact h.congr rfl rfl id h.sender
    · next hn =>
      split
      · next hsender =>
        obtain ⟨hbusy, hidle⟩ := hok hsender hn
        exact h.forced hn hbusy hidle _
      · exact h.congr rfl rfl id h.sender
  | app f => exact h.congr rfl rfl id h.sender

/-- In a run of such steps the session becomes ready only when nothing is asked for and
every number seen has been passed. -/
theorem sessionRun_ready (start : ℕ) (hstart : start ≠ 0) (a : τ) (ops : List (SessionOp τ))
    (hok : Along (sessionStep cfg (sessionEnv cfg compIDs app)) (ReadyOk cfg (sessionEnv cfg compIDs app))
      { nextRecvSeq := start, derived := { app := a } } ops) :
    ∀ v ∈ (sessionRun cfg (sessionEnv cfg compIDs app)
      { nextRecvSeq := start, derived := { app := a } } ops).derived.apReady, v.Settled := by
  have hinit : ReadyInv (sessionEnv cfg compIDs app)
      ({ nextRecvSeq := start, derived := { app := a } } : FixReceiver (FixSession τ)) :=
    ⟨⟨hstart, fun _ => ⟨rfl, rfl⟩, fun h0 => absurd rfl h0, le_rfl, .nil _,
        fun _ hk => absurd hk List.not_mem_nil, rfl, List.nil_sublist _⟩,
      ⟨fun _ => Nat.zero_le _, fun h0 => absurd rfl h0⟩, fun _ hv => absurd hv List.not_mem_nil,
      fun _ => ⟨rfl, rfl⟩, fun hle => absurd hle (by decide : ¬ 2 ≤ 0)⟩
  exact (hok.foldl (P := ReadyInv (sessionEnv cfg compIDs app)) (fun s op h hop => sessionStep_inv op h hop) hinit).ready

/-- A session in which the messages of type '8' stay valid. -/
def utSession : Env (FixSession Unit) :=
  sessionEnv {} utEnv.compIDs fun t => if t = [ch '8'] then some { isInfiniteTTL := true } else none

/-- The gap found at the logon of an initiator is filled, a report kept meanwhile is
taken, and the answer to the test request makes the session ready. -/
theorem sessionRun_ready_recovery :
    let ops : List (SessionOp Unit) :=
      [.connected, .sendLogon 30 [(kTagEncryptMethod, cstr "0")], .parsed (utMsg 3 kMsgTypeLogon []),
        .parsed (utMsg 1 [ch 'D'] [(kTagPossDupFlag, cstr "Y")]), .parsed (utMsg 5 [ch '8'] []),
        .parsed (utMsg 2 kMsgTypeSequenceReset [(kTagGapFillFlag, cstr "Y"), (kTagNewSeqNo, cstr "4")]),
        .parsed (utMsg 4 [ch 'D'] [(kTagPossDupFlag, cstr "Y")]), .timer 0,
        .parsed (utMsg 6 kMsgTypeHeartbeat [(kTagTestReqID, cstr "LogonTest")])]
    let d := (sessionRun {} utSession { nextRecvSeq := 1, derived := { app := () } } ops).derived
    d.apReady = [⟨0, 7, 6⟩] ∧ ∀ v ∈ d.apReady, v.Settled :=
  ⟨by decide +kernel, sessionRun_ready 1 (by decide) () _ (by decide +kernel)⟩

/-- While the messages up to the Logon are asked for again, a Heartbeat in sequence makes
the session ready. -/
theorem sessionRun_not_ready :
    let ops : List (SessionOp Unit) :=
      [.connected, .sendLogon 30 [(kTagEncryptMethod, cstr "0")], .parsed (utMsg 3 kMsgTypeLogon []),
        .parsed (utMsg 1 kMsgTypeHeartbeat [(kTagPossDupFlag, cstr "Y")])]
    let d := (sessionRun {} utSession { nextRecvSeq := 1, derived := { app := () } } ops).derived
    d.fixSt = .apReady ∧ d.apReady = [⟨3, 2, 3⟩] ∧ ¬ ∀ v ∈ d.apReady, v.Settled := by
  decide +kernel

end Run

end Fon9.Fix
