import Fon9.Mr.RecoverSession

/-! What a recover session has asked for is told by its record. The state of the session says
that a request is in progress exactly where the record does, over every run in which no answer
announces packets that were not asked for, none accepts a request with no packets, and the
timer does not run within a request. -/

namespace Fon9.Mr

open Lib Buffer Pk Mc List ExgMrRecoverSession ExgMrMsg

/-! ### The record -/

/-- How far the last request has come: answered with `left + 1` packets to go, or not at all. -/
inductive Progress
  | idle
  | unanswered
  | recovering (left : ℕ)
  deriving DecidableEq

namespace Progress

def ofNum : ℕ → Progress
  | 0 => idle
  | n + 1 => recovering n

/-- The packets that are still to come. -/
def left : Progress → ℕ
  | recovering n => n + 1
  | _ => 0

def next : Progress → Act → Progress
  | _, .recoverReq101 .. => unanswered
  | _, .recoverSt102 _ _ recoverNum _ => ofNum recoverNum
  | recovering n, .pkReceived _ => ofNum n
  | p, _ => p

@[simp] theorem left_ofNum (n : ℕ) : (ofNum n).left = n := by cases n <;> rfl

@[simp] theorem ofNum_ne_unanswered (n : ℕ) : ofNum n ≠ unanswered := by cases n <;> exact Progress.noConfusion

theorem ofNum_eq_idle {n : ℕ} : ofNum n = idle ↔ n = 0 := by
  cases n with
  | zero => exact iff_of_true rfl rfl
  | succ n => exact iff_of_false Progress.noConfusion (Nat.succ_ne_zero n)

theorem eq_idle_iff {p : Progress} : p = idle ↔ ¬ (p = unanswered ∨ 0 < p.left) := by
  cases p <;> simp [left]

end Progress

def Act.isRequest : Act → Bool
  | .recoverReq101 .. => true
  | _ => false

/-- An act that leaves the progress as it is. -/
def Act.isQuiet : Act → Bool
  | .recoverReq101 .. | .recoverSt102 .. | .pkReceived _ => false
  | _ => true

variable {a : Act}

theorem Act.not_request_of_quiet (h : a.isQuiet = true) : a.isRequest = false := by
  cases a <;> first | rfl | cases h

theorem Act.next_of_quiet (h : a.isQuiet = true) (p : Progress) : p.next a = p := by
  cases a <;> cases p <;> first | rfl | cases h

theorem Act.next_of_request (h : a.isRequest = true) (p : Progress) : p.next a = .unanswered := by
  cases a <;> first | rfl | cases h

variable (log : List Act)

def progress : Progress := log.foldl Progress.next .idle

theorem progress_concat (a : Act) : progress (log ++ [a]) = (progress log).next a := by
  rw [progress, foldl_append]
  rfl

/-- Each request is sent while none is in progress. -/
def OneAtATime : Prop :=
  ∀ before a after, log = before ++ a :: after → a.isRequest = true → progress before = .idle

theorem oneAtATime_concat {log : List Act} :
    OneAtATime (log ++ [a]) ↔ OneAtATime log ∧ (a.isRequest = true → progress log = .idle) := by
  constructor
  · intro h
    refine ⟨fun before b after hlog => h before b (after ++ [a]) ?_, fun ha => h log a [] rfl ha⟩
    rw [hlog, append_assoc, cons_append]
  · rintro ⟨hlog, hlast⟩ before b after heq hb
    obtain rfl | ⟨after, c, rfl⟩ := after.eq_nil_or_concat
    · obtain ⟨hbefore, hab⟩ := append_inj' heq rfl
      rw [singleton_inj] at hab
      rw [← hbefore]
      exact hlast (hab ▸ hb)
    · rw [concat_eq_append, ← cons_append, ← append_assoc] at heq
      exact hlog before b after (append_inj' heq rfl).1 hb

/-- Some request has been sent. -/
def Requested : Prop := ∃ a ∈ log, a.isRequest = true

theorem requested_concat {log : List Act} : Requested (log ++ [a]) ↔ Requested log ∨ a.isRequest = true := by
  simp [Requested, or_and_right, exists_or]

namespace ExgMrRecoverSession

variable {s t u : ExgMrRecoverSession}

/-! ### What a step can do -/

/-- Nothing that a request depends on is done. -/
structure Quiet (s t : ExgMrRecoverSession) : Prop where
  state : t.state = s.state
  recovering : t.recovering = s.recovering
  log : ∃ acts : List Act, (∀ a ∈ acts, a.isQuiet = true) ∧ t.log = s.log ++ acts

theorem Quiet.of_log (hstate : t.state = s.state) (hrecovering : t.recovering = s.recovering) (hlog : t.log = s.log) :
    Quiet s t :=
  ⟨hstate, hrecovering, [], by simp, by rw [hlog, append_nil]⟩

theorem Quiet.refl (s : ExgMrRecoverSession) : Quiet s s := .of_log rfl rfl rfl

theorem Quiet.trans (h : Quiet s t) (h' : Quiet t u) : Quiet s u := by
  obtain ⟨acts, hquiet, hlog⟩ := h.log
  obtain ⟨acts', hquiet', hlog'⟩ := h'.log
  refine ⟨h'.state.trans h.state, h'.recovering.trans h.recovering, acts ++ acts', ?_, ?_⟩
  · intro a ha
    exact (mem_append.mp ha).elim (hquiet a) (hquiet' a)
  · rw [hlog', hlog, append_assoc]

theorem quiet_act (s : ExgMrRecoverSession) (a : Act) (h : a.isQuiet = true := by rfl) : Quiet s (s.act a) :=
  ⟨rfl, rfl, [a], by simpa using h, rfl⟩

/-- An act of a session that is otherwise the same to a request. -/
theorem Quiet.acted (hstate : t.state = s.state) (hrecovering : t.recovering = s.recovering) (hlog : t.log = s.log) (a : Act)
    (h : a.isQuiet = true := by rfl) : Quiet s (t.act a) :=
  (of_log hstate hrecovering hlog).trans (quiet_act t a h)

theorem quiet_actOn (s : ExgMrRecoverSession) (channelId : ℕ) (a : Act) (h : a.isQuiet = true := by rfl) :
    Quiet s (s.actOn channelId a) := by
  rw [actOn]
  split
  · exact quiet_act s a h
  · exact .refl s

theorem quiet_foldl {f : ExgMrRecoverSession → ℕ → ExgMrRecoverSession} (hf : ∀ s n, Quiet s (f s n)) (l : List ℕ)
    (s : ExgMrRecoverSession) : Quiet s (l.foldl f s) := by
  induction l generalizing s with
  | nil => exact .refl s
  | cons n l ih => exact (hf s n).trans (ih _)

theorem quiet_setDelRecover (s : ExgMrRecoverSession) (apStMsg : Bytes) : Quiet s (s.setDelRecover apStMsg) :=
  (quiet_act s _).trans (quiet_foldl (fun s _ => quiet_act s _) _ _)

/-- A request goes out. -/
def requested (s : ExgMrRecoverSession) (a : Act) : ExgMrRecoverSession := { s with state := .requesting }.act a

/-- An answer comes in. -/
def answered (s : ExgMrRecoverSession) (channelId beginSeqNo recoverNum : ℕ) (statusCode : UInt8) : ExgMrRecoverSession :=
  { s with
    recovering := recoverNum
    state := if statusCode ≠ 0 ∧ recoverNum = 0 then .apReady else s.state }.act
      (.recoverSt102 channelId beginSeqNo recoverNum statusCode)

/-- A packet comes in. -/
def recovered (s : ExgMrRecoverSession) (pk : Bytes) : ExgMrRecoverSession :=
  { s with
    recovering := s.recovering - 1
    state := if 0 < s.recovering - 1 then s.state else .apReady }.act (.pkReceived pk)

/-- What a turn does that reads no answer. -/
inductive Effect (s t : ExgMrRecoverSession) : Prop
  | quiet (h : Quiet s t)
  | login (hstate : s.state.isReady = false) (h : Quiet { s with state := .apReady } t)
  | packet (hsome : 0 < s.recovering) (pk : Bytes) (h : Quiet (s.recovered pk) t)

theorem onPkReceived_quiet (s : ExgMrRecoverSession) (pk : Bytes) : Quiet (s.recovered pk) (s.onPkReceived pk).1 := by
  by_cases hleft : 0 < s.recovering - 1
  · simp only [onPkReceived, recovered, hleft, decide_true, if_true]
    exact quiet_actOn _ _ (.channelPkReceived _ pk)
  · simp only [onPkReceived, recovered, hleft, decide_false, Bool.false_eq_true, if_false]
    exact (quiet_actOn _ _ (.channelPkReceived _ pk)).trans (quiet_actOn _ _ (.onRecoverEnd _))

theorem onLoginCfm030_effect (s : ExgMrRecoverSession) (args : Args) (channelId : ℕ) :
    Effect s (s.onLoginCfm030 args channelId) := by
  have hquiet : ∀ s' : ExgMrRecoverSession, s'.state.isReady = true → Quiet s' (s'.onLoginCfm030 args channelId) := by
    intro s' hready
    simp only [onLoginCfm030, hready, if_true]
    split
    · refine .acted ?_ ?_ ?_ _ <;> rfl
    · exact .refl _
  cases hready : s.state.isReady with
  | true => exact .quiet (hquiet s hready)
  | false =>
    have hlogin : s.onLoginCfm030 args channelId = { s with state := .apReady }.onLoginCfm030 args channelId := by
      have hnow : ({ s with state := .apReady } : ExgMrRecoverSession).state.isReady = true := rfl
      simp only [onLoginCfm030, hready, hnow, if_true, Bool.false_eq_true, if_false]
    rw [hlogin]
    exact .login hready (hquiet _ rfl)

theorem onRecoverSt102_quiet (s : ExgMrRecoverSession) (channelId beginSeqNo recoverNum : ℕ) (statusCode : UInt8) :
    Quiet (s.answered channelId beginSeqNo recoverNum statusCode)
      (s.onRecoverSt102 channelId beginSeqNo recoverNum statusCode) := by
  rw [onRecoverSt102]
  dsimp only
  by_cases hst : statusCode = 0
  · rw [if_neg (not_not.mpr hst), answered, if_neg fun h => h.1 hst]
    exact .of_log rfl rfl rfl
  · rw [if_pos hst]
    have hfailed : Quiet (s.answered channelId beginSeqNo recoverNum statusCode)
        (if recoverNum = 0 then
          { { s with recovering := recoverNum }.act (.recoverSt102 channelId beginSeqNo recoverNum statusCode) with
            state := .apReady }.actOn channelId (.onRecoverErr channelId beginSeqNo recoverNum statusCode)
        else { s with recovering := recoverNum }.act (.recoverSt102 channelId beginSeqNo recoverNum statusCode)) := by
      rw [answered]
      by_cases hzero : recoverNum = 0
      · rw [if_pos hzero, if_pos ⟨hst, hzero⟩]
        exact .trans (.of_log rfl rfl rfl) (quiet_actOn _ _ _)
      · rw [if_neg hzero, if_neg fun h => hzero h.2]
        exact .of_log rfl rfl rfl
    revert hfailed
    generalize (if recoverNum = 0 then _ else _ : ExgMrRecoverSession) = s'
    intro hfailed
    by_cases hsuspend : statusCode = 9
    · rw [if_pos hsuspend]
      exact hfailed.trans ((quiet_setDelRecover _ _).trans (quiet_act _ _))
    · rw [if_neg hsuspend]
      exact hfailed

theorem onDeviceCommonTimer_quiet (s : ExgMrRecoverSession) :
    Quiet (if s.apReadyMsg.dropWhile (· ≠ ch ':') = [] then s else { s with state := .apReady }) s.onDeviceCommonTimer := by
  rw [onDeviceCommonTimer]
  split
  · exact .refl s
  · exact (quiet_act _ _).trans (quiet_foldl (fun s _ => quiet_actOn s _ _) _ _)

theorem requestMcRecover_cases (s : ExgMrRecoverSession) (channelId beginSeqNo recoverNum : ℕ) :
    (s.requestMcRecover channelId beginSeqNo recoverNum).1 = s ∨
      s.state = .apReady ∧ ∃ a, a.isRequest = true ∧ Quiet (s.requested a) (s.requestMcRecover channelId beginSeqNo recoverNum).1 := by
  rw [requestMcRecover]
  cases hstate : s.state with
  | apReady =>
    exact .inr ⟨rfl, .recoverReq101 channelId beginSeqNo recoverNum (u32 (s.msgSeqNum + 1)), rfl, .of_log rfl rfl rfl⟩
  | _ => exact .inl rfl

/-! ### Turns -/

section Turn

variable {Q : Type} [DcQueue Q] {args : Args} {behind : ℕ → UInt8} {rxbuf : Q}

/-- The status and the number of packets of the answer that a turn reads. -/
def answerIn (s : ExgMrRecoverSession) (behind : ℕ → UInt8) (rxbuf : Q) : Option (UInt8 × ℕ) :=
  if 0 < s.recovering then none
  else
    match DcQueue.peek rxbuf kExgMrMsgHeaderSize with
    | none => none
    | some head =>
      let pksz := ExgMrMsg.getPacketSize head
      match DcQueue.peek rxbuf pksz with
      | none => none
      | some pk =>
        if pk[pksz - 1]? ≠ some (ExgMrMsg.calcCheckSum pk pksz) then none
        else if ExgMrMsg.field behind pk 2 2 = 102 then
          some (UInt8.ofNat (ExgMrMsg.field behind pk 18 1), ExgMrMsg.field behind pk 23 2)
        else none

theorem onMsg_effect {pk : Bytes} (hmsg : field behind pk 2 2 ≠ 102) (h : s.onMsg args behind pk = some t) :
    Effect s t := by
  rw [onMsg] at h
  dsimp only at h
  split at h
  · cases h
  · cases h
    exact onLoginCfm030_effect _ _ _
  · cases h
    exact .quiet (quiet_act s _)
  · cases h
    refine .quiet (.acted ?_ ?_ ?_ _) <;> rfl
  · contradiction
  · cases h
    exact .quiet (.refl s)

theorem onMsg_answer {pk : Bytes} (hmsg : field behind pk 2 2 = 102) :
    s.onMsg args behind pk = some (s.onRecoverSt102 (field behind pk 16 2) (field behind pk 19 4)
      (field behind pk 23 2) (UInt8.ofNat (field behind pk 18 1))) := by
  rw [onMsg]
  simp only [hmsg]

theorem recovered_congr (hstate : t.state = s.state) (hrecovering : t.recovering = s.recovering) (hlog : t.log = s.log)
    (pk : Bytes) : Quiet (s.recovered pk) (t.recovered pk) := by
  refine .of_log ?_ ?_ ?_
  · simp only [recovered, act, hstate, hrecovering]
  · simp only [recovered, act, hrecovering]
  · simp only [recovered, act, hlog]

theorem feedTurn_effect (hsome : 0 < s.recovering) (rxbuf : Q) : Effect s (s.feedTurn rxbuf).session := by
  rw [feedTurn]
  cases s.rx.turn pkConfig rxbuf with
  | stop => exact .quiet (.refl s)
  | next rx rxbuf => exact .quiet (.of_log rfl rfl rfl)
  | interrupt rx rxbuf =>
    have hrx : Quiet (s.recovered (rx.received.getLastD [])) ({ s with rx := rx }.recovered (rx.received.getLastD [])) := by
      refine recovered_congr ?_ ?_ ?_ _ <;> rfl
    exact .packet hsome _ (hrx.trans (onPkReceived_quiet _ _))

theorem turn_effect (args : Args) (h : s.answerIn behind rxbuf = none) : Effect s (s.turn args behind rxbuf).session := by
  by_cases hsome : 0 < s.recovering
  · rw [turn, if_pos hsome]
    exact feedTurn_effect hsome rxbuf
  · rw [turn, if_neg hsome, msgTurn]
    rw [answerIn, if_neg hsome] at h
    cases hhead : DcQueue.peek rxbuf kExgMrMsgHeaderSize with
    | none => exact .quiet (.refl s)
    | some head =>
      rw [hhead] at h
      dsimp only at h ⊢
      cases hpk : DcQueue.peek rxbuf (getPacketSize head) with
      | none => exact .quiet (.refl s)
      | some pk =>
        rw [hpk] at h
        dsimp only at h ⊢
        split_ifs at h ⊢
        · exact .quiet (quiet_act s _)
        · rename_i hmsg
          cases hnext : s.onMsg args behind pk with
          | none => exact .quiet ((quiet_act s .asyncClose).trans (quiet_act _ .asyncOpen))
          | some t => exact onMsg_effect hmsg hnext

theorem turn_answer (args : Args) {statusCode : UInt8} {recoverNum : ℕ} (h : s.answerIn behind rxbuf = some (statusCode, recoverNum)) :
    ∃ channelId beginSeqNo,
      Quiet (s.answered channelId beginSeqNo recoverNum statusCode) (s.turn args behind rxbuf).session := by
  rw [answerIn] at h
  split_ifs at h with hsome
  rw [turn, if_neg hsome, msgTurn]
  cases hhead : DcQueue.peek rxbuf kExgMrMsgHeaderSize with
  | none =>
    rw [hhead] at h
    cases h
  | some head =>
    rw [hhead] at h
    dsimp only at h ⊢
    cases hpk : DcQueue.peek rxbuf (getPacketSize head) with
    | none =>
      rw [hpk] at h
      cases h
    | some pk =>
      rw [hpk] at h
      dsimp only at h ⊢
      split_ifs at h ⊢ with hsum hmsg
      cases h
      rw [onMsg_answer hmsg]
      exact ⟨_, _, onRecoverSt102_quiet _ _ _ _ _⟩

end Turn

/-! ### The discipline -/

/-- What the state says is what the record says: a request is in progress where one was sent and
has no answer, or packets are still to come; then none is sent, and behind it the session is ready. -/
structure Disciplined (s : ExgMrRecoverSession) : Prop where
  requesting_iff : s.state = .requesting ↔ progress s.log = .unanswered ∨ 0 < s.recovering
  oneAtATime : OneAtATime s.log
  able : progress s.log = .idle → Requested s.log → s.state = .apReady

/-- With what the record says of the packets, and that only a session that is ready asks. -/
structure Inv (s : ExgMrRecoverSession) : Prop where
  disciplined : s.Disciplined
  left : (progress s.log).left = s.recovering
  ready : Requested s.log → s.state.isReady = true

theorem Inv.requesting (h : Inv s) : s.state = .requesting ↔ progress s.log ≠ .idle := by
  rw [h.disciplined.requesting_iff, ← h.left, Ne, Progress.eq_idle_iff, not_not]

theorem Quiet.progress (h : Quiet s t) : progress t.log = Mr.progress s.log := by
  obtain ⟨acts, hquiet, hlog⟩ := h.log
  rw [hlog]
  clear hlog h
  induction acts using reverseRecOn with
  | nil => rw [append_nil]
  | append_singleton acts a ih =>
    rw [← append_assoc, progress_concat, Act.next_of_quiet (hquiet a (by simp))]
    exact ih fun a' ha' => hquiet a' (mem_append_left _ ha')

theorem Quiet.oneAtATime (h : Quiet s t) : OneAtATime t.log ↔ OneAtATime s.log := by
  obtain ⟨acts, hquiet, hlog⟩ := h.log
  rw [hlog]
  clear hlog h
  induction acts using reverseRecOn with
  | nil => rw [append_nil]
  | append_singleton acts a ih =>
    rw [← append_assoc, oneAtATime_concat, ih fun a' ha' => hquiet a' (mem_append_left _ ha')]
    refine and_iff_left fun ha => ?_
    rw [Act.not_request_of_quiet (hquiet a (by simp))] at ha
    cases ha

theorem Quiet.requested (h : Quiet s t) : Requested t.log ↔ Requested s.log := by
  obtain ⟨acts, hquiet, hlog⟩ := h.log
  rw [hlog]
  constructor
  · rintro ⟨a, ha, hreq⟩
    rcases mem_append.mp ha with ha | ha
    · exact ⟨a, ha, hreq⟩
    · rw [Act.not_request_of_quiet (hquiet a ha)] at hreq
      cases hreq
  · rintro ⟨a, ha, hreq⟩
    exact ⟨a, mem_append_left _ ha, hreq⟩

theorem Quiet.disciplined (h : Quiet s t) : t.Disciplined ↔ s.Disciplined := by
  constructor
  · intro ht
    refine ⟨?_, h.oneAtATime.mp ht.oneAtATime, fun hidle hreq => ?_⟩
    · rw [← h.state, ← h.recovering, ← h.progress]
      exact ht.requesting_iff
    · rw [← h.state]
      exact ht.able (h.progress.trans hidle) (h.requested.mpr hreq)
  · intro hs
    refine ⟨?_, h.oneAtATime.mpr hs.oneAtATime, fun hidle hreq => ?_⟩
    · rw [h.state, h.recovering, h.progress]
      exact hs.requesting_iff
    · rw [h.state]
      exact hs.able (h.progress.symm.trans hidle) (h.requested.mp hreq)

theorem Quiet.inv (h : Quiet s t) (hs : Inv s) : Inv t where
  disciplined := h.disciplined.mpr hs.disciplined
  left := by rw [h.progress, h.recovering, hs.left]
  ready hreq := by
    rw [h.state]
    exact hs.ready (h.requested.mp hreq)

/-- Ready again, a session keeps the discipline where no request was in progress. -/
theorem Inv.resume_iff (h : Inv s) : Disciplined { s with state := .apReady } ↔ s.state ≠ .requesting := by
  rw [Ne, h.requesting, not_not]
  constructor
  · intro hd
    have hnot := hd.requesting_iff.not.mp (by simp)
    rw [Progress.eq_idle_iff, h.left]
    exact hnot
  · intro hidle
    refine ⟨?_, h.disciplined.oneAtATime, fun _ _ => rfl⟩
    rw [Progress.eq_idle_iff, h.left] at hidle
    exact iff_of_false (by simp) hidle

theorem Inv.resume (h : Inv s) (hstate : s.state ≠ .requesting) : Inv { s with state := .apReady } :=
  ⟨h.resume_iff.mpr hstate, h.left, fun _ => rfl⟩

theorem Inv.requested (h : Inv s) (hstate : s.state = .apReady) (ha : a.isRequest = true) : Inv (s.requested a) := by
  have hidle : progress s.log = .idle := by
    by_contra hne
    rw [h.requesting.mpr hne] at hstate
    cases hstate
  have hprogress : progress (s.requested a).log = .unanswered := by
    show progress (s.log ++ [a]) = _
    rw [progress_concat, Act.next_of_request ha]
  refine ⟨⟨iff_of_true rfl (.inl hprogress), ?_, fun hnone => ?_⟩, ?_, fun _ => rfl⟩
  · exact oneAtATime_concat.mpr ⟨h.disciplined.oneAtATime, fun _ => hidle⟩
  · rw [hprogress] at hnone
    cases hnone
  · rw [hprogress]
    show 0 = s.recovering
    rw [← h.left, hidle]
    rfl

theorem requested_answered (channelId beginSeqNo recoverNum : ℕ) (statusCode : UInt8) :
    Requested (s.answered channelId beginSeqNo recoverNum statusCode).log ↔ Requested s.log :=
  requested_concat.trans (or_iff_left Bool.false_ne_true)

/-- An answer announces packets where a request waits for it, and refuses the request where it
announces none. -/
def Fits (s : ExgMrRecoverSession) (statusCode : UInt8) (recoverNum : ℕ) : Prop :=
  if s.state = .requesting then statusCode ≠ 0 ∨ recoverNum ≠ 0 else recoverNum = 0

instance (s : ExgMrRecoverSession) (statusCode : UInt8) (recoverNum : ℕ) : Decidable (s.Fits statusCode recoverNum) :=
  inferInstanceAs (Decidable (ite _ _ _))

theorem Inv.answered_iff (h : Inv s) (channelId beginSeqNo recoverNum : ℕ) (statusCode : UInt8) :
    Disciplined (s.answered channelId beginSeqNo recoverNum statusCode) ↔ s.Fits statusCode recoverNum := by
  have hprogress : progress (s.answered channelId beginSeqNo recoverNum statusCode).log = .ofNum recoverNum :=
    progress_concat _ _
  have hunanswered : ¬ progress (s.answered channelId beginSeqNo recoverNum statusCode).log = .unanswered := by
    rw [hprogress]
    exact Progress.ofNum_ne_unanswered _
  have hone : OneAtATime (s.answered channelId beginSeqNo recoverNum statusCode).log :=
    oneAtATime_concat.mpr ⟨h.disciplined.oneAtATime, fun hreq => by cases hreq⟩
  have hstate : (s.answered channelId beginSeqNo recoverNum statusCode).state =
      if statusCode ≠ 0 ∧ recoverNum = 0 then .apReady else s.state := rfl
  have hiff : ((s.answered channelId beginSeqNo recoverNum statusCode).state = .requesting ↔ 0 < recoverNum) ↔
      s.Fits statusCode recoverNum := by
    rw [hstate, Fits]
    by_cases hzero : recoverNum = 0
    · by_cases hst : statusCode = 0
      · simp [hzero, hst]
      · simp [hzero, hst]
    · by_cases hreq : s.state = .requesting
      · simp [hzero, hreq, pos_of_ne_zero hzero]
      · simp [hzero, hreq, pos_of_ne_zero hzero]
  constructor
  · intro hd
    have hreq := hd.requesting_iff
    rw [or_iff_right hunanswered] at hreq
    exact hiff.mp hreq
  · intro hfits
    refine ⟨?_, hone, fun hidle hreq => ?_⟩
    · rw [or_iff_right hunanswered]
      exact hiff.mpr hfits
    · rw [hprogress, Progress.ofNum_eq_idle] at hidle
      have hready := h.ready ((requested_answered _ _ _ _).mp hreq)
      have hnot := (hiff.mpr hfits).not.mpr (by omega)
      rw [hstate] at hnot ⊢
      split_ifs at hnot ⊢
      · rfl
      · cases hs : s.state with
        | apReady => rfl
        | requesting => exact absurd hs hnot
        | linking =>
          rw [hs] at hready
          cases hready
        | linkBroken =>
          rw [hs] at hready
          cases hready

theorem Inv.answered (h : Inv s) {statusCode : UInt8} {recoverNum : ℕ}
    (hfits : s.Fits statusCode recoverNum) (channelId beginSeqNo : ℕ) :
    Inv (s.answered channelId beginSeqNo recoverNum statusCode) := by
  refine ⟨(h.answered_iff _ _ _ _).mpr hfits, ?_, fun hreq => ?_⟩
  · show (progress (s.log ++ [_])).left = recoverNum
    rw [progress_concat]
    exact Progress.left_ofNum _
  · have hready := h.ready ((requested_answered _ _ _ _).mp hreq)
    show (if statusCode ≠ 0 ∧ recoverNum = 0 then ExgMrState.apReady else s.state).isReady = true
    split
    · rfl
    · exact hready

theorem Inv.recovered (h : Inv s) (hsome : 0 < s.recovering) (pk : Bytes) : Inv (s.recovered pk) := by
  obtain ⟨n, hprogress⟩ : ∃ n, progress s.log = .recovering n := by
    have hleft := h.left
    cases hp : progress s.log with
    | recovering n => exact ⟨n, rfl⟩
    | idle =>
      rw [hp] at hleft
      exact absurd hleft (by simp [Progress.left]; omega)
    | unanswered =>
      rw [hp] at hleft
      exact absurd hleft (by simp [Progress.left]; omega)
  have hn : s.recovering = n + 1 := by
    rw [← h.left, hprogress]
    rfl
  have hrequesting : s.state = .requesting := h.requesting.mpr (by rw [hprogress]; simp)
  have hlog : progress (s.recovered pk).log = .ofNum n := by
    show progress (s.log ++ [_]) = _
    rw [progress_concat, hprogress]
    rfl
  have hstate : (s.recovered pk).state = if 0 < n then .requesting else .apReady := by
    show (if 0 < s.recovering - 1 then s.state else ExgMrState.apReady) = _
    rw [hn, Nat.add_sub_cancel, hrequesting]
  have hrec : (s.recovered pk).recovering = n := by
    show s.recovering - 1 = n
    omega
  refine ⟨⟨?_, ?_, fun hidle _ => ?_⟩, ?_, fun _ => ?_⟩
  · rw [hlog, hrec, or_iff_right (Progress.ofNum_ne_unanswered _), hstate]
    by_cases hpos : 0 < n
    · simp [hpos]
    · simp [hpos]
  · exact oneAtATime_concat.mpr ⟨h.disciplined.oneAtATime, fun hreq => by cases hreq⟩
  · rw [hlog, Progress.ofNum_eq_idle] at hidle
    rw [hstate, if_neg (by omega)]
  · rw [hlog, hrec, Progress.left_ofNum]
  · rw [hstate]
    split <;> rfl

theorem Effect.inv (h : Effect s t) (hs : Inv s) : Inv t := by
  cases h with
  | quiet h => exact h.inv hs
  | login hstate h =>
    refine h.inv (hs.resume fun hreq => ?_)
    rw [hreq] at hstate
    cases hstate
  | packet hsome pk h => exact h.inv (hs.recovered hsome pk)

end ExgMrRecoverSession

/-! ### Runs -/

section Run

variable {Q : Type} [DcQueue Q] (args : Args)

/-- What happens to a session: a turn over what the device has received, a request of a channel, the timer. -/
inductive Op (Q : Type)
  | recv (rxbuf : Q) (behind : ℕ → UInt8)
  | requestMcRecover (channelId beginSeqNo recoverNum : ℕ)
  | commonTimer

def step (s : ExgMrRecoverSession) : Op Q → ExgMrRecoverSession
  | .recv rxbuf behind => (s.turn args behind rxbuf).session
  | .requestMcRecover channelId beginSeqNo recoverNum => (s.requestMcRecover channelId beginSeqNo recoverNum).1
  | .commonTimer => s.onDeviceCommonTimer

/-- An answer fits, and the timer finds no request in progress where it has channels to add again. -/
def Meets (s : ExgMrRecoverSession) : Op Q → Prop
  | .recv rxbuf behind => ∀ answer ∈ s.answerIn behind rxbuf, s.Fits answer.1 answer.2
  | .requestMcRecover .. => True
  | .commonTimer => s.apReadyMsg.dropWhile (· ≠ ch ':') ≠ [] → s.state ≠ .requesting

variable {args} {s : ExgMrRecoverSession} {op : Op Q}

theorem step_inv (hs : s.Inv) (h : Meets s op) : (step args s op).Inv := by
  cases op with
  | recv rxbuf behind =>
    cases hanswer : s.answerIn behind rxbuf with
    | none => exact (turn_effect args hanswer).inv hs
    | some answer =>
      obtain ⟨statusCode, recoverNum⟩ := answer
      obtain ⟨channelId, beginSeqNo, hquiet⟩ := turn_answer args hanswer
      exact hquiet.inv (hs.answered (h _ hanswer) channelId beginSeqNo)
  | requestMcRecover channelId beginSeqNo recoverNum =>
    rcases s.requestMcRecover_cases channelId beginSeqNo recoverNum with heq | ⟨hstate, a, ha, hquiet⟩
    · rw [step, heq]
      exact hs
    · exact hquiet.inv (hs.requested hstate ha)
  | commonTimer =>
    have hquiet := s.onDeviceCommonTimer_quiet
    rw [step]
    by_cases hnil : s.apReadyMsg.dropWhile (· ≠ ch ':') = []
    · rw [if_pos hnil] at hquiet
      exact hquiet.inv hs
    · rw [if_neg hnil] at hquiet
      exact hquiet.inv (hs.resume (h hnil))

theorem meets_of_disciplined (hs : s.Inv) (h : (step args s op).Disciplined) : Meets s op := by
  cases op with
  | recv rxbuf behind =>
    intro answer hanswer
    obtain ⟨statusCode, recoverNum⟩ := answer
    obtain ⟨channelId, beginSeqNo, hquiet⟩ := turn_answer args hanswer
    exact (hs.answered_iff channelId beginSeqNo _ _).mp (hquiet.disciplined.mp h)
  | requestMcRecover channelId beginSeqNo recoverNum => trivial
  | commonTimer =>
    intro hnil
    have hquiet := s.onDeviceCommonTimer_quiet
    rw [if_neg hnil] at hquiet
    exact hs.resume_iff.mp (hquiet.disciplined.mp h)

/-- On a new link nothing has been asked for. -/
theorem linkReady_inv (gMx : ℕ) (h : s.state ≠ .requesting) : (s.onDeviceLinkReady args gMx).Inv := by
  have hprogress : progress (s.onDeviceLinkReady args gMx).log = .idle := rfl
  have hnone : ¬ Requested (s.onDeviceLinkReady args gMx).log := by
    rintro ⟨a, ha, hreq⟩
    rw [mem_singleton.mp ha] at hreq
    cases hreq
  refine ⟨⟨iff_of_false h ?_, ?_, fun _ hreq => absurd hreq hnone⟩, rfl, fun hreq => absurd hreq hnone⟩
  · rw [hprogress]
    simp [onDeviceLinkReady]
  · intro before a after hlog hreq
    exact absurd ⟨a, by rw [hlog]; simp, hreq⟩ hnone

/-- From a new link on a session keeps the discipline exactly as long as every answer fits and the
timer finds no request in progress. -/
theorem disciplined_iff (args : Args) (gMx : ℕ) (s : ExgMrRecoverSession) (h : s.state ≠ .requesting) (ops : List (Op Q)) :
    Throughout (step args) ExgMrRecoverSession.Disciplined (s.onDeviceLinkReady args gMx) ops ↔
      Along (step args) Meets (s.onDeviceLinkReady args gMx) ops :=
  throughout_iff_along (fun _ hs => hs.disciplined) (fun _ _ hs => step_inv hs) (fun _ _ hs => meets_of_disciplined hs)
    (linkReady_inv gMx h)

/-- A session that has not been linked before, logged in and asking for one packet. -/
theorem disciplined_login :
    Throughout (step ⟨true, 1, 1234⟩) ExgMrRecoverSession.Disciplined
      (({} : ExgMrRecoverSession).onDeviceLinkReady ⟨true, 1, 1234⟩ 0)
      [Op.recv ([0, 16, 0, 30, 0, 0, 0, 1, 0, 0, 0, 0, 0, 0, 0, 0, 0, 1, 48] : Bytes) (fun _ => 0), .requestMcRecover 1 7 1] := by
  rw [disciplined_iff ⟨true, 1, 1234⟩ 0 {} (fun h => by cases h)]
  simp only [Along, Meets, and_true]
  intro answer hanswer
  have hnone : (({} : ExgMrRecoverSession).onDeviceLinkReady ⟨true, 1, 1234⟩ 0).answerIn (fun _ => 0)
      ([0, 16, 0, 30, 0, 0, 0, 1, 0, 0, 0, 0, 0, 0, 0, 0, 0, 1, 48] : Bytes) = none := by decide +kernel
  rw [hnone] at hanswer
  cases hanswer

/-- An answer that accepts a request but announces no packets leaves the session asking for ever. -/
theorem not_disciplined_empty_answer :
    ¬ ∀ (args : Args) (gMx : ℕ) (ops : List (Op Bytes)),
      Throughout (step args) ExgMrRecoverSession.Disciplined (({} : ExgMrRecoverSession).onDeviceLinkReady args gMx) ops := by
  intro h
  have hrun := h ⟨true, 1, 1234⟩ 0
    [.recv [0, 16, 0, 30, 0, 0, 0, 1, 0, 0, 0, 0, 0, 0, 0, 0, 0, 1, 48] (fun _ => 0), .requestMcRecover 1 7 1,
      .recv [0, 23, 0, 102, 0, 0, 0, 2, 0, 0, 0, 0, 0, 0, 0, 0, 0, 1, 0, 0, 0, 0, 5, 0, 0, 133] (fun _ => 0)]
  have hlast := hrun.2.2.2.requesting_iff.mp (by decide +kernel)
  exact absurd hlast (by decide +kernel)

end Run

end Fon9.Mr
