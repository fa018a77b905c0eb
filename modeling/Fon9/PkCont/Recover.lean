import Fon9.PkCont.Derived

/-! A request for the packets of a gap has failed. The pending packets up to the end of what
was requested are handed over, with those that continue them, and the sequence goes on at
that end. -/

namespace Fon9.PkCont

open Lib List PkContFeeder Nat

variable {D Pk : Type*}

variable (s : PkContFeeder Pk)

/-- `ResetBiggerNextSeq` -/
def PkContFeeder.resetBiggerNextSeq (newNextSeq : ℕ) : PkContFeeder Pk :=
  if s.nextSeq < newNextSeq then
    { s with lostCount := u64 (s.lostCount + u64sub newNextSeq s.nextSeq), nextSeq := newNextSeq }
  else s

/-- `StartPkContTimer` -/
def PkContFeeder.startPkContTimer : PkContFeeder Pk := { s with log := s.log ++ [.runAfter] }

namespace Derived

variable (on : OnReceived D Pk) (cfg : Config)

/-- What `PkContOnTimer` and `OnRecoverErr` do for a packet behind a gap. -/
def callLost (s : D × PkContFeeder Pk) (i : PkRec Pk) : D × PkContFeeder Pk :=
  callOnReceived on cfg (s.1, { s.2 with lostCount := u64 (s.2.lostCount + u64sub i.seq s.2.nextSeq) }) i.pk i.seq

/-- The loops of `OnRecoverErr`, with the packets that are left; `again` at the condition of the
inner loop, where a packet has just been handed over. -/
def recoverLoop (endSeq : ℕ) : Bool → D × PkContFeeder Pk → List (PkRec Pk) → (D × PkContFeeder Pk) × List (PkRec Pk)
  | _, s, [] => (s, [])
  | again, s, i :: rest =>
    if again ∧ s.2.nextSeq = i.seq then recoverLoop endSeq true (callOnReceived on cfg s i.pk i.seq) rest
    else if i.seq ≤ endSeq then recoverLoop endSeq true (callLost on cfg s i) rest
    else (s, i :: rest)

/-- `OnRecoverErr`, for the numbers before `endSeq`; `isNoRecover` where no session is left to ask. -/
def onRecoverErr (isNoRecover : Bool) (endSeq : ℕ) (s : D × PkContFeeder Pk) : D × PkContFeeder Pk :=
  if s.2.pkPendings.isEmpty then s
  else if isNoRecover then
    let r := pkContOnTimer on cfg s
    (r.1, r.2.resetBiggerNextSeq endSeq)
  else
    match recoverLoop on cfg endSeq false s s.2.pkPendings with
    | (r, []) => (r.1, { r.2 with pkPendings := [] })
    | (r, pks) => (r.1, ({ r.2 with pkPendings := pks }.resetBiggerNextSeq endSeq).startPkContTimer)

end Derived

/-! ### Numbers skipped -/

/-- `NextSeq_` behind packets handed over. -/
def nextBehind (next : ℕ) : List (Received Pk) → ℕ
  | [] => next
  | r :: news => nextBehind r.next news

/-- The numbers before each of the packets handed over. -/
def gaps (next : ℕ) : List (Received Pk) → ℕ
  | [] => 0
  | r :: news => r.seq - next + gaps r.next news

/-- The packets handed over rise from `next` on, and none of them changes `AfterNextSeq_` or is
the last of the sequence. -/
def RisesFrom (next : ℕ) : List (Received Pk) → Prop
  | [] => True
  | r :: news => next ≤ r.seq ∧ r.next = r.seq + 1 ∧ RisesFrom r.next news

/-! ### Handing over -/

/-- Of the packets `pks` the first ones have been handed over, and `rest` is left. -/
structure HandsOn (s s' : PkContFeeder Pk) (pks rest : List (PkRec Pk)) : Prop where
  handed : ∃ news : List (Received Pk), s'.log = s.log ++ news.map .received ∧
    news.map (fun r => ⟨r.pk, r.seq⟩) ++ rest = pks ∧
    u64 s'.lostCount = u64 (s.lostCount + gaps s.nextSeq news) ∧ s'.nextSeq = nextBehind s.nextSeq news
  pending : s'.pkPendings = s.pkPendings

theorem HandsOn.none (pks : List (PkRec Pk)) : HandsOn s s pks pks :=
  ⟨⟨[], (append_nil _).symm, rfl, rfl, rfl⟩, rfl⟩

/-- A packet has been handed over, with the numbers before it lost. -/
structure Calls (s s' : PkContFeeder Pk) (i : PkRec Pk) : Prop where
  log : s'.log = s.log ++ [.received ⟨i.pk, i.seq, s.nextSeq, s'.nextSeq⟩]
  lost : u64 s'.lostCount = u64 (s.lostCount + (i.seq - s.nextSeq))
  pending : s'.pkPendings = s.pkPendings

theorem HandsOn.cons {s s' s'' : PkContFeeder Pk} {i : PkRec Pk} {pks rest : List (PkRec Pk)} (hcall : Calls s s' i)
    (h : HandsOn s' s'' pks rest) : HandsOn s s'' (i :: pks) rest := by
  obtain ⟨⟨news, hlog, hpks, hlost, hnext⟩, hpending⟩ := h
  refine ⟨⟨⟨i.pk, i.seq, s.nextSeq, s'.nextSeq⟩ :: news, ?_, ?_, ?_, hnext⟩, hpending.trans hcall.pending⟩
  · rw [hlog, hcall.log, append_assoc]
    rfl
  · rw [← hpks]
    rfl
  · have hstep : s'.lostCount % 2 ^ 64 = (s.lostCount + (i.seq - s.nextSeq)) % 2 ^ 64 := hcall.lost
    rw [hlost, gaps, u64, u64, add_mod, hstep, ← add_mod, add_assoc]

namespace Derived

variable {on : OnReceived D Pk} {cfg : Config} {s : D × PkContFeeder Pk} {i : PkRec Pk} {pks : List (PkRec Pk)}

section Loops

variable (hfirst : cfg.firstSeqNoAfterOverflow ≤ cfg.maxSeqNo) (hon : ∀ d f pk seq, (on d f pk seq).2 ≤ seq + 1)
include hfirst hon

end Loops

end Derived

/-! ### What is kept -/

theorem resetBiggerNextSeq_log (n : ℕ) : (s.resetBiggerNextSeq n).log = s.log := by
  rw [resetBiggerNextSeq]
  split_ifs <;> rfl

theorem resetBiggerNextSeq_pkPendings (n : ℕ) :
    (s.resetBiggerNextSeq n).pkPendings = s.pkPendings := by
  rw [resetBiggerNextSeq]
  split_ifs <;> rfl

namespace Derived

variable {on : OnReceived D Pk} {cfg : Config} {s r : D × PkContFeeder Pk} {endSeq : ℕ}

theorem onRecoverErr_empty (h : s.2.pkPendings = []) (isNoRecover : Bool) : onRecoverErr on cfg isNoRecover endSeq s = s := by
  rw [onRecoverErr, h]
  exact if_pos rfl

theorem onRecoverErr_flush (h : s.2.pkPendings ≠ []) :
    onRecoverErr on cfg true endSeq s = ((pkContOnTimer on cfg s).1, (pkContOnTimer on cfg s).2.resetBiggerNextSeq endSeq) := by
  rw [onRecoverErr, if_neg (fun hempty => h (List.isEmpty_iff.mp hempty)), if_pos rfl]

theorem onRecoverErr_all (h : s.2.pkPendings ≠ []) (hloop : recoverLoop on cfg endSeq false s s.2.pkPendings = (r, [])) :
    onRecoverErr on cfg false endSeq s = (r.1, { r.2 with pkPendings := [] }) := by
  rw [onRecoverErr, if_neg (fun hempty => h (List.isEmpty_iff.mp hempty)), if_neg Bool.false_ne_true, hloop]

theorem onRecoverErr_some {i : PkRec Pk} {rest : List (PkRec Pk)} (h : s.2.pkPendings ≠ [])
    (hloop : recoverLoop on cfg endSeq false s s.2.pkPendings = (r, i :: rest)) :
    onRecoverErr on cfg false endSeq s =
      (r.1, ({ r.2 with pkPendings := i :: rest }.resetBiggerNextSeq endSeq).startPkContTimer) := by
  rw [onRecoverErr, if_neg (fun hempty => h (List.isEmpty_iff.mp hempty)), if_neg Bool.false_ne_true, hloop]

/-- The packets that are left, by their numbers: those from the first one on that is behind
`endSeq` and does not continue the one before it. -/
def unhanded (cfg : Config) (endSeq : ℕ) : Option ℕ → List (PkRec Pk) → List (PkRec Pk)
  | _, [] => []
  | next, i :: rest =>
    if next = some i.seq ∨ i.seq ≤ endSeq then unhanded cfg endSeq (some (PkContFeeder.afterReceived cfg i.seq)) rest
    else i :: rest

theorem nextSeq_plain (hon : ∀ d f pk seq, (on d f pk seq).2 = u64 (seq + 1)) (s : D × PkContFeeder Pk) (pk : Pk)
    (seq : ℕ) : (callOnReceived on cfg s pk seq).2.nextSeq = afterReceived cfg seq := by
  show nextSeqOf cfg (on s.1 s.2 pk seq).2 = _
  rw [hon]
  rfl

end Derived

end Fon9.PkCont
