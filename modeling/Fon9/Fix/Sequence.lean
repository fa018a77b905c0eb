import Fon9.Lib.Run
import Fon9.Fix.Dispatch

/-! The sequence discipline of the receiver: every message dispatched in sequence
moves `NextRecvSeq_` on by one, or to the `NewSeqNo` of an accepted `SequenceReset`,
so that no number is dispatched twice and none is passed over. It holds as long as
the messages in sequence are of a kind that is recorded exactly once. -/

namespace Fon9.Fix

open Lib List

variable {σ : Type*} (env : Env σ)

namespace Move

def before : Move → ℕ
  | dispatched _ _ b _ => b
  | recorded _ b _ => b
  | forced b _ => b

def after : Move → ℕ
  | dispatched _ _ _ a => a
  | recorded _ _ a => a
  | forced _ a => a

/-- A move as it should be: the message dispatched carries the expected number and
takes it; only a reset mode `SequenceReset` moves from out of sequence. -/
def Ok : Move → Prop
  | dispatched msg .conform b a =>
    b = msg.msgSeqNum ∧ a = nextAfter env msg ∧ (resetsTo env msg = none → b < a)
  | dispatched msg _ b a => a = (resetsTo env msg).getD b
  | recorded msg b a => b = msg.msgSeqNum ∧ a = b + 1
  | forced _ _ => True

/-- What a move keeps even where a number is not taken: a message dispatched in sequence
carries the expected number, and without a reset no move goes back. -/
def Steady : Move → Prop
  | dispatched msg .conform b a => b = msg.msgSeqNum ∧ (resetsTo env msg = none → b ≤ a)
  | dispatched msg _ b a => resetsTo env msg = none → b ≤ a
  | recorded _ b a => b ≤ a
  | forced _ _ => True

/-- The move sets the number anew. -/
def IsReset : Move → Prop
  | dispatched msg _ _ _ => resetsTo env msg ≠ none
  | recorded _ _ _ => False
  | forced _ _ => True

/-- The number dispatched in sequence, if the move is one. -/
def seqDispatched : Move → Option ℕ
  | dispatched msg .conform _ _ => some msg.msgSeqNum
  | _ => none

end Move

/-- Each move starts where the one before has ended. -/
def Chained : ℕ → List Move → ℕ → Prop
  | a, [], b => a = b
  | a, mv :: mvs, b => mv.before = a ∧ Chained mv.after mvs b

theorem Chained.append {a b c : ℕ} {xs ys : List Move} (h : Chained a xs b) (h' : Chained b ys c) :
    Chained a (xs ++ ys) c := by
  induction xs generalizing a with
  | nil =>
    cases h
    exact h'
  | cons mv xs ih => exact ⟨h.1, ih h.2⟩

theorem Chained.split {a c : ℕ} {xs ys : List Move} (h : Chained a (xs ++ ys) c) :
    ∃ b, Chained a xs b ∧ Chained b ys c := by
  induction xs generalizing a with
  | nil => exact ⟨a, rfl, h⟩
  | cons mv xs ih =>
    obtain ⟨b, h1, h2⟩ := ih h.2
    exact ⟨b, ⟨h.1, h1⟩, h2⟩

/-- The discipline of the receive sequence over all moves from `start` on. -/
structure Disciplined (start : ℕ) (c : Core) : Prop where
  ok : ∀ mv ∈ c.history.moves, mv.Ok env
  chained : Chained start c.history.moves c.nextRecvSeq

variable {env}

theorem Move.Ok.steady {mv : Move} (h : mv.Ok env) : mv.Steady env := by
  cases mv with
  | dispatched msg seqSt b a =>
    cases seqSt with
    | conform => exact ⟨h.1, fun hr => (h.2.2 hr).le⟩
    | tooHigh =>
      intro hr
      rw [show a = (resetsTo env msg).getD b from h, hr]
      exact le_rfl
    | tooLow =>
      intro hr
      rw [show a = (resetsTo env msg).getD b from h, hr]
      exact le_rfl
  | recorded msg b a =>
    obtain ⟨-, rfl⟩ := h
    exact Nat.le_succ _
  | forced b a => trivial

theorem Move.Steady.le {mv : Move} (h : mv.Steady env) (hr : ¬ mv.IsReset env) : mv.before ≤ mv.after := by
  cases mv with
  | dispatched msg seqSt b a =>
    have hnone : resetsTo env msg = none := not_not.mp hr
    cases seqSt with
    | conform => exact h.2 hnone
    | tooHigh => exact h hnone
    | tooLow => exact h hnone
  | recorded msg b a => exact h
  | forced b a => exact absurd trivial hr

variable {a b : ℕ} {start : ℕ}

/-- Without a reset a dispatched number lies from the start on, and is passed. -/
theorem Chained.seqDispatched_ge {mvs : List Move} (h : Chained a mvs b) (hok : ∀ mv ∈ mvs, mv.Steady env)
    (hr : ∀ mv ∈ mvs, ¬ mv.IsReset env) :
    ∀ n ∈ mvs.filterMap Move.seqDispatched, a ≤ n := by
  induction mvs generalizing a with
  | nil => simp
  | cons mv mvs ih =>
    obtain ⟨rfl, htail⟩ := h
    have hmv : mv.Steady env := hok mv (by simp)
    have hle : mv.before ≤ mv.after := hmv.le (hr mv (by simp))
    intro n hn
    rw [filterMap_cons] at hn
    have hin : n ∈ mvs.filterMap Move.seqDispatched → mv.before ≤ n := fun hn =>
      hle.trans (ih htail (fun m hm => hok m (by simp [hm])) (fun m hm => hr m (by simp [hm])) n hn)
    cases hseq : mv.seqDispatched with
    | none => exact hin (by simpa [hseq] using hn)
    | some k =>
      rw [hseq] at hn
      obtain rfl | hn := mem_cons.mp hn
      · cases mv with
        | dispatched msg seqSt b a =>
          cases seqSt with
          | conform => exact le_of_eq (hmv.1.trans (Option.some.inj hseq))
          | tooHigh => cases hseq
          | tooLow => cases hseq
        | recorded => cases hseq
        | forced => cases hseq
      · exact hin hn

/-- Between two resets the numbers dispatched in sequence grow strictly: none is
dispatched twice. -/
theorem Chained.seqDispatched_pairwise {mvs : List Move} (h : Chained a mvs b) (hok : ∀ mv ∈ mvs, mv.Ok env)
    (hr : ∀ mv ∈ mvs, ¬ mv.IsReset env) :
    (mvs.filterMap Move.seqDispatched).Pairwise (· < ·) := by
  induction mvs generalizing a with
  | nil => exact List.Pairwise.nil
  | cons mv mvs ih =>
    have hok' : ∀ m ∈ mvs, m.Ok env := fun m hm => hok m (by simp [hm])
    have hr' : ∀ m ∈ mvs, ¬ m.IsReset env := fun m hm => hr m (by simp [hm])
    have htail := ih h.2 hok' hr'
    have hge := h.2.seqDispatched_ge (fun m hm => (hok' m hm).steady) hr'
    have hmv : mv.Ok env := hok mv (by simp)
    rw [filterMap_cons]
    cases mv with
    | dispatched msg seqSt b a =>
      cases seqSt with
      | conform =>
        have hnone : resetsTo env msg = none := not_not.mp (hr _ mem_cons_self)
        have hlt : msg.msgSeqNum < a := hmv.1 ▸ hmv.2.2 hnone
        exact pairwise_cons.mpr ⟨fun n hn => hlt.trans_le (hge n hn), htail⟩
      | tooHigh => exact htail
      | tooLow => exact htail
    | recorded => exact htail
    | forced => exact htail

theorem Disciplined.once {c : Core} (h : Disciplined env start c) (seg : List Move) (hseg : seg <:+: c.history.moves)
    (hr : ∀ mv ∈ seg, ¬ mv.IsReset env) :
    (seg.filterMap Move.seqDispatched).Pairwise (· < ·) := by
  obtain ⟨pre, post, heq⟩ := hseg
  have hch := h.chained
  rw [← heq, append_assoc] at hch
  obtain ⟨_, -, hrest⟩ := hch.split
  obtain ⟨_, hmid, -⟩ := hrest.split
  exact hmid.seqDispatched_pairwise
    (fun mv hmv => h.ok mv (heq ▸ by simp [hmv])) hr

theorem handled_nextRecvSeq (env : Env σ) (c : Core) (msg : FixMsg) :
    (c.handled env msg).nextRecvSeq = handledNext env msg := by
  unfold Core.handled handledNext
  cases actionOf env msg <;> rfl

theorem gap_nextRecvSeq (c : Core) (msg : FixMsg) (keep : Bool) :
    (c.gap msg keep).nextRecvSeq = c.nextRecvSeq := by
  unfold Core.gap
  split <;> rfl

theorem gap_moves (c : Core) (msg : FixMsg) (keep : Bool) :
    (c.gap msg keep).history.moves = c.history.moves := by
  unfold Core.gap
  split <;> rfl

theorem mem_gap_msgKeeper {c : Core} {msg k : FixMsg} {keep : Bool}
    (hk : k ∈ (c.gap msg keep).msgKeeper) :
    k ∈ c.msgKeeper ∨ (k = msg ∧ keep = true ∧ c.lastGapSeqNo < msg.msgSeqNum) := by
  unfold Core.gap at hk
  by_cases hlast : msg.msgSeqNum ≤ c.lastGapSeqNo
  · rw [if_pos hlast] at hk
    exact .inl hk
  · rw [if_neg hlast] at hk
    cases keep with
    | false => exact .inl hk
    | true =>
      obtain hk | hk := mem_append.mp hk
      · exact .inl hk
      · exact .inr ⟨mem_singleton.mp hk, rfl, not_le.mp hlast⟩

variable (env)

/-- The message is put into the keeper when it is dispatched. -/
def Keeps (s : FixReceiver σ) (msg : FixMsg) : Prop :=
  s.nextRecvSeq < msg.msgSeqNum ∧ s.lastGapSeqNo < msg.msgSeqNum ∧
    reports env (s.see msg) msg = some true

instance (s : FixReceiver σ) (msg : FixMsg) : Decidable (Keeps env s msg) :=
  inferInstanceAs (Decidable (_ ∧ _))

/-- What a step must meet: a message that is in sequence is as `S` says, one that is
kept to be so later as `R` says, and the number after one that is only recorded fits in
32 bits. -/
def Orderly (S R : FixMsg → Prop) (s : FixReceiver σ) : Op σ → Prop
  | .dispatch msg =>
    (Checked env msg → (msg.msgSeqNum = s.nextRecvSeq → S msg) ∧ (Keeps env s msg → R msg)) ∧
    (¬ Checked env msg → (msg.getField kTagMsgType).isSome →
      msg.msgSeqNum = s.nextRecvSeq → msg.msgSeqNum + 1 < 2 ^ 32)
  | .acceptLogon msg => msg.msgSeqNum = s.nextRecvSeq → msg.msgSeqNum + 1 < 2 ^ 32
  | _ => True

instance (S R : FixMsg → Prop) [DecidablePred S] [DecidablePred R] (s : FixReceiver σ) :
    ∀ op, Decidable (Orderly env S R s op)
  | .dispatch _ => inferInstanceAs (Decidable (_ ∧ _))
  | .acceptLogon _ => inferInstanceAs (Decidable (_ → _))
  | .clearRecvKeeper => .isTrue trivial
  | .forceResetRecvSeq _ _ => .isTrue trivial
  | .derived _ => .isTrue trivial

/-- A property of moves that the dispatch of messages as `S` says keeps up; kept messages
as `R` says are of that kind. -/
structure Tracks (Q : Move → Prop) (S R : FixMsg → Prop) : Prop where
  kept : ∀ msg, R msg → S msg
  handled : ∀ msg, S msg → Q (.dispatched msg .conform msg.msgSeqNum (handledNext env msg))
  strayed : ∀ msg seqSt b, seqSt ≠ .conform → Q (.dispatched msg seqSt b ((resetsTo env msg).getD b))
  recorded : ∀ msg, msg.msgSeqNum + 1 < 2 ^ 32 → Q (.recorded msg msg.msgSeqNum (msg.msgSeqNum + 1))
  forced : ∀ b a, Q (.forced b a)

/-- All moves so far are as `Q` says and form a chain, and the kept messages are as `R`
says. -/
structure Traced (Q : Move → Prop) (R : FixMsg → Prop) (start : ℕ) (c : Core) : Prop where
  moves : ∀ mv ∈ c.history.moves, Q mv
  chained : Chained start c.history.moves c.nextRecvSeq
  kept : ∀ k ∈ c.msgKeeper, Checked env k ∧ R k

variable {env} {Q : Move → Prop} {S R : FixMsg → Prop}

theorem tracks_ok : Tracks env (Move.Ok env) (Advances env) (Advances env) where
  kept _ h := h
  handled _ h := ⟨rfl, h.1, fun hr => h.1 ▸ h.2 hr⟩
  strayed msg seqSt b hst := by
    cases seqSt with
    | conform => exact absurd rfl hst
    | tooHigh => rfl
    | tooLow => rfl
  recorded _ _ := ⟨rfl, rfl⟩
  forced _ _ := trivial

/-- Without a reset the message does not move the sequence back. -/
def Forward (env : Env σ) (msg : FixMsg) : Prop :=
  resetsTo env msg = none → msg.msgSeqNum ≤ handledNext env msg

theorem tracks_steady : Tracks env (Move.Steady env) (Forward env) (Forward env) where
  kept _ h := h
  handled _ h := ⟨rfl, h⟩
  strayed msg seqSt b hst := by
    have hle : resetsTo env msg = none → b ≤ (resetsTo env msg).getD b := by
      intro hr
      rw [hr]
      exact le_rfl
    cases seqSt with
    | conform => exact absurd rfl hst
    | tooHigh => exact hle
    | tooLow => exact hle
  recorded _ _ := Nat.le_succ _
  forced _ _ := trivial

namespace Traced

variable {start : ℕ} {c c' : Core} {msg : FixMsg}

theorem congr (h : Traced env Q R start c) (hn : c'.nextRecvSeq = c.nextRecvSeq)
    (hm : c'.history.moves = c.history.moves) (hk : ∀ k ∈ c'.msgKeeper, k ∈ c.msgKeeper) :
    Traced env Q R start c' :=
  ⟨by rw [hm]; exact h.moves, by rw [hm, hn]; exact h.chained, fun k hk' => h.kept k (hk k hk')⟩

/-- A move added at the end. -/
theorem move (mv : Move) (h : Traced env Q R start c) (hmv : Q mv) (hb : mv.before = c.nextRecvSeq)
    (ha : mv.after = c'.nextRecvSeq) (hm : c'.history.moves = c.history.moves ++ [mv])
    (hk : ∀ k ∈ c'.msgKeeper, Checked env k ∧ R k) : Traced env Q R start c' := by
  refine ⟨?_, ?_, hk⟩
  · intro m hmem
    rw [hm] at hmem
    obtain hmem | hmem := mem_append.mp hmem
    · exact h.moves m hmem
    · rwa [mem_singleton.mp hmem]
  · rw [hm]
    exact h.chained.append ⟨hb, ha⟩

theorem gap (h : Traced env Q R start c) {keep : Bool}
    (hkeep : keep = true → c.lastGapSeqNo < msg.msgSeqNum → Checked env msg ∧ R msg) :
    Traced env Q R start (c.gap msg keep) := by
  refine ⟨?_, ?_, ?_⟩
  · rw [gap_moves]
    exact h.moves
  · rw [gap_moves, gap_nextRecvSeq]
    exact h.chained
  · intro k hk
    obtain hk | ⟨rfl, rfl, hlast⟩ := mem_gap_msgKeeper hk
    · exact h.kept k hk
    · exact hkeep rfl hlast

theorem gapIf (h : Traced env Q R start c) {report : Option Bool}
    (hkeep : report = some true → c.lastGapSeqNo < msg.msgSeqNum → Checked env msg ∧ R msg) :
    Traced env Q R start (c.gapIf msg report) := by
  cases report with
  | none => exact h
  | some keep => exact h.gap fun hk => hkeep (by rw [hk])

theorem handled (ht : Tracks env Q S R) (h : Traced env Q R start c) (hseq : msg.msgSeqNum = c.nextRecvSeq)
    (hS : S msg) : Traced env Q R start (c.handled env msg) := by
  have hafter := handled_nextRecvSeq env c msg
  refine h.move (.dispatched msg .conform msg.msgSeqNum (c.handled env msg).nextRecvSeq) ?_ hseq rfl ?_ ?_
  · rw [hafter]
    exact ht.handled msg hS
  · unfold Core.handled
    cases actionOf env msg <;> rfl
  · intro k hk
    apply h.kept
    unfold Core.handled at hk
    cases hact : actionOf env msg with
    | plain =>
      rw [hact] at hk
      exact hk
    | gapFill n =>
      rw [hact] at hk
      exact hk
    | reset n =>
      rw [hact] at hk
      exact absurd hk not_mem_nil

theorem strayed (ht : Tracks env Q S R) (h : Traced env Q R start c) {seqSt : FixSeqSt}
    (hst : seqSt ≠ .conform) {report : Option Bool}
    (hkeep : seqSt = .tooHigh → report = some true → c.lastGapSeqNo < msg.msgSeqNum →
      Checked env msg ∧ R msg) :
    Traced env Q R start (c.strayed env msg seqSt report) := by
  have hmv := ht.strayed msg seqSt c.nextRecvSeq hst
  unfold Core.strayed
  cases hr : resetsTo env msg with
  | some n =>
    rw [hr] at hmv
    exact h.move (.dispatched msg seqSt c.nextRecvSeq n) hmv rfl rfl rfl
      fun k hk => absurd hk not_mem_nil
  | none =>
    rw [hr] at hmv
    have hgap : Traced env Q R start (if seqSt = .tooHigh then c.gapIf msg report else c) ∧
        (if seqSt = .tooHigh then c.gapIf msg report else c).nextRecvSeq = c.nextRecvSeq := by
      by_cases hhigh : seqSt = .tooHigh
      · simp only [hhigh, if_true]
        refine ⟨h.gapIf (hkeep hhigh), ?_⟩
        cases report with
        | none => rfl
        | some keep => exact gap_nextRecvSeq c msg keep
      · simp only [hhigh, if_false]
        exact ⟨h, trivial⟩
    refine hgap.1.move (.dispatched msg seqSt c.nextRecvSeq c.nextRecvSeq) hmv hgap.2.symm hgap.2.symm ?_
      hgap.1.kept
    show _ ++ [Move.dispatched msg seqSt c.nextRecvSeq _] = _
    rw [hgap.2]

/-- A number recorded without a dispatch. -/
theorem recorded (ht : Tracks env Q S R) (h : Traced env Q R start c) (hseq : msg.msgSeqNum = c.nextRecvSeq)
    (hlt : msg.msgSeqNum + 1 < 2 ^ 32) (hn : c'.nextRecvSeq = u32 (c.nextRecvSeq + 1))
    (hm : c'.history.moves = c.history.moves ++ [.recorded msg c.nextRecvSeq (u32 (c.nextRecvSeq + 1))])
    (hk : c'.msgKeeper = c.msgKeeper) : Traced env Q R start c' := by
  refine h.move (.recorded msg c.nextRecvSeq (u32 (c.nextRecvSeq + 1))) ?_ rfl hn.symm hm
    fun k hk' => h.kept k (hk ▸ hk')
  rw [← hseq, u32_of_lt hlt]
  exact ht.recorded msg hlt

end Traced

namespace FixReceiver

variable {start : ℕ} {s : FixReceiver σ} {msg : FixMsg} {check : FixReceiver σ → ℕ → FixReceiver σ}

theorem compareFixSeqNum_of_ne (h : a ≠ b) : compareFixSeqNum a b ≠ .conform := by
  unfold compareFixSeqNum
  rw [if_neg h]
  split <;> simp

theorem compareFixSeqNum_tooHigh (h : compareFixSeqNum a b = .tooHigh) : b < a := by
  unfold compareFixSeqNum at h
  split_ifs at h with h1 h2
  omega

/-- The dispatch of an orderly message keeps the discipline, when `CheckMsgKeeper` does. -/
theorem dispatchWith_traced (ht : Tracks env Q S R)
    (hcheck : ∀ s n, Traced env Q R start s.toCore → Traced env Q R start (check s n).toCore)
    (h : Traced env Q R start s.toCore) (hok : Orderly env S R s (.dispatch msg)) :
    Traced env Q R start (s.dispatchWith env check msg).toCore := by
  by_cases hck : Checked env msg
  · have hsee : Traced env Q R start (s.see msg).toCore := h.congr rfl rfl fun k hk => hk
    by_cases hseq : msg.msgSeqNum = s.nextRecvSeq
    · have hS := (hok.1 hck).1 hseq
      obtain ⟨s1, ⟨s2, hcore, -, rfl⟩, heq⟩ := dispatchWith_conform check hck hseq
      have h2 : Traced env Q R start s2.toCore := hcore ▸ hsee.handled ht hseq hS
      have h3 : Traced env Q R start (resume check s2 (s.see msg).resendRequestEndSeqNo (actionOf env msg)).toCore := by
        unfold resume
        cases actionOf env msg with
        | plain => exact h2
        | reset n => exact h2
        | gapFill n =>
          show Traced env Q R start (if _ then check s2 n else s2).toCore
          split
          · exact hcheck s2 n h2
          · exact h2
      rw [heq]
      unfold onMessageProcessed
      split
      · exact hcheck _ _ h3
      · exact h3
    · have hkeep : compareFixSeqNum msg.msgSeqNum s.nextRecvSeq = .tooHigh →
          reports env (s.see msg) msg = some true → s.lastGapSeqNo < msg.msgSeqNum →
          Checked env msg ∧ R msg := fun hhigh hrep hlast =>
        ⟨hck, (hok.1 hck).2 ⟨compareFixSeqNum_tooHigh hhigh, hlast, hrep⟩⟩
      obtain hcore | ⟨keep, hrep, hcore⟩ := dispatchWith_stray check hck hseq
      · rw [hcore]
        exact hsee.strayed ht (compareFixSeqNum_of_ne hseq) hkeep
      · rw [hcore]
        split
        · next hhigh => exact hsee.gap fun hk => hkeep hhigh (by rw [hrep hhigh, hk])
        · exact hsee
  · obtain hcore | ⟨hty, hseq, hcore⟩ := dispatchWith_unchecked check s hck
    · rw [hcore]
      exact h
    · rw [hcore]
      exact h.recorded ht hseq (hok.2 hck hty hseq) rfl rfl rfl

theorem checkMsgKeeper_traced (ht : Tracks env Q S R) (fuel : ℕ) (n : ℕ) (h : Traced env Q R start s.toCore) :
    Traced env Q R start (s.checkMsgKeeper env fuel n).toCore := by
  induction fuel generalizing s n with
  | zero => exact h
  | succ fuel ih =>
    cases hk : s.msgKeeper with
    | nil =>
      rw [checkMsgKeeper_nil hk]
      split <;> exact h.congr rfl rfl fun k hk => hk
    | cons msg rest =>
      obtain hlt | heq | hgt := lt_trichotomy n msg.msgSeqNum
      · rw [checkMsgKeeper_gap hk hlt]
        exact h.congr rfl rfl fun k hk => hk
      · rw [checkMsgKeeper_next hk heq]
        have hmsg := h.kept msg (by rw [hk]; simp)
        have hdisp : Traced env Q R start ((s.noteTaken msg).dispatchWith env (checkMsgKeeper env fuel) msg).toCore :=
          dispatchWith_traced ht (fun s n hs => ih n hs) (h.congr rfl rfl fun k hk => hk)
            ⟨fun _ => ⟨fun _ => ht.kept _ hmsg.2, fun _ => hmsg.2⟩, fun hn => absurd hmsg.1 hn⟩
        exact ih _ (hdisp.congr rfl rfl fun k hk => mem_of_mem_tail hk)
      · rw [checkMsgKeeper_skip hk hgt]
        exact ih _ (h.congr rfl rfl fun k hk => mem_of_mem_tail hk)

end FixReceiver

/-- A step that is orderly keeps the discipline. -/
theorem step_traced (ht : Tracks env Q S R) (s : FixReceiver σ) (op : Op σ) (h : Traced env Q R start s.toCore)
    (hok : Orderly env S R s op) : Traced env Q R start (step env s op).toCore := by
  cases op with
  | dispatch msg =>
    exact FixReceiver.dispatchWith_traced ht (fun s n hs => FixReceiver.checkMsgKeeper_traced ht _ n hs) h hok
  | acceptLogon msg =>
    show Traced env Q R start (s.acceptLogon msg).toCore
    unfold FixReceiver.acceptLogon
    cases hst : compareFixSeqNum msg.msgSeqNum s.nextRecvSeq with
    | tooLow => exact h
    | conform =>
      have hseq : msg.msgSeqNum = s.nextRecvSeq :=
        by_contra fun hne => FixReceiver.compareFixSeqNum_of_ne hne hst
      exact h.recorded ht hseq (hok hseq) rfl rfl rfl
    | tooHigh =>
      have hcore := FixReceiver.onMsgSeqNumTooHigh_toCore (s.write (.ignoreRecv msg.origMsgStr)) msg gapSkipRecord
      have hgap : Traced env Q R start
          ((s.write (.ignoreRecv msg.origMsgStr)).onMsgSeqNumTooHigh msg gapSkipRecord).toCore := by
        rw [hcore]
        exact h.gap fun hk => absurd hk (by decide)
      exact hgap.congr rfl rfl fun k hk => hk
  | clearRecvKeeper =>
    exact h.congr rfl rfl fun k hk => absurd hk not_mem_nil
  | forceResetRecvSeq info n =>
    exact h.move (.forced s.nextRecvSeq n) (ht.forced _ _) rfl rfl rfl h.kept
  | derived f => exact h

theorem init_traced (start : ℕ) (derived : σ) :
    Traced env Q R start ({ nextRecvSeq := start, derived := derived } : FixReceiver σ).toCore :=
  ⟨fun _ hmv => absurd hmv not_mem_nil, rfl, fun _ hk => absurd hk not_mem_nil⟩

theorem Traced.run (ht : Tracks env Q S R) {s : FixReceiver σ} (h : Traced env Q R start s.toCore) (ops : List (Op σ))
    (hok : Along (step env) (Orderly env S R) s ops) :
    Traced env Q R start (run env s ops).toCore :=
  hok.foldl (P := fun s => Traced env Q R start s.toCore) (step_traced ht) h

/-- In a run of orderly steps every message dispatched in sequence carries the expected
number and moves it on by one, or to the `NewSeqNo` of an accepted `SequenceReset`;
and between resets no number is dispatched twice. -/
theorem run_disciplined (start : ℕ) (derived : σ) (ops : List (Op σ))
    (hok : Along (step env) (Orderly env (Advances env) (Advances env)) { nextRecvSeq := start, derived := derived } ops) :
    let c := (run env { nextRecvSeq := start, derived := derived } ops).toCore
    Disciplined env start c ∧
      ∀ seg, seg <:+: c.history.moves → (∀ mv ∈ seg, ¬ mv.IsReset env) →
        (seg.filterMap Move.seqDispatched).Pairwise (· < ·) :=
  have hrun := (init_traced start derived).run tracks_ok ops hok
  have hdisc : Disciplined env start _ := ⟨hrun.moves, hrun.chained⟩
  ⟨hdisc, hdisc.once⟩

/-- The set-up of the receiver's unit test: execution reports are kept, orders and
test requests are not. -/
def utEnv : Env Unit where
  compIDs :=
    { sender := ⟨cstr "TargetId", cstr "TargetSubId"⟩, target := ⟨cstr "SenderId", cstr "SenderSubId"⟩ }
  config := initFixConfig fun msgType =>
    let handler : FixMsgHandler Unit := .user { onMsg := fun _ _ _ => { derived := () } }
    if msgType = [ch '8'] then some { isInfiniteTTL := true, fixMsgHandler := some handler }
    else if msgType = [ch 'D'] then some { fixMsgHandler := some handler }
    else if msgType = kMsgTypeTestRequest then
      some { fixMsgHandler := some (.user { onMsg := fun _ msg _ =>
        { derived := (), sent := [sendHeartbeat (msg.getField kTagTestReqID)] } }) }
    else none

/-- A message from the other side of the unit test. -/
def utMsg (msgSeqNum : ℕ) (msgType : Bytes) (fields : List (ℕ × Bytes)) : FixMsg where
  msgSeqNum := msgSeqNum
  fields := [(kTagMsgType, msgType), (kTagSenderCompID, cstr "SenderId"), (kTagSenderSubID, cstr "SenderSubId"),
    (kTagTargetCompID, cstr "TargetId"), (kTagTargetSubID, cstr "TargetSubId")] ++ fields

/-- Report 3 is kept behind a gap and order 5 is dropped; the gap is filled, the kept
report dispatched and the rest sent again, before a reset. -/
theorem run_disciplined_recovery :
    let ops : List (Op Unit) :=
      [.dispatch (utMsg 1 kMsgTypeTestRequest []), .dispatch (utMsg 3 [ch '8'] []),
        .dispatch (utMsg 5 [ch 'D'] []),
        .dispatch (utMsg 2 kMsgTypeSequenceReset [(kTagGapFillFlag, cstr "Y"), (kTagNewSeqNo, cstr "3")]),
        .dispatch (utMsg 4 [ch '8'] [(kTagPossDupFlag, cstr "Y")]),
        .dispatch (utMsg 4 [ch '8'] [(kTagPossDupFlag, cstr "Y")]),
        .dispatch (utMsg 5 [ch 'D'] [(kTagPossDupFlag, cstr "Y")]),
        .dispatch (utMsg 9 kMsgTypeSequenceReset [(kTagNewSeqNo, cstr "20")])]
    let c := (run utEnv { nextRecvSeq := 1, derived := () } ops).toCore
    Disciplined utEnv 1 c ∧
      ∀ seg, seg <:+: c.history.moves → (∀ mv ∈ seg, ¬ mv.IsReset utEnv) →
        (seg.filterMap Move.seqDispatched).Pairwise (· < ·) :=
  run_disciplined 1 () _ (by decide +kernel)

/-- A ResendRequest in sequence leaves `NextRecvSeq_` alone, and its number is
dispatched a second time. -/
theorem run_not_disciplined :
    let ops : List (Op Unit) :=
      [.dispatch (utMsg 1 kMsgTypeResendRequest [(kTagBeginSeqNo, cstr "1"), (kTagEndSeqNo, cstr "0")]),
        .dispatch (utMsg 1 [ch '8'] [])]
    let c := (run utEnv { nextRecvSeq := 1, derived := () } ops).toCore
    ¬ Disciplined utEnv 1 c ∧ c.history.moves.filterMap Move.seqDispatched = [1, 1] := by
  intro ops c
  refine ⟨fun h => ?_, by decide +kernel⟩
  have hok := h.ok (.dispatched
    (utMsg 1 kMsgTypeResendRequest [(kTagBeginSeqNo, cstr "1"), (kTagEndSeqNo, cstr "0")]) .conform 1 1)
    (by decide +kernel)
  exact absurd hok.2.1 (by decide +kernel)

end Fon9.Fix
