import Fon9.Fix.Sequence

/-! Gap recovery. While a request is out, the numbers up to its end are missing, and the
keeper holds messages above it in ascending order. When the range is filled the kept
messages that continue the sequence are dispatched, up to the next gap; the recovery
is over when none is left. -/

namespace Fon9.Fix

open Lib List FixReceiver Nat

variable {σ : Type*} (env : Env σ)

namespace Core

/-- A kept message dispatched in sequence and taken off the keeper. -/
def takeKept (c : Core) (msg : FixMsg) : Core :=
  let c' : Core := { c with
    msgKeeper := c.msgKeeper.tail
    history.taken := c.history.taken ++ [msg]
    history.seen := max c.history.seen msg.msgSeqNum }
  c'.handled env msg

/-- `CheckMsgKeeper` on kept messages that are in ascending order from `n` on. -/
def drain (c : Core) (n : ℕ) : List FixMsg → Core
  | [] => if n < c.lastGapSeqNo then { c with resendRequestEndSeqNo := c.lastGapSeqNo } else c.recovered
  | k :: ks =>
    if n < k.msgSeqNum then { c with resendRequestEndSeqNo := k.msgSeqNum - 1 }
    else drain (c.takeKept env k) (n + 1) ks

/-- A message in sequence, with the keeper looked at behind it. -/
def processed (c : Core) (msg : FixMsg) : Core :=
  match actionOf env msg with
  | .plain =>
    if c.resendRequestEndSeqNo > 0 ∧ msg.msgSeqNum = c.resendRequestEndSeqNo then
      (c.handled env msg).drain env (msg.msgSeqNum + 1) c.msgKeeper
    else c.handled env msg
  | .gapFill n =>
    if c.resendRequestEndSeqNo < n then (c.handled env msg).drain env n c.msgKeeper
    else c.handled env msg
  | .reset _ => c.handled env msg

end Core

/-- A message that may wait in the keeper: its header is in order, it is of a type that
is kept, and it takes its own number only. -/
structure Keepable (msg : FixMsg) : Prop where
  checked : Checked env msg
  plain : actionOf env msg = .plain
  next : handledNext env msg = msg.msgSeqNum + 1
  kept : ∃ s, reports env s msg = some true

/-- A property of the derived state that the virtual calls keep up. -/
structure Lasting (P : σ → Prop) : Prop where
  recoverDone : ∀ d, P d → P (env.onRecoverDone d).1
  logoutRequired : ∀ d text, P d → P (env.onLogoutRequired d text).1

/-- A property of the derived state that the handlers of kept messages keep up as well. -/
structure Upheld (P : σ → Prop) : Prop extends Lasting env P where
  kept : ∀ (s : FixReceiver σ) msg, Keepable env msg → P s.derived → P (s.handledDerived env msg)

/-- Kept messages in ascending order, from `n` on. -/
structure Ascending (n : ℕ) (ks : List FixMsg) : Prop where
  sorted : ks.Pairwise fun a b => a.msgSeqNum < b.msgSeqNum
  le : ∀ k ∈ ks, n ≤ k.msgSeqNum
  keepable : ∀ k ∈ ks, Keepable env k

variable {env}

variable {c : Core} {msg : FixMsg} {n : ℕ} {ks : List FixMsg} {k : FixMsg} {s : FixReceiver σ}

/-- A message that only takes its number, by the number expected after it. -/
theorem handled_plain (hplain : actionOf env msg = .plain) (hn : handledNext env msg = n) :
    c.handled env msg = { c with nextRecvSeq := n }.note (.dispatched msg .conform msg.msgSeqNum n) := by
  rw [Core.handled, hplain, hn]

theorem Keepable.handled (h : Keepable env msg) :
    c.handled env msg =
      { c with nextRecvSeq := msg.msgSeqNum + 1 }.note
        (.dispatched msg .conform msg.msgSeqNum (msg.msgSeqNum + 1)) :=
  handled_plain h.plain h.next

/-- A number that is moved on by one fits in 32 bits with the next. -/
theorem succ_lt_of_handledNext (hplain : actionOf env msg = .plain) (h : handledNext env msg = msg.msgSeqNum + 1)
    : msg.msgSeqNum + 1 < 2 ^ 32 := by
  rw [handledNext_plain hplain] at h
  cases hcount : recordCount env msg with
  | zero =>
    rw [hcount] at h
    exact absurd h (lt_succ_self _).ne
  | succ k =>
    rw [hcount, Function.iterate_succ_apply'] at h
    rw [← h]
    exact mod_lt _ (by decide)

theorem Keepable.lt (h : Keepable env msg) : msg.msgSeqNum + 1 < 2 ^ 32 :=
  succ_lt_of_handledNext h.plain h.next

theorem Ascending.tail (h : Ascending env n (k :: ks)) :
    Ascending env (k.msgSeqNum + 1) ks :=
  have hs := pairwise_cons.mp h.sorted
  ⟨hs.2, fun m hm => hs.1 m hm, fun m hm => h.keepable m (by simp [hm])⟩

namespace FixReceiver

theorem popKeeper_toCore (s : FixReceiver σ) :
    s.popKeeper.toCore = { s.toCore with msgKeeper := s.msgKeeper.tail } := rfl

/-- A kept message that is in sequence is dispatched without looking at the keeper. -/
theorem dispatchWith_kept (check : FixReceiver σ → ℕ → FixReceiver σ) (h : Keepable env msg)
    (hseq : msg.msgSeqNum = s.nextRecvSeq) (hend : s.resendRequestEndSeqNo < msg.msgSeqNum) :
    (s.dispatchWith env check msg).toCore = (s.see msg).toCore.handled env msg ∧
      (s.dispatchWith env check msg).derived = (s.see msg).handledDerived env msg := by
  obtain ⟨s1, ⟨s2, hcore, hderived, hs1⟩, heq⟩ := dispatchWith_conform check h.checked hseq
  rw [h.plain] at hs1
  have hs1 : s1 = s2 := hs1
  subst hs1
  have hend' : s1.toCore.resendRequestEndSeqNo = s.resendRequestEndSeqNo := by rw [hcore, h.handled]; rfl
  rw [heq, onMessageProcessed, if_neg (by omega)]
  exact ⟨hcore, hderived⟩

/-- `CheckMsgKeeper` comes to an end within one turn more than messages are kept. -/
theorem checkMsgKeeper_drains {n fuel : ℕ} (hks : s.msgKeeper = ks) (hasc : Ascending env n ks)
    (hn : n = s.nextRecvSeq) (hend : s.resendRequestEndSeqNo < n) (hfuel : ks.length < fuel) :
    (s.checkMsgKeeper env fuel n).toCore = s.toCore.drain env n ks ∧
      ∀ P, Upheld env P → P s.derived → P (s.checkMsgKeeper env fuel n).derived := by
  induction ks generalizing s n fuel with
  | nil =>
    obtain ⟨fuel, rfl⟩ := Nat.exists_eq_add_of_lt hfuel
    rw [checkMsgKeeper_nil hks, Core.drain]
    split
    · exact ⟨rfl, fun P _ hP => hP⟩
    · exact ⟨rfl, fun P hup hP => hup.recoverDone _ hP⟩
  | cons k ks ih =>
    obtain ⟨fuel, rfl⟩ : ∃ f, fuel = f + 1 := ⟨fuel - 1, by omega⟩
    have hk := hasc.keepable k (by simp)
    obtain hlt | heq := (hasc.le k (by simp)).lt_or_eq
    · rw [checkMsgKeeper_gap hks hlt, Core.drain, if_pos hlt]
      exact ⟨rfl, fun P _ hP => hP⟩
    · obtain ⟨hdisp, hderived⟩ := dispatchWith_kept (s := s.noteTaken k) (checkMsgKeeper env fuel) hk
        (by rw [← heq, hn]; rfl) (by rw [← heq]; exact hend)
      have hcore : (((s.noteTaken k).dispatchWith env (checkMsgKeeper env fuel) k).popKeeper).toCore =
          s.toCore.takeKept env k := by
        rw [popKeeper_toCore, hdisp, hk.handled, Core.takeKept, hk.handled]
        rfl
      have hval : s.toCore.takeKept env k =
          ({ s.toCore with
            nextRecvSeq := k.msgSeqNum + 1
            msgKeeper := s.msgKeeper.tail
            history.taken := s.history.taken ++ [k]
            history.seen := max s.history.seen k.msgSeqNum } : Core).note
            (.dispatched k .conform k.msgSeqNum (k.msgSeqNum + 1)) := by
        rw [Core.takeKept, hk.handled]
      rw [checkMsgKeeper_next hks heq, Core.drain, if_neg (by omega), u32_of_lt (heq ▸ hk.lt), ← hcore]
      have hrest := ih (s := ((s.noteTaken k).dispatchWith env (checkMsgKeeper env fuel) k).popKeeper)
        (n := n + 1) ?_ ?_ ?_ ?_ (by simpa using hfuel)
      · refine ⟨hrest.1, fun P hup hP => hrest.2 P hup ?_⟩
        show P ((s.noteTaken k).dispatchWith env (checkMsgKeeper env fuel) k).derived
        rw [hderived]
        exact hup.kept _ k hk hP
      · rw [hcore, hval]
        exact hks ▸ rfl
      · exact heq ▸ hasc.tail
      · rw [hcore, hval, heq]
        rfl
      · rw [hcore, hval]
        exact hend.trans (lt_succ_self n)

end FixReceiver

/-- The message a move dispatches in sequence and takes the number of, if it is such a
move. -/
def Move.msgTaken : Move → Option FixMsg
  | dispatched msg .conform b a => if b = msg.msgSeqNum ∧ a = msg.msgSeqNum + 1 then some msg else none
  | _ => none

variable (env)

/-- Every kept message waits in the keeper or has been dispatched in sequence. -/
structure Accounted (c : Core) : Prop where
  kept : c.history.kept = c.history.taken ++ c.msgKeeper
  taken : c.history.taken.Sublist (c.history.moves.filterMap Move.msgTaken)

/-- `CheckMsgKeeper` at work: `n` is expected and `ks` are the messages still kept. -/
structure Draining (c : Core) (n : ℕ) (ks : List FixMsg) : Prop where
  next : c.nextRecvSeq = n
  pos : n ≠ 0
  keeper : c.msgKeeper = ks
  asc : Ascending env n ks
  le_last : ∀ k ∈ ks, k.msgSeqNum ≤ c.lastGapSeqNo
  accounted : Accounted c

/-- The receiver between two messages: idle, or waiting for the numbers from
`NextRecvSeq_` up to the end of the request, with later messages in the keeper. -/
structure KeeperInv (c : Core) : Prop where
  pos : c.nextRecvSeq ≠ 0
  idle : c.resendRequestEndSeqNo = 0 → c.msgKeeper = [] ∧ c.lastGapSeqNo = 0
  next_le : c.resendRequestEndSeqNo ≠ 0 → c.nextRecvSeq ≤ c.resendRequestEndSeqNo
  end_le : c.resendRequestEndSeqNo ≤ c.lastGapSeqNo
  asc : Ascending env (c.resendRequestEndSeqNo + 1) c.msgKeeper
  le_last : ∀ k ∈ c.msgKeeper, k.msgSeqNum ≤ c.lastGapSeqNo
  accounted : Accounted c

variable {env}

theorem Ascending.nil (n : ℕ) : Ascending env n [] :=
  ⟨List.Pairwise.nil, fun _ hk => absurd hk not_mem_nil, fun _ hk => absurd hk not_mem_nil⟩

theorem Ascending.mono {m n : ℕ} (h : Ascending env n ks) (hle : ∀ k ∈ ks, m ≤ k.msgSeqNum) :
    Ascending env m ks :=
  ⟨h.sorted, hle, h.keepable⟩

theorem takeKept_eq (hk : Keepable env k) (hkeeper : c.msgKeeper = k :: ks) :
    c.takeKept env k =
      { c with
        nextRecvSeq := k.msgSeqNum + 1
        msgKeeper := ks
        history.taken := c.history.taken ++ [k]
        history.seen := max c.history.seen k.msgSeqNum
        history.moves := c.history.moves ++ [.dispatched k .conform k.msgSeqNum (k.msgSeqNum + 1)] } := by
  rw [Core.takeKept, hk.handled, hkeeper]
  rfl

theorem Draining.take (h : Draining env c k.msgSeqNum (k :: ks)) :
    Draining env (c.takeKept env k) (k.msgSeqNum + 1) ks := by
  have hk := h.asc.keepable k (by simp)
  rw [takeKept_eq hk h.keeper]
  refine ⟨rfl, succ_ne_zero _, rfl, h.asc.tail, fun m hm => h.le_last m (by simp [hm]), ?_, ?_⟩
  · show c.history.kept = (c.history.taken ++ [k]) ++ ks
    rw [h.accounted.kept, h.keeper, append_assoc, singleton_append]
  · show (c.history.taken ++ [k]).Sublist ((c.history.moves ++ [_]).filterMap Move.msgTaken)
    rw [filterMap_append, filterMap_cons, filterMap_nil, Move.msgTaken, if_pos ⟨rfl, rfl⟩]
    exact h.accounted.taken.append (List.Sublist.refl _)

/-- The rule for `CheckMsgKeeper`: what holds while kept messages are taken, and of each
of the three ends from it. -/
theorem Draining.rule {P : Core → ℕ → Prop} {Q : Core → Prop}
    (htake : ∀ c k ks, Draining env c k.msgSeqNum (k :: ks) → P c k.msgSeqNum → P (c.takeKept env k) (k.msgSeqNum + 1))
    (hgap : ∀ c n k ks, Draining env c n (k :: ks) → P c n → n < k.msgSeqNum → Q { c with resendRequestEndSeqNo := k.msgSeqNum - 1 })
    (hmore : ∀ c n, Draining env c n [] → P c n → n < c.lastGapSeqNo → Q { c with resendRequestEndSeqNo := c.lastGapSeqNo })
    (hdone : ∀ c n, Draining env c n [] → P c n → c.lastGapSeqNo ≤ n → Q c.recovered) (h : Draining env c n ks)
    (hP : P c n) : Q (c.drain env n ks) := by
  induction ks generalizing c n with
  | nil =>
    rw [Core.drain]
    split
    · next hlt => exact hmore c n h hP hlt
    · next hge => exact hdone c n h hP (not_lt.mp hge)
  | cons k ks ih =>
    rw [Core.drain]
    split
    · next hlt => exact hgap c n k ks h hP hlt
    · next hge =>
      obtain rfl : n = k.msgSeqNum := le_antisymm (h.asc.le k (by simp)) (not_lt.mp hge)
      exact ih h.take (htake c k ks h hP)

theorem Draining.keeperInv (h : Draining env c n ks) :
    KeeperInv env (c.drain env n ks) := by
  refine h.rule (P := fun _ _ => True) (fun _ _ _ _ _ => trivial) ?_ ?_ ?_ trivial
  · intro c n k ks h _ hlt
    have hle := h.le_last k (by simp)
    refine ⟨h.next ▸ h.pos, ?_, ?_, ?_, ?_, ?_, h.accounted.kept, h.accounted.taken⟩
    · intro h0
      have h0 : k.msgSeqNum - 1 = 0 := h0
      have := h.pos
      omega
    · intro _
      show c.nextRecvSeq ≤ k.msgSeqNum - 1
      rw [h.next]
      omega
    · show k.msgSeqNum - 1 ≤ c.lastGapSeqNo
      omega
    · refine (h.keeper ▸ h.asc).mono ?_
      intro m hm
      rw [h.keeper] at hm
      have hkm : k.msgSeqNum ≤ m.msgSeqNum := by
        obtain rfl | hm := mem_cons.mp hm
        · exact le_rfl
        · exact ((pairwise_cons.mp h.asc.sorted).1 m hm).le
      show k.msgSeqNum - 1 + 1 ≤ m.msgSeqNum
      omega
    · intro m hm
      exact h.le_last m (h.keeper ▸ hm)
  · intro c n h _ hlt
    refine ⟨h.next ▸ h.pos, ?_, ?_, le_rfl, ?_, ?_, h.accounted.kept, h.accounted.taken⟩
    · intro h0
      have h0 : c.lastGapSeqNo = 0 := h0
      omega
    · intro _
      show c.nextRecvSeq ≤ c.lastGapSeqNo
      rw [h.next]
      exact hlt.le
    · show Ascending env _ c.msgKeeper
      rw [h.keeper]
      exact .nil _
    · intro m hm
      exact h.le_last m (h.keeper ▸ hm)
  · intro c n h _ hle
    refine ⟨h.next ▸ h.pos, fun _ => ⟨h.keeper, rfl⟩, fun h0 => absurd rfl h0, le_rfl, ?_, ?_,
      h.accounted.kept, h.accounted.taken⟩
    · show Ascending env _ c.msgKeeper
      rw [h.keeper]
      exact .nil _
    · intro m hm
      have hm : m ∈ c.msgKeeper := hm
      rw [h.keeper] at hm
      exact absurd hm not_mem_nil

/-- The kept messages continue the sequence from `n` without a hole and end just below
the highest number seen behind the gap. -/
def LeavesLast (c : Core) (n : ℕ) : Prop :=
  c.msgKeeper.map FixMsg.msgSeqNum = List.range' n c.msgKeeper.length ∧
    n + c.msgKeeper.length = c.lastGapSeqNo

instance (c : Core) (n : ℕ) : Decidable (LeavesLast c n) := inferInstanceAs (Decidable (_ ∧ _))

theorem LeavesLast.cons (hk : Keepable env k) (hkeeper : c.msgKeeper = k :: ks)
    (h : LeavesLast (c.takeKept env k) (k.msgSeqNum + 1)) :
    LeavesLast c k.msgSeqNum := by
  rw [takeKept_eq hk hkeeper] at h
  obtain ⟨hmap, hlen⟩ := h
  have hmap : ks.map FixMsg.msgSeqNum = range' (k.msgSeqNum + 1) ks.length := hmap
  have hlen : k.msgSeqNum + 1 + ks.length = c.lastGapSeqNo := hlen
  refine ⟨?_, ?_⟩
  · rw [hkeeper, map_cons, hmap, length_cons, range'_succ]
  · rw [hkeeper, length_cons]
    omega

/-- A recovery that ends leaves out the highest number only in one arrival order. -/
theorem Draining.dones (h : Draining env c n ks) (hlast : ¬ LeavesLast c n)
    (hdones : ∀ d ∈ c.history.dones, d.lastGapSeqNo < d.nextRecvSeq) :
    ∀ d ∈ (c.drain env n ks).history.dones, d.lastGapSeqNo < d.nextRecvSeq := by
  refine h.rule (P := fun c n => ¬ LeavesLast c n ∧ ∀ d ∈ c.history.dones, d.lastGapSeqNo < d.nextRecvSeq)
    (Q := fun c => ∀ d ∈ c.history.dones, d.lastGapSeqNo < d.nextRecvSeq) ?_ ?_ ?_ ?_ ⟨hlast, hdones⟩
  · rintro c k ks h ⟨hl, hd⟩
    have hk := h.asc.keepable k (by simp)
    refine ⟨fun hl' => hl (hl'.cons hk h.keeper), ?_⟩
    rw [takeKept_eq hk h.keeper]
    exact hd
  · rintro c n k ks h ⟨-, hd⟩ -
    exact hd
  · rintro c n h ⟨-, hd⟩ -
    exact hd
  · rintro c n h ⟨hl, hd⟩ hle d hmem
    obtain hmem | hmem := mem_append.mp hmem
    · exact hd d hmem
    · obtain rfl := mem_singleton.mp hmem
      refine lt_of_le_of_ne (h.next ▸ hle) fun heq => hl ⟨?_, ?_⟩
      · rw [h.keeper]
        rfl
      · rw [h.keeper]
        exact h.next ▸ heq.symm

theorem Draining.le_next {n m : ℕ} (h : Draining env c n ks) (hm : m ≤ n) :
    m ≤ (c.drain env n ks).nextRecvSeq := by
  refine h.rule (P := fun _ n => m ≤ n) (Q := fun c => m ≤ c.nextRecvSeq) ?_ ?_ ?_ ?_ hm
  · intro c k ks _ hle
    exact hle.trans (le_succ _)
  · intro c n k ks h hle _
    exact hle.trans h.next.ge
  · intro c n h hle _
    exact hle.trans h.next.ge
  · intro c n h hle _
    exact hle.trans h.next.ge

/-! ### What a step must meet -/

/-- The action, taken in sequence with `next` expected after it, fits the keeper: a
message takes its number, or leaves it when that does not end the request, and a
`GapFill` likewise; it does not pass over a kept message; a reset does not expect 0. -/
def Action.Fits (c : Core) (msg : FixMsg) (next : ℕ) : Action → Prop
  | .plain =>
    next = msg.msgSeqNum + 1 ∨ next = msg.msgSeqNum ∧ msg.msgSeqNum ≠ c.resendRequestEndSeqNo
  | .gapFill n =>
    (∀ k ∈ c.msgKeeper, n ≤ k.msgSeqNum) ∧ (n = msg.msgSeqNum → msg.msgSeqNum ≠ c.resendRequestEndSeqNo)
  | .reset n => n ≠ 0

instance (c : Core) (msg : FixMsg) (next : ℕ) : ∀ a : Action, Decidable (a.Fits c msg next)
  | .plain => inferInstanceAs (Decidable (_ ∨ _))
  | .gapFill _ => inferInstanceAs (Decidable (_ ∧ _))
  | .reset _ => inferInstanceAs (Decidable (_ ≠ _))

/-- The action, taken in sequence, does not end the recovery just before the highest
number seen behind the gap. -/
def Action.EndsRight (c : Core) (msg : FixMsg) : Action → Prop
  | .plain => msg.msgSeqNum = c.resendRequestEndSeqNo → ¬ LeavesLast c (msg.msgSeqNum + 1)
  | .gapFill n => c.resendRequestEndSeqNo < n → ¬ LeavesLast c n
  | .reset _ => True

instance (c : Core) (msg : FixMsg) : ∀ a : Action, Decidable (a.EndsRight c msg)
  | .plain => inferInstanceAs (Decidable (_ → _))
  | .gapFill _ => inferInstanceAs (Decidable (_ → _))
  | .reset _ => .isTrue trivial

variable (env)

variable (s : FixReceiver σ)

/-- What a step must meet for the keeper to stay in order. -/
def KeeperOk : Op σ → Prop
  | .dispatch msg =>
    (Checked env msg → msg.msgSeqNum = s.nextRecvSeq →
      (actionOf env msg).Fits s.toCore msg (handledNext env msg)) ∧
    (Checked env msg → msg.msgSeqNum ≠ s.nextRecvSeq →
      resetsTo env msg ≠ some 0 ∧
        (Keeps env s msg → actionOf env msg = .plain ∧ handledNext env msg = msg.msgSeqNum + 1)) ∧
    (¬ Checked env msg → (msg.getField kTagMsgType).isSome → msg.msgSeqNum = s.nextRecvSeq →
      msg.msgSeqNum + 1 < 2 ^ 32 ∧ msg.msgSeqNum ≠ s.resendRequestEndSeqNo)
  | .acceptLogon msg =>
    msg.msgSeqNum = s.nextRecvSeq → msg.msgSeqNum + 1 < 2 ^ 32 ∧ msg.msgSeqNum ≠ s.resendRequestEndSeqNo
  | .forceResetRecvSeq _ n => n ≠ 0 ∧ (s.resendRequestEndSeqNo ≠ 0 → n ≤ s.resendRequestEndSeqNo)
  | _ => True

instance (s : FixReceiver σ) : ∀ op, Decidable (KeeperOk env s op)
  | .dispatch _ => inferInstanceAs (Decidable (_ ∧ _))
  | .acceptLogon _ => inferInstanceAs (Decidable (_ → _))
  | .clearRecvKeeper => .isTrue trivial
  | .forceResetRecvSeq _ _ => inferInstanceAs (Decidable (_ ∧ _))
  | .derived _ => .isTrue trivial

/-- What a step must meet for a recovery to end only when it is complete. -/
def EndsRight : Op σ → Prop
  | .dispatch msg =>
    Checked env msg → msg.msgSeqNum = s.nextRecvSeq → (actionOf env msg).EndsRight s.toCore msg
  | _ => True

instance (s : FixReceiver σ) : ∀ op, Decidable (EndsRight env s op)
  | .dispatch _ => inferInstanceAs (Decidable (_ → _))
  | .acceptLogon _ => .isTrue trivial
  | .clearRecvKeeper => .isTrue trivial
  | .forceResetRecvSeq _ _ => .isTrue trivial
  | .derived _ => .isTrue trivial

variable {env}

/-! ### A message in sequence -/

theorem actionOf_gapFill_le (h : actionOf env msg = .gapFill n) : msg.msgSeqNum ≤ n := by
  have haction : sequenceResetAction msg = .gapFill n := by
    unfold actionOf at h
    split at h
    · exact h
    · cases h
  unfold sequenceResetAction at haction
  cases hn : msg.seqNumOf kTagNewSeqNo with
  | none => simp [hn] at haction
  | some k =>
    by_cases hf : msg.isFlagSet kTagGapFillFlag
    · by_cases hlt : k < msg.msgSeqNum
      · simp [hn, hf, hlt] at haction
      · obtain rfl : k = n := by simpa [hn, hf, hlt] using haction
        exact not_lt.mp hlt
    · simp [hn, hf] at haction

namespace KeeperInv

variable {c c' : Core} {msg : FixMsg}

theorem congr (h : KeeperInv env c) (hn : c'.nextRecvSeq = c.nextRecvSeq) (hk : c'.msgKeeper = c.msgKeeper)
    (he : c'.resendRequestEndSeqNo = c.resendRequestEndSeqNo) (hl : c'.lastGapSeqNo = c.lastGapSeqNo)
    (ha : Accounted c') : KeeperInv env c' := by
  refine ⟨hn ▸ h.pos, ?_, ?_, ?_, ?_, ?_, ha⟩
  · rw [he, hk, hl]
    exact h.idle
  · rw [he, hn]
    exact h.next_le
  · rw [he, hl]
    exact h.end_le
  · rw [he, hk]
    exact h.asc
  · rw [hk, hl]
    exact h.le_last

theorem lt_end (h : KeeperInv env c) (hseq : msg.msgSeqNum = c.nextRecvSeq)
    (hne : msg.msgSeqNum ≠ c.resendRequestEndSeqNo) :
    c.resendRequestEndSeqNo ≠ 0 → msg.msgSeqNum + 1 ≤ c.resendRequestEndSeqNo := by
  intro h0
  have := h.next_le h0
  omega

theorem ascending_of_le (h : KeeperInv env c) (hle : n ≤ c.resendRequestEndSeqNo + 1) :
    Ascending env n c.msgKeeper :=
  h.asc.mono fun k hk => hle.trans (h.asc.le k hk)

/-- The state in which `CheckMsgKeeper` starts after a message in sequence. -/
theorem draining_plain (h : KeeperInv env c) (hplain : actionOf env msg = .plain)
    (hnext : handledNext env msg = msg.msgSeqNum + 1) (hend : msg.msgSeqNum = c.resendRequestEndSeqNo) :
    Draining env (c.handled env msg) (msg.msgSeqNum + 1) c.msgKeeper := by
  rw [handled_plain hplain hnext]
  refine ⟨rfl, succ_ne_zero _, rfl, h.ascending_of_le (by omega), h.le_last, h.accounted.kept, ?_⟩
  show List.Sublist _ ((c.history.moves ++ [_]).filterMap _)
  rw [filterMap_append]
  exact h.accounted.taken.trans (sublist_append_left _ _)

theorem draining_gapFill (h : KeeperInv env c) (hgap : actionOf env msg = .gapFill n) (hn : n ≠ 0)
    (hfits : ∀ k ∈ c.msgKeeper, n ≤ k.msgSeqNum) :
    Draining env (c.handled env msg) n c.msgKeeper := by
  rw [Core.handled, hgap]
  refine ⟨rfl, hn, rfl, h.asc.mono hfits, h.le_last, h.accounted.kept, ?_⟩
  show List.Sublist _ ((c.history.moves ++ [_]).filterMap _)
  rw [filterMap_append]
  exact h.accounted.taken.trans (sublist_append_left _ _)

theorem reset (c : Core) (hn : n ≠ 0) : KeeperInv env (c.reset n) :=
  ⟨hn, fun _ => ⟨rfl, rfl⟩, fun h0 => absurd rfl h0, le_rfl, .nil _,
    fun _ hk => absurd hk not_mem_nil, rfl, nil_sublist _⟩

section

variable (h : KeeperInv env c)
include h

theorem note (mv : Move) : KeeperInv env (c.note mv) := by
  refine h.congr rfl rfl rfl rfl ⟨h.accounted.kept, ?_⟩
  show List.Sublist _ ((c.history.moves ++ [mv]).filterMap _)
  rw [filterMap_append]
  exact h.accounted.taken.trans (sublist_append_left _ _)

theorem see (msg : FixMsg) : KeeperInv env (c.see msg) :=
  h.congr rfl rfl rfl rfl ⟨h.accounted.kept, h.accounted.taken⟩

theorem processed (hseq : msg.msgSeqNum = c.nextRecvSeq) (hfits : (actionOf env msg).Fits c msg (handledNext env msg))
    : KeeperInv env (c.processed env msg) := by
  have hpos := h.pos
  unfold Core.processed
  cases hact : actionOf env msg with
  | plain =>
    rw [hact] at hfits
    show KeeperInv env (if _ then _ else _)
    split
    · next hend => exact (h.draining_plain hact (hfits.resolve_right fun hf => hf.2 hend.2) hend.2).keeperInv
    · next hend =>
      have hne : msg.msgSeqNum ≠ c.resendRequestEndSeqNo := by omega
      obtain hnext | ⟨hnext, -⟩ := hfits
      · rw [handled_plain hact hnext]
        refine KeeperInv.note ?_ _
        exact ⟨succ_ne_zero _, h.idle, h.lt_end hseq hne, h.end_le, h.asc, h.le_last, h.accounted.kept,
          h.accounted.taken⟩
      · rw [handled_plain hact hnext]
        refine KeeperInv.note ?_ _
        exact h.congr hseq rfl rfl rfl ⟨h.accounted.kept, h.accounted.taken⟩
  | gapFill n =>
    have hn : n ≠ 0 := by
      have := actionOf_gapFill_le hact
      omega
    show KeeperInv env (if _ then _ else _)
    split
    · rw [hact] at hfits
      exact (h.draining_gapFill hact hn hfits.1).keeperInv
    · next hend =>
      rw [Core.handled, hact]
      refine KeeperInv.note ?_ _
      show KeeperInv env { c with nextRecvSeq := n, resendRequestEndSeqNo := if _ then _ else _ }
      rw [if_neg hend]
      exact ⟨hn, h.idle, fun _ => not_lt.mp hend, h.end_le, h.asc, h.le_last, h.accounted.kept,
        h.accounted.taken⟩
  | reset n =>
    rw [hact] at hfits
    rw [Core.handled, hact]
    exact (KeeperInv.reset c hfits).note _

/-! ### A message out of sequence -/

theorem gap {keep : Bool} (hle : c.nextRecvSeq ≤ msg.msgSeqNum) (hhigh : keep = true → c.nextRecvSeq < msg.msgSeqNum)
    (hkeep : keep = true → c.lastGapSeqNo < msg.msgSeqNum → Keepable env msg) :
    KeeperInv env (c.gap msg keep) := by
  have hpos := h.pos
  have hend := h.end_le
  unfold Core.gap
  by_cases hlast : msg.msgSeqNum ≤ c.lastGapSeqNo
  · rw [if_pos hlast]
    exact h
  · rw [if_neg hlast]
    have hk : ∀ k ∈ c.msgKeeper, k.msgSeqNum < msg.msgSeqNum := fun k hk =>
      (h.le_last k hk).trans_lt (not_le.mp hlast)
    cases keep with
    | false =>
      refine ⟨hpos, ?_, ?_, ?_, ?_, fun k hk' => (hk k hk').le, h.accounted.kept, h.accounted.taken⟩
      · intro h0
        have h0 : (if c.resendRequestEndSeqNo > 0 then c.resendRequestEndSeqNo else msg.msgSeqNum) = 0 := h0
        split at h0 <;> omega
      · intro _
        show c.nextRecvSeq ≤ if c.resendRequestEndSeqNo > 0 then c.resendRequestEndSeqNo else msg.msgSeqNum
        split
        · next h0 => exact h.next_le (by omega)
        · exact hle
      · show (if c.resendRequestEndSeqNo > 0 then c.resendRequestEndSeqNo else msg.msgSeqNum) ≤ msg.msgSeqNum
        split <;> omega
      · show Ascending env ((if c.resendRequestEndSeqNo > 0 then c.resendRequestEndSeqNo
          else msg.msgSeqNum) + 1) c.msgKeeper
        split
        · exact h.asc
        · next h0 =>
          rw [(h.idle (by omega)).1]
          exact .nil _
    | true =>
      have hhigh := hhigh rfl
      have hmsg := hkeep rfl (not_le.mp hlast)
      refine ⟨hpos, ?_, ?_, ?_, ?_, ?_, ?_, h.accounted.taken⟩
      · intro h0
        have h0 : (if c.resendRequestEndSeqNo > 0 then c.resendRequestEndSeqNo else msg.msgSeqNum - 1) = 0 := h0
        split at h0 <;> omega
      · intro _
        show c.nextRecvSeq ≤ if c.resendRequestEndSeqNo > 0 then c.resendRequestEndSeqNo else msg.msgSeqNum - 1
        split
        · next h0 => exact h.next_le (by omega)
        · omega
      · show (if c.resendRequestEndSeqNo > 0 then c.resendRequestEndSeqNo else msg.msgSeqNum - 1) ≤ msg.msgSeqNum
        split <;> omega
      · show Ascending env ((if c.resendRequestEndSeqNo > 0 then c.resendRequestEndSeqNo
          else msg.msgSeqNum - 1) + 1) (c.msgKeeper ++ [msg])
        refine ⟨?_, ?_, ?_⟩
        · rw [pairwise_append]
          refine ⟨h.asc.sorted, pairwise_singleton _ _, fun a ha b hb => ?_⟩
          rw [mem_singleton.mp hb]
          exact hk a ha
        · intro k hk'
          obtain hk' | hk' := mem_append.mp hk'
          · split
            · exact h.asc.le k hk'
            · next h0 =>
              rw [(h.idle (by omega)).1] at hk'
              exact absurd hk' not_mem_nil
          · rw [mem_singleton.mp hk']
            split <;> omega
        · intro k hk'
          obtain hk' | hk' := mem_append.mp hk'
          · exact h.asc.keepable k hk'
          · rw [mem_singleton.mp hk']
            exact hmsg
      · intro k hk'
        obtain hk' | hk' := mem_append.mp hk'
        · exact (hk k hk').le
        · rw [mem_singleton.mp hk']
      · show c.history.kept ++ [msg] = c.history.taken ++ (c.msgKeeper ++ [msg])
        rw [h.accounted.kept, append_assoc]

theorem gapIf {report : Option Bool} (hhigh : c.nextRecvSeq < msg.msgSeqNum)
    (hkeep : report = some true → c.lastGapSeqNo < msg.msgSeqNum → Keepable env msg) :
    KeeperInv env (c.gapIf msg report) := by
  cases report with
  | none => exact h
  | some keep => exact h.gap hhigh.le (fun _ => hhigh) fun hk => hkeep (by rw [hk])

theorem strayed {seqSt : FixSeqSt} {report : Option Bool} (hhigh : seqSt = .tooHigh → c.nextRecvSeq < msg.msgSeqNum)
    (hkeep : seqSt = .tooHigh → report = some true → c.lastGapSeqNo < msg.msgSeqNum → Keepable env msg)
    (hreset : resetsTo env msg ≠ some 0) :
    KeeperInv env (c.strayed env msg seqSt report) := by
  unfold Core.strayed
  refine KeeperInv.note ?_ _
  cases hr : resetsTo env msg with
  | some n => exact KeeperInv.reset c fun h0 => hreset (h0 ▸ hr)
  | none =>
    show KeeperInv env (if _ then _ else _)
    split
    · next hst => exact h.gapIf (hhigh hst) (hkeep hst)
    · exact h

end

end KeeperInv

namespace FixReceiver

variable {s : FixReceiver σ} {msg : FixMsg}

/-- `CheckMsgKeeper` as it is called from the dispatch of a message. -/
theorem checkMsgKeeper_draining (h : Draining env s.toCore n s.msgKeeper) (hend : s.resendRequestEndSeqNo < n) :
    (s.checkMsgKeeper env (s.msgKeeper.length + 1) n).toCore = s.toCore.drain env n s.msgKeeper ∧
      ∀ P, Upheld env P → P s.derived → P (s.checkMsgKeeper env (s.msgKeeper.length + 1) n).derived :=
  checkMsgKeeper_drains rfl h.asc h.next.symm hend (lt_succ_self _)

/-- A message in sequence: the core after it, and what holds of the derived state. -/
theorem dispatchFixMessage_conform (h : KeeperInv env s.toCore) (hck : Checked env msg)
    (hseq : msg.msgSeqNum = s.nextRecvSeq)
    (hfits : (actionOf env msg).Fits s.toCore msg (handledNext env msg)) :
    (s.dispatchFixMessage env msg).toCore = (s.see msg).toCore.processed env msg ∧
      ∀ P, Upheld env P → P ((s.see msg).handledDerived env msg) → P (s.dispatchFixMessage env msg).derived := by
  obtain ⟨s1, ⟨s2, hcore, hderived, rfl⟩, heq⟩ := dispatchWith_conform
    (fun s n => s.checkMsgKeeper env (s.msgKeeper.length + 1) n) hck hseq
  have hsee : KeeperInv env (s.see msg).toCore := h.see msg
  rw [dispatchFixMessage, heq, Core.processed, ← hderived]
  cases hact : actionOf env msg with
  | plain =>
    have hk2 : s2.toCore.msgKeeper = s.msgKeeper := by
      rw [hcore, Core.handled, hact]
      rfl
    have he2 : s2.toCore.resendRequestEndSeqNo = s.resendRequestEndSeqNo := by
      rw [hcore, Core.handled, hact]
      rfl
    show (s2.onMessageProcessed _ msg.msgSeqNum).toCore = (if _ then _ else _) ∧
      ∀ P : σ → Prop, _ → _ → P (s2.onMessageProcessed _ msg.msgSeqNum).derived
    unfold onMessageProcessed
    rw [he2]
    show _ = (if s.resendRequestEndSeqNo > 0 ∧ msg.msgSeqNum = s.resendRequestEndSeqNo then _ else _) ∧ _
    by_cases hend : s.resendRequestEndSeqNo > 0 ∧ msg.msgSeqNum = s.resendRequestEndSeqNo
    · rw [hact] at hfits
      have hnext : handledNext env msg = msg.msgSeqNum + 1 := hfits.resolve_right fun hf => hf.2 hend.2
      have hdrain := hsee.draining_plain hact hnext hend.2
      rw [← hcore] at hdrain
      have hlt : msg.msgSeqNum + 1 < 2 ^ 32 := succ_lt_of_handledNext hact hnext
      have hkeeper : s2.msgKeeper = (s.see msg).msgKeeper := hk2
      rw [if_pos hend, if_pos hend, u32_of_lt hlt, ← hcore]
      rw [← hkeeper] at hdrain ⊢
      exact checkMsgKeeper_draining hdrain (by omega)
    · rw [if_neg hend, if_neg hend, hcore]
      exact ⟨rfl, fun P _ hP => hP⟩
  | gapFill n =>
    have hle := actionOf_gapFill_le hact
    have hpos := h.pos
    have hk2 : s2.toCore.msgKeeper = s.msgKeeper := by
      rw [hcore, Core.handled, hact]
      rfl
    have he2 : s2.toCore.resendRequestEndSeqNo =
        if s.resendRequestEndSeqNo < n then 0 else s.resendRequestEndSeqNo := by
      rw [hcore, Core.handled, hact]
      rfl
    show ((if s.resendRequestEndSeqNo < n then _ else s2 : FixReceiver σ).onMessageProcessed _ msg.msgSeqNum).toCore =
      (if s.resendRequestEndSeqNo < n then _ else _) ∧
      ∀ P : σ → Prop, _ → _ → P ((if s.resendRequestEndSeqNo < n then _ else s2 : FixReceiver σ).onMessageProcessed _
        msg.msgSeqNum).derived
    rw [hact] at hfits
    by_cases hend : s.resendRequestEndSeqNo < n
    · have hdrain := hsee.draining_gapFill hact (by omega) hfits.1
      rw [← hcore] at hdrain
      have hkeeper : s2.msgKeeper = (s.see msg).msgKeeper := hk2
      rw [if_pos hend] at he2
      rw [if_pos hend, if_pos hend, ← hcore]
      rw [← hkeeper] at hdrain ⊢
      have hcheck := checkMsgKeeper_draining hdrain (by omega)
      -- behind the keeper the next request, if any, ends above the message
      have hnot : ¬ ((s2.checkMsgKeeper env (s2.msgKeeper.length + 1) n).resendRequestEndSeqNo > 0 ∧
          msg.msgSeqNum = (s2.checkMsgKeeper env (s2.msgKeeper.length + 1) n).resendRequestEndSeqNo) := by
        rw [hcheck.1]
        rintro ⟨hpos', hmsg⟩
        have hend' := hdrain.keeperInv.next_le hpos'.ne'
        have hnext := hdrain.le_next le_rfl
        -- so it can only be a `GapFill` to its own number, while nothing is asked for
        have hidle : s.resendRequestEndSeqNo = 0 := by
          by_contra h0
          have := h.next_le h0
          omega
        have hnil : s2.msgKeeper = [] := hkeeper.trans (h.idle hidle).1
        have hlast : s2.toCore.lastGapSeqNo = 0 := by
          rw [hcore, Core.handled, hact]
          exact (h.idle hidle).2
        rw [hnil, Core.drain, if_neg (by omega)] at hpos'
        exact absurd hpos' (lt_irrefl 0)
      rw [onMessageProcessed, if_neg hnot]
      exact hcheck
    · have hne : msg.msgSeqNum ≠ s2.resendRequestEndSeqNo := by
        rw [he2, if_neg hend]
        intro heq
        exact hfits.2 (by omega) heq
      rw [if_neg hend, if_neg hend, onMessageProcessed, if_neg (fun h => hne h.2), hcore]
      exact ⟨rfl, fun P _ hP => hP⟩
  | reset n =>
    have he2 : s2.toCore.resendRequestEndSeqNo = 0 := by
      rw [hcore, Core.handled, hact]
      rfl
    show (s2.onMessageProcessed _ msg.msgSeqNum).toCore = _ ∧
      ∀ P : σ → Prop, _ → _ → P (s2.onMessageProcessed _ msg.msgSeqNum).derived
    rw [onMessageProcessed, if_neg (by omega), hcore]
    exact ⟨rfl, fun P _ hP => hP⟩

end FixReceiver

/-- A step that fits the keeper leaves it in order. -/
theorem step_keeperInv (op : Op σ) (h : KeeperInv env s.toCore) (hok : KeeperOk env s op)
    : KeeperInv env (step env s op).toCore := by
  cases op with
  | dispatch msg =>
    by_cases hck : Checked env msg
    · have hsee : KeeperInv env (s.see msg).toCore := h.see msg
      by_cases hseq : msg.msgSeqNum = s.nextRecvSeq
      · show KeeperInv env (s.dispatchFixMessage env msg).toCore
        rw [(dispatchFixMessage_conform h hck hseq (hok.1 hck hseq)).1]
        exact hsee.processed hseq (hok.1 hck hseq)
      · have hkeep : compareFixSeqNum msg.msgSeqNum s.nextRecvSeq = .tooHigh →
            reports env (s.see msg) msg = some true → s.lastGapSeqNo < msg.msgSeqNum → Keepable env msg := by
          intro hhigh hrep hlast
          have hkeeps : Keeps env s msg := ⟨compareFixSeqNum_tooHigh hhigh, hlast, hrep⟩
          have hfits := (hok.2.1 hck hseq).2 hkeeps
          exact ⟨hck, hfits.1, hfits.2, _, hrep⟩
        have hreset := (hok.2.1 hck hseq).1
        obtain hcore | ⟨keep, hrep, hcore⟩ := dispatchWith_stray
          (fun s n => s.checkMsgKeeper env (s.msgKeeper.length + 1) n) hck hseq
        · show KeeperInv env (s.dispatchFixMessage env msg).toCore
          rw [dispatchFixMessage, hcore]
          exact hsee.strayed compareFixSeqNum_tooHigh hkeep hreset
        · show KeeperInv env (s.dispatchFixMessage env msg).toCore
          rw [dispatchFixMessage, hcore]
          split
          · next hhigh =>
            have hlt := compareFixSeqNum_tooHigh hhigh
            exact hsee.gap hlt.le (fun _ => hlt) fun hk => hkeep hhigh (by rw [hrep hhigh, hk])
          · exact hsee
    · show KeeperInv env (s.dispatchFixMessage env msg).toCore
      obtain hcore | ⟨hty, hseq, hcore⟩ := dispatchWith_unchecked
        (fun s n => s.checkMsgKeeper env (s.msgKeeper.length + 1) n) s hck
      · rw [dispatchFixMessage, hcore]
        exact h
      · rw [dispatchFixMessage, hcore]
        obtain ⟨hlt, hne⟩ := hok.2.2 hck hty hseq
        rw [hseq] at hlt
        refine KeeperInv.note ?_ _
        rw [u32_of_lt hlt]
        exact ⟨succ_ne_zero _, h.idle, hseq ▸ h.lt_end hseq hne, h.end_le, h.asc,
          h.le_last, h.accounted.kept, h.accounted.taken⟩
  | acceptLogon msg =>
    show KeeperInv env (s.acceptLogon msg).toCore
    unfold FixReceiver.acceptLogon
    cases hst : compareFixSeqNum msg.msgSeqNum s.nextRecvSeq with
    | tooLow => exact h
    | conform =>
      have hseq : msg.msgSeqNum = s.nextRecvSeq :=
        by_contra fun hne => compareFixSeqNum_of_ne hne hst
      obtain ⟨hlt, hne⟩ := hok hseq
      rw [hseq] at hlt
      show KeeperInv env (Core.see (Core.note { s.toCore with nextRecvSeq := u32 (s.nextRecvSeq + 1) } _) msg)
      rw [u32_of_lt hlt]
      refine (KeeperInv.note ?_ _).see msg
      exact ⟨succ_ne_zero _, h.idle, hseq ▸ h.lt_end hseq hne, h.end_le, h.asc, h.le_last,
        h.accounted.kept, h.accounted.taken⟩
    | tooHigh =>
      have hgap : KeeperInv env (s.toCore.gap msg false) :=
        h.gap (compareFixSeqNum_tooHigh hst).le (fun hf => absurd hf (by decide))
          fun hf => absurd hf (by decide)
      have hcore := onMsgSeqNumTooHigh_toCore (s.write (.ignoreRecv msg.origMsgStr)) msg gapSkipRecord
      show KeeperInv env (Core.see (FixReceiver.toCore _) msg)
      rw [hcore]
      exact hgap.see msg
  | clearRecvKeeper =>
    exact ⟨h.pos, fun _ => ⟨rfl, rfl⟩, fun h0 => absurd rfl h0, le_rfl, .nil _,
      fun _ hk => absurd hk not_mem_nil, rfl, nil_sublist _⟩
  | forceResetRecvSeq info n =>
    have hset : KeeperInv env { s.toCore with nextRecvSeq := n } :=
      ⟨hok.1, h.idle, hok.2, h.end_le, h.asc, h.le_last, h.accounted.kept, h.accounted.taken⟩
    exact hset.note (.forced s.nextRecvSeq n)
  | derived f => exact h

/-! ### The end of a recovery -/

/-- Every recovery has ended with the highest number behind the gap passed. -/
def Complete (c : Core) : Prop := ∀ d ∈ c.history.dones, d.lastGapSeqNo < d.nextRecvSeq

theorem Complete.reset (h : Complete c) (hn : n ≠ 0) : Complete (c.reset n) := by
  intro d hd
  obtain hd | hd := mem_append.mp hd
  · exact h d hd
  · obtain rfl := mem_singleton.mp hd
    exact pos_of_ne_zero hn

theorem Complete.gapIf (h : Complete c) (msg : FixMsg) (report : Option Bool) :
    Complete (c.gapIf msg report) := by
  cases report with
  | none => exact h
  | some keep =>
    show Complete (c.gap msg keep)
    unfold Core.gap
    split <;> exact h

theorem Complete.strayed {seqSt : FixSeqSt} (h : Complete c) (report : Option Bool)
    (hreset : resetsTo env msg ≠ some 0) : Complete (c.strayed env msg seqSt report) := by
  unfold Core.strayed
  cases hr : resetsTo env msg with
  | some n => exact h.reset fun h0 => hreset (h0 ▸ hr)
  | none =>
    show Complete (if _ then _ else _)
    split
    · exact h.gapIf msg report
    · exact h

theorem Complete.processed (h : Complete c) (hk : KeeperInv env c) (hseq : msg.msgSeqNum = c.nextRecvSeq)
    (hfits : (actionOf env msg).Fits c msg (handledNext env msg)) (hends : (actionOf env msg).EndsRight c msg)
    : Complete (c.processed env msg) := by
  have hpos := hk.pos
  unfold Core.processed
  cases hact : actionOf env msg with
  | plain =>
    rw [hact] at hends hfits
    show Complete (if _ then _ else _)
    split
    · next hend =>
      have hnext := hfits.resolve_right fun hf => hf.2 hend.2
      refine (hk.draining_plain hact hnext hend.2).dones ?_ ?_
      · rw [Core.handled, hact]
        exact hends hend.2
      · rw [Core.handled, hact]
        exact h
    · rw [Core.handled, hact]
      exact h
  | gapFill n =>
    rw [hact] at hends hfits
    have hn : n ≠ 0 := by
      have := actionOf_gapFill_le hact
      omega
    show Complete (if _ then _ else _)
    split
    · next hend =>
      refine (hk.draining_gapFill hact hn hfits.1).dones ?_ ?_
      · rw [Core.handled, hact]
        exact hends hend
      · rw [Core.handled, hact]
        exact h
    · rw [Core.handled, hact]
      exact h
  | reset n =>
    rw [hact] at hfits
    rw [Core.handled, hact]
    exact h.reset hfits

/-- A step that also ends its recovery right keeps the recoveries complete. -/
theorem step_complete (op : Op σ) (h : Complete s.toCore) (hk : KeeperInv env s.toCore) (hok : KeeperOk env s op)
    (hends : EndsRight env s op) :
    Complete (step env s op).toCore := by
  cases op with
  | dispatch msg =>
    show Complete (s.dispatchFixMessage env msg).toCore
    by_cases hck : Checked env msg
    · by_cases hseq : msg.msgSeqNum = s.nextRecvSeq
      · have hsee : Complete (s.see msg).toCore := h
        rw [(dispatchFixMessage_conform hk hck hseq (hok.1 hck hseq)).1]
        exact hsee.processed (hk.see msg) hseq (hok.1 hck hseq) (hends hck hseq)
      · have hsee : Complete (s.see msg).toCore := h
        obtain hcore | ⟨keep, -, hcore⟩ := dispatchWith_stray
          (fun s n => s.checkMsgKeeper env (s.msgKeeper.length + 1) n) hck hseq
        · rw [dispatchFixMessage, hcore]
          exact hsee.strayed _ (hok.2.1 hck hseq).1
        · rw [dispatchFixMessage, hcore]
          split
          · exact hsee.gapIf msg (some keep)
          · exact hsee
    · obtain hcore | ⟨-, -, hcore⟩ := dispatchWith_unchecked
        (fun s n => s.checkMsgKeeper env (s.msgKeeper.length + 1) n) s hck
      · rw [dispatchFixMessage, hcore]
        exact h
      · rw [dispatchFixMessage, hcore]
        exact h
  | acceptLogon msg =>
    show Complete (s.acceptLogon msg).toCore
    unfold FixReceiver.acceptLogon
    cases compareFixSeqNum msg.msgSeqNum s.nextRecvSeq with
    | tooLow => exact h
    | conform => exact h
    | tooHigh =>
      have hcore := onMsgSeqNumTooHigh_toCore (s.write (.ignoreRecv msg.origMsgStr)) msg gapSkipRecord
      show Complete (Core.see (FixReceiver.toCore _) msg)
      rw [hcore]
      exact h.gapIf msg (some false)
  | clearRecvKeeper => exact h
  | forceResetRecvSeq info n => exact h
  | derived f => exact h

/-- A step that fits the keeper never moves the sequence back without a reset. -/
theorem KeeperOk.orderly {op : Op σ} (h : KeeperOk env s op) :
    Orderly env (Forward env) (Forward env) s op := by
  cases op with
  | dispatch msg =>
    refine ⟨fun hck => ⟨fun hseq hreset => ?_, fun hkeeps _ => ?_⟩, fun hck hty hseq => (h.2.2 hck hty hseq).1⟩
    · have hfits := h.1 hck hseq
      cases hact : actionOf env msg with
      | plain =>
        rw [hact] at hfits
        obtain hnext | ⟨hnext, -⟩ := hfits <;> omega
      | gapFill n =>
        rw [handledNext, hact]
        exact actionOf_gapFill_le hact
      | reset n => simp [resetsTo, hact] at hreset
    · have hnext := ((h.2.1 hck (by have := hkeeps.1; omega)).2 hkeeps).2
      omega
  | acceptLogon msg => exact fun hseq => (h hseq).1
  | clearRecvKeeper => trivial
  | forceResetRecvSeq info n => trivial
  | derived f => trivial

/-- What follows a move that takes its number lies behind that number, up to the next
reset. -/
theorem Chained.once {a b : ℕ} {pre post : List Move} {mv : Move} (h : Chained a (pre ++ mv :: post) b)
    (hok : ∀ m ∈ pre ++ mv :: post, m.Steady env) (hmv : mv.before < mv.after)
    (hr : ∀ m ∈ post, ¬ m.IsReset env) : ∀ n ∈ post.filterMap Move.seqDispatched, mv.before < n := by
  obtain ⟨_, -, -, hpost⟩ := h.split
  intro n hn
  exact hmv.trans_le (hpost.seqDispatched_ge (fun m hm => hok m (by simp [hm])) hr n hn)

variable (env)

/-- What a step must meet for complete recovery. -/
def Recoverable (op : Op σ) : Prop := KeeperOk env s op ∧ EndsRight env s op

instance (s : FixReceiver σ) (op : Op σ) : Decidable (Recoverable env s op) :=
  inferInstanceAs (Decidable (_ ∧ _))

/-- Complete recovery: when `OnRecoverDone` is called the highest number behind the gap
has been passed; the messages kept since the keeper was last cleared have been
dispatched in sequence in their order, each taking its number, or still wait in
ascending order for their number; and a number that is taken is not dispatched again
before a reset. -/
structure Recovered (start : ℕ) (c : Core) : Prop where
  complete : Complete c
  chained : Chained start c.history.moves c.nextRecvSeq
  accounted : Accounted c
  waiting : c.msgKeeper.Pairwise fun a b => a.msgSeqNum < b.msgSeqNum
  ahead : ∀ k ∈ c.msgKeeper, c.nextRecvSeq < k.msgSeqNum
  once : ∀ pre mv post, c.history.moves = pre ++ mv :: post → mv.before < mv.after →
    (∀ m ∈ post, ¬ m.IsReset env) → ∀ n ∈ post.filterMap Move.seqDispatched, mv.before < n

variable {env}

theorem KeeperInv.ahead (h : KeeperInv env c) : ∀ k ∈ c.msgKeeper, c.nextRecvSeq < k.msgSeqNum := by
  intro k hk
  have hne : c.resendRequestEndSeqNo ≠ 0 := by
    intro h0
    rw [(h.idle h0).1] at hk
    exact absurd hk not_mem_nil
  have hle := h.next_le hne
  have := h.asc.le k hk
  omega

/-- In a run of such steps every recovery is complete. -/
theorem run_recovered (start : ℕ) (hstart : start ≠ 0) (derived : σ) (ops : List (Op σ))
    (hok : Along (step env) (Recoverable env) { nextRecvSeq := start, derived := derived } ops) :
    Recovered env start (run env { nextRecvSeq := start, derived := derived } ops).toCore := by
  have htrace := (init_traced start derived).run tracks_steady ops (hok.mono fun s op h => h.1.orderly)
  have hinit : KeeperInv env ({ nextRecvSeq := start, derived := derived } : FixReceiver σ).toCore :=
    ⟨hstart, fun _ => ⟨rfl, rfl⟩, fun h0 => absurd rfl h0, le_rfl, .nil _,
      fun _ hk => absurd hk List.not_mem_nil, rfl, List.nil_sublist _⟩
  have hcomplete : Complete ({ nextRecvSeq := start, derived := derived } : FixReceiver σ).toCore :=
    fun d hd => absurd hd List.not_mem_nil
  obtain ⟨hk, hc⟩ := hok.foldl (P := fun s => KeeperInv env s.toCore ∧ Complete s.toCore)
    (fun s op h hop => ⟨step_keeperInv s op h.1 hop.1, step_complete s op h.2 h.1 hop.1 hop.2⟩)
    ⟨hinit, hcomplete⟩
  refine ⟨hc, htrace.chained, hk.accounted, hk.asc.sorted, hk.ahead, ?_⟩
  intro pre mv post heq hmv hr
  have hch := htrace.chained
  have hst := htrace.moves
  rw [heq] at hch hst
  exact hch.once hst hmv hr

/-- Two reports are kept and an order is dropped behind a gap; the gap, the hole between
the reports and the dropped order are asked for in turn, and all is dispatched. -/
theorem run_recovered_gaps :
    let ops : List (Op Unit) :=
      [.dispatch (utMsg 1 kMsgTypeTestRequest []), .dispatch (utMsg 3 [ch '8'] []),
        .dispatch (utMsg 5 [ch '8'] []), .dispatch (utMsg 7 [ch 'D'] []),
        .dispatch (utMsg 2 kMsgTypeSequenceReset [(kTagGapFillFlag, cstr "Y"), (kTagNewSeqNo, cstr "3")]),
        .dispatch (utMsg 4 [ch 'D'] [(kTagPossDupFlag, cstr "Y")]),
        .dispatch (utMsg 6 [ch '8'] [(kTagPossDupFlag, cstr "Y")]),
        .dispatch (utMsg 7 [ch 'D'] [(kTagPossDupFlag, cstr "Y")])]
    Recovered utEnv 1 (run utEnv { nextRecvSeq := 1, derived := () } ops).toCore :=
  run_recovered 1 (by decide) () _ (by decide +kernel)

/-- Orders 2 and 3 are dropped behind the gap, 2 being the end of the request: when it
has come again the recovery ends with 3 missing. -/
theorem run_not_recovered :
    let ops : List (Op Unit) :=
      [.dispatch (utMsg 2 [ch 'D'] []), .dispatch (utMsg 3 [ch 'D'] []), .dispatch (utMsg 1 [ch 'D'] []),
        .dispatch (utMsg 2 [ch 'D'] [])]
    let c := (run utEnv { nextRecvSeq := 1, derived := () } ops).toCore
    c.history.dones = [⟨3, 3⟩] ∧ ¬ Recovered utEnv 1 c := by
  intro ops c
  have hdones : c.history.dones = [⟨3, 3⟩] := by decide +kernel
  refine ⟨hdones, fun h => ?_⟩
  have := h.complete ⟨3, 3⟩ (by rw [hdones]; simp)
  exact absurd this (by decide)

end Fon9.Fix
