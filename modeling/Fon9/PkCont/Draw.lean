import Fon9.PkCont.Recover

/-! What a feeder hands over is drawn from what was fed and from what was pending: no packet is
handed over more often than it came in. This holds for every derived class, and whether the
sequence wraps or not. -/

namespace Fon9.PkCont

open Lib List PkContFeeder PkContFeeder

variable {D Pk : Type*}

/-- The packets of a list of records. -/
def packets (pks : List (PkRec Pk)) : Multiset Pk := (pks.map PkRec.pk : List Pk)

@[simp] theorem packets_nil : packets ([] : List (PkRec Pk)) = 0 := rfl

/-- Between the two states packets of `pks` are handed over, and `rest` is left of them. -/
def Draws (s s' : PkContFeeder Pk) (pks rest : Multiset Pk) : Prop :=
  ∃ news : List (Received Pk), s'.received = s.received ++ news ∧ (news.map Received.pk : List Pk) + rest ≤ pks

namespace Draws

variable {s s' s'' : PkContFeeder Pk} {pks rest rest' : Multiset Pk}

/-- Nothing is handed over. -/
theorem quiet (h : s'.received = s.received) (hle : rest ≤ pks) : Draws s s' pks rest := by
  refine ⟨[], ?_, ?_⟩
  · rw [h, append_nil]
  · simpa using hle

theorem trans (h : Draws s s' pks rest) (h' : Draws s' s'' rest rest') : Draws s s'' pks rest' := by
  obtain ⟨news, hnews, hle⟩ := h
  obtain ⟨news', hnews', hle'⟩ := h'
  refine ⟨news ++ news', ?_, ?_⟩
  · rw [hnews', hnews, append_assoc]
  · rw [map_append, ← Multiset.coe_add, add_assoc]
    exact (add_le_add_right hle' _).trans hle

/-- The other packets do not matter. -/
theorem frame (h : Draws s s' pks rest) (others : Multiset Pk) : Draws s s' (others + pks) (others + rest) := by
  obtain ⟨news, hnews, hle⟩ := h
  refine ⟨news, hnews, ?_⟩
  rw [add_left_comm]
  exact add_le_add_right hle _

theorem congr (h : Draws s s' pks rest) (hlog : s''.log = s'.log) : Draws s s'' pks rest := by
  obtain ⟨news, hnews, hle⟩ := h
  refine ⟨news, ?_, hle⟩
  rw [← hnews, received, received, hlog]

end Draws

theorem received_log {s s' : PkContFeeder Pk} (h : s'.log = s.log) : s'.received = s.received := by
  rw [received, received, h]

/-- A packet is kept, or its number is there already. -/
theorem packets_insertPending (s : PkContFeeder Pk) (pk : Pk) (key : ℕ) :
    packets (s.insertPending pk key).pkPendings ≤ {pk} + packets s.pkPendings := by
  by_cases hkey : (sortedInsert PkRec.seq ⟨pk, key⟩ s.pkPendings).2 = false
  · rw [insertPending, if_pos hkey]
    exact Multiset.le_add_left _ _
  · rw [insertPending, if_neg hkey]
    have hperm := sortedInsert_perm (Bool.not_eq_false _ ▸ hkey)
    exact (Multiset.coe_eq_coe.mpr (hperm.map PkRec.pk)).le

namespace Derived

variable (on : OnReceived D Pk) (cfg : Config)

variable (s : D × PkContFeeder Pk)

theorem callOnReceived_draws (pk : Pk) (seq : ℕ) :
    Draws s.2 (callOnReceived on cfg s pk seq).2 {pk} 0 := by
  refine ⟨[⟨pk, seq, s.2.nextSeq, (callOnReceived on cfg s pk seq).2.nextSeq⟩], ?_, le_refl _⟩
  show (s.2.log ++ [_]).filterMap _ = _
  rw [filterMap_append]
  rfl

/-- The first of some packets is handed over. -/
theorem callOnReceived_draws_cons (i : PkRec Pk) (seq : ℕ) (pks : List (PkRec Pk)) :
    Draws s.2 (callOnReceived on cfg s i.pk seq).2 (packets (i :: pks)) (packets pks) := by
  have hframe := (callOnReceived_draws on cfg s i.pk seq).frame (packets pks)
  rw [add_zero, add_comm] at hframe
  exact hframe

theorem callLost_draws (i : PkRec Pk) (pks : List (PkRec Pk)) :
    Draws s.2 (callLost on cfg s i).2 (packets (i :: pks)) (packets pks) :=
  (Draws.quiet (received_log rfl) (le_refl _)).trans (callOnReceived_draws_cons on cfg _ i i.seq pks)

theorem drain_draws (pks : List (PkRec Pk)) :
    Draws s.2 (drain on cfg s pks).2 (packets pks) (packets (drain on cfg s pks).2.pkPendings) := by
  induction pks generalizing s with
  | nil => exact .quiet (received_log rfl) (le_refl _)
  | cons i pks ih =>
    rw [drain]
    dsimp only
    split_ifs with hne
    · exact .quiet (received_log rfl) (le_refl _)
    · exact (callOnReceived_draws_cons on cfg s i _ pks).trans (ih _)

theorem pkReceived_draws (pk : Pk) (seq : ℕ) :
    Draws s.2 (pkReceived on cfg s pk seq).2 ({pk} + packets s.2.pkPendings)
      (packets (pkReceived on cfg s pk seq).2.pkPendings) := by
  have hcall := (callOnReceived_draws on cfg s pk seq).frame (packets s.2.pkPendings)
  rw [add_zero, add_comm] at hcall
  exact hcall.trans (drain_draws on cfg _ s.2.pkPendings)

theorem feedPacket_draws (pk : Pk) (seq : ℕ) :
    Draws s.2 (feedPacket on cfg s pk seq).2 ({pk} + packets s.2.pkPendings)
      (packets (feedPacket on cfg s pk seq).2.pkPendings) := by
  have hreceived := pkReceived_draws on cfg s pk seq
  have hdropped : Draws s.2 (s.2.dropPk pk seq) ({pk} + packets s.2.pkPendings) (packets s.2.pkPendings) :=
    .quiet (received_dropPk _ _ _) (Multiset.le_add_left _ _)
  have hkept : ∀ key, Draws s.2 (s.2.insertPending pk key) ({pk} + packets s.2.pkPendings)
      (packets (s.2.insertPending pk key).pkPendings) :=
    fun key => .quiet (received_insertPending _ _ _) (packets_insertPending _ _ _)
  rw [feedPacket]
  split_ifs
  · exact hreceived
  · exact hkept _
  · exact hdropped
  · exact hreceived
  · exact hdropped
  · exact hreceived
  · exact hkept _

theorem flush_draws (pks : List (PkRec Pk)) : Draws s.2 (flush on cfg s pks).2 (packets pks) 0 := by
  induction pks generalizing s with
  | nil => exact .quiet rfl (le_refl _)
  | cons i pks ih => exact (callLost_draws on cfg s i pks).trans (ih _)

theorem pkContOnTimer_draws :
    Draws s.2 (pkContOnTimer on cfg s).2 (packets s.2.pkPendings) (packets (pkContOnTimer on cfg s).2.pkPendings) :=
  (flush_draws on cfg s s.2.pkPendings).congr rfl

theorem recoverLoop_draws (endSeq : ℕ) (again : Bool) (s : D × PkContFeeder Pk) (pks : List (PkRec Pk)) :
    Draws s.2 (recoverLoop on cfg endSeq again s pks).1.2 (packets pks)
      (packets (recoverLoop on cfg endSeq again s pks).2) := by
  induction pks generalizing again s with
  | nil => exact .quiet rfl (le_refl _)
  | cons i pks ih =>
    rw [recoverLoop]
    split_ifs with hagain hend
    · exact (callOnReceived_draws_cons on cfg s i _ pks).trans (ih _ _)
    · exact (callLost_draws on cfg s i pks).trans (ih _ _)
    · exact .quiet rfl (le_refl _)

theorem onRecoverErr_draws (isNoRecover : Bool) (endSeq : ℕ) (s : D × PkContFeeder Pk) :
    Draws s.2 (onRecoverErr on cfg isNoRecover endSeq s).2 (packets s.2.pkPendings)
      (packets (onRecoverErr on cfg isNoRecover endSeq s).2.pkPendings) := by
  have hloop := recoverLoop_draws on cfg endSeq false s s.2.pkPendings
  by_cases hpend : s.2.pkPendings = []
  · rw [onRecoverErr_empty hpend]
    exact .quiet rfl (le_refl _)
  · cases isNoRecover with
    | true =>
      rw [onRecoverErr_flush hpend]
      dsimp only
      rw [resetBiggerNextSeq_pkPendings]
      exact (pkContOnTimer_draws on cfg s).congr (resetBiggerNextSeq_log _ _)
    | false =>
      cases hrest : recoverLoop on cfg endSeq false s s.2.pkPendings with
      | mk r rest =>
        rw [hrest] at hloop
        cases rest with
        | nil =>
          rw [onRecoverErr_all hpend hrest]
          exact hloop.congr rfl
        | cons i rest =>
          rw [onRecoverErr_some hpend hrest]
          have hreset := hloop.congr (resetBiggerNextSeq_log { r.2 with pkPendings := i :: rest } endSeq)
          refine hreset.trans (.quiet ?_ (le_of_eq (congrArg packets (resetBiggerNextSeq_pkPendings _ _))))
          show (_ ++ [_]).filterMap _ = _
          rw [filterMap_append]
          exact append_nil _

end Derived

end Fon9.PkCont
