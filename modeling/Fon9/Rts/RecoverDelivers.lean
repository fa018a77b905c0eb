import Fon9.Rts.RecoverRuns

/-! A recovery as a whole: from the subscription on, firing after firing of the timer, all
stored packets that are asked for are taken, each once and in their order, and then the end. -/

namespace Fon9.Rts

open Lib Buffer Bitv TimeInterval Recovering

/-! ### When the notifications pass -/

/-- The packets from a position on. -/
def packetsFrom (pos : ℕ) : List MdRtsPk → List MdRtsPk
  | [] => []
  | pk :: pks => if pos = 0 then pk :: pks else packetsFrom (pos - pk.recordSize) pks

theorem At.packetsFrom_eq {recs pks : List MdRtsPk} {pos : ℕ} (h : At recs pos pks) : packetsFrom pos recs = pks := by
  obtain ⟨before, rfl, rfl⟩ := h
  induction before with
  | nil => cases pks <;> rfl
  | cons pk before ih =>
    have := pk.lt_recordSize
    rw [List.cons_append, packetsFrom, recordsSize_cons, if_neg (by omega), Nat.add_sub_cancel_left]
    exact ih

section Decide

variable {args : RecoverArgs}

instance batchesPassDecidable : (calls m : ℕ) → (b pks : List MdRtsPk) → Decidable (BatchesPass args calls m b pks)
  | _, _, _, [] => isTrue trivial
  | calls, m, b, pk :: pks =>
    haveI (c n : ℕ) (b' : List MdRtsPk) : Decidable (BatchesPass args c n b' pks) := batchesPassDecidable c n b' pks
    inferInstanceAs (Decidable (if pk.recordSize ≤ m then
      if isEnumContainsAny args.filter pk.rtsKind = true then
        if (packAll (b ++ [pk])).length > 1024 then
          Passes args (b ++ [pk]) ∧
            (TimeInterval.isForced (args.answer calls) = false → BatchesPass args (calls + 1) (m - pk.recordSize) [] pks)
        else BatchesPass args calls (m - pk.recordSize) (b ++ [pk]) pks
      else BatchesPass args calls (m - pk.recordSize) b pks
    else b = [] ∨ Passes args b))

instance startPassesDecidable (tm : DayTime) (calls : ℕ) : (m : ℕ) → (pks : List MdRtsPk) → Decidable (StartPasses args tm calls m pks)
  | _, [] => isTrue trivial
  | m, pk :: pks =>
    haveI (n : ℕ) : Decidable (StartPasses args tm calls n pks) := startPassesDecidable tm calls n pks
    inferInstanceAs (Decidable (if starts args tm pk = true then
      BatchesPass args calls (if pk.recordSize ≤ m then m else rdbufSize) [] (pk :: pks)
    else StartPasses args tm calls ((if pk.recordSize ≤ m then m else rdbufSize) - pk.recordSize) pks))

end Decide

/-- What a firing must find: its notifications pass the filter of the subscription's stream,
and where no packet is to be recovered, the end is not refused. -/
def FirePasses (args : RecoverArgs) (recs : List MdRtsPk) (s : Recovering) : Prop :=
  s.isRunAfter = true →
    if s.recover.isStarted = true then BatchesPass args s.subr.calls rdbufSize [] (packetsFrom s.recover.lastPos recs)
    else StartPasses args s.recover.startInfoTime s.subr.calls rdbufSize recs ∧
      ((∀ pk ∈ recs, starts args s.recover.startInfoTime pk = false) →
        TimeInterval.isForced (args.answer s.subr.calls) = false)

instance (args : RecoverArgs) (recs : List MdRtsPk) (s : Recovering) : Decidable (FirePasses args recs s) :=
  inferInstanceAs (Decidable (_ → ite _ _ _))

/-- So far the packets that are asked for have been taken from the first one on, in batches;
and when the timer does not run again, all of them, and the end once behind them. -/
def Delivered (args : RecoverArgs) (recs : List MdRtsPk) (tm : DayTime) (s : Recovering) : Prop :=
  if s.isRunAfter = true then ∃ bs, Taken s.subr bs ∧ bs.flatten <+: recovered args tm recs
  else Ended (recovered args tm recs) s.subr

/-! ### Firing after firing -/

variable {args : RecoverArgs} {recs : List MdRtsPk} {tm : DayTime} {s : Recovering} {n : ℕ}

/-- A state of the run, with a bound of what is to be recovered. -/
inductive RunState (args : RecoverArgs) (recs : List MdRtsPk) (tm : DayTime) : ℕ → Recovering → Prop
  | start (h : tm ≠ dayTimeNull) : RunState args recs tm (recs.length + 1) (.init (recordsSize recs) tm)
  | resting {s : Recovering} {back : List MdRtsPk} (hrun : s.isRunAfter = true)
      (h : Resting args recs (recovered args tm recs) s.recover s.subr back) : RunState args recs tm back.length s
  | ended {s : Recovering} (hrun : s.isRunAfter = false) (h : Ended (recovered args tm recs) s.subr) : RunState args recs tm 0 s

theorem runState_init (args : RecoverArgs) (recs : List MdRtsPk) (tm : DayTime) :
    ∃ n, RunState args recs tm n (.init (recordsSize recs) tm) := by
  by_cases hnull : tm = dayTimeNull
  · have hinit : (init (recordsSize recs) tm).recover =
        MdRtRecover.setLastPos ⟨true, dayTimeNull, 0, dayTimeNull, recordsSize recs⟩ 0 := if_pos hnull
    refine ⟨recs.length, .resting rfl ⟨by rw [hinit]; rfl, by rw [hinit]; rfl, ⟨[], rfl, by rw [hinit]; rfl⟩, [], rfl, ?_⟩⟩
    rw [recovered, if_pos hnull]
    rfl
  · exact ⟨_, .start hnull⟩

theorem RunState.delivered (h : RunState args recs tm n s) : Delivered args recs tm s := by
  cases h with
  | start h =>
    exact ⟨[], rfl, List.nil_prefix⟩
  | resting hrun h =>
    obtain ⟨bs, htaken, hall⟩ := h.taken
    rw [Delivered, if_pos hrun]
    exact ⟨bs, htaken, hall ▸ List.prefix_append _ _⟩
  | ended hrun h =>
    rw [Delivered, if_neg (by rw [hrun]; exact Bool.false_ne_true)]
    exact h

theorem RunState.of_fired {r : RecoverWork × Bool} {calls : ℕ} (h : Fired args recs (recovered args tm recs) n calls r) :
    ∃ n', RunState args recs tm n' ⟨r.1.recover, r.1.subr, r.2⟩ ∧
      (r.2 = true → calls ≤ r.1.subr.calls ∧ (n' < n ∨ n' ≤ n ∧ Refused args calls r.1.subr)) := by
  cases h with
  | again hresting hcalls hless => exact ⟨_, .resting rfl hresting, fun _ => ⟨hcalls, hless⟩⟩
  | done hended => exact ⟨0, .ended rfl hended, fun h => (nomatch h)⟩

/-- The first firing, where there is a time to begin with. -/
theorem fired_start (hstored : Stored args recs) (htm : tm ≠ dayTimeNull)
    (hpass : FirePasses args recs (.init (recordsSize recs) tm)) :
    Fired args recs (recovered args tm recs) (recs.length + 1) 0
      (onTimer args (init (recordsSize recs) tm).recover {}) := by
  have hinit : (init (recordsSize recs) tm).recover = ⟨false, tm, 0, dayTimeNull, recordsSize recs⟩ := if_neg htm
  have hpass := hpass rfl
  rw [hinit] at hpass ⊢
  obtain ⟨hstart, hend⟩ := hpass
  have hscan : Scanning args recs (recovered args tm recs) tm recs
      ⟨⟨false, tm, 0, dayTimeNull, recordsSize recs⟩, { pos := 0 }, {}⟩ := by
    refine ⟨rfl, rfl, rfl, rfl, rfl, rfl, rfl, rfl, ?_⟩
    rw [recovered, if_neg htm]
  have hlen := length_le_recordsSize recs
  have hnone : (recs.dropWhile fun pk => !starts args tm pk) = [] → isForced (args.answer 0) = false := by
    intro hrest
    apply hend
    intro pk hpk
    simpa using List.dropWhile_eq_nil_iff.mp hrest pk hpk
  exact fired_of_blocksEnd (@blockLoop_scanning args recs _ recs _ 0 (recs.length + 1) (recordsSize recs + 1) tm hstored 0
    (by omega) (by omega) hscan ⟨[], rfl, rfl⟩ (fun pk _ => lt_of_le_of_lt (Nat.zero_le _) pk.lt_recordSize) (Nat.zero_le _)
    hstart hnone)

/-- A firing of a recovery that has begun. -/
theorem fired_resting {whole back : List MdRtsPk} {recover : MdRtRecover} {subr : MdRtSubr} (hstored : Stored args recs)
    (h : Resting args recs whole recover subr back) (hpass : BatchesPass args subr.calls rdbufSize [] back) :
    Fired args recs whole back.length subr.calls (onTimer args recover subr) := by
  obtain ⟨bs, htaken, hall⟩ := h.taken
  have hbatching : Batching args recs whole back.length back ⟨recover, { pos := recover.lastPos }, subr⟩ bs [] := by
    refine ⟨h.isStarted, h.endPos, rfl, rfl, rfl, htaken, ?_, fun hne => absurd rfl hne⟩
    rw [List.append_nil]
    exact hall
  apply @fired_of_blocksEnd args recs whole back.length dayTimeNull recover subr
  rw [if_pos h.isStarted]
  exact blockLoop_batching hstored hbatching h.here rfl hpass

/-- A firing keeps the account, and brings less to be recovered, or a refusal. -/
theorem RunState.fire (hstored : Stored args recs) (h : RunState args recs tm n s) (hpass : FirePasses args recs s) :
    ∃ n', RunState args recs tm n' (s.fire args) ∧
      ((s.fire args).isRunAfter = true →
        s.subr.calls ≤ (s.fire args).subr.calls ∧ (n' < n ∨ n' ≤ n ∧ Refused args s.subr.calls (s.fire args).subr)) := by
  cases h with
  | start htm => exact RunState.of_fired (fired_start hstored htm hpass)
  | @resting s back hrun h =>
    have hback := hpass hrun
    rw [if_pos h.isStarted, h.here.packetsFrom_eq] at hback
    have hfire : s.fire args = ⟨(onTimer args s.recover s.subr).1.recover, (onTimer args s.recover s.subr).1.subr,
        (onTimer args s.recover s.subr).2⟩ := if_pos hrun
    rw [hfire]
    exact RunState.of_fired (fired_resting hstored h hback)
  | ended hrun h =>
    have hfire : s.fire args = s := if_neg (by rw [hrun]; exact Bool.false_ne_true)
    rw [hfire]
    exact ⟨0, .ended hrun h, fun hagain => absurd (hrun.symm.trans hagain) Bool.false_ne_true⟩

/-! ### What the client makes of a notification -/

/-- `DecodeStreamRe`: the packets of a notification. -/
def decodeStreamRe : ℕ → Bytes → List Bytes
  | 0, _ => []
  | fuel + 1, gvdcq =>
    match popBitvByteArraySize gvdcq with
    | .ok (some (pksz, gvdcq)) => gvdcq.take pksz :: decodeStreamRe fuel (gvdcq.drop pksz)
    | _ => []

/-! ### All firings -/

/-- The recovery after so many firings. -/
def recovery (args : RecoverArgs) (recs : List MdRtsPk) (tm : DayTime) (k : ℕ) : Recovering :=
  (Recovering.fire args)^[k] (.init (recs.foldl RtStorage.save {}).size tm)

theorem recovery_zero (args : RecoverArgs) (recs : List MdRtsPk) (tm : DayTime) :
    recovery args recs tm 0 = .init (recordsSize recs) tm := by
  rw [recovery, save_records]
  show init (0 + recordsSize recs) tm = init (recordsSize recs) tm
  rw [zero_add]

theorem recovery_succ (args : RecoverArgs) (recs : List MdRtsPk) (tm : DayTime) (k : ℕ) :
    recovery args recs tm (k + 1) = (recovery args recs tm k).fire args :=
  Function.iterate_succ_apply' ..

theorem recovery_runState (hstored : Stored args recs) {k : ℕ} (hpass : ∀ j < k, FirePasses args recs (recovery args recs tm j)) :
    ∃ n, RunState args recs tm n (recovery args recs tm k) := by
  induction k with
  | zero =>
    rw [recovery_zero]
    exact runState_init args recs tm
  | succ k ih =>
    obtain ⟨n, h⟩ := ih fun j hj => hpass j (Nat.lt_succ_of_lt hj)
    obtain ⟨n', h', -⟩ := h.fire hstored (hpass k (Nat.lt_succ_self k))
    rw [recovery_succ]
    exact ⟨n', h'⟩

/-- Every firing brings less to be recovered, or uses up one of the refusals. -/
theorem recovery_ends (hstored : Stored args recs) (hpass : ∀ j, FirePasses args recs (recovery args recs tm j)) {m : ℕ}
    (hanswer : ∀ c, m ≤ c → isForced (args.answer c) = false) {p k : ℕ}
    (h : RunState args recs tm n (recovery args recs tm k)) (hp : n + (m - (recovery args recs tm k).subr.calls) < p) :
    ∃ k, (recovery args recs tm k).isRunAfter = false := by
  induction p generalizing n k with
  | zero => exact absurd hp (Nat.not_lt_zero _)
  | succ p ih =>
    obtain ⟨n', h', hless⟩ := h.fire hstored (hpass k)
    rw [← recovery_succ] at h' hless
    cases hrun : (recovery args recs tm (k + 1)).isRunAfter with
    | false => exact ⟨k + 1, hrun⟩
    | true =>
      obtain ⟨hcalls, hn | ⟨hn, c, hc, hc', hforced⟩⟩ := hless hrun
      · exact ih h' (by omega)
      · have hcm : c < m := by
          by_contra hge
          rw [hanswer c (Nat.le_of_not_lt hge)] at hforced
          exact absurd hforced Bool.false_ne_true
        exact ih h' (by omega)

/-- In a recovery whose notifications pass the filter of the subscription's stream, and whose
end is not refused where there is nothing to be recovered, all that is asked for is taken in
its order, and then the end; and it comes to its end where refusals do not go on for ever. -/
theorem recover_delivers (args : RecoverArgs) (recs later : List MdRtsPk) (tm : DayTime)
    (hreader : args.reader = ((recs ++ later).foldl RtStorage.save {}).content)
    (hsizes : ∀ pk ∈ recs, pk.recordSize ≤ rdbufSize) :
    (∀ k, (∀ j < k, FirePasses args recs (recovery args recs tm j)) → Delivered args recs tm (recovery args recs tm k)) ∧
    ((∀ j, FirePasses args recs (recovery args recs tm j)) →
      (∃ m, ∀ c, m ≤ c → TimeInterval.isForced (args.answer c) = false) →
        ∃ k, (recovery args recs tm k).isRunAfter = false) := by
  have hstored : Stored args recs := by
    refine ⟨⟨records (0 + recordsSize recs) later, ?_⟩, hsizes⟩
    rw [hreader, save_records]
    show [] ++ records 0 (recs ++ later) = _
    rw [List.nil_append, records_append]
  constructor
  · intro k hpass
    obtain ⟨n, h⟩ := recovery_runState hstored hpass
    exact h.delivered
  · rintro hpass ⟨m, hanswer⟩
    obtain ⟨n, h⟩ := @recovery_runState args recs tm hstored 0 fun j _ => hpass j
    exact recovery_ends hstored hpass hanswer h (Nat.lt_succ_self _)

/-- A deal at nine o'clock. -/
def nineDeal : MdRtsPk := ⟨mdRtsKind_Deal, rtsPackType_DealPack, IntType.int64.cast 32400000000, []⟩

/-- Two deals, asked for from eight o'clock on; the first notification is refused. -/
def fromEight : RecoverArgs where
  reader := ([nineDeal, nineDeal].foldl RtStorage.save {}).content
  rtArgs := 0
  reArgs := mdRtsKind_Deal
  dailyClearTime := IntType.int64.cast 0
  answer c := IntType.int64.cast (if c = 0 then -1000 else 0)

theorem recover_delivers_fromEight :
    Delivered fromEight [nineDeal, nineDeal] (IntType.int64.cast 28800000000)
      (recovery fromEight [nineDeal, nineDeal] (IntType.int64.cast 28800000000) 2) :=
  (recover_delivers fromEight [nineDeal, nineDeal] [] (IntType.int64.cast 28800000000) rfl (by decide)).1 2 (by decide)

/-- A deal is asked for from two o'clock in the afternoon on, and there is none; the end is
refused once, and the deal of nine o'clock is sent with it. -/
theorem not_recover_delivers :
    ¬ ∀ (args : RecoverArgs) (recs : List MdRtsPk) (tm : DayTime),
      args.reader = (recs.foldl RtStorage.save {}).content → (∀ pk ∈ recs, pk.recordSize ≤ rdbufSize) →
        ∀ k, Delivered args recs tm (recovery args recs tm k) := by
  intro h
  have hdelivered := h { fromEight with reader := ([nineDeal].foldl RtStorage.save {}).content } [nineDeal]
    (IntType.int64.cast 50400000000) rfl (by decide) 2
  have hrun : (recovery { fromEight with reader := ([nineDeal].foldl RtStorage.save {}).content } [nineDeal]
      (IntType.int64.cast 50400000000) 2).isRunAfter = false := by decide
  have htaken : (recovery { fromEight with reader := ([nineDeal].foldl RtStorage.save {}).content } [nineDeal]
      (IntType.int64.cast 50400000000) 2).subr.taken = [(.streamRecoverEnd, nineDeal.packed)] := by decide
  rw [Delivered, if_neg (by rw [hrun]; exact Bool.false_ne_true)] at hdelivered
  obtain ⟨bs, b, htaken', hall⟩ := hdelivered
  have hnone : recovered { fromEight with reader := ([nineDeal].foldl RtStorage.save {}).content }
      (IntType.int64.cast 50400000000) [nineDeal] = [] := by decide
  obtain ⟨-, rfl⟩ := List.append_eq_nil_iff.mp (hall.trans hnone)
  rw [htaken] at htaken'
  have hlast := congrArg List.getLast? htaken'
  rw [List.getLast?_concat] at hlast
  exact absurd hlast (by decide)

end Fon9.Rts
