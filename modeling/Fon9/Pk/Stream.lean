import Fon9.Pk.Receiver

/-! The packets of a stream do not depend on the chunks it arrives in. On the queue of
bytes alone a turn sees as much of the stream as it needs; only where a chunk ends among
bytes without a leader are these dropped in other turns, and the fewer than `PkHeadSize_`
of them that wait in the queue not yet. `resync` drops these too. -/

namespace Fon9.Pk

open Lib Buffer DcQueueList List UInt64

/-- A packet: the leader, the bytes with their checksum, and CR LF. -/
def Packet (pk : Bytes) : Prop :=
  ∃ body, pk = kPkHeadLeader :: body ++ [0x0d, 0x0a] ∧ body.foldl (· ^^^ ·) 0 = 0

namespace PkReceiver

variable {cfg : Config} {rx rx' : PkReceiver} {q q' : DcQueueList} {s s' t : Bytes}

theorem drop_drop (rx : PkReceiver) (m n : ℕ) : (rx.drop m).drop n = rx.drop (m + n) := by
  rw [drop, drop, drop, ofNat_add, UInt64.add_assoc]

@[simp] theorem drop_zero (rx : PkReceiver) : rx.drop 0 = rx := by
  have hzero : ofNat 0 = 0 := rfl
  rw [drop, hzero, UInt64.add_zero]

/-! ### The queue of bytes -/

theorem resync_bytes (rx : PkReceiver) (s : Bytes) :
    rx.resync s = (rx.drop (s.takeWhile (· != kPkHeadLeader)).length, s.dropWhile (· != kPkHeadLeader)) := rfl

theorem resync_holds (rx : PkReceiver) (h : DcQueueList.Holds q s) :
    (rx.resync q).1 = (rx.resync s).1 ∧ DcQueueList.Holds (rx.resync q).2 (rx.resync s).2 := by
  obtain ⟨hholds, hsize⟩ := h.popUnknownChar kPkHeadLeader
  exact ⟨congrArg rx.drop hsize, hholds⟩

/-- The turns of the same kind, with the same receiver and with the same bytes left. -/
inductive SameTurn : Turn DcQueueList → Turn Bytes → Prop
  | stop : SameTurn .stop .stop
  | next (rx : PkReceiver) {q : DcQueueList} {s : Bytes} (h : DcQueueList.Holds q s) : SameTurn (.next rx q) (.next rx s)
  | interrupt (rx : PkReceiver) {q : DcQueueList} {s : Bytes} (h : DcQueueList.Holds q s) : SameTurn (.interrupt rx q) (.interrupt rx s)

theorem turn_holds (cfg : Config) (rx : PkReceiver) (h : DcQueueList.Holds q s) : SameTurn (turn cfg rx q) (turn cfg rx s) := by
  have hpeek : ∀ sz, DcQueue.peek q sz = DcQueue.peek s sz := h.peek
  have hskip : SameTurn (.next (rx.skipLeader q).1 (rx.skipLeader q).2) (.next (rx.skipLeader s).1 (rx.skipLeader s).2) := by
    obtain ⟨hrx, hholds⟩ := resync_holds (rx.drop 1) (h.popConsumed 1)
    have hrx : (rx.skipLeader q).1 = (rx.skipLeader s).1 := hrx
    rw [hrx]
    exact .next _ hholds
  have hresync : SameTurn (.next (rx.resync q).1 (rx.resync q).2) (.next (rx.resync s).1 (rx.resync s).2) := by
    obtain ⟨hrx, hholds⟩ := resync_holds rx h
    rw [hrx]
    exact .next _ hholds
  rw [turn, turn, hpeek]
  cases DcQueue.peek s cfg.pkHeadSize with
  | none => exact .stop
  | some head =>
    dsimp only
    rw [hpeek]
    split_ifs
    · cases DcQueue.peek s (cfg.getPkSize head) with
      | none => exact .stop
      | some pk =>
        dsimp only
        split_ifs
        · exact .next _ (h.popConsumed _)
        · exact .interrupt _ (h.popConsumed _)
        · exact .next _ (h.popConsumed _)
        · exact hskip
    · exact hskip
    · exact hresync

theorem feedLoop_holds (cfg : Config) (fuel : ℕ) (rx : PkReceiver) (h : DcQueueList.Holds q s) :
    (feedLoop cfg fuel rx q).1 = (feedLoop cfg fuel rx s).1 ∧
      DcQueueList.Holds (feedLoop cfg fuel rx q).2.1 (feedLoop cfg fuel rx s).2.1 ∧
      (feedLoop cfg fuel rx q).2.2 = (feedLoop cfg fuel rx s).2.2 := by
  induction fuel generalizing rx q s with
  | zero => exact ⟨rfl, h, rfl⟩
  | succ fuel ih =>
    have hturn := turn_holds cfg rx h
    rw [feedLoop, feedLoop]
    generalize turn cfg rx q = turnQ at hturn ⊢
    generalize turn cfg rx s = turnS at hturn ⊢
    cases hturn with
    | stop => exact ⟨rfl, h, rfl⟩
    | next rx h => exact ih rx h
    | interrupt rx h => exact ⟨rfl, h, rfl⟩

theorem feedBuffer_holds (cfg : Config) (rx : PkReceiver) (h : DcQueueList.Holds q s) :
    (feedBuffer cfg rx q).1 = (feedBuffer cfg rx s).1 ∧
      DcQueueList.Holds (feedBuffer cfg rx q).2.1 (feedBuffer cfg rx s).2.1 := by
  have hsize : DcQueue.calcSize q = DcQueue.calcSize s := h.calcSize
  obtain ⟨hrx, hholds, hflag⟩ := feedLoop_holds cfg (DcQueue.calcSize s + 1) rx h
  rw [feedBuffer, feedBuffer, hsize]
  cases hs : feedLoop cfg (DcQueue.calcSize s + 1) rx s with
  | mk rx₁ r₁ =>
    cases hq : feedLoop cfg (DcQueue.calcSize s + 1) rx q with
    | mk rx₂ r₂ =>
      obtain ⟨s₁, b₁⟩ := r₁
      obtain ⟨q₂, b₂⟩ := r₂
      rw [hs, hq] at hrx hholds hflag
      obtain rfl : rx₂ = rx₁ := hrx
      obtain rfl : b₂ = b₁ := hflag
      have hholds : DcQueueList.Holds q₂ s₁ := hholds
      cases b₂ with
      | false => exact ⟨rfl, hholds⟩
      | true =>
        have hremain : DcQueue.calcSize q₂ = DcQueue.calcSize s₁ := hholds.calcSize
        dsimp only
        rw [hremain]
        split_ifs
        · exact ⟨rfl, hholds.popConsumed _⟩
        · exact ⟨rfl, hholds⟩

/-! ### Turns on bytes -/

/-- A search that has come to the end of the bytes goes on with the bytes that follow. -/
theorem resync_append (rx : PkReceiver) (s t : Bytes) :
    (rx.resync s).1.resync ((rx.resync s).2 ++ t) = rx.resync (s ++ t) := by
  induction s generalizing rx with
  | nil =>
    show (rx.drop 0).resync t = rx.resync t
    rw [drop_zero]
  | cons c s ih =>
    by_cases hc : c = kPkHeadLeader
    · simp [resync_bytes, hc]
    · have hstep : ∀ s, rx.resync (c :: s) = (rx.drop 1).resync s := by
        intro s
        simp [resync_bytes, hc, drop_drop, add_comm 1]
      rw [hstep, cons_append, hstep]
      exact ih (rx.drop 1)

theorem resync_resync (rx : PkReceiver) (s : Bytes) : (rx.resync s).1.resync (rx.resync s).2 = rx.resync s := by
  have h := resync_append rx s []
  rwa [append_nil, append_nil] at h

theorem peek_append {sz : ℕ} {pk : Bytes} (h : DcQueue.peek s sz = some pk) (t : Bytes) :
    DcQueue.peek (s ++ t) sz = some pk := by
  have h : (if sz ≤ s.length ∧ s ≠ [] then some (s.take sz) else none) = some pk := h
  show (if sz ≤ (s ++ t).length ∧ s ++ t ≠ [] then some ((s ++ t).take sz) else none) = some pk
  split at h
  · next hle =>
    rw [if_pos ⟨by rw [length_append]; omega, append_ne_nil_of_left_ne_nil hle.2 t⟩,
      take_append_of_le_length hle.1]
    exact h
  · cases h

theorem peek_eq_some {sz : ℕ} {pk : Bytes} (h : DcQueue.peek s sz = some pk) :
    sz ≤ s.length ∧ s ≠ [] ∧ pk = s.take sz := by
  have h : (if sz ≤ s.length ∧ s ≠ [] then some (s.take sz) else none) = some pk := h
  split at h
  · next hle => exact ⟨hle.1, hle.2, (Option.some.inj h).symm⟩
  · cases h

/-- What a turn that goes on does with the bytes. -/
inductive Turned (rx : PkReceiver) (s : Bytes) : PkReceiver → Bytes → Prop
  | received {pk : Bytes} (hpk : Packet pk) (rest : Bytes) (hs : s = pk ++ rest) : Turned rx s (rx.receive pk) rest
  | failed (pk rest : Bytes) (hpk : pk ≠ []) (hs : s = pk ++ rest) : Turned rx s (rx.failChkSum pk) rest
  | skipped (c : UInt8) (rest : Bytes) (hs : s = c :: rest) :
      Turned rx s ((rx.drop 1).resync rest).1 ((rx.drop 1).resync rest).2
  | resynced (c : UInt8) (rest : Bytes) (hs : s = c :: rest) (hc : c ≠ kPkHeadLeader) :
      Turned rx s (rx.resync s).1 (rx.resync s).2

theorem skipLeader_append {c : UInt8} (rx : PkReceiver) (rest t : Bytes) :
    ((rx.skipLeader (c :: rest)).1.resync ((rx.skipLeader (c :: rest)).2 ++ t)) = (rx.drop 1).resync (rest ++ t) :=
  resync_append (rx.drop 1) rest t

/-- A turn that goes on does the same when more bytes follow, up to the search for the
next leader. -/
theorem turn_append (h : turn cfg rx s = .next rx' s') (t : Bytes) :
    ∃ rx'' s'', turn cfg rx (s ++ t) = .next rx'' s'' ∧ rx''.resync s'' = rx'.resync (s' ++ t) := by
  rw [turn] at h
  cases hhead : DcQueue.peek s cfg.pkHeadSize with
  | none =>
    rw [hhead] at h
    cases h
  | some head =>
    obtain ⟨-, hne, -⟩ := peek_eq_some hhead
    obtain ⟨c, rest, rfl⟩ := exists_cons_of_ne_nil hne
    rw [hhead] at h
    dsimp only at h
    rw [turn, peek_append hhead t]
    dsimp only
    -- the leader given up, on both sides
    have hskip : Turn.next (rx.skipLeader (c :: rest)).1 (rx.skipLeader (c :: rest)).2 = .next rx' s' →
        ∃ rx'' s'', Turn.next (rx.skipLeader (c :: rest ++ t)).1 (rx.skipLeader (c :: rest ++ t)).2 = .next rx'' s'' ∧
          rx''.resync s'' = rx'.resync (s' ++ t) := by
      intro h
      cases h
      refine ⟨_, _, rfl, ?_⟩
      rw [skipLeader_append]
      exact resync_resync (rx.drop 1) (rest ++ t)
    have hpop : ∀ pk, DcQueue.peek (c :: rest) (cfg.getPkSize head) = some pk → ∀ rx₁ : PkReceiver,
        Turn.next rx₁ (DcQueue.popConsumed (c :: rest) (cfg.getPkSize head)) = .next rx' s' →
        ∃ rx'' s'', Turn.next rx₁ (DcQueue.popConsumed (c :: rest ++ t) (cfg.getPkSize head)) = .next rx'' s'' ∧
          rx''.resync s'' = rx'.resync (s' ++ t) := by
      intro pk hpk rx₁ h
      cases h
      refine ⟨_, _, rfl, ?_⟩
      show rx'.resync ((c :: rest ++ t).drop _) = rx'.resync ((c :: rest).drop _ ++ t)
      rw [drop_append_of_le_length (peek_eq_some hpk).1]
    split_ifs at h ⊢ with hleader hsize
    · cases hpk : DcQueue.peek (c :: rest) (cfg.getPkSize head) with
      | none =>
        rw [hpk] at h
        cases h
      | some pk =>
        rw [hpk] at h
        dsimp only at h
        rw [peek_append hpk t]
        dsimp only
        split_ifs at h ⊢
        · exact hpop pk hpk _ h
        · exact hpop pk hpk _ h
        · exact hskip h
    · exact hskip h
    · cases h
      refine ⟨_, _, rfl, ?_⟩
      rw [resync_resync, resync_append]

/-- A packet taken out of the queue. -/
theorem packet_of_peek {head pk : Bytes} {pksz : ℕ} (hhead : DcQueue.peek s cfg.pkHeadSize = some head)
    (hleader : head.head? = some kPkHeadLeader) (hpk : DcQueue.peek s pksz = some pk) (hpos : 4 < pksz)
    (htail : pk[pksz - 2]? = some 0x0d ∧ pk[pksz - 1]? = some 0x0a) (hcks : calcCheckSum pk (pksz + 1) = 0) :
    Packet pk := by
  obtain ⟨-, -, hhead⟩ := peek_eq_some hhead
  obtain ⟨hlen, -, hpk⟩ := peek_eq_some hpk
  have hpklen : pk.length = pksz := by
    rw [hpk, length_take]
    omega
  cases hs : s with
  | nil =>
    rw [hs] at hlen
    exact absurd hlen (by simp; omega)
  | cons c rest =>
    have hc : c = kPkHeadLeader := by
      rw [hs] at hhead
      cases hn : cfg.pkHeadSize with
      | zero =>
        rw [hhead, hn] at hleader
        cases hleader
      | succ n =>
        rw [hhead, hn] at hleader
        exact Option.some.inj hleader
    have htake : pk = kPkHeadLeader :: (pk.drop 1) := by
      rw [hpk, hs, hc]
      cases pksz with
      | zero => omega
      | succ n => rfl
    have hcrlf : pk.drop (pksz - 2) = [0x0d, 0x0a] := by
      obtain ⟨hlt, hcr⟩ := List.getElem?_eq_some_iff.mp htail.1
      obtain ⟨hlt', hlf⟩ := List.getElem?_eq_some_iff.mp htail.2
      have hsucc : pksz - 2 + 1 = pksz - 1 := by omega
      rw [drop_eq_getElem_cons hlt, hcr, hsucc, drop_eq_getElem_cons hlt', hlf, drop_eq_nil_of_le]
      omega
    have hbody : pk.drop 1 = (pk.take (pksz - 2)).drop 1 ++ [0x0d, 0x0a] := by
      rw [← hcrlf, ← drop_append_of_le_length, take_append_drop]
      rw [length_take]
      omega
    refine ⟨(pk.take (pksz - 2)).drop 1, ?_, hcks⟩
    rw [cons_append, ← hbody]
    exact htake

/-- What the turns do. -/
theorem turn_turned (hhead : 2 ≤ cfg.pkHeadSize) (hmax : cfg.pkHeadSize ≤ kMaxPacketSize) (rx : PkReceiver)
    (s : Bytes) :
    match turn cfg rx s with
    | .stop => True
    | .next rx' s' => Turned rx s rx' s'
    | .interrupt rx' s' => Turned rx s rx' s' := by
  have hu32 : u32 (cfg.pkHeadSize + 2) = cfg.pkHeadSize + 2 := u32_of_lt (by
    rw [kMaxPacketSize] at hmax
    omega)
  rw [turn, hu32]
  cases hpeek : DcQueue.peek s cfg.pkHeadSize with
  | none => trivial
  | some head =>
    obtain ⟨-, hne, hheadEq⟩ := peek_eq_some hpeek
    obtain ⟨c, rest, rfl⟩ := exists_cons_of_ne_nil hne
    dsimp only
    by_cases hleader : head.head? = some kPkHeadLeader
    · rw [if_pos hleader]
      by_cases hsize : cfg.pkHeadSize + 2 < cfg.getPkSize head ∧ cfg.getPkSize head < kMaxPacketSize
      · rw [if_pos hsize]
        cases hpk : DcQueue.peek (c :: rest) (cfg.getPkSize head) with
        | none => trivial
        | some pk =>
          obtain ⟨-, -, hpkEq⟩ := peek_eq_some hpk
          have hsplit : c :: rest = pk ++ (c :: rest).drop (cfg.getPkSize head) := by
            rw [hpkEq, take_append_drop]
          dsimp only
          by_cases htail : pk[cfg.getPkSize head - 2]? = some 0x0d ∧ pk[cfg.getPkSize head - 1]? = some 0x0a
          · rw [if_pos htail]
            by_cases hcks : calcCheckSum pk (cfg.getPkSize head + 1) = 0
            · have hpacket := packet_of_peek hpeek hleader hpk (by omega) htail hcks
              rw [if_pos hcks]
              by_cases hon : cfg.onPkReceived pk = true
              · rw [if_pos hon]
                exact .received hpacket _ hsplit
              · rw [if_neg hon]
                exact .received hpacket _ hsplit
            · rw [if_neg hcks]
              refine .failed pk _ ?_ hsplit
              rintro rfl
              exact absurd htail.1 (by simp)
          · rw [if_neg htail]
            exact .skipped c rest rfl
      · rw [if_neg hsize]
        exact .skipped c rest rfl
    · rw [if_neg hleader]
      refine .resynced c rest rfl ?_
      rintro rfl
      rw [hheadEq] at hleader
      cases hn : cfg.pkHeadSize with
      | zero => omega
      | succ n =>
        rw [hn] at hleader
        exact hleader rfl

/-! ### Bytes are kept account of -/

/-- The bytes of the packets, those dropped and those queued. -/
def account (rx : PkReceiver) (s : Bytes) : UInt64 :=
  UInt64.ofNat (rx.received.flatten.length + rx.chkSumErr.flatten.length + s.length) + rx.droppedBytes

/-- What is recorded are packets, and they are counted. -/
structure Sound (rx : PkReceiver) : Prop where
  packets : ∀ pk ∈ rx.received, Packet pk
  receivedCount : rx.receivedCount = UInt64.ofNat rx.received.length
  chkSumErrCount : rx.chkSumErrCount = UInt64.ofNat rx.chkSumErr.length

theorem account_drop (rx : PkReceiver) (dropped s : Bytes) :
    (rx.drop dropped.length).account s = rx.account (dropped ++ s) := by
  rw [account, account, drop, length_append]
  simp only [ofNat_add]
  rw [UInt64.add_comm rx.droppedBytes, ← UInt64.add_assoc]
  congr 1
  rw [UInt64.add_assoc, UInt64.add_comm (ofNat s.length)]

theorem account_append (rx : PkReceiver) (s t : Bytes) :
    rx.account (s ++ t) = rx.account s + ofNat t.length := by
  rw [account, account, length_append, ← add_assoc, ofNat_add, UInt64.add_assoc,
    UInt64.add_comm (ofNat t.length), ← UInt64.add_assoc]

theorem account_resync (rx : PkReceiver) (s : Bytes) : (rx.resync s).1.account (rx.resync s).2 = rx.account s := by
  rw [resync_bytes, account_drop, takeWhile_append_dropWhile]

theorem Turned.account (h : Turned rx s rx' s') : rx'.account s' = rx.account s := by
  cases h with
  | received hpk rest hs =>
    rw [hs, PkReceiver.account, PkReceiver.account, receive, flatten_concat, length_append, length_append]
    dsimp only
    congr 2
    omega
  | failed pk rest hpk hs =>
    rw [hs, PkReceiver.account, PkReceiver.account, failChkSum, flatten_concat, length_append,
      length_append]
    dsimp only
    congr 2
    omega
  | skipped c rest hs =>
    rw [account_resync, hs]
    exact account_drop rx [c] rest
  | resynced c rest hs hc => exact account_resync rx s

theorem Turned.sound (h : Turned rx s rx' s') (hrx : rx.Sound) : rx'.Sound := by
  have hdrop : ∀ n, (rx.drop n).Sound := fun n => ⟨hrx.packets, hrx.receivedCount, hrx.chkSumErrCount⟩
  cases h with
  | @received pk hpk rest hs =>
    refine ⟨fun pk' hmem => ?_, ?_, hrx.chkSumErrCount⟩
    · obtain hmem | hmem := mem_append.mp hmem
      · exact hrx.packets pk' hmem
      · rw [mem_singleton.mp hmem]
        exact hpk
    · show rx.receivedCount + 1 = ofNat (rx.received ++ [pk]).length
      rw [hrx.receivedCount, length_append, ofNat_add]
      rfl
  | failed pk rest hpk hs =>
    refine ⟨hrx.packets, hrx.receivedCount, ?_⟩
    show rx.chkSumErrCount + 1 = ofNat (rx.chkSumErr ++ [pk]).length
    rw [hrx.chkSumErrCount, length_append, ofNat_add]
    rfl
  | skipped c rest hs =>
    rw [resync_bytes, drop_drop]
    exact hdrop _
  | resynced c rest hs hc => exact hdrop _

theorem Turned.length_lt (h : Turned rx s rx' s') : s'.length < s.length := by
  have hsuffix : ∀ s : Bytes, (s.dropWhile (· != kPkHeadLeader)).length ≤ s.length :=
    fun s => (dropWhile_sublist _).length_le
  cases h with
  | received hpk rest hs =>
    obtain ⟨body, rfl, -⟩ := hpk
    rw [hs, length_append]
    simp
  | failed pk rest hpk hs =>
    rw [hs, length_append]
    have := length_pos_iff.mpr hpk
    omega
  | skipped c rest hs =>
    rw [hs, resync_bytes, length_cons]
    exact Nat.lt_succ_of_le (hsuffix rest)
  | resynced c rest hs hc =>
    rw [hs, resync_bytes, dropWhile_cons, if_pos (by simpa using hc), length_cons]
    exact Nat.lt_succ_of_le (hsuffix rest)

section Receiver

variable (hhead : 2 ≤ cfg.pkHeadSize) (hmax : cfg.pkHeadSize ≤ kMaxPacketSize)
include hhead hmax

theorem feedLoop_account (fuel : ℕ) (rx : PkReceiver) (s : Bytes) (hrx : rx.Sound) :
    (feedLoop cfg fuel rx s).1.account (feedLoop cfg fuel rx s).2.1 = rx.account s ∧
      (feedLoop cfg fuel rx s).1.Sound := by
  induction fuel generalizing rx s with
  | zero => exact ⟨rfl, hrx⟩
  | succ fuel ih =>
    have hturn := turn_turned hhead hmax rx s
    rw [feedLoop]
    cases hs : turn cfg rx s with
    | stop => exact ⟨rfl, hrx⟩
    | next rx' s' =>
      rw [hs] at hturn
      obtain ⟨haccount, hsound⟩ := ih rx' s' (hturn.sound hrx)
      exact ⟨haccount.trans hturn.account, hsound⟩
    | interrupt rx' s' =>
      rw [hs] at hturn
      exact ⟨hturn.account, hturn.sound hrx⟩

/-- More turns than bytes are not needed. -/
theorem feedLoop_fuel {fuel fuel' : ℕ} (rx : PkReceiver) (s : Bytes) (h : s.length < fuel) (h' : s.length < fuel') :
    feedLoop cfg fuel rx s = feedLoop cfg fuel' rx s := by
  induction fuel generalizing fuel' rx s with
  | zero => exact absurd h (Nat.not_lt_zero _)
  | succ fuel ih =>
    cases fuel' with
    | zero => exact absurd h' (Nat.not_lt_zero _)
    | succ fuel' =>
      have hturn := turn_turned hhead hmax rx s
      rw [feedLoop, feedLoop]
      cases hs : turn cfg rx s with
      | stop => rfl
      | next rx' s' =>
        rw [hs] at hturn
        have hlt := hturn.length_lt
        exact ih rx' s' (by omega) (by omega)
      | interrupt rx' s' => rfl

end Receiver

/-- The receiver and the bytes left after all turns. -/
def drain (cfg : Config) (rx : PkReceiver) (s : Bytes) : PkReceiver × Bytes :=
  let r := feedLoop cfg (s.length + 1) rx s
  (r.1, r.2.1)

theorem turn_of_peek (h : DcQueue.peek s cfg.pkHeadSize = none) : turn cfg rx s = .stop := by
  rw [turn, h]

theorem drain_stop (h : turn cfg rx s = .stop) : drain cfg rx s = (rx, s) := by
  rw [drain, feedLoop, h]

section Receiver

variable (hhead : 2 ≤ cfg.pkHeadSize) (hmax : cfg.pkHeadSize ≤ kMaxPacketSize)
include hhead hmax

theorem drain_next (h : turn cfg rx s = .next rx' s') : drain cfg rx s = drain cfg rx' s' := by
  have hturn := turn_turned hhead hmax rx s
  rw [h] at hturn
  have hlt := hturn.length_lt
  rw [drain, feedLoop, h, drain]
  dsimp only
  rw [feedLoop_fuel hhead hmax rx' s' hlt (Nat.lt_succ_self _)]

omit hhead hmax in
theorem turn_ne_interrupt (hon : ∀ pk, cfg.onPkReceived pk = true) (rx : PkReceiver) (s : Bytes) (rx' : PkReceiver) (s' : Bytes) :
    turn cfg rx s ≠ .interrupt rx' s' := by
  rw [turn]
  cases DcQueue.peek s cfg.pkHeadSize with
  | none => exact nofun
  | some head =>
    dsimp only
    split_ifs
    · cases DcQueue.peek s (cfg.getPkSize head) with
      | none => exact nofun
      | some pk =>
        dsimp only
        split_ifs with htail hcks hfalse
        · exact nofun
        · exact absurd (hon pk) hfalse
        · exact nofun
        · exact nofun
    · exact nofun
    · exact nofun

theorem drain_account (rx : PkReceiver) (s : Bytes) (hrx : rx.Sound) :
    (drain cfg rx s).1.account (drain cfg rx s).2 = rx.account s ∧ (drain cfg rx s).1.Sound :=
  feedLoop_account hhead hmax (s.length + 1) rx s hrx

/-- Bytes without a leader may be dropped before the turns or after them. -/
theorem drain_resync (rx : PkReceiver) (s : Bytes) :
    (drain cfg (rx.resync s).1 (rx.resync s).2).1.resync (drain cfg (rx.resync s).1 (rx.resync s).2).2 =
      (drain cfg rx s).1.resync (drain cfg rx s).2 := by
  cases hpeek : DcQueue.peek s cfg.pkHeadSize with
  | none =>
    have hrest : DcQueue.peek (rx.resync s).2 cfg.pkHeadSize = none := by
      cases hr : DcQueue.peek (rx.resync s).2 cfg.pkHeadSize with
      | none => rfl
      | some head =>
        obtain ⟨hle, hne, -⟩ := peek_eq_some hr
        have hsub : (rx.resync s).2.length ≤ s.length := (dropWhile_sublist _).length_le
        have hnone : (if cfg.pkHeadSize ≤ s.length ∧ s ≠ [] then some (s.take cfg.pkHeadSize) else none) = none := hpeek
        have hpos := length_pos_iff.mpr hne
        rw [if_pos ⟨by omega, ne_nil_of_length_pos (by omega)⟩] at hnone
        cases hnone
    rw [drain_stop (turn_of_peek hpeek), drain_stop (turn_of_peek hrest)]
    exact resync_resync rx s
  | some head =>
    obtain ⟨-, hne, hheadEq⟩ := peek_eq_some hpeek
    obtain ⟨c, rest, rfl⟩ := exists_cons_of_ne_nil hne
    by_cases hc : c = kPkHeadLeader
    · have hresync : rx.resync (c :: rest) = (rx, c :: rest) := by
        simp [resync_bytes, hc]
      rw [hresync]
    · have hleader : head.head? ≠ some kPkHeadLeader := by
        rw [hheadEq]
        cases hn : cfg.pkHeadSize with
        | zero => omega
        | succ n => exact fun h => hc (Option.some.inj h)
      have hturn : turn cfg rx (c :: rest) = .next (rx.resync (c :: rest)).1 (rx.resync (c :: rest)).2 := by
        rw [turn, hpeek]
        dsimp only
        rw [if_neg hleader]
      rw [drain_next hhead hmax hturn]

variable (hon : ∀ pk, cfg.onPkReceived pk = true)
include hon

/-- No turn is left to make. -/
theorem turn_drain (rx : PkReceiver) (s : Bytes) : turn cfg (drain cfg rx s).1 (drain cfg rx s).2 = .stop := by
  induction hlen : s.length using Nat.strong_induction_on generalizing rx s with
  | h n ih =>
    cases hs : turn cfg rx s with
    | stop =>
      rw [drain_stop hs]
      exact hs
    | next rx' s' =>
      have hturn := turn_turned hhead hmax rx s
      rw [hs] at hturn
      have hlt := hturn.length_lt
      rw [drain_next hhead hmax hs]
      exact ih s'.length (by omega) rx' s' rfl
    | interrupt rx' s' => exact absurd hs (turn_ne_interrupt hon rx s rx' s')

/-- Fed in two chunks or at once. -/
theorem drain_append (rx : PkReceiver) (s t : Bytes) :
    (drain cfg (drain cfg rx s).1 ((drain cfg rx s).2 ++ t)).1.resync
        (drain cfg (drain cfg rx s).1 ((drain cfg rx s).2 ++ t)).2 =
      (drain cfg rx (s ++ t)).1.resync (drain cfg rx (s ++ t)).2 := by
  induction hlen : s.length using Nat.strong_induction_on generalizing rx s with
  | h n ih =>
    cases hs : turn cfg rx s with
    | stop => rw [drain_stop hs]
    | next rx' s' =>
      have hturn := turn_turned hhead hmax rx s
      rw [hs] at hturn
      have hlt := hturn.length_lt
      obtain ⟨rx'', s'', hst, hresync⟩ := turn_append hs t
      rw [drain_next hhead hmax hs, drain_next hhead hmax hst, ih s'.length (by omega) rx' s' rfl,
        ← drain_resync hhead hmax rx'' s'', hresync, drain_resync hhead hmax]
    | interrupt rx' s' => exact absurd hs (turn_ne_interrupt hon rx s rx' s')

end Receiver

/-- A stream receiver keeps the bytes left. -/
theorem feedBuffer_bytes (hstream : cfg.isDgram = false) (rx : PkReceiver) (s : Bytes) :
    (feedBuffer cfg rx s).1 = (drain cfg rx s).1 ∧ (feedBuffer cfg rx s).2.1 = (drain cfg rx s).2 := by
  have hloop : feedLoop cfg (DcQueue.calcSize s + 1) rx s = feedLoop cfg (s.length + 1) rx s := rfl
  rw [feedBuffer, drain, hloop]
  cases feedLoop cfg (s.length + 1) rx s with
  | mk rx₁ r₁ =>
    obtain ⟨s₁, b₁⟩ := r₁
    cases b₁ with
    | false => exact ⟨rfl, rfl⟩
    | true => simp [hstream]

end PkReceiver

open PkReceiver

variable {cfg : Config}

/-- A stream fed in chunks. -/
def run (cfg : Config) (chunks : List (List Arrival)) : PkReceiver × DcQueueList := chunks.foldl (feed cfg) ({}, {})

section Run

variable (hhead : 2 ≤ cfg.pkHeadSize) (hmax : cfg.pkHeadSize ≤ kMaxPacketSize) (hstream : cfg.isDgram = false)
include hhead hmax hstream

omit hhead hmax in
theorem feed_holds (rx : PkReceiver) {q : DcQueueList} {s : Bytes} (h : DcQueueList.Holds q s) (chunk : List Arrival) :
    (feed cfg (rx, q) chunk).1 = (drain cfg rx (s ++ chunk.flatMap Arrival.bytes)).1 ∧
      DcQueueList.Holds (feed cfg (rx, q) chunk).2 (drain cfg rx (s ++ chunk.flatMap Arrival.bytes)).2 := by
  obtain ⟨hrx, hholds⟩ := feedBuffer_holds cfg rx (arrive_holds h chunk)
  obtain ⟨hdrain, hleft⟩ := feedBuffer_bytes hstream rx (s ++ chunk.flatMap Arrival.bytes)
  rw [hdrain] at hrx
  rw [hleft] at hholds
  exact ⟨hrx, hholds⟩

omit hhead hmax hstream in
theorem append_stream (s : Bytes) (chunk : List Arrival) (chunks : List (List Arrival)) :
    s ++ stream (chunk :: chunks) = s ++ chunk.flatMap Arrival.bytes ++ stream chunks := by
  rw [stream, flatMap_cons, ← append_assoc]
  rfl

/-- A run keeps account of the bytes of the stream. -/
theorem run_account (chunks : List (List Arrival)) {rx : PkReceiver} {q : DcQueueList} {s : Bytes} (hrx : rx.Sound)
    (h : DcQueueList.Holds q s) :
    (chunks.foldl (feed cfg) (rx, q)).1.Sound ∧
      (chunks.foldl (feed cfg) (rx, q)).1.account (chunks.foldl (feed cfg) (rx, q)).2.bytes =
        rx.account (s ++ stream chunks) := by
  induction chunks generalizing rx q s with
  | nil =>
    rw [stream, flatMap_nil, append_nil]
    exact ⟨hrx, congrArg rx.account h.bytes_eq⟩
  | cons chunk chunks ih =>
    obtain ⟨hfed, hholds⟩ := feed_holds hstream rx h chunk
    obtain ⟨haccount, hsound⟩ := drain_account hhead hmax rx (s ++ chunk.flatMap Arrival.bytes) hrx
    rw [← hfed] at hsound
    obtain ⟨hsound', haccount'⟩ := ih hsound hholds
    refine ⟨hsound', haccount'.trans ?_⟩
    rw [account_append, hfed, haccount, ← account_append, append_stream]

/-- A run comes to where the stream fed at once comes to. -/
theorem run_resync (hon : ∀ pk, cfg.onPkReceived pk = true) (chunks : List (List Arrival)) {rx : PkReceiver}
    {q : DcQueueList} {s : Bytes} (h : DcQueueList.Holds q s) (hstop : turn cfg rx s = .stop) :
    (chunks.foldl (feed cfg) (rx, q)).1.resync (chunks.foldl (feed cfg) (rx, q)).2.bytes =
      (drain cfg rx (s ++ stream chunks)).1.resync (drain cfg rx (s ++ stream chunks)).2 := by
  induction chunks generalizing rx q s with
  | nil =>
    rw [stream, flatMap_nil, append_nil, drain_stop hstop]
    exact congrArg rx.resync h.bytes_eq
  | cons chunk chunks ih =>
    obtain ⟨hfed, hholds⟩ := feed_holds hstream rx h chunk
    have hstop' := turn_drain hhead hmax hon rx (s ++ chunk.flatMap Arrival.bytes)
    rw [← hfed] at hstop'
    refine (ih hholds hstop').trans ?_
    rw [hfed, drain_append hhead hmax hon, append_stream]

/-- However a stream is split, its packets are packets and all its bytes are accounted for;
and where `OnPkReceived` never interrupts, the packets and the counts of the packets are
those of any other split, and so is the receiver without the bytes queued before a leader. -/
theorem run_split_independent (chunks chunks' : List (List Arrival)) (hsame : stream chunks = stream chunks') :
    (∀ pk ∈ (run cfg chunks).1.received, Packet pk) ∧
      (run cfg chunks).1.account (run cfg chunks).2.bytes = UInt64.ofNat (stream chunks).length ∧
      ((∀ pk, cfg.onPkReceived pk = true) →
        (run cfg chunks).1.received = (run cfg chunks').1.received ∧
        (run cfg chunks).1.receivedCount = (run cfg chunks').1.receivedCount ∧
        (run cfg chunks).1.chkSumErrCount = (run cfg chunks').1.chkSumErrCount ∧
        (run cfg chunks).1.resync (run cfg chunks).2.bytes =
          (run cfg chunks').1.resync (run cfg chunks').2.bytes) := by
  have hinit : ({} : PkReceiver).Sound := ⟨fun pk hpk => absurd hpk (List.not_mem_nil), rfl, rfl⟩
  obtain ⟨hsound, haccount⟩ := run_account hhead hmax hstream chunks hinit DcQueueList.Holds.empty
  refine ⟨hsound.packets, haccount.trans ?_, fun hon => ?_⟩
  · rw [List.nil_append, account]
    simp
  · have hstop : turn cfg {} [] = .stop := turn_of_peek (if_neg fun h => h.2 rfl)
    have hrun := run_resync hhead hmax hstream hon chunks DcQueueList.Holds.empty hstop
    have hrun' := run_resync hhead hmax hstream hon chunks' DcQueueList.Holds.empty hstop
    rw [← hsame, ← hrun] at hrun'
    have hrx := congrArg Prod.fst hrun'.symm
    have hreceived := congrArg PkReceiver.received hrx
    have hcount := congrArg PkReceiver.receivedCount hrx
    have herr := congrArg PkReceiver.chkSumErrCount hrx
    exact ⟨hreceived, hcount, herr, hrun'.symm⟩

end Run

/-- Packets of five bytes, as their head of two bytes tells. -/
def fiveBytes : Config := { pkHeadSize := 2, getPkSize := fun _ => 5, onPkReceived := fun _ => true }

theorem run_split_independent_fiveBytes :
    (run fiveBytes [[.pushBack [.data [27, 7] 0]], [.append [7, 13, 10, 65] 0]]).1.received =
      (run fiveBytes [[.append [27, 7, 7, 13, 10, 65] 0]]).1.received :=
  ((@run_split_independent fiveBytes (by decide) (by decide) rfl
    [[.pushBack [.data [27, 7] 0]], [.append [7, 13, 10, 65] 0]] [[.append [27, 7, 7, 13, 10, 65] 0]] rfl).2.2
    fun _ => rfl).1

/-- The bytes dropped depend on the split: fewer than the size of a head wait in the queue. -/
theorem droppedBytes_split :
    ¬ ∀ chunks chunks', stream chunks = stream chunks' →
      (run fiveBytes chunks).1.droppedBytes = (run fiveBytes chunks').1.droppedBytes := by
  intro h
  exact absurd (h [[.append [65, 65] 0], [.append [65] 0]] [[.append [65, 65, 65] 0]] rfl) (by decide +kernel)

end Fon9.Pk
