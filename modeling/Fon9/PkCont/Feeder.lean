import Fon9.Lib.Numeral
import Fon9.Lib.SortedInsert

/-! The packet continuity feeder `PkContFeeder`. Packets of several sources carry
one sequence number; those behind the expected number are dropped, those ahead of
it wait in a vector sorted by key until the gap fills or the timer gives up. A
number that has wrapped past `maxSeqNo` waits under the key `seq + maxSeqNo + 1`.
The virtual calls to the derived class and the timer are recorded in a log. -/

namespace Fon9.PkCont

open Lib

/-- The constants of a feeder and its wait interval. -/
structure Config where
  maxSeqNo : ℕ
  firstSeqNoAfterOverflow : ℕ
  waitInterval : ℤ := 5000

/-- A pending packet: its content and its key. -/
structure PkRec (Pk : Type*) where
  pk : Pk
  seq : ℕ
  deriving DecidableEq

/-- A call to `PkContOnReceived`, with `NextSeq_` before and after it. -/
structure Received (Pk : Type*) where
  pk : Pk
  seq : ℕ
  expected : ℕ
  next : ℕ
  deriving DecidableEq

inductive Event (Pk : Type*)
  | received (r : Received Pk)
  | dropped (pk : Pk) (seq : ℕ)
  | runAfter
  deriving DecidableEq

structure PkContFeeder (Pk : Type*) where
  nextSeq : ℕ := 0
  receivedCount : ℕ := 0
  droppedCount : ℕ := 0
  lostCount : ℕ := 0
  pkPendings : List (PkRec Pk) := []
  log : List (Event Pk) := []
  deriving DecidableEq

variable {Pk : Type*} (cfg : Config)

namespace PkContFeeder

/-- `NextSeq_` after a packet that leaves `AfterNextSeq_` alone. -/
def afterReceived (seq : ℕ) : ℕ :=
  let afterNextSeq := u64 (seq + 1)
  if afterNextSeq ≤ cfg.maxSeqNo then afterNextSeq
  else
    let next := afterNextSeq - cfg.maxSeqNo
    if next = 1 then cfg.firstSeqNoAfterOverflow else next

variable (s : PkContFeeder Pk) (pk : Pk) (seq : ℕ)

def callOnReceived : PkContFeeder Pk :=
  let next := afterReceived cfg seq
  { s with
    nextSeq := next
    receivedCount := u64 (s.receivedCount + 1)
    log := s.log ++ [.received ⟨pk, seq, s.nextSeq, next⟩] }

/-- The sequence number of a pending key. -/
def adjustSeq (key : ℕ) : ℕ :=
  if key > cfg.maxSeqNo then key - u64 (cfg.maxSeqNo + 1) else key

/-- The drain loop of `FeedPacket`: hand over the pending packets from the front
while they continue the sequence. -/
def drain : PkContFeeder Pk → List (PkRec Pk) → PkContFeeder Pk
  | s, [] => { s with pkPendings := [] }
  | s, i :: rest =>
    let iSeq := adjustSeq cfg i.seq
    if iSeq ≠ s.nextSeq then { s with pkPendings := i :: rest }
    else drain (callOnReceived cfg s i.pk iSeq) rest

/-- Label `__PK_RECEIVED` of `FeedPacket`. -/
def pkReceived : PkContFeeder Pk :=
  drain cfg (callOnReceived cfg s pk seq) s.pkPendings

/-- Label `__DROP_PK` of `FeedPacket`. -/
def dropPk : PkContFeeder Pk :=
  { s with droppedCount := u64 (s.droppedCount + 1), log := s.log ++ [.dropped pk seq] }

/-- Keep a packet under `key`; the first one kept starts the timer. -/
def insertPending (key : ℕ) : PkContFeeder Pk :=
  let ires := sortedInsert PkRec.seq ⟨pk, key⟩ s.pkPendings
  if ires.2 = false then s
  else
    { s with
      pkPendings := ires.1
      log := if s.pkPendings.isEmpty then s.log ++ [.runAfter] else s.log }

def kMaxGapAllow : ℕ := cfg.maxSeqNo / 2

def feedPacket : PkContFeeder Pk :=
  if seq = s.nextSeq then pkReceived cfg s pk seq
  else if seq < s.nextSeq then
    if u64sub (u64 (seq + cfg.maxSeqNo)) s.nextSeq < kMaxGapAllow cfg then
      insertPending s pk (u64 (seq + u64 (cfg.maxSeqNo + 1)))
    else dropPk s pk seq
  else if s.nextSeq = 0 ∧ s.receivedCount = 0 then pkReceived cfg s pk seq
  else if seq - s.nextSeq > kMaxGapAllow cfg then dropPk s pk seq
  else if cfg.waitInterval = 0 then pkReceived cfg s pk seq
  else insertPending s pk seq

/-- What a packet can do: it is delivered, dropped, or kept under one of two keys. -/
theorem feedPacket_cases :
    (s.feedPacket cfg pk seq = s.pkReceived cfg pk seq ∧
      (seq = s.nextSeq ∨ s.nextSeq < seq ∧ (s.nextSeq = 0 ∧ s.receivedCount = 0 ∨
        seq - s.nextSeq ≤ kMaxGapAllow cfg ∧ cfg.waitInterval = 0))) ∨
    (s.feedPacket cfg pk seq = s.dropPk pk seq ∧
      (seq < s.nextSeq ∧ kMaxGapAllow cfg ≤ u64sub (u64 (seq + cfg.maxSeqNo)) s.nextSeq ∨
        s.nextSeq < seq ∧ kMaxGapAllow cfg < seq - s.nextSeq)) ∨
    (s.feedPacket cfg pk seq = s.insertPending pk (u64 (seq + u64 (cfg.maxSeqNo + 1))) ∧
      seq < s.nextSeq ∧ u64sub (u64 (seq + cfg.maxSeqNo)) s.nextSeq < kMaxGapAllow cfg) ∨
    (s.feedPacket cfg pk seq = s.insertPending pk seq ∧ s.nextSeq < seq ∧
      seq - s.nextSeq ≤ kMaxGapAllow cfg ∧ cfg.waitInterval ≠ 0) := by
  rcases lt_trichotomy seq s.nextSeq with h | h | h
  · by_cases hw : u64sub (u64 (seq + cfg.maxSeqNo)) s.nextSeq < kMaxGapAllow cfg
    · exact .inr (.inr (.inl ⟨by rw [feedPacket, if_neg h.ne, if_pos h, if_pos hw], h, hw⟩))
    · exact .inr (.inl ⟨by rw [feedPacket, if_neg h.ne, if_pos h, if_neg hw], .inl ⟨h, not_lt.mp hw⟩⟩)
  · exact .inl ⟨by rw [feedPacket, if_pos h], .inl h⟩
  · have hdown : s.feedPacket cfg pk seq =
        if s.nextSeq = 0 ∧ s.receivedCount = 0 then s.pkReceived cfg pk seq
        else if seq - s.nextSeq > kMaxGapAllow cfg then s.dropPk pk seq
        else if cfg.waitInterval = 0 then s.pkReceived cfg pk seq
        else s.insertPending pk seq := by
      rw [feedPacket, if_neg h.ne', if_neg (not_lt.mpr h.le)]
    rw [hdown]
    split_ifs with h1 h2 h3
    · exact .inl ⟨rfl, .inr ⟨h, .inl h1⟩⟩
    · exact .inr (.inl ⟨rfl, .inr ⟨h, h2⟩⟩)
    · exact .inl ⟨rfl, .inr ⟨h, .inr ⟨not_lt.mp h2, h3⟩⟩⟩
    · exact .inr (.inr (.inr ⟨rfl, h, not_lt.mp h2, h3⟩))

/-- The flush loop of `PkContOnTimer`. -/
def flush (pks : List (PkRec Pk)) : PkContFeeder Pk :=
  pks.foldl (fun s i => callOnReceived cfg
    { s with lostCount := u64 (s.lostCount + u64sub i.seq s.nextSeq) } i.pk i.seq) s

def pkContOnTimer : PkContFeeder Pk :=
  { flush cfg s s.pkPendings with pkPendings := [] }

def clear : PkContFeeder Pk := { log := s.log }

end PkContFeeder

/-- What can happen to a feeder: a packet arrives or the timer fires. -/
inductive Op (Pk : Type*)
  | feedPacket (pk : Pk) (seq : ℕ)
  | onTimer
  deriving DecidableEq

variable (s : PkContFeeder Pk)

def step : Op Pk → PkContFeeder Pk
  | .feedPacket pk seq => s.feedPacket cfg pk seq
  | .onTimer => s.pkContOnTimer cfg

def run (ops : List (Op Pk)) : PkContFeeder Pk := ops.foldl (step cfg) s

@[simp] theorem run_nil : run cfg s [] = s := rfl

@[simp] theorem run_cons (op : Op Pk) (ops : List (Op Pk)) :
    run cfg s (op :: ops) = run cfg (step cfg s op) ops := rfl

/-- The packets handed to the derived class so far. -/
def PkContFeeder.received : List (Received Pk) :=
  s.log.filterMap fun | .received r => some r | _ => none

theorem PkContFeeder.received_dropPk (pk : Pk) (seq : ℕ) : (s.dropPk pk seq).received = s.received := by
  show (s.log ++ [_]).filterMap _ = _
  rw [List.filterMap_append]
  exact List.append_nil _

theorem PkContFeeder.received_insertPending (pk : Pk) (key : ℕ) :
    (s.insertPending pk key).received = s.received := by
  rw [PkContFeeder.insertPending]
  split_ifs
  · rfl
  · show (s.log ++ [_]).filterMap _ = _
    rw [List.filterMap_append]
    exact List.append_nil _
  · rfl

end Fon9.PkCont
