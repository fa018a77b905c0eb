import Fon9.PkCont.Feeder

/-! A feeder with the data of its derived class, which `PkContOnReceived` changes, as it may
change `AfterNextSeq_`. -/

namespace Fon9.PkCont

open Lib

/-- `PkContOnReceived` of a derived class: its data afterwards, and `AfterNextSeq_`. -/
abbrev OnReceived (D Pk : Type*) := D → PkContFeeder Pk → Pk → ℕ → D × ℕ

namespace Derived

variable {D Pk : Type*} (on : OnReceived D Pk) (cfg : Config)

/-- `NextSeq_` at the end of `CallOnReceived`. -/
def nextSeqOf (afterNextSeq : ℕ) : ℕ :=
  if afterNextSeq ≤ cfg.maxSeqNo then afterNextSeq
  else
    let next := afterNextSeq - cfg.maxSeqNo
    if next = 1 then cfg.firstSeqNoAfterOverflow else next

variable (s : D × PkContFeeder Pk)

def callOnReceived (pk : Pk) (seq : ℕ) : D × PkContFeeder Pk :=
  let r := on s.1 s.2 pk seq
  let next := nextSeqOf cfg r.2
  (r.1, { s.2 with
    nextSeq := next
    receivedCount := u64 (s.2.receivedCount + 1)
    log := s.2.log ++ [.received ⟨pk, seq, s.2.nextSeq, next⟩] })

def drain : D × PkContFeeder Pk → List (PkRec Pk) → D × PkContFeeder Pk
  | s, [] => (s.1, { s.2 with pkPendings := [] })
  | s, i :: rest =>
    let iSeq := PkContFeeder.adjustSeq cfg i.seq
    if iSeq ≠ s.2.nextSeq then (s.1, { s.2 with pkPendings := i :: rest })
    else drain (callOnReceived on cfg s i.pk iSeq) rest

def pkReceived (pk : Pk) (seq : ℕ) : D × PkContFeeder Pk :=
  drain on cfg (callOnReceived on cfg s pk seq) s.2.pkPendings

def feedPacket (pk : Pk) (seq : ℕ) : D × PkContFeeder Pk :=
  if seq = s.2.nextSeq then pkReceived on cfg s pk seq
  else if seq < s.2.nextSeq then
    if u64sub (u64 (seq + cfg.maxSeqNo)) s.2.nextSeq < PkContFeeder.kMaxGapAllow cfg then
      (s.1, s.2.insertPending pk (u64 (seq + u64 (cfg.maxSeqNo + 1))))
    else (s.1, s.2.dropPk pk seq)
  else if s.2.nextSeq = 0 ∧ s.2.receivedCount = 0 then pkReceived on cfg s pk seq
  else if seq - s.2.nextSeq > PkContFeeder.kMaxGapAllow cfg then (s.1, s.2.dropPk pk seq)
  else if cfg.waitInterval = 0 then pkReceived on cfg s pk seq
  else (s.1, s.2.insertPending pk seq)

def flush (pks : List (PkRec Pk)) : D × PkContFeeder Pk :=
  pks.foldl (fun s i => callOnReceived on cfg
    (s.1, { s.2 with lostCount := u64 (s.2.lostCount + u64sub i.seq s.2.nextSeq) }) i.pk i.seq) s

def pkContOnTimer : D × PkContFeeder Pk :=
  let r := flush on cfg s s.2.pkPendings
  (r.1, { r.2 with pkPendings := [] })

end Derived

end Fon9.PkCont
