import Fon9.Rts.InfoTime

/-! The packets that `MdRtStream::Save` puts into the storage of a symbol's stream, each with
its position and its kind before it, and what of them there is in a block that is read. -/

namespace Fon9.Rts

open Lib Buffer Bitv List BigEndian

def mdRtsKind_NoInfoTime : MdRtsKind := 0x100

/-- `IsEnumContains` -/
def isEnumContains (a b : MdRtsKind) : Bool := a &&& b == b

/-- A packet on its way to the storage: behind its type its time, where its kind has one. -/
structure MdRtsPk where
  rtsKind : MdRtsKind
  pkType : UInt8
  infoTime : DayTime
  rts : Bytes

/-- The bytes of `MdRtStreamInn_ChkValueType` and `f9sv_MdRtsKind`. -/
def kChkHeaderSize : ℕ := 8

namespace MdRtsPk

variable (pk : MdRtsPk)

def data : Bytes :=
  pk.pkType :: if isEnumContains pk.rtsKind mdRtsKind_NoInfoTime then pk.rts else dayTimeToBitv pk.infoTime ++ pk.rts

/-- The packet with its length, as it is sent when it is recovered. -/
def packed : Bytes := byteArraySizeToBitvT_NoEmpty pk.data.length ++ pk.data

def record (pos : ℕ) : Bytes := BigEndian.bytes 4 (pos % 2 ^ 32) ++ BigEndian.bytes 4 pk.rtsKind.toNat ++ pk.packed

def recordSize : ℕ := kChkHeaderSize + pk.packed.length

theorem length_record (pos : ℕ) : (pk.record pos).length = pk.recordSize := by
  simp only [record, recordSize, kChkHeaderSize, length_append, length_bytes]

theorem data_ne_nil : 0 < pk.data.length := Nat.succ_pos _

theorem lt_recordSize : kChkHeaderSize < pk.recordSize := by
  have := pk.data_ne_nil
  simp only [recordSize, packed, length_append]
  omega

theorem length_data_lt : pk.data.length < pk.recordSize := by
  simp only [recordSize, packed, length_append, kChkHeaderSize]
  omega

end MdRtsPk

structure RtStorage where
  content : Bytes := []
  size : ℕ := 0

def RtStorage.save (storage : RtStorage) (pk : MdRtsPk) : RtStorage where
  content := storage.content ++ pk.record storage.size
  size := storage.size + (pk.record storage.size).length

/-- The records of packets, the first one at a position. -/
def records : ℕ → List MdRtsPk → Bytes
  | _, [] => []
  | pos, pk :: pks => pk.record pos ++ records (pos + pk.recordSize) pks

def recordsSize (pks : List MdRtsPk) : ℕ := (pks.map MdRtsPk.recordSize).sum

@[simp] theorem recordsSize_cons (pk : MdRtsPk) (pks : List MdRtsPk) :
    recordsSize (pk :: pks) = pk.recordSize + recordsSize pks := sum_cons

@[simp] theorem recordsSize_append (pks pks' : List MdRtsPk) :
    recordsSize (pks ++ pks') = recordsSize pks + recordsSize pks' := by
  rw [recordsSize, map_append, sum_append]
  rfl

theorem length_records (pos : ℕ) (pks : List MdRtsPk) : (records pos pks).length = recordsSize pks := by
  induction pks generalizing pos with
  | nil => rfl
  | cons pk pks ih => rw [records, length_append, ih, MdRtsPk.length_record, recordsSize_cons]

theorem records_append (pos : ℕ) (pks pks' : List MdRtsPk) :
    records pos (pks ++ pks') = records pos pks ++ records (pos + recordsSize pks) pks' := by
  induction pks generalizing pos with
  | nil => rfl
  | cons pk pks ih =>
    rw [cons_append, records, records, ih, recordsSize_cons, append_assoc, add_assoc]

/-- What is saved stands in the storage as records. -/
theorem save_records (storage : RtStorage) (pks : List MdRtsPk) :
    pks.foldl RtStorage.save storage =
      ⟨storage.content ++ records storage.size pks, storage.size + recordsSize pks⟩ := by
  induction pks generalizing storage with
  | nil => exact congrArg₂ RtStorage.mk (append_nil _).symm rfl
  | cons pk pks ih =>
    rw [foldl_cons, ih, records, recordsSize_cons, ← append_assoc, ← add_assoc]
    simp only [RtStorage.save, MdRtsPk.length_record]

/-! ### Reading a record back -/

section Read

variable {pk : MdRtsPk} {pks : List MdRtsPk} {pos : ℕ} {rest : Bytes}

/-- The header of a record. -/
def chkValue (dcq : Bytes) : ℕ := BigEndian.value (dcq.take 4)

def chkKind (dcq : Bytes) : MdRtsKind := BitVec.ofNat 32 (BigEndian.value ((dcq.drop 4).take 4))

theorem chkValue_record {s : Bytes} (hs : s <+: pk.record pos) (hlen : kChkHeaderSize < s.length) :
    chkValue s = pos % 2 ^ 32 := by
  have hprefix : BigEndian.bytes 4 (pos % 2 ^ 32) <+: s := by
    apply prefix_of_prefix_length_le _ hs
    · rw [length_bytes]
      unfold kChkHeaderSize at hlen
      omega
    · rw [MdRtsPk.record, append_assoc]
      exact prefix_append _ _
  obtain ⟨s', rfl⟩ := hprefix
  rw [chkValue, take_left' (length_bytes 4 _)]
  exact value_bytes (Nat.mod_lt _ (by decide))

theorem chkValue_append : chkValue (pk.record pos ++ rest) = pos % 2 ^ 32 := by
  rw [chkValue, MdRtsPk.record, append_assoc, append_assoc, take_left' (length_bytes 4 _)]
  exact value_bytes (Nat.mod_lt _ (by decide))

theorem chkKind_append : chkKind (pk.record pos ++ rest) = pk.rtsKind := by
  rw [chkKind, MdRtsPk.record, append_assoc, append_assoc,
    drop_left' (length_bytes 4 _), take_left' (length_bytes 4 _),
    value_bytes pk.rtsKind.isLt, BitVec.ofNat_toNat, BitVec.setWidth_eq]

theorem drop_header_append : (pk.record pos ++ rest).drop kChkHeaderSize = pk.packed ++ rest := by
  rw [MdRtsPk.record, append_assoc]
  apply drop_left'
  rw [length_append, length_bytes, length_bytes]
  rfl

theorem popSize_packed (h : pk.recordSize ≤ kBitvMaxByteArraySize) :
    popBitvByteArraySize (pk.packed ++ rest) = .ok (some (pk.data.length, pk.data ++ rest)) := by
  have hmax : pk.data.length ≤ kBitvMaxByteArraySize := by
    have := pk.length_data_lt
    omega
  obtain ⟨q', hpop, hholds⟩ := @popSize_reads Bytes _ (pk.packed ++ rest) rest pk.data pk.data_ne_nil hmax rfl
  rw [hpop, show q' = pk.data ++ rest from hholds]

/-- Where a record is cut off behind its header, there is nothing to be read yet. -/
theorem popSize_cut {m : ℕ} (h : pk.recordSize ≤ kBitvMaxByteArraySize) (hm : m < pk.recordSize) :
    popBitvByteArraySize (((pk.record pos).take m).drop kChkHeaderSize) = .ok none := by
  have hmax : pk.data.length ≤ kBitvMaxByteArraySize := by
    have := pk.length_data_lt
    omega
  have hdrop : ((pk.record pos).take m).drop kChkHeaderSize = pk.packed.take (m - kChkHeaderSize) := by
    have hpacked := @drop_header_append pk pos []
    rw [append_nil, append_nil] at hpacked
    rw [drop_take, hpacked]
  rw [hdrop]
  refine popSize_waits pk.data_ne_nil hmax (List.take_prefix _ _) ?_ rfl
  intro heq
  have hlen : (pk.packed.take (m - kChkHeaderSize)).length = pk.packed.length := congrArg length heq
  rw [length_take] at hlen
  have := pk.lt_recordSize
  unfold MdRtsPk.recordSize at hm this
  omega

end Read

end Fon9.Rts
