import Fon9.Bitv.Scalar
import Fon9.Inn.Dbf
import Fon9.Inn.Rooms

/-! What an InnDbf writes to its rooms, and what a turn of `LoadAll` or of `LoadTable` finds
there. -/

namespace Fon9.Inn

open Lib Bitv Buffer InnDbf List IntType BigEndian

variable {f : InnFile} {rooms : List Room} {r : Room}

/-- A row of the table, as it is written. -/
structure RowOf (tableId : ℕ) (syncKey : RoomSyncKey) (payload : Bytes) (r : Room) : Prop where
  type : ∃ t : InnDbfRoomType, r.key.currentRoomType = t.toInnRoomType
  data : r.data = rowData tableId syncKey payload
  id_pos : 0 < tableId
  id_lt : tableId < 2 ^ 32

/-- A room of the ExHeader, with the position of the next one. -/
structure ExHeaderOf (next : ℕ) (r : Room) : Prop where
  type : r.key.currentRoomType = kInnRoomType_ExFileHeader
  data : ∃ rest, r.data = BigEndian.bytes 8 next ++ rest
  next_lt : next < 2 ^ 63

structure Freed (r : Room) : Prop where
  type : r.key.currentRoomType = kInnRoomType_Free
  data : r.data = []

/-- A room as an InnDbf leaves it. -/
def Kept (r : Room) : Prop :=
  Freed r ∨ (∃ next, ExHeaderOf next r) ∨ ∃ tableId syncKey payload, RowOf tableId syncKey payload r

/-- What the rooms of the file hold. -/
structure Content (f : InnFile) (rooms : List Room) : Prop where
  stores : Stores f rooms
  whole : Whole f
  each : ∀ r ∈ rooms, Kept r
  next : ∀ r ∈ rooms, ∀ next, ExHeaderOf next r → next ≠ 0 →
    ∃ r' ∈ rooms, r'.key.roomPos = next ∧ r'.key.currentRoomType = kInnRoomType_ExFileHeader
  first : ∃ r ∈ rooms, r.key.roomPos = f.headerSize ∧ r.key.currentRoomType = kInnRoomType_ExFileHeader

theorem toInnRoomType_ne (t : InnDbfRoomType) :
    t.toInnRoomType ≠ kInnRoomType_Free ∧ t.toInnRoomType ≠ kInnRoomType_ExFileHeader := by
  cases t <;> decide

theorem toInnRoomType_cases (t : InnDbfRoomType) :
    t.toInnRoomType = InnDbfRoomType.RowData.toInnRoomType ∨
      t.toInnRoomType = InnDbfRoomType.RowDeleted.toInnRoomType := by
  cases t with
  | RowData => exact .inl rfl
  | RowDeleted => exact .inr rfl

/-! ### The id of a table -/

theorem uint32_reads {n : ℕ} (hn : n < 2 ^ 32) (rest : Bytes) :
    ∃ v : uint32.Val, v.1.toNat = n ∧
      bitvToInt .uint32 ((intToBitv .uint32 n).text ++ rest) (uint32.cast 0) = .ok (v, rest) := by
  have hmem : uint32.min ≤ (n : ℤ) ∧ (n : ℤ) ≤ uint32.max := by
    simp only [IntType.min, IntType.max, isSigned, IntType.size]
    norm_num
    omega
  obtain ⟨q', hread, hrest⟩ := int_reads (Q := Bytes) ⟨(n : ℤ), hmem⟩ (uint32.cast 0) _ rest rfl
  have hrest' : q' = rest := hrest
  subst hrest'
  exact ⟨_, Int.toNat_natCast n, hread⟩

theorem uint32_length {n : ℕ} (hn : n < 2 ^ 32) :
    0 < (intToBitv .uint32 n).text.length ∧ (intToBitv .uint32 n).text.length ≤ 5 := by
  unfold intToBitv
  by_cases hzero : (n : ℤ) = 0
  · rw [if_pos hzero]
    exact ⟨Nat.one_pos, by decide⟩
  · rw [if_neg hzero, if_pos (by omega)]
    obtain ⟨-, -, hle⟩ := @packBigEndianRev_spec 4 ((n : ℤ)).toNat (by decide) (show ((n : ℤ)).toNat < 256 ^ 4 by
      rw [Int.toNat_natCast]
      exact hn)
    exact ⟨Nat.succ_pos _, Nat.succ_le_succ hle⟩

/-- A byte that is no Bitv integer. -/
theorem bitvToInt_low {first : UInt8} (hlow : first.toNat < 128) (rest : Bytes) :
    bitvToInt .uint32 (first :: rest) (uint32.cast 0) =
      .error (.typeNotMatch "BitvToInt: type not match") := by
  have hall : ∀ n : Fin 128, let b := UInt8.ofNat n
      b &&& bitvT_Mask ≠ bitvT_IntegerPos ∧ b &&& bitvT_Mask ≠ bitvT_IntegerNeg ∧
        b ≠ bitvV_Number0 ∧ b ≠ bitvV_NumberNull := by decide
  obtain ⟨hpos, hneg, hzero, hnull⟩ := hall ⟨first.toNat, hlow⟩
  rw [show UInt8.ofNat (Fin.val ⟨first.toNat, hlow⟩) = first from UInt8.ofNat_toNat] at hpos hneg hzero hnull
  have hpeek : peek1 (first :: rest : Bytes) = some first := peek1_cons (Q := Bytes) rfl
  unfold bitvToInt bitvToIntAux
  rw [hpeek]
  simp only [if_neg hpos, if_neg hneg, if_neg hzero, if_neg hnull]

/-- The first byte of a position. -/
theorem bytes_low {n : ℕ} (hn : n < 2 ^ 63) :
    ∃ first rest, BigEndian.bytes 8 n = first :: rest ∧ first.toNat < 128 := by
  have hvalue := @BigEndian.value_bytes 8 n (lt_trans hn (by decide))
  have hlen := length_bytes 8 n
  cases hbytes : BigEndian.bytes 8 n with
  | nil =>
    rw [hbytes] at hlen
    cases hlen
  | cons first rest =>
    refine ⟨first, rest, rfl, ?_⟩
    rw [hbytes, length_cons] at hlen
    have hrest : rest.length = 7 := Nat.succ_injective hlen
    have hsplit := value_append [first] rest
    rw [hrest, singleton_append, ← hbytes, hvalue] at hsplit
    have hfirst : BigEndian.value [first] = first.toNat := Nat.zero_add _
    rw [hfirst] at hsplit
    norm_num at hsplit hn
    omega

theorem rowData_eq (tableId : ℕ) (syncKey : RoomSyncKey) (payload : Bytes) :
    rowData tableId syncKey payload =
      (intToBitv .uint32 tableId).text ++ (syncKey.toBitv ++ payload) := append_assoc _ _ _

/-! ### The turns -/

theorem Stores.stored_header (h : Stores f rooms) (hr : r ∈ rooms) :
    r.key.roomPos + kRoomHeaderSize + 0 ≤ f.storage.size := by
  have hlies := h.lies hr
  have hnext := hlies.next_le
  have hstored := hlies.stored
  omega

theorem Stores.roomPos_ne (h : Stores f rooms) (hr : r ∈ rooms) : r.key.roomPos ≠ 0 :=
  ne_of_gt (h.lies hr).roomPos_pos

section All

variable (h : Stores f rooms) (hr : r ∈ rooms)
include h hr

theorem loadAllTurn_free (hfreed : Freed r) :
    loadAllTurn f r.key.roomPos = .ok (.free r.key r.key.nextRoomPos) := by
  have hrow : ¬ (r.key.currentRoomType = InnDbfRoomType.RowData.toInnRoomType ∨
      r.key.currentRoomType = InnDbfRoomType.RowDeleted.toInnRoomType) := by
    rw [hfreed.type]
    decide
  unfold loadAllTurn
  rw [(h.lies hr).makeRoomKey (by decide) (h.stored_header hr)]
  simp only [liftInn, Except.mapError, bind, Except.bind, if_neg (h.roomPos_ne hr), if_neg hrow,
    if_pos hfreed.type, pure, Except.pure]

theorem loadAllTurn_exHeader {next : ℕ} (hex : ExHeaderOf next r) :
    loadAllTurn f r.key.roomPos = .ok (.skip r.key.nextRoomPos) := by
  have hrow : ¬ (r.key.currentRoomType = InnDbfRoomType.RowData.toInnRoomType ∨
      r.key.currentRoomType = InnDbfRoomType.RowDeleted.toInnRoomType) := by
    rw [hex.type]
    decide
  have hfree : r.key.currentRoomType ≠ kInnRoomType_Free := by
    rw [hex.type]
    decide
  unfold loadAllTurn
  rw [(h.lies hr).makeRoomKey (by decide) (h.stored_header hr)]
  simp only [liftInn, Except.mapError, bind, Except.bind, if_neg (h.roomPos_ne hr), if_neg hrow,
    if_neg hfree, pure, Except.pure]

theorem loadAllTurn_row {tableId : ℕ} {syncKey : RoomSyncKey} {payload : Bytes}
    (hrow : RowOf tableId syncKey payload r) :
    loadAllTurn f r.key.roomPos = .ok (.row tableId r.key (syncKey.toBitv ++ payload) r.key.nextRoomPos) := by
  obtain ⟨t, ht⟩ := hrow.type
  have htype : r.key.currentRoomType = InnDbfRoomType.RowData.toInnRoomType ∨
      r.key.currentRoomType = InnDbfRoomType.RowDeleted.toInnRoomType := by
    rw [ht]
    exact toInnRoomType_cases t
  obtain ⟨v, hv, hread⟩ := uint32_reads hrow.id_lt (syncKey.toBitv ++ payload)
  unfold loadAllTurn
  rw [(h.lies hr).makeRoomKey (by decide) (h.stored_header hr)]
  simp only [liftInn, liftBitv, Except.mapError, bind, Except.bind, if_neg (h.roomPos_ne hr), if_pos htype,
    h.readAll hr, hrow.data, rowData_eq, hread, hv, pure, Except.pure]

end All

theorem loadAllTurn_end (h : Stores f rooms) : loadAllTurn f f.fileSize = .ok .done := by
  unfold loadAllTurn
  rw [h.makeRoomKey_end]
  rfl

section Table

variable (h : Stores f rooms) (hr : r ∈ rooms)
include h hr

/-- The bytes behind the header of the room are there. -/
theorem loadTableTurn_ok {tableId : ℕ} {turn : LoadTurn} (hok : loadTableTurn f tableId r.key.roomPos = .ok turn) :
    r.key.roomPos + kRoomHeaderSize + kDcMemBufSize ≤ f.storage.size := by
  unfold loadTableTurn at hok
  cases hmake : f.makeRoomKey r.key.roomPos kDcMemBufSize with
  | error e =>
    rw [hmake] at hok
    cases hok
  | ok found => exact ((h.lies hr).makeRoomKey_ok (by decide) hmake).2.2

variable (hin : r.key.roomPos + kRoomHeaderSize + kDcMemBufSize ≤ f.storage.size)
include hin

theorem loadTableTurn_short (tableId : ℕ) (hshort : r.key.dataSize ≤ kDcMemBufSize) :
    loadTableTurn f tableId r.key.roomPos = .ok (.skip r.key.nextRoomPos) := by
  unfold loadTableTurn
  rw [(h.lies hr).makeRoomKey (by decide) hin]
  simp only [liftInn, Except.mapError, bind, Except.bind, if_neg (h.roomPos_ne hr), if_pos hshort, pure,
    Except.pure]

omit hin in
/-- The bytes are those of the data. -/
theorem read_dcMemBuf (hlong : kDcMemBufSize < r.key.dataSize) :
    f.storage.read (r.key.roomPos + kRoomHeaderSize) kDcMemBufSize = r.data.take kDcMemBufSize := by
  have hlies := h.lies hr
  have hdata := hlies.disk.data_le
  have hnext := hlies.next_le
  have hstored := hlies.stored
  have hpart := @ByteFile.read_part f.storage (r.key.roomPos + kRoomHeaderSize) r.key.dataSize 0 kDcMemBufSize
    (by omega) (by omega)
  rwa [h.data r hr] at hpart

/-- The position of the next room is no id of a table. -/
theorem loadTableTurn_exHeader (tableId : ℕ) {next : ℕ} (hex : ExHeaderOf next r) :
    loadTableTurn f tableId r.key.roomPos = .error (.bitv (.typeNotMatch "BitvToInt: type not match")) := by
  obtain ⟨rest, hdata⟩ := hex.data
  obtain ⟨first, back, hbytes, hlow⟩ := bytes_low hex.next_lt
  have hlen := h.data_length hr
  have hback := congrArg length hbytes
  rw [length_bytes, length_cons] at hback
  rw [hdata, length_append, length_bytes] at hlen
  have hlong : ¬ r.key.dataSize ≤ kDcMemBufSize := by
    unfold kDcMemBufSize
    omega
  have htake : r.data.take kDcMemBufSize = first :: (back ++ rest).take 5 := by
    rw [hdata, hbytes]
    rfl
  unfold loadTableTurn
  rw [(h.lies hr).makeRoomKey (by decide) hin, read_dcMemBuf h hr (not_le.mp hlong), htake]
  simp only [liftInn, liftBitv, Except.mapError, bind, Except.bind, if_neg (h.roomPos_ne hr), if_neg hlong,
    bitvToInt_low hlow]

theorem loadTableTurn_row {id : ℕ} {syncKey : RoomSyncKey} {payload : Bytes} (tableId : ℕ)
    (hrow : RowOf id syncKey payload r) (hlong : kDcMemBufSize < r.key.dataSize) :
    loadTableTurn f tableId r.key.roomPos =
      .ok (if id = tableId then .row tableId r.key (syncKey.toBitv ++ payload) r.key.nextRoomPos
        else .skip r.key.nextRoomPos) := by
  have hlen := h.data_length hr
  have hlt := (h.lies hr).disk.data_lt
  obtain ⟨hpos, hle⟩ := uint32_length hrow.id_lt
  rw [hrow.data, rowData_eq, length_append] at hlen
  have h6 : kDcMemBufSize = 6 := rfl
  have htake : r.data.take kDcMemBufSize = (intToBitv .uint32 id).text ++
      (syncKey.toBitv ++ payload).take (kDcMemBufSize - (intToBitv .uint32 id).text.length) := by
    rw [hrow.data, rowData_eq, take_append, take_of_length_le (by omega)]
  -- what the id took of the six bytes is where the rest of the data begins
  have hused : (r.data.take kDcMemBufSize).length -
      ((syncKey.toBitv ++ payload).take (kDcMemBufSize - (intToBitv .uint32 id).text.length)).length =
        (intToBitv .uint32 id).text.length := by
    rw [htake, length_append, Nat.add_sub_cancel]
  have hrest : (r.data.drop (intToBitv .uint32 id).text.length).take
      (r.key.dataSize - (intToBitv .uint32 id).text.length) = syncKey.toBitv ++ payload := by
    rw [hrow.data, rowData_eq, drop_left, take_of_length_le (by omega)]
  obtain ⟨v, hv, hread⟩ := uint32_reads hrow.id_lt
    ((syncKey.toBitv ++ payload).take (kDcMemBufSize - (intToBitv .uint32 id).text.length))
  rw [← htake] at hread
  unfold loadTableTurn
  rw [(h.lies hr).makeRoomKey (by decide) hin, read_dcMemBuf h hr hlong]
  simp only [liftInn, liftBitv, Except.mapError, bind, Except.bind, if_neg (h.roomPos_ne hr),
    if_neg (not_le.mpr hlong), hread, hv, hused]
  by_cases hid : id = tableId
  · rw [if_neg (not_not_intro hid), if_pos hid, h.read hr (by omega), hrest]
    rfl
  · rw [if_pos hid, if_neg hid]
    rfl

end Table

theorem loadTableTurn_end (h : Stores f rooms) (tableId : ℕ) : loadTableTurn f tableId f.fileSize = .ok .done := by
  unfold loadTableTurn
  rw [h.makeRoomKey_end]
  rfl

end Fon9.Inn
