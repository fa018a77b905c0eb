import Fon9.Inn.Layout

/-! The range that `Read` takes of a room. The end of the range is computed as a 32-bit word: what
is asked for behind the data is left out, but for a range whose end wraps. -/

namespace Fon9.Inn

open Lib List ByteFile

variable {f : InnFile} {key : RoomKey} {offset size : UInt32}

namespace InnFile

/-- `CheckReadArgs`: where to read, zero for nothing, and how many bytes. -/
def checkReadArgs (f : InnFile) (key : RoomKey) (offset size : ℕ) : Except InnError (ℕ × ℕ) := do
  f.checkRoomPos key.roomPos "InnFile.Read: bad roomPos."
  if key.dataSize ≤ offset ∨ size = 0 then
    return (0, size)
  let size := if u32 (offset + size) > key.dataSize then key.dataSize - offset else size
  return (key.roomPos + kRoomHeaderSize + offset, size)

/-- A read of the storage that must give all bytes. -/
def readStorage (f : InnFile) (pos size : ℕ) : Except InnError (List UInt8) :=
  let data := f.storage.read pos size
  if data.length ≠ size then .error (.file "InnFile.Read: read error size.") else .ok data

end InnFile

/-- A node of a `BufferList`: data with the space behind them, or a control node. -/
inductive BufferNode where
  | data (bytes : List UInt8) (remain : ℕ)
  | control

/-- The data of a list of nodes. -/
def nodesData : List BufferNode → List UInt8
  | [] => []
  | .data bytes _ :: nodes => bytes ++ nodesData nodes
  | .control :: nodes => nodesData nodes

/-- The last node, if it is one with data and with space for more. -/
def spaceAtBack (buf : List BufferNode) (size : ℕ) : Option (List UInt8 × ℕ) :=
  match buf.getLast? with
  | some (.data bytes remain) => if size ≤ remain then some (bytes, remain) else none
  | _ => none

namespace InnFile

/-- `Read` to the back of a `BufferList`, with the number of bytes; a new node has `spare` bytes
more than it is asked for. -/
def readList (f : InnFile) (spare : ℕ → ℕ) (key : RoomKey) (offset size : ℕ) (buf : List BufferNode) :
    Except InnError (ℕ × List BufferNode) := do
  let (pos, size) ← f.checkReadArgs key offset size
  if pos = 0 then
    return (0, buf)
  let data ← f.readStorage pos size
  match spaceAtBack buf size with
  | some (bytes, remain) => return (size, buf.dropLast ++ [.data (bytes ++ data) (remain - size)])
  | none => return (size, buf ++ [.data data (spare size)])

/-- `ReadAll` into memory of `bufsz` bytes. -/
def readAllTo (f : InnFile) (key : RoomKey) (bufsz : ℕ) : Except InnError (List UInt8) :=
  if key.dataSize ≤ bufsz then f.read key 0 key.dataSize
  else .error (.file "InnFile.ReadAll: buffer too small.")

end InnFile

/-- A key of the file: its data are in the file. -/
structure KeyOf (f : InnFile) (key : RoomKey) : Prop where
  block_pos : 0 < f.blockSize
  good : f.isGoodRoomPos key.roomPos = true
  data_lt : key.dataSize < 2 ^ 32
  stored : key.roomPos + kRoomHeaderSize + key.dataSize ≤ f.storage.size

/-- The data of a room. -/
def InnFile.roomData (f : InnFile) (key : RoomKey) : List UInt8 :=
  f.storage.read (key.roomPos + kRoomHeaderSize) key.dataSize

/-- `Read` gives the data that are in the range, to memory and to a list of nodes. -/
def ReadsRange (f : InnFile) (spare : ℕ → ℕ) (key : RoomKey) (offset size : UInt32) (buf : List BufferNode) : Prop :=
  let range := ((f.roomData key).drop offset.toNat).take size.toNat
  f.read key offset.toNat size.toNat = .ok range ∧
    ∃ nodes, f.readList spare key offset.toNat size.toNat buf = .ok (range.length, nodes) ∧
      nodesData nodes = nodesData buf ++ range

theorem nodesData_append (nodes nodes' : List BufferNode) : nodesData (nodes ++ nodes') = nodesData nodes ++ nodesData nodes' := by
  induction nodes with
  | nil => rfl
  | cons node nodes ih => cases node <;> simp [nodesData, ih]

theorem nodesData_back {buf : List BufferNode} {bytes : List UInt8} {size remain : ℕ}
    (h : spaceAtBack buf size = some (bytes, remain)) : nodesData buf.dropLast ++ bytes = nodesData buf := by
  unfold spaceAtBack at h
  split at h
  · next bytes' remain' hlast =>
    split at h
    · cases h
      have hsplit := List.dropLast_append_getLast? _ (Option.mem_def.mpr hlast)
      rw [← hsplit, nodesData_append, dropLast_concat]
      simp [nodesData]
    · cases h
  · cases h

namespace KeyOf

variable (h : KeyOf f key)
include h

theorem checkRoomPos_ok (what : String) : f.checkRoomPos key.roomPos what = .ok () := by
  have hblock := ne_of_gt h.block_pos
  rw [InnFile.checkRoomPos, if_neg (fun hzero => hblock hzero.2), if_pos h.good]

theorem checkReadArgs_eq (offset size : ℕ) : f.checkReadArgs key offset size =
    if key.dataSize ≤ offset ∨ size = 0 then .ok (0, size)
    else .ok (key.roomPos + kRoomHeaderSize + offset,
      if u32 (offset + size) > key.dataSize then key.dataSize - offset else size) := by
  have hcheck := h.checkRoomPos_ok "InnFile.Read: bad roomPos."
  unfold InnFile.checkReadArgs
  simp only [hcheck, bind, Except.bind, pure, Except.pure]

/-- `Read` is the check, and a read of the storage. -/
theorem read_eq (offset size : ℕ) : f.read key offset size =
    (f.checkReadArgs key offset size).bind fun r => if r.1 = 0 then .ok [] else f.readStorage r.1 r.2 := by
  have hcheck := h.checkRoomPos_ok "InnFile.Read: bad roomPos."
  have h9 : kRoomHeaderSize = 9 := rfl
  have hpos : ¬ key.roomPos + kRoomHeaderSize + offset = 0 := by omega
  rw [h.checkReadArgs_eq]
  unfold InnFile.read InnFile.readStorage
  simp only [hcheck, bind, Except.bind, pure, Except.pure, throw, throwThe, MonadExceptOf.throw]
  by_cases hnone : key.dataSize ≤ offset ∨ size = 0
  · simp only [if_pos hnone, if_true]
  · simp only [if_neg hnone, if_neg hpos]

theorem length_roomData : (f.roomData key).length = key.dataSize := length_read h.stored

/-- What is asked for in the data is there. -/
theorem readStorage_eq {offset n : ℕ} (hn : offset + n ≤ key.dataSize) :
    f.readStorage (key.roomPos + kRoomHeaderSize + offset) n = .ok (((f.roomData key).drop offset).take n) := by
  have hstored := h.stored
  have hlen : (f.storage.read (key.roomPos + kRoomHeaderSize + offset) n).length = n :=
    length_read (by omega)
  have hpart : f.storage.read (key.roomPos + kRoomHeaderSize + offset) n = ((f.roomData key).drop offset).take n :=
    read_part hn hstored
  rw [InnFile.readStorage, if_neg (not_not_intro hlen), hpart]

/-- The range is computed without wrapping. -/
theorem readsRange (spare : ℕ → ℕ) (buf : List BufferNode)
    (hrange : key.dataSize ≤ offset.toNat ∨ offset.toNat + size.toNat < 2 ^ 32) :
    ReadsRange f spare key offset size buf := by
  have hlen := h.length_roomData
  have h9 : kRoomHeaderSize = 9 := rfl
  rw [ReadsRange, h.read_eq, InnFile.readList, h.checkReadArgs_eq]
  by_cases hnone : key.dataSize ≤ offset.toNat ∨ size.toNat = 0
  · have hnil : ((f.roomData key).drop offset.toNat).take size.toNat = [] := by
      rw [take_eq_nil_iff, drop_eq_nil_iff, hlen]
      exact hnone.symm
    simp only [if_pos hnone, hnil]
    exact ⟨rfl, buf, rfl, (append_nil _).symm⟩
  rw [not_or, not_le] at hnone
  have hpos : ¬ key.roomPos + kRoomHeaderSize + offset.toNat = 0 := by omega
  have hsize : (if u32 (offset.toNat + size.toNat) > key.dataSize then key.dataSize - offset.toNat else size.toNat) =
      min size.toNat (key.dataSize - offset.toNat) := by
    rw [u32_of_lt (hrange.resolve_left (by omega))]
    split <;> omega
  have htake : ((f.roomData key).drop offset.toNat).take (min size.toNat (key.dataSize - offset.toNat)) =
      ((f.roomData key).drop offset.toNat).take size.toNat := by
    rw [take_eq_take_iff, length_drop, hlen]
    omega
  have hcount : (((f.roomData key).drop offset.toNat).take size.toNat).length =
      min size.toNat (key.dataSize - offset.toNat) := by
    rw [length_take, length_drop, hlen]
  have hread : f.readStorage (key.roomPos + kRoomHeaderSize + offset.toNat)
      (min size.toNat (key.dataSize - offset.toNat)) = .ok _ := h.readStorage_eq (by omega)
  rw [htake] at hread
  simp only [if_neg (show ¬ (key.dataSize ≤ offset.toNat ∨ size.toNat = 0) by omega), hsize, Except.bind, bind,
    if_neg hpos, hread, pure, Except.pure, hcount, true_and]
  cases hback : spaceAtBack buf (min size.toNat (key.dataSize - offset.toNat)) with
  | none =>
    refine ⟨_, rfl, ?_⟩
    rw [nodesData_append]
    simp only [nodesData, append_nil]
  | some back =>
    obtain ⟨bytes, remain⟩ := back
    refine ⟨_, rfl, ?_⟩
    rw [nodesData_append, ← nodesData_back hback]
    simp only [nodesData, append_nil, append_assoc]

/-- Where the end of the range wraps, all bytes that are asked for are read, or it throws. -/
theorem not_readsRange (spare : ℕ → ℕ) (buf : List BufferNode) (hoffset : offset.toNat < key.dataSize)
    (hwrap : 2 ^ 32 ≤ offset.toNat + size.toNat) : ¬ ReadsRange f spare key offset size buf := by
  rintro ⟨hread, -⟩
  have hlen := h.length_roomData
  have hlt := h.data_lt
  have hsize := size.toNat_lt
  have h9 : kRoomHeaderSize = 9 := rfl
  have hpos : ¬ key.roomPos + kRoomHeaderSize + offset.toNat = 0 := by omega
  have hkeep : ¬ u32 (offset.toNat + size.toNat) > key.dataSize := by
    unfold u32
    omega
  rw [h.read_eq, h.checkReadArgs_eq, if_neg (by omega), if_neg hkeep] at hread
  simp only [Except.bind, if_neg hpos, InnFile.readStorage] at hread
  split at hread
  · cases hread
  · next hall =>
    rw [not_not] at hall
    rw [Except.ok.injEq] at hread
    rw [hread, length_take, length_drop, hlen] at hall
    omega

end KeyOf

/-- `Read` takes the data in the range exactly if it begins behind them or its end does not wrap. -/
theorem readsRange_iff (h : KeyOf f key) (spare : ℕ → ℕ) (offset size : UInt32) (buf : List BufferNode) :
    ReadsRange f spare key offset size buf ↔
      key.dataSize ≤ offset.toNat ∨ offset.toNat + size.toNat < 2 ^ 32 := by
  constructor
  · intro hreads
    by_contra hno
    rw [not_or, not_le, not_lt] at hno
    exact h.not_readsRange spare buf hno.1 hno.2 hreads
  · exact h.readsRange spare buf

/-- A file of one room with three bytes. -/
def threeBytes : InnFile where
  storage := ⟨128, fun i => (List.replicate 64 0 ++ InnFile.roomHeader 1 0x20 3 ++ [97, 98, 99]).getD i 0⟩
  headerSize := 64
  blockSize := 64
  fileSize := 128

theorem threeBytes_key : KeyOf threeBytes ⟨64, 55, 3, 0x20, 0x20⟩ where
  block_pos := by decide
  good := by decide
  data_lt := by decide
  stored := by decide

/-- All bytes behind the first one cannot be asked for with the greatest size. -/
theorem threeBytes_not_read : ¬ ReadsRange threeBytes id ⟨64, 55, 3, 0x20, 0x20⟩ 1 0xffffffff [] :=
  threeBytes_key.not_readsRange id [] (by decide) (by decide)

theorem readsRange_iff_threeBytes : ReadsRange threeBytes id ⟨64, 55, 3, 0x20, 0x20⟩ 1 9 [] ↔
    3 ≤ (1 : UInt32).toNat ∨ (1 : UInt32).toNat + (9 : UInt32).toNat < 2 ^ 32 :=
  readsRange_iff threeBytes_key id 1 9 []

end Fon9.Inn
