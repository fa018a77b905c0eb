import Fon9.Inn.InnFile

/-! The operations on the key of a room, over a storage whose writes may fail. What fails
has put the first bytes, and the operation throws; what the key says then stays. -/

namespace Fon9.Inn

open Lib

/-- A write of the storage returns an error, or fewer bytes than it was given, with the first ones put. -/
inductive WriteFault where
  | error (written : ℕ)
  | short (written : ℕ)
  deriving DecidableEq, Repr

def WriteFault.written : WriteFault → ℕ
  | .error written => written
  | .short written => written

/-- `File::Write`, checked with `CheckIoSize`. -/
def InnFile.checkedWrite (f : InnFile) (fault : Option WriteFault) (pos : ℕ) (data : List UInt8)
    (exResError exSizeError : String) : Except InnError Unit × InnFile :=
  match fault with
  | none => (.ok (), f.writeStorage pos data)
  | some (.error n) => (.error (.file exResError), f.writeStorage pos (data.take n))
  | some (.short n) =>
    (if n < data.length then .error (.file exSizeError) else .ok (), f.writeStorage pos (data.take n))

/-- `WriteRoom`: the blocks of the buffer, each with a write of its own. -/
def InnFile.writeRoom (f : InnFile) (pos wrsz : ℕ) (exResError exSizeError : String) :
    List (List UInt8) → List (Option WriteFault) → Except InnError Unit × InnFile
  | [], _ => (.ok (), f)
  | blk :: buf, faults =>
    let data := blk.take wrsz
    match f.checkedWrite faults.head?.join pos data exResError exSizeError with
    | (.error e, f) => (.error e, f)
    | (.ok (), f) =>
      if wrsz - data.length = 0 then (.ok (), f)
      else f.writeRoom (pos + data.length) (wrsz - data.length) exResError exSizeError buf faults.tail

/-- A key, and the file of its room. -/
structure KeyedFile where
  key : RoomKey
  file : InnFile

/-- How the writes of a call fail: the one of the room header, and those of the data. -/
structure CallFaults where
  header : Option WriteFault := none
  data : List (Option WriteFault) := []

namespace KeyedFile

/-- `DcQueue::CalcSize` -/
def calcSize (buf : List (List UInt8)) : ℕ := (buf.map List.length).sum

variable (s : KeyedFile) (buf : List (List UInt8))

/-- `UpdateRoomHeader` -/
def updateRoomHeader (newsz : ℕ) (fault : Option WriteFault) (exResError exSizeError : String) :
    Except InnError Unit × KeyedFile :=
  if s.key.currentRoomType = s.key.pendingRoomType then
    if s.key.dataSize ≠ newsz then
      let r := s.file.checkedWrite fault (s.key.roomPos + InnFile.kOffset_DataSize) (BigEndian.bytes 4 newsz)
        exResError exSizeError
      (r.1, ⟨{ s.key with dataSize := newsz }, r.2⟩)
    else (.ok (), s)
  else
    let roomHeader := [s.key.pendingRoomType] ++ BigEndian.bytes 4 newsz
    let wrsz := if s.key.dataSize = newsz then 1 else 5
    let r := s.file.checkedWrite fault (s.key.roomPos + InnFile.kOffset_RoomType) (roomHeader.take wrsz)
      exResError exSizeError
    (r.1, ⟨{ s.key with currentRoomType := s.key.pendingRoomType, dataSize := newsz }, r.2⟩)

/-- The checks of `Write`. -/
def checkWrite (offset size : ℕ) (buf : List (List UInt8)) : Except InnError Unit := do
  s.file.checkRoomPos s.key.roomPos "InnFile.Write: bad roomPos."
  if offset > s.key.dataSize then
    throw (.roomSize "InnFile.Write: bad offset.")
  if offset + size > s.key.roomSize then
    throw (.roomSize "InnFile.Write: bad request size.")
  if size ≠ 0 ∧ size > calcSize buf then
    throw (.file "InnFile.Write: request size > buffer size.")

/-- `Write` -/
def write (s : KeyedFile) (offset size : ℕ) (buf : List (List UInt8)) (faults : CallFaults) :
    Except InnError Unit × KeyedFile :=
  match s.checkWrite offset size buf with
  | .error e => (.error e, s)
  | .ok () =>
    if size = 0 then (.ok (), s)
    else
      match s.file.writeRoom (s.key.roomPos + kRoomHeaderSize + offset) size "InnFile.Write: write error."
        "InnFile.Write: write error size." buf faults.data with
      | (.error e, file) => (.error e, { s with file := file })
      | (.ok (), file) =>
        let newsz := u32 (offset + size)
        { s with file := file }.updateRoomHeader (if newsz < s.key.dataSize then s.key.dataSize else newsz)
          faults.header "InnFile.Write: update RoomHeader error." "InnFile.Write: update RoomHeader error size."

/-- The checks of `Rewrite`. -/
def checkRewrite : Except InnError Unit := do
  s.file.checkRoomPos s.key.roomPos "InnFile.Rewrite: bad roomPos."
  if calcSize buf > s.key.roomSize then
    throw (.roomSize "InnFile.Rewrite: request size > RoomSize.")

/-- `Rewrite` -/
def rewrite (faults : CallFaults) : Except InnError Unit × KeyedFile :=
  match s.checkRewrite buf with
  | .error e => (.error e, s)
  | .ok () =>
    match s.updateRoomHeader (u32 (calcSize buf)) faults.header "InnFile.Rewrite: update RoomHeader error."
      "InnFile.Rewrite: update RoomHeader error size." with
    | (.error e, s) => (.error e, s)
    | (.ok (), s) =>
      let r := s.file.writeRoom (s.key.roomPos + kRoomHeaderSize) (calcSize buf) "InnFile.Rewrite: write error."
        "InnFile.Rewrite: write error size." buf faults.data
      (r.1, { s with file := r.2 })

variable (newDataSize : ℕ) (exRoomHeader : List UInt8)

/-- The checks of `Reduce`. -/
def checkReduce : Except InnError Unit := do
  s.file.checkRoomPos s.key.roomPos "InnFile.Reduce: bad roomPos."
  if exRoomHeader.length > newDataSize then
    throw (.file "InnFile.Reduce: exRoomHeaderSize > newDataSize")
  if s.key.dataSize < newDataSize then
    throw (.file "InnFile.Reduce: oldDataSize < newDataSize")

/-- The write of the room header in `Reduce`, with as much of the ExHeader as fits in, and the rest of that. -/
def reduceHeader (fault : Option WriteFault) :
    Except InnError Unit × KeyedFile × List UInt8 :=
  if s.key.currentRoomType ≠ s.key.pendingRoomType ∨ s.key.dataSize ≠ newDataSize then
    let roomHeader := [s.key.pendingRoomType] ++ BigEndian.bytes 4 newDataSize
    let fits := exRoomHeader.length ≤ 128
    let r := s.file.checkedWrite fault (s.key.roomPos + InnFile.kOffset_RoomType)
      (if fits then roomHeader ++ exRoomHeader else roomHeader)
      "InnFile.Reduce: update RoomHeader2 error." "InnFile.Reduce: update RoomHeader2 error size."
    (r.1, ⟨{ s.key with currentRoomType := s.key.pendingRoomType, dataSize := newDataSize }, r.2⟩,
      if fits then [] else exRoomHeader)
  else (.ok (), s, exRoomHeader)

/-- `Reduce` -/
def reduce (faults : CallFaults) :
    Except InnError Unit × KeyedFile :=
  match s.checkReduce newDataSize exRoomHeader with
  | .error e => (.error e, s)
  | .ok () =>
    if exRoomHeader = [] then
      s.updateRoomHeader newDataSize faults.header "InnFile.Reduce: update RoomHeader error."
        "InnFile.Reduce: update RoomHeader error size."
    else
      match s.reduceHeader newDataSize exRoomHeader faults.header with
      | (.error e, s, _) => (.error e, s)
      | (.ok (), s, []) => (.ok (), s)
      | (.ok (), s, rest) =>
        let r := s.file.checkedWrite faults.data.head?.join (s.key.roomPos + kRoomHeaderSize) rest
          "InnFile.Reduce: update room ExHeader error." "InnFile.Reduce: update room ExHeader error size."
        (r.1, { s with file := r.2 })

/-- The checks of `ClearRoom`. -/
def checkClearRoom (requiredSize : ℕ) : Except InnError Unit := do
  s.file.checkRoomPos s.key.roomPos "InnFile.ClearRoom: bad roomPos."
  if s.key.roomSize < requiredSize then
    throw (.roomSize "InnFile.ClearRoom: requiredSize too big.")

/-- `ClearRoom` -/
def clearRoom (requiredSize : ℕ) (faults : CallFaults) : Except InnError Unit × KeyedFile :=
  match s.checkClearRoom requiredSize with
  | .error e => (.error e, s)
  | .ok () => s.updateRoomHeader 0 faults.header "InnFile.ClearRoom: update RoomHeader error."
      "InnFile.ClearRoom: update RoomHeader error size."

/-- `SetPendingRoomType` -/
def setPendingRoomType (roomType : InnRoomType) : KeyedFile :=
  { s with key := { s.key with pendingRoomType := roomType } }

end KeyedFile

/-- The calls on a key. -/
inductive KeyOp where
  | write (offset size : UInt32) (buf : List (List UInt8))
  | rewrite (buf : List (List UInt8))
  | reduce (newDataSize : UInt32) (exRoomHeader : List UInt8)
  | clearRoom (requiredSize : UInt32)
  | setPendingRoomType (roomType : InnRoomType)

/-- A call, and what fails of it. -/
structure KeyCall where
  op : KeyOp
  faults : CallFaults := {}

namespace KeyedFile

/-- The checks of a call. -/
def check (s : KeyedFile) : KeyOp → Except InnError Unit
  | .write offset size buf => s.checkWrite offset.toNat size.toNat buf
  | .rewrite buf => s.checkRewrite buf
  | .reduce newDataSize exRoomHeader => s.checkReduce newDataSize.toNat exRoomHeader
  | .clearRoom requiredSize => s.checkClearRoom requiredSize.toNat
  | .setPendingRoomType _ => .ok ()

/-- A call returns or throws, and leaves the key and the file. -/
def call (s : KeyedFile) (c : KeyCall) : Except InnError Unit × KeyedFile :=
  match c.op with
  | .write offset size buf => s.write offset.toNat size.toNat buf c.faults
  | .rewrite buf => s.rewrite buf c.faults
  | .reduce newDataSize exRoomHeader => s.reduce newDataSize.toNat exRoomHeader c.faults
  | .clearRoom requiredSize => s.clearRoom requiredSize.toNat c.faults
  | .setPendingRoomType roomType => (.ok (), s.setPendingRoomType roomType)

/-- The state after a call. -/
def step (s : KeyedFile) (c : KeyCall) : KeyedFile := (s.call c).2

/-! ### Without faults -/

variable (s : KeyedFile)

theorem updateRoomHeader_none (newsz : ℕ) (ex ex' : String) : s.updateRoomHeader newsz none ex ex' =
    (.ok (), ⟨(s.file.updateRoomHeader s.key newsz).1, (s.file.updateRoomHeader s.key newsz).2⟩) := by
  obtain ⟨⟨roomPos, roomSize, dataSize, current, pending⟩, file⟩ := s
  unfold updateRoomHeader InnFile.updateRoomHeader InnFile.checkedWrite
  by_cases htype : current = pending
  · by_cases hsize : dataSize = newsz
    · simp [htype, hsize]
    · simp [htype, hsize]
  · by_cases hsize : dataSize = newsz
    · simp [htype, hsize]
    · have hlen : ([pending] ++ BigEndian.bytes 4 newsz).length = 5 := by simp
      simp only [if_neg htype, if_neg hsize, List.take_of_length_le (le_of_eq hlen)]

/-- Where nothing fails, this is `Write` of the file. -/
theorem write_none (offset size : ℕ) (buf : List UInt8) : s.write offset size [buf] {} =
    match s.file.write s.key offset size buf with
    | .error e => (.error e, s)
    | .ok (key, file) => (.ok (), ⟨key, file⟩) := by
  have hcalc : calcSize [buf] = buf.length := by simp [calcSize]
  unfold write checkWrite InnFile.write
  simp only [hcalc, bind, Except.bind, pure, Except.pure, throw, throwThe, MonadExceptOf.throw]
  cases s.file.checkRoomPos s.key.roomPos "InnFile.Write: bad roomPos." with
  | error e => rfl
  | ok u =>
    dsimp only
    by_cases hoffset : offset > s.key.dataSize
    · simp only [if_pos hoffset]
    by_cases hend : offset + size > s.key.roomSize
    · simp only [if_neg hoffset, if_pos hend]
    by_cases hzero : size = 0
    · simp only [if_neg hoffset, if_neg hend, if_pos hzero, if_neg (show ¬ (size ≠ 0 ∧ size > buf.length) from fun h => h.1 hzero)]
    by_cases hbuf : size > buf.length
    · simp only [if_neg hoffset, if_neg hend, if_neg hzero, if_pos hbuf, if_pos (show size ≠ 0 ∧ size > buf.length from ⟨hzero, hbuf⟩)]
    have hlen : (buf.take size).length = size := by
      rw [List.length_take]
      omega
    have hroom : s.file.writeRoom (s.key.roomPos + kRoomHeaderSize + offset) size "InnFile.Write: write error."
        "InnFile.Write: write error size." [buf] [] =
        (.ok (), s.file.writeStorage (s.key.roomPos + kRoomHeaderSize + offset) (buf.take size)) := by
      simp only [InnFile.writeRoom, InnFile.checkedWrite, List.head?_nil, Option.join_none, hlen, Nat.sub_self, if_true]
    simp only [if_neg hoffset, if_neg hend, if_neg hzero, if_neg hbuf,
      if_neg (show ¬ (size ≠ 0 ∧ size > buf.length) from fun h => hbuf h.2), hroom, updateRoomHeader_none]

end KeyedFile

end Fon9.Inn
