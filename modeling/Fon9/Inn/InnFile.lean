import Fon9.Lib.Numeral
import Fon9.Lib.ByteFile

/-! An InnFile: a file header, and rooms behind it one after the other. A room is a number
of blocks, of which the first bytes are the header of the room. -/

namespace Fon9.Inn

open Lib

def kInnHeaderSize : ℕ := 64

def kRoomHeaderSize : ℕ := 9

def kBlockSizeAlign : ℕ := 16

/-- "fon9.inn.00001\n", filled up with zeros. -/
def kInnHeaderStr : List UInt8 :=
  [102, 111, 110, 57, 46, 105, 110, 110, 46, 48, 48, 48, 48, 49, 10, 0, 0, 0, 0, 0]

abbrev InnRoomType := UInt8

/-- What an operation throws, or the error it returns. A division by zero ends the program. -/
inductive InnError where
  | divideByZero
  | badMessage
  | roomPos (what : String)
  | roomSize (what : String)
  | file (what : String)
  deriving DecidableEq, Repr

/-- `RoomKey::Info`; the key is invalid where the position is zero. -/
structure RoomKey where
  roomPos : ℕ := 0
  roomSize : ℕ := 0
  dataSize : ℕ := 0
  currentRoomType : InnRoomType := 0
  pendingRoomType : InnRoomType := 0
  deriving DecidableEq, Repr

def RoomKey.nextRoomPos (key : RoomKey) : ℕ := key.roomPos + key.roomSize + kRoomHeaderSize

structure InnFile where
  storage : ByteFile
  headerSize : ℕ
  blockSize : ℕ
  fileSize : ℕ

namespace InnFile

/-! ### Open -/

/-- The header of a new file. -/
def newHeader (blockSize : ℕ) : List UInt8 :=
  kInnHeaderStr ++ BigEndian.bytes 4 kInnHeaderSize ++ BigEndian.bytes 4 blockSize ++
    List.replicate 36 0

/-- `Open` with the size of the blocks a new file gets; the result counts the blocks. -/
def «open» (storage : ByteFile) (argBlockSize : ℕ) : Except InnError (InnFile × ℕ) :=
  let header := storage.read 0 kInnHeaderSize
  if header.length = 0 then
    .ok (⟨storage.write 0 (newHeader argBlockSize), kInnHeaderSize, argBlockSize, kInnHeaderSize⟩, 0)
  else if header.length ≠ kInnHeaderSize then .error .badMessage
  else if header.take 20 ≠ kInnHeaderStr then .error .badMessage
  else
    let headerSize := BigEndian.value ((header.drop 20).take 4)
    let blockSize := BigEndian.value ((header.drop 24).take 4)
    if blockSize < kBlockSizeAlign ∨ blockSize % kBlockSizeAlign ≠ 0 ∨ headerSize < kInnHeaderSize ∨
        headerSize % kBlockSizeAlign ≠ 0 then .error .badMessage
    else if u64sub storage.size headerSize % blockSize ≠ 0 then .error .badMessage
    else .ok (⟨storage, headerSize, blockSize, storage.size⟩, u64sub storage.size headerSize / blockSize)

/-! ### Rooms -/

variable (f : InnFile) (key : RoomKey)

def calcRoomSize (blockCount : ℕ) : ℕ :=
  if blockCount ≠ 0 then u32 (f.blockSize * blockCount + 2 ^ 32 - kRoomHeaderSize) else 0

def isGoodRoomPos (pos : ℕ) : Bool :=
  f.headerSize ≤ pos && (pos - f.headerSize) % f.blockSize == 0

/-- `CheckRoomPos`; a position is taken modulo the size of the blocks. -/
def checkRoomPos (pos : ℕ) (exBadPos : String) : Except InnError Unit :=
  if f.headerSize ≤ pos ∧ f.blockSize = 0 then .error .divideByZero
  else if f.isGoodRoomPos pos then .ok () else .error (.roomPos exBadPos)

/-- The bytes of the header of a room. -/
def roomHeader (blockCount : ℕ) (roomType : InnRoomType) (dataSize : ℕ) : List UInt8 :=
  BigEndian.bytes 4 blockCount ++ [roomType] ++ BigEndian.bytes 4 dataSize

def roomHeaderToRoomKeyInfo (roomPos : ℕ) (roomHeader : List UInt8) : RoomKey where
  roomPos := roomPos
  roomSize := f.calcRoomSize (BigEndian.value (roomHeader.take 4))
  currentRoomType := roomHeader.getD 4 0
  pendingRoomType := roomHeader.getD 4 0
  dataSize := BigEndian.value ((roomHeader.drop 5).take 4)

/-- `MakeRoomKey`, with the bytes read into `exRoomHeader`. -/
def makeRoomKey (roomPos exRoomHeaderSize : ℕ) : Except InnError (RoomKey × List UInt8) := do
  let roomPos := if roomPos = 0 then f.headerSize else roomPos
  f.checkRoomPos roomPos "InnFile.MakeRoomKey: bad roomPos."
  if f.fileSize ≤ roomPos then
    return ({}, [])
  let sz := u32 (kRoomHeaderSize + exRoomHeaderSize)
  let sz := if sz > kRoomHeaderSize + 128 then kRoomHeaderSize else sz
  let header := f.storage.read roomPos sz
  if header.length ≠ sz then
    throw (.file "InnFile.MakeRoomKey: read RoomHeader error size.")
  let key := f.roomHeaderToRoomKeyInfo roomPos header
  if key.dataSize > key.roomSize ∨ key.roomSize = 0 ∨
      key.roomPos + key.roomSize + kRoomHeaderSize > f.fileSize then
    throw (.file "InnFile.MakeRoomKey: bad RoomHeader.")
  if sz = kRoomHeaderSize ∧ exRoomHeaderSize ≠ 0 then
    let ex := f.storage.read (roomPos + sz) exRoomHeaderSize
    if ex.length ≠ exRoomHeaderSize then
      throw (.file "InnFile.MakeRoomKey: read room ExHeader error size.")
    return (key, ex)
  return (key, header.drop kRoomHeaderSize)

def makeNextRoomKey (exRoomHeaderSize : ℕ) :
    Except InnError (RoomKey × List UInt8) :=
  if key.roomPos = 0 then .error (.roomPos "InnFile.MakeNextRoomKey: invalid current RoomKey.")
  else f.makeRoomKey key.nextRoomPos exRoomHeaderSize

/-! ### New rooms -/

/-- Where the storage fails during `MakeNewRoom`; a write may have put some bytes. -/
inductive Fault where
  | none
  | setFileSize
  | write (written : ℕ)
  deriving DecidableEq, Repr

/-- The argument of `static_cast<SizeT>` is the whole sum. -/
def newBlockCount (size : ℕ) : ℕ :=
  u32 (size + kRoomHeaderSize + f.blockSize - 1) / f.blockSize

/-- The size of the file with the new room. -/
def grownSize (size : ℕ) : ℕ :=
  u64 (f.fileSize + u32 (f.newBlockCount size * f.blockSize))

/-- A file size is an `off_t`. -/
def cannotGrow (size : ℕ) (fault : Fault) : Bool :=
  fault == .setFileSize || 2 ^ 63 ≤ f.grownSize size

def makeNewRoom (roomType : InnRoomType) (size : ℕ) (fault : Fault) :
    Except InnError RoomKey × InnFile :=
  if f.blockSize = 0 then (.error .divideByZero, f)
  else
    let blockCount := f.newBlockCount size
    let key : RoomKey :=
      { roomPos := f.fileSize
        roomSize := f.calcRoomSize blockCount
        dataSize := 0
        currentRoomType := roomType
        pendingRoomType := roomType }
    let header := roomHeader blockCount roomType 0
    if f.cannotGrow size fault then
      (.error (.file "InnFile.MakeNewRoom: build room error."),
        { f with storage := f.storage.setSize f.fileSize })
    else
      let grown := f.storage.setSize (f.grownSize size)
      match fault with
      | .write written =>
        (.error (.file "InnFile.MakeNewRoom: write RoomHeader error."),
          { f with storage := (grown.write f.fileSize (header.take written)).setSize f.fileSize })
      | _ => (.ok key, { f with storage := grown.write f.fileSize header, fileSize := f.grownSize size })

/-! ### The contents of a room

The storage does what it is asked for here; the failures of `MakeNewRoom` are above. -/

def kOffset_RoomType : ℕ := 4

def kOffset_DataSize : ℕ := 5

def writeStorage (pos : ℕ) (data : List UInt8) : InnFile :=
  { f with storage := f.storage.write pos data }

/-- `UpdateRoomHeader`: what is the same on disk is not written. -/
def updateRoomHeader (newsz : ℕ) : RoomKey × InnFile :=
  if key.currentRoomType = key.pendingRoomType then
    if key.dataSize ≠ newsz then
      ({ key with dataSize := newsz },
        f.writeStorage (key.roomPos + kOffset_DataSize) (BigEndian.bytes 4 newsz))
    else (key, f)
  else if key.dataSize = newsz then
    ({ key with currentRoomType := key.pendingRoomType },
      f.writeStorage (key.roomPos + kOffset_RoomType) [key.pendingRoomType])
  else
    ({ key with currentRoomType := key.pendingRoomType, dataSize := newsz },
      f.writeStorage (key.roomPos + kOffset_RoomType) ([key.pendingRoomType] ++ BigEndian.bytes 4 newsz))

def clearRoom (requiredSize : ℕ) : Except InnError (RoomKey × InnFile) := do
  f.checkRoomPos key.roomPos "InnFile.ClearRoom: bad roomPos."
  if key.roomSize < requiredSize then
    throw (.roomSize "InnFile.ClearRoom: requiredSize too big.")
  return f.updateRoomHeader key 0

def reallocRoom (roomPos : ℕ) (roomType : InnRoomType) (requiredSize : ℕ) :
    Except InnError (RoomKey × InnFile) := do
  let (key, _) ← f.makeRoomKey roomPos 0
  f.clearRoom { key with pendingRoomType := roomType } requiredSize

/-- `FreeRoom`: the key is not valid any more. -/
def freeRoom (roomType : InnRoomType) : Except InnError (RoomKey × InnFile) := do
  let (_, f) ← f.clearRoom { key with pendingRoomType := roomType } 0
  return ({}, f)

/-- `Read`: at most `size` bytes of the data from `offset` on. -/
def read (f : InnFile) (key : RoomKey) (offset size : ℕ) : Except InnError (List UInt8) := do
  f.checkRoomPos key.roomPos "InnFile.Read: bad roomPos."
  if key.dataSize ≤ offset ∨ size = 0 then
    return []
  let size := if u32 (offset + size) > key.dataSize then key.dataSize - offset else size
  let data := f.storage.read (key.roomPos + kRoomHeaderSize + offset) size
  if data.length ≠ size then
    throw (.file "InnFile.Read: read error size.")
  return data

def readAll : Except InnError (List UInt8) := f.read key 0 key.dataSize

/-- `Rewrite`: the data of the room is `buf`. -/
def rewrite (buf : List UInt8) : Except InnError (RoomKey × InnFile) := do
  f.checkRoomPos key.roomPos "InnFile.Rewrite: bad roomPos."
  if buf.length > key.roomSize then
    throw (.roomSize "InnFile.Rewrite: request size > RoomSize.")
  let (key, f) := f.updateRoomHeader key (u32 buf.length)
  return (key, f.writeStorage (key.roomPos + kRoomHeaderSize) buf)

/-- `Write` of the first `size` bytes of `buf` from `offset` on. -/
def write (offset size : ℕ) (buf : List UInt8) :
    Except InnError (RoomKey × InnFile) := do
  f.checkRoomPos key.roomPos "InnFile.Write: bad roomPos."
  if offset > key.dataSize then
    throw (.roomSize "InnFile.Write: bad offset.")
  if offset + size > key.roomSize then
    throw (.roomSize "InnFile.Write: bad request size.")
  if size = 0 then
    return (key, f)
  if size > buf.length then
    throw (.file "InnFile.Write: request size > buffer size.")
  let f := f.writeStorage (key.roomPos + kRoomHeaderSize + offset) (buf.take size)
  let newsz := u32 (offset + size)
  return f.updateRoomHeader key (if newsz < key.dataSize then key.dataSize else newsz)

/-! ### All rooms -/

/-- `MakeRoomKey(pos)` and `MakeNextRoomKey` until the end of the file, at most `fuel` rooms. -/
def walkFrom (f : InnFile) : ℕ → Except InnError RoomKey → Except InnError (List RoomKey)
  | _, .error e => .error e
  | 0, .ok _ => .error .badMessage
  | fuel + 1, .ok key =>
    if key.roomPos = 0 then .ok []
    else do
      let keys ← f.walkFrom fuel ((f.makeNextRoomKey key 0).map Prod.fst)
      return key :: keys

def walk (fuel : ℕ) : Except InnError (List RoomKey) :=
  f.walkFrom fuel ((f.makeRoomKey 0 0).map Prod.fst)

end InnFile

end Fon9.Inn
