import Fon9.Inn.Dbf
import Fon9.Lib.Loop

/-! An InnStream: rooms of an InnFile that are linked by the position of the next one, in front of the
data of each. The blocks are the rooms that have been loaded. An operation that throws
leaves the stream as it is at that point. -/

namespace Fon9.Inn

open Lib

/-- `sizeof(RoomHeader)`: the position of the next room. -/
def kStreamHeaderSize : ℕ := 8

structure StreamArgs where
  roomType : InnRoomType
  expectedRoomSize : List UInt32

/-- `Block`: a room, and where its data stand in the stream. -/
structure Block where
  roomKey : RoomKey
  sPos : ℕ
  deriving DecidableEq

namespace Block

/-- `GetBlockSize` -/
def blockSize (b : Block) : ℕ := u32sub b.roomKey.roomSize kStreamHeaderSize

/-- `GetPayloadSize` -/
def payloadSize (b : Block) : ℕ := u32sub b.roomKey.dataSize kStreamHeaderSize

/-- `IsInThisBlock`, with the offset in the block. The end of the data counts. -/
def isInThisBlock (b : Block) (pos : ℕ) : Option ℕ :=
  if pos < b.sPos then none
  else if pos - b.sPos > b.payloadSize then none
  else some (pos - b.sPos)

end Block

/-- `ImplBase`, with the file it works on. -/
structure InnStream where
  file : InnFile
  openArgs : StreamArgs
  blockList : List Block := []
  lastSeekIndex : ℕ := 0
  nextRoomPos : ℕ

namespace InnStream

/-- A room size of zero is the one before it. -/
def fillRoomSizes : UInt32 → List UInt32 → List UInt32
  | _, [] => []
  | last, rsz :: rest => if rsz = 0 then last :: fillRoomSizes last rest else rsz :: fillRoomSizes rsz rest

/-- `Open` -/
def «open» (file : InnFile) (startAt : ℕ) (args : StreamArgs) : InnStream where
  file := file
  openArgs := { args with expectedRoomSize := fillRoomSizes 1024 args.expectedRoomSize }
  nextRoomPos := startAt

/-! ### Seek -/

/-- `LoadNextBlock` -/
def loadNextBlock (s : InnStream) : Except InnError Block × InnStream :=
  match s.file.makeRoomKey s.nextRoomPos kStreamHeaderSize with
  | .error e => (.error e, s)
  | .ok (key, roomHeader) =>
    (.ok ⟨key, 0⟩,
      { s with nextRoomPos := if kStreamHeaderSize ≤ key.dataSize then BigEndian.value roomHeader else 0 })

/-- `ValidateBlockRoomKey` -/
def validateBlockRoomKey (roomType : InnRoomType) (key : RoomKey) : Except InnError Unit :=
  if key.currentRoomType ≠ roomType then .error (.file "InnStream:Bad RoomType.")
  else if key.dataSize < kStreamHeaderSize then .error (.roomSize "InnStream:Bad RoomSize.")
  else .ok ()

/-- The first block that the position is in, and the offset there. -/
def findBlock (pos : ℕ) : ℕ → List Block → Option (ℕ × ℕ)
  | _, [] => none
  | idx, b :: blocks =>
    match b.isInThisBlock pos with
    | some ofs => some (idx, ofs)
    | none => findBlock pos (idx + 1) blocks

/-- The search among the blocks: the last one that was found comes first. -/
def seekLoaded (s : InnStream) (pos : ℕ) : Option (ℕ × ℕ) :=
  match s.blockList[s.lastSeekIndex]?.bind (Block.isInThisBlock · pos) with
  | some ofs => some (s.lastSeekIndex, ofs)
  | none => findBlock pos 0 s.blockList

/-- Where the block goes that is loaded next. -/
def nextSPos (s : InnStream) : ℕ :=
  match s.blockList.getLast? with
  | some last => u64 (last.sPos + last.payloadSize)
  | none => 0

/-- What `SeekNoFlush` gives: the index of the block and the offset, nothing for a position behind the
end; or what it throws. -/
abbrev SeekResult := Except InnError (Option (ℕ × ℕ)) × InnStream

/-- The loop of `SeekNoFlush`: the block that has been loaded and its index. -/
structure Seeking where
  stream : InnStream
  curr : Block
  idx : ℕ

/-- A round of the loop of `SeekNoFlush`. -/
def seekBody (pos : ℕ) (k : Seeking) : Seeking ⊕ SeekResult :=
  match validateBlockRoomKey k.stream.openArgs.roomType k.curr.roomKey with
  | .error e => .inr (.error e, k.stream)
  | .ok () =>
    let curr := { k.curr with sPos := k.stream.nextSPos }
    let s := { k.stream with blockList := k.stream.blockList ++ [curr] }
    match curr.isInThisBlock pos with
    | some ofs => .inr (.ok (some (k.idx, ofs)), { s with lastSeekIndex := k.idx })
    | none =>
      if s.nextRoomPos = 0 then .inr (.ok none, s)
      else
        match s.loadNextBlock with
        | (.error e, s) => .inr (.error e, s)
        | (.ok curr, s) => .inl { stream := s, curr := curr, idx := k.idx + 1 }

/-- `SeekNoFlush`, with at most `fuel` rounds of the loop. -/
def seekNoFlush (fuel : ℕ) (s : InnStream) (pos : ℕ) : Option SeekResult :=
  match s.seekLoaded pos with
  | some (idx, ofs) => some (.ok (some (idx, ofs)), { s with lastSeekIndex := idx })
  | none =>
    if s.nextRoomPos = 0 ∧ (s.openArgs.roomType ≠ kInnRoomType_ExFileHeader ∨ s.blockList ≠ []) then
      some (.ok none, s)
    else
      match s.loadNextBlock with
      | (.error e, s') => some (.error e, s')
      | (.ok curr, s') =>
        if s.nextRoomPos = 0 ∧ curr.roomKey.roomPos = 0 then some (.ok none, s')
        else loop (seekBody pos) fuel { stream := s', curr := curr, idx := s.blockList.length }

/-- The greatest position. -/
def maxPos : ℕ := 2 ^ 64 - 1

/-- `SeekToEndNoFlush`: the size of the stream. -/
def seekToEndNoFlush (fuel : ℕ) (s : InnStream) : Option (Except InnError ℕ × InnStream) :=
  (s.seekNoFlush fuel maxPos).map fun
    | (.error e, s) => (.error e, s)
    | (.ok _, s) =>
      match s.blockList.getLast? with
      | none => (.ok 0, s)
      | some last =>
        (.ok (u64 (last.sPos + last.payloadSize)), { s with lastSeekIndex := s.blockList.length - 1 })

/-! ### Read and Write -/

/-- `IoHandlerRd` and `IoHandlerWr`. -/
inductive IoHandler where
  | rd
  | wr
  deriving DecidableEq

/-- `AddNewRoom`. The place of a new block is not set (`unset`) until its header has been written. -/
def addNewRoom (unset : ℕ) (s : InnStream) : IoHandler → Except InnError Bool × InnStream
  | .rd => (.ok false, s)
  | .wr =>
    let ridx := min s.blockList.length (s.openArgs.expectedRoomSize.length - 1)
    match s.file.makeNewRoom s.openArgs.roomType (s.openArgs.expectedRoomSize.getD ridx 0).toNat .none with
    | (.error e, file) => (.error e, { s with file := file })
    | (.ok key, file) =>
      match file.write key 0 kStreamHeaderSize (List.replicate kStreamHeaderSize 0) with
      | .error e => (.error e, { s with file := file, blockList := s.blockList ++ [⟨key, unset⟩] })
      | .ok (key, file) =>
        match s.blockList.getLast? with
        | none => (.ok true, { s with file := file, blockList := [⟨key, 0⟩] })
        | some prv =>
          let newBlock : Block := ⟨key, u64 (prv.sPos + prv.payloadSize)⟩
          match file.write prv.roomKey 0 kStreamHeaderSize (BigEndian.bytes 8 key.roomPos) with
          | .error e => (.error e, { s with file := file, blockList := s.blockList ++ [newBlock] })
          | .ok (prvKey, file) =>
            (.ok true,
              { s with file := file, blockList := s.blockList.dropLast ++ [{ prv with roomKey := prvKey }, newBlock] })

/-- `WorkRW`: the number of bytes, and what has been read. -/
def workRW (s : InnStream) (idx : ℕ) (curr : Block) (offset : ℕ) (buf : Bytes) (size : ℕ) :
    IoHandler → Except InnError (ℕ × Bytes × InnStream)
  | .rd => do
    let data ← s.file.read curr.roomKey offset size
    return (data.length, data, s)
  | .wr => do
    let (key, file) ← s.file.write curr.roomKey offset size buf
    return (size, [], { s with file := file, blockList := s.blockList.set idx { curr with roomKey := key } })

/-- The loop of `Work`: what is left to be written (`buf`), what has been read (`out`), the bytes that
are left and those that are done. -/
structure Working where
  stream : InnStream
  idx : ℕ
  ofsBlock : ℕ
  buf : Bytes
  out : Bytes := []
  bufsz : ℕ
  totsz : ℕ := 0

/-- The number of bytes done and what has been read, or what is thrown. -/
abbrev WorkResult := Except InnError (ℕ × Bytes) × InnStream

/-- Before the next block: one is loaded, or made, behind the last one. -/
def nextBlock (unset : ℕ) (io : IoHandler) (s : InnStream) (idx : ℕ) (curr : Block) :
    Except InnError Bool × InnStream :=
  if idx < s.blockList.length then (.ok true, s)
  else if s.nextRoomPos = 0 then s.addNewRoom unset io
  else
    match s.loadNextBlock with
    | (.error e, s) => (.error e, s)
    | (.ok next, s) =>
      match validateBlockRoomKey s.openArgs.roomType next.roomKey with
      | .error e => (.error e, s)
      | .ok () =>
        (.ok true,
          { s with blockList := s.blockList ++ [{ next with sPos := u64 (curr.sPos + curr.blockSize) }] })

/-- A round of the loop of `Work`. -/
def workBody (unset : ℕ) (io : IoHandler) (w : Working) : Working ⊕ WorkResult :=
  let curr := w.stream.blockList.getD w.idx ⟨{}, unset⟩
  let iosz := u32sub curr.blockSize w.ofsBlock
  let done : Except InnError (ℕ × Bytes × InnStream) :=
    if 0 < iosz then
      w.stream.workRW w.idx curr (u32 (w.ofsBlock + kStreamHeaderSize)) w.buf (min iosz w.bufsz) io
    else .ok (0, [], w.stream)
  match done with
  | .error e => .inr (.error e, w.stream)
  | .ok (iosz, data, s) =>
    let totsz := w.totsz + iosz
    let bufsz := w.bufsz - iosz
    if bufsz = 0 then .inr (.ok (totsz, w.out ++ data), s)
    else
      let curr := s.blockList.getD w.idx curr
      match s.nextBlock unset io (w.idx + 1) curr with
      | (.error e, s) => .inr (.error e, s)
      | (.ok false, s) => .inr (.ok (totsz, w.out ++ data), s)
      | (.ok true, s) => .inl
          { stream := { s with lastSeekIndex := w.idx + 1 }, idx := w.idx + 1, ofsBlock := 0,
            buf := w.buf.drop iosz, out := w.out ++ data, bufsz := bufsz, totsz := totsz }

/-- `Work`. A position that is not found is taken for that of a stream without rooms. -/
def work (unset fuel : ℕ) (io : IoHandler) (s : InnStream) (pos : ℕ) (buf : Bytes) (bufsz : ℕ) : Option WorkResult :=
  (s.seekNoFlush fuel pos).bind fun
    | (.error e, s) => some (.error e, s)
    | (.ok (some (idx, ofsBlock)), s) =>
      loop (workBody unset io) fuel { stream := s, idx := idx, ofsBlock := ofsBlock, buf := buf, bufsz := bufsz }
    | (.ok none, s) =>
      match s.addNewRoom unset io with
      | (.error e, s) => some (.error e, s)
      | (.ok false, s) => some (.ok (0, []), s)
      | (.ok true, s) =>
        loop (workBody unset io) fuel { stream := s, idx := 0, ofsBlock := 0, buf := buf, bufsz := bufsz }

/-- `Read` -/
def read (unset fuel : ℕ) (s : InnStream) (pos bufsz : ℕ) : Option WorkResult :=
  s.work unset fuel .rd pos [] bufsz

/-- `Write` -/
def write (unset fuel : ℕ) (s : InnStream) (pos : ℕ) (buf : Bytes) : Option WorkResult :=
  s.work unset fuel .wr pos buf buf.length

/-- `Append`: the size of the stream then. -/
def append (unset fuel : ℕ) (s : InnStream) (buf : Bytes) : Option (Except InnError ℕ × InnStream) :=
  (s.seekToEndNoFlush fuel).bind fun
    | (.error e, s) => some (.error e, s)
    | (.ok pos, s) => (s.write unset fuel pos buf).map fun
      | (.error e, s) => (.error e, s)
      | (.ok (totsz, _), s) => (.ok (u64 (pos + totsz)), s)

/-- `Size` -/
def size (fuel : ℕ) (s : InnStream) : Option (Except InnError ℕ × InnStream) := s.seekToEndNoFlush fuel

end InnStream

end Fon9.Inn
