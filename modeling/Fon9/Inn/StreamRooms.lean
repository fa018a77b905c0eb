import Fon9.Inn.Rooms
import Fon9.Inn.Links
import Mathlib.Algebra.Order.BigOperators.Group.List

/-! The rooms of a stream: a list of rooms of the file, each with the position of the next one in front
of its data. A stream has loaded the first of them; a seek behind the end loads all. -/

namespace Fon9.Inn

open Lib List InnStream Block

/-- The data of the stream in a room. -/
def Room.payload (c : Room) : Bytes := c.data.drop kStreamHeaderSize

/-- The position of the next room. -/
def Room.link (c : Room) : ℕ := BigEndian.value (c.data.take kStreamHeaderSize)

/-- The bytes of a stream. -/
def content (cells : List Room) : Bytes := cells.flatMap Room.payload

/-- The position of the first of the rooms, zero where there is none. -/
def firstPos : List Room → ℕ
  | [] => 0
  | c :: _ => c.key.roomPos

/-- Each room has the position of the next one. -/
def Linked : List Room → Prop
  | [] => True
  | c :: cells => c.link = firstPos cells ∧ Linked cells

/-- The blocks of rooms, from a place of the stream on. -/
def blocksFrom : ℕ → List Room → List Block
  | _, [] => []
  | sPos, c :: cells => ⟨c.key, sPos⟩ :: blocksFrom (sPos + c.payload.length) cells

/-- A stream and its rooms, of which the first ones are loaded. With the type of the ExHeader it may
have been opened at position zero, for the first room of the file. -/
structure IsStream (s : InnStream) (rooms cells : List Room) : Prop where
  stores : Stores s.file rooms
  sub : ∀ c ∈ cells, c ∈ rooms
  nodup : cells.Nodup
  ne_nil : cells ≠ []
  room : ∀ c ∈ cells, c.key.currentRoomType = s.openArgs.roomType ∧ kStreamHeaderSize ≤ c.key.dataSize
  linked : Linked cells
  align : kBlockSizeAlign ≤ s.file.blockSize
  seekIndex : s.lastSeekIndex = 0 ∨ s.lastSeekIndex < s.blockList.length
  loaded : ∃ front back, cells = front ++ back ∧ s.blockList = blocksFrom 0 front ∧
    (s.nextRoomPos = firstPos back ∨ (front = [] ∧ s.nextRoomPos = 0 ∧
      s.openArgs.roomType = kInnRoomType_ExFileHeader ∧ firstPos cells = s.file.headerSize))

variable {f : InnFile} {rooms cells front back : List Room} {c : Room} {p pos : ℕ} {s : InnStream} {b : Block}

@[simp] theorem content_nil : content [] = [] := rfl

@[simp] theorem content_cons : content (c :: cells) = c.payload ++ content cells := rfl

@[simp] theorem content_append : content (front ++ back) = content front ++ content back :=
  flatMap_append

@[simp] theorem length_blocksFrom : (blocksFrom p cells).length = cells.length := by
  induction cells generalizing p with
  | nil => rfl
  | cons c cells ih => simp [blocksFrom, ih]

/-! ### One room -/

namespace Stores

variable (h : Stores f rooms) (hc : c ∈ rooms) (hsize : kStreamHeaderSize ≤ c.key.dataSize)
include h hc hsize

/-- What `LoadNextBlock` reads of a room. -/
theorem makeRoomKey_link : f.makeRoomKey c.key.roomPos kStreamHeaderSize =
    .ok (c.key, c.data.take kStreamHeaderSize) := by
  have hlies := h.lies hc
  have hle := hlies.disk.data_le
  have hnext := hlies.next_le
  have hstored := hlies.stored
  rw [hlies.makeRoomKey (by decide) (by omega)]
  have hpart := @ByteFile.read_part f.storage (c.key.roomPos + kRoomHeaderSize) c.key.dataSize 0 kStreamHeaderSize
    (by omega) (by omega)
  rw [add_zero, h.data c hc, drop_zero] at hpart
  rw [hpart]

end Stores

namespace IsStream

variable (h : IsStream s rooms cells)
include h

end IsStream

/-! ### A position behind the end -/

/-- The stream with all its rooms loaded. -/
def InnStream.loadAll (s : InnStream) (cells : List Room) : InnStream :=
  { s with blockList := blocksFrom 0 cells, nextRoomPos := 0 }

namespace IsStream

variable (h : IsStream s rooms cells)
include h

end IsStream

end Fon9.Inn
