import Fon9.Base.StrTo

/-! The queue of received bytes: a list of buffer nodes, the front one of which is read
through `MemCurrent_` and `MemEnd_`. What the control nodes are told when they are
consumed is left out. -/

namespace Fon9.Buffer

/-- A data node, with the room behind its data, or a control node. -/
inductive BufferNode
  | data (content : Bytes) (remainSize : ℕ)
  | virtual
  deriving DecidableEq

namespace BufferNode

def content : BufferNode → Bytes
  | data content _ => content
  | virtual => []

def dataSize (node : BufferNode) : ℕ := node.content.length

/-- `MoveDataBeginOffset`. -/
def moveDataBeginOffset (offset : ℕ) : BufferNode → BufferNode
  | data content remainSize => data (content.drop offset) remainSize
  | virtual => virtual

end BufferNode

/-- `DcQueueList`; `MemCurrent_` and `MemEnd_` are offsets from the data of the front node,
`none` where they are null. -/
structure DcQueueList where
  blockList : List BufferNode := []
  mem : Option (ℕ × ℕ) := none
  deriving DecidableEq

/-- `CalcDataSize`. -/
def calcDataSize : List BufferNode → ℕ
  | [] => 0
  | node :: rest => node.dataSize + calcDataSize rest

/-- `AppendToBuffer`; a new node has `remainSize` bytes left behind `src`. -/
def appendToBuffer (dst : List BufferNode) (src : Bytes) (remainSize : ℕ) : List BufferNode :=
  match dst.getLast? with
  | some (.data content room) =>
    if room < src.length then dst ++ [.data src remainSize]
    else dst.dropLast ++ [.data (content ++ src) (room - src.length)]
  | _ => dst ++ [.data src remainSize]

namespace DcQueueList

variable (q : DcQueueList) (sz : ℕ)

def getCurrBlockSize : ℕ :=
  match q.mem with
  | some (current, memEnd) => memEnd - current
  | none => 0

/-- The bytes from `MemCurrent_` to `MemEnd_`. -/
def currBlock : Bytes :=
  match q.mem, q.blockList with
  | some (current, memEnd), front :: _ => (front.content.take memEnd).drop current
  | _, _ => []

/-- The loop of `FrontToCurrBlock`. -/
def frontLoop : List BufferNode → DcQueueList
  | [] => {}
  | front :: rest => if 0 < front.dataSize then ⟨front :: rest, some (0, front.dataSize)⟩ else frontLoop rest

def frontToCurrBlock : DcQueueList := if q.mem.isSome then q else frontLoop q.blockList

/-- The loop of `DcQueuePeekMore`: the bytes copied. -/
def peekLoop : List BufferNode → ℕ → Option Bytes
  | [], _ => none
  | node :: rest, sz =>
    if 0 < node.dataSize then
      let peeksz := if sz < node.dataSize then sz else node.dataSize
      if sz - peeksz = 0 then some (node.content.take peeksz)
      else (peekLoop rest (sz - peeksz)).map (node.content.take peeksz ++ ·)
    else peekLoop rest sz

/-- The loop of `DcQueueHasMore`. -/
def hasMoreLoop : List BufferNode → ℕ → ℕ → Bool
  | [], _, _ => false
  | node :: rest, nodesz, sz => if sz ≤ nodesz + node.dataSize then true else hasMoreLoop rest (nodesz + node.dataSize) sz

/-- The loop of `DcQueueRemoveMore`. -/
def removeLoop : List BufferNode → ℕ → DcQueueList
  | [], _ => {}
  | node :: rest, sz =>
    if 0 < node.dataSize then
      if sz < node.dataSize then ⟨node :: rest, some (sz, node.dataSize)⟩ else removeLoop rest (sz - node.dataSize)
    else removeLoop rest sz

def dcQueueRemoveMore : DcQueueList :=
  match q.blockList with
  | [] => q
  | _ :: rest => removeLoop rest sz

/-- The loop of `DcQueueReadMore`. -/
def readLoop : List BufferNode → ℕ → DcQueueList × Bytes
  | [], _ => ({}, [])
  | node :: rest, sz =>
    if 0 < node.dataSize then
      if sz < node.dataSize then (⟨node :: rest, some (sz, node.dataSize)⟩, node.content.take sz)
      else
        let r := readLoop rest (sz - node.dataSize)
        (r.1, node.content ++ r.2)
    else readLoop rest sz

def dcQueueReadMore : DcQueueList × Bytes := readLoop q.blockList.tail sz

/-- `Peek`: the bytes at the pointer returned; `none` where it is null. -/
def peek : Option Bytes :=
  if sz ≤ q.getCurrBlockSize then
    match q.mem with
    | some _ => some (q.currBlock.take sz)
    | none => none
  else (peekLoop q.blockList.tail (sz - q.getCurrBlockSize)).map (q.currBlock ++ ·)

def isSizeEnough : Bool :=
  if sz ≤ q.getCurrBlockSize then true else hasMoreLoop q.blockList.tail 0 (sz - q.getCurrBlockSize)

def popConsumed : DcQueueList :=
  if sz < q.getCurrBlockSize then { q with mem := q.mem.map fun mem => (mem.1 + sz, mem.2) }
  else q.dcQueueRemoveMore (sz - q.getCurrBlockSize)

def read : DcQueueList × Bytes :=
  let usedCurr := if sz < q.getCurrBlockSize then sz else q.getCurrBlockSize
  if usedCurr = 0 then (q, [])
  else if sz ≤ usedCurr then (q.popConsumed sz, q.currBlock.take sz)
  else
    let r := q.dcQueueReadMore (sz - usedCurr)
    (r.1, q.currBlock.take usedCurr ++ r.2)

/-- `Fetch`: the size returned and the bytes copied. -/
def fetch : DcQueueList × ℕ × Bytes :=
  match q.peek sz with
  | some ptr => (q.popConsumed sz, sz, ptr)
  | none => (q, 0, [])

/-- The loop of `PopUnknownChar`. A turn that finds no `ch` gives up a node, so that the
number of nodes bounds the number of turns. -/
def popUnknownLoop (ch : UInt8) : ℕ → DcQueueList → DcQueueList × ℕ
  | 0, q => (q, 0)
  | fuel + 1, q =>
    match q.mem with
    | none => (q, 0)
    | some _ =>
      match q.currBlock.findIdx? (· == ch) with
      | some sz => if 0 < sz then (q.popConsumed sz, sz) else (q, 0)
      | none =>
        let r := popUnknownLoop ch fuel (q.popConsumed q.getCurrBlockSize)
        (r.1, q.getCurrBlockSize + r.2)

def popUnknownChar (ch : UInt8) : DcQueueList × ℕ := popUnknownLoop ch (q.blockList.length + 1) q

/-- `push_back`, of a node or of a list. -/
def pushBack (buf : List BufferNode) : DcQueueList :=
  frontToCurrBlock { q with blockList := q.blockList ++ buf }

/-- `BackExpanded`. -/
def backExpanded : DcQueueList :=
  match q.blockList with
  | [back] => { q with mem := q.mem.map fun mem => (mem.1, back.dataSize) }
  | _ => q

/-- `Append`. Where no node can be allocated it raises before anything has changed. -/
def append (src : Bytes) (remainSize : ℕ) : DcQueueList :=
  let q : DcQueueList := { q with blockList := appendToBuffer q.blockList src remainSize }
  if q.mem.isSome then q.backExpanded else q.frontToCurrBlock

def calcSize : ℕ :=
  match q.blockList with
  | [] => 0
  | _ :: rest => q.getCurrBlockSize + calcDataSize rest

/-- `MoveOutToList`, the front node without what has been used of it (`cfront`). -/
def moveOutToList : DcQueueList × List BufferNode :=
  match q.blockList with
  | [] => (q, [])
  | front :: rest => ({}, (front.moveDataBeginOffset (q.mem.elim 0 Prod.fst)) :: rest)

end DcQueueList

end Fon9.Buffer
