import Fon9.Buffer.Blocks

/-! The notices that control nodes get from a `DcQueueList`. Without them, and with the
control nodes all alike, this is the queue of `DcQueueList`. -/

namespace Fon9.Buffer.Notify

/-- A data node, with the room behind its data, or the control node `vnode`. -/
inductive Node (C : Type*)
  | data (content : Bytes) (remainSize : ℕ)
  | virtual (vnode : C)

/-- `OnBufferConsumed` and `OnBufferConsumedErr`. -/
inductive Notice
  | consumed
  | consumedErr
  deriving DecidableEq

/-- The notices given, in order. -/
abbrev Notices (C : Type*) := List (C × Notice)

variable {C : Type*}

namespace Node

def dataSize : Node C → ℕ
  | data content _ => content.length
  | virtual _ => 0

/-- `NodeConsumed`. -/
def nodeConsumed : Node C → Notices C
  | data _ _ => []
  | virtual vnode => [(vnode, .consumed)]

/-- `NodeConsumed` with an error. -/
def nodeConsumedErr : Node C → Notices C
  | data _ _ => []
  | virtual vnode => [(vnode, .consumedErr)]

/-- The node without its identity. -/
def erase : Node C → BufferNode
  | data content remainSize => .data content remainSize
  | virtual _ => .virtual

end Node

/-- `DcQueueList`; `mem` as there. -/
structure Queue (C : Type*) where
  blockList : List (Node C) := []
  mem : Option (ℕ × ℕ) := none

namespace Queue

variable (q : Queue C)

def getCurrBlockSize : ℕ :=
  match q.mem with
  | some (current, memEnd) => memEnd - current
  | none => 0

/-- The loop of `FrontToCurrBlock`. -/
def frontLoop : List (Node C) → Queue C × Notices C
  | [] => ({}, [])
  | front :: rest =>
    if 0 < front.dataSize then (⟨front :: rest, some (0, front.dataSize)⟩, [])
    else
      let r := frontLoop rest
      (r.1, front.nodeConsumed ++ r.2)

def frontToCurrBlock : Queue C × Notices C :=
  if q.mem.isSome then (q, []) else frontLoop q.blockList

/-- The loop of `DcQueueRemoveMore`. -/
def removeLoop : List (Node C) → ℕ → Queue C × Notices C
  | [], _ => ({}, [])
  | node :: rest, sz =>
    if 0 < node.dataSize then
      if sz < node.dataSize then (⟨node :: rest, some (sz, node.dataSize)⟩, [])
      else
        let r := removeLoop rest (sz - node.dataSize)
        (r.1, node.nodeConsumed ++ r.2)
    else
      let r := removeLoop rest sz
      (r.1, node.nodeConsumed ++ r.2)

def dcQueueRemoveMore (sz : ℕ) : Queue C × Notices C :=
  match q.blockList with
  | [] => (q, [])
  | front :: rest =>
    let r := removeLoop rest sz
    (r.1, front.nodeConsumed ++ r.2)

/-- The loop of `DcQueueReadMore`, without the bytes read. -/
def readLoop : List (Node C) → ℕ → Queue C × Notices C
  | [], _ => ({}, [])
  | node :: rest, sz =>
    if 0 < node.dataSize then
      if sz < node.dataSize then (⟨node :: rest, some (sz, node.dataSize)⟩, [])
      else
        let r := readLoop rest (sz - node.dataSize)
        (r.1, node.nodeConsumed ++ r.2)
    else
      let r := readLoop rest sz
      (r.1, node.nodeConsumed ++ r.2)

/-- `DcQueueReadMore`, called where there is a front node. -/
def dcQueueReadMore (sz : ℕ) : Queue C × Notices C :=
  match q.blockList with
  | [] => ({}, [])
  | front :: rest =>
    let r := readLoop rest sz
    (r.1, front.nodeConsumed ++ r.2)

def popConsumed (sz : ℕ) : Queue C × Notices C :=
  if sz < q.getCurrBlockSize then ({ q with mem := q.mem.map fun mem => (mem.1 + sz, mem.2) }, [])
  else q.dcQueueRemoveMore (sz - q.getCurrBlockSize)

def read (sz : ℕ) : Queue C × Notices C :=
  let usedCurr := if sz < q.getCurrBlockSize then sz else q.getCurrBlockSize
  if usedCurr = 0 then (q, [])
  else if sz ≤ usedCurr then q.popConsumed sz
  else q.dcQueueReadMore (sz - usedCurr)

def popConsumedAll : Queue C × Notices C := ({}, q.blockList.flatMap Node.nodeConsumed)

/-- `push_back`, of a node or of a list; also the constructor from a list. -/
def pushBack (buf : List (Node C)) : Queue C × Notices C :=
  frontToCurrBlock { q with blockList := q.blockList ++ buf }

/-- The loop of `ConsumeErr`. It notifies, and so does `NodeConsumed`. -/
def errLoop : List (Node C) → Notices C
  | [] => []
  | node :: rest =>
    (match node with
      | .virtual vnode => [(vnode, .consumedErr)]
      | .data _ _ => []) ++ node.nodeConsumedErr ++ errLoop rest

def consumeErr : Queue C × Notices C :=
  match q.blockList with
  | [] => (q, [])
  | node :: rest => ({}, node.nodeConsumedErr ++ errLoop rest)

/-- `~DcQueueList`. -/
def destroy : Queue C × Notices C := if q.blockList.isEmpty then (q, []) else q.consumeErr

/-! ### Without the notices -/

/-- The queue of `DcQueueList`. -/
def erase : DcQueueList := ⟨q.blockList.map Node.erase, q.mem⟩

/-- `DcQueueReadMore` gives up the nodes that `DcQueueRemoveMore` does. -/
theorem readLoop_eq (nodes : List (Node C)) (sz : ℕ) : readLoop nodes sz = removeLoop nodes sz := by
  induction nodes generalizing sz with
  | nil => rfl
  | cons node rest ih => rw [readLoop, removeLoop, ih, ih]

/-- With no bytes to remove, it looks for the next data as `FrontToCurrBlock` does. -/
theorem frontLoop_eq (nodes : List (Node C)) : frontLoop nodes = removeLoop nodes 0 := by
  induction nodes with
  | nil => rfl
  | cons node rest ih =>
    rw [frontLoop, removeLoop, ih]
    by_cases hpos : 0 < node.dataSize
    · rw [if_pos hpos, if_pos hpos, if_pos hpos]
    · rw [if_neg hpos, if_neg hpos]

end Queue

end Fon9.Buffer.Notify
