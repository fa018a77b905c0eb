import Fon9.Base.StrTo
import Fon9.Lib.Segment

/-! A buffer that is filled from its end to its front: a list of nodes, the front one of which is
written through `MemBegin_` and `MemCurrent_`, which are ahead of what the node itself says until
they are written back. The nodes hold the pieces that are put into it one after the other, the last
one first, so that what is moved out is their concatenation. -/

namespace Fon9.Buffer.Builder

open Lib List

/-- A data node: its memory from `GetMemBegin()` to `GetMemEnd()`, and where its data is. `pushed`
tells which push has brought a node that its caller may still fill behind its data. -/
structure DataNode where
  mem : Bytes
  dataBegin : ℕ
  dataEnd : ℕ
  pushed : Option ℕ := none
  begin_le : dataBegin ≤ dataEnd
  end_le : dataEnd ≤ mem.length

variable {bytes : Bytes} {k : ℕ}

namespace DataNode

variable (node : DataNode)

def dataSize : ℕ := node.dataEnd - node.dataBegin

def content : Bytes := segment node.mem node.dataBegin node.dataSize

/-- `RevBufferNode::GetRemainSize`; the offsets are from `GetMemBegin()`. -/
def frontSpaces : ℕ := node.dataBegin

/-- `FwdBufferNode::GetRemainSize` -/
def backSpaces : ℕ := node.mem.length - node.dataEnd

/-- Bytes written to the memory, which leaves the offsets alone. -/
def write (off : ℕ) (bytes : Bytes) : DataNode :=
  { node with
    mem := overwrite node.mem off bytes
    end_le := node.end_le.trans (length_le_overwrite _ _ _) }

/-- `SetPrefixUsed`, which asserts that `pout` is not behind where the data begins. -/
def setPrefixUsed (pout : ℕ) : DataNode :=
  { node with
    dataBegin := min pout node.dataBegin
    begin_le := (min_le_right _ _).trans node.begin_le }

/-- `SetDataEnd`, which asserts that `pend` is not in front of where the data ends, and in the memory. -/
def setDataEnd (pend : ℕ) : DataNode :=
  { node with
    dataEnd := max node.dataEnd (min pend node.mem.length)
    begin_le := node.begin_le.trans (le_max_left _ _)
    end_le := max_le node.end_le (min_le_right _ _) }

/-- Bytes put in front of the place `pout`. -/
def prepend (pout : ℕ) (bytes : Bytes) : DataNode :=
  (node.write (pout - bytes.length) bytes).setPrefixUsed (pout - bytes.length)

/-- Bytes put behind the data. -/
def append (bytes : Bytes) : DataNode :=
  (node.write node.dataEnd bytes).setDataEnd (node.dataEnd + bytes.length)

variable {node}

theorem length_content : node.content.length = node.dataSize := by
  have hend := node.end_le
  have hbegin := node.begin_le
  rw [content, length_segment]
  rw [dataSize]
  omega

@[simp] theorem setPrefixUsed_dataBegin (node : DataNode) : node.setPrefixUsed node.dataBegin = node := by
  simp only [setPrefixUsed, min_self]

theorem setPrefixUsed_setPrefixUsed {pout pout' : ℕ} (h : pout' ≤ pout) :
    (node.setPrefixUsed pout).setPrefixUsed pout' = node.setPrefixUsed pout' := by
  simp only [setPrefixUsed, ← min_assoc, min_eq_left h]

/-- What is written ends at `pout`, and what lay behind that is as it was. -/
theorem content_prepend {pout : ℕ} (hlen : bytes.length ≤ pout) (hpout : pout ≤ node.dataBegin) :
    (node.prepend pout bytes).content = bytes ++ (node.setPrefixUsed pout).content := by
  have hend := node.end_le
  have hbegin := node.begin_le
  have hroom : pout - bytes.length + bytes.length ≤ node.mem.length := by omega
  have hle : pout - bytes.length ≤ node.dataBegin := by omega
  have hsize : node.dataEnd - (pout - bytes.length) = bytes.length + (node.dataEnd - pout) := by omega
  simp only [prepend, setPrefixUsed, content, dataSize, write, min_eq_left hle, min_eq_left hpout]
  rw [hsize, segment_add, segment_overwrite hroom, segment_overwrite_apart hroom (.inl (by omega)),
    Nat.sub_add_cancel hlen]

theorem content_append (hroom : bytes.length ≤ node.backSpaces) :
    (node.append bytes).content = node.content ++ bytes := by
  have hend := node.end_le
  have hbegin := node.begin_le
  rw [backSpaces] at hroom
  have hin : node.dataEnd + bytes.length ≤ node.mem.length := by omega
  have hset : max node.dataEnd (min (node.dataEnd + bytes.length) (overwrite node.mem node.dataEnd bytes).length) =
      node.dataEnd + bytes.length := by
    rw [length_overwrite hin]
    omega
  have hsize : node.dataEnd + bytes.length - node.dataBegin = (node.dataEnd - node.dataBegin) + bytes.length := by omega
  simp only [append, setDataEnd, write, content, dataSize, hset]
  rw [hsize, segment_add, segment_overwrite_apart hin (.inr (by omega)), Nat.add_sub_cancel' hbegin, segment_overwrite hin]

end DataNode

/-- A data node, or a control node. -/
inductive BufferNode
  | data (node : DataNode)
  | virtual

namespace BufferNode

def content : BufferNode → Bytes
  | data node => node.content
  | virtual => []

def dataSize : BufferNode → ℕ
  | data node => node.dataSize
  | virtual => 0

/-- The number of the push that brought the node. -/
def pushed : BufferNode → Option ℕ
  | data node => node.pushed
  | virtual => none

/-- A node that is brought by push `k`, or that nobody fills any more. -/
def withPushed (k : Option ℕ) : BufferNode → BufferNode
  | data node => data { node with pushed := k }
  | virtual => virtual

theorem length_content (node : BufferNode) : node.content.length = node.dataSize := by
  cases node with
  | data node => exact node.length_content
  | virtual => rfl

@[simp] theorem content_withPushed (k : Option ℕ) (node : BufferNode) : (node.withPushed k).content = node.content := by
  cases node <;> rfl

end BufferNode

/-- `CalcDataSize` -/
def calcDataSize : List BufferNode → ℕ
  | [] => 0
  | node :: rest => node.dataSize + calcDataSize rest

variable (nodes : List BufferNode)

/-- What `CopyNodeList` copies. -/
def copyNodeList : Bytes := nodes.flatMap BufferNode.content

theorem length_copyNodeList : (copyNodeList nodes).length = calcDataSize nodes := by
  induction nodes with
  | nil => rfl
  | cons node rest ih =>
    rw [copyNodeList, flatMap_cons, length_append, node.length_content, calcDataSize, ← ih]
    rfl

/-- Memory for a node of the size at least, with any bytes in it; none where that fails. -/
abbrev Alloc := (size : ℕ) → Option { mem : Bytes // size ≤ mem.length }

/-! ### The list of nodes -/

/-- `MergeNodeData`: `next` with the data of `front` in front, where there is room. -/
def mergeNodeData (front : BufferNode) (next : Option BufferNode) : Option BufferNode :=
  match front, next with
  | .data front, some (.data next) =>
    if next.frontSpaces < front.dataSize then none else some (.data (next.prepend next.dataBegin front.content))
  | _, _ => none

/-- `RevBufferListBuilder::PushFront` -/
def builderPushFront (list : List BufferNode) (node : BufferNode) : List BufferNode :=
  match mergeNodeData node list.head? with
  | some next => next :: list.tail
  | none => node :: list

/-- `RevBufferListBuilder::MoveOut` -/
def builderMoveOut (list : List BufferNode) : List BufferNode :=
  match list with
  | front :: next :: rest =>
    match mergeNodeData front (some next) with
    | some next => next :: rest
    | none => front :: next :: rest
  | list => list

/-- `RevBufferNode`, new: its data begins and ends at the end of its memory. -/
def newRevNode (mem : Bytes) : DataNode := ⟨mem, mem.length, mem.length, none, le_rfl, le_rfl⟩

/-- `MemBegin_` and `MemCurrent_` are places in the front node, `none` where they are null;
`pushCount` numbers the nodes that are pushed. -/
structure RevBufferList where
  newAllocReserved : ℕ
  list : List BufferNode := []
  mem : Option (ℕ × ℕ) := none
  pushCount : ℕ := 0

open RevBufferList

namespace RevBufferList

variable (s : RevBufferList)

/-- The list behind `SetFrontNodeUsed`. -/
def used : List BufferNode :=
  match s.mem, s.list with
  | some (_, memCurrent), .data front :: rest => .data (front.setPrefixUsed memCurrent) :: rest
  | _, list => list

def setFrontNodeUsed : RevBufferList := { s with list := s.used }

/-- `ResetMemPtr` with `GetFront`. -/
def resetMemPtr : RevBufferList :=
  { s with
    mem :=
      match s.list with
      | .data front :: _ => some (front.dataBegin - front.frontSpaces, front.dataBegin)
      | _ => none }

/-- On a list of nodes that is moved in. -/
def ofBufferList (newAllocReserved : ℕ) (buf : List BufferNode) : RevBufferList :=
  ({ newAllocReserved := newAllocReserved, list := buf.map (·.withPushed none) } : RevBufferList).resetMemPtr

variable (alloc : Alloc)

/-- `OnRevBufferAlloc`; false where it raises. -/
def onRevBufferAlloc (sz : ℕ) : RevBufferList × Bool :=
  let s := s.setFrontNodeUsed
  match alloc (sz + s.newAllocReserved) with
  | none => (s, false)
  | some mem => ({ s with list := .data (newRevNode mem.val) :: s.list }.resetMemPtr, true)

/-- The room in front of `MemCurrent_`. -/
def room : ℕ :=
  match s.mem with
  | some (memBegin, memCurrent) => memCurrent - memBegin
  | none => 0

/-- `AllocPrefix` -/
def allocPrefix (sz : ℕ) : RevBufferList × Bool :=
  if sz ≤ s.room then (s, true) else s.onRevBufferAlloc alloc sz

/-- Bytes written in front of what `AllocPrefix` has returned, and `SetPrefixUsed`. -/
def writePrefix (bytes : Bytes) : RevBufferList :=
  match s.mem, s.list with
  | some (memBegin, memCurrent), .data front :: rest =>
    { s with
      list := .data (front.write (memCurrent - bytes.length) bytes) :: rest
      mem := some (memBegin, memCurrent - bytes.length) }
  | _, _ => s

/-- `AllocPrefix` of `spare` bytes more than are then written; `AllocPacket` has none to spare. -/
def put (spare : ℕ) (bytes : Bytes) : RevBufferList × Bool :=
  match s.allocPrefix alloc (bytes.length + spare) with
  | (s, true) => (s.writePrefix bytes, true)
  | (s, false) => (s, false)

/-- `RevPutMem` -/
def revPutMem (bytes : Bytes) : RevBufferList × Bool :=
  if 0 < bytes.length then s.put alloc 0 bytes else (s, true)

/-- `RevPrint` of a list of nodes. -/
def revPrint (nodes : List BufferNode) : RevBufferList × Bool :=
  if 0 < calcDataSize nodes then s.put alloc 0 (copyNodeList nodes) else (s, true)

/-- `PushFront` of a node that is in no list. -/
def pushFront (node : BufferNode) : RevBufferList :=
  let s := s.setFrontNodeUsed
  { s with
    list := builderPushFront s.list (node.withPushed (some s.pushCount))
    pushCount := s.pushCount + 1 }.resetMemPtr

/-- The caller goes on filling the node of push `k` behind its data, where it is still in the list
and has room; false where it may not. -/
def extendNodes (k : ℕ) (bytes : Bytes) : List BufferNode → List BufferNode × Bool
  | [] => ([], false)
  | .data node :: rest =>
    if node.pushed = some k then
      if bytes.length ≤ node.backSpaces then (.data (node.append bytes) :: rest, true) else (.data node :: rest, false)
    else
      let r := extendNodes k bytes rest
      (.data node :: r.1, r.2)
  | .virtual :: rest =>
    let r := extendNodes k bytes rest
    (.virtual :: r.1, r.2)

def extend (k : ℕ) (bytes : Bytes) : RevBufferList × Bool :=
  let r := extendNodes k bytes s.list
  ({ s with list := r.1 }, r.2)

/-- `MoveOut` -/
def moveOut : RevBufferList × List BufferNode :=
  ({ s with list := [], mem := none }, builderMoveOut s.used)

end RevBufferList

/-! ### Pieces -/

/-- A piece, and the number of the push that brought it. -/
abbrev Piece := Option ℕ × Bytes

variable (pieces : List Piece)

/-- The bytes of all the pieces. -/
def total : Bytes := pieces.flatMap Prod.snd

def numbers : List ℕ := pieces.filterMap Prod.fst

@[simp] theorem total_cons (piece : Piece) (pieces : List Piece) : total (piece :: pieces) = piece.2 ++ total pieces :=
  flatMap_cons

@[simp] theorem total_append (l l' : List Piece) : total (l ++ l') = total l ++ total l' := flatMap_append

@[simp] theorem numbers_append (l l' : List Piece) : numbers (l ++ l') = numbers l ++ numbers l' := filterMap_append

@[simp] theorem numbers_cons_some (k : ℕ) (bytes : Bytes) (pieces : List Piece) :
    numbers ((some k, bytes) :: pieces) = k :: numbers pieces := rfl

/-- More bytes behind the piece of push `k`. -/
def Piece.extend (k : ℕ) (bytes : Bytes) (piece : Piece) : Piece :=
  if piece.1 = some k then (piece.1, piece.2 ++ bytes) else piece

theorem map_extend_of_notMem {pieces : List Piece} (h : k ∉ numbers pieces) (bytes : Bytes) :
    pieces.map (Piece.extend k bytes) = pieces := by
  have hself : ∀ piece ∈ pieces, piece.extend k bytes = piece := by
    intro piece hpiece
    refine if_neg fun heq => h ?_
    exact mem_filterMap.mpr ⟨piece, hpiece, heq⟩
  rw [map_congr_left hself, map_id']

@[simp] theorem numbers_map_extend (k : ℕ) (bytes : Bytes) (pieces : List Piece) :
    numbers (pieces.map (Piece.extend k bytes)) = numbers pieces := by
  rw [numbers, numbers, filterMap_map]
  congr 1
  funext piece
  rw [Function.comp_apply, Piece.extend]
  split <;> rfl

/-! ### The calls -/

inductive Op
  | put (spare : ℕ) (bytes : Bytes)
  | revPutMem (bytes : Bytes)
  | revPrint (nodes : List BufferNode)
  | pushFront (node : BufferNode)
  | extend (k : ℕ) (bytes : Bytes)
  | moveOut

/-- A builder, the pieces that it has taken since it was last emptied, and each list that was moved
out of it with the pieces taken for it. -/
structure Session where
  buf : RevBufferList
  pieces : List Piece := []
  out : List (List BufferNode × List Piece) := []

namespace Session

/-- The pieces are taken where the call has not raised. -/
def taken (s : Session) (r : RevBufferList × Bool) (pieces : List Piece) : Session :=
  { s with buf := r.1, pieces := if r.2 then pieces else s.pieces }

def step (alloc : Alloc) (s : Session) : Op → Session
  | .put spare bytes => s.taken (s.buf.put alloc spare bytes) ((none, bytes) :: s.pieces)
  | .revPutMem bytes => s.taken (s.buf.revPutMem alloc bytes) ((none, bytes) :: s.pieces)
  | .revPrint nodes => s.taken (s.buf.revPrint alloc nodes) ((none, copyNodeList nodes) :: s.pieces)
  | .pushFront node => s.taken (s.buf.pushFront node, true) ((some s.buf.pushCount, node.content) :: s.pieces)
  | .extend k bytes => s.taken (s.buf.extend k bytes) (s.pieces.map (Piece.extend k bytes))
  | .moveOut =>
    let r := s.buf.moveOut
    { buf := r.1, pieces := [], out := s.out ++ [(r.2, s.pieces)] }

/-- A builder on a list of nodes, each of them a piece. -/
def ofBufferList (newAllocReserved : ℕ) (buf : List BufferNode) : Session :=
  { buf := .ofBufferList newAllocReserved buf, pieces := buf.map fun node => (none, node.content) }

end Session

/-! ### The nodes hold the pieces -/

/-- A node holds the pieces, and behind the one that was pushed with it there are no more bytes. -/
structure Fills (node : BufferNode) (pieces : List Piece) : Prop where
  content : total pieces = node.content
  last : ∀ k, node.pushed = some k → ∃ before bytes behind, pieces = before ++ (some k, bytes) :: behind ∧ total behind = []

/-- The nodes hold the pieces one after the other; in front there may be pieces with no bytes. -/
def Hold : Prop :=
  ∃ front groups, total front = [] ∧ List.Forall₂ Fills nodes groups ∧ pieces = front ++ groups.flatten

variable {nodes rest : List BufferNode} {pieces : List Piece} {node next : BufferNode} {piece : Piece}

theorem Fills.cons {group : List Piece} (h : Fills node group) {before : List Piece} (hcontent : next.content = total before ++ node.content)
    (hpushed : next.pushed = node.pushed) : Fills next (before ++ group) := by
  refine ⟨?_, fun k hk => ?_⟩
  · rw [total_append, h.content, hcontent]
  · obtain ⟨before', bytes, behind, rfl, hbehind⟩ := h.last k (hpushed ▸ hk)
    exact ⟨before ++ before', bytes, behind, (append_assoc _ _ _).symm, hbehind⟩

variable {groups : List (List Piece)}

theorem total_flatten (h : List.Forall₂ Fills nodes groups) :
    total groups.flatten = copyNodeList nodes := by
  induction h with
  | nil => rfl
  | cons hfills _ ih =>
    rw [flatten_cons, total_append, hfills.content, ih]
    rfl

theorem Hold.total_eq (h : Hold nodes pieces) : total pieces = copyNodeList nodes := by
  obtain ⟨front, groups, hfront, hgroups, rfl⟩ := h
  rw [total_append, hfront, total_flatten hgroups]
  rfl

/-- A piece goes into the first node. -/
theorem Hold.cons (h : Hold (node :: rest) pieces) (hcontent : next.content = piece.2 ++ node.content)
    (hpushed : next.pushed = node.pushed) : Hold (next :: rest) (piece :: pieces) := by
  obtain ⟨front, groups, hfront, hgroups, rfl⟩ := h
  cases hgroups with
  | @cons _ group _ groups hfills hrest =>
    have hbefore : next.content = total (piece :: front) ++ node.content := by
      rw [total_cons, hfront, append_nil, hcontent]
    refine ⟨[], (piece :: front ++ group) :: groups, rfl, .cons (hfills.cons hbefore hpushed) hrest, ?_⟩
    simp

/-- A node that has no data and has not been pushed. -/
theorem Hold.newFront (h : Hold nodes pieces) (hcontent : node.content = []) (hpushed : node.pushed = none) :
    Hold (node :: nodes) pieces := by
  obtain ⟨front, groups, hfront, hgroups, rfl⟩ := h
  refine ⟨front, [] :: groups, hfront, .cons ⟨hcontent.symm, fun k hk => ?_⟩ hgroups, rfl⟩
  rw [hpushed] at hk
  cases hk

/-- A piece with no bytes. -/
theorem Hold.consNil (h : Hold nodes pieces) (hpiece : piece.2 = []) : Hold nodes (piece :: pieces) := by
  obtain ⟨front, groups, hfront, hgroups, rfl⟩ := h
  refine ⟨piece :: front, groups, ?_, hgroups, rfl⟩
  rw [total_cons, hpiece, hfront]
  rfl

/-- A node goes in front with a piece of its own. -/
theorem Hold.push (h : Hold nodes pieces) (hcontent : node.content = piece.2)
    (hpushed : ∀ k, node.pushed = some k → piece.1 = some k) : Hold (node :: nodes) (piece :: pieces) := by
  obtain ⟨front, groups, hfront, hgroups, rfl⟩ := h
  refine ⟨[], (piece :: front) :: groups, rfl, .cons ⟨?_, fun k hk => ⟨[], piece.2, front, ?_, hfront⟩⟩ hgroups, rfl⟩
  · rw [total_cons, hfront, append_nil, hcontent]
  · rw [← hpushed k hk]
    rfl

/-- The data of the first node goes in front of that of the second. -/
theorem Hold.merge {front : BufferNode} (h : Hold (front :: node :: rest) pieces) (hcontent : next.content = front.content ++ node.content)
    (hpushed : next.pushed = node.pushed) : Hold (next :: rest) pieces := by
  obtain ⟨before, groups, hbefore, hgroups, rfl⟩ := h
  cases hgroups with
  | @cons _ group _ _ hfront hgroups =>
    cases hgroups with
    | @cons _ group' _ groups hfills hrest =>
      rw [← hfront.content] at hcontent
      refine ⟨before, (group ++ group') :: groups, hbefore, .cons (hfills.cons hcontent hpushed) hrest, ?_⟩
      simp

theorem mergeNodeData_eq {front : BufferNode} {next : Option BufferNode} {merged : BufferNode}
    (h : mergeNodeData front next = some merged) :
    ∃ node, next = some node ∧ merged.content = front.content ++ node.content ∧ merged.pushed = node.pushed := by
  cases front with
  | virtual => cases h
  | data front =>
    cases next with
    | none => cases h
    | some node =>
      cases node with
      | virtual => cases h
      | data node =>
        rw [mergeNodeData] at h
        split_ifs at h with hroom
        cases h
        refine ⟨_, rfl, ?_, rfl⟩
        have hlen : front.content.length ≤ node.dataBegin := by
          rw [front.length_content]
          exact not_lt.mp hroom
        show (node.prepend node.dataBegin front.content).content = _
        rw [DataNode.content_prepend hlen le_rfl, node.setPrefixUsed_dataBegin]
        rfl

theorem Hold.builderPushFront (h : Hold nodes pieces) (hcontent : node.content = piece.2)
    (hpushed : ∀ k, node.pushed = some k → piece.1 = some k) : Hold (builderPushFront nodes node) (piece :: pieces) := by
  rw [Builder.builderPushFront]
  cases hmerge : mergeNodeData node nodes.head? with
  | none => exact h.push hcontent hpushed
  | some merged =>
    obtain ⟨next, hnext, hcontent', hpushed'⟩ := mergeNodeData_eq hmerge
    cases nodes with
    | nil => cases hnext
    | cons node' rest =>
      cases hnext
      rw [hcontent] at hcontent'
      exact h.cons hcontent' hpushed'

theorem Hold.builderMoveOut (h : Hold nodes pieces) : Hold (builderMoveOut nodes) pieces := by
  cases nodes with
  | nil => exact h
  | cons front rest =>
    cases rest with
    | nil => exact h
    | cons node rest =>
      rw [Builder.builderMoveOut]
      cases hmerge : mergeNodeData front (some node) with
      | none => exact h
      | some merged =>
        obtain ⟨next, hnext, hcontent, hpushed⟩ := mergeNodeData_eq hmerge
        cases hnext
        exact h.merge hcontent hpushed

/-! ### A node that is filled on -/

theorem mem_numbers_of_extendNodes (h : List.Forall₂ Fills nodes groups)
    (hdone : (extendNodes k bytes nodes).2 = true) : k ∈ numbers groups.flatten := by
  induction h with
  | nil => cases hdone
  | @cons node group _ _ hfills _ ih =>
    rw [flatten_cons, numbers_append, mem_append]
    cases node with
    | virtual => exact .inr (ih hdone)
    | data node =>
      rw [extendNodes] at hdone
      by_cases hpushed : node.pushed = some k
      · obtain ⟨before, bytes', behind, rfl, -⟩ := hfills.last k hpushed
        exact .inl (by simp)
      · rw [if_neg hpushed] at hdone
        exact .inr (ih hdone)

/-- The node of push `k` with more bytes behind its data. -/
theorem Fills.append {node : DataNode} {group : List Piece} (h : Fills (.data node) group)
    (hnodup : (numbers group).Nodup) (hpushed : node.pushed = some k) (hroom : bytes.length ≤ node.backSpaces) :
    Fills (.data (node.append bytes)) (group.map (Piece.extend k bytes)) := by
  obtain ⟨before, bytes', behind, rfl, hbehind⟩ := h.last k hpushed
  rw [numbers_append, numbers_cons_some] at hnodup
  have hbefore : k ∉ numbers before := fun hk => (nodup_append.mp hnodup).2.2 k hk k mem_cons_self rfl
  have hbehind' : k ∉ numbers behind := (nodup_cons.mp (nodup_append.mp hnodup).2.1).1
  have hmap : (before ++ (some k, bytes') :: behind).map (Piece.extend k bytes) =
      before ++ (some k, bytes' ++ bytes) :: behind := by
    rw [map_append, map_cons, map_extend_of_notMem hbefore, map_extend_of_notMem hbehind', Piece.extend, if_pos rfl]
  rw [hmap]
  refine ⟨?_, fun k' hk' => ⟨before, bytes' ++ bytes, behind, ?_, hbehind⟩⟩
  · have hcontent := h.content
    rw [total_append, total_cons, hbehind, append_nil] at hcontent ⊢
    show _ = (node.append bytes).content
    rw [DataNode.content_append hroom, ← append_assoc, hcontent]
    rfl
  · obtain rfl : k = k' := Option.some.inj (hpushed.symm.trans hk')
    rfl

theorem forall₂_extendNodes (h : List.Forall₂ Fills nodes groups) (hnodup : (numbers groups.flatten).Nodup)
    (hdone : (extendNodes k bytes nodes).2 = true) :
    List.Forall₂ Fills (extendNodes k bytes nodes).1 (groups.map (List.map (Piece.extend k bytes))) := by
  induction h with
  | nil => cases hdone
  | @cons node group rest groups hfills hrest ih =>
    rw [flatten_cons, numbers_append, nodup_append] at hnodup
    obtain ⟨hgroup, hgroups, hapart⟩ := hnodup
    -- a node in front of the one that is filled holds none of its piece
    have hskip : (extendNodes k bytes rest).2 = true → group.map (Piece.extend k bytes) = group := by
      intro hdone
      refine map_extend_of_notMem (fun hk => ?_) bytes
      exact hapart k hk k (mem_numbers_of_extendNodes hrest hdone) rfl
    cases node with
    | virtual =>
      refine .cons ?_ (ih hgroups hdone)
      rw [hskip hdone]
      exact hfills
    | data node =>
      rw [extendNodes] at hdone ⊢
      by_cases hpushed : node.pushed = some k
      · rw [if_pos hpushed] at hdone ⊢
        obtain ⟨before, bytes', behind, hgroup', -⟩ := hfills.last k hpushed
        have hk : k ∈ numbers group := by simp [hgroup']
        have hstay : ∀ group' ∈ groups, group'.map (Piece.extend k bytes) = group' := by
          intro group' hmem
          refine map_extend_of_notMem (fun hk' => ?_) bytes
          refine hapart k hk k ?_ rfl
          obtain ⟨piece, hpiece, heq⟩ := mem_filterMap.mp hk'
          exact mem_filterMap.mpr ⟨piece, mem_flatten.mpr ⟨group', hmem, hpiece⟩, heq⟩
        by_cases hroom : bytes.length ≤ node.backSpaces
        · rw [if_pos hroom, map_cons, map_congr_left hstay, map_id']
          exact .cons (hfills.append hgroup hpushed hroom) hrest
        · rw [if_neg hroom] at hdone
          cases hdone
      · rw [if_neg hpushed] at hdone ⊢
        refine .cons ?_ (ih hgroups hdone)
        rw [hskip hdone]
        exact hfills

theorem Hold.extend (h : Hold nodes pieces) (hnodup : (numbers pieces).Nodup)
    (hdone : (extendNodes k bytes nodes).2 = true) :
    Hold (extendNodes k bytes nodes).1 (pieces.map (Piece.extend k bytes)) := by
  obtain ⟨front, groups, hfront, hgroups, rfl⟩ := h
  rw [numbers_append, nodup_append] at hnodup
  have hk : k ∉ numbers front := fun hk => hnodup.2.2 k hk k (mem_numbers_of_extendNodes hgroups hdone) rfl
  refine ⟨front, groups.map (List.map (Piece.extend k bytes)), hfront, forall₂_extendNodes hgroups hnodup.2.1 hdone, ?_⟩
  rw [map_append, map_extend_of_notMem hk, map_flatten]

/-! ### The builder holds the pieces -/

/-- The numbers of the pieces are different, and numbers of pushes that have been. -/
structure Numbered (pushCount : ℕ) (pieces : List Piece) : Prop where
  fresh : ∀ k ∈ numbers pieces, k < pushCount
  nodup : (numbers pieces).Nodup

theorem Numbered.push {count : ℕ} (h : Numbered count pieces) (bytes : Bytes) :
    Numbered (count + 1) ((some count, bytes) :: pieces) := by
  constructor
  · intro k hk
    rcases mem_cons.mp hk with rfl | hk
    · exact Nat.lt_succ_self _
    · exact Nat.lt_succ_of_lt (h.fresh k hk)
  · exact nodup_cons.mpr ⟨fun hk => (h.fresh count hk).false, h.nodup⟩

namespace RevBufferList

variable {s : RevBufferList} {alloc : Alloc}

/-- The pointers are into the front node, in front of its data. -/
def Cached (s : RevBufferList) : Prop :=
  ∀ memBegin memCurrent, s.mem = some (memBegin, memCurrent) →
    memBegin = 0 ∧ ∃ front rest, s.list = .data front :: rest ∧ memCurrent ≤ front.dataBegin

structure Inv (s : RevBufferList) (pieces : List Piece) : Prop where
  cached : s.Cached
  hold : Hold s.used pieces
  numbered : Numbered s.pushCount pieces

theorem resetMemPtr_cached (s : RevBufferList) : s.resetMemPtr.Cached := by
  intro memBegin memCurrent hmem
  cases hlist : s.list with
  | nil => simp [resetMemPtr, hlist] at hmem
  | cons node rest =>
    cases node with
    | virtual => simp [resetMemPtr, hlist] at hmem
    | data front =>
      simp only [resetMemPtr, hlist, Option.some.injEq, Prod.mk.injEq] at hmem
      obtain ⟨rfl, rfl⟩ := hmem
      exact ⟨Nat.sub_self _, front, rest, hlist, le_rfl⟩

theorem used_resetMemPtr (s : RevBufferList) : s.resetMemPtr.used = s.list := by
  cases hlist : s.list with
  | nil => simp [used, resetMemPtr, hlist]
  | cons node rest => cases node <;> simp [used, resetMemPtr, hlist]

theorem inv_resetMemPtr (hhold : Hold s.list pieces) (hnumbered : Numbered s.pushCount pieces) : s.resetMemPtr.Inv pieces :=
  ⟨s.resetMemPtr_cached, by rwa [used_resetMemPtr], hnumbered⟩

/-- Writing the pointer back once is enough. -/
theorem used_setFrontNodeUsed (s : RevBufferList) : s.setFrontNodeUsed.used = s.used := by
  cases hmem : s.mem with
  | none => simp [setFrontNodeUsed, used, hmem]
  | some mem =>
    cases hlist : s.list with
    | nil => simp [setFrontNodeUsed, used, hmem, hlist]
    | cons node rest =>
      cases node with
      | virtual => simp [setFrontNodeUsed, used, hmem, hlist]
      | data front => simp [setFrontNodeUsed, used, hmem, hlist, DataNode.setPrefixUsed_setPrefixUsed]

theorem Inv.setFrontNodeUsed (h : s.Inv pieces) : s.setFrontNodeUsed.Inv pieces := by
  refine ⟨?_, by rw [used_setFrontNodeUsed]; exact h.hold, h.numbered⟩
  intro memBegin memCurrent hmem
  replace hmem : s.mem = some (memBegin, memCurrent) := hmem
  obtain ⟨hzero, front, rest, hlist, hle⟩ := h.cached _ _ hmem
  refine ⟨hzero, front.setPrefixUsed memCurrent, rest, ?_, ?_⟩
  · show s.used = _
    rw [used, hmem, hlist]
  · exact le_min le_rfl hle

theorem Inv.allocPrefix (h : s.Inv pieces) (alloc : Alloc) (sz : ℕ) :
    (s.allocPrefix alloc sz).1.Inv pieces ∧ ((s.allocPrefix alloc sz).2 = true → sz ≤ (s.allocPrefix alloc sz).1.room) := by
  rw [RevBufferList.allocPrefix]
  split
  · rename_i hroom
    exact ⟨h, fun _ => hroom⟩
  · rw [onRevBufferAlloc]
    cases halloc : alloc (sz + s.setFrontNodeUsed.newAllocReserved) with
    | none => exact ⟨h.setFrontNodeUsed, fun hdone => by cases hdone⟩
    | some mem =>
      have hempty : (BufferNode.data (newRevNode mem.val)).content = [] := by
        apply eq_nil_of_length_eq_zero
        rw [BufferNode.length_content]
        exact Nat.sub_self _
      refine ⟨inv_resetMemPtr (h.hold.newFront hempty rfl) h.numbered, fun _ => ?_⟩
      have hmem := mem.property
      show sz ≤ mem.val.length - (mem.val.length - mem.val.length)
      omega

/-- What is written into the room is a piece in front. -/
theorem Inv.writePrefix (h : s.Inv pieces) (hroom : bytes.length ≤ s.room) :
    (s.writePrefix bytes).Inv ((none, bytes) :: pieces) := by
  rw [RevBufferList.writePrefix]
  have hnumbered : Numbered s.pushCount ((none, bytes) :: pieces) := ⟨h.numbered.fresh, h.numbered.nodup⟩
  cases hmem : s.mem with
  | none =>
    rw [room, hmem] at hroom
    exact ⟨h.cached, h.hold.consNil (eq_nil_of_length_eq_zero (Nat.le_zero.mp hroom)), hnumbered⟩
  | some mem =>
    obtain ⟨memBegin, memCurrent⟩ := mem
    obtain ⟨hzero, front, rest, hlist, hle⟩ := h.cached _ _ hmem
    rw [room, hmem] at hroom
    have hhold := h.hold
    rw [used, hmem, hlist] at hhold
    rw [hlist]
    refine ⟨?_, ?_, hnumbered⟩
    · intro memBegin' memCurrent' hmem'
      cases hmem'
      exact ⟨hzero, _, rest, rfl, (Nat.sub_le _ _).trans hle⟩
    · have hlen : bytes.length ≤ memCurrent := by
        dsimp only at hroom
        omega
      show Hold (.data (front.prepend memCurrent bytes) :: rest) _
      exact hhold.cons (DataNode.content_prepend hlen hle) rfl

theorem Inv.put (h : s.Inv pieces) (spare : ℕ) (bytes : Bytes) :
    (s.put alloc spare bytes).1.Inv (if (s.put alloc spare bytes).2 then (none, bytes) :: pieces else pieces) := by
  obtain ⟨hinv, hroom⟩ := h.allocPrefix alloc (bytes.length + spare)
  rw [RevBufferList.put]
  rcases hr : s.allocPrefix alloc (bytes.length + spare) with ⟨t, done⟩
  rw [hr] at hinv hroom
  cases done with
  | false => exact hinv
  | true => exact hinv.writePrefix (le_trans (Nat.le_add_right _ _) (hroom rfl))

theorem Inv.consNil (h : s.Inv pieces) (hbytes : ¬ 0 < bytes.length) : s.Inv ((none, bytes) :: pieces) :=
  ⟨h.cached, h.hold.consNil (eq_nil_of_length_eq_zero (Nat.eq_zero_of_not_pos hbytes)), h.numbered.fresh, h.numbered.nodup⟩

theorem Inv.revPutMem (h : s.Inv pieces) (bytes : Bytes) :
    (s.revPutMem alloc bytes).1.Inv (if (s.revPutMem alloc bytes).2 then (none, bytes) :: pieces else pieces) := by
  rw [RevBufferList.revPutMem]
  split
  · exact h.put 0 bytes
  · rename_i hempty
    exact h.consNil hempty

theorem revPrint_eq (s : RevBufferList) (nodes : List BufferNode) :
    s.revPrint alloc nodes = s.revPutMem alloc (copyNodeList nodes) := by
  rw [revPrint, revPutMem, length_copyNodeList]

theorem Inv.pushFront (h : s.Inv pieces) (node : BufferNode) :
    (s.pushFront node).Inv ((some s.pushCount, node.content) :: pieces) := by
  refine inv_resetMemPtr (h.hold.builderPushFront (node.content_withPushed _) fun k hk => ?_) (h.numbered.push node.content)
  cases node with
  | data node => exact hk
  | virtual => cases hk

/-- Filling a node on is the same before and after the pointer is written back. -/
theorem used_extend (s : RevBufferList) (k : ℕ) (bytes : Bytes) :
    (s.extend k bytes).1.used = (extendNodes k bytes s.used).1 ∧ (s.extend k bytes).2 = (extendNodes k bytes s.used).2 := by
  rw [extend]
  cases hmem : s.mem with
  | none => simp [used, hmem]
  | some mem =>
    cases hlist : s.list with
    | nil => simp [used, hmem, hlist, extendNodes]
    | cons node rest =>
      cases node with
      | virtual => simp [used, hmem, hlist, extendNodes]
      | data front =>
        have hused : s.used = .data (front.setPrefixUsed mem.2) :: rest := by rw [used, hmem, hlist]
        have hpushed' : (front.setPrefixUsed mem.2).pushed = front.pushed := rfl
        have hback : (front.setPrefixUsed mem.2).backSpaces = front.backSpaces := rfl
        rw [hused, extendNodes, extendNodes, hpushed', hback]
        split_ifs
        · exact ⟨rfl, rfl⟩
        · exact ⟨rfl, rfl⟩
        · exact ⟨rfl, rfl⟩

theorem extendNodes_of_not (k : ℕ) (bytes : Bytes) (nodes : List BufferNode) (h : (extendNodes k bytes nodes).2 = false) :
    (extendNodes k bytes nodes).1 = nodes := by
  induction nodes with
  | nil => rfl
  | cons node rest ih =>
    cases node with
    | virtual =>
      rw [extendNodes] at h ⊢
      rw [ih h]
    | data node =>
      rw [extendNodes] at h ⊢
      split_ifs at h ⊢
      · rfl
      · exact congrArg (BufferNode.data node :: ·) (ih h)

theorem Inv.extend (h : s.Inv pieces) (k : ℕ) (bytes : Bytes) :
    (s.extend k bytes).1.Inv (if (s.extend k bytes).2 then pieces.map (Piece.extend k bytes) else pieces) := by
  obtain ⟨hused, hdone⟩ := s.used_extend k bytes
  have hcached : (s.extend k bytes).1.Cached := by
    intro memBegin memCurrent hmem
    obtain ⟨hzero, front, rest, hlist, hle⟩ := h.cached _ _ hmem
    show _ ∧ ∃ front rest, (extendNodes k bytes s.list).1 = _ ∧ _
    rw [hlist, extendNodes]
    split_ifs
    · exact ⟨hzero, front.append bytes, rest, rfl, hle⟩
    · exact ⟨hzero, front, rest, rfl, hle⟩
    · exact ⟨hzero, front, _, rfl, hle⟩
  rw [hdone]
  cases hr : (extendNodes k bytes s.used).2 with
  | false =>
    refine ⟨hcached, ?_, h.numbered⟩
    rw [hused, extendNodes_of_not k bytes _ hr]
    exact h.hold
  | true =>
    refine ⟨hcached, ?_, ?_, ?_⟩
    · rw [hused]
      exact h.hold.extend h.numbered.nodup hr
    · rw [if_pos rfl, numbers_map_extend]
      exact h.numbered.fresh
    · rw [if_pos rfl, numbers_map_extend]
      exact h.numbered.nodup

/-- What is moved out holds the pieces, and the builder is empty again. -/
theorem Inv.moveOut (h : s.Inv pieces) : s.moveOut.1.Inv [] ∧ Hold s.moveOut.2 pieces := by
  refine ⟨⟨?_, ⟨[], [], rfl, .nil, rfl⟩, ⟨?_, nodup_nil⟩⟩, ?_⟩
  · intro _ _ hmem
    cases hmem
  · intro k hk
    cases hk
  · exact h.hold.builderMoveOut

end RevBufferList

/-! ### Runs -/

namespace Session

/-- What is moved out is the pieces one after the other, and so long. -/
def IsConcat (nodes : List BufferNode) (pieces : List Piece) : Prop :=
  copyNodeList nodes = total pieces ∧ calcDataSize nodes = (pieces.map fun piece => piece.2.length).sum

theorem isConcat_of_hold (h : Hold nodes pieces) : IsConcat nodes pieces := by
  refine ⟨h.total_eq.symm, ?_⟩
  rw [← length_copyNodeList, ← h.total_eq, total, length_flatMap]

structure Inv (s : Session) : Prop where
  buf : s.buf.Inv s.pieces
  out : ∀ r ∈ s.out, IsConcat r.1 r.2

variable {s : Session} {alloc : Alloc}

theorem Inv.step (h : s.Inv) (op : Op) : (s.step alloc op).Inv := by
  cases op with
  | put spare bytes => exact ⟨h.buf.put spare bytes, h.out⟩
  | revPutMem bytes => exact ⟨h.buf.revPutMem bytes, h.out⟩
  | revPrint nodes =>
    rw [Session.step, revPrint_eq]
    exact ⟨h.buf.revPutMem _, h.out⟩
  | pushFront node => exact ⟨h.buf.pushFront node, h.out⟩
  | extend k bytes => exact ⟨h.buf.extend k bytes, h.out⟩
  | moveOut =>
    refine ⟨h.buf.moveOut.1, fun r hr => ?_⟩
    rcases mem_append.mp hr with hr | hr
    · exact h.out r hr
    · rw [mem_singleton.mp hr]
      exact isConcat_of_hold h.buf.moveOut.2

theorem run_inv (alloc : Alloc) (h : s.Inv) (ops : List Op) : (ops.foldl (Session.step alloc) s).Inv := by
  induction ops generalizing s with
  | nil => exact h
  | cons op ops ih => exact ih (h.step op)

end Session

end Fon9.Buffer.Builder
