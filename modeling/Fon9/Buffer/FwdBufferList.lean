import Fon9.Buffer.RevBufferList

/-! A buffer that is filled from its front to its end: a list of nodes, the back one of which is
written through `MemCurrent_` and `MemEnd_`. With the one that is filled from its end, the two
builders are lists of pieces to which each call adds one, at the back and in front. -/

namespace Fon9.Buffer.Builder

open Lib List DataNode DataNode

/-- `MergeNodeData`: `last` with the data of `node` behind its own, where there is room. -/
def mergeBack (last : Option BufferNode) (node : BufferNode) : Option BufferNode :=
  match last, node with
  | some (.data last), .data node => if last.backSpaces < node.dataSize then none else some (.data (last.append node.content))
  | _, _ => none

/-- `FwdBufferListBuilder::PushBack` -/
def builderPushBack (list : List BufferNode) (node : BufferNode) : List BufferNode :=
  match mergeBack list.getLast? node with
  | some last => list.dropLast ++ [last]
  | none => list ++ [node]

/-- `FwdBufferNode`, new: its data begins and ends at the beginning of its memory. -/
def newFwdNode (mem : Bytes) : DataNode := ⟨mem, 0, 0, none, le_rfl, Nat.zero_le _⟩

/-- `MemCurrent_` and `MemEnd_` are places in the back node, `none` where they are null. -/
structure FwdBufferList where
  newAllocReserved : ℕ
  list : List BufferNode := []
  mem : Option (ℕ × ℕ) := none

namespace FwdBufferList

variable (s : FwdBufferList)

/-- The list behind `SetBackNodeUsed`. -/
def used : List BufferNode :=
  match s.mem, s.list.getLast? with
  | some (memCurrent, _), some (.data back) => s.list.dropLast ++ [BufferNode.data (back.setDataEnd memCurrent)]
  | _, _ => s.list

def setBackNodeUsed : FwdBufferList := { s with list := s.used }

/-- `ResetMemPtr` with `GetBack`. -/
def resetMemPtr : FwdBufferList :=
  { s with
    mem :=
      match s.list.getLast? with
      | some (.data last) => some (last.dataEnd, last.dataEnd + last.backSpaces)
      | _ => none }

/-- On a list of nodes that is moved in. -/
def ofBufferList (newAllocReserved : ℕ) (buf : List BufferNode) : FwdBufferList :=
  ({ newAllocReserved := newAllocReserved, list := buf } : FwdBufferList).resetMemPtr

/-- `OnFwdBufferAlloc`; false where it raises. -/
def onFwdBufferAlloc (alloc : Alloc) (sz : ℕ) : FwdBufferList × Bool :=
  let s := s.setBackNodeUsed
  match alloc (sz + s.newAllocReserved) with
  | none => (s, false)
  | some mem => ({ s with list := s.list ++ [BufferNode.data (newFwdNode mem.val)] }.resetMemPtr, true)

/-- The room behind `MemCurrent_`. -/
def room : ℕ :=
  match s.mem with
  | some (memCurrent, memEnd) => memEnd - memCurrent
  | none => 0

/-- `AllocSuffix` -/
def allocSuffix (alloc : Alloc) (sz : ℕ) : FwdBufferList × Bool :=
  if sz ≤ s.room then (s, true) else s.onFwdBufferAlloc alloc sz

/-- Bytes written from what `AllocSuffix` has returned on, and `SetSuffixUsed`. -/
def writeSuffix (bytes : Bytes) : FwdBufferList :=
  match s.mem, s.list.getLast? with
  | some (memCurrent, memEnd), some (.data back) =>
    { s with
      list := s.list.dropLast ++ [.data (back.write memCurrent bytes)]
      mem := some (memCurrent + bytes.length, memEnd) }
  | _, _ => s

/-- `AllocSuffix` of `spare` bytes more than are then written. -/
def put (alloc : Alloc) (spare : ℕ) (bytes : Bytes) : FwdBufferList × Bool :=
  match s.allocSuffix alloc (bytes.length + spare) with
  | (s, true) => (s.writeSuffix bytes, true)
  | (s, false) => (s, false)

/-- `FwdPrint` of a list of nodes. -/
def fwdPrint (alloc : Alloc) (nodes : List BufferNode) : FwdBufferList × Bool :=
  if 0 < calcDataSize nodes then s.put alloc 0 (copyNodeList nodes) else (s, true)

/-- `PushBack` of a node that is in no list. -/
def pushBack (node : BufferNode) : FwdBufferList :=
  let s := s.setBackNodeUsed
  { s with list := builderPushBack s.list node }.resetMemPtr

/-- `PushBack` of a list. -/
def pushBackList (nodes : List BufferNode) : FwdBufferList :=
  let s := s.setBackNodeUsed
  { s with list := s.list ++ nodes }.resetMemPtr

/-- `MoveOut` -/
def moveOut : FwdBufferList × List BufferNode := ({ s with list := [], mem := none }, s.used)

end FwdBufferList

/-! ### The calls -/

inductive FwdOp
  | put (spare : ℕ) (bytes : Bytes)
  | fwdPrint (nodes : List BufferNode)
  | pushBack (node : BufferNode)
  | pushBackList (nodes : List BufferNode)
  | moveOut

/-- A builder, the pieces that it has taken since it was last emptied, and each list that was moved
out of it with the pieces taken for it. -/
structure FwdSession where
  buf : FwdBufferList
  pieces : List Bytes := []
  out : List (List BufferNode × List Bytes) := []

namespace FwdSession

/-- The piece is taken where the call has not raised. -/
def taken (s : FwdSession) (r : FwdBufferList × Bool) (bytes : Bytes) : FwdSession :=
  { s with buf := r.1, pieces := if r.2 then s.pieces ++ [bytes] else s.pieces }

def step (alloc : Alloc) (s : FwdSession) : FwdOp → FwdSession
  | .put spare bytes => s.taken (s.buf.put alloc spare bytes) bytes
  | .fwdPrint nodes => s.taken (s.buf.fwdPrint alloc nodes) (copyNodeList nodes)
  | .pushBack node => s.taken (s.buf.pushBack node, true) node.content
  | .pushBackList nodes => s.taken (s.buf.pushBackList nodes, true) (copyNodeList nodes)
  | .moveOut =>
    let r := s.buf.moveOut
    { buf := r.1, pieces := [], out := s.out ++ [(r.2, s.pieces)] }

/-- A builder on a list of nodes, each of them a piece. -/
def ofBufferList (newAllocReserved : ℕ) (buf : List BufferNode) : FwdSession :=
  { buf := .ofBufferList newAllocReserved buf, pieces := buf.map BufferNode.content }

end FwdSession

/-! ### The nodes hold the pieces -/

@[simp] theorem copyNodeList_append (l l' : List BufferNode) : copyNodeList (l ++ l') = copyNodeList l ++ copyNodeList l' :=
  flatMap_append

@[simp] theorem copyNodeList_singleton (node : BufferNode) : copyNodeList [node] = node.content := append_nil _

theorem copyNodeList_builderPushBack (nodes : List BufferNode) (node : BufferNode) :
    copyNodeList (builderPushBack nodes node) = copyNodeList nodes ++ node.content := by
  have hnew : copyNodeList (nodes ++ [node]) = copyNodeList nodes ++ node.content := by simp
  rw [builderPushBack]
  obtain rfl | ⟨front, last, rfl⟩ := nodes.eq_nil_or_concat
  · exact hnew
  · rw [concat_eq_append, getLast?_concat, dropLast_concat] at *
    cases last with
    | virtual => exact hnew
    | data last =>
      cases node with
      | virtual => exact hnew
      | data node =>
        rw [mergeBack]
        split_ifs with hroom
        · exact hnew
        · have hlen : node.content.length ≤ last.backSpaces := by
            rw [node.length_content]
            exact not_lt.mp hroom
          rw [copyNodeList_append, copyNodeList_append, copyNodeList_singleton, copyNodeList_singleton, append_assoc]
          congr 1
          exact content_append hlen

namespace FwdBufferList

variable {s : FwdBufferList} {alloc : Alloc} {pieces : List Bytes}

/-- The pointers are into the back node, behind its data. -/
def Cached (s : FwdBufferList) : Prop :=
  ∀ memCurrent memEnd, s.mem = some (memCurrent, memEnd) →
    ∃ front back, s.list = front ++ [BufferNode.data back] ∧ back.dataEnd ≤ memCurrent ∧ memCurrent ≤ memEnd ∧ memEnd = back.mem.length

structure Inv (s : FwdBufferList) (pieces : List Bytes) : Prop where
  cached : s.Cached
  hold : copyNodeList s.used = pieces.flatten

theorem resetMemPtr_cached (s : FwdBufferList) : s.resetMemPtr.Cached := by
  intro memCurrent memEnd hmem
  obtain hlist | ⟨front, last, hlist⟩ := s.list.eq_nil_or_concat
  · simp [resetMemPtr, hlist] at hmem
  · rw [concat_eq_append] at hlist
    cases last with
    | virtual => simp [resetMemPtr, hlist] at hmem
    | data last =>
      simp only [resetMemPtr, hlist, getLast?_concat, Option.some.injEq, Prod.mk.injEq] at hmem
      obtain ⟨rfl, rfl⟩ := hmem
      exact ⟨front, last, hlist, le_rfl, Nat.le_add_right _ _, Nat.add_sub_cancel' last.end_le⟩

theorem setDataEnd_dataEnd (node : DataNode) : node.setDataEnd node.dataEnd = node := by
  simp only [setDataEnd, min_eq_left node.end_le, max_self]

theorem used_resetMemPtr (s : FwdBufferList) : s.resetMemPtr.used = s.list := by
  obtain hlist | ⟨front, last, hlist⟩ := s.list.eq_nil_or_concat
  · simp [used, resetMemPtr, hlist]
  · rw [concat_eq_append] at hlist
    cases last <;> simp [used, resetMemPtr, hlist, setDataEnd_dataEnd]

theorem inv_resetMemPtr (hhold : copyNodeList s.list = pieces.flatten) : s.resetMemPtr.Inv pieces :=
  ⟨s.resetMemPtr_cached, by rwa [used_resetMemPtr]⟩

/-- Behind the pointer written back, the data ends there. -/
theorem used_of_mem (s : FwdBufferList) {memCurrent memEnd : ℕ} {front : List BufferNode} {back : DataNode}
    (hmem : s.mem = some (memCurrent, memEnd)) (hlist : s.list = front ++ [BufferNode.data back]) :
    s.used = front ++ [BufferNode.data (back.setDataEnd memCurrent)] := by
  rw [used, hmem, hlist, getLast?_concat, dropLast_concat]

theorem used_of_mem_none (s : FwdBufferList) (hmem : s.mem = none) : s.used = s.list := by
  rw [used, hmem]

section

variable (h : s.Inv pieces)
include h

theorem Inv.setBackNodeUsed : s.setBackNodeUsed.Inv pieces := by
  cases hmem : s.mem with
  | none =>
    have hself : s.setBackNodeUsed = s := by rw [FwdBufferList.setBackNodeUsed, used_of_mem_none s hmem]
    rw [hself]
    exact h
  | some mem =>
    obtain ⟨memCurrent, memEnd⟩ := mem
    obtain ⟨front, back, hlist, hdata, hle, hend⟩ := h.cached _ _ hmem
    have hused := s.used_of_mem hmem hlist
    have hend' : (back.setDataEnd memCurrent).dataEnd = memCurrent := by
      show max back.dataEnd (min memCurrent back.mem.length) = memCurrent
      omega
    constructor
    · intro memCurrent' memEnd' hmem'
      cases hmem.symm.trans hmem'
      exact ⟨front, back.setDataEnd memCurrent, hused, hend'.le, hle, hend⟩
    · rw [used_of_mem s.setBackNodeUsed hmem hused]
      have htwice : (back.setDataEnd memCurrent).setDataEnd memCurrent = back.setDataEnd memCurrent := by
        simp only [setDataEnd, max_assoc, max_self]
      rw [htwice, ← hused]
      exact h.hold

theorem Inv.allocSuffix (alloc : Alloc) (sz : ℕ) :
    (s.allocSuffix alloc sz).1.Inv pieces ∧ ((s.allocSuffix alloc sz).2 = true → sz ≤ (s.allocSuffix alloc sz).1.room) := by
  rw [FwdBufferList.allocSuffix]
  split
  · rename_i hroom
    exact ⟨h, fun _ => hroom⟩
  · rw [onFwdBufferAlloc]
    cases halloc : alloc (sz + s.setBackNodeUsed.newAllocReserved) with
    | none => exact ⟨h.setBackNodeUsed, fun hdone => by cases hdone⟩
    | some mem =>
      refine ⟨inv_resetMemPtr ?_, fun _ => ?_⟩
      · have hempty : (BufferNode.data (newFwdNode mem.val)).content = [] := rfl
        rw [copyNodeList_append, copyNodeList_singleton, hempty, append_nil]
        exact h.hold
      · have hmem := mem.property
        simp only [room, resetMemPtr, getLast?_concat, newFwdNode, backSpaces]
        omega

/-- What is written into the room is a piece behind the others. -/
theorem Inv.writeSuffix {bytes : Bytes} (hroom : bytes.length ≤ s.room) :
    (s.writeSuffix bytes).Inv (pieces ++ [bytes]) := by
  rw [FwdBufferList.writeSuffix]
  cases hmem : s.mem with
  | none =>
    rw [room, hmem] at hroom
    have hbytes : bytes = [] := eq_nil_of_length_eq_zero (Nat.le_zero.mp hroom)
    refine ⟨h.cached, ?_⟩
    rw [h.hold, hbytes]
    simp
  | some mem =>
    obtain ⟨memCurrent, memEnd⟩ := mem
    obtain ⟨front, back, hlist, hdata, hle, hend⟩ := h.cached _ _ hmem
    have hhold := h.hold
    rw [room, hmem] at hroom
    dsimp only at hroom
    have hlen : (back.write memCurrent bytes).mem.length = back.mem.length := length_overwrite (by omega)
    rw [used_of_mem s hmem hlist, copyNodeList_append, copyNodeList_singleton] at hhold
    rw [hlist, getLast?_concat, dropLast_concat]
    constructor
    · intro memCurrent' memEnd' hmem'
      cases hmem'
      refine ⟨front, back.write memCurrent bytes, rfl, ?_, by omega, by omega⟩
      exact hdata.trans (Nat.le_add_right _ _)
    · rw [used_of_mem _ rfl rfl, copyNodeList_append, copyNodeList_singleton, flatten_append, ← hhold, append_assoc]
      congr 1
      have hset : max back.dataEnd (min memCurrent back.mem.length) = memCurrent := by omega
      have happend : (back.write memCurrent bytes).setDataEnd (memCurrent + bytes.length) =
          (back.setDataEnd memCurrent).append bytes := by
        have hover : (overwrite back.mem memCurrent bytes).length = back.mem.length := hlen
        have hleft : max back.dataEnd (min (memCurrent + bytes.length) back.mem.length) = memCurrent + bytes.length := by omega
        have hright : max memCurrent (min (memCurrent + bytes.length) back.mem.length) = memCurrent + bytes.length := by omega
        simp only [append, setDataEnd, write, hset, hover, hleft, hright]
      show ((back.write memCurrent bytes).setDataEnd (memCurrent + bytes.length)).content = _
      rw [happend, content_append, flatten_singleton]
      · rfl
      · show bytes.length ≤ back.mem.length - max back.dataEnd (min memCurrent back.mem.length)
        omega

theorem Inv.put (spare : ℕ) (bytes : Bytes) :
    (s.put alloc spare bytes).1.Inv (if (s.put alloc spare bytes).2 then pieces ++ [bytes] else pieces) := by
  obtain ⟨hinv, hroom⟩ := h.allocSuffix alloc (bytes.length + spare)
  rw [FwdBufferList.put]
  rcases hr : s.allocSuffix alloc (bytes.length + spare) with ⟨t, done⟩
  rw [hr] at hinv hroom
  cases done with
  | false => exact hinv
  | true => exact hinv.writeSuffix (le_trans (Nat.le_add_right _ _) (hroom rfl))

theorem Inv.fwdPrint (nodes : List BufferNode) :
    (s.fwdPrint alloc nodes).1.Inv (if (s.fwdPrint alloc nodes).2 then pieces ++ [copyNodeList nodes] else pieces) := by
  rw [FwdBufferList.fwdPrint]
  split
  · exact h.put 0 _
  · rename_i hempty
    refine ⟨h.cached, ?_⟩
    have hnil : copyNodeList nodes = [] := by
      apply eq_nil_of_length_eq_zero
      rw [length_copyNodeList]
      exact Nat.eq_zero_of_not_pos hempty
    rw [h.hold, hnil]
    simp

theorem Inv.pushBack (node : BufferNode) : (s.pushBack node).Inv (pieces ++ [node.content]) := by
  refine inv_resetMemPtr ?_
  show copyNodeList (builderPushBack s.used node) = _
  rw [copyNodeList_builderPushBack, h.hold, flatten_append, flatten_singleton]

theorem Inv.pushBackList (nodes : List BufferNode) :
    (s.pushBackList nodes).Inv (pieces ++ [copyNodeList nodes]) := by
  refine inv_resetMemPtr ?_
  show copyNodeList (s.used ++ nodes) = _
  rw [copyNodeList_append, h.hold, flatten_append, flatten_singleton]

theorem Inv.moveOut : s.moveOut.1.Inv [] ∧ copyNodeList s.moveOut.2 = pieces.flatten := by
  refine ⟨⟨?_, rfl⟩, h.hold⟩
  intro _ _ hmem
  cases hmem

end

end FwdBufferList

/-! ### Runs -/

namespace FwdSession

/-- What is moved out is the pieces one after the other, and so long. -/
def IsConcat (nodes : List BufferNode) (pieces : List Bytes) : Prop :=
  copyNodeList nodes = pieces.flatten ∧ calcDataSize nodes = (pieces.map List.length).sum

theorem isConcat_of_hold {nodes : List BufferNode} {pieces : List Bytes} (h : copyNodeList nodes = pieces.flatten) :
    IsConcat nodes pieces := by
  refine ⟨h, ?_⟩
  rw [← length_copyNodeList, h, length_flatten]

structure Inv (s : FwdSession) : Prop where
  buf : s.buf.Inv s.pieces
  out : ∀ r ∈ s.out, IsConcat r.1 r.2

variable {s : FwdSession} {alloc : Alloc}

theorem Inv.step (h : s.Inv) (op : FwdOp) : (s.step alloc op).Inv := by
  cases op with
  | put spare bytes => exact ⟨h.buf.put spare bytes, h.out⟩
  | fwdPrint nodes => exact ⟨h.buf.fwdPrint nodes, h.out⟩
  | pushBack node => exact ⟨h.buf.pushBack node, h.out⟩
  | pushBackList nodes => exact ⟨h.buf.pushBackList nodes, h.out⟩
  | moveOut =>
    refine ⟨h.buf.moveOut.1, fun r hr => ?_⟩
    rcases mem_append.mp hr with hr | hr
    · exact h.out r hr
    · rw [mem_singleton.mp hr]
      exact isConcat_of_hold h.buf.moveOut.2

theorem run_inv (alloc : Alloc) (h : s.Inv) (ops : List FwdOp) : (ops.foldl (FwdSession.step alloc) s).Inv := by
  induction ops generalizing s with
  | nil => exact h
  | cons op ops ih => exact ih (h.step op)

end FwdSession

end Fon9.Buffer.Builder
