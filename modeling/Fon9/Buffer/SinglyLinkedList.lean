import Fon9.Lib.Chain

/-! `SinglyLinkedList2`: a list of linked nodes with pointers to its first and last node
and the number of its nodes. -/

namespace Fon9.Buffer

open Lib List

/-- `Head_`, `Back_` and `Count_`. -/
structure SinglyLinkedList (α : Type*) where
  head : Option α := none
  back : Option α := none
  count : ℕ := 0

namespace SinglyLinkedList

variable {α : Type*}

section Operations
variable [DecidableEq α]

variable (next : α → Option α) (list : SinglyLinkedList α)

/-- `pop_front`: the links and the list behind the call, and the node. -/
def popFront : (α → Option α) × SinglyLinkedList α × Option α :=
  match list.head with
  | none => (next, list, none)
  | some node =>
    (Function.update next node none,
      ⟨next node, if list.back = some node then none else list.back, list.count - 1⟩, some node)

/-- `push_back` of a node. -/
def pushBack (node : α) : (α → Option α) × SinglyLinkedList α :=
  match list.back with
  | some back => (Function.update next back (some node), ⟨list.head, some node, list.count + 1⟩)
  | none => (Function.update next node list.head, ⟨some node, some node, list.count + 1⟩)

/-- `push_back` of a list: the links, the list, and `src` behind the call. -/
def pushBackList (list src : SinglyLinkedList α) :
    (α → Option α) × SinglyLinkedList α × SinglyLinkedList α :=
  match src.head with
  | none => (next, list, src)
  | some front =>
    match list.back with
    | some back =>
      (Function.update next back (some front), ⟨list.head, src.back, list.count + src.count⟩, ⟨none, none, 0⟩)
    | none => (next, ⟨some front, src.back, list.count + src.count⟩, ⟨none, none, 0⟩)

/-- `cut`, that is `cut_back`: the links, the list, and `outList` behind the call. -/
def cut (newCount : ℕ) (newBack : Option α) (outList : SinglyLinkedList α)
    : (α → Option α) × SinglyLinkedList α × SinglyLinkedList α :=
  match newBack with
  | none => (next, list, outList)
  | some newBack =>
    if newCount < list.count then
      let outcnt := list.count - newCount
      match next newBack with
      | none => (next, { list with count := newCount }, outList)
      | some behind =>
        let next := Function.update next newBack none
        let next :=
          match outList.back with
          | some outBack => Function.update next outBack (some behind)
          | none => next
        (next, ⟨list.head, some newBack, newCount⟩,
          ⟨if outList.head = none then some behind else outList.head, list.back, outList.count + outcnt⟩)
    else (next, list, outList)

end Operations

/-- The list has these nodes. Its count is left open. -/
structure IsList (next : α → Option α) (list : SinglyLinkedList α) (nodes : List α) : Prop where
  linked : Linked next list.head nodes none
  back : list.back = nodes.getLast?
  nodup : nodes.Nodup

/-- The list has these nodes, and so many. -/
structure Counted (next : α → Option α) (list : SinglyLinkedList α) (nodes : List α) : Prop
    extends IsList next list nodes where
  count : list.count = nodes.length

variable {next : α → Option α} {list outList : SinglyLinkedList α} {nodes outNodes : List α} {node : α}

theorem Counted.empty : Counted next {} ([] : List α) := ⟨⟨rfl, rfl, nodup_nil⟩, rfl⟩

theorem IsList.back_mem (h : IsList next list nodes) (hback : list.back = some node) : node ∈ nodes :=
  mem_of_getLast? (h.back.symm.trans hback)

variable [DecidableEq α]

/-- A list of nodes other than the one whose link is set. -/
theorem IsList.update (h : IsList next list nodes) (hnode : node ∉ nodes) (behind : Option α) :
    IsList (Function.update next node behind) list nodes :=
  ⟨h.linked.update hnode behind, h.back, h.nodup⟩

/-- Nodes linked behind the last one. -/
theorem IsList.linkBehind (h : IsList next list nodes) {behind : α} {rest : List α}
    (hrest : Linked next (some behind) rest none) (hdisj : nodes.Disjoint rest) :
    Linked (match list.back with
      | some back => Function.update next back (some behind)
      | none => next) (if list.head = none then some behind else list.head) (nodes ++ rest) none := by
  obtain ⟨hlinked, hback, hnodup⟩ := h
  cases nodes using reverseRecOn with
  | nil =>
    have hhead : list.head = none := hlinked
    rw [hback, if_pos hhead]
    exact hrest
  | append_singleton nodes back =>
    have hback' : back ∉ nodes := fun hmem =>
      (nodup_append.mp hnodup).2.2 back hmem back (mem_singleton_self _) rfl
    have hhead : list.head ≠ none := by
      intro hnone
      rw [hlinked.head_eq, head?_eq_none_iff] at hnone
      exact append_ne_nil_of_right_ne_nil nodes (cons_ne_nil back []) hnone
    rw [hback, getLast?_concat, if_neg hhead]
    exact linked_append.mpr ⟨some behind, hlinked.relink hback' _,
      hrest.update (hdisj (mem_append_right _ (mem_singleton_self _))) _⟩

/-- `cut` behind `node` moves the nodes behind it. The counts are as if there had been
`newCount` nodes up to it. -/
theorem Counted.cut {rest : List α} {newCount : ℕ} (h : Counted next list (nodes ++ node :: rest))
    (hout : IsList next outList outNodes) (hdisj : (nodes ++ node :: rest).Disjoint outNodes)
    (hcount : newCount ≤ nodes.length + 1) :
    let r := list.cut next newCount (some node) outList
    IsList r.1 r.2.1 (nodes ++ [node]) ∧ IsList r.1 r.2.2 (outNodes ++ rest) ∧ r.2.1.count = newCount ∧
      r.2.2.count = outList.count + if rest = [] then 0 else nodes.length + 1 + rest.length - newCount := by
  intro r
  have hsplit : nodes ++ node :: rest = (nodes ++ [node]) ++ rest := append_cons nodes node rest
  have hlength : list.count = nodes.length + 1 + rest.length := by
    rw [h.count, hsplit, length_append, length_append, length_singleton]
  obtain ⟨⟨hlinked, hback, hnodup⟩, -⟩ := h
  rw [hsplit] at hlinked hback hnodup hdisj
  obtain ⟨hfirst, hsecond, hapart⟩ := nodup_append.mp hnodup
  obtain ⟨behind, hfront, hrest⟩ := linked_append.mp hlinked
  have hnext : next node = behind := (linked_concat.mp hfront).2
  have hnode : node ∉ nodes := fun hmem =>
    (nodup_append.mp hfirst).2.2 node hmem node (mem_singleton_self _) rfl
  have hmem : node ∈ nodes ++ [node] := mem_append_right _ (mem_singleton_self _)
  cases rest with
  | nil =>
    obtain rfl : behind = none := hrest
    rw [append_nil] at hback
    have hcut : r = (next, { list with count := newCount }, outList) := by
      show list.cut next newCount (some node) outList = _
      rw [SinglyLinkedList.cut]
      by_cases hlt : newCount < list.count
      · rw [if_pos hlt, hnext]
      · have heq : list.count = newCount := by
          rw [length_nil] at hlength
          omega
        rw [if_neg hlt, ← heq]
    rw [hcut, append_nil]
    exact ⟨⟨hfront, hback, hfirst⟩, hout, rfl, rfl⟩
  | cons behind' rest =>
    obtain ⟨rfl, hrest'⟩ := hrest
    have hlt : newCount < list.count := by
      rw [hlength, length_cons]
      omega
    have hnotmem : node ∉ behind' :: rest := fun hmem' => hapart node hmem node hmem' rfl
    have hnotout : node ∉ outNodes := fun hmem' => hdisj (mem_append_left _ hmem) hmem'
    -- the list ends at `node`, and the nodes behind it are linked behind `outList`
    have hlist : IsList (Function.update next node none) ⟨list.head, some node, newCount⟩ (nodes ++ [node]) :=
      ⟨hfront.relink hnode none, getLast?_concat.symm, hfirst⟩
    have hrest : Linked (Function.update next node none) (some behind') (behind' :: rest) none :=
      Linked.update (linked_cons.mpr ⟨rfl, hrest'⟩) hnotmem none
    have hdisj' : outNodes.Disjoint (behind' :: rest) := fun a ha ha' => hdisj (mem_append_right _ ha') ha
    have hjoin := (hout.update hnotout none).linkBehind hrest hdisj'
    have houtback : list.back = (outNodes ++ behind' :: rest).getLast? := by
      rw [hback, getLast?_append_of_ne_nil _ (cons_ne_nil _ _),
        getLast?_append_of_ne_nil _ (cons_ne_nil _ _)]
    have houtnodup : (outNodes ++ behind' :: rest).Nodup :=
      nodup_append.mpr ⟨hout.nodup, hsecond, fun a ha b hb heq => hdisj' ha (heq ▸ hb)⟩
    have hcut : r = ((match outList.back with
        | some outBack => Function.update (Function.update next node none) outBack (some behind')
        | none => Function.update next node none), ⟨list.head, some node, newCount⟩,
        ⟨if outList.head = none then some behind' else outList.head, list.back,
          outList.count + (list.count - newCount)⟩) := by
      show list.cut next newCount (some node) outList = _
      rw [SinglyLinkedList.cut, if_pos hlt, hnext]
    rw [hcut, if_neg (cons_ne_nil _ _), hlength]
    refine ⟨?_, ⟨hjoin, houtback, houtnodup⟩, rfl, rfl⟩
    cases houtlast : outList.back with
    | none => exact hlist
    | some outBack =>
      refine hlist.update (fun hmem' => ?_) (some behind')
      exact hdisj (mem_append_left _ hmem') (hout.back_mem houtlast)

end SinglyLinkedList

end Fon9.Buffer
