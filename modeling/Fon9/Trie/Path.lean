import Mathlib.Data.Finset.Card
import Mathlib.Data.Fintype.Basic
import Mathlib.Data.Finset.Union
import Fon9.Trie.Node

/-! Keys and pointers. A key leads down from the head, a pointer up to it, so that the
key of a pointer is its reverse. A change at a pointer is a change by recursion along
the key; and the steps of a walk upwards can be put together into one such change. -/

namespace Fon9.Trie.Node

variable {m : ℕ} {V : Type*}

/-- The node a key leads to. -/
def sub (node : Node m V) : List (Fin (m + 1)) → Node m V
  | [] => node
  | idx :: key => (node.child idx).sub key

variable (node : Node m V) (key : List (Fin (m + 1)))

/-- The value of a key. -/
def lookup : Option V := (node.sub key).value

@[simp] theorem sub_nil : node.sub [] = node := rfl

@[simp] theorem sub_cons (idx : Fin (m + 1)) (key : List (Fin (m + 1))) :
    node.sub (idx :: key) = (node.child idx).sub key := rfl

@[simp] theorem lookup_nil : node.lookup [] = node.value := rfl

@[simp] theorem lookup_cons (idx : Fin (m + 1)) (key : List (Fin (m + 1))) :
    node.lookup (idx :: key) = (node.child idx).lookup key := rfl

theorem sub_append (key key' : List (Fin (m + 1))) :
    node.sub (key ++ key') = (node.sub key).sub key' := by
  induction key generalizing node with
  | nil => rfl
  | cons idx key ih => exact ih (node.child idx)

theorem lookup_append (key key' : List (Fin (m + 1))) :
    node.lookup (key ++ key') = (node.sub key).lookup key' := by
  rw [lookup, sub_append, lookup]

theorem sub_null : (null : Node m V).sub key = null := by
  induction key with
  | nil => rfl
  | cons idx key ih => exact ih

theorem lookup_null : (null : Node m V).lookup key = none := by
  rw [lookup, sub_null]
  rfl

theorem deref_eq_sub (head : Node m V) (cur : NodePtr m) : head.deref cur = head.sub cur.reverse := by
  induction cur with
  | nil => rfl
  | cons idx cur ih =>
    rw [List.reverse_cons, sub_append, ← ih]
    rfl

variable {node : Node m V}

theorem isNull_iff : node.isNull = true ↔ node = null := by
  cases node <;> simp [isNull]

theorem ne_null_of_value (h : node.value.isSome) : node ≠ null := by
  rintro rfl
  cases h

theorem ne_null_of_lookup {key : List (Fin (m + 1))} (h : (node.lookup key).isSome) :
    node ≠ null := by
  rintro rfl
  rw [lookup_null] at h
  cases h

/-! ### Changes along a key -/

/-- The change of `zoom`, by recursion along the key. -/
def descend (put : Node m V → Fin (m + 1) → Node m V → Node m V) (f : Node m V → Node m V) :
    List (Fin (m + 1)) → Node m V → Node m V
  | [], node => f node
  | idx :: key, node => put node idx (descend put f key (node.child idx))

variable {put : Node m V → Fin (m + 1) → Node m V → Node m V} {f g : Node m V → Node m V}

theorem zoom_append (put : Node m V → Fin (m + 1) → Node m V → Node m V) (f : Node m V → Node m V)
    (key : List (Fin (m + 1))) (cur : NodePtr m) (head : Node m V) :
    zoom put f (key.reverse ++ cur) head = zoom put (descend put f key) cur head := by
  induction key generalizing cur with
  | nil => rfl
  | cons idx key ih =>
    rw [List.reverse_cons, List.append_assoc, List.singleton_append, ih]
    rfl

theorem zoom_eq_descend (put : Node m V → Fin (m + 1) → Node m V → Node m V) (f : Node m V → Node m V)
    (cur : NodePtr m) (head : Node m V) : zoom put f cur head = descend put f cur.reverse head := by
  have h := zoom_append put f cur.reverse [] head
  rwa [List.reverse_reverse, List.append_nil] at h

/-- Only what the change does to the node it reaches matters. -/
theorem zoom_congr {head : Node m V} {cur : NodePtr m} (h : f (head.deref cur) = g (head.deref cur)) :
    zoom put f cur head = zoom put g cur head := by
  induction cur generalizing f g with
  | nil => exact h
  | cons idx cur ih =>
    have h : f ((head.deref cur).child idx) = g ((head.deref cur).child idx) := h
    refine ih ?_
    rw [h]

/-- A change that puts a child back may be made after another one at the same pointer, or
at once with it. -/
def Puts (put : Node m V → Fin (m + 1) → Node m V → Node m V) : Prop :=
  ∀ (f : Node m V → Node m V) node idx obj,
    (put node idx obj).setChild idx (f ((put node idx obj).child idx)) = put node idx (f obj)

theorem puts_setChild : Puts (setChild : Node m V → Fin (m + 1) → Node m V → Node m V) := by
  intro f node idx obj
  cases node with
  | null => rfl
  | leaf value => rfl
  | level value count indexMin indexMax ary => simp [setChild, child]

/-- A child put back, with the count of its owner changed. -/
def putCount (h : ℕ → ℕ) (node : Node m V) (idx : Fin (m + 1)) (obj : Node m V) : Node m V :=
  (node.setChild idx obj).mapCount h

theorem puts_putCount (h : ℕ → ℕ) : Puts (putCount h : Node m V → Fin (m + 1) → Node m V → Node m V) := by
  intro f node idx obj
  cases node with
  | null => rfl
  | leaf value => rfl
  | level value count indexMin indexMax ary => simp [putCount, setChild, mapCount, child]

theorem modify_zoom (hput : Puts put) (head : Node m V) (cur : NodePtr m) :
    (zoom put g cur head).modify f cur = zoom put (f ∘ g) cur head := by
  induction cur generalizing f g with
  | nil => rfl
  | cons idx cur ih =>
    show modify (zoom put _ cur head) _ cur = zoom put _ cur head
    rw [ih]
    congr 1
    funext node
    exact hput f node idx _

theorem modify_modify (head : Node m V) (cur : NodePtr m) :
    (head.modify g cur).modify f cur = head.modify (f ∘ g) cur := modify_zoom puts_setChild head cur

theorem modify_id (head : Node m V) (cur : NodePtr m) : head.modify id cur = head := by
  induction cur with
  | nil => rfl
  | cons idx cur ih =>
    refine Eq.trans ?_ ih
    show head.modify _ cur = _
    congr 1
    funext node
    cases node <;> simp [setChild, child]

/-- The count is changed on the way up: the change below and the counts above are one
change. -/
theorem addCount_modify (h : ℕ → ℕ) (f : Node m V → Node m V) (head : Node m V) (cur : NodePtr m) :
    addCount h (head.modify f cur) cur = zoom (putCount h) f cur head := by
  induction cur generalizing f with
  | nil => rfl
  | cons idx cur ih =>
    show addCount h (((head.modify _ cur)).modify (mapCount h) cur) cur = _
    rw [modify_modify, ih]
    rfl

/-- The counts changed first, then the node. -/
theorem modify_addCount (h : ℕ → ℕ) (f : Node m V → Node m V) (head : Node m V) (cur : NodePtr m) :
    (addCount h head cur).modify f cur = zoom (putCount h) f cur head := by
  have hid := addCount_modify h id head cur
  rw [modify_id] at hid
  rw [hid, modify_zoom (puts_putCount h)]
  rfl

end Fon9.Trie.Node
