import Mathlib.Order.Hom.Basic
import Mathlib.Data.Fin.Basic
import Mathlib.Data.List.Lex

/-! `Trie`: a map with keys of any length, one level of the tree for each place of the
key. The tree holds its nodes by value; a pointer to a node is the path to it, with
the index nearest to the node first, so that a step to the owner drops an index. -/

namespace Fon9.Trie

/-- `KeyTransT`: the keys of a level and their indices, in the same order. -/
structure KeyTrans (κ : Type*) [LinearOrder κ] where
  maxIndex : ℕ
  toIndex : κ ≃o Fin (maxIndex + 1)

/-- A place for a node (`NodeObj`): without a node, or a node without or with a next
level. A level has the count, `IndexMin_` and `IndexMax_` and the array. -/
inductive Node (m : ℕ) (V : Type*)
  | null
  | leaf (value : Option V)
  | level (value : Option V) (count : ℕ) (indexMin indexMax : Fin (m + 1)) (ary : Fin (m + 1) → Node m V)

/-- `Node*`: the indices from the node up to the head. -/
abbrev NodePtr (m : ℕ) := List (Fin (m + 1))

variable {m : ℕ} {V : Type*}

namespace Node

def value : Node m V → Option V
  | null => none
  | leaf value => value
  | level value _ _ _ _ => value

def isNull : Node m V → Bool
  | null => true
  | _ => false

def child : Node m V → Fin (m + 1) → Node m V
  | level _ _ _ _ ary, idx => ary idx
  | _, _ => null

def setValue (value : Option V) : Node m V → Node m V
  | null => null
  | leaf _ => leaf value
  | level _ count indexMin indexMax ary => level value count indexMin indexMax ary

def setChild (node : Node m V) (idx : Fin (m + 1)) (obj : Node m V) : Node m V :=
  match node with
  | level value count indexMin indexMax ary =>
    level value count indexMin indexMax (Function.update ary idx obj)
  | node => node

def mapCount (f : ℕ → ℕ) : Node m V → Node m V
  | level value count indexMin indexMax ary => level value (f count) indexMin indexMax ary
  | node => node

/-- `NextLevel_.reset()`. -/
def resetNextLevel : Node m V → Node m V
  | level value _ _ _ _ => leaf value
  | node => node

/-- What a pointer points at, from the head. -/
def deref (head : Node m V) : NodePtr m → Node m V
  | [] => head
  | idx :: cur => (head.deref cur).child idx

/-- The tree with the node at a pointer changed by `f`; `put` puts a changed child back
into its owner. -/
def zoom (put : Node m V → Fin (m + 1) → Node m V → Node m V) (f : Node m V → Node m V) :
    NodePtr m → Node m V → Node m V
  | [], head => f head
  | idx :: cur, head => zoom put (fun node => put node idx (f (node.child idx))) cur head

def modify (head : Node m V) (f : Node m V → Node m V) (cur : NodePtr m) : Node m V :=
  zoom setChild f cur head

/-- `Node::First`, and `LvAry::First` with it. -/
def first : Node m V → NodePtr m → NodePtr m
  | level none _ indexMin _ ary, cur => (ary indexMin).first (indexMin :: cur)
  | _, cur => cur

/-- `LvAry::First`. -/
def lvFirst : Node m V → NodePtr m → NodePtr m
  | level _ _ indexMin _ ary, cur => (ary indexMin).first (indexMin :: cur)
  | _, cur => cur

/-- `Node::Last`, and `LvAry::Last` with it. -/
def last : Node m V → NodePtr m → NodePtr m
  | level _ _ _ indexMax ary, cur => (ary indexMax).last (indexMax :: cur)
  | _, cur => cur

end Node

/-- The search of a level for the next node behind `idx`, `turns` indices being left. -/
def scanNext (ary : Fin (m + 1) → Node m V) : ℕ → Fin (m + 1) → Option (Fin (m + 1))
  | 0, _ => none
  | turns + 1, idx => if (ary (idx + 1)).isNull then scanNext ary turns (idx + 1) else some (idx + 1)

/-- The search of a level for the next node before `idx`. -/
def scanPrev (ary : Fin (m + 1) → Node m V) : ℕ → Fin (m + 1) → Option (Fin (m + 1))
  | 0, _ => none
  | turns + 1, idx => if (ary (idx - 1)).isNull then scanPrev ary turns (idx - 1) else some (idx - 1)

namespace Node

/-- `Node::OwnerNext`: with the pointer to a node of a level, `LvAry::Next` from its index. -/
def ownerNext (head : Node m V) : NodePtr m → Option (NodePtr m)
  | [] => none
  | idx :: cur =>
    match head.deref cur with
    | level _ _ _ indexMax ary =>
      match scanNext ary (indexMax - idx : ℕ) idx with
      | some i => some ((ary i).first (i :: cur))
      | none => head.ownerNext cur
    | _ => none

/-- `Node::Next`. -/
def next (head : Node m V) (cur : NodePtr m) : Option (NodePtr m) :=
  match head.deref cur with
  | level _ _ indexMin _ ary => some ((ary indexMin).first (indexMin :: cur))
  | _ => head.ownerNext cur

/-- `Node::Prev`, with `LvAry::Prev`. -/
def prev (head : Node m V) : NodePtr m → Option (NodePtr m)
  | [] => none
  | idx :: cur =>
    match head.deref cur with
    | level value _ indexMin _ ary =>
      match scanPrev ary (idx - indexMin : ℕ) idx with
      | some i => some ((ary i).last (i :: cur))
      | none => if value.isSome then some cur else head.prev cur
    | _ => none

/-- `LvAry::IncCount` and `LvAry::DecCount`, from the owner of `cur` upwards. -/
def addCount (f : ℕ → ℕ) (head : Node m V) : NodePtr m → Node m V
  | [] => head
  | _ :: cur => addCount f (head.modify (mapCount f) cur) cur

def incCount : Node m V → NodePtr m → Node m V := addCount (· + 1)

def decCount : Node m V → NodePtr m → Node m V := addCount (· - 1)

/-- What `emplace` does to the node a key passes: it gets a level with a node at `idx`. -/
def enter (idx : Fin (m + 1)) : Node m V → Node m V
  | null => null
  | leaf value => level value 0 idx idx (Function.update (fun _ => null) idx (leaf none))
  | level value count indexMin indexMax ary =>
    level value count (if idx < indexMin then idx else indexMin)
      (if idx < indexMin then indexMax else if indexMax < idx then idx else indexMax)
      (if (ary idx).isNull then Function.update ary idx (leaf none) else ary)

/-- The loop of `emplace`. -/
def emplaceLoop (head : Node m V) (cur : NodePtr m) : List (Fin (m + 1)) → Node m V × NodePtr m
  | [] => (head, cur)
  | idx :: key => emplaceLoop (head.modify (enter idx) cur) (idx :: cur) key

/-- The loop of `erase` that raises `IndexMin_`. -/
def raiseMin (ary : Fin (m + 1) → Node m V) (indexMax : Fin (m + 1)) : ℕ → Fin (m + 1) → Fin (m + 1)
  | 0, idx => idx
  | turns + 1, idx =>
    if (ary (idx + 1)).isNull ∧ idx + 1 < indexMax then raiseMin ary indexMax turns (idx + 1) else idx + 1

/-- The loop of `erase` that lowers `IndexMax_`. -/
def lowerMax (ary : Fin (m + 1) → Node m V) (indexMin : Fin (m + 1)) : ℕ → Fin (m + 1) → Fin (m + 1)
  | 0, idx => idx
  | turns + 1, idx =>
    if (ary (idx - 1)).isNull ∧ indexMin < idx - 1 then lowerMax ary indexMin turns (idx - 1) else idx - 1

def raiseIndexMin : Node m V → Node m V
  | level value count indexMin indexMax ary =>
    level value count (raiseMin ary indexMax (indexMax - indexMin : ℕ) indexMin) indexMax ary
  | node => node

def lowerIndexMax : Node m V → Node m V
  | level value count indexMin indexMax ary =>
    level value count indexMin (lowerMax ary indexMin (indexMax - indexMin : ℕ) indexMax) ary
  | node => node

/-- The loop of `erase` over the nodes that are no longer needed. -/
def eraseLoop (head : Node m V) : NodePtr m → Node m V × Option (NodePtr m)
  | [] => (null, none)
  | idx :: cur =>
    match head.deref cur with
    | level value _ indexMin indexMax _ =>
      if indexMin ≠ indexMax then
        let head := head.modify (fun node => node.setChild idx null) cur
        if idx = indexMin then
          let head := head.modify raiseIndexMin cur
          (head.decCount (idx :: cur), some ((head.deref cur).lvFirst cur))
        else if idx = indexMax then
          let head := head.modify lowerIndexMax cur
          (head.decCount (idx :: cur), head.ownerNext cur)
        else (head.decCount (idx :: cur), head.ownerNext (idx :: cur))
      else if value.isSome then
        let head := (head.modify resetNextLevel cur).decCount cur
        (head, head.ownerNext cur)
      else eraseLoop head cur
    | _ => (head, none)

end Node

end Fon9.Trie

namespace Fon9

open Trie Node

variable {κ : Type*} [LinearOrder κ]

/-- `Trie`, by its `Head_`. -/
structure Trie (T : KeyTrans κ) (V : Type*) where
  head : Node T.maxIndex V := .null

namespace Trie

/-- `iterator`, by its `Cur_`; `none` is `end()`. -/
abbrev Iterator (T : KeyTrans κ) := Option (NodePtr T.maxIndex)

variable {T : KeyTrans κ} {V : Type*}

/-- `value_type::key()`. -/
def keyOf (cur : NodePtr T.maxIndex) : List κ := cur.reverse.map T.toIndex.symm

variable (t : Trie T V) (key : List κ)

def size : ℕ :=
  match t.head with
  | .null => 0
  | .leaf value => if value.isSome then 1 else 0
  | .level value count _ _ _ => count + if value.isSome then 1 else 0

def isEmpty : Bool := t.head.isNull

/-- The loop of `find_node`. -/
def findLoop (head : Node T.maxIndex V) (cur : NodePtr T.maxIndex) : List κ → Iterator T
  | [] => some cur
  | k :: key =>
    if ((head.deref cur).child (T.toIndex k)).isNull then none
    else findLoop head (T.toIndex k :: cur) key

def findNode : Iterator T :=
  if t.head.isNull then none else findLoop t.head [] key

def findMapped : Option V :=
  (t.findNode key).bind fun cur => (t.head.deref cur).value

def find : Iterator T :=
  (t.findNode key).filter fun cur => (t.head.deref cur).value.isSome

/-- `*i`, as far as it is a value. -/
def get (i : Iterator T) : Option V := i.bind fun cur => (t.head.deref cur).value

def begin : Iterator T :=
  if t.head.isNull then none else some (t.head.first [])

/-- `++i`. -/
def toNext (i : Iterator T) : Iterator T := i.bind t.head.next

/-- `--i`. -/
def toPrev : Iterator T → Iterator T
  | some cur => t.head.prev cur
  | none => some (t.head.last [])

/-- `emplace`: the trie, the iterator and whether the value is new. -/
def emplace (value : V) : Trie T V × Iterator T × Bool :=
  let head := if t.head.isNull then .leaf none else t.head
  let r := emplaceLoop head [] (key.map T.toIndex)
  if (r.1.deref r.2).value.isSome then (⟨r.1⟩, some r.2, false)
  else (⟨(r.1.incCount r.2).modify (setValue (some value)) r.2⟩, some r.2, true)

/-- `erase` with an iterator to a value. -/
def erase (cur : NodePtr T.maxIndex) : Trie T V × Iterator T :=
  let head := t.head.modify (setValue none) cur
  match head.deref cur with
  | .level _ _ indexMin _ ary =>
    (⟨head.decCount cur⟩, some ((ary indexMin).first (indexMin :: cur)))
  | _ =>
    let r := eraseLoop head cur
    (⟨r.1⟩, r.2)

end Trie

end Fon9
