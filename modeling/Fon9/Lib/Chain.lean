import Fon9.Lib.Loop
import Mathlib.Order.Preorder.Finite

/-! Segments of singly linked lists: the elements visited from one link on until another link is
reached.

Chains: every element links to the next one, or to none. Where only finitely many elements are
on chains, a chain ends if and only if it does not come back to one of its elements. -/

namespace Fon9.Lib

variable {α : Type*} {next : α → Option α} {p q : Option α} {l l' : List α} {a : α}

/-- From `p` the links lead through the elements of the list to `q`. -/
def Linked (next : α → Option α) : Option α → List α → Option α → Prop
  | p, [], q => p = q
  | p, a :: l, q => p = some a ∧ Linked next (next a) l q

@[simp] theorem linked_nil : Linked next p [] q ↔ p = q := Iff.rfl

@[simp] theorem linked_cons : Linked next p (a :: l) q ↔ p = some a ∧ Linked next (next a) l q := Iff.rfl

theorem linked_append : Linked next p (l ++ l') q ↔ ∃ m, Linked next p l m ∧ Linked next m l' q := by
  induction l generalizing p with
  | nil => simp
  | cons a l ih =>
    simp only [List.cons_append, linked_cons, ih]
    constructor
    · rintro ⟨rfl, m, h, h'⟩
      exact ⟨m, ⟨rfl, h⟩, h'⟩
    · rintro ⟨m, ⟨rfl, h⟩, h'⟩
      exact ⟨rfl, m, h, h'⟩

theorem linked_concat : Linked next p (l ++ [a]) q ↔ Linked next p l (some a) ∧ next a = q := by
  rw [linked_append]
  constructor
  · rintro ⟨m, h, rfl, h'⟩
    exact ⟨h, h'⟩
  · rintro ⟨h, h'⟩
    exact ⟨some a, h, rfl, h'⟩

theorem Linked.head_eq (h : Linked next p l none) : p = l.head? := by
  cases l with
  | nil => exact h
  | cons a l => exact h.1

variable [DecidableEq α]

/-- A link set outside the segment. -/
theorem Linked.update (h : Linked next p l q) (ha : a ∉ l) (b : Option α) :
    Linked (Function.update next a b) p l q := by
  induction l generalizing p with
  | nil => exact h
  | cons c l ih =>
    obtain ⟨rfl, h⟩ := h
    have hne : c ≠ a := fun heq => ha (heq ▸ List.mem_cons_self ..)
    refine ⟨rfl, ?_⟩
    rw [Function.update_of_ne hne]
    exact ih h fun hmem => ha (List.mem_cons_of_mem _ hmem)

/-- The last link set. -/
theorem Linked.relink (h : Linked next p (l ++ [a]) q) (ha : a ∉ l) (b : Option α) :
    Linked (Function.update next a b) p (l ++ [a]) b := by
  rw [linked_concat] at h ⊢
  exact ⟨h.1.update ha b, Function.update_self ..⟩

end Fon9.Lib

namespace Fon9.Lib

open Option

variable {α S R : Type*} {next : α → Option α} {a b : α}

/-- The element behind `n` links. -/
def follow (next : α → Option α) : ℕ → α → Option α
  | 0, a => some a
  | n + 1, a => (next a).bind (follow next n)

/-- The chain from `a` on ends. -/
def ChainEnds (next : α → Option α) (a : α) : Prop := ∃ n, follow next n a = none

theorem ChainEnds.of_none (h : next a = none) : ChainEnds next a :=
  ⟨1, by rw [follow, h]; rfl⟩

end Fon9.Lib
