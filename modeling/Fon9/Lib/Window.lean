import Mathlib.Algebra.Group.Defs
import Mathlib.Data.List.Count
import Mathlib.Data.List.Rotate

/-! Sliding windows over a list of times. Where two times that are `c` places apart are a
unit of time apart, a window that is no longer than the unit holds at most `c` of them.
A ring of `c` slots keeps the last `c` times, from the slot that is written next. -/

namespace Fon9.Lib

open List

section Spaced

variable {T : Type*} [Add T] [LE T] {c : ℕ} {unit : T} {l : List T}

/-- Times that are `c` places apart, or more, are a unit apart. -/
def Spaced (c : ℕ) (unit : T) (l : List T) : Prop :=
  ∀ i j x y, l[i]? = some x → l[j]? = some y → i + c ≤ j → x + unit ≤ y

theorem spaced_nil (c : ℕ) (unit : T) : Spaced c unit [] := by
  intro i j x y hx
  cases hx

theorem Spaced.tail {x : T} (h : Spaced c unit (x :: l)) : Spaced c unit l := by
  intro i j y z hy hz hij
  exact h (i + 1) (j + 1) y z hy hz (by omega)

/-- A time that comes behind is a unit later than those `c` places before it. -/
theorem Spaced.concat {y : T} (h : Spaced c unit l) (hc : 0 < c)
    (hy : ∀ i x, l[i]? = some x → i + c ≤ l.length → x + unit ≤ y) : Spaced c unit (l ++ [y]) := by
  intro i j x z hx hz hij
  have hj : j < l.length + 1 := by
    have hlt := (List.getElem?_eq_some_iff.mp hz).1
    rwa [length_append, length_singleton] at hlt
  rw [List.getElem?_append_left (by omega)] at hx
  by_cases hlast : j = l.length
  · subst hlast
    rw [getElem?_concat_length] at hz
    obtain rfl := Option.some.inj hz
    exact hy i x hx hij
  · rw [getElem?_append_left (by omega)] at hz
    exact h i j x z hx hz hij

/-- A window in which no two times are a unit apart. -/
theorem Spaced.countP_le {p : T → Bool} (h : Spaced c unit l) (hp : ∀ x y, p x → p y → ¬ x + unit ≤ y) :
    l.countP p ≤ c := by
  induction l with
  | nil => exact Nat.zero_le c
  | cons x l ih =>
    by_cases hx : p x = true
    · -- what is `c` places behind `x` is outside of the window
      have hfar : ((x :: l).drop c).countP p = 0 := by
        rw [countP_eq_zero]
        intro y hy hpy
        obtain ⟨k, hk⟩ := List.mem_iff_getElem?.mp hy
        rw [getElem?_drop] at hk
        exact hp x y hx hpy (h 0 (c + k) x y rfl hk (by omega))
      have hnear : ((x :: l).take c).countP p ≤ c :=
        le_trans countP_le_length (length_take_le c (x :: l))
      rw [← take_append_drop c (x :: l), countP_append, hfar]
      exact hnear
    · rw [countP_cons_of_neg hx]
      exact ih h.tail

end Spaced

section Ring

variable {T : Type*} {c : ℕ} {blank : T}

/-- The last `c` times, behind blanks where there are fewer. -/
def lastOf (c : ℕ) (blank : T) (l : List T) : List T := (List.replicate c blank ++ l).drop l.length

theorem lastOf_nil (c : ℕ) (blank : T) : lastOf c blank [] = replicate c blank := by
  simp [lastOf]

theorem lastOf_concat (hc : 0 < c) (l : List T) (y : T) : lastOf c blank (l ++ [y]) = (lastOf c blank l).tail ++ [y] := by
  have hlen : l.length + 1 ≤ (replicate c blank ++ l).length := by
    simp
    omega
  rw [lastOf, lastOf, length_append, length_singleton, ← append_assoc,
    drop_append_of_le_length hlen, tail_drop]

/-- The oldest of them. -/
theorem head_lastOf (hc : 0 < c) (l : List T) :
    (lastOf c blank l).head? = some (if h : c ≤ l.length then l[l.length - c] else blank) := by
  rw [lastOf, head?_drop]
  split
  · next hle =>
    rw [getElem?_append_right (by simpa using hle), length_replicate]
    exact getElem?_eq_getElem _
  · next hlt =>
    rw [getElem?_append_left (by simp; omega), getElem?_replicate, if_pos (by omega)]

/-- A time that is written over the oldest one. -/
theorem rotate_set {l : List T} {i : ℕ} (h : i < l.length) (y : T) :
    (l.set i y).rotate (i + 1) = (l.rotate i).tail ++ [y] := by
  have hl : l = l.take i ++ l[i] :: l.drop (i + 1) := by
    rw [getElem_cons_drop, take_append_drop]
  have hi : (l.take i).length = i := by
    rw [length_take]
    omega
  generalize l.take i = front at hl hi
  generalize l.drop (i + 1) = back at hl
  generalize l[i] = x at hl
  subst hl hi
  have hfront : (front ++ [y]).length = front.length + 1 := by simp
  rw [set_append_right _ _ le_rfl, Nat.sub_self, set_cons_zero, rotate_append_length_eq,
    append_cons, ← hfront, rotate_append_length_eq]
  simp

end Ring

end Fon9.Lib
