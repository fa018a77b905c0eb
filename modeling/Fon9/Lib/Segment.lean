import Mathlib.Data.List.Basic

/-! A segment of a list: read at an offset, and overwritten there. What lies apart from it stays.

Places of a fixed number of elements. An element is put in at a place, and those from there on
move one place back, the last falls out; or one is taken out, and those behind it move one place
forward. Both as a block move, and as a loop that copies one element after the other. -/

namespace Fon9.Lib

open List

variable {α : Type*} {l bs : List α} {off off' n : ℕ}

/-- The `n` elements from `off` on. -/
def segment (l : List α) (off n : ℕ) : List α := (l.drop off).take n

/-- Put over the elements from `off` on. -/
def overwrite (l : List α) (off : ℕ) (bs : List α) : List α := l.take off ++ bs ++ l.drop (off + bs.length)

theorem length_segment (h : off + n ≤ l.length) : (segment l off n).length = n := by
  rw [segment, length_take, length_drop]
  omega

theorem length_overwrite (h : off + bs.length ≤ l.length) : (overwrite l off bs).length = l.length := by
  simp only [overwrite, length_append, length_take, length_drop]
  omega

theorem length_le_overwrite (l : List α) (off : ℕ) (bs : List α) : l.length ≤ (overwrite l off bs).length := by
  simp only [overwrite, length_append, length_take, length_drop]
  omega

theorem segment_add (l : List α) (off n m : ℕ) : segment l off (n + m) = segment l off n ++ segment l (off + n) m := by
  rw [segment, segment, segment, take_add, drop_drop]

theorem getElem?_overwrite (h : off + bs.length ≤ l.length) (i : ℕ) :
    (overwrite l off bs)[i]? = if off ≤ i ∧ i < off + bs.length then bs[i - off]? else l[i]? := by
  have htake : (l.take off).length = off := by
    rw [length_take]
    omega
  rw [overwrite, append_assoc]
  split_ifs with hi
  · rw [getElem?_append_right (by omega), htake, getElem?_append_left (by omega)]
  · by_cases hlt : i < off
    · rw [getElem?_append_left (by omega), getElem?_take_of_lt hlt]
    · rw [getElem?_append_right (by omega), htake, getElem?_append_right (by omega), getElem?_drop]
      congr 1
      omega

theorem getElem?_segment (i : ℕ) : (segment l off n)[i]? = if i < n then l[off + i]? else none := by
  rw [segment, getElem?_take, getElem?_drop]

theorem segment_overwrite (h : off + bs.length ≤ l.length) : segment (overwrite l off bs) off bs.length = bs := by
  apply List.ext_getElem?
  intro i
  rw [getElem?_segment, getElem?_overwrite h]
  split_ifs with hi hin
  · rw [Nat.add_sub_cancel_left]
  · omega
  · exact (getElem?_eq_none (Nat.not_lt.mp hi)).symm

/-- A segment apart from what is overwritten. -/
theorem segment_overwrite_apart (h : off + bs.length ≤ l.length) (hapart : off + bs.length ≤ off' ∨ off' + n ≤ off) :
    segment (overwrite l off bs) off' n = segment l off' n := by
  apply List.ext_getElem?
  intro i
  rw [getElem?_segment, getElem?_segment, getElem?_overwrite h]
  split_ifs with hi hin
  · omega
  · rfl
  · rfl

/-- A segment of what is overwritten depends on no more than itself. -/
theorem segment_overwrite_congr {l' : List α} (hlen : l'.length = l.length) (h : off + bs.length ≤ l.length)
    (hsame : segment l' off' n = segment l off' n) :
    segment (overwrite l' off bs) off' n = segment (overwrite l off bs) off' n := by
  apply List.ext_getElem?
  intro i
  have hi := congrArg (fun seg => seg[i]?) hsame
  simp only [getElem?_segment] at hi ⊢
  rw [getElem?_overwrite (by omega), getElem?_overwrite h]
  split_ifs at hi ⊢
  · rfl
  · exact hi
  · rfl

/-! What is put together from pieces. -/

section Pieces

variable {a b : List α} {c : α} {k m : ℕ}

theorem length_segment_eq (l : List α) (off n : ℕ) : (segment l off n).length = min n (l.length - off) := by
  rw [segment, length_take, length_drop]

theorem segment_append_left (h : off + n ≤ a.length) : segment (a ++ b) off n = segment a off n := by
  rw [segment, segment, drop_append_of_le_length (by omega), take_append_of_le_length]
  rw [length_drop]
  omega

theorem segment_append_right (h : a.length ≤ off) : segment (a ++ b) off n = segment b (off - a.length) n := by
  rw [segment, segment, drop_append, drop_eq_nil_of_le h, nil_append]

theorem segment_cons_succ (c : α) (b : List α) (off n : ℕ) : segment (c :: b) (off + 1) n = segment b off n := rfl

theorem segment_segment (h : k + m ≤ n) : segment (segment l off n) k m = segment l (off + k) m := by
  rw [segment, segment, segment, drop_take, take_take, drop_drop, Nat.min_eq_left (by omega)]

theorem segment_all (h : l.length = n) : segment l 0 n = l := by
  rw [segment, drop_zero, take_of_length_le (Nat.le_of_eq h)]

theorem segment_join (h : n + k = l.length) : segment l 0 n ++ segment l n k = l := by
  have hadd := segment_add l 0 n k
  rw [Nat.zero_add] at hadd
  rw [← hadd, segment_all h.symm]

theorem mem_of_mem_segment (h : c ∈ segment l off n) : c ∈ l := mem_of_mem_drop (mem_of_mem_take h)

/-- An element between two parts. -/
theorem segment_sep (h : l.length = n + 1 + k) (hc : l[n]? = some c) : segment l 0 n ++ c :: segment l (n + 1) k = l := by
  obtain ⟨hlt, hc⟩ := List.getElem?_eq_some_iff.mp hc
  have hone : segment l n 1 = [c] := by
    rw [segment, drop_eq_getElem_cons hlt, hc]
    rfl
  have hjoin : segment l 0 n ++ segment l n (1 + k) = l := segment_join (by omega)
  rwa [segment_add, hone] at hjoin

end Pieces

end Fon9.Lib

namespace Fon9.Lib

variable {n : ℕ} {α β : Type*}

variable (a : Fin n → α)

def insertAt (i : ℕ) (x : α) : Fin n → α := fun j =>
  if j.val < i then a j else if j.val = i then x else a ⟨j.val - 1, by omega⟩

def deleteAt (i : ℕ) (x : α) : Fin n → α := fun j =>
  if j.val < i then a j else if h : j.val + 1 < n then a ⟨j.val + 1, h⟩ else x

def setAt (i : ℕ) (x : α) : Fin n → α := fun j => if j.val = i then x else a j

/-- `memmove` of `count` elements from the place `src` to the place `dst`. -/
def memmove (dst src count : ℕ) : Fin n → α := fun j =>
  if h : dst ≤ j.val ∧ j.val < dst + count ∧ src + (j.val - dst) < n then a ⟨src + (j.val - dst), h.2.2⟩ else a j

/-- Each place from `k` down to the one behind `i` takes what is before it. -/
def copyBack (i : ℕ) : ℕ → (Fin n → α) → Fin n → α
  | 0, a => a
  | k + 1, a =>
    if k + 1 = i then a else copyBack i k fun j => if h : j.val = k + 1 then a ⟨k, by omega⟩ else a j

/-- Each of `count` places from `i` on takes what is behind it. -/
def copyForward : ℕ → ℕ → (Fin n → α) → Fin n → α
  | _, 0, a => a
  | i, count + 1, a =>
    copyForward (i + 1) count fun j => if h : j.val = i ∧ i + 1 < n then a ⟨i + 1, h.2⟩ else a j

variable (a : Fin n → α) (i : ℕ) (x : α)

theorem setAt_memmove (h : i < n) : setAt (memmove a (i + 1) i (n - i - 1)) i x = insertAt a i x := by
  funext j
  simp only [setAt, memmove, insertAt]
  split_ifs <;> first | rfl | (exfalso; omega) | (congr 2; omega)

theorem setAt_memmove_delete (h : i < n) : setAt (memmove a i (i + 1) (n - i - 1)) (n - 1) x = deleteAt a i x := by
  funext j
  simp only [setAt, memmove, deleteAt]
  split_ifs <;> first | rfl | (exfalso; omega) | (congr 2; omega)

theorem copyBack_apply (k : ℕ) (hk : i ≤ k) (j : Fin n) :
    copyBack i k a j = if i < j.val ∧ j.val ≤ k then a ⟨j.val - 1, by omega⟩ else a j := by
  induction k generalizing a with
  | zero =>
    rw [copyBack, if_neg (by omega)]
  | succ k ih =>
    rw [copyBack]
    split_ifs with heq hj hj
    · omega
    · rfl
    · rw [ih _ (by omega)]
      dsimp only
      split_ifs <;> first | rfl | (exfalso; omega) | (congr 2; omega)
    · rw [ih _ (by omega)]
      dsimp only
      split_ifs <;> first | rfl | (exfalso; omega)

theorem setAt_copyBack (h : i < n) : setAt (copyBack i (n - 1) a) i x = insertAt a i x := by
  funext j
  simp only [setAt, insertAt, copyBack_apply a i (n - 1) (by omega)]
  split_ifs <;> first | rfl | (exfalso; omega)

theorem copyForward_apply (count : ℕ) (hcount : i + count < n) (j : Fin n) :
    copyForward i count a j = if h : i ≤ j.val ∧ j.val < i + count then a ⟨j.val + 1, by omega⟩ else a j := by
  induction count generalizing i a with
  | zero => rw [copyForward, dif_neg (by omega)]
  | succ count ih =>
    rw [copyForward, ih _ _ (by omega)]
    dsimp only
    split_ifs <;> first | rfl | (exfalso; omega) | (congr 2; omega)

theorem setAt_copyForward (h : i < n) : setAt (copyForward i (n - i - 1) a) (n - 1) x = deleteAt a i x := by
  funext j
  simp only [setAt, deleteAt, copyForward_apply a i (n - i - 1) (by omega)]
  split_ifs <;> first | rfl | (exfalso; omega)

section Relation

variable {R : α → β → Prop} {a i x} {b : Fin n → β} {y : β}

theorem setAt_rel (h : ∀ j, R (a j) (b j)) (hx : R x y) (j : Fin n) : R (setAt a i x j) (setAt b i y j) := by
  simp only [setAt]
  split_ifs
  · exact hx
  · exact h j

theorem insertAt_rel (h : ∀ j, R (a j) (b j)) (hx : R x y) (j : Fin n) : R (insertAt a i x j) (insertAt b i y j) := by
  simp only [insertAt]
  split_ifs
  · exact h j
  · exact hx
  · exact h _

theorem deleteAt_rel (h : ∀ j, R (a j) (b j)) (hx : R x y) (j : Fin n) : R (deleteAt a i x j) (deleteAt b i y j) := by
  simp only [deleteAt]
  split_ifs
  · exact h j
  · exact h _
  · exact hx

end Relation

end Fon9.Lib
