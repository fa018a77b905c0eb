import Mathlib.Data.List.Rotate

/-! Cyclic sequence numbers, which run from `lo` to `hi` and start over at `lo`: the distance
from `a` to `b` counts the successor steps that lead from `a` to `b`; it is what "ahead of" means
where no number is globally first. Going round a list from a place on: the elements in the order
in which they come. -/

namespace Fon9.Lib.Cyclic

variable {lo hi a b : ℕ}

/-- The number after `n`, starting over at `lo` after `hi`. -/
def succ (lo hi n : ℕ) : ℕ := if n = hi then lo else n + 1

/-- How many successor steps lead from `a` to `b`. -/
def dist (lo hi a b : ℕ) : ℕ := if a ≤ b then b - a else b + (hi + 1 - lo) - a

theorem succ_mem (hl : lo ≤ hi) (ha : lo ≤ a) (hb : a ≤ hi) :
    lo ≤ succ lo hi a ∧ succ lo hi a ≤ hi := by
  unfold succ
  split <;> omega

/-- The way to a farther number leads past the nearer one. -/
theorem dist_of_lt {n : ℕ} (hn : n ≤ hi) (hl : lo ≤ n) (ha : lo ≤ a) (ha' : a ≤ hi) (hb : lo ≤ b)
    (hb' : b ≤ hi) (h : dist lo hi n a < dist lo hi n b) :
    dist lo hi n b = dist lo hi n a + 1 + dist lo hi (succ lo hi a) b := by
  unfold dist succ at *
  split_ifs at h ⊢ <;> omega

end Fon9.Lib.Cyclic

namespace Fon9.Lib

open List

variable {α : Type*} {l : List α} {i : ℕ}

/-- The elements from place `i` on, then those before it; behind the end the first place comes. -/
def roundFrom (l : List α) (i : ℕ) : List α := l.rotate (if l.length ≤ i then 0 else i)

theorem roundFrom_wrap (l : List α) (i : ℕ) : roundFrom l (if l.length ≤ i then 0 else i) = roundFrom l i := by
  rw [roundFrom, roundFrom]
  split_ifs
  · rfl
  · rfl
  · rfl

theorem length_roundFrom (l : List α) (i : ℕ) : (roundFrom l i).length = l.length := length_rotate ..

theorem roundFrom_of_lt (h : i < l.length) : roundFrom l i = l[i] :: (l.drop (i + 1) ++ l.take i) := by
  rw [roundFrom, if_neg (not_le.mpr h), rotate_eq_drop_append_take h.le, drop_eq_getElem_cons h,
    cons_append]

/-- One place further the first element is the last. -/
theorem roundFrom_succ (h : i < l.length) : roundFrom l (i + 1) = (roundFrom l i).tail ++ [l[i]] := by
  have htake : l.take (i + 1) = l.take i ++ [l[i]] := (take_concat_get' l i h).symm
  rw [roundFrom_of_lt h, tail_cons, append_assoc, ← htake, roundFrom]
  split
  · next hlen =>
    rw [rotate_zero, drop_eq_nil_of_le hlen, take_of_length_le hlen, nil_append]
  · next hlen => exact rotate_eq_drop_append_take (Nat.le_of_not_le hlen)

/-- Without the element at the place the next one is the first. -/
theorem roundFrom_eraseIdx (h : i < l.length) : roundFrom (l.eraseIdx i) i = (roundFrom l i).tail := by
  have hlen : (l.eraseIdx i).length = l.length - 1 := length_eraseIdx_of_lt h
  have herase : l.eraseIdx i = l.take i ++ l.drop (i + 1) := eraseIdx_eq_take_drop_succ l i
  have htake : (l.take i).length = i := length_take_of_le h.le
  rw [roundFrom_of_lt h, tail_cons, roundFrom, hlen, herase]
  split
  · next hend =>
    rw [rotate_zero, drop_eq_nil_of_le (by omega), append_nil, nil_append]
  · calc (l.take i ++ l.drop (i + 1)).rotate i
        = (l.take i ++ l.drop (i + 1)).rotate (l.take i).length := by rw [htake]
      _ = l.drop (i + 1) ++ l.take i := rotate_append_length_eq _ _

/-- What has been passed when `k` elements are left to come. -/
def passed (l : List α) (i k : ℕ) : List α := (roundFrom l i).drop k

theorem passed_subset (l : List α) (i k : ℕ) : passed l i k ⊆ l := by
  intro a ha
  exact mem_rotate.mp (mem_of_mem_drop ha)

theorem passed_succ {k : ℕ} (h : i < l.length) (hk : k < l.length) :
    passed l (i + 1) k = passed l i (k + 1) ++ [l[i]] := by
  have hlen : k ≤ (roundFrom l i).tail.length := by
    rw [length_tail, length_roundFrom]
    omega
  rw [passed, roundFrom_succ h, drop_append_of_le_length hlen, passed, ← drop_tail]

theorem passed_eraseIdx (h : i < l.length) (k : ℕ) : passed (l.eraseIdx i) i k = passed l i (k + 1) := by
  rw [passed, roundFrom_eraseIdx h, passed, ← drop_tail]

/-- The element that comes has not been passed. -/
theorem not_mem_passed {k : ℕ} (hl : l.Nodup) (h : i < l.length) : l[i] ∉ passed l i (k + 1) := by
  have hround : (roundFrom l i).Nodup := (nodup_rotate).mpr hl
  rw [roundFrom_of_lt h, nodup_cons] at hround
  rw [passed, roundFrom_of_lt h, drop_succ_cons]
  exact fun hmem => hround.1 (mem_of_mem_drop hmem)

end Fon9.Lib
