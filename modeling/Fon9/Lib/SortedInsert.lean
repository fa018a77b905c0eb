import Mathlib.Order.Lattice
import Mathlib.Data.List.Perm.Subperm

/-! Insertion into a list kept strictly ascending by a key, and removal from it: an element
whose key is already present is refused and the list is unchanged. Bisection with reads that can
fail: the places before a bound are below, those from it on are not; the search halves the places
that are left and finds the bound. The place in front of the first one may be among them: it is
not read, because the first one is below. -/

namespace Fon9.Lib

open List

section Insert

variable {α β : Type*} [LinearOrder β] (key : α → β)

/-- Insert at the lower bound of the key; `false` when the key is present. -/
def sortedInsert (x : α) : List α → List α × Bool
  | [] => ([x], true)
  | y :: ys =>
    if key y < key x then
      let r := sortedInsert x ys
      (y :: r.1, r.2)
    else if key x < key y then (x :: y :: ys, true)
    else (y :: ys, false)

variable {key} {x : α} {l : List α}

theorem sortedInsert_false (h : (sortedInsert key x l).2 = false) : (sortedInsert key x l).1 = l := by
  induction l with
  | nil => simp [sortedInsert] at h
  | cons y ys ih =>
    simp only [sortedInsert] at h ⊢
    split_ifs at h ⊢ with h1 h2
    · rw [ih h]
    · rfl

/-- In an ascending list the element is refused exactly where its key is present. -/
theorem sortedInsert_false_iff (hsorted : l.Pairwise fun a b => key a < key b) :
    (sortedInsert key x l).2 = false ↔ key x ∈ l.map key := by
  induction l with
  | nil => simp [sortedInsert]
  | cons y ys ih =>
    obtain ⟨hfirst, hrest⟩ := pairwise_cons.mp hsorted
    rw [map_cons, mem_cons, sortedInsert]
    split_ifs with h1 h2
    · rw [ih hrest]
      exact ⟨.inr, fun h => h.resolve_left h1.ne'⟩
    · refine ⟨fun h => (nomatch h), fun h => ?_⟩
      rcases h with h | h
      · exact absurd h h2.ne
      · obtain ⟨z, hz, hkey⟩ := mem_map.mp h
        exact absurd (hkey ▸ hfirst z hz) (not_lt.mpr h2.le)
    · exact ⟨fun _ => .inl (le_antisymm (not_lt.mp h1) (not_lt.mp h2)), fun _ => rfl⟩

theorem sortedInsert_perm (h : (sortedInsert key x l).2 = true) :
    (sortedInsert key x l).1.Perm (x :: l) := by
  induction l with
  | nil => exact .refl _
  | cons y ys ih =>
    simp only [sortedInsert] at h ⊢
    split_ifs at h ⊢ with h1 h2
    · exact ((ih h).cons y).trans (.swap x y ys)
    · exact .refl _

theorem mem_sortedInsert {z : α} (h : z ∈ (sortedInsert key x l).1) : z = x ∨ z ∈ l := by
  cases hb : (sortedInsert key x l).2 with
  | false => exact .inr (sortedInsert_false hb ▸ h)
  | true => exact mem_cons.mp ((sortedInsert_perm hb).mem_iff.mp h)

/-- A relation that holds along the list and between the new element and its
neighbours on either side of its key holds along the new list. -/
theorem sortedInsert_pairwise {R : α → α → Prop} (hl : l.Pairwise R)
    (hbelow : ∀ y ∈ l, key y < key x → R y x) (habove : ∀ y ∈ l, key x < key y → R x y)
    (hsorted : l.Pairwise fun a b => key a < key b) :
    (sortedInsert key x l).1.Pairwise R := by
  induction l with
  | nil => exact pairwise_singleton _ _
  | cons y ys ih =>
    rw [pairwise_cons] at hl hsorted
    simp only [sortedInsert]
    split_ifs with h1 h2
    · refine pairwise_cons.mpr ⟨fun z hz => ?_, ih hl.2 (fun z hz => hbelow z (by simp [hz]))
        (fun z hz => habove z (by simp [hz])) hsorted.2⟩
      rcases mem_sortedInsert hz with rfl | hz
      · exact hbelow y (by simp) h1
      · exact hl.1 z hz
    · refine pairwise_cons.mpr ⟨fun z hz => ?_, pairwise_cons.mpr hl⟩
      rcases mem_cons.mp hz with rfl | hz
      · exact habove _ (by simp) h2
      · exact habove z (by simp [hz]) (lt_trans h2 (hsorted.1 z hz))
    · exact pairwise_cons.mpr hl

/-- What is new is in the list, unless its key was there. -/
theorem mem_sortedInsert_iff (hsorted : l.Pairwise fun a b => key a < key b) (hfree : ∀ y ∈ l, key y ≠ key x) {z : α} :
    z ∈ (sortedInsert key x l).1 ↔ z = x ∨ z ∈ l := by
  cases hb : (sortedInsert key x l).2 with
  | true => exact (sortedInsert_perm hb).mem_iff.trans mem_cons
  | false =>
    obtain ⟨y, hy, hkey⟩ := mem_map.mp ((sortedInsert_false_iff hsorted).mp hb)
    exact absurd hkey (hfree y hy)

theorem sortedInsert_sorted (hsorted : l.Pairwise fun a b => key a < key b) :
    (sortedInsert key x l).1.Pairwise fun a b => key a < key b :=
  sortedInsert_pairwise hsorted (fun _ _ h => h) (fun _ _ h => h) hsorted

/-! ### Removal by key -/

variable (key) in
/-- Remove the element at the lower bound of the key, if it is the key's. -/
def sortedErase (k : β) : List α → List α
  | [] => []
  | y :: ys => if key y < k then y :: sortedErase k ys else if k < key y then y :: ys else ys

theorem sortedErase_eq_filter {k : β} (hsorted : l.Pairwise fun a b => key a < key b) :
    sortedErase key k l = l.filter fun y => key y ≠ k := by
  induction l with
  | nil => rfl
  | cons y ys ih =>
    obtain ⟨hfirst, hrest⟩ := pairwise_cons.mp hsorted
    have hpast : k ≤ key y → ys.filter (fun z => key z ≠ k) = ys := fun hle =>
      filter_eq_self.mpr fun z hz => decide_eq_true (hle.trans_lt (hfirst z hz)).ne'
    rw [sortedErase]
    split_ifs with h1 h2
    · rw [filter_cons_of_pos (by simpa using h1.ne), ih hrest]
    · rw [filter_cons_of_pos (by simpa using h2.ne'), hpast h2.le]
    · have hkey : key y = k := le_antisymm (not_lt.mp h2) (not_lt.mp h1)
      rw [filter_cons_of_neg (by simp [hkey]), hpast hkey.ge]

end Insert

section Bisect

variable {α : Type*}

/-- `std::lower_bound` over `count` places from `first` on. -/
def lowerBound (read : ℤ → Option α) (below : α → Bool) (count : ℕ) (first : ℤ) : Option ℤ :=
  if count = 0 then some first
  else
    let step := count / 2
    match read (first + step) with
    | none => none
    | some x =>
      if below x then lowerBound read below (count - (step + 1)) (first + step + 1)
      else lowerBound read below step first
  termination_by count

variable {read : ℤ → Option α} {below : α → Bool} {bound : ℤ}

/-- The bound is found, though the search may begin one place in front of the first. -/
theorem lowerBound_eq (count : ℕ) (first : ℤ) (hle : first ≤ bound) (hge : bound ≤ first + count)
    (hfirst : 0 ≤ first ∨ first = -1 ∧ 1 ≤ bound)
    (hread : ∀ i, 0 ≤ i → i < first + count → ∃ x, read i = some x ∧ (below x = true ↔ i < bound)) :
    lowerBound read below count first = some bound := by
  induction count using Nat.strongRecOn generalizing first with
  | ind count ih =>
    rw [lowerBound]
    by_cases hzero : count = 0
    · rw [if_pos hzero]
      subst hzero
      exact congrArg some (le_antisymm hle (by omega))
    · rw [if_neg hzero]
      -- the place in front of the first is not in the middle of two or more
      obtain ⟨x, hx, hbelow⟩ := hread (first + (count / 2 : ℕ)) (by omega) (by omega)
      dsimp only
      rw [hx]
      dsimp only
      by_cases hlt : first + (count / 2 : ℕ) < bound
      · rw [if_pos (hbelow.mpr hlt)]
        exact ih _ (by omega) _ (by omega) (by omega) (by omega) (fun i h0 hi => hread i h0 (by omega))
      · rw [if_neg (fun h => hlt (hbelow.mp h))]
        exact ih _ (by omega) _ (by omega) (by omega) (by omega) (fun i h0 hi => hread i h0 (by omega))

end Bisect

end Fon9.Lib
