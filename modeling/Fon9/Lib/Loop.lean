import Mathlib.Data.Finset.Card
import Mathlib.Order.WellFounded

/-! Loops whose rounds either go on with another state or end with a result. A loop ends where
something that cannot fall for ever falls in every round, and it never ends where a round that
starts among certain states goes on among them. A walk through a finite set in the order of a
relation visits every element once, in order, and ends. -/

namespace Fon9.Lib

open Finset WellFoundedRelation

section Rounds

variable {S R : Type*}

/-- At most `fuel` rounds of a loop. -/
def loop (body : S → S ⊕ R) : ℕ → S → Option R
  | 0, _ => none
  | fuel + 1, s =>
    match body s with
    | .inl s' => loop body fuel s'
    | .inr r => some r

variable {body : S → S ⊕ R} {s s' : S} {r : R} {fuel : ℕ}

theorem loop_goes (h : body s = .inl s') : loop body (fuel + 1) s = loop body fuel s' := by
  rw [loop, h]

theorem loop_ends (h : body s = .inr r) : loop body (fuel + 1) s = some r := by
  rw [loop, h]

/-- A result stays the same with more rounds. -/
theorem loop_mono {more : ℕ} (hr : loop body fuel s = some r) (hmore : fuel ≤ more) :
    loop body more s = some r := by
  induction fuel generalizing s more with
  | zero => simp [loop] at hr
  | succ fuel ih =>
    cases more with
    | zero => omega
    | succ more =>
      cases hb : body s with
      | inl s' =>
        rw [loop_goes hb] at hr ⊢
        exact ih hr (by omega)
      | inr r' =>
        rw [loop_ends hb] at hr ⊢
        exact hr

/-- The rule of total correctness: the invariant `I` is kept and the variant falls in every
round that goes on, and a round that ends gives a result with `Q`. -/
theorem loop_total {α : Type*} [WellFoundedRelation α] (variant : S → α) {I : S → Prop} {Q : R → Prop}
    (hgoes : ∀ s s', I s → body s = .inl s' → I s' ∧ rel (variant s') (variant s))
    (hends : ∀ s r, I s → body s = .inr r → Q r) (h : I s) :
    ∃ n r, loop body n s = some r ∧ Q r := by
  have hwf : WellFounded (InvImage rel variant) := InvImage.wf variant wf
  induction s using hwf.induction with
  | h s ih =>
    cases hb : body s with
    | inr r => exact ⟨1, r, loop_ends hb, hends s r h hb⟩
    | inl s' =>
      obtain ⟨hI, hlt⟩ := hgoes s s' h hb
      obtain ⟨n, r, hr, hQ⟩ := ih s' hlt hI
      exact ⟨n + 1, r, by rw [loop_goes hb, hr], hQ⟩

end Rounds

section Walk

variable {α : Type*}

/-- `o` is the first element with `P`, if there is one. -/
def IsFirst (r : α → α → Prop) (P : α → Prop) : Option α → Prop
  | none => ∀ a, ¬ P a
  | some a => P a ∧ ∀ b, P b → b ≠ a → r a b

/-- The elements visited in at most `fuel` steps. -/
def walk (next : α → Option α) : ℕ → Option α → List α
  | 0, _ => []
  | _, none => []
  | fuel + 1, some a => a :: walk next fuel (next a)

variable {r : α → α → Prop}

theorem IsFirst.congr {P Q : α → Prop} (hPQ : ∀ a, P a ↔ Q a) {o : Option α} (h : IsFirst r P o) : IsFirst r Q o := by
  obtain rfl : P = Q := by
    funext a
    exact propext (hPQ a)
  exact h

theorem IsFirst.of_eq {P : α → Prop} {o o' : Option α} (h : IsFirst r P o) (ho : o = o') :
    IsFirst r P o' := ho ▸ h

/-- A walk that always finds a next element does not end. -/
theorem length_walk {P : α → Prop} {next : α → Option α} (hnext : ∀ a, P a → ∃ b, next a = some b ∧ P b) {a : α}
    (ha : P a) (fuel : ℕ) : (walk next fuel (some a)).length = fuel := by
  induction fuel generalizing a with
  | zero => rfl
  | succ fuel ih =>
    obtain ⟨b, hb, hP⟩ := hnext a ha
    rw [walk, hb, List.length_cons, ih hP]

/-- A walk from the first element of an upper part of `S` visits that part in order. -/
theorem walk_ordered (htrans : ∀ a b c, r a b → r b c → r a c) (hirrefl : ∀ a, ¬ r a a) {S : Finset α}
    {next : α → Option α} (hnext : ∀ a ∈ S, IsFirst r (fun b => b ∈ S ∧ r a b) (next a)) {fuel : ℕ} {T : Finset α}
    {o : Option α} (hsub : T ⊆ S) (hupper : ∀ a ∈ T, ∀ b ∈ S, r a b → b ∈ T) (hfirst : IsFirst r (· ∈ T) o)
    (hfuel : T.card ≤ fuel) :
    (walk next fuel o).Pairwise r ∧ ∀ a, a ∈ walk next fuel o ↔ a ∈ T := by
  classical
  induction fuel generalizing T o with
  | zero =>
    have hT : T = ∅ := card_eq_zero.mp (Nat.le_zero.mp hfuel)
    subst hT
    refine ⟨List.Pairwise.nil, fun a => ?_⟩
    simp [walk]
  | succ fuel ih =>
    cases o with
    | none =>
      refine ⟨List.Pairwise.nil, fun a => ?_⟩
      simpa [walk] using hfirst a
    | some a =>
      obtain ⟨ha, hleast⟩ := hfirst
      -- the part of `T` behind `a`
      let T' := T.filter (r a ·)
      have hmem : ∀ b, b ∈ T' ↔ b ∈ S ∧ r a b := by
        intro b
        rw [mem_filter]
        exact ⟨fun h => ⟨hsub h.1, h.2⟩, fun h => ⟨hupper a ha b h.1 h.2, h.2⟩⟩
      have hcard : T'.card ≤ fuel := by
        have hlt : T'.card < T.card := by
          refine card_lt_card (ssubset_iff_of_subset (filter_subset _ _) |>.mpr ⟨a, ha, ?_⟩)
          intro hmem
          exact hirrefl a (mem_filter.mp hmem).2
        omega
      have hrest := ih (T := T') (o := next a) (fun b hb => hsub (mem_filter.mp hb).1)
        (fun b hb c hc hbc => (hmem c).mpr ⟨hc, htrans a b c ((hmem b).mp hb).2 hbc⟩)
        ((hnext a (hsub ha)).congr fun b => (hmem b).symm) hcard
      refine ⟨List.pairwise_cons.mpr ⟨fun b hb => ((hmem b).mp ((hrest.2 b).mp hb)).2, hrest.1⟩, fun b => ?_⟩
      show b ∈ a :: walk next fuel (next a) ↔ b ∈ T
      rw [List.mem_cons, hrest.2 b, mem_filter]
      constructor
      · rintro (rfl | hb)
        · exact ha
        · exact hb.1
      · intro hb
        by_cases hba : b = a
        · exact .inl hba
        · exact .inr ⟨hb, hleast b hb hba⟩

end Walk

end Fon9.Lib
