import Mathlib.Data.List.Infix
import Mathlib.Data.List.Forall2

/-! Patterns with stars: a star stands for any sequence, every other symbol for one element.
A search for the part behind a star needs to remember the last star only: what the
symbols between two stars stand for may as well be their first occurrence. -/

namespace Fon9.Lib.Glob

open List

variable {α : Type*}

inductive Sym (α : Type*)
  | star
  | any
  | lit (a : α)

/-- The elements that a symbol stands for; a star stands for no single one. -/
def Sym.Accepts : Sym α → α → Prop
  | .star, _ => False
  | .any, _ => True
  | .lit a, b => a = b

/-- The sequence `s` is one that the pattern stands for. -/
def Matches : List (Sym α) → List α → Prop
  | [], s => s = []
  | .star :: w, s => ∃ t u, s = t ++ u ∧ Matches w u
  | p :: w, s => ∃ a u, s = a :: u ∧ p.Accepts a ∧ Matches w u

variable {p : Sym α} {w d : List (Sym α)} {s t u : List α} {a : α}

@[simp] theorem matches_nil : Matches [] s ↔ s = [] := Iff.rfl

/-- A star stands for any part in front. -/
theorem matches_star : Matches (.star :: w) s ↔ ∃ u, u <:+ s ∧ Matches w u := by
  constructor
  · rintro ⟨t, u, rfl, h⟩
    exact ⟨u, suffix_append t u, h⟩
  · rintro ⟨u, ⟨t, rfl⟩, h⟩
    exact ⟨t, u, rfl, h⟩

theorem matches_cons (hp : p ≠ .star) : Matches (p :: w) (a :: s) ↔ p.Accepts a ∧ Matches w s := by
  cases p with
  | star => exact absurd rfl hp
  | any =>
    simp only [Matches, List.cons.injEq]
    constructor
    · rintro ⟨b, u, ⟨rfl, rfl⟩, h⟩
      exact h
    · exact fun h => ⟨a, s, ⟨rfl, rfl⟩, h⟩
  | lit b =>
    simp only [Matches, List.cons.injEq]
    constructor
    · rintro ⟨b, u, ⟨rfl, rfl⟩, h⟩
      exact h
    · exact fun h => ⟨a, s, ⟨rfl, rfl⟩, h⟩

theorem not_matches_cons_nil (hp : p ≠ .star) : ¬ Matches (p :: w) [] := by
  cases p with
  | star => exact absurd rfl hp
  | any => simp [Matches]
  | lit b => simp [Matches]

/-- Only stars stand for nothing. -/
theorem matches_nil_iff : Matches w [] ↔ ∀ p ∈ w, p = .star := by
  induction w with
  | nil => simp
  | cons p w ih =>
    by_cases hp : p = .star
    · subst hp
      rw [matches_star, forall_mem_cons, ← ih]
      simp
    · simp [not_matches_cons_nil hp, hp]

theorem Sym.Accepts.ne_star (h : p.Accepts a) : p ≠ .star := by
  rintro rfl
  exact h

/-- Symbols that each stand for one element take their elements off the front. -/
theorem matches_append (h : List.Forall₂ Sym.Accepts d t) : Matches (d ++ w) (t ++ s) ↔ Matches w s := by
  induction h with
  | nil => rfl
  | cons hpa _ ih =>
    rw [cons_append, cons_append, matches_cons hpa.ne_star, ih]
    exact and_iff_right hpa

/-- What a pattern stands for has a front part for its symbols up to the first star. -/
theorem Matches.split (hd : ∀ p ∈ d, p ≠ .star) (h : Matches (d ++ w) s) :
    ∃ t u, s = t ++ u ∧ List.Forall₂ Sym.Accepts d t ∧ Matches w u := by
  induction d generalizing s with
  | nil => exact ⟨[], s, rfl, .nil, h⟩
  | cons p d ih =>
    have hp := hd p (by simp)
    cases s with
    | nil => exact absurd h (not_matches_cons_nil hp)
    | cons a s =>
      obtain ⟨hpa, hrest⟩ := (matches_cons hp).mp h
      obtain ⟨t, u, rfl, hdt, hu⟩ := ih (fun q hq => hd q (by simp [hq])) hrest
      exact ⟨a :: t, u, rfl, .cons hpa hdt, hu⟩

/-- A star takes more in front. -/
theorem Matches.star_of_suffix (h : Matches (.star :: w) u) (hus : u <:+ s) : Matches (.star :: w) s := by
  obtain ⟨v, hv, hw⟩ := matches_star.mp h
  exact matches_star.mpr ⟨v, hv.trans hus, hw⟩

/-- Where the rest does not stand for the whole sequence, the star stands for its first
element at least. -/
theorem matches_star_tail (h : ¬ Matches w s) : Matches (.star :: w) s ↔ Matches (.star :: w) s.tail ∧ s ≠ [] := by
  cases s with
  | nil => simpa [matches_star] using h
  | cons a s =>
    simp only [matches_star, tail_cons, ne_eq, reduceCtorEq, not_false_eq_true, and_true, suffix_cons_iff]
    constructor
    · rintro ⟨u, rfl | hu, hw⟩
      · exact absurd hw h
      · exact ⟨u, hu, hw⟩
    · rintro ⟨u, hu, hw⟩
      exact ⟨u, .inr hu, hw⟩

section

variable (h : List.Forall₂ Sym.Accepts d t)
include h

theorem ne_star_of_accepts : ∀ p ∈ d, p ≠ .star := by
  induction h with
  | nil => simp
  | cons hpa _ ih =>
    rw [forall_mem_cons]
    exact ⟨hpa.ne_star, ih⟩

/-- What stands behind a star and symbols of one element each leaves what is behind as many
elements. -/
theorem Matches.behind (hm : Matches (.star :: (d ++ w)) (t ++ s)) :
    ∃ u, u <:+ s ∧ Matches w u := by
  obtain ⟨v, hv, hdw⟩ := matches_star.mp hm
  obtain ⟨t', u, rfl, hdt', hu⟩ := hdw.split (ne_star_of_accepts h)
  have hlen : t'.length = t.length := hdt'.length_eq.symm.trans h.length_eq
  have hle := hv.length_le
  simp only [length_append] at hle
  refine ⟨u, ?_, hu⟩
  exact suffix_of_suffix_length_le ((suffix_append t' u).trans hv) (suffix_append t s) (by omega)

/-- The commitment: once the symbols up to the next star have been found, it is enough to
search behind them. -/
theorem matches_star_commit :
    Matches (.star :: (d ++ .star :: w)) (t ++ s) ↔ Matches (.star :: w) s := by
  constructor
  · intro hm
    obtain ⟨u, hus, hu⟩ := hm.behind h
    exact hu.star_of_suffix hus
  · intro hm
    exact matches_star.mpr ⟨t ++ s, suffix_refl _, (matches_append h).mpr hm⟩

/-- At the end of the sequence only stars may be left. -/
theorem matches_star_end :
    Matches (.star :: (d ++ w)) t ↔ ∀ p ∈ w, p = .star := by
  rw [← matches_nil_iff]
  constructor
  · intro hm
    rw [← append_nil t] at hm
    obtain ⟨u, hus, hu⟩ := hm.behind h
    rwa [suffix_nil.mp hus] at hu
  · intro hm
    have hall := (matches_append (s := []) h).mpr hm
    rw [append_nil] at hall
    exact matches_star.mpr ⟨t, suffix_refl _, hall⟩

end

end Fon9.Lib.Glob
