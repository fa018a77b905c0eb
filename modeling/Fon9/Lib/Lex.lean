import Mathlib.Data.List.Lex
import Mathlib.Order.Bounds.Basic

/-! Lists in lexicographic order, by where they part. Behind a list come first those
that go on from it, then those that part from it upwards, which lie behind all that go
on from it. -/

namespace Fon9.Lib

open List

variable {α : Type*} [LinearOrder α]

variable (as : List α)

theorem nil_le : [] ≤ as := by
  cases as with
  | nil => exact le_rfl
  | cons a as => exact (nil_lt_cons a as).le

/-- The second list parts from the first upwards. -/
def Beyond : List α → List α → Prop
  | a :: as, b :: bs => a < b ∨ a = b ∧ Beyond as bs
  | _, _ => False

@[simp] theorem not_beyond_nil_left (bs : List α) : ¬ Beyond [] bs := id

@[simp] theorem not_beyond_nil_right : ¬ Beyond as [] := by
  cases as <;> exact id

theorem beyond_concat (a : α) (bs : List α) :
    Beyond (as ++ [a]) bs ↔ (∃ b t, a < b ∧ bs = as ++ b :: t) ∨ Beyond as bs := by
  induction as generalizing bs with
  | nil =>
    cases bs with
    | nil => simp
    | cons b bs => simp [Beyond]
  | cons c as ih =>
    cases bs with
    | nil => simp
    | cons b bs =>
      simp only [cons_append, Beyond, ih, List.cons.injEq]
      constructor
      · rintro (hlt | ⟨rfl, ⟨b', t, hlt, rfl⟩ | hb⟩)
        · exact .inr (.inl hlt)
        · exact .inl ⟨b', t, hlt, rfl, rfl⟩
        · exact .inr (.inr ⟨rfl, hb⟩)
      · rintro (⟨b', t, hlt, rfl, rfl⟩ | hlt | ⟨rfl, hb⟩)
        · exact .inr ⟨rfl, .inl ⟨b', t, hlt, rfl⟩⟩
        · exact .inl hlt
        · exact .inr ⟨rfl, .inr hb⟩

/-- What comes behind a list goes on from it or parts from it upwards. -/
theorem lt_iff_extends_or_beyond (as bs : List α) :
    as < bs ↔ (∃ b t, bs = as ++ b :: t) ∨ Beyond as bs := by
  induction as generalizing bs with
  | nil =>
    cases bs with
    | nil => simp
    | cons b bs => simp
  | cons a as ih =>
    cases bs with
    | nil => simp
    | cons b bs =>
      simp only [cons_lt_cons_iff, ih, Beyond, cons_append, List.cons.injEq]
      constructor
      · rintro (hlt | ⟨rfl, ⟨b', t, rfl⟩ | hb⟩)
        · exact .inr (.inl hlt)
        · exact .inl ⟨b', t, rfl, rfl⟩
        · exact .inr (.inr ⟨rfl, hb⟩)
      · rintro (⟨b', t, rfl, rfl⟩ | hlt | ⟨rfl, hb⟩)
        · exact .inr ⟨rfl, .inl ⟨b', t, rfl⟩⟩
        · exact .inl hlt
        · exact .inr ⟨rfl, .inr hb⟩

theorem append_lt_append_iff (as bs cs : List α) : as ++ bs < as ++ cs ↔ bs < cs := by
  induction as with
  | nil => rfl
  | cons a as ih => simp only [cons_append, cons_lt_cons_iff, lt_irrefl, true_and, false_or, ih]

theorem append_le_append_iff (as bs cs : List α) : as ++ bs ≤ as ++ cs ↔ bs ≤ cs := by
  rw [← not_lt, ← not_lt, append_lt_append_iff]

theorem lt_append_cons (a : α) (t : List α) : as < as ++ a :: t := by
  rw [lt_iff_extends_or_beyond]
  exact .inl ⟨a, t, rfl⟩

theorem Beyond.append_lt {as bs : List α} (h : Beyond as bs) (t : List α) : as ++ t < bs := by
  induction as generalizing bs with
  | nil => exact absurd h id
  | cons a as ih =>
    cases bs with
    | nil => exact absurd h id
    | cons b bs =>
      rw [cons_append, cons_lt_cons_iff]
      obtain hlt | ⟨rfl, hb⟩ := h
      · exact .inl hlt
      · exact .inr ⟨rfl, ih hb⟩

/-- What comes before a list with one more place comes before the list, is the list, or
parts from it downwards in that place. -/
theorem lt_concat_iff (a : α) (bs : List α) :
    bs < as ++ [a] ↔ (∃ b t, b < a ∧ bs = as ++ b :: t) ∨ bs = as ∨ bs < as := by
  induction as generalizing bs with
  | nil =>
    cases bs with
    | nil => simp
    | cons b bs => simp [cons_lt_cons_iff]
  | cons c as ih =>
    cases bs with
    | nil => simp
    | cons b bs =>
      simp only [cons_append, cons_lt_cons_iff, ih, List.cons.injEq]
      constructor
      · rintro (hlt | ⟨rfl, ⟨b', t, hlt, rfl⟩ | rfl | hlt⟩)
        · exact .inr (.inr (.inl hlt))
        · exact .inl ⟨b', t, hlt, rfl, rfl⟩
        · exact .inr (.inl ⟨rfl, rfl⟩)
        · exact .inr (.inr (.inr ⟨rfl, hlt⟩))
      · rintro (⟨b', t, hlt, rfl, rfl⟩ | ⟨rfl, rfl⟩ | hlt | ⟨rfl, hlt⟩)
        · exact .inr ⟨rfl, .inl ⟨b', t, hlt, rfl⟩⟩
        · exact .inr ⟨rfl, .inr (.inl rfl)⟩
        · exact .inl hlt
        · exact .inr ⟨rfl, .inr (.inr hlt)⟩

/-- A list with a smaller element in one place comes before. -/
theorem append_cons_lt_append_cons {a b : α} (h : a < b) (s t : List α) :
    as ++ a :: s < as ++ b :: t := by
  rw [append_lt_append_iff, cons_lt_cons_iff]
  exact .inl h

end Fon9.Lib
