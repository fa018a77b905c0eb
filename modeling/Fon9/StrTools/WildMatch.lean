import Fon9.Base.StrTo
import Fon9.Lib.Glob
import Fon9.Lib.Loop

/-! `IsStrWildMatch`: a text against a pattern with the wildcards "*" and "?". It goes back to the
last star only, and gives what the pattern says. -/

namespace Fon9.StrTools

open Lib Lib.Glob List

/-- The cursors of the second loop. A pointer that has not been set is `none`. -/
structure WildMatch where
  str : Bytes
  wild : Bytes
  pWild : Option Bytes
  pStr : Option Bytes

inductive WildResult
  | result (isMatch : Bool)
  | nullPointer
  deriving DecidableEq

/-- The first loop: up to the first star or the end of `str`; `none` where it returns false. -/
def wildHead : Bytes → Bytes → Option (Bytes × Bytes)
  | [], wild => some ([], wild)
  | _ :: _, [] => none
  | sch :: str, wch :: wild =>
    if wch = ch '*' then some (sch :: str, wch :: wild)
    else if wch ≠ sch ∧ wch ≠ ch '?' then none
    else wildHead str wild

/-- The last loop: only stars may be left. -/
def wildTail : Bytes → Bool
  | [] => true
  | wch :: wild => if wch ≠ ch '*' then false else wildTail wild

/-- Back to the last star, one character further on. -/
def wildBack (c : WildMatch) : WildMatch ⊕ WildResult :=
  match c.pWild, c.pStr with
  | some pWild, some pStr => .inl { str := pStr, wild := pWild, pWild := some pWild, pStr := some pStr.tail }
  | _, _ => .inr .nullPointer

/-- A round of the second loop. -/
def wildBody (c : WildMatch) : WildMatch ⊕ WildResult :=
  match c.str, c.wild with
  | [], wild => .inr (.result (wildTail wild))
  | _ :: _, [] => wildBack c
  | sch :: str, wch :: wild =>
    if wch = ch '*' then
      if wild = [] then .inr (.result true)
      else .inl { c with wild := wild, pWild := some wild, pStr := some str }
    else if wch = sch ∨ wch = ch '?' then .inl { c with wild := wild, str := str }
    else wildBack c

/-- `IsStrWildMatch`, with at most `fuel` rounds of the second loop. -/
def isStrWildMatch (fuel : ℕ) (str wild : Bytes) : Option WildResult :=
  match wildHead str wild with
  | none => some (.result false)
  | some (str, wild) => loop wildBody fuel { str := str, wild := wild, pWild := none, pStr := none }

/-! ### The pattern -/

/-- What a character of a pattern stands for. -/
def wildSym (c : UInt8) : Sym UInt8 :=
  if c = ch '*' then .star else if c = ch '?' then .any else .lit c

/-- The pattern that `wild` spells. -/
def wildPattern (wild : Bytes) : List (Sym UInt8) := wild.map wildSym

variable {str wild d t : Bytes} {wch sch : UInt8} {c c' : WildMatch}

@[simp] theorem wildPattern_nil : wildPattern [] = [] := rfl

@[simp] theorem wildPattern_cons : wildPattern (wch :: wild) = wildSym wch :: wildPattern wild := rfl

@[simp] theorem wildPattern_append : wildPattern (d ++ wild) = wildPattern d ++ wildPattern wild :=
  map_append

@[simp] theorem wildSym_star : wildSym (ch '*') = .star := rfl

theorem wildSym_eq_star_iff : wildSym wch = .star ↔ wch = ch '*' := by
  rw [wildSym]
  split_ifs with hstar hany
  · simp [hstar]
  · simp [hstar]
  · simp [hstar]

theorem accepts_wildSym_iff (h : wch ≠ ch '*') : (wildSym wch).Accepts sch ↔ wch = sch ∨ wch = ch '?' := by
  rw [wildSym, if_neg h]
  split_ifs with hany
  · simp [Sym.Accepts, hany]
  · simp [Sym.Accepts, hany]

theorem matches_wild_cons (h : wch ≠ ch '*') :
    Matches (wildPattern (wch :: wild)) (sch :: str) ↔
      (wch = sch ∨ wch = ch '?') ∧ Matches (wildPattern wild) str := by
  rw [wildPattern_cons, matches_cons (mt wildSym_eq_star_iff.mp h), accepts_wildSym_iff h]

theorem wildTail_iff : wildTail wild = true ↔ ∀ p ∈ wildPattern wild, p = .star := by
  induction wild with
  | nil => simp [wildTail]
  | cons wch wild ih =>
    rw [wildTail, wildPattern_cons, forall_mem_cons, wildSym_eq_star_iff, ← ih]
    by_cases hstar : wch = ch '*'
    · simp [hstar]
    · simp [hstar]

/-! ### The first loop -/

theorem wildHead_none (h : wildHead str wild = none) : ¬ Matches (wildPattern wild) str := by
  induction str generalizing wild with
  | nil => simp [wildHead] at h
  | cons sch str ih =>
    cases wild with
    | nil => simp
    | cons wch wild =>
      rw [wildHead] at h
      split_ifs at h with hstar hne
      · rw [matches_wild_cons hstar]
        rintro ⟨heq | heq, -⟩
        · exact hne.1 heq
        · exact hne.2 heq
      · rw [matches_wild_cons hstar]
        exact fun hm => ih h hm.2

theorem wildHead_some {str' wild' : Bytes} (h : wildHead str wild = some (str', wild')) :
    (str' ≠ [] → ∃ w, wild' = ch '*' :: w) ∧
      (Matches (wildPattern wild') str' ↔ Matches (wildPattern wild) str) := by
  induction str generalizing wild with
  | nil =>
    cases h
    exact ⟨fun h => absurd rfl h, Iff.rfl⟩
  | cons sch str ih =>
    cases wild with
    | nil => simp [wildHead] at h
    | cons wch wild =>
      rw [wildHead] at h
      split_ifs at h with hstar hne
      · cases h
        exact ⟨fun _ => ⟨wild, by rw [hstar]⟩, Iff.rfl⟩
      · obtain ⟨hfirst, hiff⟩ := ih h
        have heq : wch = sch ∨ wch = ch '?' := by tauto
        refine ⟨hfirst, ?_⟩
        rw [hiff, matches_wild_cons hstar, and_iff_right heq]

/-! ### The second loop -/

/-- The text is one of the pattern where `P` holds: before the first star has been taken, and
behind a star, where `d` has been found to be `t`. -/
inductive Searching (P : Prop) : WildMatch → Prop
  | fresh {str wild : Bytes} (hstar : str ≠ [] → ∃ w, wild = ch '*' :: w) (hP : Matches (wildPattern wild) str ↔ P) :
      Searching P { str := str, wild := wild, pWild := none, pStr := none }
  | behind {d t str wild : Bytes} (hdt : List.Forall₂ Sym.Accepts (wildPattern d) t)
      (hP : Matches (.star :: wildPattern (d ++ wild)) (t ++ str) ↔ P) :
      Searching P { str := str, wild := wild, pWild := some (d ++ wild), pStr := some (t ++ str).tail }

/-- What falls in every round: the pattern behind the last star, else the text behind it, else
the text that is left. -/
def WildMatch.left (c : WildMatch) : ℕ × ℕ × ℕ :=
  ((c.pWild.getD c.wild).length, (c.pStr.getD []).length, c.str.length)

/-- Whether one triple of numbers is below another. -/
def Below (a b : ℕ × ℕ × ℕ) : Prop := WellFoundedRelation.rel a b

theorem below_of_lt {a b a' b' c c' : ℕ} (h : a' < a ∨ a' = a ∧ (b' < b ∨ b' = b ∧ c' < c)) :
    Below (a', b', c') (a, b, c) := by
  rcases h with h | ⟨rfl, h | ⟨rfl, h⟩⟩
  · exact Prod.Lex.left _ _ h
  · exact Prod.Lex.right _ (Prod.Lex.left _ _ h)
  · exact Prod.Lex.right _ (Prod.Lex.right _ h)

theorem searching_star {P : Prop} (hP : Matches (.star :: wildPattern wild) (sch :: str) ↔ P) :
    Searching P { str := sch :: str, wild := wild, pWild := some wild, pStr := some str } :=
  .behind (d := []) (t := []) .nil hP

theorem wildBack_goes {P : Prop} (hdt : List.Forall₂ Sym.Accepts (wildPattern d) t)
    (hP : Matches (.star :: wildPattern (d ++ wild)) (t ++ sch :: str) ↔ P)
    (hwild : ¬ Matches (wildPattern wild) (sch :: str))
    (h : wildBack { str := sch :: str, wild := wild, pWild := some (d ++ wild), pStr := some (t ++ sch :: str).tail } =
      .inl c') :
    Searching P c' ∧ Below c'.left
      (WildMatch.left { str := sch :: str, wild := wild, pWild := some (d ++ wild),
                        pStr := some (t ++ sch :: str).tail }) := by
  cases h
  have hbase : ¬ Matches (wildPattern (d ++ wild)) (t ++ sch :: str) := by
    rwa [wildPattern_append, matches_append hdt]
  rw [matches_star_tail hbase, and_iff_left (by simp)] at hP
  constructor
  · exact .behind (d := []) (t := []) .nil hP
  · apply below_of_lt
    simp only [Option.getD_some, length_tail, length_append, length_cons, true_and]
    omega

theorem wildBody_goes {P : Prop} (hc : Searching P c) (h : wildBody c = .inl c') :
    Searching P c' ∧ Below c'.left c.left := by
  cases hc with
  | @fresh str wild hstar hP =>
    cases str with
    | nil => simp [wildBody] at h
    | cons sch str =>
      obtain ⟨w, rfl⟩ := hstar (by simp)
      simp only [wildBody, if_true] at h
      split_ifs at h with hw
      cases h
      refine ⟨searching_star hP, below_of_lt (.inl ?_)⟩
      simp
  | @behind d t str wild hdt hP =>
    cases str with
    | nil => simp [wildBody] at h
    | cons sch str =>
      cases wild with
      | nil => exact wildBack_goes hdt hP (by simp) h
      | cons wch wild =>
        simp only [wildBody] at h
        split_ifs at h with hstar hw heq
        · -- the next star
          cases h
          subst hstar
          rw [wildPattern_append, wildPattern_cons, wildSym_star, matches_star_commit hdt] at hP
          refine ⟨searching_star hP, below_of_lt (.inl ?_)⟩
          simp only [Option.getD_some, length_append, length_cons]
          omega
        · -- one more character
          cases h
          have hone : (wildSym wch).Accepts sch := (accepts_wildSym_iff hstar).mpr heq
          have hdt' : List.Forall₂ Sym.Accepts (wildPattern (d ++ [wch])) (t ++ [sch]) := by
            rw [wildPattern_append]
            exact rel_append hdt (.cons hone .nil)
          rw [append_cons d, append_cons t] at hP ⊢
          refine ⟨.behind hdt' hP, below_of_lt (.inr ⟨rfl, .inr ⟨rfl, ?_⟩⟩)⟩
          simp
        · refine wildBack_goes hdt hP ?_ h
          rw [matches_wild_cons hstar]
          exact fun hm => heq hm.1

/-- Where the second loop ends it is right. -/
theorem wildBody_ends {P : Prop} {r : WildResult} (hc : Searching P c) (h : wildBody c = .inr r) :
    ∃ isMatch, r = .result isMatch ∧ (isMatch = true ↔ P) := by
  cases hc with
  | @fresh str wild hstar hP =>
    cases str with
    | nil =>
      cases h
      refine ⟨_, rfl, ?_⟩
      rw [wildTail_iff, ← matches_nil_iff, hP]
    | cons sch str =>
      obtain ⟨w, rfl⟩ := hstar (by simp)
      simp only [wildBody, if_true] at h
      split_ifs at h with hw
      cases h
      subst hw
      refine ⟨true, rfl, iff_of_true rfl (hP.mp ?_)⟩
      exact matches_star.mpr ⟨[], nil_suffix, rfl⟩
  | @behind d t str wild hdt hP =>
    cases str with
    | nil =>
      cases h
      refine ⟨_, rfl, ?_⟩
      rw [wildTail_iff, ← matches_star_end hdt, ← hP, wildPattern_append, append_nil]
    | cons sch str =>
      cases wild with
      | nil => simp [wildBody, wildBack] at h
      | cons wch wild =>
        simp only [wildBody, wildBack] at h
        split_ifs at h with hstar hw heq
        cases h
        subst hstar hw
        refine ⟨true, rfl, iff_of_true rfl (hP.mp ?_)⟩
        rw [wildPattern_append, wildPattern_cons, wildSym_star, matches_star_commit hdt]
        exact matches_star.mpr ⟨[], nil_suffix, rfl⟩

/-- `IsStrWildMatch` ends, and gives whether the text is one that the pattern stands for. -/
theorem isStrWildMatch_iff (str wild : Bytes) :
    ∃ n isMatch, (∀ fuel ≥ n, isStrWildMatch fuel str wild = some (.result isMatch)) ∧
      (isMatch = true ↔ Matches (wildPattern wild) str) := by
  cases hhead : wildHead str wild with
  | none =>
    refine ⟨0, false, fun fuel _ => ?_, iff_of_false Bool.false_ne_true (wildHead_none hhead)⟩
    rw [isStrWildMatch, hhead]
  | some r =>
    obtain ⟨str', wild'⟩ := r
    obtain ⟨hstar, hP⟩ := wildHead_some hhead
    obtain ⟨n, r, hr, isMatch, rfl, hiff⟩ := loop_total WildMatch.left
      (fun c c' hc h => wildBody_goes hc h) (fun c r hc h => wildBody_ends hc h)
      (Searching.fresh hstar hP)
    refine ⟨n, isMatch, fun fuel hfuel => ?_, hiff⟩
    rw [isStrWildMatch, hhead]
    exact loop_mono hr hfuel

end Fon9.StrTools
