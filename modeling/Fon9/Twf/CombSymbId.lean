import Fon9.Base.StrTo
import Fon9.Lib.Segment
import Mathlib.Data.List.GetD

/-! The id of a combination of two products, made from the ids of its legs and taken apart again. The layouts are told
apart by the length of the text and by a separator at one place. -/

namespace Fon9.Twf

open Lib List

inductive TmpCombOp
  | single
  | priceSpread
  | timeSpread
  | straddle
  | strangle
  | conversionReversals
  deriving DecidableEq

inductive ExgCombSide
  | none
  | sameSide
  | sideIsLeg1
  | sideIsLeg2
  deriving DecidableEq

structure ExgCombSymbId where
  legId1 : Bytes := []
  legId2 : Bytes := []
  combSide : ExgCombSide := .none
  combOp : TmpCombOp := .single
  deriving DecidableEq

/-! ### Parse -/

namespace ExgCombSymbId

variable (symbid : Bytes)

/-- `__OP_AT_10` -/
def opAt10 (combOp : TmpCombOp) (combSide : ExgCombSide) : Option ExgCombSymbId :=
  match symbid.length with
  | 13 => -- "PPPAAAAACC/DD", "PPPPPPSFxy/xy"
    some {
      legId1 := segment symbid 0 10
      legId2 := segment symbid 0 8 ++ segment symbid 11 2
      combSide := combSide
      combOp := combOp }
  | 16 => -- "PPPAAAAACC/pppDD"
    some {
      legId1 := segment symbid 0 10
      legId2 := segment symbid 11 3 ++ (segment symbid 3 5 ++ segment symbid 14 2)
      combSide := combSide
      combOp := combOp }
  | 18 => -- "PPPAAAAACC:BBBBBDD"
    some {
      legId1 := segment symbid 0 10
      legId2 := segment symbid 0 3 ++ segment symbid 11 7
      combSide := combSide
      combOp := combOp }
  | _ => none

/-- "PPPPPPSOpppppxy-xy" -/
def opAt15 (combOp : TmpCombOp) (combSide : ExgCombSide) : Option ExgCombSymbId :=
  some {
    legId1 := segment symbid 0 15
    legId2 := segment symbid 0 13 ++ segment symbid 16 2
    combSide := combSide
    combOp := combOp }

/-- An id shorter than 13: a future or an option of its own, or a spread of two futures. -/
def parseShort : ExgCombSymbId :=
  if (symbid.length = 8 ∨ symbid.length = 11) ∧ symbid.getD 5 0 = ch '/' then {
    legId1 := segment symbid 0 5
    legId2 := if symbid.length = 11 then segment symbid 6 5 else segment symbid 0 3 ++ segment symbid 6 2
    combSide := .sideIsLeg2
    combOp := .timeSpread }
  else { legId1 := symbid }

/-- An id whose byte 10 is not a separator. -/
def parseLong : Option ExgCombSymbId :=
  match symbid.length with
  | 15 => some { legId1 := symbid }
  | 16 => -- "PPPAAAAA/BBBBBCC"
    if symbid.getD 8 0 = ch '/' then
      some {
        legId1 := segment symbid 0 8 ++ segment symbid 14 2
        legId2 := segment symbid 0 3 ++ segment symbid 9 7
        combSide := .sideIsLeg2
        combOp := .priceSpread }
    else none
  | 21 => -- "PPPPPPSOppppp/pppppxy"
    if symbid.getD 13 0 = ch '/' then
      some {
        legId1 := segment symbid 0 13 ++ segment symbid 19 2
        legId2 := segment symbid 0 8 ++ segment symbid 14 7
        combSide := .sideIsLeg2
        combOp := .priceSpread }
    else none
  | 23 => -- "PPPPPPSTAAAAACC:BBBBBDD"
    if symbid.getD 15 0 = ch ':' then
      some {
        legId1 := segment symbid 0 15
        legId2 := segment symbid 0 8 ++ segment symbid 16 7
        combSide := .sameSide
        combOp := .strangle }
    else none
  | 18 =>
    if symbid.getD 15 0 = ch '/' then opAt15 symbid .timeSpread .sideIsLeg2
    else if symbid.getD 15 0 = ch ':' then opAt15 symbid .straddle .sameSide
    else if symbid.getD 15 0 = ch '-' then opAt15 symbid .conversionReversals .sideIsLeg2
    else none
  | _ => none

def parse : Option ExgCombSymbId :=
  if symbid.length < 13 then some (parseShort symbid)
  else if symbid.getD 10 0 = ch '/' then opAt10 symbid .timeSpread .sideIsLeg2
  else if symbid.getD 10 0 = ch '-' then opAt10 symbid .conversionReversals .sideIsLeg2
  else if symbid.getD 10 0 = ch ':' then
    if symbid.length = 13 then opAt10 symbid .straddle .sameSide
    else if symbid.length = 18 then opAt10 symbid .strangle .sameSide
    else none
  else parseLong symbid

end ExgCombSymbId

/-! ### Make -/

variable (leg1 leg2 : Bytes)

variable (op : TmpCombOp)

def futMakeCombSymbolId : Option Bytes :=
  if op = .timeSpread ∧ leg1.length = leg2.length then
    if leg1.length = 5 then
      if segment leg1 0 3 = segment leg2 0 3 then some (leg1 ++ ch '/' :: segment leg2 3 2)
      else some (leg1 ++ ch '/' :: leg2)
    else if leg1.length = 10 ∧ segment leg1 0 8 = segment leg2 0 8 then some (leg1 ++ ch '/' :: segment leg2 8 2)
    else none
  else none

/-- `__SHORT_COMB_TIME` -/
def shortCombTime (sep : UInt8) : Option Bytes :=
  if segment leg1 0 8 = segment leg2 0 8 then some (leg1 ++ sep :: segment leg2 8 2) else none

/-- `__LONG_COMB_TIME` -/
def longCombTime (sep : UInt8) : Option Bytes :=
  if segment leg1 0 13 = segment leg2 0 13 then some (leg1 ++ sep :: segment leg2 13 2) else none

/-- Both legs are 10 or 15 long. -/
def optMake : TmpCombOp → Option Bytes
  | .single => none
  | .priceSpread =>
    if leg1.length = 10 then
      if segment leg1 8 2 = segment leg2 8 2 ∧ segment leg1 0 3 = segment leg2 0 3 then
        some (segment leg1 0 8 ++ ch '/' :: segment leg2 3 7)
      else none
    else if segment leg1 13 2 = segment leg2 13 2 ∧ segment leg1 0 8 = segment leg2 0 8 then
      some (segment leg1 0 13 ++ ch '/' :: segment leg2 8 7)
    else none
  | .timeSpread =>
    if leg1.length = 10 then
      if segment leg1 3 5 = segment leg2 3 5 then
        if segment leg1 0 3 = segment leg2 0 3 then some (leg1 ++ ch '/' :: segment leg2 8 2)
        else some (leg1 ++ ch '/' :: (segment leg2 0 3 ++ segment leg2 8 2))
      else none
    else longCombTime leg1 leg2 (ch '/')
  | .straddle =>
    if leg1.length = 10 then shortCombTime leg1 leg2 (ch ':') else longCombTime leg1 leg2 (ch ':')
  | .strangle =>
    if leg1.length = 10 then
      if segment leg1 0 3 = segment leg2 0 3 then some (leg1 ++ ch ':' :: segment leg2 3 7) else none
    else if segment leg1 0 8 = segment leg2 0 8 then some (leg1 ++ ch ':' :: segment leg2 8 7)
    else none
  | .conversionReversals =>
    if leg1.length = 10 then shortCombTime leg1 leg2 (ch '-') else longCombTime leg1 leg2 (ch '-')

def optMakeCombSymbolId : Option Bytes :=
  if leg1.length = leg2.length ∧ (leg1.length = 10 ∨ leg1.length = 15) then optMake leg1 leg2 op else none

/-- A text that is made from two legs. -/
def Makes (leg1 leg2 : Bytes) (op : TmpCombOp) (symb : Bytes) : Prop :=
  futMakeCombSymbolId leg1 leg2 op = some symb ∨ optMakeCombSymbolId leg1 leg2 op = some symb

/-! ### Texts with one separator -/

def isLegChar (c : UInt8) : Bool := isdigit c || (ch 'A' ≤ c && c ≤ ch 'Z') || (ch 'a' ≤ c && c ≤ ch 'z') || c == ch ' '

/-- Letters, digits and spaces. -/
def IsLeg (leg : Bytes) : Prop := ∀ c ∈ leg, isLegChar c = true

def isSeparator (c : UInt8) : Bool := c == ch '/' || c == ch '-' || c == ch ':'

def TmpCombOp.sep : TmpCombOp → UInt8
  | .single => 0
  | .priceSpread | .timeSpread => ch '/'
  | .straddle | .strangle => ch ':'
  | .conversionReversals => ch '-'

def TmpCombOp.side : TmpCombOp → ExgCombSide
  | .single => .none
  | .straddle | .strangle => .sameSide
  | .priceSpread | .timeSpread | .conversionReversals => .sideIsLeg2

/-- The operations whose legs differ in the month alone. -/
def TmpCombOp.IsMonths : Prop := op = .timeSpread ∨ op = .straddle ∨ op = .conversionReversals

def comb (legId1 legId2 : Bytes) : ExgCombSymbId :=
  { legId1 := legId1, legId2 := legId2, combSide := op.side, combOp := op }

section Text

variable {leg1 leg2 symb a b : Bytes} {op : TmpCombOp} {sep sep' : UInt8}

theorem IsLeg.segment (h : IsLeg leg1) (off n : ℕ) : IsLeg (segment leg1 off n) := fun c hc => h c (mem_of_mem_segment hc)

theorem IsLeg.append (ha : IsLeg a) (hb : IsLeg b) : IsLeg (a ++ b) := by
  intro c hc
  rcases mem_append.mp hc with hc | hc
  · exact ha c hc
  · exact hb c hc

theorem IsLeg.getD_ne (h : IsLeg leg1) (i : ℕ) (hsep : isSeparator sep = true) : leg1.getD i 0 ≠ sep := by
  rintro rfl
  simp only [isSeparator, Bool.or_eq_true, beq_iff_eq, or_assoc] at hsep
  by_cases hi : i < leg1.length
  · have hleg := h _ (getElem_mem hi)
    rw [getD_eq_getElem _ _ hi] at hsep
    rcases hsep with hsep | hsep | hsep
    all_goals
      rw [hsep] at hleg
      exact absurd hleg (by decide)
  · rw [getD_eq_default _ _ (by omega)] at hsep
    revert hsep
    decide

/-- Between two parts without separators there is one. -/
theorem getD_text (ha : IsLeg a) (hb : IsLeg b) (hsep : isSeparator sep' = true) (i : ℕ) :
    (a ++ sep :: b).getD i 0 = sep' ↔ a.length = i ∧ sep = sep' := by
  rcases Nat.lt_trichotomy i a.length with hi | hi | hi
  · rw [getD_append _ _ _ _ hi]
    exact iff_of_false (ha.getD_ne i hsep) (fun h => by omega)
  · rw [getD_append_right _ _ _ _ hi.ge, hi, Nat.sub_self, getD_cons_zero]
    exact (and_iff_right rfl).symm
  · obtain ⟨k, hk⟩ : ∃ k, i - a.length = k + 1 := ⟨i - a.length - 1, by omega⟩
    rw [getD_append_right _ _ _ _ hi.le, hk, getD_cons_succ]
    exact iff_of_false (hb.getD_ne k hsep) (fun h => by omega)

theorem isSeparator_slash : isSeparator (ch '/') = true := by decide
theorem isSeparator_colon : isSeparator (ch ':') = true := by decide
theorem isSeparator_hyphen : isSeparator (ch '-') = true := by decide

/-- What the branches of `parse` look at, for a text of two parts. -/
theorem parse_text (ha : IsLeg a) (hb : IsLeg b) (hlen : 13 ≤ a.length + (b.length + 1)) :
    ExgCombSymbId.parse (a ++ sep :: b) =
      if a.length = 10 ∧ sep = ch '/' then ExgCombSymbId.opAt10 (a ++ sep :: b) .timeSpread .sideIsLeg2
      else if a.length = 10 ∧ sep = ch '-' then ExgCombSymbId.opAt10 (a ++ sep :: b) .conversionReversals .sideIsLeg2
      else if a.length = 10 ∧ sep = ch ':' then
        if a.length + (b.length + 1) = 13 then ExgCombSymbId.opAt10 (a ++ sep :: b) .straddle .sameSide
        else if a.length + (b.length + 1) = 18 then ExgCombSymbId.opAt10 (a ++ sep :: b) .strangle .sameSide
        else none
      else ExgCombSymbId.parseLong (a ++ sep :: b) := by
  have hshort : ¬ a.length + (b.length + 1) < 13 := by omega
  simp only [ExgCombSymbId.parse, length_append, length_cons, if_neg hshort, getD_text ha hb isSeparator_slash,
    getD_text ha hb isSeparator_hyphen, getD_text ha hb isSeparator_colon]

end Text

/-! ### Layouts -/

section Layouts

variable {a b : Bytes} {op : TmpCombOp}

attribute [local simp] segment_append_left segment_append_right segment_cons_succ segment_all comb TmpCombOp.side

/-- "PPPCC/DD" -/
theorem parse_futMonths (hla : a.length = 5) (hlb : b.length = 2) :
    ExgCombSymbId.parse (a ++ ch '/' :: b) = some (comb .timeSpread a (segment a 0 3 ++ b)) := by
  simp [ExgCombSymbId.parse, ExgCombSymbId.parseShort, hla, hlb]

/-- "PPPCC/XXXDD" -/
theorem parse_futProducts (hla : a.length = 5) (hlb : b.length = 5) :
    ExgCombSymbId.parse (a ++ ch '/' :: b) = some (comb .timeSpread a b) := by
  simp [ExgCombSymbId.parse, ExgCombSymbId.parseShort, hla, hlb]

variable (ha : IsLeg a) (hb : IsLeg b)

include ha hb

/-- "PPPAAAAACC/DD" -/
theorem parse_months (hop : op.IsMonths) (hla : a.length = 10) (hlb : b.length = 2) :
    ExgCombSymbId.parse (a ++ op.sep :: b) = some (comb op a (segment a 0 8 ++ b)) := by
  rw [parse_text ha hb (by omega)]
  rcases hop with rfl | rfl | rfl
  all_goals simp [ExgCombSymbId.opAt10, hla, hlb, TmpCombOp.sep, ch]

/-- "PPPAAAAACC/pppDD" -/
theorem parse_weekly (hla : a.length = 10) (hlb : b.length = 5) :
    ExgCombSymbId.parse (a ++ ch '/' :: b) =
      some (comb .timeSpread a (segment b 0 3 ++ (segment a 3 5 ++ segment b 3 2))) := by
  rw [parse_text ha hb (by omega)]
  simp [ExgCombSymbId.opAt10, hla, hlb]

/-- "PPPAAAAACC:BBBBBDD" -/
theorem parse_strangle (hla : a.length = 10) (hlb : b.length = 7) :
    ExgCombSymbId.parse (a ++ ch ':' :: b) = some (comb .strangle a (segment a 0 3 ++ b)) := by
  rw [parse_text ha hb (by omega)]
  simp [ExgCombSymbId.opAt10, hla, hlb, ch]

/-- "PPPAAAAA/BBBBBCC" -/
theorem parse_priceSpread (hla : a.length = 8) (hlb : b.length = 7) :
    ExgCombSymbId.parse (a ++ ch '/' :: b) = some (comb .priceSpread (a ++ segment b 5 2) (segment a 0 3 ++ b)) := by
  rw [parse_text ha hb (by omega)]
  simp [ExgCombSymbId.parseLong, hla, hlb]

/-- "PPPPPPSOppppp/pppppxy" -/
theorem parse_longPriceSpread (hla : a.length = 13) (hlb : b.length = 7) :
    ExgCombSymbId.parse (a ++ ch '/' :: b) = some (comb .priceSpread (a ++ segment b 5 2) (segment a 0 8 ++ b)) := by
  rw [parse_text ha hb (by omega)]
  simp [ExgCombSymbId.parseLong, hla, hlb]

/-- "PPPPPPSTAAAAACC:BBBBBDD" -/
theorem parse_longStrangle (hla : a.length = 15) (hlb : b.length = 7) :
    ExgCombSymbId.parse (a ++ ch ':' :: b) = some (comb .strangle a (segment a 0 8 ++ b)) := by
  rw [parse_text ha hb (by omega)]
  simp [ExgCombSymbId.parseLong, hla, hlb]

/-- "PPPPPPSOpppppxy-xy" -/
theorem parse_longMonths (hop : op.IsMonths) (hla : a.length = 15) (hlb : b.length = 2) :
    ExgCombSymbId.parse (a ++ op.sep :: b) = some (comb op a (segment a 0 13 ++ b)) := by
  rw [parse_text ha hb (by omega)]
  rcases hop with rfl | rfl | rfl
  all_goals simp [ExgCombSymbId.parseLong, ExgCombSymbId.opAt15, hla, hlb, TmpCombOp.sep, ch]

end Layouts

/-! ### Parse undoes make -/

section RoundTrip

variable {leg1 leg2 symb : Bytes} {op : TmpCombOp}

/-- A leg whose first part is in the other leg too. -/
theorem join_of_eq {n k : ℕ} (hlen : n + k = leg2.length) (hsame : segment leg1 0 n = segment leg2 0 n) :
    segment leg1 0 n ++ segment leg2 n k = leg2 := by
  rw [hsame, segment_join hlen]

theorem segment_segment_zero {n m : ℕ} (l : Bytes) (h : m ≤ n) : segment (segment l 0 n) 0 m = segment l 0 m := by
  rw [segment_segment (by omega)]

section

variable (h1 : IsLeg leg1) (h2 : IsLeg leg2)
include h1 h2

theorem parse_futMake (h : futMakeCombSymbolId leg1 leg2 op = some symb) :
    ExgCombSymbId.parse symb = some (comb op leg1 leg2) := by
  simp only [futMakeCombSymbolId, Option.ite_none_right_eq_some] at h
  obtain ⟨⟨rfl, hlen⟩, h⟩ := h
  by_cases hl1 : leg1.length = 5
  · have hl2 : leg2.length = 5 := hlen ▸ hl1
    rw [if_pos hl1] at h
    by_cases hsame : segment leg1 0 3 = segment leg2 0 3
    · rw [if_pos hsame, Option.some.injEq] at h
      rw [← h, parse_futMonths hl1 (length_segment (by omega)), join_of_eq (by omega) hsame]
    · rw [if_neg hsame, Option.some.injEq] at h
      rw [← h, parse_futProducts hl1 hl2]
  · rw [if_neg hl1, Option.ite_none_right_eq_some, Option.some.injEq] at h
    obtain ⟨⟨hl1, hsame⟩, h⟩ := h
    have hl2 : leg2.length = 10 := hlen ▸ hl1
    have hparse : ExgCombSymbId.parse (leg1 ++ TmpCombOp.timeSpread.sep :: segment leg2 8 2) = _ :=
      parse_months h1 (h2.segment 8 2) (Or.inl rfl) hl1 (length_segment (by omega))
    rw [join_of_eq (by omega) hsame] at hparse
    rw [← h]
    exact hparse

theorem parse_shortCombTime (hl1 : leg1.length = 10) (hl2 : leg2.length = 10) (hop : op.IsMonths)
    (h : shortCombTime leg1 leg2 op.sep = some symb) :
    ExgCombSymbId.parse symb = some (comb op leg1 leg2) := by
  rw [shortCombTime, Option.ite_none_right_eq_some, Option.some.injEq] at h
  rw [← h.2, parse_months h1 (h2.segment 8 2) hop hl1 (length_segment (by omega)), join_of_eq (by omega) h.1]

theorem parse_longCombTime (hl1 : leg1.length = 15) (hl2 : leg2.length = 15) (hop : op.IsMonths)
    (h : longCombTime leg1 leg2 op.sep = some symb) :
    ExgCombSymbId.parse symb = some (comb op leg1 leg2) := by
  rw [longCombTime, Option.ite_none_right_eq_some, Option.some.injEq] at h
  rw [← h.2, parse_longMonths h1 (h2.segment 13 2) hop hl1 (length_segment (by omega)), join_of_eq (by omega) h.1]

theorem parse_optMakeShort (hl1 : leg1.length = 10) (hl2 : leg2.length = 10) (h : optMake leg1 leg2 op = some symb)
    : ExgCombSymbId.parse symb = some (comb op leg1 leg2) := by
  cases op with
  | single => cases h
  | priceSpread =>
    simp only [optMake, hl1, if_true, Option.ite_none_right_eq_some, Option.some.injEq] at h
    obtain ⟨⟨hlast, hsame⟩, h⟩ := h
    have hmonth : segment (segment leg2 3 7) 5 2 = segment leg1 8 2 := by
      rw [segment_segment (by omega), hlast]
    rw [← h, parse_priceSpread (h1.segment 0 8) (h2.segment 3 7) (length_segment (by omega)) (length_segment (by omega)),
      hmonth, segment_join (by omega), segment_segment_zero leg1 (by omega), join_of_eq (by omega) hsame]
  | timeSpread =>
    simp only [optMake, hl1, if_true, Option.ite_none_right_eq_some] at h
    obtain ⟨hstrike, h⟩ := h
    by_cases hsame : segment leg1 0 3 = segment leg2 0 3
    · have hboth : segment leg1 0 8 = segment leg2 0 8 := by
        have hadd := fun l : Bytes => segment_add l 0 3 5
        simp only [Nat.zero_add, Nat.reduceAdd] at hadd
        rw [hadd, hadd, hsame, hstrike]
      rw [if_pos hsame] at h
      have htime : shortCombTime leg1 leg2 TmpCombOp.timeSpread.sep = some symb := (if_pos hboth).trans h
      exact parse_shortCombTime h1 h2 hl1 hl2 (Or.inl rfl) htime
    · rw [if_neg hsame, Option.some.injEq] at h
      have hlen3 : (segment leg2 0 3).length = 3 := length_segment (by omega)
      have hlen2 : (segment leg2 8 2).length = 2 := length_segment (by omega)
      have hlen5 : (segment leg2 0 3 ++ segment leg2 8 2).length = 5 := by rw [length_append, hlen3, hlen2]
      rw [← h, parse_weekly h1 ((h2.segment 0 3).append (h2.segment 8 2)) hl1 hlen5, hstrike,
        segment_append_left (by omega), segment_all hlen3, segment_append_right (by omega), hlen3, segment_all hlen2,
        ← segment_add, segment_join (by omega)]
  | straddle =>
    simp only [optMake, hl1, if_true] at h
    exact parse_shortCombTime h1 h2 hl1 hl2 (Or.inr (Or.inl rfl)) h
  | strangle =>
    simp only [optMake, hl1, if_true, Option.ite_none_right_eq_some, Option.some.injEq] at h
    rw [← h.2, parse_strangle h1 (h2.segment 3 7) hl1 (length_segment (by omega)), join_of_eq (by omega) h.1]
  | conversionReversals =>
    simp only [optMake, hl1, if_true] at h
    exact parse_shortCombTime h1 h2 hl1 hl2 (Or.inr (Or.inr rfl)) h

theorem parse_optMakeLong (hl1 : leg1.length = 15) (hl2 : leg2.length = 15) (h : optMake leg1 leg2 op = some symb)
    : ExgCombSymbId.parse symb = some (comb op leg1 leg2) := by
  have hlong : ¬ leg1.length = 10 := by omega
  cases op with
  | single => cases h
  | priceSpread =>
    simp only [optMake, if_neg hlong, Option.ite_none_right_eq_some, Option.some.injEq] at h
    obtain ⟨⟨hlast, hsame⟩, h⟩ := h
    have hmonth : segment (segment leg2 8 7) 5 2 = segment leg1 13 2 := by
      rw [segment_segment (by omega), hlast]
    rw [← h, parse_longPriceSpread (h1.segment 0 13) (h2.segment 8 7) (length_segment (by omega)) (length_segment (by omega)),
      hmonth, segment_join (by omega), segment_segment_zero leg1 (by omega), join_of_eq (by omega) hsame]
  | timeSpread =>
    simp only [optMake, if_neg hlong] at h
    exact parse_longCombTime h1 h2 hl1 hl2 (Or.inl rfl) h
  | straddle =>
    simp only [optMake, if_neg hlong] at h
    exact parse_longCombTime h1 h2 hl1 hl2 (Or.inr (Or.inl rfl)) h
  | strangle =>
    simp only [optMake, if_neg hlong, Option.ite_none_right_eq_some, Option.some.injEq] at h
    rw [← h.2, parse_longStrangle h1 (h2.segment 8 7) hl1 (length_segment (by omega)), join_of_eq (by omega) h.1]
  | conversionReversals =>
    simp only [optMake, if_neg hlong] at h
    exact parse_longCombTime h1 h2 hl1 hl2 (Or.inr (Or.inr rfl)) h

theorem parse_of_makes (h : Makes leg1 leg2 op symb) :
    ExgCombSymbId.parse symb = some (comb op leg1 leg2) := by
  rcases h with h | h
  · exact parse_futMake h1 h2 h
  · rw [optMakeCombSymbolId, Option.ite_none_right_eq_some] at h
    obtain ⟨⟨hlen, hl1 | hl1⟩, h⟩ := h
    · exact parse_optMakeShort h1 h2 hl1 (hlen ▸ hl1) h
    · exact parse_optMakeLong h1 h2 hl1 (hlen ▸ hl1) h

end

/-- No other legs, and no other operation, make the same text. -/
theorem parse_makes (h1 : IsLeg leg1) (h2 : IsLeg leg2) (h : Makes leg1 leg2 op symb) :
    (∃ id, ExgCombSymbId.parse symb = some id ∧ id.legId1 = leg1 ∧ id.legId2 = leg2 ∧ id.combOp = op) ∧
      ∀ leg1' leg2' op', IsLeg leg1' → IsLeg leg2' → Makes leg1' leg2' op' symb → leg1' = leg1 ∧ leg2' = leg2 ∧ op' = op := by
  have hparse := parse_of_makes h1 h2 h
  refine ⟨⟨_, hparse, rfl, rfl, rfl⟩, ?_⟩
  intro leg1' leg2' op' h1' h2' h'
  have hsame := Option.some.inj ((parse_of_makes h1' h2' h').symm.trans hparse)
  exact ⟨congrArg ExgCombSymbId.legId1 hsame, congrArg ExgCombSymbId.legId2 hsame, congrArg ExgCombSymbId.combOp hsame⟩

/-- "MXFA6/C6" -/
theorem parse_makes_months : (∃ id, ExgCombSymbId.parse ("MXFA6/C6".toList.map ch) = some id ∧
    id.legId1 = "MXFA6".toList.map ch ∧ id.legId2 = "MXFC6".toList.map ch ∧ id.combOp = .timeSpread) ∧
      ∀ leg1' leg2' op', IsLeg leg1' → IsLeg leg2' → Makes leg1' leg2' op' ("MXFA6/C6".toList.map ch) →
        leg1' = "MXFA6".toList.map ch ∧ leg2' = "MXFC6".toList.map ch ∧ op' = .timeSpread := by
  have hleg1 : ("MXFA6".toList.map ch).all isLegChar = true := by decide
  have hleg2 : ("MXFC6".toList.map ch).all isLegChar = true := by decide
  exact parse_makes (List.all_eq_true.mp hleg1) (List.all_eq_true.mp hleg2) (Or.inl (by decide))

end RoundTrip

/-! ### Make undoes parse -/

/-- The two ids of a time spread of products do not name the same product, and a hyphen or a slash at the byte 10 is not in a
text of another layout. -/
structure IsMadeLayout (symb : Bytes) : Prop where
  futProducts : symb.length = 11 → segment symb 0 3 ≠ segment symb 6 3
  products : symb.length = 16 → symb.getD 10 0 = ch '/' → segment symb 0 3 ≠ segment symb 11 3
  months : symb.length = 16 → symb.getD 10 0 ≠ ch '-'
  strikes : symb.length = 18 → symb.getD 10 0 ≠ ch '/' ∧ symb.getD 10 0 ≠ ch '-'

section MakeBack

variable {symb : Bytes} {id : ExgCombSymbId} {op : TmpCombOp} {side : ExgCombSide} {sep : UInt8} {i : ℕ}

attribute [local simp] segment_append_left segment_append_right segment_segment length_segment_eq futMakeCombSymbolId
  optMakeCombSymbolId optMake

theorem getElem?_of_getD (hsep : isSeparator sep = true) (h : symb.getD i 0 = sep) : symb[i]? = some sep := by
  rw [List.getD_eq_getElem?_getD] at h
  cases hget : symb[i]? with
  | none =>
    rw [hget, Option.getD_none] at h
    rw [← h] at hsep
    exact absurd hsep (by decide)
  | some c =>
    rw [hget, Option.getD_some] at h
    rw [h]

/-- A text with a shorter second part is another one. -/
theorem join_ne {n m k : ℕ} (h : n + 1 + k < symb.length) (c : UInt8) : segment symb 0 n ++ c :: segment symb m k ≠ symb := by
  intro htext
  have hlength := congrArg List.length htext
  simp at hlength
  omega

/-- "PPPCC/DD" -/
theorem makes_futMonths (hlen : symb.length = 8) (hsep : symb[5]? = some (ch '/')) :
    Makes (segment symb 0 5) (segment symb 0 3 ++ segment symb 6 2) .timeSpread symb := by
  have hjoin : segment symb 0 5 ++ ch '/' :: segment symb 6 2 = symb := segment_sep (by omega) hsep
  refine Or.inl ?_
  simp [hlen, hjoin]

/-- "PPPCC/XXXDD": of one product the short text is made. -/
theorem makes_futProducts (hlen : symb.length = 11) (hsep : symb[5]? = some (ch '/')) :
    Makes (segment symb 0 5) (segment symb 6 5) .timeSpread symb ↔ segment symb 0 3 ≠ segment symb 6 3 := by
  have hjoin : segment symb 0 5 ++ ch '/' :: segment symb 6 5 = symb := segment_sep (by omega) hsep
  have hshort : segment symb 0 5 ++ ch '/' :: segment symb 9 2 ≠ symb := join_ne (by omega) _
  simp [Makes, hlen, hjoin, hshort]

/-- "PPPAAAAACC/DD" -/
theorem makes_months (hop : op.IsMonths) (hlen : symb.length = 13) (hsep : symb[10]? = some op.sep) :
    Makes (segment symb 0 10) (segment symb 0 8 ++ segment symb 11 2) op symb := by
  have hjoin : segment symb 0 10 ++ op.sep :: segment symb 11 2 = symb := segment_sep (by omega) hsep
  refine Or.inr ?_
  rcases hop with rfl | rfl | rfl
  all_goals
    rw [TmpCombOp.sep] at hjoin
    simp [shortCombTime, hlen, hjoin]

/-- "PPPAAAAACC/pppDD": of one product the short text is made. -/
theorem makes_products (hlen : symb.length = 16) (hsep : symb[10]? = some (ch '/')) :
    Makes (segment symb 0 10) (segment symb 11 3 ++ (segment symb 3 5 ++ segment symb 14 2)) .timeSpread symb ↔
      segment symb 0 3 ≠ segment symb 11 3 := by
  have hjoin : segment symb 0 10 ++ ch '/' :: (segment symb 11 3 ++ segment symb 14 2) = symb := by
    rw [← segment_add symb 11 3 2]
    exact segment_sep (by omega) hsep
  have hshort : segment symb 0 10 ++ ch '/' :: segment symb 14 2 ≠ symb := join_ne (by omega) _
  simp [Makes, hlen, hshort]
  split_ifs with hsame
  · simp [hsame, hshort]
  · simp [hsame, hjoin]

/-- A text as long as the weekly one, with a hyphen. -/
theorem not_makes_products (hlen : symb.length = 16) : ¬ Makes (segment symb 0 10)
    (segment symb 11 3 ++ (segment symb 3 5 ++ segment symb 14 2)) .conversionReversals symb := by
  have hshort : segment symb 0 10 ++ ch '-' :: segment symb 14 2 ≠ symb := join_ne (by omega) _
  simp [Makes, shortCombTime, hlen, hshort]

/-- "PPPAAAAACC:BBBBBDD" -/
theorem makes_strangle (hlen : symb.length = 18) (hsep : symb[10]? = some (ch ':')) :
    Makes (segment symb 0 10) (segment symb 0 3 ++ segment symb 11 7) .strangle symb := by
  have hjoin : segment symb 0 10 ++ ch ':' :: segment symb 11 7 = symb := segment_sep (by omega) hsep
  refine Or.inr ?_
  simp [hlen, hjoin]

/-- A text as long as that of a strangle, with a slash or a hyphen. -/
theorem not_makes_strikes (hlen : symb.length = 18) (hop : op = .timeSpread ∨ op = .conversionReversals) :
    ¬ Makes (segment symb 0 10) (segment symb 0 3 ++ segment symb 11 7) op symb := by
  have hshort : ∀ c, segment symb 0 10 ++ c :: segment symb 16 2 ≠ symb := join_ne (by omega)
  rcases hop with rfl | rfl
  · simp [Makes, hlen, hshort]
  · simp [Makes, shortCombTime, hlen, hshort]

/-- "PPPAAAAA/BBBBBCC" -/
theorem makes_priceSpread (hlen : symb.length = 16) (hsep : symb[8]? = some (ch '/')) :
    Makes (segment symb 0 8 ++ segment symb 14 2) (segment symb 0 3 ++ segment symb 9 7) .priceSpread symb := by
  have hjoin : segment symb 0 8 ++ ch '/' :: segment symb 9 7 = symb := segment_sep (by omega) hsep
  refine Or.inr ?_
  simp [hlen, hjoin]

/-- "PPPPPPSOppppp/pppppxy" -/
theorem makes_longPriceSpread (hlen : symb.length = 21) (hsep : symb[13]? = some (ch '/')) :
    Makes (segment symb 0 13 ++ segment symb 19 2) (segment symb 0 8 ++ segment symb 14 7) .priceSpread symb := by
  have hjoin : segment symb 0 13 ++ ch '/' :: segment symb 14 7 = symb := segment_sep (by omega) hsep
  refine Or.inr ?_
  simp [hlen, hjoin]

/-- "PPPPPPSTAAAAACC:BBBBBDD" -/
theorem makes_longStrangle (hlen : symb.length = 23) (hsep : symb[15]? = some (ch ':')) :
    Makes (segment symb 0 15) (segment symb 0 8 ++ segment symb 16 7) .strangle symb := by
  have hjoin : segment symb 0 15 ++ ch ':' :: segment symb 16 7 = symb := segment_sep (by omega) hsep
  refine Or.inr ?_
  simp [hlen, hjoin]

/-- "PPPPPPSOpppppxy-xy" -/
theorem makes_longMonths (hop : op.IsMonths) (hlen : symb.length = 18) (hsep : symb[15]? = some op.sep) :
    Makes (segment symb 0 15) (segment symb 0 13 ++ segment symb 16 2) op symb := by
  have hjoin : segment symb 0 15 ++ op.sep :: segment symb 16 2 = symb := segment_sep (by omega) hsep
  refine Or.inr ?_
  have hlong : longCombTime (segment symb 0 15) (segment symb 0 13 ++ segment symb 16 2) op.sep = some symb := by
    simp [longCombTime, hlen, hjoin]
  rcases hop with rfl | rfl | rfl
  all_goals
    rw [TmpCombOp.sep] at hlong
    simp [hlen, hlong]

theorem opAt10_cases (h : ExgCombSymbId.opAt10 symb op side = some id) : id.combOp = op ∧ id.legId1 = segment symb 0 10 ∧
    (symb.length = 13 ∧ id.legId2 = segment symb 0 8 ++ segment symb 11 2 ∨
      symb.length = 16 ∧ id.legId2 = segment symb 11 3 ++ (segment symb 3 5 ++ segment symb 14 2) ∨
      symb.length = 18 ∧ id.legId2 = segment symb 0 3 ++ segment symb 11 7) := by
  unfold ExgCombSymbId.opAt10 at h
  split at h
  · rename_i hlen
    cases h
    exact ⟨rfl, rfl, Or.inl ⟨hlen, rfl⟩⟩
  · rename_i hlen
    cases h
    exact ⟨rfl, rfl, Or.inr (Or.inl ⟨hlen, rfl⟩)⟩
  · rename_i hlen
    cases h
    exact ⟨rfl, rfl, Or.inr (Or.inr ⟨hlen, rfl⟩)⟩
  · cases h

/-- A text whose byte 10 is not a separator is always made back. -/
theorem makes_parseLong (h : ExgCombSymbId.parseLong symb = some id) (hcomb : id.combOp ≠ .single) :
    Makes id.legId1 id.legId2 id.combOp symb := by
  unfold ExgCombSymbId.parseLong at h
  split at h
  · cases h
    exact absurd rfl hcomb
  · rename_i hlen
    rw [Option.ite_none_right_eq_some] at h
    obtain ⟨hsep, h⟩ := h
    cases h
    exact makes_priceSpread hlen (getElem?_of_getD isSeparator_slash hsep)
  · rename_i hlen
    rw [Option.ite_none_right_eq_some] at h
    obtain ⟨hsep, h⟩ := h
    cases h
    exact makes_longPriceSpread hlen (getElem?_of_getD isSeparator_slash hsep)
  · rename_i hlen
    rw [Option.ite_none_right_eq_some] at h
    obtain ⟨hsep, h⟩ := h
    cases h
    exact makes_longStrangle hlen (getElem?_of_getD isSeparator_colon hsep)
  · rename_i hlen
    split_ifs at h with hslash hcolon hhyphen
    · cases h
      exact makes_longMonths (Or.inl rfl) hlen (getElem?_of_getD isSeparator_slash hslash)
    · cases h
      exact makes_longMonths (Or.inr (Or.inl rfl)) hlen (getElem?_of_getD isSeparator_colon hcolon)
    · cases h
      exact makes_longMonths (Or.inr (Or.inr rfl)) hlen (getElem?_of_getD isSeparator_hyphen hhyphen)
  · cases h

theorem makes_parseShort (hcomb : (ExgCombSymbId.parseShort symb).combOp ≠ .single) :
    Makes (ExgCombSymbId.parseShort symb).legId1 (ExgCombSymbId.parseShort symb).legId2
      (ExgCombSymbId.parseShort symb).combOp symb ↔ (symb.length = 11 → segment symb 0 3 ≠ segment symb 6 3) := by
  unfold ExgCombSymbId.parseShort at hcomb ⊢
  split_ifs at hcomb ⊢ with hspread h11
  · have hget := getElem?_of_getD isSeparator_slash hspread.2
    rw [makes_futProducts h11 hget, forall_prop_of_true h11]
  · have hget := getElem?_of_getD isSeparator_slash hspread.2
    exact iff_of_true (makes_futMonths (hspread.1.resolve_right h11) hget) (fun h => absurd h h11)
  · exact absurd rfl hcomb

/-- A text that is accepted as a combination is made back where it has a layout that is made. -/
theorem makes_parse_iff (h : ExgCombSymbId.parse symb = some id) (hcomb : id.combOp ≠ .single) :
    Makes id.legId1 id.legId2 id.combOp symb ↔ IsMadeLayout symb := by
  unfold ExgCombSymbId.parse at h
  split_ifs at h with hshort hslash hhyphen hcolon h13 h18
  · cases h
    rw [makes_parseShort hcomb]
    refine ⟨fun hproducts => ⟨hproducts, ?_, ?_, ?_⟩, fun hmade => hmade.futProducts⟩
    all_goals omega
  · have hget := getElem?_of_getD isSeparator_slash hslash
    obtain ⟨hop, hleg1, hlegs⟩ := opAt10_cases h
    rw [hop, hleg1]
    rcases hlegs with ⟨hlen, hleg2⟩ | ⟨hlen, hleg2⟩ | ⟨hlen, hleg2⟩
    · rw [hleg2]
      refine iff_of_true (makes_months (Or.inl rfl) hlen hget) ⟨?_, ?_, ?_, ?_⟩
      all_goals omega
    · rw [hleg2, makes_products hlen hget]
      have hhyphen : symb.getD 10 0 ≠ ch '-' := by
        rw [hslash]
        decide
      refine ⟨fun hproducts => ⟨?_, fun _ _ => hproducts, fun _ => hhyphen, ?_⟩, fun hmade => hmade.products hlen hslash⟩
      all_goals omega
    · rw [hleg2]
      exact iff_of_false (not_makes_strikes hlen (Or.inl rfl)) (fun hmade => (hmade.strikes hlen).1 hslash)
  · have hget := getElem?_of_getD isSeparator_hyphen hhyphen
    obtain ⟨hop, hleg1, hlegs⟩ := opAt10_cases h
    rw [hop, hleg1]
    rcases hlegs with ⟨hlen, hleg2⟩ | ⟨hlen, hleg2⟩ | ⟨hlen, hleg2⟩
    · rw [hleg2]
      refine iff_of_true (makes_months (Or.inr (Or.inr rfl)) hlen hget) ⟨?_, ?_, ?_, ?_⟩
      all_goals omega
    · rw [hleg2]
      exact iff_of_false (not_makes_products hlen) (fun hmade => hmade.months hlen hhyphen)
    · rw [hleg2]
      exact iff_of_false (not_makes_strikes hlen (Or.inr rfl)) (fun hmade => (hmade.strikes hlen).2 hhyphen)
  · have hget := getElem?_of_getD isSeparator_colon hcolon
    obtain ⟨hop, hleg1, hlegs⟩ := opAt10_cases h
    have hleg2 : id.legId2 = segment symb 0 8 ++ segment symb 11 2 := by
      rcases hlegs with ⟨-, hleg2⟩ | ⟨hlen, -⟩ | ⟨hlen, -⟩
      · exact hleg2
      · omega
      · omega
    rw [hop, hleg1, hleg2]
    refine iff_of_true (makes_months (Or.inr (Or.inl rfl)) h13 hget) ⟨?_, ?_, ?_, ?_⟩
    all_goals omega
  · have hget := getElem?_of_getD isSeparator_colon hcolon
    obtain ⟨hop, hleg1, hlegs⟩ := opAt10_cases h
    have hleg2 : id.legId2 = segment symb 0 3 ++ segment symb 11 7 := by
      rcases hlegs with ⟨hlen, -⟩ | ⟨hlen, -⟩ | ⟨-, hleg2⟩
      · omega
      · omega
      · exact hleg2
    rw [hop, hleg1, hleg2]
    refine iff_of_true (makes_strangle h18 hget) ⟨?_, ?_, ?_, fun _ => ⟨hslash, hhyphen⟩⟩
    all_goals omega
  · refine iff_of_true (makes_parseLong h hcomb) ⟨?_, ?_, ?_, fun _ => ⟨hslash, hhyphen⟩⟩
    · omega
    · exact fun _ hat => absurd hat hslash
    · exact fun _ => hhyphen

/-- "MXFA6/C6" is made back. -/
theorem makes_parse_iff_months :
    Makes ("MXFA6".toList.map ch) ("MXFC6".toList.map ch) .timeSpread ("MXFA6/C6".toList.map ch) ↔
      IsMadeLayout ("MXFA6/C6".toList.map ch) := by
  have hparse : ExgCombSymbId.parse ("MXFA6/C6".toList.map ch) =
      some (comb .timeSpread ("MXFA6".toList.map ch) ("MXFC6".toList.map ch)) := by
    decide
  exact makes_parse_iff hparse (by decide)

/-- "TXO05200C3-05100C3": a hyphen, with the length of a strangle. -/
theorem not_makes_parse : ¬ ∀ (symb : Bytes) (id : ExgCombSymbId),
    (∀ c ∈ symb, isLegChar c = true ∨ isSeparator c = true) → ExgCombSymbId.parse symb = some id → id.combOp ≠ .single →
      Makes id.legId1 id.legId2 id.combOp symb := by
  intro h
  have hchars : ("TXO05200C3-05100C3".toList.map ch).all (fun c => isLegChar c || isSeparator c) = true := by decide
  have hmakes := h _ (comb .conversionReversals ("TXO05200C3".toList.map ch) ("TXO05100C3".toList.map ch))
    (fun c hc => Bool.or_eq_true_iff.mp (List.all_eq_true.mp hchars c hc)) (by decide) (by decide)
  have hlen : ("TXO05200C3-05100C3".toList.map ch).length = 18 := by decide
  exact not_makes_strikes hlen (Or.inr rfl) hmakes

end MakeBack

end Fon9.Twf
