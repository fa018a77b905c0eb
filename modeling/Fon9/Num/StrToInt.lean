import Fon9.Num.StrToNum
import Fon9.Num.AfterRound

/-! `StrTo` of the integer types: the number at the start of the text, clamped. -/

namespace Fon9.Num

open Bitv List Bool StrToIntAux

variable {t : IntType} {negative : Bool} {N V : ℕ} {cur : StrToNumCursor}

/-! ### Bounds -/

theorem tempMax_bounds (t : IntType) :
    (t.max.toNat : ℤ) = t.max ∧ t.max ≤ tempMax t ∧ -(tempMax t : ℤ) ≤ t.min ∧ t.min ≤ 0 ∧ tempMax t % 10 = 5 := by
  cases t <;> decide

theorem signed_min (h : t.isSigned = true) : t.min = -(t.max + 1) := by
  revert h
  cases t <;> decide

theorem unsigned_max (h : t.isSigned = false) : t.max = tempMax t ∧ t.min = 0 := by
  revert h
  cases t <;> decide

/-- `Negative_` as `CheckSign` sets it. -/
def signOf (negative : Bool) : Negative := if negative then .isNegative else .isPositive

theorem makeResult_sign (hneg : negative = true → t.isSigned = true) (hN : N ≤ tempMax t) :
    makeResult t N (signOf negative) = clamp t (withSign negative (N : ℤ)) := by
  obtain ⟨hmax, hle, hmin, hmin', -⟩ := tempMax_bounds t
  rw [makeResult]
  cases hS : t.isSigned with
  | true =>
    have hsigned := signed_min hS
    cases negative <;> simp only [signOf, withSign, StrToSIntAux.makeResult, clamp, if_true, false_eq_true, if_false] <;>
      split_ifs <;> omega
  | false =>
    obtain ⟨hmax', hmin0⟩ := unsigned_max hS
    cases negative with
    | true => rw [hS] at hneg; cases hneg rfl
    | false =>
      simp only [withSign, clamp, false_eq_true, if_false]
      split_ifs <;> omega

theorem makeResult_onOverflow (hneg : negative = true → t.isSigned = true) (hV : tempMax t < V) :
    let r := onOverflow t N (signOf negative)
    makeResult t r.1 r.2 = clamp t (withSign negative (V : ℤ)) := by
  obtain ⟨hmax, hle, hmin, hmin', -⟩ := tempMax_bounds t
  dsimp only
  rw [makeResult, onOverflow]
  cases hS : t.isSigned with
  | true =>
    have hsigned := signed_min hS
    cases negative <;>
      simp only [signOf, withSign, StrToSIntAux.onOverflow, StrToSIntAux.makeResult, clamp, if_true, false_eq_true,
        if_false, reduceCtorEq] <;>
      split_ifs <;> omega
  | false =>
    obtain ⟨hmax', hmin0⟩ := unsigned_max hS
    cases negative with
    | true => rw [hS] at hneg; cases hneg rfl
    | false =>
      simp only [withSign, clamp, StrToUIntAux.onOverflow, false_eq_true, if_false]
      split_ifs <;> omega

theorem makeResult_onOverflowInc (hneg : negative = true → t.isSigned = true) (hN : N ≤ tempMax t) :
    let r := onOverflowInc t N (signOf negative)
    makeResult t r.1 r.2 = clamp t (withSign negative ((N + 1 : ℕ) : ℤ)) := by
  obtain ⟨hmax, hle, hmin, hmin', -⟩ := tempMax_bounds t
  dsimp only
  rw [makeResult, onOverflowInc]
  cases hS : t.isSigned with
  | true =>
    have hsigned := signed_min hS
    by_cases hlt : N < t.max.toNat <;> cases negative <;>
      simp only [signOf, withSign, StrToSIntAux.onOverflowInc, hlt, StrToSIntAux.makeResult, clamp, if_true,
        false_eq_true, if_false, reduceCtorEq] <;>
      split_ifs <;> omega
  | false =>
    obtain ⟨hmax', hmin0⟩ := unsigned_max hS
    cases negative with
    | true => rw [hS] at hneg; cases hneg rfl
    | false =>
      by_cases hlt : N < t.max.toNat <;>
        simp only [withSign, clamp, StrToUIntAux.onOverflowInc, hlt, if_true, false_eq_true, if_false] <;>
        split_ifs <;> omega

/-! ### The frame of the conversion -/

/-- `CheckSign` takes a sign that the type has. -/
theorem checkSign_eq (t : IntType) {str : Bytes} {c : UInt8} {cs : Bytes} (h : str.dropWhile isspace = c :: cs) :
    (if (checkSign t c).1 then cs.dropWhile isspace else c :: cs) = (signedText t str).2 ∧
      (checkSign t c).2 = signOf (signedText t str).1 := by
  have hsigned : signedText t str = if c = ch '+' then (false, cs.dropWhile isspace)
      else if t.isSigned ∧ c = ch '-' then (true, cs.dropWhile isspace) else (false, c :: cs) := by
    rw [signedText, h]
  rw [hsigned, checkSign]
  by_cases hplus : c = ch '+'
  · rw [if_pos hplus]
    cases t.isSigned <;> simp [StrToSIntAux.checkSign, StrToUIntAux.checkSign, hplus, signOf]
  · rw [if_neg hplus]
    cases t.isSigned with
    | false => simp [StrToUIntAux.checkSign, hplus, signOf]
    | true =>
      by_cases hminus : c = ch '-'
      · have hne : ch '-' ≠ ch '+' := by decide
        simp [StrToSIntAux.checkSign, hminus, hne, signOf]
      · simp [StrToSIntAux.checkSign, hplus, hminus, signOf]

theorem signedText_signed {str : Bytes} (h : (signedText t str).1 = true) : t.isSigned = true := by
  rw [signedText] at h
  split at h
  · exact nomatch h
  · split_ifs at h with hplus hminus
    exact hminus.1

/-- Without a text after the sign nothing is converted. -/
theorem strToNum_nil {σ : Type} {aux : Aux σ} (hsign : ∀ c, (aux.checkSign c).1 = (checkSign t c).1)
    {str : Bytes} (h : (signedText t str).2 = []) (out : ℤ) : strToNum aux str out = .ok (out, []) := by
  rw [strToNum]
  cases hstr : str.dropWhile isspace with
  | nil => rfl
  | cons c cs =>
    have hbody := (checkSign_eq t hstr).1
    rw [h, ← hsign] at hbody
    dsimp only
    rw [if_pos hbody]

/-- Otherwise the text is parsed, from the state that `CheckSign` leaves. -/
theorem strToNum_cons {σ : Type} {aux : Aux σ} (hsign : ∀ c, (aux.checkSign c).1 = (checkSign t c).1)
    {str : Bytes} (h : (signedText t str).2 ≠ []) (out : ℤ) :
    ∃ c, (checkSign t c).2 = signOf (signedText t str).1 ∧
      ∃ pbeg, str.length = pbeg + (signedText t str).2.length ∧
        ∀ p, parse aux (signedText t str).2 ⟨pbeg, str.length, pbeg⟩ 0 (aux.checkSign c).2 = p →
          (p.cur.current = p.cur.origBegin → strToNum aux str out = .ok (out, p.rest)) ∧
            (p.cur.current ≠ p.cur.origBegin →
              strToNum aux str out = (aux.makeResult p.res p.aux).map fun v => (v, p.rest)) := by
  cases hstr : str.dropWhile isspace with
  | nil => exact absurd (by rw [signedText, hstr]) h
  | cons c cs =>
    obtain ⟨hbody, hneg⟩ := checkSign_eq t hstr
    have hle : (signedText t str).2.length ≤ str.length := by
      have hlen := (dropWhile_sublist (l := str) isspace).length_le
      have hlen' := (dropWhile_sublist (l := cs) isspace).length_le
      rw [hstr, length_cons] at hlen
      rw [← hbody]
      split
      · omega
      · rw [length_cons]
        omega
    refine ⟨c, hneg, str.length - (signedText t str).2.length, by omega, ?_⟩
    rintro p rfl
    rw [strToNum, hstr]
    dsimp only
    rw [hsign c, hbody, if_neg h]
    refine ⟨fun hstays => if_neg (not_not.mpr hstays), fun hmoves => (if_pos hmoves).trans ?_⟩
    cases aux.makeResult _ _ <;> rfl

/-- The text ends before a character that is not a digit. -/
def StopsHere (rest : Bytes) : Prop := ∀ c ∈ rest.head?, isdigit c = false

theorem stopsHere_dropWhile (text : Bytes) : StopsHere (text.dropWhile isdigit) := by
  intro c hc
  have hhead := head?_dropWhile_not isdigit text
  rw [Option.mem_def.mp hc] at hhead
  exact eq_false_iff.mpr fun h => by simp [h] at hhead

theorem StopsHere.head {c : UInt8} {cs : Bytes} (h : StopsHere (c :: cs)) : ¬ isdigit c = true :=
  eq_false_iff.mp (h c rfl)

/-! ### Integers -/

theorem parse_int_stops {rest : Bytes} (hrest : StopsHere rest) (N : ℕ) (n : Negative) :
    parse (strToIntAux t) rest cur N n = ⟨rest, cur, N, n⟩ := by
  cases rest with
  | nil => rfl
  | cons c cs =>
    rw [parse]
    split
    · rw [if_neg hrest.head]
      rfl
    · rfl

theorem removeFollowDigit_int_stops {rest : Bytes} (hrest : StopsHere rest) (N : ℕ) (n : Negative) :
    removeFollowDigit (strToIntAux t) rest cur N n = ⟨rest, cur, N, n⟩ := by
  cases rest with
  | nil => rfl
  | cons c cs =>
    rw [removeFollowDigit, if_neg hrest.head]
    rfl

/-- The digits of an integer, all of them. -/
theorem parse_int {ds rest : Bytes} (hds : Digits ds) (hrest : StopsHere rest)
    (hend : cur.expectEnd = cur.current + (ds ++ rest).length) (hneg : negative = true → t.isSigned = true) :
    ∃ N n, parse (strToIntAux t) (ds ++ rest) cur 0 (signOf negative) = ⟨rest, cur.forward ds.length, N, n⟩ ∧
      makeResult t N n = clamp t (withSign negative (digitsValue ds : ℤ)) := by
  rw [length_append] at hend
  by_cases hfits : digitsValue ds ≤ tempMax t
  · have hfits' : moreDigits 0 ds ≤ (strToIntAux t).tempMax := hfits
    refine ⟨digitsValue ds, signOf negative, ?_, makeResult_sign hneg hfits⟩
    rw [parse_digits hds (by omega) hfits', parse_int_stops hrest, moreDigits_zero]
  · obtain ⟨a, c, b, rfl, hfits', hover⟩ := exists_overflow (Nat.zero_le _) (Nat.not_le.mp hfits)
    have hc : isdigit c = true := hds c (by simp)
    have hremove : (strToIntAux t).onOverflow c (cur.forward a.length) (moreDigits 0 a) (signOf negative) =
        (.removeFollowDigit, onOverflow t (moreDigits 0 a) (signOf negative)) := rfl
    refine ⟨_, _, ?_, makeResult_onOverflow (N := moreDigits 0 a) hneg (not_le.mp hfits)⟩
    rw [parse_overflow (fun x hx => hds x (by simp [hx])) hc (fun x hx => hds x (by simp [hx]))
        (by rw [hend, length_append, length_cons]; omega) hfits' hover hremove,
      removeFollowDigit_int_stops hrest]
    rfl

theorem strTo_eq (t : IntType) (str : Bytes) (value : ℤ) :
    strTo t str value = .ok ((intNumeral t str).1.elim value (clamp t), (intNumeral t str).2) := by
  have hsign (c : UInt8) : ((strToIntAux t).checkSign c).1 = (checkSign t c).1 := rfl
  have hnumeral : intNumeral t str =
      (if (signedText t str).2.takeWhile isdigit = [] then none
        else some (withSign (signedText t str).1 (digitsValue ((signedText t str).2.takeWhile isdigit) : ℤ)),
        (signedText t str).2.dropWhile isdigit) := rfl
  rw [strTo, hnumeral]
  by_cases htext : (signedText t str).2 = []
  · rw [strToNum_nil hsign htext, htext]
    rfl
  · obtain ⟨c, hneg, pbeg, hlen, hparse⟩ := strToNum_cons hsign htext value
    have hsplit := takeWhile_append_dropWhile (p := isdigit) (l := (signedText t str).2)
    let cur : StrToNumCursor := ⟨pbeg, str.length, pbeg⟩
    have hend : cur.expectEnd = cur.current +
        ((signedText t str).2.takeWhile isdigit ++ (signedText t str).2.dropWhile isdigit).length := by
      rw [hsplit]
      exact hlen
    obtain ⟨N, n, hresult, hclamp⟩ := parse_int (digits_takeWhile _) (stopsHere_dropWhile _) hend signedText_signed
    rw [hsplit, ← hneg] at hresult
    obtain ⟨hstays, hmoves⟩ := hparse _ hresult
    by_cases hdigits : (signedText t str).2.takeWhile isdigit = []
    · rw [if_pos hdigits, hstays (by rw [hdigits]; rfl)]
      rfl
    · have hpos := length_pos_iff.mpr hdigits
      have hmake : (strToIntAux t).makeResult N n = .ok (makeResult t N n) := rfl
      rw [if_neg hdigits, hmoves (by show pbeg + _ ≠ pbeg; omega), hmake, hclamp]
      rfl

end Fon9.Num
