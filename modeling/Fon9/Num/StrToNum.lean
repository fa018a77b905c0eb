import Fon9.Num.DecBase

/-! `StrToNum` and the helpers that turn a text into an integer or into a fixed point number.
Positions count from the start of the text. The characters from `Current_` on go along, so that
none is read past the end. The main loop takes all of a run of digits, or the first one that does
not fit ends the number and the rest is skipped. -/

namespace Fon9.Num

open Bitv List

structure StrToNumCursor where
  origBegin : ℕ
  expectEnd : ℕ
  current : ℕ

def StrToNumCursor.forward (cur : StrToNumCursor) (n : ℕ) : StrToNumCursor := { cur with current := cur.current + n }

inductive StrToNumOverflow
  | continueParse
  | breakParse
  | removeFollowDigit

/-- Where a parse stands. -/
structure Parse (σ : Type) where
  rest : Bytes
  cur : StrToNumCursor
  res : ℕ
  aux : σ

/-- `AuxT` with the members `σ`, which `CheckSign` sets. The largest `TempResultT` is one less
than a power of two. -/
structure Aux (σ : Type) where
  tempMax : ℕ
  checkSign : UInt8 → Bool × σ
  isValidChar : UInt8 → StrToNumCursor → σ → Bool × StrToNumCursor × σ
  onOverflow : UInt8 → StrToNumCursor → ℕ → σ → StrToNumOverflow × ℕ × σ
  onParseNormalEnd : Parse σ → Parse σ
  makeResult : ℕ → σ → Except AdjustError ℤ

variable {σ : Type}

/-- The loop of `RemoveFollowDigit`. -/
def removeFollowDigit (aux : Aux σ) : Bytes → StrToNumCursor → ℕ → σ → Parse σ
  | [], cur, res, s => ⟨[], cur, res, s⟩
  | c :: cs, cur, res, s =>
    if isdigit c then removeFollowDigit aux cs (cur.forward 1) res s
    else
      match aux.isValidChar c cur s with
      | (true, cur, s) => removeFollowDigit aux cs (cur.forward 1) res s
      | (false, cur, s) => ⟨c :: cs, cur, res, s⟩

/-- The main loop. There is a character at its start, so that its condition may come first. -/
def parse (aux : Aux σ) : Bytes → StrToNumCursor → ℕ → σ → Parse σ
  | [], cur, res, s => aux.onParseNormalEnd ⟨[], cur, res, s⟩
  | c :: cs, cur, res, s =>
    if cur.current < cur.expectEnd then
      if isdigit c then
        if res < aux.tempMax / 10 ∨ (res = aux.tempMax / 10 ∧ digval c ≤ aux.tempMax % 10) then
          parse aux cs (cur.forward 1) (res * 10 + digval c) s
        else
          match aux.onOverflow c cur res s with
          | (.removeFollowDigit, res, s) => removeFollowDigit aux cs (cur.forward 1) res s
          | (.breakParse, res, s) => ⟨c :: cs, cur, res, s⟩
          | (.continueParse, res, s) => parse aux cs (cur.forward 1) res s
      else
        match aux.isValidChar c cur s with
        | (true, cur, s) => parse aux cs (cur.forward 1) res s
        | (false, cur, s) => ⟨c :: cs, cur, res, s⟩
    else aux.onParseNormalEnd ⟨c :: cs, cur, res, s⟩

/-- The number and the text from `endptr` on. Without a digit `out` is left alone. -/
def strToNum (aux : Aux σ) (str : Bytes) (out : ℤ) : Except AdjustError (ℤ × Bytes) :=
  match str.dropWhile isspace with
  | [] => .ok (out, [])
  | c :: cs =>
    let (sign, s) := aux.checkSign c
    let body := if sign then cs.dropWhile isspace else c :: cs
    if body = [] then .ok (out, [])
    else
      let pbeg := str.length - body.length
      let p := parse aux body ⟨pbeg, str.length, pbeg⟩ 0 s
      if p.cur.current ≠ p.cur.origBegin then do
        let out ← aux.makeResult p.res p.aux
        return (out, p.rest)
      else .ok (out, p.rest)

/-! ### Integers -/

/-- `Negative_` -/
inductive Negative
  | isNegative
  | isNegativeMin
  | isPositive
  deriving DecidableEq

namespace StrToSIntAux

def checkSign (ch1st : UInt8) : Bool × Negative :=
  if ch1st = ch '+' then (true, .isPositive)
  else if ch1st = ch '-' then (true, .isNegative)
  else (false, .isPositive)

def onOverflow (t : IntType) (res : ℕ) (negative : Negative) : ℕ × Negative :=
  if negative = .isNegative then (res, .isNegativeMin) else (t.max.toNat, negative)

def onOverflowInc (t : IntType) (res : ℕ) (negative : Negative) : ℕ × Negative :=
  if res < t.max.toNat then (res + 1, negative)
  else if negative = .isNegative then (res, .isNegativeMin)
  else (res, negative)

def makeResult (t : IntType) (res : ℕ) : Negative → ℤ
  | .isPositive => if t.max.toNat < res then t.max else res
  | .isNegative => if t.max.toNat < res then t.min else -res
  | .isNegativeMin => t.min

end StrToSIntAux

namespace StrToUIntAux

def checkSign (ch1st : UInt8) : Bool × Negative := (decide (ch1st = ch '+'), .isPositive)

def onOverflow (t : IntType) (negative : Negative) : ℕ × Negative := (t.max.toNat, negative)

def onOverflowInc (t : IntType) (res : ℕ) (negative : Negative) : ℕ × Negative :=
  if res < t.max.toNat then (res + 1, negative) else (res, negative)

end StrToUIntAux

namespace StrToIntAux

variable (t : IntType)

/-- The signed helper or the unsigned one, as in what follows. -/
def checkSign (ch1st : UInt8) : Bool × Negative :=
  if t.isSigned then StrToSIntAux.checkSign ch1st else StrToUIntAux.checkSign ch1st

def onOverflow (res : ℕ) (negative : Negative) : ℕ × Negative :=
  if t.isSigned then StrToSIntAux.onOverflow t res negative else StrToUIntAux.onOverflow t negative

def onOverflowInc (res : ℕ) (negative : Negative) : ℕ × Negative :=
  if t.isSigned then StrToSIntAux.onOverflowInc t res negative else StrToUIntAux.onOverflowInc t res negative

def makeResult (res : ℕ) (negative : Negative) : ℤ :=
  if t.isSigned then StrToSIntAux.makeResult t res negative else res

end StrToIntAux

variable (t : IntType)

/-- The largest value of `make_unsigned<IntType>`. -/
def tempMax : ℕ := 2 ^ (8 * t.size) - 1

def strToIntAux : Aux Negative where
  tempMax := tempMax t
  checkSign := StrToIntAux.checkSign t
  isValidChar _ cur negative := (false, cur, negative)
  onOverflow _ _ res negative := (.removeFollowDigit, StrToIntAux.onOverflow t res negative)
  onParseNormalEnd p := p
  makeResult res negative := .ok (StrToIntAux.makeResult t res negative)

/-- `StrTo` of an integer type. -/
def strTo (str : Bytes) (value : ℤ) : Except AdjustError (ℤ × Bytes) := strToNum (strToIntAux t) str value

/-! ### Fixed point -/

/-- The members of `StrToDecIntAux`. -/
structure DecIntAux where
  negative : Negative
  pointPos : Option ℕ
  scale : ℤ

namespace StrToDecIntAux

variable (t : IntType) (decPoint : UInt8) (expectScale : ℕ)

def checkSign (ch1st : UInt8) : Bool × DecIntAux :=
  let (sign, negative) := StrToIntAux.checkSign t ch1st
  (sign, ⟨negative, none, -1⟩)

/-- `SetDecimalEnd` in the fraction, `SetPointPos` at the decimal point. -/
def isValidChar (c : UInt8) (cur : StrToNumCursor) (s : DecIntAux) : Bool × StrToNumCursor × DecIntAux :=
  match s.pointPos with
  | some pointPos => (false, cur, if s.scale < 0 then { s with scale := cur.current - pointPos - 1 } else s)
  | none =>
    if c ≠ decPoint then (false, cur, s)
    else (true, { cur with expectEnd := min cur.expectEnd (cur.current + expectScale + 1) },
      { s with pointPos := some cur.current })

def onOverflow (c : UInt8) (cur : StrToNumCursor) (res : ℕ) (s : DecIntAux) : StrToNumOverflow × ℕ × DecIntAux :=
  match s.pointPos with
  | none =>
    let (res, negative) := StrToIntAux.onOverflow t res s.negative
    (.removeFollowDigit, res, { s with scale := expectScale, negative := negative })
  | some pointPos =>
    let (res, negative) := if ch '5' ≤ c then StrToIntAux.onOverflowInc t res s.negative else (res, s.negative)
    (.removeFollowDigit, res, { s with scale := cur.current - pointPos - 1, negative := negative })

/-- The next digit rounds, and the digits are skipped. -/
def onParseNormalEnd (p : Parse DecIntAux) : Parse DecIntAux :=
  match p.aux.pointPos with
  | none => p
  | some pointPos =>
    let scale : ℤ := p.cur.current - pointPos - 1
    match p.rest with
    | [] => { p with aux := { p.aux with scale := scale } }
    | c :: _ =>
      let (res, negative) :=
        if 5 ≤ digval c ∧ digval c ≤ 9 then StrToIntAux.onOverflowInc t p.res p.aux.negative
        else (p.res, p.aux.negative)
      ⟨p.rest.dropWhile isdigit, p.cur.forward (p.rest.takeWhile isdigit).length, res,
        { p.aux with scale := scale, negative := negative }⟩

def makeResult (res : ℕ) (s : DecIntAux) : Except AdjustError ℤ :=
  adjustDecScale .limit t t (StrToIntAux.makeResult t res s.negative) (if s.scale < 0 then 0 else s.scale.toNat) expectScale

end StrToDecIntAux

variable (decPoint : UInt8) (str : Bytes)

def strToDecIntAux (expectScale : ℕ) : Aux DecIntAux where
  tempMax := tempMax t
  checkSign := StrToDecIntAux.checkSign t
  isValidChar := StrToDecIntAux.isValidChar decPoint expectScale
  onOverflow := StrToDecIntAux.onOverflow t expectScale
  onParseNormalEnd := StrToDecIntAux.onParseNormalEnd t
  makeResult := StrToDecIntAux.makeResult t expectScale

/-- `StrTo` of a `Decimal`: its original value. -/
def strToDec (decScale : ℕ) (str : Bytes) (value : ℤ) : Except AdjustError (ℤ × Bytes) :=
  strToNum (strToDecIntAux t decPoint decScale) str value

/-! ### What it is for -/

/-- The number that digits denote. -/
def digitsValue (digits : Bytes) : ℕ := digits.foldl (fun res c => res * 10 + digval c) 0

/-- The sign of a numeral, and the text after the blanks and the sign. -/
def signedText : Bool × Bytes :=
  match str.dropWhile isspace with
  | [] => (false, [])
  | c :: cs =>
    if c = ch '+' then (false, cs.dropWhile isspace)
    else if t.isSigned ∧ c = ch '-' then (true, cs.dropWhile isspace)
    else (false, c :: cs)

def withSign {α : Type} [Neg α] (negative : Bool) (v : α) : α := if negative then -v else v

/-- The integer numeral at the start of a text, and the text after it. -/
def intNumeral : Option ℤ × Bytes :=
  let (negative, text) := signedText t str
  let digits := text.takeWhile isdigit
  (if digits = [] then none else some (withSign negative (digitsValue digits)), text.dropWhile isdigit)

/-- The decimal numeral at the start of a text, and the text after it. -/
def decNumeral : Option ℚ × Bytes :=
  let (negative, text) := signedText t str
  let digits := text.takeWhile isdigit
  match text.dropWhile isdigit with
  | [] => (if digits = [] then none else some (withSign negative (digitsValue digits)), [])
  | c :: cs =>
    if c = decPoint then
      let fraction := cs.takeWhile isdigit
      (some (withSign negative (digitsValue digits + digitsValue fraction / 10 ^ fraction.length)),
        cs.dropWhile isdigit)
    else (if digits = [] then none else some (withSign negative (digitsValue digits)), c :: cs)

section Digits

variable {σ : Type} {aux : Aux σ} {cur : StrToNumCursor} {res : ℕ} {s : σ} {ds a b rest : Bytes} {c : UInt8}

@[simp] theorem forward_current (cur : StrToNumCursor) (n : ℕ) : (cur.forward n).current = cur.current + n := rfl

@[simp] theorem forward_expectEnd (cur : StrToNumCursor) (n : ℕ) : (cur.forward n).expectEnd = cur.expectEnd := rfl

@[simp] theorem forward_origBegin (cur : StrToNumCursor) (n : ℕ) : (cur.forward n).origBegin = cur.origBegin := rfl

@[simp] theorem forward_zero (cur : StrToNumCursor) : cur.forward 0 = cur := rfl

theorem forward_forward (cur : StrToNumCursor) (m n : ℕ) : (cur.forward m).forward n = cur.forward (m + n) := by
  simp only [StrToNumCursor.forward, add_assoc]

theorem isdigit_iff : isdigit c = true ↔ digval c ≤ 9 := decide_eq_true_iff

/-- All the characters are digits. -/
def Digits (ds : Bytes) : Prop := ∀ c ∈ ds, isdigit c = true

theorem Digits.append (ha : Digits a) (hb : Digits b) : Digits (a ++ b) := fun c hc =>
  (mem_append.mp hc).elim (ha c) (hb c)

theorem digits_takeWhile (text : Bytes) : Digits (text.takeWhile isdigit) := fun _ hc =>
  all_eq_true.mp all_takeWhile _ hc

theorem Digits.take (h : Digits ds) (n : ℕ) : Digits (ds.take n) := fun c hc => h c (mem_of_mem_take hc)

theorem Digits.drop (h : Digits ds) (n : ℕ) : Digits (ds.drop n) := fun c hc => h c (mem_of_mem_drop hc)

/-! ### Values -/

/-- The value of further digits. -/
def moreDigits (res : ℕ) (ds : Bytes) : ℕ := ds.foldl (fun res c => res * 10 + digval c) res

theorem moreDigits_cons (res : ℕ) (c : UInt8) (ds : Bytes) :
    moreDigits res (c :: ds) = moreDigits (res * 10 + digval c) ds := rfl

theorem moreDigits_append (res : ℕ) (a b : Bytes) : moreDigits res (a ++ b) = moreDigits (moreDigits res a) b :=
  foldl_append

theorem moreDigits_eq (res : ℕ) (ds : Bytes) : moreDigits res ds = res * 10 ^ ds.length + digitsValue ds := by
  induction ds generalizing res with
  | nil => simp [moreDigits, digitsValue]
  | cons c ds ih =>
    have hvalue : digitsValue (c :: ds) = moreDigits (0 * 10 + digval c) ds := rfl
    rw [moreDigits_cons, ih, hvalue, ih, length_cons, pow_succ]
    ring

theorem moreDigits_zero (ds : Bytes) : moreDigits 0 ds = digitsValue ds := rfl

theorem digitsValue_append (a b : Bytes) : digitsValue (a ++ b) = digitsValue a * 10 ^ b.length + digitsValue b := by
  rw [← moreDigits_zero, moreDigits_append, moreDigits_eq, moreDigits_zero]

theorem digitsValue_lt (h : Digits ds) : digitsValue ds < 10 ^ ds.length := by
  induction ds with
  | nil => exact Nat.one_pos
  | cons c ds ih =>
    have hc : digval c ≤ 9 := isdigit_iff.mp (h c (mem_cons_self ..))
    have hds := ih fun c' hc' => h c' (mem_cons_of_mem c hc')
    rw [← moreDigits_zero, moreDigits_cons, moreDigits_eq, length_cons, pow_succ]
    nlinarith

theorem le_moreDigits (res : ℕ) (ds : Bytes) : res ≤ moreDigits res ds := by
  rw [moreDigits_eq]
  have hpos : 0 < 10 ^ ds.length := by positivity
  nlinarith

/-- The digit at which a number gets too large. -/
theorem exists_overflow {max : ℕ} (hres : res ≤ max) (h : max < moreDigits res ds) :
    ∃ a c b, ds = a ++ c :: b ∧ moreDigits res a ≤ max ∧ max < moreDigits res a * 10 + digval c := by
  induction ds generalizing res with
  | nil => exact absurd h (not_lt.mpr hres)
  | cons c ds ih =>
    by_cases hc : res * 10 + digval c ≤ max
    · obtain ⟨a, c', b, rfl, hfits, hover⟩ := ih hc h
      exact ⟨c :: a, c', b, rfl, hfits, hover⟩
    · exact ⟨[], c, ds, rfl, hres, not_le.mp hc⟩

/-! ### Runs of digits -/

theorem removeFollowDigit_digits (hds : Digits ds) :
    removeFollowDigit aux (ds ++ rest) cur res s = removeFollowDigit aux rest (cur.forward ds.length) res s := by
  induction ds generalizing cur with
  | nil => rfl
  | cons c ds ih =>
    rw [cons_append, removeFollowDigit, if_pos (hds c (mem_cons_self ..)),
      ih fun c' hc' => hds c' (mem_cons_of_mem c hc'), forward_forward, length_cons, add_comm 1]

theorem parse_digits (hds : Digits ds) (hend : cur.current + ds.length ≤ cur.expectEnd)
    (hfits : moreDigits res ds ≤ aux.tempMax) :
    parse aux (ds ++ rest) cur res s = parse aux rest (cur.forward ds.length) (moreDigits res ds) s := by
  induction ds generalizing cur res with
  | nil => rfl
  | cons c ds ih =>
    have hc : isdigit c = true := hds c (mem_cons_self ..)
    have hfit : res * 10 + digval c ≤ aux.tempMax := (le_moreDigits _ ds).trans hfits
    rw [length_cons] at hend
    rw [cons_append, parse, if_pos (by omega), if_pos hc, if_pos ((strToNum_fits_iff (isdigit_iff.mp hc)).mpr hfit),
      ih (fun c' hc' => hds c' (mem_cons_of_mem c hc')) (by rw [forward_current, forward_expectEnd]; omega) hfits,
      forward_forward, length_cons, add_comm 1]
    rfl

theorem parse_overflow {res' : ℕ} {s' : σ} (ha : Digits a) (hc : isdigit c = true) (hb : Digits b)
    (hend : cur.current + a.length < cur.expectEnd) (hfits : moreDigits res a ≤ aux.tempMax)
    (hover : aux.tempMax < moreDigits res a * 10 + digval c)
    (hremove : aux.onOverflow c (cur.forward a.length) (moreDigits res a) s = (.removeFollowDigit, res', s')) :
    parse aux (a ++ c :: b ++ rest) cur res s =
      removeFollowDigit aux rest (cur.forward (a ++ c :: b).length) res' s' := by
  have hnot : ¬ (moreDigits res a < aux.tempMax / 10 ∨
      (moreDigits res a = aux.tempMax / 10 ∧ digval c ≤ aux.tempMax % 10)) := by
    rw [strToNum_fits_iff (isdigit_iff.mp hc)]
    omega
  rw [append_assoc, parse_digits ha hend.le hfits, cons_append, parse,
    if_pos (by rwa [forward_current, forward_expectEnd]), if_pos hc, if_neg hnot, hremove]
  show removeFollowDigit aux (b ++ rest) _ _ _ = _
  rw [removeFollowDigit_digits hb, forward_forward, forward_forward, length_append, length_cons]
  congr 2
  omega

end Digits

end Fon9.Num
