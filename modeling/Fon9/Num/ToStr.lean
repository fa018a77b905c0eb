import Fon9.Num.StrToDecimal

/-! `ToStrRev` of the integers and of the fixed point numbers, and back. The text grows to the
front. The number zero has one digit; of a fraction the zeros at its end are left out. -/

namespace Fon9.Num

open Bitv List IntType

/-! ### The printer -/

def put2Digs (pout : Bytes) (v : ℕ) : Bytes := digch (v / 10) :: digch (v % 10) :: pout

def uIntToStrRev (pout : Bytes) (value : ℕ) : Bytes :=
  if 100 ≤ value then uIntToStrRev (put2Digs pout (value % 100)) (value / 100)
  else if value < 10 then digch value :: pout
  else put2Digs pout value
termination_by value

/-- A negation of `intmax_t`. What it gives for the smallest value is not defined. -/
def Negates (neg : ℤ → ℤ) : Prop := ∀ v, Fits .int64 v → v ≠ IntType.int64.min → neg v = -v

/-- The negation takes the smallest value to the bits of its magnitude. -/
def Wraps (neg : ℤ → ℤ) : Prop := IntType.uint64.wrap (neg IntType.int64.min) = 2 ^ 63

section Printer

variable (neg : ℤ → ℤ)

/-- `abs_cast` -/
def absCast (value : ℤ) : ℕ := (IntType.uint64.wrap (if value < 0 then neg value else value)).toNat

def sIntToStrRev (pout : Bytes) (value : ℤ) : Bytes :=
  let pout := uIntToStrRev pout (absCast neg value)
  if value < 0 then ch '-' :: pout else pout

/-- `ToStrRev` of an integer type. -/
def toStrRev (t : IntType) (pout : Bytes) (value : ℤ) : Bytes :=
  if t.isSigned then sIntToStrRev neg pout value else uIntToStrRev pout value.toNat

/-- The digits of a fraction that is not zero any more. -/
def putDigits : ℕ → Bytes → ℕ → Bytes × ℕ
  | 0, pout, res => (pout, res)
  | scale + 1, pout, res => putDigits scale (digch (res % 10) :: pout) (res / 10)

/-- The zeros at the end of the fraction are left out. -/
def putAutoPrecision (decPoint : UInt8) : ℕ → Bytes → ℕ → Bytes × ℕ
  | 0, pout, res => (pout, res)
  | scale + 1, pout, res =>
    if res % 10 ≠ 0 then
      let (pout, res) := putDigits (scale + 1) pout res
      (decPoint :: pout, res)
    else putAutoPrecision decPoint scale pout (res / 10)

def uDecToStrRev (decPoint : UInt8) (pout : Bytes) (value scale : ℕ) : Bytes :=
  let (pout, value) := putAutoPrecision decPoint scale pout value
  uIntToStrRev pout value

def sDecToStrRev (decPoint : UInt8) (pout : Bytes) (value : ℤ) (scale : ℕ) : Bytes :=
  let pout := uDecToStrRev decPoint pout (absCast neg value) scale
  if value < 0 then ch '-' :: pout else pout

/-- `DecToStrRev` -/
def decToStrRev (t : IntType) (decPoint : UInt8) (pout : Bytes) (value : ℤ) (scale : ℕ) : Bytes :=
  if t.isSigned then sDecToStrRev neg decPoint pout value scale else uDecToStrRev decPoint pout value.toNat scale

/-- `ToStrRev` of a `Decimal`. -/
def decimalToStrRev (t : IntType) (decPoint : UInt8) (scale : ℕ) (pout : Bytes) (value : ℤ) : Bytes :=
  if value = origNull t then pout else decToStrRev neg t decPoint pout value scale

end Printer

/-! ### What is printed -/

variable {neg : ℤ → ℤ} {t : IntType} {decPoint : UInt8} {v : ℤ} {scale : ℕ} {ds rest : Bytes}

theorem isdigit_digch {d : ℕ} (h : d ≤ 9) : isdigit (digch d) = true := by
  rw [isdigit_iff, digval_digch h]
  exact h

theorem uIntToStrRev_eq (pout : Bytes) (value : ℕ) :
    ∃ ds, uIntToStrRev pout value = ds ++ pout ∧ Digits ds ∧ ds ≠ [] ∧ digitsValue ds = value := by
  induction value using Nat.strong_induction_on generalizing pout with
  | _ value ih =>
    rw [uIntToStrRev]
    by_cases hbig : 100 ≤ value
    · obtain ⟨ds, htext, hds, hne, hvalue⟩ := ih (value / 100) (by omega) (put2Digs pout (value % 100))
      have hhigh : value % 100 / 10 ≤ 9 := by omega
      have hlow : value % 100 % 10 ≤ 9 := by omega
      refine ⟨ds ++ [digch (value % 100 / 10), digch (value % 100 % 10)], ?_, ?_, by simp, ?_⟩
      · rw [if_pos hbig, htext, put2Digs]
        simp
      · refine hds.append fun c hc => ?_
        simp only [mem_cons, not_mem_nil, or_false] at hc
        rcases hc with rfl | rfl
        · exact isdigit_digch hhigh
        · exact isdigit_digch hlow
      · rw [digitsValue_append, hvalue]
        simp only [digitsValue, foldl_cons, foldl_nil, length_cons, length_nil, digval_digch hhigh,
          digval_digch hlow]
        omega
    · rw [if_neg hbig]
      by_cases hone : value < 10
      · refine ⟨[digch value], by rw [if_pos hone]; rfl, ?_, by simp, ?_⟩
        · intro c hc
          rw [mem_singleton.mp hc]
          exact isdigit_digch (by omega)
        · simp only [digitsValue, foldl_cons, foldl_nil, digval_digch (by omega : value ≤ 9)]
          omega
      · have hhigh : value / 10 ≤ 9 := by omega
        have hlow : value % 10 ≤ 9 := by omega
        refine ⟨[digch (value / 10), digch (value % 10)], by rw [if_neg hone]; rfl, ?_, by simp, ?_⟩
        · intro c hc
          simp only [mem_cons, not_mem_nil, or_false] at hc
          rcases hc with rfl | rfl
          · exact isdigit_digch hhigh
          · exact isdigit_digch hlow
        · simp only [digitsValue, foldl_cons, foldl_nil, digval_digch hhigh, digval_digch hlow]
          omega

theorem putDigits_eq (n : ℕ) (pout : Bytes) (res : ℕ) :
    ∃ fs, putDigits n pout res = (fs ++ pout, res / 10 ^ n) ∧ Digits fs ∧ fs.length = n ∧ digitsValue fs = res % 10 ^ n := by
  induction n generalizing pout res with
  | zero =>
    have hdiv : res / 10 ^ 0 = res := by rw [pow_zero, Nat.div_one]
    have hmod : res % 10 ^ 0 = 0 := by rw [pow_zero, Nat.mod_one]
    exact ⟨[], by rw [hdiv]; rfl, (fun _ h => nomatch h), rfl, hmod.symm⟩
  | succ n ih =>
    obtain ⟨fs, htext, hfs, hlen, hvalue⟩ := ih (digch (res % 10) :: pout) (res / 10)
    have hdigit : res % 10 ≤ 9 := by omega
    refine ⟨fs ++ [digch (res % 10)], ?_, ?_, ?_, ?_⟩
    · rw [putDigits, htext, Nat.div_div_eq_div_mul, pow_succ']
      simp
    · refine hfs.append fun c hc => ?_
      rw [mem_singleton.mp hc]
      exact isdigit_digch hdigit
    · rw [length_append, hlen]
      rfl
    · rw [digitsValue_append, hvalue, pow_succ', Nat.mod_mul]
      simp only [digitsValue, foldl_cons, foldl_nil, length_cons, length_nil, digval_digch hdigit]
      omega

/-- The fraction without the zeros at its end. -/
theorem putAutoPrecision_eq (decPoint : UInt8) (scale : ℕ) (pout : Bytes) (res : ℕ) :
    res % 10 ^ scale = 0 ∧ putAutoPrecision decPoint scale pout res = (pout, res / 10 ^ scale) ∨
      ∃ fs, putAutoPrecision decPoint scale pout res = (decPoint :: fs ++ pout, res / 10 ^ scale) ∧ Digits fs ∧
        fs.length ≤ scale ∧ digitsValue fs * 10 ^ (scale - fs.length) = res % 10 ^ scale := by
  induction scale generalizing res with
  | zero => exact .inl ⟨by rw [pow_zero, Nat.mod_one], by rw [pow_zero, Nat.div_one]; rfl⟩
  | succ scale ih =>
    rw [putAutoPrecision]
    by_cases hdigit : res % 10 ≠ 0
    · obtain ⟨fs, htext, hfs, hlen, hvalue⟩ := putDigits_eq (scale + 1) pout res
      refine .inr ⟨fs, ?_, hfs, hlen.le, ?_⟩
      · rw [if_pos hdigit, htext]
        rfl
      · rw [hlen, Nat.sub_self, pow_zero, mul_one, hvalue]
    · have hzero : res % 10 = 0 := not_not.mp hdigit
      have hmod : res % 10 ^ (scale + 1) = 10 * (res / 10 % 10 ^ scale) := by
        rw [pow_succ', Nat.mod_mul, hzero, zero_add]
      have hdiv : res / 10 / 10 ^ scale = res / 10 ^ (scale + 1) := by rw [Nat.div_div_eq_div_mul, pow_succ']
      rw [if_neg hdigit]
      rcases ih (res / 10) with ⟨hnone, htext⟩ | ⟨fs, htext, hfs, hlen, hvalue⟩
      · exact .inl ⟨by rw [hmod, hnone], by rw [htext, hdiv]⟩
      · refine .inr ⟨fs, by rw [htext, hdiv], hfs, by omega, ?_⟩
        have hexp : scale + 1 - fs.length = scale - fs.length + 1 := by omega
        rw [hmod, ← hvalue, hexp, pow_succ]
        ring

/-- Digits, and a fraction of at most as many as the scale. -/
theorem uDecToStrRev_eq (decPoint : UInt8) (value scale : ℕ) :
    ∃ ds, Digits ds ∧ ds ≠ [] ∧
      (uDecToStrRev decPoint [] value scale = ds ∧ digitsValue ds * 10 ^ scale = value ∨
        ∃ fs, uDecToStrRev decPoint [] value scale = ds ++ decPoint :: fs ∧ Digits fs ∧ fs.length ≤ scale ∧
          digitsValue (ds ++ fs) * 10 ^ (scale - fs.length) = value) := by
  have hparts := Nat.div_add_mod value (10 ^ scale)
  rw [uDecToStrRev]
  rcases putAutoPrecision_eq decPoint scale [] value with ⟨hnone, htext⟩ | ⟨fs, htext, hfs, hlen, hvalue⟩
  · obtain ⟨ds, hdigits, hds, hne, hwhole⟩ := uIntToStrRev_eq [] (value / 10 ^ scale)
    refine ⟨ds, hds, hne, .inl ⟨?_, ?_⟩⟩
    · rw [htext]
      exact hdigits.trans (append_nil ds)
    · rw [hwhole, mul_comm]
      omega
  · obtain ⟨ds, hdigits, hds, hne, hwhole⟩ := uIntToStrRev_eq (decPoint :: fs) (value / 10 ^ scale)
    refine ⟨ds, hds, hne, .inr ⟨fs, ?_, hfs, hlen, ?_⟩⟩
    · rw [htext, append_nil]
      exact hdigits
    · rw [digitsValue_append, hwhole, add_mul, hvalue, mul_assoc, ← pow_add, Nat.add_sub_cancel' hlen, mul_comm]
      exact hparts

/-! ### Back -/

theorem not_sign_of_isdigit : ∀ c : UInt8, isdigit c = true → isspace c = false ∧ c ≠ ch '+' ∧ c ≠ ch '-' := by
  have h : ∀ m : Fin 256, isdigit (UInt8.ofFin m) = true →
      isspace (UInt8.ofFin m) = false ∧ UInt8.ofFin m ≠ ch '+' ∧ UInt8.ofFin m ≠ ch '-' := by decide +kernel
  exact fun c => h c.toFin

/-- A text that starts with a digit has no sign. -/
theorem signedText_digits (t : IntType) (hds : Digits ds) (hne : ds ≠ []) (rest : Bytes) :
    signedText t (ds ++ rest) = (false, ds ++ rest) := by
  obtain ⟨c, cs, rfl⟩ := exists_cons_of_ne_nil hne
  obtain ⟨hspace, hplus, hminus⟩ := not_sign_of_isdigit c (hds c (mem_cons_self ..))
  rw [signedText, cons_append, dropWhile_cons_of_neg (by rw [hspace]; exact Bool.false_ne_true)]
  dsimp only
  rw [if_neg hplus, if_neg fun h => hminus h.2]

theorem signedText_minus (ht : t.isSigned = true) (hds : Digits ds) (hne : ds ≠ []) (rest : Bytes) :
    signedText t (ch '-' :: (ds ++ rest)) = (true, ds ++ rest) := by
  obtain ⟨c, cs, rfl⟩ := exists_cons_of_ne_nil hne
  obtain ⟨hspace, -, -⟩ := not_sign_of_isdigit c (hds c (mem_cons_self ..))
  have hminus : isspace (ch '-') = false := by decide
  rw [signedText, dropWhile_cons_of_neg (by rw [hminus]; exact Bool.false_ne_true)]
  dsimp only
  rw [if_neg (by decide), if_pos ⟨ht, rfl⟩, cons_append,
    dropWhile_cons_of_neg (by rw [hspace]; exact Bool.false_ne_true)]

/-- The magnitude that is printed. -/
theorem absCast_eq (hneg : Negates neg) (hv : Fits t v) (ht : t.isSigned = true) (hmin : v = int64.min → Wraps neg) :
    absCast neg v = v.natAbs := by
  have hfits : Fits .int64 v := hv.within (by revert ht; cases t <;> decide)
  have hbounds : -2 ^ 63 ≤ v ∧ v ≤ 2 ^ 63 - 1 := hfits
  rw [absCast]
  by_cases hlow : v < 0
  · rw [if_pos hlow]
    by_cases hleast : v = int64.min
    · have hwraps : uint64.wrap (neg v) = 2 ^ 63 := by rw [hleast]; exact hmin hleast
      rw [hwraps, hleast]
      decide
    · rw [hneg v hfits hleast, wrap_of_fits ⟨by show 0 ≤ -v; omega, by show -v ≤ 2 ^ 64 - 1; omega⟩]
      omega
  · rw [if_neg hlow, wrap_of_fits ⟨by show 0 ≤ v; omega, by show v ≤ 2 ^ 64 - 1; omega⟩]
    omega

theorem not_negative (hv : Fits t v) (h : v < 0) : t.isSigned = true := by
  by_contra hS
  have hmin := hv.1
  rw [min_of_unsigned (Bool.eq_false_iff.mpr hS)] at hmin
  omega

theorem toStrRev_eq (hneg : Negates neg) (hv : Fits t v) (hmin : v = int64.min → Wraps neg) :
    toStrRev neg t [] v = if v < 0 then ch '-' :: uIntToStrRev [] v.natAbs else uIntToStrRev [] v.natAbs := by
  rw [toStrRev]
  by_cases hS : t.isSigned = true
  · rw [if_pos hS, sIntToStrRev, absCast_eq hneg hv hS hmin]
  · have hnonneg : ¬ v < 0 := fun h => hS (not_negative hv h)
    have habs : v.toNat = v.natAbs := by omega
    rw [if_neg hS, if_neg hnonneg, habs]

theorem decToStrRev_eq (hneg : Negates neg) (hv : Fits t v) (hmin : v = int64.min → Wraps neg) :
    decToStrRev neg t decPoint [] v scale =
      if v < 0 then ch '-' :: uDecToStrRev decPoint [] v.natAbs scale else uDecToStrRev decPoint [] v.natAbs scale := by
  rw [decToStrRev]
  by_cases hS : t.isSigned = true
  · rw [if_pos hS, sDecToStrRev, absCast_eq hneg hv hS hmin]
  · have hnonneg : ¬ v < 0 := fun h => hS (not_negative hv h)
    have habs : v.toNat = v.natAbs := by omega
    rw [if_neg hS, if_neg hnonneg, habs]

theorem signedText_printed (hv : Fits t v) (hds : Digits ds) (hne : ds ≠ []) (rest : Bytes) :
    signedText t (if v < 0 then ch '-' :: (ds ++ rest) else ds ++ rest) = (decide (v < 0), ds ++ rest) := by
  by_cases h : v < 0
  · rw [if_pos h, signedText_minus (not_negative hv h) hds hne, decide_eq_true h]
  · rw [if_neg h, signedText_digits t hds hne, decide_eq_false h]

theorem withSign_natAbs (v : ℤ) : withSign (decide (v < 0)) (v.natAbs : ℤ) = v := by
  by_cases h : v < 0
  · rw [decide_eq_true h]
    show -(v.natAbs : ℤ) = v
    omega
  · rw [decide_eq_false h]
    show (v.natAbs : ℤ) = v
    omega

theorem strTo_printed (hneg : Negates neg) (hv : Fits t v) (hmin : v = int64.min → Wraps neg) (value : ℤ) :
    strTo t (toStrRev neg t [] v) value = .ok (v, []) := by
  obtain ⟨ds, htext, hds, hne, hvalue⟩ := uIntToStrRev_eq [] v.natAbs
  have hstop : StopsHere [] := fun c hc => nomatch hc
  have hnumeral : intNumeral t (toStrRev neg t [] v) = (some v, []) := by
    rw [toStrRev_eq hneg hv hmin, htext, intNumeral, signedText_printed hv hds hne]
    dsimp only
    rw [takeWhile_digits hds hstop, dropWhile_digits hds hstop, if_neg hne, hvalue, withSign_natAbs]
  rw [strTo_eq, hnumeral]
  show Except.ok (clamp t v, ([] : Bytes)) = _
  rw [clamp_of_fits hv]

/-- The numeral that is printed, at the scale, is the original value. -/
theorem decNumeral_printed (hneg : Negates neg) (hv : Fits t v) (hmin : v = int64.min → Wraps neg)
    (hpoint : isdigit decPoint = false) (scale : ℕ) :
    ∃ q, decNumeral t decPoint (decToStrRev neg t decPoint [] v scale) = (some q, []) ∧ roundAway (q * 10 ^ scale) = v := by
  rw [decToStrRev_eq hneg hv hmin]
  obtain ⟨ds, hds, hne, ⟨htext, hvalue⟩ | ⟨fs, htext, hfs, hlen, hvalue⟩⟩ := uDecToStrRev_eq decPoint v.natAbs scale
  · have hstop : StopsHere [] := fun c hc => nomatch hc
    have hsigned := signedText_printed hv hds hne []
    rw [append_nil] at hsigned
    have hdrop := dropWhile_digits hds hstop
    have htake := takeWhile_digits hds hstop
    rw [append_nil] at hdrop htake
    have hplain : decNumeral t decPoint (if v < 0 then ch '-' :: ds else ds) = _ :=
      decNumeral_plain (by rw [hsigned, hdrop]; exact fun c hc => nomatch hc)
    refine ⟨_, by rw [htext, hplain, hsigned, hdrop, htake, if_neg hne], ?_⟩
    have hup := scaled_up (digitsValue ds) 0 scale
    have hvalue' : (digitsValue ds : ℤ) * 10 ^ scale = v.natAbs := by exact_mod_cast hvalue
    rw [zero_add] at hup
    rw [roundAway_digits, hup, hvalue', withSign_natAbs]
  · have hstop : StopsHere (decPoint :: fs) := fun c hc => by cases hc; exact hpoint
    have hsigned := signedText_printed hv hds hne (decPoint :: fs)
    have hend : StopsHere [] := fun c hc => nomatch hc
    have hdrop := dropWhile_digits hfs hend
    have htake := takeWhile_digits hfs hend
    rw [append_nil] at hdrop htake
    have hnumeral : decNumeral t decPoint (if v < 0 then ch '-' :: (ds ++ decPoint :: fs) else ds ++ decPoint :: fs) = _ :=
      decNumeral_point (by rw [hsigned]; exact dropWhile_digits hds hstop)
    refine ⟨_, by rw [htext, hnumeral, hsigned, takeWhile_digits hds hstop, hdrop, htake], ?_⟩
    obtain ⟨k, rfl⟩ := Nat.exists_eq_add_of_le hlen
    have hvalue' : (digitsValue (ds ++ fs) : ℤ) * 10 ^ k = v.natAbs := by
      rw [Nat.add_sub_cancel_left] at hvalue
      exact_mod_cast hvalue
    rw [roundAway_numeral, scaled_up, hvalue', withSign_natAbs]

/-- The smallest `int64_t` is the null value of its type. -/
theorem ne_min_of_ne_origNull (hv : Fits t v) (hnull : v ≠ origNull t) : v ≠ int64.min := by
  rintro rfl
  revert hv hnull
  cases t <;> decide

/-- What is printed is read back whole, the smallest `int64_t` where its negation wraps. -/
theorem strTo_toStrRev (neg : ℤ → ℤ) (hneg : Negates neg) :
    (∀ (t : IntType) (v : t.Val) (value : ℤ), (v.1 = IntType.int64.min → Wraps neg) →
      strTo t (toStrRev neg t [] v.1) value = .ok (v.1, [])) ∧
    ∀ (t : IntType) (decPoint : UInt8) (scale : ℕ) (v : t.Val) (value : ℤ), isdigit decPoint = false →
      scale ≤ decScaleMax → v.1 ≠ origNull t →
      strToDec t decPoint scale (decimalToStrRev neg t decPoint scale [] v.1) value = .ok (v.1, []) := by
  refine ⟨fun t v value hmin => strTo_printed hneg v.2 hmin value, ?_⟩
  intro t decPoint scale v value hpoint hscale hnull
  obtain ⟨q, hnumeral, hround⟩ := decNumeral_printed hneg v.2 (fun h => absurd h (ne_min_of_ne_origNull v.2 hnull)) hpoint scale
  rw [decimalToStrRev, if_neg hnull, strToDec_eq t decPoint hscale, hnumeral]
  show Except.ok (clamp t (roundAway (q * 10 ^ scale)), ([] : Bytes)) = _
  rw [hround, clamp_of_fits v.2]

/-- The smallest `int64_t`, and `-1.50` with two digits, where the negation wraps. -/
theorem strTo_toStrRev_least :
    strTo .int64 (toStrRev (fun x => IntType.int64.wrap (-x)) .int64 [] IntType.int64.min) 0 = .ok (IntType.int64.min, []) ∧
      strToDec .int32 (ch '.') 2 (decimalToStrRev (fun x => IntType.int64.wrap (-x)) .int32 (ch '.') 2 [] (-150)) 0 =
        .ok (-150, []) := by
  have hneg : Negates fun x => IntType.int64.wrap (-x) := by
    intro x hx hne
    have hbounds : -2 ^ 63 ≤ x ∧ x ≤ 2 ^ 63 - 1 := hx
    have hleast : x ≠ -2 ^ 63 := hne
    exact wrap_of_fits ⟨by show -2 ^ 63 ≤ -x; omega, by show -x ≤ 2 ^ 63 - 1; omega⟩
  have hwraps : Wraps fun x => IntType.int64.wrap (-x) := by
    show IntType.uint64.wrap (IntType.int64.wrap (-IntType.int64.min)) = 2 ^ 63
    decide
  exact ⟨(strTo_toStrRev _ hneg).1 .int64 ⟨IntType.int64.min, by decide⟩ 0 fun _ => hwraps,
    (strTo_toStrRev _ hneg).2 .int32 (ch '.') 2 ⟨-150, by decide⟩ 0 (by decide) (by decide) (by decide)⟩

/-- Zero with the 19 digits that the divisor of `uint64_t` has room for: its text is `0`, and the
way back raises. -/
theorem no_way_back_of_19 :
    Fits .uint64 (10 ^ 19) ∧ (0 : ℤ) ≠ origNull .uint64 ∧
      strToDec .uint64 (ch '.') 19 (decimalToStrRev (fun x => -x) .uint64 (ch '.') 19 [] 0) 0 ≠ .ok (0, []) := by
  have htext : decimalToStrRev (fun x => -x) .uint64 (ch '.') 19 [] 0 = [ch '0'] := by
    show uIntToStrRev [] 0 = _
    rw [uIntToStrRev, if_neg (by decide), if_pos (by decide)]
    rfl
  have hraises : strToDec .uint64 (ch '.') 19 [ch '0'] 0 = .error .range := rfl
  refine ⟨by decide, by decide, ?_⟩
  rw [htext, hraises]
  exact fun h => nomatch h

end Fon9.Num
