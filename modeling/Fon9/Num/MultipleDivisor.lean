import Fon9.Num.AfterRound

/-! When `OnMultipleDivisor` is exact. The product is checked by a division that the types may
have taken to another number. -/

namespace Fon9.Num

open Bitv IntType AdjustDecScaleEx Int

variable {S R : IntType} {src v m : ℤ} {ex : AdjustDecScaleEx}

/-- The product is not one of the result type, and dividing what is left of it gives the
source back. -/
def Slips (S R : IntType) (src m : ℤ) : Prop :=
  ¬ Fits R (src * m) ∧
    match S.isSigned, R.isSigned with
    | true, false => src < 0 ∧ (src * m % 2 ^ (8 * R.size) / m - src) % 2 ^ (8 * S.size) = 0
    | false, true =>
      2 ^ (8 * R.size - 1) ≤ src * m % 2 ^ (8 * R.size) ∧
        ((2 ^ 64 - 2 ^ (8 * R.size) + src * m % 2 ^ (8 * R.size)) / m - src) % 2 ^ (8 * S.size) = 0
    | _, _ => False

variable {t : IntType}

theorem wrap_unsigned (h : t.isSigned = false) (v : ℤ) : t.wrap v = v % 2 ^ (8 * t.size) := by
  rw [wrap, h]
  rfl

theorem wrap_signed (h : t.isSigned = true) (v : ℤ) :
    t.wrap v = if 2 ^ (8 * t.size - 1) ≤ v % 2 ^ (8 * t.size) then v % 2 ^ (8 * t.size) - 2 ^ (8 * t.size)
      else v % 2 ^ (8 * t.size) := by
  rw [wrap, h]
  simp only [true_and]

theorem wrap_congr {v' : ℤ} (h : v % 2 ^ (8 * t.size) = v' % 2 ^ (8 * t.size)) : t.wrap v = t.wrap v' := by
  rw [wrap, wrap, h]

/-- The product modulo `2 ^ 64` has the same bits for the result. -/
theorem wrap_product (R : IntType) (a b : ℤ) :
    R.wrap (uint64.wrap (uint64.wrap a * uint64.wrap b)) = R.wrap (a * b) := by
  have hdvd : (2 : ℤ) ^ (8 * R.size) ∣ 2 ^ (8 * uint64.size) :=
    pow_dvd_pow 2 (by cases R <;> decide)
  refine wrap_congr ?_
  rw [wrap_unsigned rfl, wrap_unsigned rfl, wrap_unsigned rfl, ← mul_emod, emod_emod_of_dvd _ hdvd]

/-- The quotient is taken in `uint64_t` where the source or the result is an unsigned one of
that width. -/
theorem wrap_result {res : ℤ} (h : Fits R res) :
    (common R (imax S)).wrap res = if S.isSigned = false ∧ res < 0 then res + 2 ^ 64 else res := by
  revert h
  unfold imax
  cases S.isSigned <;> cases R <;>
    simp only [Fits, wrap, IntType.min, IntType.max, isSigned, IntType.size, common, promote, balance] <;>
    norm_num <;> intros <;> omega

theorem wrap_divisor (hm : 0 ≤ m) (hm' : Fits (imax S) m) : (common R (imax S)).wrap ((imax S).wrap m) = m := by
  have hcommon : Within (imax S) (common R (imax S)) ∨ common R (imax S) = .uint64 ∧ (imax S).max ≤ uint64.max := by
    cases S <;> cases R <;> decide
  rw [wrap_of_fits hm']
  rcases hcommon with hwithin | ⟨huint, hmax⟩
  · exact wrap_of_fits (hm'.within hwithin)
  · rw [huint]
    exact wrap_of_fits ⟨hm, hm'.2.trans hmax⟩

/-! ### The check -/

/-- Numbers of less than a whole turn apart do not have the same bits. -/
theorem emod_sub_ne {n q x : ℤ} (hne : q ≠ x) (hlow : x - n < q) (hhigh : q < x + n) : (q - x) % n ≠ 0 := by
  intro h
  have hzero := eq_zero_of_abs_lt_dvd (dvd_of_emod_eq_zero h) (abs_lt.mpr ⟨by omega, by omega⟩)
  omega

/-- What is left of a product that did not fit is less than the product. -/
theorem tdiv_lt {t x m : ℤ} (hm : 0 < m) (hx : 0 < x) (hlt : t < x * m) : tdiv t m < x := by
  by_cases ht : 0 ≤ t
  · rw [tdiv_eq_ediv_of_nonneg ht]
    exact Int.ediv_lt_of_lt_mul hm hlt
  · have hdiv : tdiv t m = -tdiv (-t) m := by rw [Int.neg_tdiv, neg_neg]
    have hnonneg : 0 ≤ tdiv (-t) m := Int.tdiv_nonneg (by omega) hm.le
    omega

theorem neg_tdiv_lt {t x m : ℤ} (hm : 0 < m) (hx : 0 < x) (hlt : -(x * m) < t) : -x < tdiv t m := by
  have h := tdiv_lt (t := -t) hm hx (by omega)
  rw [Int.neg_tdiv] at h
  omega

theorem unsigned_bounds (ht : t.isSigned = false) (h : Fits t v) : 0 ≤ v ∧ v < 2 ^ (8 * t.size) := by
  rw [Fits, min_of_unsigned ht, max_of_unsigned ht] at h
  omega

theorem signed_bounds (ht : t.isSigned = true) (h : Fits t v) :
    -2 ^ (8 * t.size - 1) ≤ v ∧ v < 2 ^ (8 * t.size - 1) := by
  rw [Fits, min_of_signed ht, max_of_signed ht] at h
  omega

theorem not_fits_unsigned (ht : t.isSigned = false) (h : ¬ Fits t v) (hv : 0 ≤ v) :
    2 ^ (8 * t.size) ≤ v := by
  rw [Fits, min_of_unsigned ht, max_of_unsigned ht] at h
  omega

theorem not_fits_signed (ht : t.isSigned = true) (h : ¬ Fits t v) :
    v < -2 ^ (8 * t.size - 1) ∨ 2 ^ (8 * t.size - 1) ≤ v := by
  rw [Fits, min_of_signed ht, max_of_signed ht] at h
  omega

/-- The quotient that is compared with the source. -/
def quotient (S R : IntType) (src m : ℤ) : ℤ :=
  Int.tdiv ((common R (imax S)).wrap (R.wrap (src * m))) ((common R (imax S)).wrap ((imax S).wrap m))

theorem quotient_of_fits (hsrc : Fits S src) (hm : 0 < m) (hm' : Fits (imax S) m) (h : Fits R (src * m)) :
    quotient S R src m = src := by
  have hnonneg : ¬ (S.isSigned = false ∧ src * m < 0) := by
    rintro ⟨hS, hneg⟩
    have := mul_nonneg (unsigned_bounds hS hsrc).1 hm.le
    omega
  rw [quotient, wrap_divisor hm.le hm', wrap_of_fits h, wrap_result h, if_neg hnonneg]
  exact mul_tdiv_cancel src hm.ne'

theorem quotient_unsigned (hS : S.isSigned = false) (hR : R.isSigned = false) (hsrc : Fits S src) (hm : 0 < m)
    (hm' : Fits (imax S) m) (h : ¬ Fits R (src * m)) : S.wrap (quotient S R src m) ≠ src := by
  obtain ⟨hlow, hhigh⟩ := unsigned_bounds hS hsrc
  have hbig := not_fits_unsigned hR h (mul_nonneg hlow hm.le)
  obtain ⟨hres, hless⟩ := unsigned_bounds hR (fits_wrap R (src * m))
  rw [quotient, wrap_divisor hm.le hm', wrap_result (fits_wrap R _), if_neg (by omega), ne_eq, wrap_eq_iff, not_and]
  have hpos : 0 < src := pos_of_mul_pos_left (by omega) hm.le
  have hlt := tdiv_lt hm hpos (hless.trans_le hbig)
  have hnonneg := Int.tdiv_nonneg hres hm.le
  exact fun _ => emod_sub_ne (by omega) (by omega) (by omega)

theorem quotient_signed (hS : S.isSigned = true) (hR : R.isSigned = true) (hsrc : Fits S src) (hm : 0 < m)
    (hm' : Fits (imax S) m) (h : ¬ Fits R (src * m)) : S.wrap (quotient S R src m) ≠ src := by
  obtain ⟨hlow, hhigh⟩ := signed_bounds hS hsrc
  obtain ⟨hres, hless⟩ := signed_bounds hR (fits_wrap R (src * m))
  have hhalf := two_mul_half S
  have hsigned : ¬ (S.isSigned = false ∧ R.wrap (src * m) < 0) := fun h => by
    rw [hS] at h
    exact nomatch h.1
  rw [quotient, wrap_divisor hm.le hm', wrap_result (fits_wrap R _), if_neg hsigned, ne_eq, wrap_eq_iff, not_and]
  intro _
  rcases not_fits_signed hR h with hneg | hbig
  · have hpos : 0 < -src := by
      have hless : 0 < -src * m := by rw [neg_mul]; omega
      exact pos_of_mul_pos_left hless hm.le
    have hlt := tdiv_lt (t := R.wrap (src * m)) hm hpos (by rw [neg_mul]; omega)
    have hgt := neg_tdiv_lt (t := R.wrap (src * m)) hm hpos (by rw [neg_mul]; omega)
    exact emod_sub_ne (by omega) (by omega) (by omega)
  · have hpos : 0 < src := pos_of_mul_pos_left (by omega) hm.le
    have hlt := tdiv_lt (t := R.wrap (src * m)) hm hpos (by omega)
    have hgt := neg_tdiv_lt (t := R.wrap (src * m)) (x := src + 1) hm (by omega) (by rw [add_mul]; omega)
    exact emod_sub_ne (by omega) (by omega) (by omega)

/-- A signed source and an unsigned result: what is left of a negative product is a large number. -/
theorem quotient_to_unsigned (hS : S.isSigned = true) (hR : R.isSigned = false) (hsrc : Fits S src) (hm : 0 < m)
    (hm' : Fits (imax S) m) (h : ¬ Fits R (src * m)) :
    S.wrap (quotient S R src m) = src ↔ src < 0 ∧ (src * m % 2 ^ (8 * R.size) / m - src) % 2 ^ (8 * S.size) = 0 := by
  obtain ⟨hlow, hhigh⟩ := signed_bounds hS hsrc
  obtain ⟨hres, hless⟩ := unsigned_bounds hR (fits_wrap R (src * m))
  rw [quotient, wrap_divisor hm.le hm', wrap_result (fits_wrap R _), if_neg (by omega), wrap_eq_iff, ← wrap_unsigned hR,
    tdiv_eq_ediv_of_nonneg hres, and_iff_right hsrc]
  refine ⟨fun hbits => ⟨?_, hbits⟩, And.right⟩
  by_contra hneg
  have hbig := not_fits_unsigned hR h (mul_nonneg (by omega) hm.le)
  have hpos : 0 < src := pos_of_mul_pos_left (by omega) hm.le
  have hlt := tdiv_lt hm hpos (hless.trans_le hbig)
  have hnonneg := Int.tdiv_nonneg hres hm.le
  have hhalf := two_mul_half S
  rw [tdiv_eq_ediv_of_nonneg hres] at hlt hnonneg
  exact emod_sub_ne (by omega) (by omega) (by omega) hbits

/-- An unsigned source and a signed result: a negative number is a large one of `uint64_t`. -/
theorem quotient_to_signed (hS : S.isSigned = false) (hR : R.isSigned = true) (hsrc : Fits S src) (hm : 0 < m)
    (hm' : Fits (imax S) m) (h : ¬ Fits R (src * m)) :
    S.wrap (quotient S R src m) = src ↔ 2 ^ (8 * R.size - 1) ≤ src * m % 2 ^ (8 * R.size) ∧
      ((2 ^ 64 - 2 ^ (8 * R.size) + src * m % 2 ^ (8 * R.size)) / m - src) % 2 ^ (8 * S.size) = 0 := by
  obtain ⟨hlow, hhigh⟩ := unsigned_bounds hS hsrc
  have hbig : 2 ^ (8 * R.size - 1) ≤ src * m := by
    have hnonneg : 0 ≤ src * m := mul_nonneg hlow hm.le
    have hhalf := half_pos R
    rcases not_fits_signed hR h with hneg | hbig
    · omega
    · exact hbig
  have hpos : 0 < src := by
    have hhalf := half_pos R
    exact pos_of_mul_pos_left (by omega) hm.le
  have hmod : 0 ≤ src * m % 2 ^ (8 * R.size) := emod_nonneg _ (pow_ne_zero _ (by decide))
  have hmodlt : src * m % 2 ^ (8 * R.size) < 2 ^ (8 * R.size) := emod_lt_of_pos _ (pow_pos (by decide) _)
  rw [quotient, wrap_divisor hm.le hm', wrap_result (fits_wrap R _), hS, wrap_eq_iff, and_iff_right hsrc, wrap_signed hR]
  by_cases hhalf : 2 ^ (8 * R.size - 1) ≤ src * m % 2 ^ (8 * R.size)
  · have hle := pow_size_le (s := R) (t := .uint64) (by cases R <;> decide)
    have hle' : (2 : ℤ) ^ (8 * R.size) ≤ 2 ^ 64 := hle
    have hsum : src * m % 2 ^ (8 * R.size) - 2 ^ (8 * R.size) + 2 ^ 64 =
        2 ^ 64 - 2 ^ (8 * R.size) + src * m % 2 ^ (8 * R.size) := by ring
    rw [if_pos hhalf, if_pos ⟨rfl, by omega⟩, hsum, tdiv_eq_ediv_of_nonneg (by omega), and_iff_right hhalf]
  · rw [if_neg hhalf, if_neg (by omega)]
    refine ⟨fun hbits => ?_, fun hbits => absurd hbits.1 hhalf⟩
    have hlt := tdiv_lt hm hpos (t := src * m % 2 ^ (8 * R.size)) (by omega)
    have hnonneg := Int.tdiv_nonneg hmod hm.le
    exact absurd hbits (emod_sub_ne (by omega) (by omega) (by omega))

/-- The check passes a product that fits, and one that slips. -/
theorem quotient_eq_iff (hsrc : Fits S src) (hm : 0 < m) (hm' : Fits (imax S) m) :
    src = S.wrap (quotient S R src m) ↔ Fits R (src * m) ∨ Slips S R src m := by
  rw [eq_comm]
  by_cases hfits : Fits R (src * m)
  · rw [quotient_of_fits hsrc hm hm' hfits]
    exact ⟨fun _ => .inl hfits, fun _ => wrap_of_fits hsrc⟩
  · rw [or_iff_right hfits, Slips, and_iff_right hfits]
    cases hS : S.isSigned <;> cases hR : R.isSigned
    · exact iff_false_intro (quotient_unsigned hS hR hsrc hm hm' hfits)
    · exact quotient_to_signed hS hR hsrc hm hm' hfits
    · exact quotient_to_unsigned hS hR hsrc hm hm' hfits
    · exact iff_false_intro (quotient_signed hS hR hsrc hm hm' hfits)

/-! ### What comes out -/

/-- A product that slips through is returned as another number. -/
theorem wrap_ne_clamp (hsrc : Fits S src) (hm : 0 < m) (h : Slips S R src m) : R.wrap (src * m) ≠ clamp R (src * m) := by
  obtain ⟨hfits, hslips⟩ := h
  intro heq
  cases hS : S.isSigned <;> cases hR : R.isSigned <;> rw [hS, hR] at hslips
  · exact hslips
  · -- a negative number for a large product
    obtain ⟨hhalf, -⟩ := hslips
    have hpos := half_pos R
    have hmodlt : src * m % 2 ^ (8 * R.size) < 2 ^ (8 * R.size) := emod_lt_of_pos _ (pow_pos (by decide) _)
    have hnonneg := mul_nonneg (unsigned_bounds hS hsrc).1 hm.le
    rw [wrap_signed hR, if_pos hhalf, clamp, if_neg (by rw [min_of_signed hR]; omega)] at heq
    have hmax := max_of_signed hR
    split at heq <;> omega
  · -- a large number for a negative product, which is not a multiple of the turn
    obtain ⟨hneg, hbits⟩ := hslips
    have hproduct : src * m < 0 := mul_neg_of_neg_of_pos hneg hm
    rw [wrap_unsigned hR, clamp, min_of_unsigned hR, if_pos hproduct] at heq
    rw [heq, zero_ediv] at hbits
    obtain ⟨hlow, -⟩ := signed_bounds hS hsrc
    have hhalf := two_mul_half S
    have hpos := half_pos S
    exact emod_sub_ne (by omega) (by omega) (by omega) hbits
  · exact hslips

/-- A product that is taken whole and checked by the division. -/
theorem checked_meets_iff (hsrc : Fits S src) (hm : 0 < m) (hm' : Fits (imax S) m) :
    ex.Meets R (src * m)
      (if src ≠ S.wrap (quotient S R src m) then if src < 0 then ex.onUnderflow R else ex.onOverflow R
        else .ok (R.wrap (src * m))) ↔ ¬ Slips S R src m := by
  have hpass := quotient_eq_iff (R := R) hsrc hm hm'
  by_cases heq : src = S.wrap (quotient S R src m)
  · rw [if_neg (not_not.mpr heq)]
    rcases hpass.mp heq with hfits | hslips
    · rw [wrap_of_fits hfits]
      exact ⟨fun _ hslips => hslips.1 hfits, fun _ => meets_ok hfits⟩
    · rw [meets_ok_iff]
      refine ⟨fun h => ?_, fun h => absurd hslips h⟩
      cases ex with
      | limit => exact absurd h (wrap_ne_clamp hsrc hm hslips)
      | throw => exact absurd h.1 hslips.1
  · rw [if_pos heq]
    obtain ⟨hfits, hslips⟩ := not_or.mp fun h => heq (hpass.mpr h)
    refine ⟨fun _ => hslips, fun _ => ?_⟩
    have hle : R.min ≤ 0 ∧ 0 ≤ R.max := by cases R <;> decide
    by_cases hneg : src < 0
    · have hproduct : src * m < 0 := mul_neg_of_neg_of_pos hneg hm
      rw [if_pos hneg]
      exact meets_underflow (Int.not_le.mp fun h => hfits ⟨h, by omega⟩)
    · have hproduct : 0 ≤ src * m := mul_nonneg (Int.not_lt.mp hneg) hm.le
      rw [if_neg hneg]
      exact meets_overflow (Int.not_le.mp fun h => hfits ⟨by omega, h⟩)

theorem fits_imax (h : Fits S v) : Fits (imax S) v := h.within (by cases S <;> decide)

theorem onMultipleDivisor_of_arith {M : IntType} {product : ℤ}
    (h : arith (common (imax S) M) ((common (imax S) M).wrap src * (common (imax S) M).wrap m) = .ok product)
    (hbits : R.wrap product = R.wrap (src * m)) :
    ex.onMultipleDivisor R S M src m =
      if src ≠ S.wrap (quotient S R src m) then if src < 0 then ex.onUnderflow R else ex.onOverflow R
      else .ok (R.wrap (src * m)) := by
  rw [onMultipleDivisor, h, quotient, ← hbits]
  rfl

/-- The multiplier of `GetDecDivisor` is a `uintmax_t`. -/
theorem onMultipleDivisor_meets_iff (hsrc : Fits S src) (hm : 0 < m) (hm' : Fits (imax S) m) :
    ex.Meets R (src * m) (ex.onMultipleDivisor R S .uint64 src m) ↔ ¬ Slips S R src m := by
  have hcommon : common (imax S) .uint64 = .uint64 := by cases S <;> rfl
  rw [onMultipleDivisor_of_arith (by rw [hcommon]; rfl) (wrap_product R src m)]
  exact checked_meets_iff hsrc hm hm'

theorem not_meets_undefined : ¬ ex.Meets R v (.error .undefined) := by
  intro h
  cases ex with
  | limit => exact nomatch h
  | throw =>
    have h' : if Fits R v then _ else _ := h
    split at h'
    · exact nomatch h'
    · obtain ⟨e, heq, hne⟩ := h'
      exact hne (Except.error.inj heq).symm

/-- The multiplier of `DecDivisor` is of the type of the source. A signed product can leave
`intmax_t`. -/
theorem onMultipleDivisor_own_meets_iff (hsrc : Fits S src) (hm : 0 < m) (hm' : Fits S m) :
    ex.Meets R (src * m) (ex.onMultipleDivisor R S S src m) ↔
      (S.isSigned = true → Fits .int64 (src * m)) ∧ ¬ Slips S R src m := by
  have hcommon : common (imax S) S = imax S := by cases S <;> rfl
  have hoperands : (imax S).wrap src * (imax S).wrap m = src * m := by
    rw [wrap_of_fits (fits_imax hsrc), wrap_of_fits (fits_imax hm')]
  have hchecked : ex.Meets R (src * m) _ ↔ ¬ Slips S R src m := checked_meets_iff hsrc hm (fits_imax hm')
  rw [← hchecked]
  cases hS : S.isSigned with
  | true =>
    have himax : imax S = .int64 := by rw [imax, hS]; rfl
    have hall : (true = true → Fits .int64 (src * m)) ↔ Fits .int64 (src * m) := ⟨fun h => h rfl, fun h _ => h⟩
    rw [hall]
    by_cases hproduct : Fits .int64 (src * m)
    · have harith : arith .int64 (src * m) = .ok (src * m) := (if_pos rfl).trans (if_pos hproduct)
      rw [onMultipleDivisor_of_arith (by rw [hcommon, hoperands, himax]; exact harith) rfl, and_iff_right hproduct]
    · have harith : arith .int64 (src * m) = .error .undefined := (if_pos rfl).trans (if_neg hproduct)
      have hundefined : ex.onMultipleDivisor R S S src m = .error .undefined := by
        rw [onMultipleDivisor, hcommon, hoperands, himax, harith]
        rfl
      rw [hundefined]
      exact ⟨fun h => absurd h not_meets_undefined, fun h => absurd h.1 hproduct⟩
  | false =>
    have himax : imax S = .uint64 := by rw [imax, hS]; rfl
    have hbits : R.wrap (uint64.wrap (src * m)) = R.wrap (src * m) := by
      refine wrap_congr ?_
      rw [wrap_unsigned rfl, emod_emod_of_dvd _ (pow_dvd_pow 2 (by cases R <;> decide))]
    rw [onMultipleDivisor_of_arith (by rw [hcommon, hoperands, himax]; rfl) hbits]
    exact (and_iff_right fun h => nomatch h).symm

end Fon9.Num
