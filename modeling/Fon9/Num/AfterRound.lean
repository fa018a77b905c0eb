import Fon9.Num.DecBase

/-! When `OnAfterRound` is exact. Its comparisons are those of the types in which the operands
meet. Between a signed and an unsigned type they go wrong. -/

namespace Fon9.Num

open Bitv IntType Except

variable {S R : IntType} {src v m : ℤ} {ex : AdjustDecScaleEx}

/-! ### Types -/

variable {t : IntType}

theorem wrap_eq_iff {x : ℤ} : t.wrap v = x ↔ Fits t x ∧ (v - x) % 2 ^ (8 * t.size) = 0 := by
  cases t <;> simp only [Fits, wrap, IntType.min, IntType.max, isSigned, IntType.size] <;>
    norm_num <;> omega

theorem wrap_of_fits (h : Fits t v) : t.wrap v = v := wrap_of_mem h

theorem fits_wrap (t : IntType) (v : ℤ) : Fits t (t.wrap v) := t.wrap_mem v

/-- The one type has the values of the other. -/
def Within (s t : IntType) : Prop := t.min ≤ s.min ∧ s.max ≤ t.max

instance (s t : IntType) : Decidable (Within s t) := inferInstanceAs (Decidable (_ ∧ _))

theorem Fits.within {s t : IntType} (h : Fits s v) (hw : Within s t) : Fits t v :=
  ⟨hw.1.trans h.1, h.2.trans hw.2⟩

theorem fits_min (t : IntType) : Fits t t.min := by cases t <;> decide

theorem fits_max (t : IntType) : Fits t t.max := by cases t <;> decide

/-- Types of one sign, and types that meet in a signed one. -/
theorem within_common (h : S.isSigned = R.isSigned ∨ (common S R).isSigned = true) :
    Within S (common S R) ∧ Within R (common S R) := by
  revert h
  cases S <;> cases R <;> decide

/-- A signed and an unsigned type meet in the unsigned one. -/
theorem common_signed_unsigned (hS : S.isSigned = true) (hR : R.isSigned = false)
    (h : ¬ (common S R).isSigned = true) : common S R = R ∧ S.size ≤ R.size := by
  revert hS hR h
  cases S <;> cases R <;> decide

theorem common_unsigned_signed (hS : S.isSigned = false) (hR : R.isSigned = true)
    (h : ¬ (common S R).isSigned = true) : common S R = S ∧ R.size ≤ S.size := by
  revert hS hR h
  cases S <;> cases R <;> decide

theorem min_of_unsigned (h : t.isSigned = false) : t.min = 0 := by
  rw [IntType.min, h]
  rfl

theorem max_of_unsigned (h : t.isSigned = false) : t.max = 2 ^ (8 * t.size) - 1 := by
  rw [IntType.max, h]
  rfl

theorem min_of_signed (h : t.isSigned = true) : t.min = -2 ^ (8 * t.size - 1) := by
  rw [IntType.min, h]
  rfl

theorem max_of_signed (h : t.isSigned = true) : t.max = 2 ^ (8 * t.size - 1) - 1 := by
  rw [IntType.max, h]
  rfl

/-- The sign bit. -/
theorem two_mul_half (t : IntType) : (2 : ℤ) * 2 ^ (8 * t.size - 1) = 2 ^ (8 * t.size) := by cases t <;> decide

theorem pow_size_le {s t : IntType} (h : s.size ≤ t.size) : (2 : ℤ) ^ (8 * s.size) ≤ 2 ^ (8 * t.size) :=
  pow_le_pow_right₀ (by decide) (Nat.mul_le_mul_left 8 h)

theorem half_pos (t : IntType) : (0 : ℤ) < 2 ^ (8 * t.size - 1) := pow_pos (by decide) _

/-! ### Comparisons -/

/-- A value meets the bounds of `R` in a type that has both, or where the conversion does
not change what comes out. -/
def Compares (ex : AdjustDecScaleEx) (S R : IntType) (v : ℤ) : Prop :=
  match S.isSigned, R.isSigned with
  | true, false => (common S R).isSigned = true ∨ 0 ≤ v
  | false, true =>
    (common S R).isSigned = true ∨
      match ex with
      | .limit => 2 ^ (8 * S.size) - 2 ^ (8 * R.size - 1) ≤ v
      | .throw => R.max < v
  | _, _ => True

theorem meets_underflow (h : v < R.min) : ex.Meets R v (ex.onUnderflow R) := by
  cases ex with
  | limit => exact congrArg ok (if_pos h).symm
  | throw =>
    show if Fits R v then _ else _
    rw [if_neg fun hfits => Int.not_lt.mpr hfits.1 h]
    exact ⟨_, rfl, by decide⟩

theorem meets_overflow (h : R.max < v) : ex.Meets R v (ex.onOverflow R) := by
  have hmin : ¬ v < R.min := Int.not_lt.mpr (((fits_max R).1.trans h.le))
  cases ex with
  | limit => exact congrArg ok (by rw [clamp, if_neg hmin, if_pos h])
  | throw =>
    show if Fits R v then _ else _
    rw [if_neg fun hfits => Int.not_lt.mpr hfits.2 h]
    exact ⟨_, rfl, by decide⟩

theorem clamp_of_fits (h : Fits R v) : clamp R v = v := by
  rw [clamp, if_neg (Int.not_lt.mpr h.1), if_neg (Int.not_lt.mpr h.2)]

/-- A result that is returned is right only if it is the value. -/
theorem meets_ok_iff {r : ℤ} : ex.Meets R v (.ok r) ↔
    match ex with
    | .limit => r = clamp R v
    | .throw => Fits R v ∧ r = v := by
  cases ex with
  | limit => exact ⟨fun h => ok.inj h, fun h => congrArg ok h⟩
  | throw =>
    show (if Fits R v then _ else _) ↔ _
    by_cases hfits : Fits R v
    · rw [if_pos hfits]
      exact ⟨fun h => ⟨hfits, ok.inj h⟩, fun h => congrArg ok h.2⟩
    · rw [if_neg hfits]
      exact ⟨(fun ⟨_, h, _⟩ => nomatch h), fun h => absurd h.1 hfits⟩

theorem meets_ok (h : Fits R v) : ex.Meets R v (.ok v) := by
  rw [meets_ok_iff]
  cases ex with
  | limit => exact (clamp_of_fits h).symm
  | throw => exact ⟨h, rfl⟩

theorem onAfterRound_meets_iff (hv : Fits S v) : ex.Meets R v (ex.onAfterRound R S v) ↔ Compares ex S R v := by
  rw [AdjustDecScaleEx.onAfterRound]
  by_cases hwithin : S.isSigned = R.isSigned ∨ (common S R).isSigned = true
  · obtain ⟨hS, hR⟩ := within_common hwithin
    have hcompares : Compares ex S R v := by
      unfold Compares
      cases hs : S.isSigned <;> cases hr : R.isSigned <;> simp_all
    rw [wrap_of_fits (hv.within hS), wrap_of_fits ((fits_min R).within hR), wrap_of_fits ((fits_max R).within hR)]
    refine ⟨fun _ => hcompares, fun _ => ?_⟩
    by_cases hlt : v < R.min
    · rw [if_pos hlt]
      exact meets_underflow hlt
    · rw [if_neg hlt]
      by_cases hgt : R.max < v
      · rw [if_pos hgt]
        exact meets_overflow hgt
      · have hfits : Fits R v := ⟨Int.not_lt.mp hlt, Int.not_lt.mp hgt⟩
        rw [if_neg hgt, wrap_of_fits hfits]
        exact meets_ok hfits
  · rw [not_or] at hwithin
    obtain ⟨hsign, hcommon⟩ := hwithin
    cases hS : S.isSigned with
    | true =>
      have hR : R.isSigned = false := by
        rw [hS] at hsign
        exact Bool.eq_false_iff.mpr fun h => hsign h.symm
      obtain ⟨hc, hsize⟩ := common_signed_unsigned hS hR hcommon
      have hcompares : Compares ex S R v ↔ 0 ≤ v := by
        unfold Compares
        rw [hS, hR]
        exact or_iff_right hcommon
      rw [hcompares, hc, wrap_of_fits (fits_min R), wrap_of_fits (fits_max R),
        if_neg (Int.not_lt.mpr (fits_wrap R v).1), if_neg (Int.not_lt.mpr (fits_wrap R v).2)]
      have hpow := pow_size_le hsize
      have hhalf := two_mul_half S
      have hpos := half_pos S
      have hbounds := hv
      rw [Fits, min_of_signed hS, max_of_signed hS] at hbounds
      by_cases hneg : 0 ≤ v
      · have hfits : Fits R v := ⟨by rw [min_of_unsigned hR]; exact hneg, by rw [max_of_unsigned hR]; omega⟩
        rw [wrap_of_fits hfits]
        exact ⟨fun _ => hneg, fun _ => meets_ok hfits⟩
      · have hwrap : R.wrap v = v + 2 ^ (8 * R.size) := by
          rw [wrap_eq_iff, Fits, min_of_unsigned hR, max_of_unsigned hR]
          refine ⟨by omega, ?_⟩
          rw [sub_add_cancel_left]
          exact Int.emod_eq_zero_of_dvd (dvd_neg.mpr (dvd_refl _))
        rw [hwrap, meets_ok_iff]
        refine ⟨fun h => ?_, fun h => absurd h hneg⟩
        cases ex with
        | limit =>
          have hclamp : clamp R v = 0 := by
            rw [clamp, min_of_unsigned hR, if_pos (Int.not_le.mp hneg)]
          rw [hclamp] at h
          omega
        | throw =>
          have hfits := h.1.1
          rw [min_of_unsigned hR] at hfits
          exact absurd hfits hneg
    | false =>
      have hR : R.isSigned = true := by
        rw [hS] at hsign
        exact Bool.eq_true_of_not_eq_false fun h => hsign h.symm
      obtain ⟨hc, hsize⟩ := common_unsigned_signed hS hR hcommon
      have hpow := pow_size_le hsize
      have hhalf := two_mul_half R
      have hpos := half_pos R
      have hmin : S.wrap R.min = 2 ^ (8 * S.size) - 2 ^ (8 * R.size - 1) := by
        rw [wrap_eq_iff, Fits, min_of_unsigned hS, max_of_unsigned hS, min_of_signed hR]
        refine ⟨by omega, ?_⟩
        have hsub : -2 ^ (8 * R.size - 1) - (2 ^ (8 * S.size) - 2 ^ (8 * R.size - 1)) = -(2 : ℤ) ^ (8 * S.size) := by ring
        rw [hsub]
        exact Int.emod_eq_zero_of_dvd (dvd_neg.mpr (dvd_refl _))
      have hmax : S.wrap R.max = R.max := by
        refine wrap_of_fits ⟨?_, ?_⟩
        · rw [min_of_unsigned hS, max_of_signed hR]
          omega
        · rw [max_of_unsigned hS, max_of_signed hR]
          omega
      have hnonneg : 0 ≤ v := by
        have h := hv.1
        rwa [min_of_unsigned hS] at h
      have hcompares : Compares ex S R v ↔
          match ex with
          | .limit => 2 ^ (8 * S.size) - 2 ^ (8 * R.size - 1) ≤ v
          | .throw => R.max < v := by
        unfold Compares
        rw [hS, hR]
        exact or_iff_right hcommon
      rw [hcompares, hc, wrap_of_fits hv, hmin, hmax]
      have hrmax := max_of_signed hR
      have hrmin := min_of_signed hR
      by_cases hlt : v < 2 ^ (8 * S.size) - 2 ^ (8 * R.size - 1)
      · rw [if_pos hlt]
        cases ex with
        | limit =>
          refine ⟨fun h => ?_, fun h => absurd hlt (Int.not_lt.mpr h)⟩
          have hclamp : R.min = clamp R v := ok.inj h
          rw [clamp, if_neg (by omega)] at hclamp
          split at hclamp <;> omega
        | throw =>
          constructor
          · intro h
            by_contra hle
            have hfits : Fits R v := ⟨by omega, Int.not_lt.mp hle⟩
            have hok : (error .underflow : Except AdjustError ℤ) = .ok v := by
              have h' : if Fits R v then _ else _ := h
              rwa [if_pos hfits] at h'
            exact nomatch hok
          · intro h
            show if Fits R v then _ else _
            rw [if_neg fun hfits => Int.not_lt.mpr hfits.2 h]
            exact ⟨_, rfl, by decide⟩
      · have hgt : R.max < v := by omega
        rw [if_neg hlt, if_pos hgt]
        refine ⟨fun _ => ?_, fun _ => meets_overflow hgt⟩
        cases ex with
        | limit => exact Int.not_lt.mp hlt
        | throw => exact hgt

end Fon9.Num
