import Fon9.Num.AdjustDecScale
import Fon9.Num.StrToInt

/-! The number that a decimal numeral denotes at a scale: which digits of the text decide it,
and that a number too large for the helper is clamped whatever its further digits are. -/

namespace Fon9.Num

open Bitv

variable {t : IntType} {negative : Bool} {v : ℤ} {N T V m f scale : ℕ}

/-! ### Rounding -/

theorem roundAway_neg (q : ℚ) : roundAway (-q) = -roundAway q := by
  rw [roundAway, roundAway]
  rcases lt_trichotomy q 0 with hneg | rfl | hpos
  · rw [if_pos (by linarith), if_neg (not_le.mpr hneg), neg_neg]
  · norm_num
  · rw [if_neg (by linarith), if_pos hpos.le, neg_neg]

theorem scaled_withSign (negative : Bool) (v : ℤ) (f scale : ℕ) :
    scaled (withSign negative v) f scale = withSign negative (scaled v f scale) := by
  cases negative with
  | false => rfl
  | true =>
    show scaled (-v) f scale = -scaled v f scale
    rw [scaled, scaled, Int.cast_neg, neg_mul, neg_div, roundAway_neg]

/-- A numeral at a scale: its digits without the point. -/
theorem roundAway_numeral (negative : Bool) (digits fraction : Bytes) (scale : ℕ) :
    roundAway (withSign negative ((digitsValue digits : ℚ) + digitsValue fraction / 10 ^ fraction.length) * 10 ^ scale) =
      withSign negative (scaled (digitsValue (digits ++ fraction)) fraction.length scale) := by
  have hpow : (10 : ℚ) ^ fraction.length ≠ 0 := pow_ne_zero _ (by norm_num)
  have hvalue : ((digitsValue digits : ℚ) + digitsValue fraction / 10 ^ fraction.length) * 10 ^ scale =
      ((digitsValue (digits ++ fraction) : ℕ) : ℤ) * 10 ^ scale / 10 ^ fraction.length := by
    rw [digitsValue_append]
    push_cast
    field_simp
  rw [← scaled_withSign, scaled]
  cases negative with
  | false => exact congrArg roundAway hvalue
  | true =>
    show roundAway (-_ * 10 ^ scale) = roundAway (((-((digitsValue (digits ++ fraction) : ℕ) : ℤ) : ℤ) : ℚ) * _ / _)
    rw [neg_mul, hvalue, Int.cast_neg, neg_mul, neg_div]

/-- Without a fraction. -/
theorem roundAway_digits (negative : Bool) (digits : Bytes) (scale : ℕ) :
    roundAway (withSign negative (digitsValue digits : ℚ) * 10 ^ scale) =
      withSign negative (scaled (digitsValue digits) 0 scale) := by
  have hvalue := roundAway_numeral negative digits [] scale
  have hnil : (digitsValue [] : ℚ) / 10 ^ ([] : Bytes).length = 0 := by norm_num [digitsValue]
  rwa [List.append_nil, hnil, add_zero] at hvalue

theorem le_roundAway {z : ℤ} {q : ℚ} (hz : 0 ≤ z) (h : (z : ℚ) ≤ q) : z ≤ roundAway q := by
  have hq : (0 : ℚ) ≤ q := le_trans (by exact_mod_cast hz) h
  rw [roundAway, if_pos hq, Int.le_floor]
  linarith

/-- Digits in front decide a lower bound. -/
theorem le_scaled {j : ℕ} (hT : V * 10 ^ (f - j) ≤ T) (hf : j ≤ f) (hscale : j ≤ scale) :
    ((V * 10 ^ (scale - j) : ℕ) : ℤ) ≤ scaled T f scale := by
  refine le_roundAway (by positivity) ?_
  have hpow : (0 : ℚ) < 10 ^ f := by positivity
  obtain ⟨k, rfl⟩ := Nat.exists_eq_add_of_le hf
  obtain ⟨l, rfl⟩ := Nat.exists_eq_add_of_le hscale
  rw [Nat.add_sub_cancel_left] at hT
  rw [Nat.add_sub_cancel_left, le_div_iff₀ hpow]
  have hT' : (V : ℚ) * 10 ^ k ≤ T := by exact_mod_cast hT
  have hl : (0 : ℚ) ≤ 10 ^ (j + l) := by positivity
  calc (((V * 10 ^ l : ℕ) : ℤ) : ℚ) * 10 ^ (j + k) = V * 10 ^ k * 10 ^ (j + l) := by push_cast; ring
    _ ≤ T * 10 ^ (j + l) := mul_le_mul_of_nonneg_right hT' hl

/-- The first digit that is dropped rounds. -/
theorem scaled_round {k d R : ℕ} (hd : d ≤ 9) (hR : R < 10 ^ k) :
    scaled ((N * 10 ^ (k + 1) + (d * 10 ^ k + R) : ℕ) : ℤ) (scale + (k + 1)) scale = ((N + if 5 ≤ d then 1 else 0 : ℕ) : ℤ) := by
  have heven : 10 ^ (k + 1) = 2 * (5 * 10 ^ k) := by rw [pow_succ]; ring
  have hpos : 0 < 5 * 10 ^ k := by positivity
  rw [scaled_down, roundAway, if_pos (by positivity), floor_half _ heven hpos]
  have hdiv : (N * 10 ^ (k + 1) + (d * 10 ^ k + R) + 5 * 10 ^ k) / 10 ^ (k + 1) = N + if 5 ≤ d then 1 else 0 := by
    have hsplit : N * 10 ^ (k + 1) + (d * 10 ^ k + R) + 5 * 10 ^ k = (d + 5) * 10 ^ k + R + 10 ^ (k + 1) * N := by ring
    rw [hsplit, Nat.add_mul_div_left _ _ (by positivity), add_comm]
    congr 1
    have hten : 10 ^ (k + 1) = 10 ^ k * 10 := pow_succ 10 k
    have hpow : 0 < 10 ^ k := by positivity
    rw [hten, ← Nat.div_div_eq_div_mul, mul_comm, add_comm, Nat.add_mul_div_left _ _ hpow, Nat.div_eq_of_lt hR,
      zero_add]
    split_ifs <;> omega
  exact_mod_cast congrArg (Nat.cast : ℕ → ℤ) hdiv

/-! ### Clamping -/

theorem zero_between (t : IntType) : t.min ≤ 0 ∧ 0 ≤ t.max := by cases t <;> decide

theorem clamp_of_le (h : v ≤ t.min) : clamp t v = t.min := by
  obtain ⟨hmin, hmax⟩ := zero_between t
  rw [clamp]
  split_ifs <;> omega

theorem clamp_of_ge (h : t.max ≤ v) : clamp t v = t.max := by
  obtain ⟨hmin, hmax⟩ := zero_between t
  rw [clamp]
  split_ifs <;> omega

theorem fits_clamp (t : IntType) (v : ℤ) : Fits t (clamp t v) := by
  obtain ⟨hmin, hmax⟩ := zero_between t
  rw [clamp, Fits]
  split_ifs <;> omega

/-- A number that is clamped before it is multiplied. -/
theorem clamp_mul_clamp {m : ℤ} (hm : 0 < m) : clamp t (clamp t v * m) = clamp t (v * m) := by
  obtain ⟨hmin, hmax⟩ := zero_between t
  by_cases hlow : v ≤ t.min
  · have hle : v * m ≤ t.min * m := mul_le_mul_of_nonneg_right hlow hm.le
    have hmul : t.min * m ≤ t.min := by nlinarith
    rw [clamp_of_le hlow, clamp_of_le hmul, clamp_of_le (hle.trans hmul)]
  · by_cases hhigh : t.max ≤ v
    · have hle : t.max * m ≤ v * m := mul_le_mul_of_nonneg_right hhigh hm.le
      have hmul : t.max ≤ t.max * m := by nlinarith
      rw [clamp_of_ge hhigh, clamp_of_ge hmul, clamp_of_ge (hmul.trans hle)]
    · have hfits : Fits t v := ⟨by omega, by omega⟩
      rw [clamp_of_fits hfits]

theorem clamp_large {V' : ℕ} (hV : tempMax t < V) (hV' : tempMax t < V') :
    clamp t (withSign negative (V : ℤ)) = clamp t (withSign negative (V' : ℤ)) := by
  obtain ⟨-, hmax, hmin, -, -⟩ := tempMax_bounds t
  cases negative with
  | false =>
    show clamp t V = clamp t V'
    rw [clamp_of_ge (by omega), clamp_of_ge (by omega)]
  | true =>
    show clamp t (-V) = clamp t (-V')
    rw [clamp_of_le (by omega), clamp_of_le (by omega)]

theorem adjust_self (h : Fits t v) {a b : ℕ} (hab : a ≤ b) (hb : b - a ≤ decScaleMax) :
    adjustDecScale .limit t t v a b = .ok (clamp t (v * 10 ^ (b - a))) := by
  have hholds : HoldsWhen .limit t t v a b := by
    have hcompares : Compares .limit t t v := by
      unfold Compares
      cases t.isSigned <;> trivial
    have hslips (m : ℤ) : ¬ Slips t t v m := by
      rintro ⟨-, hslips⟩
      cases hS : t.isSigned <;> rw [hS] at hslips <;> exact hslips
    rw [HoldsWhen, max_eq_right hab, min_eq_left hab]
    split_ifs with heq hlt hless
    · exact hcompares
    · omega
    · omega
    · exact hslips _
  obtain ⟨k, rfl⟩ := Nat.exists_eq_add_of_le hab
  have hmeets := (adjust_meets_iff h).mpr hholds
  rw [scaled_up] at hmeets
  rw [Nat.add_sub_cancel_left]
  exact hmeets

end Fon9.Num
