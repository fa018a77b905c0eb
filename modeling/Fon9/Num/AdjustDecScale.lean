import Fon9.Num.MultipleDivisor

/-! `AdjustDecScale` and the number that it stands for, whatever the types and the scales. -/

namespace Fon9.Num

open Bitv Int

variable {S R : IntType} {src : ℤ} {ex : AdjustDecScaleEx} {srcScale reScale k : ℕ}

/-! ### The number in the other scale -/

theorem roundAway_intCast (z : ℤ) : roundAway z = z := by
  have hfloor (x : ℤ) : ⌊(x : ℚ) + 1 / 2⌋ = x := by
    rw [floor_intCast_add]
    norm_num
  rw [roundAway]
  split
  · exact hfloor z
  · rw [← cast_neg, hfloor, neg_neg]

theorem scaled_self (src : ℤ) (scale : ℕ) : scaled src scale scale = src := by
  rw [scaled, mul_div_assoc, div_self (pow_ne_zero _ (by norm_num)), mul_one, roundAway_intCast]

theorem scaled_up (src : ℤ) (srcScale k : ℕ) : scaled src srcScale (srcScale + k) = src * 10 ^ k := by
  have hpow : (10 : ℚ) ^ srcScale ≠ 0 := pow_ne_zero _ (by norm_num)
  have hcast : (src : ℚ) * 10 ^ (srcScale + k) / 10 ^ srcScale = ((src * 10 ^ k : ℤ) : ℚ) := by
    rw [pow_add]
    push_cast
    field_simp
  rw [scaled, hcast, roundAway_intCast]

theorem scaled_down (src : ℤ) (reScale k : ℕ) : scaled src (reScale + k) reScale = roundAway ((src : ℚ) / (10 ^ k : ℕ)) := by
  have hpow : (10 : ℚ) ^ reScale ≠ 0 := pow_ne_zero _ (by norm_num)
  have hcast : (src : ℚ) * 10 ^ reScale / 10 ^ (reScale + k) = src / (10 ^ k : ℕ) := by
    rw [pow_add]
    push_cast
    field_simp
  rw [scaled, hcast]

section

variable (n : ℤ) {d h : ℕ} (hd : d = 2 * h) (hh : 0 < h)
include hd hh

/-- Half of an even divisor is added before the division. -/
theorem floor_half : ⌊(n : ℚ) / d + 1 / 2⌋ = (n + h) / d := by
  have hcast : (n : ℚ) / d + 1 / 2 = ((n + h : ℤ) : ℚ) / d := by
    have hpos : (h : ℚ) ≠ 0 := by exact_mod_cast hh.ne'
    rw [hd]
    push_cast
    field_simp
  rw [hcast, Rat.floor_intCast_div_natCast]

theorem add_half_div :
    (n + h) / d = n / d + if n % d ≥ (d : ℤ) / 2 then 1 else 0 := by
  have hpos : (0 : ℤ) < d := by omega
  have hsplit : n + h = n % d + h + d * (n / d) := by
    have := emod_add_mul_ediv n d
    omega
  have hlow := emod_nonneg n hpos.ne'
  have hhigh := emod_lt_of_pos n hpos
  rw [hsplit, add_mul_ediv_left _ _ hpos.ne', add_comm]
  congr 1
  have hhalf : (d : ℤ) / 2 = h := by omega
  rw [hhalf]
  split_ifs with hge
  · rw [ediv_eq_iff_of_pos hpos]
    omega
  · exact ediv_eq_zero_of_lt (by omega) (by omega)

/-- `RoundByDivisor` rounds half away from zero. -/
theorem roundByDivisor_eq :
    Bitv.roundByDivisor n d = roundAway ((n : ℚ) / d) := by
  have hpos : (0 : ℚ) < d := by exact_mod_cast (by omega : 0 < d)
  rw [Bitv.roundByDivisor, roundAway]
  by_cases hneg : n < 0
  · have hquotient : ¬ (0 : ℚ) ≤ n / d := not_le.mpr (div_neg_of_neg_of_pos (by exact_mod_cast hneg) hpos)
    have hdiv : tdiv n d = -(-n / d) := by
      rw [← tdiv_eq_ediv_of_nonneg (by omega), Int.neg_tdiv, neg_neg]
    rw [if_pos hneg, if_neg hquotient, ← neg_div, ← cast_neg, floor_half (-n) hd hh, add_half_div (-n) hd hh, hdiv]
    ring_nf
  · have hquotient : (0 : ℚ) ≤ n / d := div_nonneg (by exact_mod_cast Int.not_lt.mp hneg) hpos.le
    rw [if_neg hneg, if_pos hquotient, floor_half n hd hh, add_half_div n hd hh]

/-- A rounded quotient lies between zero and the number. -/
theorem roundByDivisor_between :
    (0 ≤ n → 0 ≤ Bitv.roundByDivisor n d ∧ Bitv.roundByDivisor n d ≤ n) ∧
      (n < 0 → n ≤ Bitv.roundByDivisor n d ∧ Bitv.roundByDivisor n d ≤ 0) := by
  have hpos : (0 : ℤ) < d := by omega
  have hbetween (x : ℤ) (hx : 0 ≤ x) : 0 ≤ (x + h) / d ∧ (x + h) / d ≤ x := by
    refine ⟨ediv_nonneg (by omega) hpos.le, lt_add_one_iff.mp (Int.ediv_lt_of_lt_mul hpos ?_)⟩
    have hd' : (d : ℤ) = 2 * h := by omega
    have hh' : (0 : ℤ) < h := by omega
    rw [hd']
    nlinarith
  have hround : Bitv.roundByDivisor n d = if n < 0 then -((-n + h) / d) else (n + h) / d := by
    rw [Bitv.roundByDivisor]
    by_cases hneg : n < 0
    · have hdiv : tdiv n d = -(-n / d) := by
        rw [← tdiv_eq_ediv_of_nonneg (by omega), Int.neg_tdiv, neg_neg]
      rw [if_pos hneg, if_pos hneg, add_half_div (-n) hd hh, hdiv]
      ring
    · rw [if_neg hneg, if_neg hneg, add_half_div n hd hh]
  rw [hround]
  refine ⟨fun hn => ?_, fun hn => ?_⟩
  · rw [if_neg (by omega)]
    exact hbetween n hn
  · rw [if_pos hn]
    have := hbetween (-n) (by omega)
    omega

end

theorem ten_pow_even (hk : 0 < k) : 10 ^ k = 2 * (5 * 10 ^ (k - 1)) := by
  obtain ⟨j, rfl⟩ := Nat.exists_eq_add_of_lt hk
  rw [zero_add, Nat.add_sub_cancel, pow_succ]
  omega

theorem ten_pow_half_pos (k : ℕ) : 0 < 5 * 10 ^ (k - 1) := by positivity

/-- What is rounded is one of the widest type again. -/
theorem fits_round (hk : 0 < k) (h : Fits S src) : Fits (imax S) (Bitv.roundByDivisor src (10 ^ k)) := by
  obtain ⟨hnonneg, hneg⟩ := roundByDivisor_between src (ten_pow_even hk) (ten_pow_half_pos k)
  have hmax := fits_imax h
  have hle : (imax S).min ≤ 0 ∧ 0 ≤ (imax S).max := by cases S <;> decide
  rw [Fits] at hmax ⊢
  by_cases hsrc : 0 ≤ src
  · have := hnonneg hsrc
    omega
  · have := hneg (Int.not_le.mp hsrc)
    omega

/-! ### Rounding and multiplying -/

/-- The smallest `intmax_t` has no negative. -/
def NoNegative (S : IntType) (src : ℤ) : Prop := (imax S).isSigned = true ∧ src = (imax S).min

instance (S : IntType) (src : ℤ) : Decidable (NoNegative S src) := inferInstanceAs (Decidable (_ ∧ _))

/-- Digits are dropped, and what is left is put into the result type. -/
theorem round_meets_iff (hsrc : Fits S src) (hk : 0 < k) :
    ex.Meets R (scaled src (reScale + k) reScale)
      (roundByDivisor (imax S) src (10 ^ k) >>= fun num => ex.onAfterRound R (imax S) num) ↔
      ¬ NoNegative S src ∧ Compares ex (imax S) R (scaled src (reScale + k) reScale) := by
  rw [scaled_down, ← roundByDivisor_eq src (ten_pow_even hk) (ten_pow_half_pos k)]
  by_cases hnone : NoNegative S src
  · have hundefined : roundByDivisor (imax S) src (10 ^ k) = .error .undefined := if_pos hnone
    rw [hundefined]
    exact ⟨fun h => absurd h not_meets_undefined, fun h => absurd hnone h.1⟩
  · have hok : roundByDivisor (imax S) src (10 ^ k) = .ok (Bitv.roundByDivisor src (10 ^ k)) := if_neg hnone
    rw [hok, and_iff_right hnone]
    exact onAfterRound_meets_iff (fits_round hk hsrc)

/-- The divisors are those up to `DecScaleMax`. -/
theorem range_meets_iff {v : ℤ} : ex.Meets R v (.error .range) ↔ ex = .throw ∧ ¬ Fits R v := by
  cases ex with
  | limit => exact ⟨(fun h => nomatch h), fun h => nomatch h.1⟩
  | throw =>
    show (if Fits R v then _ else _) ↔ _
    by_cases hfits : Fits R v
    · rw [if_pos hfits]
      exact ⟨(fun h => nomatch h), fun h => absurd hfits h.2⟩
    · rw [if_neg hfits]
      exact ⟨fun _ => ⟨rfl, hfits⟩, fun _ => ⟨_, rfl, by decide⟩⟩

theorem ten_pow_pos (k : ℕ) : (0 : ℤ) < 10 ^ k := pow_pos (by decide) k

theorem fits_ten_pow (S : IntType) (hk : k ≤ decScaleMax) : Fits (imax S) (10 ^ k) := by
  have hle : (10 : ℤ) ^ k ≤ 10 ^ decScaleMax := pow_le_pow_right₀ (by decide) hk
  have hbounds : (imax S).min ≤ 0 ∧ (10 : ℤ) ^ decScaleMax ≤ (imax S).max := by cases S <;> decide
  exact ⟨hbounds.1.trans (ten_pow_pos k).le, hle.trans hbounds.2⟩

/-! ### The conditions -/

/-- No digit is dropped or added: the bounds are met. Digits are dropped: the number has a
negative, and the bounds are met. Digits are added: no product slips through. Where there is no
divisor, something is raised. -/
def HoldsWhen (ex : AdjustDecScaleEx) (S R : IntType) (src : ℤ) (srcScale reScale : ℕ) : Prop :=
  if reScale = srcScale then Compares ex S R src
  else if decScaleMax < max srcScale reScale - min srcScale reScale then
    ex = .throw ∧ ¬ Fits R (scaled src srcScale reScale)
  else if reScale < srcScale then ¬ NoNegative S src ∧ Compares ex (imax S) R (scaled src srcScale reScale)
  else ¬ Slips S R src (10 ^ (reScale - srcScale))

/-- With the scales as template arguments; a product of a signed source has to be an `intmax_t`. -/
def HoldsWhenN (ex : AdjustDecScaleEx) (S R : IntType) (src : ℤ) (srcScale reScale : ℕ) : Prop :=
  if reScale < srcScale then ¬ NoNegative S src ∧ Compares ex (imax S) R (scaled src srcScale reScale)
  else (S.isSigned = true → Fits .int64 (src * 10 ^ (reScale - srcScale))) ∧
    ¬ Slips S R src (10 ^ (reScale - srcScale))

/-- What `DecDivisor` asserts: the divisor is one of the type of the source. -/
def Asserted (S : IntType) (srcScale reScale : ℕ) : Prop := Fits S (10 ^ (max srcScale reScale - min srcScale reScale))

theorem adjust_meets_iff (hsrc : Fits S src) :
    ex.Meets R (scaled src srcScale reScale) (adjustDecScale ex S R src srcScale reScale) ↔
      HoldsWhen ex S R src srcScale reScale := by
  rw [adjustDecScale, HoldsWhen]
  by_cases heq : reScale = srcScale
  · rw [if_pos heq, if_pos heq, heq, scaled_self]
    exact onAfterRound_meets_iff hsrc
  · rw [if_neg heq, if_neg heq]
    by_cases hlt : reScale < srcScale
    · obtain ⟨k, rfl⟩ := Nat.exists_eq_add_of_lt hlt
      rw [if_pos hlt, if_pos hlt, max_eq_left hlt.le, min_eq_right hlt.le, add_assoc, Nat.add_sub_cancel_left,
        getDecDivisor]
      by_cases hk : k + 1 ≤ decScaleMax
      · rw [if_pos hk, if_neg (not_lt.mpr hk), ← round_meets_iff hsrc (Nat.succ_pos k)]
        have hdivisor : ((10 : ℤ) ^ (k + 1)).toNat = 10 ^ (k + 1) := by
          rw [toNat_pow_of_nonneg (by decide)]
          rfl
        rw [← hdivisor]
        rfl
      · rw [if_neg hk, if_pos (not_le.mp hk)]
        exact range_meets_iff
    · obtain ⟨k, rfl⟩ := Nat.exists_eq_add_of_lt (lt_of_le_of_ne (not_lt.mp hlt) (Ne.symm heq))
      rw [if_neg hlt, if_neg hlt, max_eq_right (not_lt.mp hlt), min_eq_left (not_lt.mp hlt), add_assoc,
        Nat.add_sub_cancel_left, getDecDivisor]
      by_cases hk : k + 1 ≤ decScaleMax
      · rw [if_pos hk, if_neg (not_lt.mpr hk), scaled_up]
        exact onMultipleDivisor_meets_iff hsrc (ten_pow_pos _) (fits_ten_pow S hk)
      · rw [if_neg hk, if_pos (not_le.mp hk)]
        exact range_meets_iff

theorem adjustN_meets_iff (hsrc : Fits S src) (hasserted : Asserted S srcScale reScale) :
    ex.Meets R (scaled src srcScale reScale) (adjustDecScaleN ex S R src srcScale reScale) ↔
      HoldsWhenN ex S R src srcScale reScale := by
  rw [adjustDecScaleN, HoldsWhenN]
  by_cases hlt : reScale < srcScale
  · obtain ⟨k, rfl⟩ := Nat.exists_eq_add_of_lt hlt
    rw [if_pos hlt, if_pos hlt, add_assoc, Nat.add_sub_cancel_left]
    exact round_meets_iff hsrc (Nat.succ_pos k)
  · obtain ⟨k, rfl⟩ := Nat.exists_eq_add_of_le (not_lt.mp hlt)
    rw [if_neg hlt, if_neg hlt, Nat.add_sub_cancel_left, scaled_up]
    rw [Asserted, max_eq_right (not_lt.mp hlt), min_eq_left (not_lt.mp hlt), Nat.add_sub_cancel_left] at hasserted
    exact onMultipleDivisor_own_meets_iff hsrc (ten_pow_pos k) hasserted

/-- The result is the exact number, rounded and clamped or raised on, exactly under the
conditions. -/
theorem adjustDecScale_meets_iff (ex : AdjustDecScaleEx) (S R : IntType) (src : S.Val) (srcScale reScale : ℕ) :
    (ex.Meets R (scaled src srcScale reScale) (adjustDecScale ex S R src srcScale reScale) ↔
      HoldsWhen ex S R src srcScale reScale) ∧
    (Asserted S srcScale reScale →
      (ex.Meets R (scaled src srcScale reScale) (adjustDecScaleN ex S R src srcScale reScale) ↔
        HoldsWhenN ex S R src srcScale reScale)) :=
  ⟨adjust_meets_iff src.2, adjustN_meets_iff src.2⟩

/-- `123.45` to one digit. -/
theorem adjustDecScale_meets_iff_round :
    Asserted .int32 2 1 ∧
      (AdjustDecScaleEx.limit.Meets .int16 (scaled 12345 2 1) (adjustDecScaleN .limit .int32 .int16 12345 2 1) ↔
        HoldsWhenN .limit .int32 .int16 12345 2 1) := by
  have hasserted : Asserted .int32 2 1 := by
    show Fits .int32 (10 ^ (max 2 1 - min 2 1))
    decide
  exact ⟨hasserted, (adjustDecScale_meets_iff .limit .int32 .int16 ⟨12345, by decide⟩ 2 1).2 hasserted⟩

/-- `5` of `uint32_t` becomes the smallest `int32_t`, and ten times `10 ^ 18` of `uint64_t` a
negative `int64_t`. -/
theorem small_unsigned_clamped_low :
    ¬ AdjustDecScaleEx.limit.Meets .int32 (scaled 5 0 0) (adjustDecScale .limit .uint32 .int32 5 0 0) ∧
      ¬ AdjustDecScaleEx.throw.Meets .int64 (scaled (10 ^ 18) 0 1)
        (adjustDecScale .throw .uint64 .int64 (10 ^ 18) 0 1) := by
  constructor
  · rw [scaled_self]
    intro h
    have hlow : adjustDecScale .limit .uint32 .int32 5 0 0 = .ok (-2147483648) := by decide
    rw [hlow] at h
    exact absurd (Except.ok.inj h) (by decide)
  · have hup := scaled_up (10 ^ 18) 0 1
    rw [zero_add] at hup
    rw [hup]
    intro h
    have hwrapped : adjustDecScale .throw .uint64 .int64 (10 ^ 18) 0 1 = .ok (-8446744073709551616) := by decide
    rw [hwrapped] at h
    have hfits : ¬ Fits .int64 (10 ^ 18 * 10 ^ 1) := by decide
    exact hfits (meets_ok_iff.mp h).1

end Fon9.Num
