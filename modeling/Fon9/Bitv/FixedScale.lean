import Fon9.Bitv.Scalar

/-! Decimals with all of their decimal places, of the length that they need or of a fixed one.
Both encoders put a header together of their own. -/

namespace Fon9.Bitv

open Buffer Lib BigEndian IntType Nat

/-- `ToBitvFixedScale` of a `Decimal` with its original value, which goes as a `uintmax_t`. -/
def toBitvFixedScale (t : IntType) (scale : ℕ) (value : ℤ) : Put :=
  if value = 0 then revPutBitv bitvV_Number0
  else if value = origNull t then revPutBitv bitvV_NumberNull
  else decToBitvAux (IntType.wrap .uint64 value).toNat scale (value < 0)

/-- `ToBitvFixedScale<kBitvBitSize>`; the first byte has room for two bits of the value. -/
def toBitvFixedScaleBits (kBitvBitSize scale : ℕ) (value : ℤ) : Put :=
  let kBitvLen := 1 + (kBitvBitSize + 7 - 2) / 8
  let type := bitvT_Decimal ||| UInt8.ofNat ((kBitvLen + 2 ^ 64 - 2) % 2 ^ 64)
  match toBitvFixedRev kBitvLen value.natAbs with
  | [] => ⟨kBitvLen + 1, [type]⟩
  | first :: rest =>
    let second := first ||| UInt8.ofNat (scale <<< 3)
    ⟨kBitvLen + 1, type :: (if value < 0 then second ||| 0x40 else second) :: rest⟩

variable {Q : Type} [LawfulDcQueue Q] {q : Q} {rest : Bytes} {t : IntType}

/-- The value comes back, and its bytes are gone. -/
def ComesBack (v : t.Val) (rest : Bytes) (r : Except BitvError (t.Val × Q)) : Prop :=
  ∃ q', r = .ok (v, q') ∧ Holds q' rest

theorem comesBack_ok {v w : t.Val} {q' : Q} (h : Holds q' rest) : ComesBack v rest (.ok (w, q')) ↔ w = v := by
  constructor
  · rintro ⟨q'', hok, -⟩
    cases hok
    rfl
  · rintro rfl
    exact ⟨q', rfl, h⟩

/-- A positive number of the scale of the type. -/
theorem bitvToDec_pos {q' : Q} {num srcScale scale : ℕ} (hnumber : bitvToNumber q = .ok (numberOf false num srcScale, q')) :
    bitvToDec t scale q = (adjustDecScale .uint64 num srcScale scale).map fun value => (t.cast value, q') := by
  rw [bitvToDec, hnumber]
  simp only [numberOf, bind, Except.bind, Bool.false_eq_true, if_false]
  cases adjustDecScale .uint64 num srcScale scale with
  | ok value => rfl
  | error e => rfl

theorem bitvToDec_neg {q' : Q} {num srcScale scale : ℕ} (hsigned : t.isSigned = true)
    (hnumber : bitvToNumber q = .ok (numberOf true num srcScale, q')) :
    bitvToDec t scale q = (adjustDecScale .int64 (wrap .int64 (complement64 num)) srcScale scale).map
      fun value => (t.cast value, q') := by
  rw [bitvToDec, hnumber]
  simp only [numberOf, bind, Except.bind, if_true, hsigned, Bool.true_eq_false, if_false]
  cases adjustDecScale .int64 (wrap .int64 (complement64 num)) srcScale scale with
  | ok value => rfl
  | error e => rfl

theorem adjustDecScale_self (maxType : IntType) (src : ℤ) (scale : ℕ) :
    adjustDecScale maxType src scale scale = .ok src := by rw [adjustDecScale, if_pos rfl]

/-! ### As many bytes as are needed -/

variable (scale : Fin 32)

/-- A negative value goes as its two's complement and comes back as its ones' complement. -/
theorem fixedScale_comesBack_iff (v : t.Val) (h : Holds q ((toBitvFixedScale t scale v.1).text ++ rest)) :
    ComesBack v rest (bitvToDec t scale q) ↔ 0 ≤ v.1 ∨ v.1 = origNull t := by
  obtain ⟨v, hmin, hmax⟩ := v
  change Holds q ((toBitvFixedScale t scale v).text ++ rest) at h
  show _ ↔ 0 ≤ v ∨ v = origNull t
  rw [toBitvFixedScale] at h
  split at h
  · next hzero =>
    subst hzero
    have hpop : Holds (DcQueue.popConsumed q 1) rest := popConsumed_append h
    have hload : bitvToDec t scale q = .ok (t.cast 0, DcQueue.popConsumed q 1) := by
      rw [bitvToDec, bitvToNumber, peek1_cons h]
      rfl
    rw [hload, comesBack_ok hpop]
    exact iff_of_true (cast_val ⟨0, hmin, hmax⟩) (.inl le_rfl)
  · split at h
    · next hnull =>
      have hpop : Holds (DcQueue.popConsumed q 1) rest := popConsumed_append h
      have hload : bitvToDec t scale q = .ok (t.cast (origNull t), DcQueue.popConsumed q 1) := by
        rw [bitvToDec, bitvToNumber, peek1_cons h]
        rfl
      rw [hload, comesBack_ok hpop, ← hnull]
      exact iff_of_true (cast_val ⟨v, hmin, hmax⟩) (.inr rfl)
    · next hnull =>
      obtain ⟨hmin64, hmax64, hsigned⟩ := mem_int64 hmin hmax
      have hnum : ((wrap .uint64 v).toNat : ℤ) = if v < 0 then 2 ^ 64 + v else v := by
        simp only [wrap, isSigned, IntType.size]
        norm_num
        omega
      generalize (wrap .uint64 v).toNat = num at h hnum
      have hlt : num < 2 ^ 64 := by
        split at hnum <;> omega
      obtain ⟨hi, packed, htext, hpos, hlen, hfold⟩ := decToBitvAux_bytes hlt scale (v < 0)
      rw [htext] at h
      obtain ⟨q', hnumber, hrest⟩ := number_dec_bytes scale (v < 0) hi hpos hlen (by rw [hfold]; exact hlt) h
      rw [hfold] at hnumber
      by_cases hneg : v < 0
      · rw [decide_eq_true hneg] at hnumber
        rw [if_pos hneg] at hnum
        have hcompl : ((complement64 num : ℕ) : ℤ) = -v - 1 := by
          unfold complement64
          omega
        have hwrap : wrap .int64 (-v - 1) = -v - 1 :=
          wrap_of_mem (by simp only [IntType.min, IntType.max, isSigned, IntType.size]; norm_num; omega)
        have hmem : t.min ≤ -v - 1 ∧ -v - 1 ≤ t.max := by
          obtain ⟨-, -, hcmin, hcmax, hcomplement⟩ := complement_lt hmin hneg
          rw [hcomplement] at hcmin hcmax
          exact ⟨hcmin, hcmax⟩
        rw [bitvToDec_neg (hsigned hneg) hnumber, hcompl, hwrap, adjustDecScale_self]
        show ComesBack _ _ (.ok (t.cast (-v - 1), q')) ↔ _
        rw [comesBack_ok hrest]
        refine iff_of_false (fun heq => ?_) fun hor => hor.elim (fun hpos => by omega) hnull
        have hval : t.wrap (-v - 1) = v := congrArg Subtype.val heq
        rw [wrap_of_mem hmem] at hval
        omega
      · rw [decide_eq_false hneg] at hnumber
        rw [if_neg hneg] at hnum
        rw [bitvToDec_pos hnumber, hnum, adjustDecScale_self]
        show ComesBack _ _ (.ok (t.cast v, q')) ↔ _
        rw [comesBack_ok hrest]
        exact iff_of_true (cast_val ⟨v, hmin, hmax⟩) (.inl (by omega))

/-! ### A fixed number of bytes -/

/-- The sign goes to a bit of the scale. -/
theorem signByte : ∀ (hi : Fin 4) (scale : Fin 32) (isNeg : Bool),
    (let second : UInt8 := UInt8.ofNat hi ||| UInt8.ofNat ((scale : ℕ) <<< 3)
      if isNeg then second ||| 0x40 else second) =
      UInt8.ofNat hi ||| (UInt8.ofNat ((if isNeg then (scale : ℕ) ||| 8 else scale) * 8) ||| 0) := by
  decide +kernel

theorem lt_of_bits {n bits : ℕ} (h : n < 2 ^ bits) : n / 256 ^ ((bits + 5) / 8) < 4 := by
  have hle : bits ≤ 8 * ((bits + 5) / 8) + 2 := by omega
  have hpow : (2 : ℕ) ^ bits ≤ 256 ^ ((bits + 5) / 8) * 4 := by
    calc (2 : ℕ) ^ bits ≤ 2 ^ (8 * ((bits + 5) / 8) + 2) := Nat.pow_le_pow_right (by decide) hle
      _ = 256 ^ ((bits + 5) / 8) * 4 := by rw [pow_add, pow_mul]; norm_num
  exact Nat.div_lt_of_lt_mul (h.trans_le hpow)

/-- The header of the fixed form, and the value behind it. -/
theorem fixedScaleBits_text {kBitvBitSize scale : ℕ} {value : ℤ} (hbits : 3 ≤ kBitvBitSize) (hbits' : kBitvBitSize ≤ 64)
    (hscale : scale < 32) (hvalue : value.natAbs < 2 ^ kBitvBitSize) :
    ∃ (hi : Fin 4) (packed : Bytes), (toBitvFixedScaleBits kBitvBitSize scale value).text =
        (bitvT_Decimal ||| UInt8.ofNat (packed.length - 1)) ::
          (UInt8.ofNat hi ||| (UInt8.ofNat ((if value < 0 then scale ||| 8 else scale) * 8) ||| 0)) :: packed ∧
      0 < packed.length ∧ packed.length ≤ 8 ∧
      packed.foldl (fun num b => num * 256 + b.toNat) (hi : ℕ) = value.natAbs := by
  have hhi := lt_of_bits hvalue
  generalize hlen : (kBitvBitSize + 5) / 8 = len at hhi
  have hrange : 0 < len ∧ len ≤ 8 := by omega
  have hbytes : toBitvFixedRev (1 + len) value.natAbs =
      UInt8.ofNat (value.natAbs / 256 ^ len) :: BigEndian.bytes len value.natAbs := by
    rw [toBitvFixedRev_eq (Int.natCast_nonneg _), Int.toNat_natCast, add_comm, bytes_succ,
      mod_eq_of_lt (by omega)]
  have htype : (1 + len + 2 ^ 64 - 2) % 2 ^ 64 = (BigEndian.bytes len value.natAbs).length - 1 := by
    rw [length_bytes]
    omega
  refine ⟨⟨value.natAbs / 256 ^ len, hhi⟩, BigEndian.bytes len value.natAbs, ?_, ?_, ?_, ?_⟩
  · have hsecond := signByte ⟨value.natAbs / 256 ^ len, hhi⟩ ⟨scale, hscale⟩ (value < 0)
    simp only [decide_eq_true_eq] at hsecond
    rw [toBitvFixedScaleBits, show kBitvBitSize + 7 - 2 = kBitvBitSize + 5 by omega, hlen, hbytes, htype]
    dsimp only
    rw [hsecond]
  · rw [length_bytes]
    exact hrange.1
  · rw [length_bytes]
    exact hrange.2
  · have hfull : BigEndian.value (UInt8.ofNat (value.natAbs / 256 ^ len) :: BigEndian.bytes len value.natAbs) =
        value.natAbs := by
      rw [← mod_eq_of_lt (show value.natAbs / 256 ^ len < 256 by omega), ← bytes_succ]
      refine value_bytes ?_
      rw [pow_succ']
      exact (Nat.div_lt_iff_lt_mul (by positivity)).mp (hhi.trans (by decide))
    rw [BigEndian.value, List.foldl_cons, UInt8.toNat_ofNat', mod_eq_of_lt (by omega), zero_mul, zero_add] at hfull
    exact hfull

/-- The decimal places of another scale go, with rounding. -/
theorem adjustDecScale_shrink {num scale k : ℕ} (hk : 0 < k) (hk' : k ≤ decScaleMax) :
    ∃ value : ℕ, adjustDecScale .uint64 num (scale + k) scale = .ok (value : ℤ) ∧ value ≤ num := by
  refine ⟨num / 10 ^ k + (if num % 10 ^ k ≥ 10 ^ k / 2 then 1 else 0), ?_, ?_⟩
  · rw [adjustDecScale, if_neg (by omega), if_pos (by omega), Nat.add_sub_cancel_left, getDecDivisor, if_pos hk']
    show Except.ok (roundByDivisor num ((10 ^ k : ℕ) : ℕ)) = _
    rw [roundByDivisor, if_neg (by omega)]
    push_cast
    norm_cast
  · have hten : 10 ≤ 10 ^ k := by
      calc 10 = 10 ^ 1 := (pow_one 10).symm
        _ ≤ 10 ^ k := Nat.pow_le_pow_right (by decide) hk
    have hdiv : num / 10 ^ k ≤ num / 10 := div_le_div_left hten (by decide)
    have hmod : num % 10 ^ k ≤ num := mod_le _ _
    split <;> omega

theorem signScale : ∀ scale : Fin 32, (scale : ℕ) ||| 8 < 32 ∧
    ((scale : ℕ) ||| 8 = scale ∨ (scale : ℕ) ||| 8 = scale + 8) := by decide

/-- With its sign at another place, a number comes back without it. -/
theorem adjustDecScale_signed (num : ℕ) :
    ∃ value : ℕ, adjustDecScale .uint64 num ((scale : ℕ) ||| 8) scale = .ok (value : ℤ) ∧ value ≤ num := by
  rcases (signScale scale).2 with heq | heq
  · rw [heq]
    exact ⟨num, adjustDecScale_self _ _ _, le_rfl⟩
  · rw [heq]
    exact adjustDecScale_shrink (by decide) (by decide)

theorem natAbs_mem {v : ℤ} (hmin : t.min ≤ v) (hmax : v ≤ t.max) (hnull : v ≠ origNull t) {value : ℕ}
    (hle : value ≤ v.natAbs) : t.min ≤ (value : ℤ) ∧ (value : ℤ) ≤ t.max := by
  revert hmin hmax hnull
  cases t <;> simp only [origNull, IntType.min, IntType.max, isSigned, IntType.size] <;> norm_num <;> omega

/-- With two bits there is no byte for the value, and the type of the header overflows. -/
theorem fixedScaleBits_two {v : ℤ} (h : Holds q ((toBitvFixedScaleBits 2 scale v).text ++ rest)) :
    bitvToDec t scale q = .error (.typeNotMatch "BitvToNumber: type not match") := by
  obtain ⟨s, htext⟩ : ∃ s, (toBitvFixedScaleBits 2 scale v).text = 0xff :: s := ⟨_, rfl⟩
  rw [htext] at h
  rw [bitvToDec, bitvToNumber, peek1_cons h]
  rfl

theorem fixedScaleBits_comesBack_iff (v : t.Val) {kBitvBitSize : ℕ} (hbits : 2 ≤ kBitvBitSize)
    (hbits' : kBitvBitSize ≤ 64) (hvalue : v.1.natAbs < 2 ^ kBitvBitSize) (hnull : v.1 ≠ origNull t)
    (h : Holds q ((toBitvFixedScaleBits kBitvBitSize scale v.1).text ++ rest)) :
    ComesBack v rest (bitvToDec t scale q) ↔ 0 ≤ v.1 ∧ 2 < kBitvBitSize := by
  obtain ⟨v, hmin, hmax⟩ := v
  change v.natAbs < _ at hvalue
  change v ≠ _ at hnull
  change Holds q ((toBitvFixedScaleBits kBitvBitSize scale v).text ++ rest) at h
  show _ ↔ 0 ≤ v ∧ _
  rcases hbits.eq_or_lt with rfl | hbits
  · rw [fixedScaleBits_two scale h]
    refine iff_of_false ?_ fun hand => absurd hand.2 (lt_irrefl 2)
    rintro ⟨q', hok, -⟩
    cases hok
  · obtain ⟨hi, packed, htext, hpos, hlen, hfold⟩ := fixedScaleBits_text hbits hbits' scale.2 hvalue
    rw [htext] at h
    have hlt64 : v.natAbs < 2 ^ 64 := hvalue.trans_le (Nat.pow_le_pow_right (by decide) hbits')
    by_cases hneg : v < 0
    · rw [if_pos hneg] at h
      obtain ⟨q', hnumber, hrest⟩ := number_dec_bytes ⟨(scale : ℕ) ||| 8, (signScale scale).1⟩ false hi hpos hlen
        (by rw [hfold]; exact hlt64) h
      rw [hfold] at hnumber
      obtain ⟨value, hadjust, hle⟩ := adjustDecScale_signed scale v.natAbs
      rw [bitvToDec_pos hnumber, hadjust]
      show ComesBack _ _ (.ok (t.cast value, q')) ↔ _
      rw [comesBack_ok hrest]
      refine iff_of_false (fun heq => ?_) fun hand => absurd hand.1 (Int.not_le.mpr hneg)
      have hval : t.wrap value = v := congrArg Subtype.val heq
      rw [wrap_of_mem (natAbs_mem hmin hmax hnull hle)] at hval
      omega
    · rw [if_neg hneg] at h
      obtain ⟨q', hnumber, hrest⟩ := number_dec_bytes scale false hi hpos hlen (by rw [hfold]; exact hlt64) h
      rw [hfold] at hnumber
      have hnat : ((v.natAbs : ℕ) : ℤ) = v := by omega
      rw [bitvToDec_pos hnumber, adjustDecScale_self, hnat]
      show ComesBack _ _ (.ok (t.cast v, q')) ↔ _
      rw [comesBack_ok hrest]
      exact iff_of_true (cast_val ⟨v, hmin, hmax⟩) ⟨by omega, hbits⟩

/-! ### The round trips -/

/-- A value that is not negative comes back from either form, unless the fixed one has two bits;
a time stamp always does. -/
theorem fixedScale_roundTrip_iff (scale : Fin 32) (v : t.Val) :
    (∀ (q : Q) rest, Holds q ((toBitvFixedScale t scale v.1).text ++ rest) →
      (ComesBack v rest (bitvToDec t scale q) ↔ 0 ≤ v.1 ∨ v.1 = origNull t)) ∧
    (∀ kBitvBitSize, 2 ≤ kBitvBitSize → kBitvBitSize ≤ 64 → v.1.natAbs < 2 ^ kBitvBitSize → v.1 ≠ origNull t →
      ∀ (q : Q) rest, Holds q ((toBitvFixedScaleBits kBitvBitSize scale v.1).text ++ rest) →
        (ComesBack v rest (bitvToDec t scale q) ↔ 0 ≤ v.1 ∧ 2 < kBitvBitSize)) ∧
    ∀ (ts : IntType.int64.Val) (q : Q) rest, Holds q ((timeStampToBitv ts.1).text ++ rest) →
      ComesBack ts rest (bitvToTimeStamp q) :=
  ⟨fun _ _ => fixedScale_comesBack_iff scale v,
    fun _ hbits hbits' hvalue hnull _ _ => fixedScaleBits_comesBack_iff scale v hbits hbits' hvalue hnull,
    fun ts q rest => timeStamp_reads ts q rest⟩

/-- 1.23 comes back, with twelve bits too. -/
theorem fixedScale_roundTrip_iff_int32 :
    ComesBack (IntType.int32.cast 123) [] (bitvToDec .int32 2 (toBitvFixedScale .int32 2 123).text) ∧
      ComesBack (IntType.int32.cast 123) [] (bitvToDec .int32 2 (toBitvFixedScaleBits 12 2 123).text) :=
  have hboth := fixedScale_roundTrip_iff (Q := Bytes) 2 (IntType.int32.cast 123)
  ⟨(hboth.1 _ [] rfl).mpr (by decide), (hboth.2.1 12 (by decide) (by decide) (by decide) (by decide) _ [] rfl).mpr (by decide)⟩

/-- -1.23 comes back as 1.22. -/
theorem not_fixedScale_roundTrip :
    ¬ ∀ (t : IntType) (scale : Fin 32) (v : t.Val) (q rest : Bytes), Holds q ((toBitvFixedScale t scale v.1).text ++ rest) →
      ComesBack v rest (bitvToDec t scale q) := by
  intro h
  obtain ⟨q', hok, -⟩ := h .int32 2 (IntType.int32.cast (-123)) _ [] rfl
  have hload : bitvToDec .int32 2 ((toBitvFixedScale .int32 2 (IntType.int32.cast (-123)).1).text ++ []) =
      .ok (IntType.int32.cast 122, ([] : Bytes)) := rfl
  have hpair := Except.ok.inj (hload.symm.trans hok)
  exact absurd (Prod.mk.inj hpair).1 (by decide)

end Fon9.Bitv
