import Fon9.Bitv.Decode

/-! The decoder of each single value takes back exactly what its encoder has put, whatever
follows, and asks for more where bytes are missing. -/

namespace Fon9.Bitv

open Buffer Lib List IntType BigEndian DcQueue Int

variable {Q : Type} [LawfulDcQueue Q] {q : Q} {α : Type} {rest : Bytes}

/-- The decoder takes the bytes, and nothing behind them, for the value. -/
def Reads (Q : Type) [LawfulDcQueue Q] (bitvTo : Q → Except BitvError (α × Q)) (bytes : Bytes) (v : α) : Prop :=
  ∀ q rest, Holds q (bytes ++ rest) → ∃ q', bitvTo q = .ok (v, q') ∧ Holds q' rest

/-- The decoder asks for more where the bytes are cut off. -/
def Waits (Q : Type) [LawfulDcQueue Q] (bitvTo : Q → Except BitvError (α × Q)) (bytes : Bytes) : Prop :=
  ∀ q s, s <+: bytes → s ≠ bytes → Holds q s → ∃ what, bitvTo q = .error (.needsMore what)

variable {first : UInt8} {type : UInt8} {t : IntType} {packed : Bytes} {value : ℤ}

/-- A part of what begins with `first` is empty or begins with it too. -/
theorem prefix_cases {bytes s : Bytes} (h : s <+: first :: bytes) (hne : s ≠ first :: bytes) :
    s = [] ∨ ∃ s', s = first :: s' ∧ s'.length < bytes.length := by
  cases s with
  | nil => exact .inl rfl
  | cons b s' =>
    obtain ⟨hb, hs⟩ := cons_prefix_cons.mp h
    subst hb
    refine .inr ⟨s', rfl, ?_⟩
    have hle := hs.length_le
    have hlen : s'.length ≠ bytes.length := fun heq => hne (congrArg (b :: ·) (hs.eq_of_length heq))
    omega

/-! ### Packed numbers -/

theorem div_lt {size value : ℕ} (h : value < 256 ^ (size + 1)) (hne : ¬ value / 256 = 0) :
    value / 256 < 256 ^ size ∧ 0 < size := by
  have hlt : value / 256 < 256 ^ size := by
    rw [Nat.div_lt_iff_lt_mul (by decide)]
    rw [pow_succ] at h
    exact h
  refine ⟨hlt, ?_⟩
  rcases Nat.eq_zero_or_pos size with rfl | hpos
  · rw [pow_zero] at hlt
    omega
  · exact hpos

theorem packBigEndianRev_spec {size value : ℕ} (hsize : 0 < size) (h : value < 256 ^ size) :
    getPackedBigEndian (packBigEndianRev size value) = value ∧
      0 < (packBigEndianRev size value).length ∧ (packBigEndianRev size value).length ≤ size := by
  induction size generalizing value with
  | zero => omega
  | succ size ih =>
    have hlow : (UInt8.ofNat value).toNat = value % 256 := UInt8.toNat_ofNat'
    rw [packBigEndianRev]
    split
    · next hzero =>
      refine ⟨?_, Nat.one_pos, Nat.succ_le_succ (Nat.zero_le _)⟩
      show 0 * 256 + (UInt8.ofNat value).toNat = value
      rw [hlow]
      omega
    · next hne =>
      obtain ⟨hlt, hpos⟩ := div_lt h hne
      obtain ⟨hvalue, -, hlen⟩ := ih hpos hlt
      rw [length_append, length_singleton]
      refine ⟨?_, Nat.succ_pos _, Nat.succ_le_succ hlen⟩
      rw [show getPackedBigEndian (packBigEndianRev size (value / 256) ++ [UInt8.ofNat value]) =
        getPackedBigEndian (packBigEndianRev size (value / 256)) * 256 + (UInt8.ofNat value).toNat from
          value_concat _ _, hvalue, hlow]
      omega

/-- A number has the same bytes in a larger type. -/
theorem packBigEndianRev_of_le {size size' value : ℕ} (hsize : 0 < size) (hle : size ≤ size') (h : value < 256 ^ size) :
    packBigEndianRev size' value = packBigEndianRev size value := by
  induction size generalizing size' value with
  | zero => omega
  | succ size ih =>
    obtain ⟨size', rfl⟩ : ∃ m, size' = m + 1 := ⟨size' - 1, by omega⟩
    rw [packBigEndianRev, packBigEndianRev]
    split
    · rfl
    · next hne =>
      obtain ⟨hlt, hpos⟩ := div_lt h hne
      rw [ih hpos (by omega) hlt]

theorem getPackedBigEndian_lt (address : Bytes) : getPackedBigEndian address < 256 ^ address.length :=
  value_lt address

/-! ### The byte of the type -/

theorem typeByte : ∀ type ∈ [bitvT_Container, bitvT_IntegerPos, bitvT_IntegerNeg, bitvT_Decimal], ∀ n : Fin 8,
    (type ||| UInt8.ofNat n) &&& bitvT_Mask = type ∧ ((type ||| UInt8.ofNat n) &&& 0x07).toNat = n := by
  decide +kernel

theorem typeByte_packed (htype : type ∈ [bitvT_Container, bitvT_IntegerPos, bitvT_IntegerNeg, bitvT_Decimal])
    (hpos : 0 < packed.length) (hlen : packed.length ≤ 8) :
    (type ||| UInt8.ofNat (packed.length - 1)) &&& bitvT_Mask = type ∧
      ((type ||| UInt8.ofNat (packed.length - 1)) &&& 0x07).toNat + 1 = packed.length := by
  obtain ⟨hmask, hcount⟩ := typeByte type htype ⟨packed.length - 1, by omega⟩
  refine ⟨hmask, ?_⟩
  rw [hcount]
  exact Nat.sub_add_cancel hpos

theorem scaleByte : ∀ (scale : Fin 32) (isNeg : Bool) (hi : Fin 4),
    let second : UInt8 := UInt8.ofNat hi ||| (UInt8.ofNat (scale * 8) ||| if isNeg then (0x04 : UInt8) else 0)
    (second >>> 3).toNat = scale ∧ (second &&& 0x04 ≠ 0 ↔ isNeg = true) ∧ (second &&& 0x03).toNat = hi := by
  decide

theorem hi_of_mask {hi : UInt8} (h : hi &&& 0xfc = 0) : hi.toNat < 4 := by
  have hall : ∀ n : Fin 256, UInt8.ofNat n &&& 0xfc = 0 → (n : ℕ) < 4 := by decide +kernel
  have hn := hall ⟨hi.toNat, hi.toNat_lt⟩
  rw [show UInt8.ofNat (Fin.val ⟨hi.toNat, hi.toNat_lt⟩) = hi from UInt8.ofNat_toNat] at hn
  exact hn h

theorem sizeByte : ∀ (n : Fin 4) (m : Bool),
    let type : UInt8 := (if m then (1 : UInt8) else 0) ||| (bitvT_ByteArray ||| (UInt8.ofNat n <<< 1))
    type &&& 0x80 ≠ 0 ∧ type ≠ bitvV_ByteArrayEmpty ∧ type &&& bitvT_Mask = bitvT_ByteArray ∧
      ((type >>> 1) &&& 0x03).toNat = n ∧ (type &&& 0x01 ≠ 0 ↔ m = true) := by
  decide

/-! ### Booleans and characters -/

theorem peek1_cons {s : Bytes} (h : Holds q (first :: s)) : peek1 q = some first :=
  peek1_eq h

theorem peek1_nil (h : Holds q []) : peek1 q = none := peek1_eq h

/-- What is cut off of one byte is nothing. -/
theorem waits_one {bitvTo : Q → Except BitvError (α × Q)}
    (h : ∀ q, Holds q [] → ∃ what, bitvTo q = .error (.needsMore what)) (b : UInt8) : Waits Q bitvTo [b] := by
  intro q s hs hne hholds
  rcases prefix_cases hs hne with rfl | ⟨s', rfl, hlt⟩
  · exact h q hholds
  · exact absurd hlt (Nat.not_lt_zero _)

theorem bool_reads (v : Bool) : Reads Q bitvToBool (boolToBitv v).text v := by
  intro q rest h
  have hpop : Holds (popConsumed q 1) rest := popConsumed_append h
  have hpeek : peek1 q = some (if v then bitvV_BoolTrue else bitvV_BoolFalse) := peek1_cons h
  refine ⟨_, ?_, hpop⟩
  rw [bitvToBool, hpeek]
  cases v with
  | true => rfl
  | false => rfl

theorem bool_waits (v : Bool) : Waits Q bitvToBool (boolToBitv v).text := by
  refine waits_one (fun q h => ⟨"BitvToBool: needs more", ?_⟩) _
  rw [bitvToBool, peek1_nil h]

theorem char_reads (v : UInt8) : Reads Q bitvToChar (charToBitv v).text v := by
  intro q rest h
  rw [charToBitv] at h
  split at h
  · next hzero =>
    have hpop : Holds (popConsumed q 1) rest := popConsumed_append h
    refine ⟨_, ?_, hpop⟩
    rw [bitvToChar, peek1_cons h, hzero]
    rfl
  · have hpop : Holds (popConsumed q 2) rest := popConsumed_append h
    have hpeek : peek q 2 = some [0, v] := peek_append h (cons_ne_nil _ _)
    refine ⟨_, ?_, hpop⟩
    rw [bitvToChar, peek1_cons h, hpeek]
    rfl

theorem char_waits (v : UInt8) : Waits Q bitvToChar (charToBitv v).text := by
  have hnil : ∀ q : Q, Holds q [] → bitvToChar q = .error (.needsMore "BitvToChar: needs more") := by
    intro q h
    rw [bitvToChar, peek1_nil h]
  rw [charToBitv]
  split
  · exact waits_one (fun q h => ⟨_, hnil q h⟩) _
  · intro q s hs hne h
    rcases prefix_cases hs hne with rfl | ⟨s', rfl, hlt⟩
    · exact ⟨_, hnil q h⟩
    · have hshort : peek q 2 = none := peek_short h (Nat.succ_lt_succ hlt)
      refine ⟨"BitvToChar: needs more", ?_⟩
      rw [bitvToChar, peek1_cons h, hshort]
      rfl

/-! ### Integers -/

section Int

variable {t : IntType} (pos zero null : UInt8) (nullValue : t.Val) {packed : Bytes}

section

variable (htype : type ∈ [bitvT_Container, bitvT_IntegerPos, bitvT_IntegerNeg, bitvT_Decimal])
  (hkind : type = pos ∨ type = bitvT_IntegerNeg ∧ t.isSigned = true) (hpos : 0 < packed.length)
  (hlen : packed.length ≤ t.size)
include htype hkind hpos hlen

/-- The bytes of a number and the byte of its type before them. -/
theorem intAux_number (h : Holds q ((type ||| UInt8.ofNat (packed.length - 1)) :: packed ++ rest)) :
    ∃ q', bitvToIntAux t pos zero null q nullValue =
      .ok (if type = bitvT_IntegerNeg then t.cast (-(t.cast (getPackedBigEndian packed)).1 - 1)
        else t.cast (getPackedBigEndian packed), q') ∧ Holds q' rest := by
  have hsize : t.size ≤ 8 := by cases t <;> decide
  obtain ⟨hmask, hcount⟩ := typeByte_packed htype hpos (by omega)
  have hpeek : peek q (packed.length + 1) =
      some ((type ||| UInt8.ofNat (packed.length - 1)) :: packed) := peek_append h (cons_ne_nil _ _)
  have hpop : Holds (popConsumed q (packed.length + 1)) rest := popConsumed_append h
  refine ⟨_, ?_, hpop⟩
  rw [bitvToIntAux, peek1_cons h]
  simp only [hmask, hcount, if_pos hlen, hpeek, drop_succ_cons, drop_zero]
  rcases hkind with rfl | ⟨rfl, hsigned⟩
  · rw [if_pos rfl]
  · simp only [if_pos hsigned, if_true, ite_self]

theorem intAux_waits :
    Waits Q (fun q => bitvToIntAux t pos zero null q nullValue)
      ((type ||| UInt8.ofNat (packed.length - 1)) :: packed) := by
  intro q s hs hne h
  have hsize : t.size ≤ 8 := by cases t <;> decide
  obtain ⟨hmask, hcount⟩ := typeByte_packed htype hpos (by omega)
  rcases prefix_cases hs hne with rfl | ⟨s', rfl, hlt⟩
  · refine ⟨"BitvToInt: needs more", ?_⟩
    show bitvToIntAux _ _ _ _ _ _ = _
    rw [bitvToIntAux, peek1_nil h]
  · have hshort : peek q (packed.length + 1) = none := peek_short h (Nat.succ_lt_succ hlt)
    refine ⟨"BitvToInt: needs more", ?_⟩
    show bitvToIntAux _ _ _ _ _ _ = _
    rw [bitvToIntAux, peek1_cons h]
    simp only [hmask, hcount, if_pos hlen, hshort]
    rcases hkind with rfl | ⟨rfl, hsigned⟩
    · rw [if_pos rfl]
    · simp only [if_pos hsigned, if_true, ite_self]

end

end Int

theorem complement_lt {v : ℤ} (hmin : t.min ≤ v) (hneg : v < 0) :
    t.isSigned = true ∧ complement v < 256 ^ t.size ∧ t.min ≤ (complement v : ℤ) ∧ (complement v : ℤ) ≤ t.max ∧
      (complement v : ℤ) = -v - 1 := by
  unfold complement
  cases t <;> simp only [IntType.min, IntType.max, isSigned, IntType.size] at hmin ⊢ <;>
    norm_num at hmin ⊢ <;> omega

theorem toNat_lt {v : ℤ} (hmax : v ≤ t.max) (hpos : 0 < v) :
    v.toNat < 256 ^ t.size ∧ (v.toNat : ℤ) = v := by
  cases t <;> simp only [IntType.max, isSigned, IntType.size] at hmax ⊢ <;> norm_num at hmax ⊢ <;> omega

theorem size_pos (t : IntType) : 0 < t.size := by cases t <;> decide

theorem int_reads (v nullValue : t.Val) :
    Reads Q (fun q => bitvToInt t q nullValue) (intToBitv t v.1).text v := by
  intro q rest h
  obtain ⟨v, hmin, hmax⟩ := v
  change Holds q ((intToBitv t v).text ++ rest) at h
  rw [intToBitv] at h
  split at h
  · next hzero =>
    have hpop : Holds (popConsumed q 1) rest := popConsumed_append h
    refine ⟨_, ?_, hpop⟩
    show bitvToIntAux _ _ _ _ _ _ = _
    rw [bitvToIntAux, peek1_cons h]
    have hv : t.cast 0 = ⟨v, hmin, hmax⟩ := by
      subst hzero
      exact cast_val ⟨0, hmin, hmax⟩
    rw [← hv]
    rfl
  · next hne =>
    split at h
    · next hpos =>
      obtain ⟨hlt, hnat⟩ := toNat_lt hmax hpos
      obtain ⟨hvalue, hpacked, hlen⟩ := packBigEndianRev_spec (size_pos t) hlt
      obtain ⟨q', hok, hrest⟩ := intAux_number bitvT_IntegerPos bitvV_Number0 bitvV_NumberNull nullValue
        (by decide) (.inl rfl) hpacked hlen h
      refine ⟨q', ?_, hrest⟩
      show bitvToIntAux _ _ _ _ _ _ = _
      rw [hok, if_neg (by decide), hvalue, hnat]
      exact congrArg (fun v => Except.ok (v, q')) (cast_val ⟨v, hmin, hmax⟩)
    · next hnot =>
      have hneg : v < 0 := by omega
      obtain ⟨hsigned, hlt, hcmin, hcmax, hcompl⟩ := complement_lt hmin hneg
      obtain ⟨hvalue, hpacked, hlen⟩ := packBigEndianRev_spec (size_pos t) hlt
      obtain ⟨q', hok, hrest⟩ := intAux_number bitvT_IntegerPos bitvV_Number0 bitvV_NumberNull nullValue
        (by decide) (.inr ⟨rfl, hsigned⟩) hpacked hlen h
      refine ⟨q', ?_, hrest⟩
      have hcast : (t.cast (complement v : ℤ)).1 = -v - 1 := by
        rw [← hcompl]
        exact wrap_of_mem ⟨hcmin, hcmax⟩
      show bitvToIntAux _ _ _ _ _ _ = _
      rw [hok, if_pos rfl, hvalue, hcast, show -(-v - 1) - 1 = v by omega]
      exact congrArg (fun v => Except.ok (v, q')) (cast_val ⟨v, hmin, hmax⟩)

/-- A `uint32_t` goes as a `uint64_t`. -/
theorem intToBitv_uint32 (v : uint32.Val) : (intToBitv .uint32 v.1).text = (intToBitv .uint64 v.1).text := by
  obtain ⟨v, hmin, hmax⟩ := v
  have hzero : 0 ≤ v := hmin
  have hlt : v < 2 ^ 32 := lt_of_le_sub_one hmax
  simp only [intToBitv]
  split_ifs with h0 hpos
  · rfl
  · have hpack : packBigEndianRev 8 v.toNat = packBigEndianRev 4 v.toNat :=
      packBigEndianRev_of_le (by decide) (by decide) (by omega)
    simp only [intToBitv_NoZero, IntType.size, hpack]
  · omega

theorem int_waits (v nullValue : t.Val) :
    Waits Q (fun q => bitvToInt t q nullValue) (intToBitv t v.1).text := by
  obtain ⟨v, hmin, hmax⟩ := v
  show Waits Q _ (intToBitv t v).text
  rw [intToBitv]
  split
  · refine waits_one (fun q h => ⟨"BitvToInt: needs more", ?_⟩) _
    show bitvToIntAux _ _ _ _ _ _ = _
    rw [bitvToIntAux, peek1_nil h]
  · next hne =>
    split
    · next hpos =>
      obtain ⟨-, hpacked, hlen⟩ := packBigEndianRev_spec (size_pos t) (toNat_lt hmax hpos).1
      exact intAux_waits _ _ _ _ (by decide) (.inl rfl) hpacked hlen
    · next hnot =>
      have hneg : v < 0 := by omega
      obtain ⟨hsigned, hlt, -⟩ := complement_lt hmin hneg
      obtain ⟨-, hpacked, hlen⟩ := packBigEndianRev_spec (size_pos t) hlt
      exact intAux_waits _ _ _ _ (by decide) (.inr ⟨rfl, hsigned⟩) hpacked hlen

/-! ### Numbers with decimal places -/

/-- The zeros that go are made up for by the scale. -/
theorem dropZero_spec (value : ℤ) (hvalue : value < 0 ∨ 0x400 ≤ value) (scale : ℕ) :
    ∃ k ≤ 1, scale + 1 = (dropZero value (scale + 1)).2 + k ∧
      value = (dropZero value (scale + 1)).1 * 10 ^ k ∧
      (0 < value → 10 ≤ (dropZero value (scale + 1)).1) := by
  unfold dropZero
  split
  · next hmod =>
    have hdiv := mul_tdiv_add_tmod value 10
    refine ⟨1, le_rfl, rfl, ?_, ?_⟩
    · show value = tdiv value 10 * 10 ^ 1
      omega
    · intro hpos
      show 10 ≤ tdiv value 10
      omega
  · exact ⟨0, Nat.zero_le _, rfl, by simp, fun hpos => by omega⟩

theorem bitvAdjustScale_spec (value : ℤ) (scale : ℕ) :
    ∃ k, scale = (bitvAdjustScale value scale).2 + k ∧ value = (bitvAdjustScale value scale).1 * 10 ^ k ∧
      (0 < value → 0 < k → 10 ≤ (bitvAdjustScale value scale).1) := by
  fun_induction bitvAdjustScale value scale with
  | case1 value => exact ⟨0, rfl, by simp, fun _ h => absurd h (lt_irrefl 0)⟩
  | case2 value hsmall => exact ⟨0, rfl, by simp, fun _ h => absurd h (lt_irrefl 0)⟩
  | case3 value hlarge =>
    obtain ⟨k, -, hscale, hvalue, hten⟩ := dropZero_spec value (by omega) 0
    exact ⟨k, hscale, hvalue, fun hpos _ => hten hpos⟩
  | case4 value scale hsmall => exact ⟨0, rfl, by simp, fun _ h => absurd h (lt_irrefl 0)⟩
  | case5 value scale hlarge hmod =>
    obtain ⟨k, -, hscale, hvalue, hten⟩ := dropZero_spec value (by omega) (scale + 1)
    exact ⟨k, hscale, hvalue, fun hpos _ => hten hpos⟩
  | case6 value scale hlarge hmod ih =>
    obtain ⟨k, hscale, hvalue, hten⟩ := ih
    have hdiv := mul_tdiv_add_tmod value 100
    have hmod' : tmod value 100 = 0 := by omega
    refine ⟨k + 2, by omega, ?_, ?_⟩
    · rw [pow_add, ← mul_assoc, ← hvalue]
      omega
    · intro hpos _
      have htdiv : 10 ≤ tdiv value 100 := by omega
      rcases Nat.eq_zero_or_pos k with rfl | hk
      · rw [pow_zero, mul_one] at hvalue
        omega
      · exact hten (by omega) hk

/-- The kind of a number that is not zero. -/
def numberOf (isNeg : Bool) (value scale : ℕ) : BitvNumR :=
  if isNeg then ⟨.neg, complement64 value, scale⟩ else ⟨.pos, value, scale⟩

theorem number_int (isNeg : Bool) (hpos : 0 < packed.length) (hlen : packed.length ≤ 8)
    (h : Holds q (((if isNeg then bitvT_IntegerNeg else bitvT_IntegerPos) ||| UInt8.ofNat (packed.length - 1)) :: packed ++ rest))
    :
    ∃ q', bitvToNumber q = .ok (numberOf isNeg (getPackedBigEndian packed) 0, q') ∧ Holds q' rest := by
  obtain ⟨hmask, hcount⟩ := @typeByte_packed (if isNeg then bitvT_IntegerNeg else bitvT_IntegerPos) packed
    (by cases isNeg <;> decide) hpos hlen
  have hpeek : peek q (packed.length + 1) = some _ := peek_append h (cons_ne_nil _ _)
  have hpop : Holds (popConsumed q (packed.length + 1)) rest := popConsumed_append h
  refine ⟨_, ?_, hpop⟩
  rw [bitvToNumber, peek1_cons h]
  simp only [hmask, hcount, hpeek, drop_succ_cons, drop_zero]
  cases isNeg with
  | true => rfl
  | false => rfl

/-- The scale comes in the second byte, with the first two bits of the value. -/
theorem number_dec_bytes (scale : Fin 32) (isNeg : Bool) (hi : Fin 4) (hpos : 0 < packed.length)
    (hlen : packed.length ≤ 8) (hlt : packed.foldl (fun num b => num * 256 + b.toNat) (hi : ℕ) < 2 ^ 64)
    (h : Holds q ((bitvT_Decimal ||| UInt8.ofNat (packed.length - 1)) :: (UInt8.ofNat hi ||| (UInt8.ofNat (scale * 8) ||| if isNeg then (0x04 : UInt8) else 0)) :: packed ++ rest))
    :
    ∃ q', bitvToNumber q =
      .ok (numberOf isNeg (packed.foldl (fun num b => num * 256 + b.toNat) (hi : ℕ)) scale, q') ∧
      Holds q' rest := by
  obtain ⟨hmask, hcount⟩ := @typeByte_packed bitvT_Decimal packed (by decide) hpos hlen
  obtain ⟨hscale, hneg, hhi⟩ := scaleByte scale isNeg hi
  have hpeek : peek q (packed.length + 2) = some _ := peek_append h (cons_ne_nil _ _)
  have hpop : Holds (popConsumed q (packed.length + 2)) rest := popConsumed_append h
  have hdecimal : ¬ (bitvT_Decimal = bitvT_IntegerPos ∨ bitvT_Decimal = bitvT_IntegerNeg) := by decide
  refine ⟨_, ?_, hpop⟩
  rw [bitvToNumber, peek1_cons h]
  simp only [hmask, hcount, hpeek, if_neg hdecimal, if_true, drop_succ_cons, drop_zero,
    getD_cons_succ, getD_cons_zero, hscale, hhi, Nat.mod_eq_of_lt hlt]
  rw [numberOf]
  cases isNeg with
  | true => rw [if_pos (hneg.mpr rfl), if_pos rfl]
  | false => rw [if_neg fun hne => Bool.false_ne_true (hneg.mp hne), if_neg Bool.false_ne_true]

/-- The bytes that `DecToBitv` puts. -/
theorem decToBitvAux_bytes {value : ℕ} (hvalue : value < 2 ^ 64) (scale : ℕ) (isNeg : Bool) :
    ∃ (hi : Fin 4) (packed : Bytes), (decToBitvAux value scale isNeg).text =
        (bitvT_Decimal ||| UInt8.ofNat (packed.length - 1)) ::
          (UInt8.ofNat hi ||| (UInt8.ofNat (scale * 8) ||| if isNeg then (0x04 : UInt8) else 0)) :: packed ∧
      0 < packed.length ∧ packed.length ≤ 8 ∧
      packed.foldl (fun num b => num * 256 + b.toNat) (hi : ℕ) = value := by
  obtain ⟨hpacked, hpos, hlen⟩ := @packBigEndianRev_spec 8 value (by decide) hvalue
  have hzero : ∀ b : UInt8, (0 : UInt8) ||| b = b := fun b => UInt8.zero_or
  rw [decToBitvAux]
  cases hpack : packBigEndianRev 8 value with
  | nil => rw [hpack] at hpos; exact absurd hpos (lt_irrefl 0)
  | cons hi tail =>
    rw [hpack] at hpacked hlen
    cases tail with
    | nil => exact ⟨0, [hi], by simp [hzero], Nat.one_pos, Nat.succ_le_succ (Nat.zero_le _), hpacked⟩
    | cons next tail =>
      dsimp only
      split
      · next hmask =>
        have hlt := hi_of_mask hmask
        refine ⟨⟨hi.toNat, hlt⟩, next :: tail, ?_, Nat.succ_pos _, ?_, ?_⟩
        · simp [UInt8.ofNat_toNat]
        · rw [length_cons] at hlen
          omega
        · rw [← hpacked, getPackedBigEndian, foldl_cons]
          simp
      · exact ⟨0, hi :: next :: tail, by simp [hzero], Nat.succ_pos _, hlen, hpacked⟩

/-- At most eighteen zeros go. -/
theorem dropped_le {value value' : ℤ} {k : ℕ} (hmin : -2 ^ 63 ≤ value) (hmax : value < 2 ^ 64)
    (hne : value ≠ 0) (heq : value = value' * 10 ^ k) (hten : 0 < value → 0 < k → 10 ≤ value') : k ≤ 18 := by
  have hpow : (0 : ℤ) < 10 ^ k := by positivity
  have hle19 : 0 < k → (10 : ℤ) ^ k ≤ 2 ^ 63 := by
    intro hk
    rcases lt_or_gt_of_ne hne with hneg | hpos
    · have hvalue' : value' ≤ -1 := by
        by_contra hnot
        have := mul_nonneg (by omega : 0 ≤ value') hpow.le
        omega
      have := mul_le_mul_of_nonneg_right hvalue' hpow.le
      omega
    · have := mul_le_mul_of_nonneg_right (hten hpos hk) hpow.le
      omega
  by_contra hnot
  have hk : 19 ≤ k := by omega
  have hbig : (10 : ℤ) ^ 19 ≤ 10 ^ k := pow_le_pow_right₀ (by norm_num) hk
  have := hle19 (by omega)
  norm_num at hbig
  omega

theorem adjustDecScale_spec {maxType : IntType} {value value' : ℤ} {k srcScale : ℕ}
    (hmem : maxType.min ≤ value ∧ value ≤ maxType.max) (heq : value = value' * 10 ^ k) (hk : k ≤ 18) :
    adjustDecScale maxType value' srcScale (srcScale + k) = .ok value := by
  rw [adjustDecScale]
  rcases Nat.eq_zero_or_pos k with rfl | hpos
  · rw [add_zero, if_pos rfl, heq, pow_zero, mul_one]
  · rw [if_neg (by omega), if_neg (by omega), Nat.add_sub_cancel_left, getDecDivisor, if_pos (show k ≤ decScaleMax from hk)]
    show Except.ok (maxType.wrap (value' * ((10 ^ k : ℕ) : ℤ))) = .ok value
    rw [Nat.cast_pow, Nat.cast_ofNat, ← heq, wrap_of_mem hmem]

theorem mem_int64 {v : ℤ} (hmin : t.min ≤ v) (hmax : v ≤ t.max) :
    -2 ^ 63 ≤ v ∧ v < 2 ^ 64 ∧ (v < 0 → t.isSigned = true) := by
  cases t <;> simp only [IntType.min, IntType.max, isSigned, IntType.size] at hmin hmax ⊢ <;>
    norm_num at hmin hmax ⊢ <;> omega

/-- A number with zeros left out, back in its type. -/
theorem bitvToDec_number {q' : Q} {v value' : ℤ} {k srcScale : ℕ} (hmin : t.min ≤ v) (hmax : v ≤ t.max) (hne : v ≠ 0)
    (heq : v = value' * 10 ^ k) (hten : 0 < v → 0 < k → 10 ≤ value')
    (hnumber : bitvToNumber q = .ok (numberOf (value' < 0) (if value' < 0 then complement value' else value'.toNat) srcScale, q'))
    :
    bitvToDec t (srcScale + k) q = .ok (⟨v, hmin, hmax⟩, q') := by
  obtain ⟨hmin64, hmax64, hsigned⟩ := mem_int64 hmin hmax
  have hk := dropped_le hmin64 hmax64 hne heq hten
  have hpow : (0 : ℤ) < 10 ^ k := by positivity
  have hcast : t.cast v = ⟨v, hmin, hmax⟩ := cast_val ⟨v, hmin, hmax⟩
  rw [bitvToDec, hnumber]
  by_cases hneg : value' < 0
  · have hv : v < 0 := by
      rw [heq]
      exact mul_neg_of_neg_of_pos hneg hpow
    have hle : v ≤ value' := by
      rw [heq]
      have := mul_le_mul_of_nonpos_left (by omega : 1 ≤ (10 : ℤ) ^ k) hneg.le
      omega
    have hnum : wrap .int64 ((complement64 (complement value') : ℕ) : ℤ) = value' := by
      have hcompl : ((complement64 (complement value') : ℕ) : ℤ) = 2 ^ 64 + value' := by
        unfold complement64 complement
        omega
      rw [hcompl]
      simp only [wrap, isSigned, IntType.size]
      norm_num
      omega
    have hadjust := @adjustDecScale_spec .int64 v value' k srcScale
      (by simp only [IntType.min, IntType.max, isSigned, IntType.size]; norm_num; omega) heq hk
    simp only [numberOf, hneg, decide_true, if_true, bind, Except.bind, hsigned hv, Bool.true_eq_false,
      if_false, hnum, hadjust, pure, Except.pure, hcast]
  · have hadjust := @adjustDecScale_spec .uint64 v value' k srcScale (by
      have := mul_nonneg (by omega : 0 ≤ value') hpow.le
      simp only [IntType.min, IntType.max, isSigned, IntType.size]
      norm_num
      omega) heq hk
    have hnum : ((value'.toNat : ℕ) : ℤ) = value' := toNat_of_nonneg (by omega)
    simp only [numberOf, hneg, decide_false, Bool.false_eq_true, if_false, bind, Except.bind, hnum, hadjust,
      pure, Except.pure, hcast]

/-- Without its zeros a number is no larger. -/
theorem dropped_mem {value value' : ℤ} {k : ℕ} (hmin : -2 ^ 63 ≤ value) (hmax : value < 2 ^ 64)
    (heq : value = value' * 10 ^ k) : -2 ^ 63 ≤ value' ∧ value' < 2 ^ 64 := by
  have hpow : (1 : ℤ) ≤ 10 ^ k := by
    have : (0 : ℤ) < 10 ^ k := by positivity
    omega
  rcases lt_or_ge value' 0 with hneg | hpos
  · have := mul_le_mul_of_nonpos_left hpow hneg.le
    omega
  · have := mul_le_mul_of_nonneg_left hpow hpos
    omega

theorem dec_number {value' : ℤ} (hmin : -2 ^ 63 ≤ value') (hmax : value' < 2 ^ 64) (scale' : Fin 32)
    (h : Holds q ((if (scale' : ℕ) = 0 then
      if value' < 0 then intToBitv_NoZero 8 (complement value') bitvT_IntegerNeg
      else intToBitv_NoZero 8 value'.toNat bitvT_IntegerPos
    else if value' < 0 then decToBitvAux (complement value') scale' true
    else decToBitvAux value'.toNat scale' false).text ++ rest)) :
    ∃ q', bitvToNumber q = .ok (numberOf (value' < 0)
      (if value' < 0 then complement value' else value'.toNat) scale', q') ∧ Holds q' rest := by
  have hlt : (if value' < 0 then complement value' else value'.toNat) < 2 ^ 64 := by
    unfold complement
    split <;> omega
  generalize hvalue : (if value' < 0 then complement value' else value'.toNat) = value at hlt
  have hputs : (if (scale' : ℕ) = 0 then
      if value' < 0 then intToBitv_NoZero 8 (complement value') bitvT_IntegerNeg
      else intToBitv_NoZero 8 value'.toNat bitvT_IntegerPos
    else if value' < 0 then decToBitvAux (complement value') scale' true
    else decToBitvAux value'.toNat scale' false) =
      if (scale' : ℕ) = 0 then
        intToBitv_NoZero 8 value (if decide (value' < 0) = true then bitvT_IntegerNeg else bitvT_IntegerPos)
      else decToBitvAux value scale' (value' < 0) := by
    by_cases hneg : value' < 0 <;> simp [hneg, ← hvalue]
  rw [hputs] at h
  by_cases hzero : (scale' : ℕ) = 0
  · rw [if_pos hzero] at h
    obtain ⟨hpacked, hpos, hlen⟩ := @packBigEndianRev_spec 8 value (by decide) hlt
    obtain ⟨q', hok, hrest⟩ := number_int (value' < 0) hpos hlen h
    rw [hpacked] at hok
    rw [hzero]
    exact ⟨q', hok, hrest⟩
  · rw [if_neg hzero] at h
    obtain ⟨hi, packed, htext, hpos, hlen, hfold⟩ := decToBitvAux_bytes hlt scale' (value' < 0)
    rw [htext] at h
    obtain ⟨q', hok, hrest⟩ := number_dec_bytes scale' (value' < 0) hi hpos hlen (by rw [hfold]; exact hlt) h
    rw [hfold] at hok
    exact ⟨q', hok, hrest⟩

theorem decimal_reads (scale : Fin 32) (v : t.Val) :
    Reads Q (bitvToDec t scale) (decimalToBitv t scale v.1).text v := by
  intro q rest h
  obtain ⟨v, hmin, hmax⟩ := v
  change Holds q ((decimalToBitv t scale v).text ++ rest) at h
  rw [decimalToBitv] at h
  split at h
  · next hnull =>
    have hpop : Holds (popConsumed q 1) rest := popConsumed_append h
    refine ⟨_, ?_, hpop⟩
    have hv : t.cast (origNull t) = ⟨v, hmin, hmax⟩ := by
      rw [← hnull]
      exact cast_val ⟨v, hmin, hmax⟩
    rw [bitvToDec, bitvToNumber, peek1_cons h, ← hv]
    rfl
  · rw [decToBitv] at h
    split at h
    · next hzero =>
      have hpop : Holds (popConsumed q 1) rest := popConsumed_append h
      refine ⟨_, ?_, hpop⟩
      have hv : t.cast 0 = ⟨v, hmin, hmax⟩ := by
        subst hzero
        exact cast_val ⟨0, hmin, hmax⟩
      rw [bitvToDec, bitvToNumber, peek1_cons h, ← hv]
      rfl
    · next hne =>
      obtain ⟨k, hscale, heq, hten⟩ := bitvAdjustScale_spec v scale
      rcases hadjust : bitvAdjustScale v scale with ⟨value', scale'⟩
      rw [hadjust] at h hscale heq hten
      dsimp only at h hscale heq hten
      obtain ⟨hmin64, hmax64, -⟩ := mem_int64 hmin hmax
      have hbounds := dropped_mem hmin64 hmax64 heq
      have hlt : scale' < 32 := by omega
      obtain ⟨q', hok, hrest⟩ := dec_number hbounds.1 hbounds.2 ⟨scale', hlt⟩ h
      refine ⟨q', ?_, hrest⟩
      rw [hscale]
      exact bitvToDec_number hmin hmax hne heq hten hok

/-! ### Numbers that are cut off -/

theorem number_waits_nil (h : Holds q []) : bitvToNumber q = .error (.needsMore "BitvToNumber: needs more") := by
  rw [bitvToNumber, peek1_nil h]

theorem number_waits_int (htype : type = bitvT_IntegerPos ∨ type = bitvT_IntegerNeg) (hpos : 0 < packed.length)
    (hlen : packed.length ≤ 8) :
    Waits Q bitvToNumber ((type ||| UInt8.ofNat (packed.length - 1)) :: packed) := by
  intro q s hs hne h
  obtain ⟨hmask, hcount⟩ := @typeByte_packed type packed (by rcases htype with rfl | rfl <;> decide) hpos hlen
  rcases prefix_cases hs hne with rfl | ⟨s', rfl, hlt⟩
  · exact ⟨_, number_waits_nil h⟩
  · have hshort : peek q (packed.length + 1) = none := peek_short h (Nat.succ_lt_succ hlt)
    refine ⟨"BitvToInteger: needs more", ?_⟩
    rw [bitvToNumber, peek1_cons h]
    simp only [hmask, hcount, hshort, if_pos htype]

theorem number_waits_dec (second : UInt8) (hpos : 0 < packed.length) (hlen : packed.length ≤ 8) :
    Waits Q bitvToNumber ((bitvT_Decimal ||| UInt8.ofNat (packed.length - 1)) :: second :: packed) := by
  intro q s hs hne h
  obtain ⟨hmask, hcount⟩ := @typeByte_packed bitvT_Decimal packed (by decide) hpos hlen
  have hdecimal : ¬ (bitvT_Decimal = bitvT_IntegerPos ∨ bitvT_Decimal = bitvT_IntegerNeg) := by decide
  rcases prefix_cases hs hne with rfl | ⟨s', rfl, hlt⟩
  · exact ⟨_, number_waits_nil h⟩
  · have hshort : peek q (packed.length + 2) = none := peek_short h (Nat.succ_lt_succ hlt)
    refine ⟨"BitvToDecimal: needs more", ?_⟩
    rw [bitvToNumber, peek1_cons h]
    simp only [hmask, hcount, hshort, if_neg hdecimal, if_true]

/-- The bytes of a number: a byte for zero, or a type with as many bytes as it says. -/
theorem decToBitv_bytes (hmin : -2 ^ 63 ≤ value) (hmax : value < 2 ^ 64) (scale : ℕ) :
    (decToBitv value scale).text = [bitvV_Number0] ∨
      ∃ packed : Bytes, 0 < packed.length ∧ packed.length ≤ 8 ∧
        ((∃ type, (type = bitvT_IntegerPos ∨ type = bitvT_IntegerNeg) ∧
            (decToBitv value scale).text = (type ||| UInt8.ofNat (packed.length - 1)) :: packed) ∨
          ∃ second, (decToBitv value scale).text =
            (bitvT_Decimal ||| UInt8.ofNat (packed.length - 1)) :: second :: packed) := by
  rw [decToBitv]
  split
  · exact .inl rfl
  · obtain ⟨k, -, heq, -⟩ := bitvAdjustScale_spec value scale
    rcases hadjust : bitvAdjustScale value scale with ⟨value', scale'⟩
    rw [hadjust] at heq
    dsimp only at heq ⊢
    obtain ⟨hmin', hmax'⟩ := dropped_mem hmin hmax heq
    have hneg : complement value' < 2 ^ 64 := by
      unfold complement
      omega
    have hnat : value'.toNat < 2 ^ 64 := by omega
    right
    split
    · split
      · obtain ⟨-, hpos, hlen⟩ := @packBigEndianRev_spec 8 _ (by decide) hneg
        exact ⟨_, hpos, hlen, .inl ⟨_, .inr rfl, rfl⟩⟩
      · obtain ⟨-, hpos, hlen⟩ := @packBigEndianRev_spec 8 _ (by decide) hnat
        exact ⟨_, hpos, hlen, .inl ⟨_, .inl rfl, rfl⟩⟩
    · split
      · obtain ⟨hi, packed, htext, hpos, hlen, -⟩ := decToBitvAux_bytes hneg scale' true
        exact ⟨packed, hpos, hlen, .inr ⟨_, htext⟩⟩
      · obtain ⟨hi, packed, htext, hpos, hlen, -⟩ := decToBitvAux_bytes hnat scale' false
        exact ⟨packed, hpos, hlen, .inr ⟨_, htext⟩⟩

theorem decToBitv_waits (hmin : -2 ^ 63 ≤ value) (hmax : value < 2 ^ 64) (scale : ℕ) :
    Waits Q bitvToNumber (decToBitv value scale).text := by
  rcases decToBitv_bytes hmin hmax scale with htext | ⟨packed, hpos, hlen, ⟨type, htype, htext⟩ | ⟨second, htext⟩⟩
  · rw [htext]
    exact waits_one (fun _ h => ⟨_, number_waits_nil h⟩) _
  · rw [htext]
    exact number_waits_int htype hpos hlen
  · rw [htext]
    exact number_waits_dec second hpos hlen

theorem bitvToDec_waits {scale : ℕ} {bytes : Bytes} (h : Waits Q bitvToNumber bytes) :
    Waits Q (bitvToDec t scale) bytes := by
  intro q s hs hne hholds
  obtain ⟨what, hwhat⟩ := h q s hs hne hholds
  exact ⟨what, by rw [bitvToDec, hwhat]; rfl⟩

theorem decimal_waits (scale : ℕ) (v : t.Val) :
    Waits Q (bitvToDec t scale) (decimalToBitv t scale v.1).text := by
  obtain ⟨v, hmin, hmax⟩ := v
  obtain ⟨hmin64, hmax64, -⟩ := mem_int64 hmin hmax
  show Waits Q _ (decimalToBitv t scale v).text
  rw [decimalToBitv]
  split
  · exact bitvToDec_waits (waits_one (fun _ h => ⟨_, number_waits_nil h⟩) _)
  · exact bitvToDec_waits (decToBitv_waits hmin64 hmax64 scale)

/-! ### Time stamps -/

theorem toBitvFixedRev_eq {len : ℕ} (hpos : 0 ≤ value) :
    toBitvFixedRev len value = bytes len value.toNat := by
  induction len generalizing value with
  | zero => rfl
  | succ len ih =>
    have hdiv : (value / 256).toNat = value.toNat / 256 := by omega
    have hmod : (value % 256).toNat = value.toNat % 256 := by omega
    rw [toBitvFixedRev, bytes, ih (by omega), hdiv, hmod]

theorem type_ne_timeStamp (n : ℕ) (hn : n < 8) (htype : type ∈ [bitvT_IntegerPos, bitvT_IntegerNeg, bitvT_Decimal]) :
    type ||| UInt8.ofNat n ≠ bitvT_TimeStamp_Orig7 := by
  intro heq
  obtain ⟨hmask, -⟩ := typeByte type (mem_cons_of_mem _ htype) ⟨n, hn⟩
  simp only [heq] at hmask
  rw [← hmask] at htype
  revert htype
  decide

/-- A number does not begin like a time stamp. -/
theorem decToBitv_first (hmin : -2 ^ 63 ≤ value) (hmax : value < 2 ^ 64) (scale : ℕ) :
    ∃ first s, (decToBitv value scale).text = first :: s ∧ first ≠ bitvT_TimeStamp_Orig7 := by
  rcases decToBitv_bytes hmin hmax scale with htext | ⟨packed, hpos, hlen, ⟨type, htype, htext⟩ | ⟨second, htext⟩⟩
  · exact ⟨_, _, htext, by decide⟩
  · refine ⟨_, _, htext, type_ne_timeStamp _ (by omega) ?_⟩
    rcases htype with rfl | rfl
    · decide
    · decide
  · exact ⟨_, _, htext, type_ne_timeStamp _ (by omega) (by decide)⟩

/-- A time stamp goes as a decimal, or as seven bytes. -/
theorem timeStampToBitv_cases (v : int64.Val) :
    (timeStampToBitv v.1 = decimalToBitv .int64 timeStampScale v.1 ∧
      ∃ first s, (timeStampToBitv v.1).text = first :: s ∧ first ≠ bitvT_TimeStamp_Orig7) ∨
    ∃ n : ℕ, v.1 = n ∧ n < 256 ^ 7 ∧ (timeStampToBitv v.1).text = bitvT_TimeStamp_Orig7 :: bytes 7 n := by
  obtain ⟨v, hmin, hmax⟩ := v
  obtain ⟨hmin64, hmax64, -⟩ := mem_int64 hmin hmax
  show (timeStampToBitv v = _ ∧ ∃ first s, (timeStampToBitv v).text = _ ∧ _) ∨
    ∃ n : ℕ, v = n ∧ _ ∧ (timeStampToBitv v).text = _
  rw [timeStampToBitv, decimalToBitv]
  split
  · exact .inl ⟨rfl, _, _, rfl, by decide⟩
  · dsimp only
    split
    · exact .inl ⟨rfl, decToBitv_first hmin64 hmax64 _⟩
    · next hhi =>
      have hmax' : v < 2 ^ 63 := by
        simp only [IntType.max, isSigned, IntType.size] at hmax
        norm_num at hmax
        omega
      have hpos : 0 ≤ v := by omega
      refine .inr ⟨v.toNat, (toNat_of_nonneg hpos).symm, by omega, ?_⟩
      rw [toBitvFixedRev_eq hpos]
      rfl

theorem timeStamp_decimal {s : Bytes} (h : Holds q (first :: s)) (hne : first ≠ bitvT_TimeStamp_Orig7)
    : bitvToTimeStamp q = bitvToDec .int64 timeStampScale q := by
  rw [bitvToTimeStamp, peek1_cons h, if_neg fun heq => hne (Option.some.inj heq)]

theorem timeStamp_reads (v : int64.Val) :
    Reads Q bitvToTimeStamp (timeStampToBitv v.1).text v := by
  intro q rest h
  rcases timeStampToBitv_cases v with ⟨heq, first, s, htext, hne⟩ | ⟨n, hv, hlt, htext⟩
  · rw [htext] at h
    rw [timeStamp_decimal h hne]
    rw [← htext, heq] at h
    exact decimal_reads ⟨timeStampScale, by decide⟩ v q rest h
  · rw [htext] at h
    have hpeek : peek q 8 = some (bitvT_TimeStamp_Orig7 :: bytes 7 n) :=
      peek_append h (cons_ne_nil _ _)
    have hpop : Holds (popConsumed q 8) rest := popConsumed_append h
    have hcast : int64.cast (n : ℤ) = v := by
      rw [← hv]
      exact cast_val v
    have hvalue : getPackedBigEndian (bytes 7 n) = n := value_bytes hlt
    refine ⟨_, ?_, hpop⟩
    rw [bitvToTimeStamp, peek1_cons h, if_pos rfl]
    simp only [kBitvTimeStampOrigSize, hpeek, drop_succ_cons, drop_zero, hvalue, hcast]

theorem timeStamp_waits (v : int64.Val) : Waits Q bitvToTimeStamp (timeStampToBitv v.1).text := by
  intro q s hs hne h
  rcases timeStampToBitv_cases v with ⟨heq, first, tail, htext, hfirst⟩ | ⟨n, hv, hlt, htext⟩
  · have hdecimal : bitvToTimeStamp q = bitvToDec .int64 timeStampScale q := by
      rw [htext] at hs hne
      rcases prefix_cases hs hne with rfl | ⟨s', rfl, -⟩
      · rw [bitvToTimeStamp, peek1_nil h]
        rfl
      · exact timeStamp_decimal h hfirst
    rw [hdecimal]
    rw [heq] at hs hne
    exact decimal_waits timeStampScale v q s hs hne h
  · rw [htext] at hs hne
    rcases prefix_cases hs hne with rfl | ⟨s', rfl, hshort⟩
    · refine ⟨"BitvToNumber: needs more", ?_⟩
      rw [bitvToTimeStamp, peek1_nil h, if_neg (by decide), bitvToDec, number_waits_nil h]
      rfl
    · rw [length_bytes] at hshort
      have hnone : peek q 8 = none := peek_short h (Nat.succ_lt_succ hshort)
      refine ⟨"BitvTo(TimeStamp): needs more", ?_⟩
      rw [bitvToTimeStamp, peek1_cons h, if_pos rfl]
      simp only [kBitvTimeStampOrigSize, hnone]

end Fon9.Bitv
