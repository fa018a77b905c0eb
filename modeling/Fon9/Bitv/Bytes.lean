import Fon9.Bitv.Scalar

/-! Bytes with their number before them. -/

namespace Fon9.Bitv

open Buffer Lib List Nat DcQueue

variable {Q : Type} [LawfulDcQueue Q] {q : Q} {rest data : Bytes}

theorem smallByte {n : ℕ} (hn : n < 0x80) : UInt8.ofNat n &&& 0x80 = 0 ∧ (UInt8.ofNat n).toNat = n := by
  have hall : ∀ n : Fin 0x80, UInt8.ofNat n &&& 0x80 = 0 ∧ (UInt8.ofNat n).toNat = n := by decide +kernel
  exact hall ⟨n, hn⟩

/-- The bytes of a size above 0x80: a type with the bit `m`, and as many bytes as it says. -/
theorem aboveX80_bytes {n : ℕ} (hlow : 0x80 < n) (hhigh : n < 2 ^ 32) :
    ∃ (m : Bool) (packed : Bytes), 0 < packed.length ∧ packed.length ≤ 4 ∧
      byteArraySizeToBitvT_AboveX80 n = ((if m then (1 : UInt8) else 0) |||
        (bitvT_ByteArray ||| (UInt8.ofNat (packed.length - 1) <<< 1))) :: packed ∧
      (if m then getPackedBigEndian packed ||| 2 ^ (packed.length * 8) else getPackedBigEndian packed) +
        0x80 + 1 = n := by
  obtain ⟨hvalue, hpos, hlen⟩ := @packBigEndianRev_spec 4 (n - 0x80 - 1) (by decide) (by omega)
  have hzero : ∀ b : UInt8, (0 : UInt8) ||| b = b := fun b => UInt8.zero_or
  rw [byteArraySizeToBitvT_AboveX80]
  cases hpack : packBigEndianRev 4 (n - 0x80 - 1) with
  | nil =>
    rw [hpack] at hpos
    exact absurd hpos (lt_irrefl 0)
  | cons hi tail =>
    rw [hpack] at hvalue hlen
    cases tail with
    | nil => exact ⟨false, [hi], Nat.one_pos, succ_le_succ (Nat.zero_le _), by simp [hzero], by simp; omega⟩
    | cons next tail =>
      dsimp only
      split
      · next hone =>
        subst hone
        have hlt := getPackedBigEndian_lt (next :: tail)
        have hsplit : getPackedBigEndian (1 :: next :: tail) =
            1 * 256 ^ (next :: tail).length + getPackedBigEndian (next :: tail) :=
          BigEndian.value_append [1] (next :: tail)
        have hpow : (256 : ℕ) ^ (next :: tail).length = 2 ^ ((next :: tail).length * 8) := by
          rw [mul_comm, pow_mul]
          norm_num
        have hor : getPackedBigEndian (next :: tail) ||| 2 ^ ((next :: tail).length * 8) =
            getPackedBigEndian (next :: tail) + 2 ^ ((next :: tail).length * 8) := by
          rw [hpow] at hlt
          have := two_pow_add_eq_or_of_lt hlt 1
          rw [mul_one] at this
          rw [Nat.or_comm, ← this, add_comm]
        refine ⟨true, next :: tail, succ_pos _, ?_, rfl, ?_⟩
        · rw [length_cons] at hlen
          omega
        · rw [if_pos rfl, hor]
          omega
      · exact ⟨false, hi :: next :: tail, succ_pos _, hlen, by simp [hzero], by simp; omega⟩

/-- How it is read back. -/
theorem aboveX80_reads {n : ℕ} (hlow : 0x80 < n) (hmax : n ≤ kBitvMaxByteArraySize) :
    ∃ (b : UInt8) (packed : Bytes), byteArraySizeToBitvT_AboveX80 n = b :: packed ∧ ¬ b &&& 0x80 = 0 ∧
      ¬ b = bitvV_ByteArrayEmpty ∧ b &&& bitvT_Mask = bitvT_ByteArray ∧ ((b >>> 1) &&& 0x03).toNat + 1 = packed.length ∧
      (if ¬ b &&& 0x01 = 0 then getPackedBigEndian packed ||| 2 ^ (packed.length * 8) else getPackedBigEndian packed) +
        0x80 + 1 = n := by
  obtain ⟨m, packed, hplen, hplen', htext, hsize⟩ := aboveX80_bytes hlow (by
    unfold kBitvMaxByteArraySize at hmax
    omega)
  obtain ⟨hmsb, hempty, hmask, hcount, hm⟩ := sizeByte ⟨packed.length - 1, by omega⟩ m
  refine ⟨_, packed, htext, hmsb, hempty, hmask, ?_, ?_⟩
  · rw [hcount]
    exact Nat.sub_add_cancel hplen
  · rw [if_congr hm rfl rfl, hsize]

theorem popSize_reads (hpos : 0 < data.length) (hmax : data.length ≤ kBitvMaxByteArraySize)
    (h : Holds q (byteArraySizeToBitvT_NoEmpty data.length ++ data ++ rest)) :
    ∃ q', popBitvByteArraySize q = .ok (some (data.length, q')) ∧ Holds q' (data ++ rest) := by
  rw [append_assoc] at h
  rw [byteArraySizeToBitvT_NoEmpty] at h
  split at h
  · next hle =>
    obtain ⟨hmask, hnat⟩ := @smallByte (data.length - 1) (by omega)
    have henough : isSizeEnough q (data.length + 1) = true := by
      rw [isSizeEnough_eq h, decide_eq_true_iff]
      simp
    have hpop : Holds (popConsumed q 1) (data ++ rest) := popConsumed_append h
    refine ⟨_, ?_, hpop⟩
    rw [popBitvByteArraySize, peek1_cons h]
    simp only [hmask, if_true, hnat, Nat.sub_add_cancel hpos, henough]
  · next hgt =>
    obtain ⟨b, packed, htext, hmsb, hempty, hmask, hcount, hsize⟩ := aboveX80_reads (by omega) hmax
    rw [htext] at h
    have hpeek : peek q (packed.length + 1) = some _ := peek_append h (cons_ne_nil _ _)
    have hpop : Holds (popConsumed q (packed.length + 1)) (data ++ rest) := popConsumed_append h
    have henough : isSizeEnough q (data.length + (packed.length + 1)) = true := by
      rw [isSizeEnough_eq h, decide_eq_true_iff]
      simp
      omega
    refine ⟨_, ?_, hpop⟩
    rw [popBitvByteArraySize, peek1_cons h]
    simp only [if_neg hmsb, if_neg hempty, hmask, ne_eq, not_true_eq_false, if_false, hcount, hpeek, drop_succ_cons,
      drop_zero]
    rw [hsize, if_pos henough]

/-- Where bytes are missing, nothing is taken. -/
theorem popSize_waits {s : Bytes} (hpos : 0 < data.length) (hmax : data.length ≤ kBitvMaxByteArraySize)
    (hs : s <+: byteArraySizeToBitvT_NoEmpty data.length ++ data)
    (hne : s ≠ byteArraySizeToBitvT_NoEmpty data.length ++ data) (h : Holds q s) :
    popBitvByteArraySize q = .ok none := by
  rw [byteArraySizeToBitvT_NoEmpty] at hs hne
  split at hs
  · next hle =>
    rw [if_pos hle] at hne
    obtain ⟨hmask, hnat⟩ := @smallByte (data.length - 1) (by omega)
    rcases prefix_cases hs hne with rfl | ⟨s', rfl, hlt⟩
    · rw [popBitvByteArraySize, peek1_nil h]
    · have hlt' : s'.length < data.length := hlt
      have hshort : isSizeEnough q (data.length + 1) = false := by
        rw [isSizeEnough_eq h, decide_eq_false_iff_not, length_cons]
        omega
      rw [popBitvByteArraySize, peek1_cons h]
      simp only [hmask, if_true, hnat, Nat.sub_add_cancel hpos, hshort, Bool.false_eq_true, if_false]
  · next hgt =>
    rw [if_neg hgt] at hne
    obtain ⟨b, packed, htext, hmsb, hempty, hmask, hcount, hsize⟩ := aboveX80_reads (by omega) hmax
    rw [htext] at hs hne
    rcases prefix_cases hs hne with rfl | ⟨s', rfl, hlt⟩
    · rw [popBitvByteArraySize, peek1_nil h]
    · rw [popBitvByteArraySize, peek1_cons h]
      simp only [if_neg hmsb, if_neg hempty, hmask, ne_eq, not_true_eq_false, if_false, hcount]
      rcases lt_or_ge s'.length packed.length with hcut | hhead
      · rw [peek_short h (succ_lt_succ hcut)]
      · -- the size is there, and not all of the bytes
        obtain ⟨data', rfl⟩ : packed <+: s' :=
          prefix_of_prefix_length_le (prefix_append _ _) (cons_prefix_cons.mp hs).2 hhead
        have hpeek : peek q (packed.length + 1) = some _ := peek_append h (cons_ne_nil _ _)
        have hshort : isSizeEnough q (data.length + (packed.length + 1)) = false := by
          have hlt' : (packed ++ data').length < (packed ++ data).length := hlt
          rw [isSizeEnough_eq h, decide_eq_false_iff_not]
          simp only [length_append, length_cons] at hlt' ⊢
          omega
        simp only [hpeek, drop_succ_cons, drop_zero]
        rw [hsize, hshort, if_neg Bool.false_ne_true]

section

variable (hmax : data.length ≤ kBitvMaxByteArraySize)
include hmax

/-- `ByteArrayToBitv` and back to its size. -/
theorem popSize_byteArray (h : Holds q ((byteArrayToBitv data).text ++ rest)) :
    ∃ q', popBitvByteArraySize q = .ok (some (data.length, q')) ∧ Holds q' (data ++ rest) := by
  rw [byteArrayToBitv] at h
  split at h
  · next hpos => exact popSize_reads hpos hmax h
  · next hzero =>
    obtain rfl : data = [] := length_eq_zero_iff.mp (by omega)
    have hpop : Holds (popConsumed q 1) rest := popConsumed_append h
    refine ⟨_, ?_, hpop⟩
    rw [popBitvByteArraySize, peek1_cons h]
    rfl

theorem str_reads :
    Reads Q bitvToStr (byteArrayToBitv data).text data := by
  intro q rest h
  obtain ⟨q', hpop, hholds⟩ := popSize_byteArray hmax h
  obtain ⟨hrest, hbytes⟩ := read_append hholds
  refine ⟨_, ?_, hrest⟩
  rw [bitvToStr, hpop]
  show Except.ok (_, _) = _
  rw [hbytes]

theorem popSize_byteArray_waits {s : Bytes} (hs : s <+: (byteArrayToBitv data).text)
    (hne : s ≠ (byteArrayToBitv data).text) (h : Holds q s) : popBitvByteArraySize q = .ok none := by
  rw [byteArrayToBitv] at hs hne
  split at hs
  · next hpos =>
    rw [if_pos hpos] at hne
    exact popSize_waits hpos hmax hs hne h
  · next hzero =>
    rw [if_neg hzero] at hne
    rcases prefix_cases hs hne with rfl | ⟨s', rfl, hlt⟩
    · rw [popBitvByteArraySize, peek1_nil h]
    · exact absurd hlt (Nat.not_lt_zero _)

theorem str_waits :
    Waits Q bitvToStr (byteArrayToBitv data).text := by
  intro q s hs hne h
  refine ⟨"BitvToStrAppend: needs more", ?_⟩
  rw [bitvToStr, popSize_byteArray_waits hmax hs hne h]
  rfl

/-- What is shorter than the array is filled up with zeros. -/
theorem byteArray_reads {barySize : ℕ} (hsize : data.length ≤ barySize) :
    Reads Q (bitvToByteArray barySize) (byteArrayToBitv data).text
      (data ++ replicate (barySize - data.length) 0) := by
  intro q rest h
  obtain ⟨q', hpop, hholds⟩ := popSize_byteArray hmax h
  obtain ⟨hrest, hbytes⟩ := read_append hholds
  refine ⟨_, ?_, hrest⟩
  rw [bitvToByteArray, hpop]
  simp only [bind, Except.bind, if_neg (not_lt.mpr hsize), pure, Except.pure, hbytes]

theorem charAry_reads :
    Reads Q (bitvToByteArray data.length) (charAryToBitv data).text data := by
  rw [charAryToBitv]
  split
  · next hlast =>
    have hne : data ≠ [] := by
      rintro rfl
      cases hlast
    have hdata : data.dropLast ++ [0] = data := List.dropLast_append_getLast? 0 hlast
    have hlen : data.dropLast.length = data.length - 1 := length_dropLast
    have hpos := length_pos_iff.mpr hne
    have hreads := @byteArray_reads Q _ data.dropLast (by omega) data.length (by omega)
    rw [hlen, show data.length - (data.length - 1) = 1 by omega] at hreads
    rw [show replicate 1 (0 : UInt8) = [0] from rfl, hdata] at hreads
    exact hreads
  · have hreads := @byteArray_reads Q _ data hmax data.length le_rfl
    rw [Nat.sub_self, replicate_zero, append_nil] at hreads
    exact hreads

end

end Fon9.Bitv
