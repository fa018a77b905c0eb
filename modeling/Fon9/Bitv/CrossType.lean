import Fon9.Bitv.Atomic
import Fon9.Bitv.Scalar

/-! An integer loaded to another type. The check is on the number of bytes alone: the top bit
of the target type is not its own. -/

namespace Fon9.Bitv

open Buffer IntType

variable {Q : Type} [PointedDcQueue Q] {q : Q} {rest : Bytes} {s t : IntType} {n : ℤ}

/-- The number that goes out for `n`. -/
def payload (n : ℤ) : ℕ := if n < 0 then complement n else n.toNat

/-- The number is loaded, or refused with the queue as it was. -/
def LoadedOrRefused (n : ℤ) (q : Q) (rest : Bytes) (ended : InPlace.Ended t.Val Q) : Prop :=
  (∃ v, ended.1 = .ok v ∧ v.1 = n ∧ Holds ended.2 rest) ∨
    ∃ what, ended = InPlace.raise (.overflow what) q ∨ ended = InPlace.raise (.signedError what) q

/-- As many bytes as the target type has, with its top bit. -/
def Ambiguous (t : IntType) (n : ℤ) : Prop :=
  t.isSigned = true ∧ 2 ^ (8 * t.size - 1) ≤ payload n ∧ payload n < 2 ^ (8 * t.size)

instance (t : IntType) (n : ℤ) : Decidable (Ambiguous t n) := inferInstanceAs (Decidable (_ ∧ _))

theorem packBigEndianRev_length_le {size k value : ℕ} (hk : 0 < k) (hsize : 0 < size) (hvalue : value < 256 ^ size)
    (h : value < 256 ^ k) : (packBigEndianRev size value).length ≤ k := by
  rcases le_total k size with hle | hle
  · rw [packBigEndianRev_of_le hk hle h]
    exact (packBigEndianRev_spec hk h).2.2
  · exact (packBigEndianRev_spec hsize hvalue).2.2.trans hle

theorem payload_le {n : ℤ} (hn : s.min ≤ n ∧ n ≤ s.max) : payload n < 256 ^ s.size := by
  rw [payload]
  split
  · next hneg => exact (complement_lt hn.1 hneg).2.1
  · next hpos =>
    rcases (Int.not_lt.mp hpos).eq_or_lt with hzero | hpos
    · rw [← hzero]
      exact pow_pos (by decide) _
    · exact (toNat_lt hn.2 hpos).1

/-- The value of a byte count is checked against, the value itself is cut to the type. -/
theorem intAux_length {packed : Bytes} {type : UInt8} (nullValue : t.Val)
    (htype : type ∈ [bitvT_IntegerPos, bitvT_IntegerNeg]) (hpos : 0 < packed.length) (hlen : packed.length ≤ 8)
    (h : Holds q ((type ||| UInt8.ofNat (packed.length - 1)) :: packed ++ rest)) :
    bitvToInt t q nullValue =
      if type = bitvT_IntegerNeg ∧ t.isSigned = false then
        .error (.signedError "BitvToInt: cannot load BitvNeg to unsigned")
      else if t.size < packed.length then .error (.overflow "BitvToInt: overflow")
      else .ok (if type = bitvT_IntegerNeg then t.cast (-(t.cast (getPackedBigEndian packed)).1 - 1)
        else t.cast (getPackedBigEndian packed), DcQueue.popConsumed q (packed.length + 1)) := by
  obtain ⟨hmask, hcount⟩ := @typeByte_packed type packed (by
    simp only [List.mem_cons, List.not_mem_nil, or_false] at htype ⊢
    tauto) hpos hlen
  have hpeek : DcQueue.peek q (packed.length + 1) =
      some ((type ||| UInt8.ofNat (packed.length - 1)) :: packed) := peek_append h (List.cons_ne_nil _ _)
  rw [bitvToInt, bitvToIntAux, peek1_cons h]
  simp only [hmask, hcount, hpeek, List.drop_succ_cons, List.drop_zero]
  simp only [List.mem_cons, List.not_mem_nil, or_false] at htype
  have hlt : t.size < packed.length ↔ ¬ packed.length ≤ t.size := not_le.symm
  rcases htype with rfl | rfl
  · have hne : bitvT_IntegerPos ≠ bitvT_IntegerNeg := by decide
    simp only [hne, hlt, false_and, if_false, if_true, ite_not]
  · have hne : bitvT_IntegerNeg ≠ bitvT_IntegerPos := by decide
    simp only [hne, hlt, true_and, if_false, if_true, ite_not]
    cases t.isSigned with
    | false => rfl
    | true => rfl

/-- What is cut is another number. -/
theorem cast_eq_iff {m : ℕ} (hm : m < 2 ^ (8 * t.size)) :
    (t.cast (m : ℤ)).1 = m ↔ ¬ (t.isSigned = true ∧ 2 ^ (8 * t.size - 1) ≤ m) := by
  show t.wrap m = m ↔ _
  cases t <;> simp only [wrap, isSigned, IntType.size] at hm ⊢ <;> norm_num at hm ⊢ <;> omega

theorem cast_compl_eq_iff {m : ℕ} (hsigned : t.isSigned = true) (hm : m < 2 ^ (8 * t.size)) :
    (t.cast (-(t.cast (m : ℤ)).1 - 1)).1 = -m - 1 ↔ ¬ 2 ^ (8 * t.size - 1) ≤ m := by
  show t.wrap (-t.wrap m - 1) = _ ↔ _
  cases t <;> first
    | exact absurd hsigned Bool.false_ne_true
    | simp only [wrap, isSigned, IntType.size] at hm ⊢
      norm_num at hm ⊢
      omega

theorem pow_256 (k : ℕ) : 256 ^ k = 2 ^ (8 * k) := by
  rw [pow_mul]
  norm_num

theorem loadedOrRefused_ok {v : t.Val} {q' : Q} (h : Holds q' rest) :
    LoadedOrRefused n q rest (InPlace.settle q (.ok (v, q'))) ↔ v.1 = n := by
  constructor
  · rintro (⟨v', hv, hn, -⟩ | ⟨what, hraise | hraise⟩)
    · cases hv
      exact hn
    · cases hraise
    · cases hraise
  · exact fun hn => .inl ⟨v, rfl, hn, h⟩

/-- The bytes of a number that is not zero. -/
theorem loadedOrRefused_payload {type : UInt8} (nullValue : t.Val)
    (htype : type = if n < 0 then bitvT_IntegerNeg else bitvT_IntegerPos)
    (hpayload : payload n < 256 ^ s.size) (hn : (payload n : ℤ) = if n < 0 then -n - 1 else n)
    (h : Holds q ((type ||| UInt8.ofNat ((packBigEndianRev s.size (payload n)).length - 1)) ::
      packBigEndianRev s.size (payload n) ++ rest)) :
    LoadedOrRefused n q rest (InPlace.bitvToInt t q nullValue) ↔ ¬ Ambiguous t n := by
  have hsize : s.size ≤ 8 := by cases s <;> decide
  obtain ⟨hvalue, hpos, hlen⟩ := packBigEndianRev_spec (size_pos s) hpayload
  have hmem : type ∈ [bitvT_IntegerPos, bitvT_IntegerNeg] := by
    rw [htype]
    split <;> decide
  have hneg : type = bitvT_IntegerNeg ↔ n < 0 := by
    rw [htype]
    split
    · next hneg => exact iff_of_true rfl hneg
    · next hneg => exact iff_of_false (by decide) hneg
  have hload := intAux_length nullValue hmem hpos (hlen.trans hsize) h
  rw [hvalue] at hload
  have hsettles : InPlace.bitvToInt t q nullValue = InPlace.settle q (bitvToInt t q nullValue) :=
    (InPlace.bitvToIntAux_orderly h t _ _ _ nullValue).settles
  have hrest : Holds (DcQueue.popConsumed q ((packBigEndianRev s.size (payload n)).length + 1)) rest :=
    popConsumed_append h
  rw [hsettles, hload, Ambiguous]
  simp only [hneg]
  by_cases hrefused : n < 0 ∧ t.isSigned = false
  · rw [if_pos hrefused]
    exact iff_of_true (.inr ⟨_, .inr rfl⟩) fun ham => Bool.false_ne_true (hrefused.2.symm.trans ham.1)
  · rw [if_neg hrefused]
    by_cases hover : t.size < (packBigEndianRev s.size (payload n)).length
    · -- the value needs more bytes than the type has
      rw [if_pos hover]
      refine iff_of_true (.inr ⟨_, .inl rfl⟩) fun ham => absurd hover (not_lt.mpr ?_)
      rw [← pow_256] at ham
      exact packBigEndianRev_length_le (size_pos t) (size_pos s) hpayload ham.2.2
    · rw [if_neg hover]
      have hfits : payload n < 2 ^ (8 * t.size) := by
        rw [← pow_256, ← hvalue]
        exact (getPackedBigEndian_lt _).trans_le (Nat.pow_le_pow_right (by decide) (not_lt.mp hover))
      rw [loadedOrRefused_ok hrest]
      by_cases hlt : n < 0
      · have hsigned : t.isSigned = true := by
          cases hs : t.isSigned with
          | true => rfl
          | false => exact absurd ⟨hlt, hs⟩ hrefused
        rw [if_pos hlt] at hn
        have hcast := cast_compl_eq_iff hsigned hfits
        rw [hn, show -(-n - 1) - 1 = n by omega] at hcast
        rw [if_pos hlt, hn, hcast]
        simp only [hsigned, hfits, true_and, and_true]
      · rw [if_neg hlt] at hn
        have hcast := cast_eq_iff hfits
        rw [hn] at hcast
        rw [if_neg hlt, hn, hcast]
        simp only [hfits, and_true]

/-- An integer of any type, loaded as an integer of any other: exactly the values whose top bit
fills the target type come out as other numbers. -/
theorem loadedOrRefused_iff (n : s.Val) (nullValue : t.Val) (h : Holds q ((intToBitv s n.1).text ++ rest)) :
    LoadedOrRefused n.1 q rest (InPlace.bitvToInt t q nullValue) ↔ ¬ Ambiguous t n.1 := by
  obtain ⟨n, hmin, hmax⟩ := n
  change Holds q ((intToBitv s n).text ++ rest) at h
  show LoadedOrRefused n q rest _ ↔ ¬ Ambiguous t n
  have hpayload := payload_le ⟨hmin, hmax⟩
  rw [intToBitv] at h
  split at h
  · next hzero =>
    subst hzero
    have hpop : Holds (DcQueue.popConsumed q 1) rest := popConsumed_append h
    have hload : bitvToInt t q nullValue = .ok (t.cast 0, DcQueue.popConsumed q 1) := by
      rw [bitvToInt, bitvToIntAux, peek1_cons h]
      rfl
    have hsettles : InPlace.bitvToInt t q nullValue = InPlace.settle q (bitvToInt t q nullValue) :=
      (InPlace.bitvToIntAux_orderly h t _ _ _ nullValue).settles
    have hcast : (t.cast 0).1 = 0 := by cases t <;> rfl
    rw [hsettles, hload, loadedOrRefused_ok hpop]
    exact iff_of_true hcast fun ham => absurd ham.2.1 (Nat.not_le.mpr (pow_pos (by decide) _))
  · next hne =>
    split at h
    · next hpos =>
      have hnat : payload n = n.toNat := by rw [payload, if_neg (by omega)]
      have htype : bitvT_IntegerPos = if n < 0 then bitvT_IntegerNeg else bitvT_IntegerPos :=
        (if_neg (by omega)).symm
      refine loadedOrRefused_payload nullValue htype hpayload ?_ ?_
      · rw [hnat, if_neg (by omega)]
        omega
      · rw [hnat]
        exact h
    · next hnot =>
      have hneg : n < 0 := by omega
      have hnat : payload n = complement n := by rw [payload, if_pos hneg]
      have htype : bitvT_IntegerNeg = if n < 0 then bitvT_IntegerNeg else bitvT_IntegerPos :=
        (if_pos hneg).symm
      refine loadedOrRefused_payload nullValue htype hpayload ?_ ?_
      · rw [hnat, if_pos hneg]
        exact (complement_lt hmin hneg).2.2.2.2
      · rw [hnat]
        exact h

/-- 300 of a `uint16_t` fits an `int16_t`. -/
theorem loadedOrRefused_iff_int16 : LoadedOrRefused 300 (DcQueueFixedMem.ofMem [0x91, 1, 44]) []
    (InPlace.bitvToInt .int16 (DcQueueFixedMem.ofMem [0x91, 1, 44]) (IntType.int16.cast 0)) :=
  (loadedOrRefused_iff (s := .uint16) ⟨300, by decide⟩ _ rfl).mpr (by decide)

/-- 200 of a `uint8_t` is loaded to an `int8_t` as -56. -/
theorem not_loadedOrRefused :
    ¬ ∀ (s t : IntType) (n : s.Val) (nullValue : t.Val) (q : DcQueueFixedMem) (rest : Bytes),
      Holds q ((intToBitv s n.1).text ++ rest) → LoadedOrRefused n.1 q rest (InPlace.bitvToInt t q nullValue) := by
  intro h
  have hq : Holds (DcQueueFixedMem.ofMem [0x90, 200]) ((intToBitv .uint8 (IntType.uint8.cast 200).1).text ++ []) := rfl
  rcases h .uint8 .int8 (IntType.uint8.cast 200) (IntType.int8.cast 0) _ _ hq with
    ⟨v, hv, hn, -⟩ | ⟨what, hraise | hraise⟩
  · cases hv
    exact absurd hn (by decide)
  · cases hraise
  · cases hraise

end Fon9.Bitv
