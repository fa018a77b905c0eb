import Fon9.Bitv.InPlace

/-! A decoder takes a value with its bytes, or leaves the queue as it was. What it reads lies in
the queue, as long as the pointers of an empty queue are null. -/

namespace Fon9.Bitv

open Buffer List LawfulDcQueue PointedDcQueue DcQueue

variable {Q : Type} [PointedDcQueue Q] {q : Q} {s : Bytes} {α : Type}

namespace InPlace

/-- An exception leaves the queue as it is. -/
def settle (buf : Q) : Except BitvError (α × Q) → Ended α Q
  | .ok (v, buf') => (.ok v, buf')
  | .error e => raise e buf

/-- The call ends with what the decoder says, and takes bytes that there are. -/
structure Orderly (q : Q) (s : Bytes) (ended : Ended α Q) (r : Except BitvError (α × Q)) : Prop where
  settles : ended = settle q r
  takes : ∀ v q', r = .ok (v, q') → ∃ n ≤ s.length, Holds q' (s.drop n)

theorem Orderly.raise (e : BitvError) : Orderly (α := α) q s (raise e q) (.error e) :=
  ⟨rfl, nofun⟩

theorem Orderly.take (h : Holds q s) (v : α) {n : ℕ} (hn : n ≤ s.length) :
    Orderly q s (.ok v, popConsumed q n) (.ok (v, popConsumed q n)) := by
  refine ⟨rfl, fun v q' hok => ⟨n, hn, ?_⟩⟩
  cases hok
  exact popConsumed_eq h n

variable {r : Except BitvError (α × Q)} {ended : Ended α Q}

theorem Orderly.inside (h : Orderly q s ended r) :
    ended.1 ≠ .error .strayRead := by
  rw [h.settles]
  cases r with
  | ok r => exact nofun
  | error e => exact nofun

theorem Orderly.unchanged (h : Orderly q s ended r) {f : Fault} (hf : ended.1 = .error f) : ended.2 = q := by
  rw [h.settles] at hf ⊢
  cases r with
  | ok r => cases hf
  | error e => rfl

theorem Orderly.taken (h : Orderly q s ended r) (hq : Holds q s) : ∃ n ≤ s.length, Holds ended.2 (s.drop n) := by
  rw [h.settles]
  cases r with
  | ok r => exact h.takes r.1 r.2 rfl
  | error e => exact ⟨0, Nat.zero_le _, hq⟩

theorem one_le_cons {b : UInt8} : 1 ≤ (b :: s).length := Nat.succ_le_succ (Nat.zero_le _)

theorem mem_of_nil (h : Holds q []) : mem q = none ∧ peek1 q = none :=
  ⟨mem_nil h, peek1_eq h⟩

theorem mem_of_cons {b : UInt8} (h : Holds q (b :: s)) :
    (∃ block, mem q = some (b :: block)) ∧ peek1 q = some b :=
  ⟨mem_cons h, peek1_eq h⟩

theorem length_of_peek (h : Holds q s) {sz : ℕ} {pnum : Bytes} (hpeek : peek q sz = some pnum) :
    pnum.length = sz ∧ sz ≤ s.length := by
  rw [peek_eq h] at hpeek
  split at hpeek
  · next hsz =>
    cases hpeek
    exact ⟨length_take_of_le hsz.1, hsz.1⟩
  · cases hpeek

/-- The bytes behind the pointer that `Peek` has returned. -/
theorem derefBytes_of_peek (h : Holds q s) (count : ℕ) {pnum : Bytes}
    (hpeek : peek q (count + 1) = some pnum) (next : Bytes → Ended α Q) :
    derefBytes pnum 1 count q next = next (pnum.drop 1) := by
  obtain ⟨hlen, -⟩ := length_of_peek h hpeek
  rw [derefBytes, if_pos (by omega), take_of_length_le]
  rw [length_drop, hlen, Nat.add_sub_cancel]

theorem bitvToBool_orderly (h : Holds q s) : Orderly q s (bitvToBool q) (Bitv.bitvToBool q) := by
  cases s with
  | nil =>
    obtain ⟨hmem, hpeek1⟩ := mem_of_nil h
    rw [bitvToBool, Bitv.bitvToBool, hmem, hpeek1]
    exact .raise _
  | cons b s =>
    obtain ⟨⟨block, hmem⟩, hpeek1⟩ := mem_of_cons h
    rw [bitvToBool, Bitv.bitvToBool, hmem, hpeek1]
    dsimp only [deref]
    split_ifs
    · exact .take h _ one_le_cons
    · exact .take h _ one_le_cons
    · exact .raise _

theorem bitvToChar_orderly (h : Holds q s) : Orderly q s (bitvToChar q) (Bitv.bitvToChar q) := by
  cases s with
  | nil =>
    obtain ⟨hmem, hpeek1⟩ := mem_of_nil h
    rw [bitvToChar, Bitv.bitvToChar, hmem, hpeek1]
    exact .raise _
  | cons b s =>
    obtain ⟨⟨block, hmem⟩, hpeek1⟩ := mem_of_cons h
    rw [bitvToChar, Bitv.bitvToChar, hmem, hpeek1]
    dsimp only [deref]
    split_ifs
    · exact .take h _ one_le_cons
    · exact .raise _
    · cases hpeek : peek q 2 with
      | none => exact .raise _
      | some pbuf =>
        have hvalue : (pbuf.drop 1).getD 0 0 = pbuf.getD 1 0 := by simp [getD]
        dsimp only
        rw [derefBytes_of_peek h 1 hpeek, hvalue]
        exact .take h _ (length_of_peek h hpeek).2

theorem bitvToIntAux_orderly (h : Holds q s) (t : IntType) (pos zero null : UInt8) (nullValue : t.Val) :
    Orderly q s (bitvToIntAux t pos zero null q nullValue) (Bitv.bitvToIntAux t pos zero null q nullValue) := by
  cases s with
  | nil =>
    obtain ⟨hmem, hpeek1⟩ := mem_of_nil h
    rw [bitvToIntAux, Bitv.bitvToIntAux, hmem, hpeek1]
    exact .raise _
  | cons b s =>
    obtain ⟨⟨block, hmem⟩, hpeek1⟩ := mem_of_cons h
    rw [bitvToIntAux, Bitv.bitvToIntAux, hmem, hpeek1]
    dsimp only [deref]
    cases hpeek : peek q ((b &&& 0x07).toNat + 1 + 1) with
    | none =>
      dsimp only
      split_ifs <;> first | exact .raise _ | exact .take h _ one_le_cons
    | some pnum =>
      simp only [derefBytes_of_peek h _ hpeek]
      split_ifs <;> first
        | exact .raise _
        | exact .take h _ one_le_cons
        | exact .take h _ (length_of_peek h hpeek).2

theorem bitvToNumber_orderly (h : Holds q s) : Orderly q s (bitvToNumber q) (Bitv.bitvToNumber q) := by
  cases s with
  | nil =>
    obtain ⟨hmem, hpeek1⟩ := mem_of_nil h
    rw [bitvToNumber, Bitv.bitvToNumber, hmem, hpeek1]
    exact .raise _
  | cons b s =>
    obtain ⟨⟨block, hmem⟩, hpeek1⟩ := mem_of_cons h
    rw [bitvToNumber, Bitv.bitvToNumber, hmem, hpeek1]
    dsimp only [deref]
    split
    · cases hpeek : peek q ((b &&& 0x07).toNat + 1 + 1) with
      | none => exact .raise _
      | some pnum =>
        simp only [derefBytes_of_peek h _ hpeek]
        exact .take h _ (length_of_peek h hpeek).2
    · split
      · cases hpeek : peek q ((b &&& 0x07).toNat + 1 + 2) with
        | none => exact .raise _
        | some pnum =>
          have hsecond : (pnum.drop 1).getD 0 0 = pnum.getD 1 0 := by simp [getD]
          have hnum : (pnum.drop 1).drop 1 = pnum.drop 2 := drop_drop
          simp only [derefBytes_of_peek h ((b &&& 0x07).toNat + 1 + 1) hpeek, hsecond, hnum]
          exact .take h _ (length_of_peek h hpeek).2
      · split
        · exact .take h _ one_le_cons
        · split
          · exact .take h _ one_le_cons
          · exact .raise _

/-! ### Bytes -/

/-- How `PopBitvByteArraySize` ends: with a wrong type, with bytes missing, or with the size. -/
inductive Popped (q : Q) (s : Bytes) : Ended (Bool × ℕ) Q → Except BitvError (Option (ℕ × Q)) → Prop
  | raised (what : String) : Popped q s (raise (.typeNotMatch what) q) (.error (.typeNotMatch what))
  | waits (size : ℕ) : Popped q s (.ok (false, size), q) (.ok none)
  | taken (size : ℕ) {n : ℕ} (hn : n ≤ s.length) :
      Popped q s (.ok (true, size), DcQueue.popConsumed q n) (.ok (some (size, DcQueue.popConsumed q n)))

theorem popBitvByteArraySize_popped (h : Holds q s) :
    Popped q s (popBitvByteArraySize q) (Bitv.popBitvByteArraySize q) := by
  cases s with
  | nil =>
    obtain ⟨hmem, hpeek1⟩ := mem_of_nil h
    rw [popBitvByteArraySize, peekBitvByteArraySize, Bitv.popBitvByteArraySize, hmem, hpeek1]
    exact .waits 0
  | cons b s =>
    obtain ⟨⟨block, hmem⟩, hpeek1⟩ := mem_of_cons h
    rw [popBitvByteArraySize, peekBitvByteArraySize, Bitv.popBitvByteArraySize, hmem, hpeek1]
    dsimp only [deref]
    by_cases hshort : b &&& 0x80 = 0
    · simp only [if_pos hshort]
      by_cases henough : isSizeEnough q (b.toNat + 1 + 1) = true
      · simp only [henough, if_true]
        exact .taken _ one_le_cons
      · simp only [henough, if_false, Bool.false_eq_true]
        exact .waits _
    · simp only [if_neg hshort]
      by_cases hempty : b = bitvV_ByteArrayEmpty
      · simp only [if_pos hempty]
        exact .taken _ one_le_cons
      · simp only [if_neg hempty]
        by_cases htype : b &&& bitvT_Mask ≠ bitvT_ByteArray
        · simp only [if_pos htype]
          exact .raised _
        · simp only [if_neg htype]
          cases hpeek : peek q (((b >>> 1) &&& 0x03).toNat + 1 + 1) with
          | none => exact .waits _
          | some pnum =>
            simp only [derefBytes_of_peek h _ hpeek]
            generalize (if b &&& 0x01 ≠ 0 then getPackedBigEndian (pnum.drop 1) |||
              2 ^ ((((b >>> 1) &&& 0x03).toNat + 1) * 8) else getPackedBigEndian (pnum.drop 1)) + 0x80 + 1 = barySize
            by_cases henough : isSizeEnough q (barySize + (((b >>> 1) &&& 0x03).toNat + 1 + 1)) = true
            · simp only [henough, if_true]
              exact .taken _ (length_of_peek h hpeek).2
            · simp only [henough, if_false, Bool.false_eq_true]
              exact .waits _

/-- Where the array is too small, the size has been taken before it is found out. -/
inductive ByteArrayEnded (q : Q) (s : Bytes) : Ended Bytes Q → Except BitvError (Bytes × Q) → Prop
  | orderly {ended : Ended Bytes Q} {r : Except BitvError (Bytes × Q)} (h : Orderly q s ended r) :
      ByteArrayEnded q s ended r
  | tooSmall (what : String) {n : ℕ} (hn : n ≤ s.length) :
      ByteArrayEnded q s (raise (.outOfRange what) (DcQueue.popConsumed q n)) (.error (.outOfRange what))

theorem bitvToByteArray_ended (h : Holds q s) (barySize : ℕ) :
    ByteArrayEnded q s (bitvToByteArray barySize q) (Bitv.bitvToByteArray barySize q) := by
  have hpop := popBitvByteArraySize_popped h
  rw [bitvToByteArray, Bitv.bitvToByteArray]
  generalize popBitvByteArraySize q = ended, Bitv.popBitvByteArraySize q = r at hpop
  cases hpop with
  | raised what => exact .orderly (.raise _)
  | waits size => exact .orderly (.raise _)
  | @taken size n hn =>
    simp only [bind, Except.bind]
    split
    · exact .tooSmall _ hn
    · have hread := LawfulDcQueue.read_eq (popConsumed_eq h n) size
      refine .orderly ⟨rfl, fun v q' hok => ⟨min (n + size) s.length, min_le_right _ _, ?_⟩⟩
      cases hok
      rw [drop_drop] at hread
      have hdrop : s.drop (min (n + size) s.length) = s.drop (n + size) := by
        rcases le_total (n + size) s.length with hle | hle
        · rw [min_eq_left hle]
        · rw [min_eq_right hle, drop_length, drop_eq_nil_of_le hle]
      rw [hdrop]
      exact hread.1

/-! ### Every decoder -/

inductive Call
  | popBitvByteArraySize
  | bitvToChar
  | bitvToBool
  | bitvToInt (t : IntType) (nullValue : t.Val)
  | bitvToNumber
  | bitvToByteArray (barySize : ℕ)

namespace Call

@[reducible] def Result : Call → Type
  | popBitvByteArraySize => Bool × ℕ
  | bitvToChar => UInt8
  | bitvToBool => Bool
  | bitvToInt t _ => t.Val
  | bitvToNumber => BitvNumR
  | bitvToByteArray _ => Bytes

def run : (c : Call) → Q → Ended c.Result Q
  | popBitvByteArraySize, buf => InPlace.popBitvByteArraySize buf
  | bitvToChar, buf => InPlace.bitvToChar buf
  | bitvToBool, buf => InPlace.bitvToBool buf
  | bitvToInt t nullValue, buf => InPlace.bitvToInt t buf nullValue
  | bitvToNumber, buf => InPlace.bitvToNumber buf
  | bitvToByteArray barySize, buf => InPlace.bitvToByteArray barySize buf

/-- The call says that bytes are missing: `BitvNeedsMore`, or false. -/
def NeedsMore : (c : Call) → Except Fault c.Result → Prop
  | popBitvByteArraySize, r => ∃ size, r = .ok (false, size)
  | bitvToChar, r | bitvToBool, r | bitvToInt _ _, r | bitvToNumber, r | bitvToByteArray _, r =>
    ∃ what, r = .error (.raised (.needsMore what))

/-- The call reads in the queue only and takes bytes from its front, takes nothing where it waits
or raises one of the decoder's own exceptions, and waits where there is nothing. -/
structure Atomic (c : Call) (q : Q) (s : Bytes) : Prop where
  inside : (c.run q).1 ≠ .error .strayRead
  taken : ∃ n ≤ s.length, Holds (c.run q).2 (s.drop n)
  waits : c.NeedsMore (c.run q).1 → (c.run q).2 = q
  unchanged : ∀ e, (c.run q).1 = .error (.raised e) → (∀ what, e ≠ .outOfRange what) → (c.run q).2 = q
  empty : s = [] → c.NeedsMore (c.run q).1

/-- Where there is nothing, every call waits. -/
theorem needsMore_of_nil (h : Holds q []) (c : Call) : c.NeedsMore (c.run q).1 := by
  have hmem := mem_nil h
  cases c with
  | popBitvByteArraySize =>
    refine ⟨0, ?_⟩
    show (InPlace.popBitvByteArraySize q).1 = _
    rw [InPlace.popBitvByteArraySize, peekBitvByteArraySize, hmem]
  | bitvToChar =>
    refine ⟨"BitvToChar: needs more", ?_⟩
    show (InPlace.bitvToChar q).1 = _
    rw [InPlace.bitvToChar, hmem]
    rfl
  | bitvToBool =>
    refine ⟨"BitvToBool: needs more", ?_⟩
    show (InPlace.bitvToBool q).1 = _
    rw [InPlace.bitvToBool, hmem]
    rfl
  | bitvToInt t nullValue =>
    refine ⟨"BitvToInt: needs more", ?_⟩
    show (InPlace.bitvToInt t q nullValue).1 = _
    rw [InPlace.bitvToInt, bitvToIntAux, hmem]
    rfl
  | bitvToNumber =>
    refine ⟨"BitvToNumber: needs more", ?_⟩
    show (InPlace.bitvToNumber q).1 = _
    rw [InPlace.bitvToNumber, hmem]
    rfl
  | bitvToByteArray barySize =>
    refine ⟨"BitvToByteArray: needs more", ?_⟩
    show (InPlace.bitvToByteArray barySize q).1 = _
    rw [InPlace.bitvToByteArray, InPlace.popBitvByteArraySize, peekBitvByteArraySize, hmem]
    rfl

/-- A pointer that is not null is read, with no byte behind it too. -/
theorem strayRead_of_mem (h : mem q = some []) (c : Call) : (c.run q).1 = .error .strayRead := by
  cases c with
  | popBitvByteArraySize =>
    show (InPlace.popBitvByteArraySize q).1 = _
    rw [InPlace.popBitvByteArraySize, peekBitvByteArraySize, h]
    rfl
  | bitvToChar =>
    show (InPlace.bitvToChar q).1 = _
    rw [InPlace.bitvToChar, h]
    rfl
  | bitvToBool =>
    show (InPlace.bitvToBool q).1 = _
    rw [InPlace.bitvToBool, h]
    rfl
  | bitvToInt t nullValue =>
    show (InPlace.bitvToInt t q nullValue).1 = _
    rw [InPlace.bitvToInt, bitvToIntAux, h]
    rfl
  | bitvToNumber =>
    show (InPlace.bitvToNumber q).1 = _
    rw [InPlace.bitvToNumber, h]
    rfl
  | bitvToByteArray barySize =>
    show (InPlace.bitvToByteArray barySize q).1 = _
    rw [InPlace.bitvToByteArray, InPlace.popBitvByteArraySize, peekBitvByteArraySize, h]
    rfl

theorem Atomic.of_orderly {c : Call} {r : Except BitvError (c.Result × Q)} (hq : Holds q s)
    (h : Orderly q s (c.run q) r) (hwaits : c.NeedsMore (c.run q).1 → ∃ f, (c.run q).1 = .error f) :
    c.Atomic q s where
  inside := h.inside
  taken := h.taken hq
  waits hneeds := by
    obtain ⟨f, hf⟩ := hwaits hneeds
    exact h.unchanged hf
  unchanged _ he _ := h.unchanged he
  empty hs := by
    subst hs
    exact needsMore_of_nil hq c

theorem popBitvByteArraySize_atomic (hq : Holds q s) : Call.popBitvByteArraySize.Atomic q s := by
  have hpop : Popped q s (Call.popBitvByteArraySize.run q) (Bitv.popBitvByteArraySize q) :=
    popBitvByteArraySize_popped hq
  have hempty : s = [] → Call.popBitvByteArraySize.NeedsMore (Call.popBitvByteArraySize.run q).1 := by
    rintro rfl
    exact needsMore_of_nil hq _
  constructor
  · generalize Call.popBitvByteArraySize.run q = ended, Bitv.popBitvByteArraySize q = r at hpop
    cases hpop with
    | raised what => exact nofun
    | waits size => exact nofun
    | taken size hn => exact nofun
  · generalize Call.popBitvByteArraySize.run q = ended, Bitv.popBitvByteArraySize q = r at hpop
    cases hpop with
    | raised what => exact ⟨0, Nat.zero_le _, hq⟩
    | waits size => exact ⟨0, Nat.zero_le _, hq⟩
    | taken size hn => exact ⟨_, hn, popConsumed_eq hq _⟩
  · generalize Call.popBitvByteArraySize.run q = ended, Bitv.popBitvByteArraySize q = r at hpop
    cases hpop with
    | raised what => exact fun _ => rfl
    | waits size => exact fun _ => rfl
    | taken size hn =>
      rintro ⟨size', hsize⟩
      cases hsize
  · generalize Call.popBitvByteArraySize.run q = ended, Bitv.popBitvByteArraySize q = r at hpop
    cases hpop with
    | raised what => exact fun _ _ _ => rfl
    | waits size => exact fun _ _ _ => rfl
    | taken size hn => exact nofun
  · exact hempty

theorem bitvToByteArray_atomic (hq : Holds q s) (barySize : ℕ) : (Call.bitvToByteArray barySize).Atomic q s := by
  have hended : ByteArrayEnded q s ((Call.bitvToByteArray barySize).run q) (Bitv.bitvToByteArray barySize q) :=
    bitvToByteArray_ended hq barySize
  have hempty : s = [] → (Call.bitvToByteArray barySize).NeedsMore ((Call.bitvToByteArray barySize).run q).1 := by
    rintro rfl
    exact needsMore_of_nil hq _
  generalize hrun : (Call.bitvToByteArray barySize).run q = ended, Bitv.bitvToByteArray barySize q = r at hended
  cases hended with
  | orderly h =>
    rw [← hrun] at h
    exact .of_orderly hq h fun ⟨what, hwhat⟩ => ⟨_, hwhat⟩
  | @tooSmall what n hn =>
    constructor
    · rw [hrun]
      exact nofun
    · rw [hrun]
      exact ⟨n, hn, popConsumed_eq hq n⟩
    · rw [hrun]
      rintro ⟨what', hwhat⟩
      cases hwhat
    · rw [hrun]
      intro e he hnot
      cases he
      exact absurd rfl (hnot what)
    · exact hempty

theorem atomic_of_holds (hq : Holds q s) (c : Call) : c.Atomic q s := by
  cases c with
  | popBitvByteArraySize => exact popBitvByteArraySize_atomic hq
  | bitvToChar => exact .of_orderly hq (bitvToChar_orderly hq) fun ⟨what, hwhat⟩ => ⟨_, hwhat⟩
  | bitvToBool => exact .of_orderly hq (bitvToBool_orderly hq) fun ⟨what, hwhat⟩ => ⟨_, hwhat⟩
  | bitvToInt t nullValue =>
    exact .of_orderly hq (bitvToIntAux_orderly hq t _ _ _ nullValue) fun ⟨what, hwhat⟩ => ⟨_, hwhat⟩
  | bitvToNumber => exact .of_orderly hq (bitvToNumber_orderly hq) fun ⟨what, hwhat⟩ => ⟨_, hwhat⟩
  | bitvToByteArray barySize => exact bitvToByteArray_atomic hq barySize

/-- A queue of any state holds its bytes, or has none and pointers that are not null. -/
theorem atomic_iff (hq : Holds q s ∨ s = [] ∧ PointedDcQueue.mem q = some []) (c : Call) :
    c.Atomic q s ↔ (s = [] → PointedDcQueue.mem q = none) := by
  constructor
  · intro h hs
    rcases hq with hq | ⟨-, hmem⟩
    · rw [hs] at hq
      exact PointedDcQueue.mem_nil hq
    · exact absurd (strayRead_of_mem hmem c) h.inside
  · intro h
    rcases hq with hq | ⟨hs, hmem⟩
    · exact atomic_of_holds hq c
    · rw [h hs] at hmem
      cases hmem

/-- A bool at the front of a range is taken; over an empty range its byte is read outside. -/
theorem atomic_iff_fixedMem :
    Call.bitvToBool.Atomic (DcQueueFixedMem.ofMem [bitvV_BoolTrue]) [bitvV_BoolTrue] ∧
      ¬ Call.bitvToBool.Atomic (DcQueueFixedMem.ofMem []) [] :=
  ⟨(atomic_iff (Or.inl rfl) _).mpr nofun, fun h => nomatch (atomic_iff (Or.inr ⟨rfl, rfl⟩) _).mp h rfl⟩

/-- Not every queue that can be made is read within its bytes. -/
theorem not_atomic_of_any_queue :
    ¬ ∀ (q : DcQueueFixedMem) (s : Bytes), q.mem.getD [] = s → ∀ c : Call, c.Atomic q s :=
  fun h => (h (.ofMem []) [] rfl .bitvToBool).inside rfl

end Call

end InPlace

end Fon9.Bitv
