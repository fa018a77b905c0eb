import Fon9.Buffer.BlockQueue

/-! Reading with the base's `DcQueueReadMore`. The comparison binds tighter than the `-=` in
the condition that ends its loop, so that it ends behind its first block. -/

namespace Fon9.Buffer.BlockQueue

open List

variable {Q : Type} [BlockQueue Q] {q : Q} {blk : Bytes} {blks : List Bytes} {sz : ℕ}

/-! ### The loop -/

theorem readMoreLoop_empty (fuel : ℕ) (h : HasBlocks q []) : readMoreLoop (fuel + 1) q sz = (q, 0, []) := by
  have hsize : getCurrBlockSize q = 0 := getCurrBlockSize_eq h
  rw [readMoreLoop, if_pos hsize]

/-- No turn of the loop is followed by another one. -/
theorem readMoreLoop_once (fuel : ℕ) (h : HasBlocks q (blk :: blks)) (hsz : 0 < sz) :
    readMoreLoop (fuel + 1) q sz =
      (popConsumed q (min sz blk.length), min sz blk.length, blk.take (min sz blk.length)) := by
  have hpos := length_pos h
  have hsize : getCurrBlockSize q = blk.length := getCurrBlockSize_eq h
  have hblk : currBlock q = blk := currBlock_eq h
  have hmin : (if sz < blk.length then sz else blk.length) = min sz blk.length := by
    split <;> omega
  have hcmp : ¬ min sz blk.length ≤ 0 := by omega
  have hsub : sizeSub sz 0 = sz := by
    rw [sizeSub, if_pos (Nat.zero_le sz), Nat.sub_zero]
  rw [readMoreLoop, hsize, if_neg hpos.ne']
  dsimp only
  rw [hmin, hblk, if_neg hcmp, hsub, if_pos hsz.ne']

/-- Behind a current block that is used up. -/
theorem dcQueueReadMore_spec (h : HasBlocks q (blk :: blks)) (hsz : 0 < sz) :
    (dcQueueReadMore q sz).2 = (min sz (blks.headD []).length, blks.flatten.take (min sz (blks.headD []).length)) ∧
      ∃ rest, HasBlocks (dcQueueReadMore q sz).1 rest ∧
        rest.flatten = blks.flatten.drop (min sz (blks.headD []).length) := by
  have hremove : HasBlocks (dcQueueRemoveMore q 0) blks := removeMore_zero h
  rw [dcQueueReadMore]
  cases blks with
  | nil =>
    rw [readMoreLoop_empty _ hremove, headD_nil, length_nil, Nat.min_zero]
    exact ⟨rfl, [], hremove, rfl⟩
  | cons next blks =>
    have hle : min sz next.length ≤ next.length := Nat.min_le_right _ _
    rw [readMoreLoop_once _ hremove hsz, headD_cons, flatten_cons, take_append_of_le_length hle,
      ← flatten_cons]
    exact ⟨rfl, popConsumed_front hremove hle⟩

/-! ### Reading -/

/-- The bytes of the first two blocks. -/
def firstTwo (blks : List Bytes) : ℕ := (blks.take 2).flatten.length

theorem firstTwo_cons (blk : Bytes) (blks : List Bytes) :
    firstTwo (blk :: blks) = blk.length + (blks.headD []).length := by
  cases blks with
  | nil => simp [firstTwo]
  | cons next blks => simp [firstTwo]

/-- What is read lies in the first two blocks. -/
theorem read_spec (h : HasBlocks q blks) (sz : ℕ) :
    (read q sz).2 = (min sz (firstTwo blks), blks.flatten.take (min sz (firstTwo blks))) ∧
      ∃ rest, HasBlocks (read q sz).1 rest ∧ rest.flatten = blks.flatten.drop (min sz (firstTwo blks)) := by
  have hsize := getCurrBlockSize_eq h
  have hblk := currBlock_eq h
  cases blks with
  | nil =>
    have hused : (if sz < 0 then sz else 0) ≤ 0 := by
      rw [if_neg (Nat.not_lt_zero sz)]
    have hread : read q sz = (q, 0, []) := by
      rw [read, hsize]
      exact if_pos hused
    have hzero : min sz (firstTwo []) = 0 := Nat.min_zero sz
    rw [hread, hzero]
    exact ⟨rfl, [], h, rfl⟩
  | cons blk blks =>
    rw [headD_cons] at hsize hblk
    have hpos := length_pos h
    have hused : (if sz < blk.length then sz else blk.length) = min sz blk.length := by
      split <;> omega
    rw [firstTwo_cons, read, hsize]
    dsimp only
    rw [hused, hblk]
    by_cases hzero : sz = 0
    · have hmin : min sz (blk.length + (blks.headD []).length) = 0 := by omega
      rw [if_pos (by omega), hmin]
      exact ⟨rfl, blk :: blks, h, rfl⟩
    · rw [if_neg (by omega)]
      by_cases hle : sz ≤ blk.length
      · have hmin : min sz (blk.length + (blks.headD []).length) = sz := by omega
        rw [if_pos (by omega), hmin, Nat.min_eq_left hle, flatten_cons, take_append_of_le_length hle,
          ← flatten_cons]
        exact ⟨rfl, popConsumed_front h hle⟩
      · have hge : blk.length ≤ sz := by omega
        have hsz : 0 < sz - blk.length := by omega
        obtain ⟨hmore, rest, hrest, hflat⟩ := dcQueueReadMore_spec h hsz
        have hmin : min sz (blk.length + (blks.headD []).length) =
            blk.length + min (sz - blk.length) (blks.headD []).length := by omega
        rw [if_neg (by omega), hmin, Nat.min_eq_right hge, hmore, flatten_cons, take_append,
          drop_append, take_length, take_of_length_le (Nat.le_add_right _ _),
          drop_eq_nil_of_le (Nat.le_add_right _ _), Nat.add_sub_cancel_left, nil_append]
        exact ⟨rfl, rest, hrest, hflat⟩

/-- `sz` bytes, or all there are, are copied in order and removed, and their number is
returned: as by `DcQueueList` with its own `DcQueueReadMore`. -/
structure ReadsExactly (q : Q) (blks : List Bytes) (sz : ℕ) : Prop where
  copied : (read q sz).2 = (min sz blks.flatten.length, blks.flatten.take sz)
  removed : ∃ rest, HasBlocks (read q sz).1 rest ∧ rest.flatten = blks.flatten.drop sz
  asList : ∀ l : DcQueueList, l.Holds blks.flatten →
    (l.read sz).2 = (read q sz).2.2 ∧ ∃ rest, HasBlocks (read q sz).1 rest ∧ (l.read sz).1.Holds rest.flatten

/-- No byte lies behind the first two blocks. -/
theorem firstTwo_all (h : HasBlocks q blks) : blks.flatten.length ≤ firstTwo blks ↔ blks.length ≤ 2 := by
  have hflat : blks.flatten.length = firstTwo blks + (blks.drop 2).flatten.length := by
    rw [firstTwo, ← length_append, ← flatten_append, take_append_drop]
  constructor
  · intro hle
    by_contra hlt
    have hthird : blks[2] ∈ blks.drop 2 := by
      rw [drop_eq_getElem_cons (by omega)]
      exact mem_cons_self
    have hpos : 0 < blks[2].length := length_pos_iff.mpr (ne_nil h _ (getElem_mem _))
    have hmem := List.Sublist.length_le (sublist_flatten_of_mem hthird)
    omega
  · intro hle
    rw [hflat, drop_eq_nil_of_le hle]
    exact le_refl _

/-- Exactly what is asked for is read where it lies in the first two blocks, or where there
are no more than two. -/
theorem read_exactly_iff (h : HasBlocks q blks) (sz : ℕ) :
    ReadsExactly q blks sz ↔ sz ≤ (blks.take 2).flatten.length ∨ blks.length ≤ 2 := by
  obtain ⟨hread, rest, hrest, hflat⟩ := read_spec h sz
  have htwo : firstTwo blks ≤ blks.flatten.length := by
    have hsub := List.Sublist.length_le (List.Sublist.flatten (List.take_sublist 2 blks))
    exact hsub
  constructor
  · intro hexact
    have hnum := congrArg Prod.fst (hread.symm.trans hexact.copied)
    have hnum : min sz (firstTwo blks) = min sz blks.flatten.length := hnum
    by_cases hle : sz ≤ firstTwo blks
    · exact .inl hle
    · exact .inr ((firstTwo_all h).mp (by omega))
  · intro hcond
    have hmin : min sz (firstTwo blks) = min sz blks.flatten.length := by
      obtain hle | hle := hcond
      · have hle : sz ≤ firstTwo blks := hle
        omega
      · have hall := (firstTwo_all h).mpr hle
        omega
    have htake : blks.flatten.take (min sz blks.flatten.length) = blks.flatten.take sz :=
      (List.take_eq_take_min).symm
    have hdrop : blks.flatten.drop (min sz blks.flatten.length) = blks.flatten.drop sz :=
      (List.drop_eq_drop_min).symm
    rw [hmin, htake] at hread
    rw [hmin, hdrop] at hflat
    refine ⟨hread, ⟨rest, hrest, hflat⟩, fun l hl => ?_⟩
    obtain ⟨hholds, hbytes⟩ := hl.read sz
    rw [hbytes, hread, ← hflat] at *
    exact ⟨rfl, rest, hrest, hholds⟩

/-! ### Three blocks -/

/-- Nodes of one byte. -/
def threeNodes : DcQueueList := ⟨[.data [1] 0, .data [2] 0, .data [3] 0], some (0, 1)⟩

theorem threeNodes_blocks : HasBlocks threeNodes [[1], [2], [3]] :=
  ⟨.front (.data [1] 0) [.data [2] 0, .data [3] 0] 0 Nat.one_pos, rfl⟩

theorem read_exactly_iff_two : ReadsExactly threeNodes [[1], [2], [3]] 2 :=
  (read_exactly_iff threeNodes_blocks 2).mpr (.inl (Nat.le_refl 2))

/-- Three bytes are there, and two are read. -/
theorem third_block_not_read :
    ¬ ∀ (Q : Type) [BlockQueue Q] (q : Q) (blks : List Bytes), HasBlocks q blks → ∀ sz, ReadsExactly q blks sz := by
  intro h
  have hcopied := (h DcQueueList threeNodes _ threeNodes_blocks 3).copied
  have hread : (read threeNodes 3).2 = (2, [1, 2]) := rfl
  rw [hread] at hcopied
  exact absurd hcopied (by decide)

end Fon9.Buffer.BlockQueue
