import Fon9.Buffer.Pointed

/-! A queue of blocks: an implementation of `DcQueue` gives the current block and removes
blocks, and the reading over several blocks is that of the base. -/

namespace Fon9.Buffer

open List

/-- What an implementation supplies, with the blocks that it has and what is asked of it.
The current block is `none` where `MemCurrent_` is null. -/
class BlockQueue (Q : Type) where
  peekCurrBlock : Q → Option Bytes
  /-- `MemCurrent_ += sz`. -/
  moveCurrent : Q → ℕ → Q
  dcQueueRemoveMore : Q → ℕ → Q
  calcSize : Q → ℕ
  HasBlocks : Q → List Bytes → Prop
  ne_nil : ∀ {q blks}, HasBlocks q blks → ∀ blk ∈ blks, blk ≠ []
  peekCurrBlock_eq : ∀ {q blks}, HasBlocks q blks → peekCurrBlock q = blks.head?
  calcSize_eq : ∀ {q blks}, HasBlocks q blks → calcSize q = blks.flatten.length
  moveCurrent_blocks : ∀ {q blk blks sz}, HasBlocks q (blk :: blks) → sz < blk.length →
    HasBlocks (moveCurrent q sz) (blk.drop sz :: blks)
  removeMore_zero : ∀ {q blks}, HasBlocks q blks → HasBlocks (dcQueueRemoveMore q 0) blks.tail
  removeMore_blocks : ∀ {q blks sz}, HasBlocks q blks → sz ≤ blks.tail.flatten.length →
    ∃ rest, HasBlocks (dcQueueRemoveMore q sz) rest ∧ rest.flatten = blks.tail.flatten.drop sz

namespace BlockQueue

variable {Q : Type} [BlockQueue Q]

def getCurrBlockSize (q : Q) : ℕ := (peekCurrBlock q).elim 0 List.length

/-- The bytes from `MemCurrent_` to `MemEnd_`. -/
def currBlock (q : Q) : Bytes := (peekCurrBlock q).getD []

def popConsumed (q : Q) (sz : ℕ) : Q :=
  let blkszCurr := getCurrBlockSize q
  if sz < blkszCurr then moveCurrent q sz else dcQueueRemoveMore q (sz - blkszCurr)

/-- The subtraction of two `size_t`. -/
def sizeSub (a b : ℕ) : ℕ := if b ≤ a then a - b else a + 2 ^ 64 - b

/-- The loop of the base's `DcQueueReadMore`: the size and the bytes copied. A turn that goes
on has copied a byte, so that the size of the queue bounds their number. -/
def readMoreLoop : ℕ → Q → ℕ → Q × ℕ × Bytes
  | 0, q, _ => (q, 0, [])
  | fuel + 1, q, sz =>
    if getCurrBlockSize q = 0 then (q, 0, [])
    else
      let blkszCurr := if sz < getCurrBlockSize q then sz else getCurrBlockSize q
      let buf := (currBlock q).take blkszCurr
      let q := popConsumed q blkszCurr
      -- `sz -= blkszCurr <= 0` takes the outcome of the comparison from `sz`
      let sz := sizeSub sz (if blkszCurr ≤ 0 then 1 else 0)
      if sz ≠ 0 then (q, blkszCurr, buf)
      else
        let r := readMoreLoop fuel q sz
        (r.1, blkszCurr + r.2.1, buf ++ r.2.2)

def dcQueueReadMore (q : Q) (sz : ℕ) : Q × ℕ × Bytes :=
  let q := dcQueueRemoveMore q 0
  readMoreLoop (calcSize q + 1) q sz

/-- `Read`: the size returned and the bytes copied. -/
def read (q : Q) (sz : ℕ) : Q × ℕ × Bytes :=
  let blkszCurr := getCurrBlockSize q
  let usedCurr := if sz < blkszCurr then sz else blkszCurr
  if usedCurr ≤ 0 then (q, 0, [])
  else if sz ≤ usedCurr then (popConsumed q sz, sz, (currBlock q).take usedCurr)
  else
    let r := dcQueueReadMore q (sz - usedCurr)
    (r.1, usedCurr + r.2.1, (currBlock q).take usedCurr ++ r.2.2)

/-! ### The current block -/

variable {q : Q} {blk : Bytes} {blks : List Bytes}

theorem getCurrBlockSize_eq (h : HasBlocks q blks) : getCurrBlockSize q = (blks.headD []).length := by
  rw [getCurrBlockSize, peekCurrBlock_eq h]
  cases blks with
  | nil => rfl
  | cons blk blks => rfl

theorem currBlock_eq (h : HasBlocks q blks) : currBlock q = blks.headD [] := by
  rw [currBlock, peekCurrBlock_eq h, List.headD_eq_head?_getD]

theorem length_pos (h : HasBlocks q (blk :: blks)) : 0 < blk.length :=
  length_pos_iff.mpr (ne_nil h blk mem_cons_self)

/-- The whole current block. -/
theorem popConsumed_block (h : HasBlocks q (blk :: blks)) : HasBlocks (popConsumed q blk.length) blks := by
  have hsize := getCurrBlockSize_eq h
  rw [headD_cons] at hsize
  rw [popConsumed, hsize, if_neg (lt_irrefl _), Nat.sub_self]
  exact removeMore_zero h

/-- A part of the current block, or all of it. -/
theorem popConsumed_front (h : HasBlocks q (blk :: blks)) {sz : ℕ} (hsz : sz ≤ blk.length) :
    ∃ rest, HasBlocks (popConsumed q sz) rest ∧ rest.flatten = (blk :: blks).flatten.drop sz := by
  rw [flatten_cons, drop_append_of_le_length hsz]
  obtain rfl | hlt := hsz.eq_or_lt
  · rw [drop_length, nil_append]
    exact ⟨blks, popConsumed_block h, rfl⟩
  · have hsize := getCurrBlockSize_eq h
    rw [headD_cons] at hsize
    rw [popConsumed, hsize, if_pos hlt]
    exact ⟨blk.drop sz :: blks, moveCurrent_blocks h hlt, flatten_cons⟩

end BlockQueue

/-! ### Implementations -/

instance : BlockQueue DcQueueFixedMem where
  peekCurrBlock q := q.mem
  moveCurrent q sz := ⟨q.mem.map (·.drop sz)⟩
  dcQueueRemoveMore _ _ := {}
  calcSize q := q.mem.elim 0 List.length
  HasBlocks q blks := blks = q.mem.toList ∧ q.mem ≠ some []
  ne_nil := by
    rintro ⟨_ | mem⟩ blks ⟨rfl, hne⟩ blk hblk
    · simp at hblk
    · rw [Option.toList_some, List.mem_singleton] at hblk
      rw [hblk]
      exact fun hmem => hne (congrArg some hmem)
  peekCurrBlock_eq := by
    rintro ⟨_ | mem⟩ blks ⟨rfl, -⟩ <;> rfl
  calcSize_eq := by
    rintro ⟨_ | mem⟩ blks ⟨rfl, -⟩ <;> simp
  moveCurrent_blocks := by
    rintro ⟨_ | mem⟩ blk blks sz ⟨hblks, hne⟩ hsz
    · simp at hblks
    · rw [Option.toList_some, List.cons.injEq] at hblks
      obtain ⟨rfl, rfl⟩ := hblks
      refine ⟨rfl, fun hdrop => ?_⟩
      have hlen := List.drop_eq_nil_iff.mp (Option.some.inj hdrop)
      omega
  removeMore_zero := by
    rintro ⟨_ | mem⟩ blks ⟨rfl, -⟩ <;> exact ⟨rfl, nofun⟩
  removeMore_blocks := by
    rintro ⟨_ | mem⟩ blks sz ⟨rfl, -⟩ hsz <;> exact ⟨[], ⟨rfl, nofun⟩, by simp⟩

namespace DcQueueList

/-- The blocks that are not empty. -/
def dataBlocks (q : DcQueueList) : List Bytes :=
  match q.mem with
  | none => []
  | some _ => q.currBlock :: (q.blockList.tail.map BufferNode.content).filter (· ≠ [])

theorem flatten_filter_content (nodes : List BufferNode) :
    ((nodes.map BufferNode.content).filter (· ≠ [])).flatten = contents nodes := by
  induction nodes with
  | nil => rfl
  | cons node rest ih =>
    rw [map_cons, filter_cons, contents_cons, ← ih]
    by_cases hnil : node.content = []
    · rw [hnil]
      rfl
    · rw [if_pos (decide_eq_true hnil), flatten_cons]

variable {q : DcQueueList} {s : Bytes}

theorem Holds.flatten_dataBlocks (h : q.Holds s) : q.dataBlocks.flatten = s := by
  rw [h.split.2, dataBlocks]
  cases h with
  | empty => rfl
  | front node rest current h => rw [flatten_cons, flatten_filter_content]

theorem Holds.dataBlocks_ne_nil (h : q.Holds s) : ∀ blk ∈ q.dataBlocks, blk ≠ [] := by
  intro blk hblk
  cases h with
  | empty => simp [dataBlocks] at hblk
  | front node rest current h =>
    rw [dataBlocks, currBlock_front, mem_cons] at hblk
    obtain rfl | hrest := hblk
    · exact fun hnil => absurd (drop_eq_nil_iff.mp hnil) (not_le.mpr h)
    · exact of_decide_eq_true (mem_filter.mp hrest).2

theorem dataBlocks_removeLoop (nodes : List BufferNode) :
    (removeLoop nodes 0).dataBlocks = (nodes.map BufferNode.content).filter (· ≠ []) := by
  induction nodes with
  | nil => rfl
  | cons node rest ih =>
    rw [removeLoop, map_cons, filter_cons]
    split
    · next hsize =>
      have hne : node.content ≠ [] := length_pos_iff.mp hsize
      rw [if_pos (decide_eq_true hne), dataBlocks, currBlock_front, drop_zero]
      rfl
    · next hsize =>
      rw [content_of_size hsize, ih]
      rfl

end DcQueueList

instance : BlockQueue DcQueueList where
  peekCurrBlock q := q.mem.map fun _ => q.currBlock
  moveCurrent q sz := { q with mem := q.mem.map fun mem => (mem.1 + sz, mem.2) }
  dcQueueRemoveMore := DcQueueList.dcQueueRemoveMore
  calcSize := DcQueueList.calcSize
  HasBlocks q blks := q.Holds blks.flatten ∧ blks = q.dataBlocks
  ne_nil := by
    rintro q blks ⟨h, hblks⟩
    rw [hblks]
    exact h.dataBlocks_ne_nil
  peekCurrBlock_eq := by
    rintro q blks ⟨-, rfl⟩
    rw [DcQueueList.dataBlocks]
    cases q.mem with
    | none => rfl
    | some mem => rfl
  calcSize_eq h := h.1.calcSize
  moveCurrent_blocks := by
    rintro q blk blks sz ⟨h, hblks⟩ hsz
    have hblk : q.currBlock = blk ∧ (q.blockList.tail.map BufferNode.content).filter (· ≠ []) = blks ∧
        q.mem.isSome := by
      rw [DcQueueList.dataBlocks] at hblks
      cases hmem : q.mem with
      | none => simp [hmem] at hblks
      | some mem =>
        rw [hmem, List.cons.injEq] at hblks
        exact ⟨hblks.1.symm, hblks.2.symm, rfl⟩
    obtain ⟨rfl, rfl, -⟩ := hblk
    generalize hs : (q.currBlock :: (q.blockList.tail.map BufferNode.content).filter (· ≠ [])).flatten = s at h
    cases h with
    | empty => exact absurd hsz (Nat.not_lt_zero sz)
    | front node rest current h =>
      rw [DcQueueList.currBlock_front, List.length_drop] at hsz
      have hcur : current + sz < node.dataSize := Nat.add_lt_of_lt_sub' hsz
      have hfront := DcQueueList.Holds.front node rest (current + sz) hcur
      constructor
      · rw [DcQueueList.currBlock_front, List.drop_drop, List.flatten_cons, List.tail_cons,
          DcQueueList.flatten_filter_content]
        exact hfront
      · rw [DcQueueList.currBlock_front, List.drop_drop, ← DcQueueList.currBlock_front node rest]
        rfl
  removeMore_zero := by
    rintro q blks ⟨h, hblks⟩
    generalize hs : blks.flatten = s at h
    cases h with
    | empty =>
      rw [hblks]
      exact ⟨.empty, rfl⟩
    | front node rest current h =>
      have htail : blks.tail = (rest.map BufferNode.content).filter (· ≠ []) := by
        rw [hblks]
        rfl
      have hremove := DcQueueList.removeLoop_holds rest 0
      rw [List.drop_zero, ← DcQueueList.flatten_filter_content, ← htail] at hremove
      exact ⟨hremove, htail.trans (DcQueueList.dataBlocks_removeLoop rest).symm⟩
  removeMore_blocks := by
    rintro q blks sz ⟨h, hblks⟩ hsz
    generalize hs : blks.flatten = s at h
    cases h with
    | empty =>
      rw [hblks]
      exact ⟨[], ⟨.empty, rfl⟩, by simp [DcQueueList.dataBlocks]⟩
    | front node rest current h =>
      have htail : blks.tail.flatten = contents rest := by
        rw [hblks, ← DcQueueList.flatten_filter_content]
        rfl
      have hremove := DcQueueList.removeLoop_holds rest sz
      have hflat := hremove.flatten_dataBlocks
      rw [htail]
      exact ⟨(DcQueueList.removeLoop rest sz).dataBlocks, ⟨by rwa [hflat], rfl⟩, hflat⟩

end Fon9.Buffer
