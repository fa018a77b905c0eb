import Fon9.Buffer.ByteQueue

/-! Where the bytes of the queue lie in its blocks. Taking bytes from the front moves the
others to the front and not to other blocks.

Queues that hold bytes: every operation of the interface is decided by the bytes that
are left, however they are stored. -/

namespace Fon9.Buffer

/-- The `sz` bytes from `start` on are bytes of one block. -/
def inOneBlock : List Bytes → ℕ → ℕ → Bool
  | [], _, _ => false
  | block :: rest, start, sz =>
    if start < block.length then start + sz ≤ block.length else inOneBlock rest (start - block.length) sz

@[simp] theorem inOneBlock_nil_cons (rest : List Bytes) (start sz : ℕ) :
    inOneBlock ([] :: rest) start sz = inOneBlock rest start sz := by
  simp [inOneBlock]

/-- A block behind its first bytes. -/
theorem inOneBlock_drop (block : Bytes) (rest : List Bytes) {n : ℕ} (h : n < block.length) (start sz : ℕ) :
    inOneBlock (block.drop n :: rest) start sz = inOneBlock (block :: rest) (n + start) sz := by
  simp only [inOneBlock, List.length_drop]
  by_cases hstart : n + start < block.length
  · rw [if_pos hstart, if_pos (by omega)]
    congr 1
    rw [eq_iff_iff]
    omega
  · have hsub : start - (block.length - n) = n + start - block.length := by omega
    rw [if_neg hstart, if_neg (by omega), hsub]

/-- What lies behind a block. -/
theorem inOneBlock_skip (block : Bytes) (rest : List Bytes) (start sz : ℕ) :
    inOneBlock (block :: rest) (block.length + start) sz = inOneBlock rest start sz := by
  rw [inOneBlock, if_neg (by omega), Nat.add_sub_cancel_left]

namespace DcQueueList

/-- The bytes of the current block and of the nodes behind it. -/
def blocks (q : DcQueueList) : List Bytes := q.currBlock :: q.blockList.tail.map BufferNode.content

variable {q : DcQueueList} {s : Bytes}

theorem currBlock_front (node : BufferNode) (rest : List BufferNode) (current : ℕ) :
    currBlock ⟨node :: rest, some (current, node.dataSize)⟩ = node.content.drop current := by
  show (node.content.take node.content.length).drop current = _
  rw [List.take_length]

theorem inOneBlock_front (node : BufferNode) (rest : List BufferNode) {current : ℕ} (h : current < node.dataSize)
    (start sz : ℕ) :
    inOneBlock (blocks ⟨node :: rest, some (current, node.dataSize)⟩) start sz =
      inOneBlock (node.content :: rest.map BufferNode.content) (current + start) sz := by
  rw [blocks, currBlock_front]
  exact inOneBlock_drop _ _ h start sz

theorem Holds.eq_empty (h : Holds q s) (hs : s = []) : q = {} := by
  have hmem := h.mem_isNone.mpr hs
  cases h with
  | empty => rfl
  | front node rest current h => cases hmem

/-- In the first block. -/
theorem Holds.inOneBlock_zero (h : Holds q s) {sz : ℕ} (hsz : 0 < sz) :
    inOneBlock q.blocks 0 sz = decide (sz ≤ q.getCurrBlockSize) := by
  cases h with
  | empty => exact (decide_eq_false (not_le.mpr hsz)).symm
  | front node rest current h =>
    rw [inOneBlock_front node rest h, inOneBlock, BufferNode.dataSize] at *
    rw [if_pos (by omega)]
    congr 1
    rw [eq_iff_iff]
    show _ ↔ sz ≤ node.content.length - current
    omega

theorem inOneBlock_removeLoop (nodes : List BufferNode) (n start sz : ℕ) :
    inOneBlock (removeLoop nodes n).blocks start sz = inOneBlock (nodes.map BufferNode.content) (n + start) sz := by
  induction nodes generalizing n with
  | nil => rfl
  | cons node rest ih =>
    rw [removeLoop, List.map_cons]
    split
    · split
      · next hlt => exact inOneBlock_front node rest hlt start sz
      · next hle =>
        rw [BufferNode.dataSize] at hle ⊢
        have hsum : n + start = node.content.length + (n - node.content.length + start) := by omega
        rw [ih, hsum, inOneBlock_skip]
    · next hsize => rw [content_of_size hsize, inOneBlock_nil_cons, ih]

theorem blocks_readLoop (nodes : List BufferNode) (n : ℕ) : (readLoop nodes n).1 = removeLoop nodes n := by
  induction nodes generalizing n with
  | nil => rfl
  | cons node rest ih =>
    rw [readLoop, removeLoop]
    split
    · split
      · rfl
      · exact ih _
    · exact ih n

theorem Holds.inOneBlock_popConsumed (h : Holds q s) (n start sz : ℕ) :
    inOneBlock (q.popConsumed n).blocks start sz = inOneBlock q.blocks (n + start) sz := by
  cases h with
  | empty =>
    have hpop : DcQueueList.popConsumed {} n = {} := by
      simp [DcQueueList.popConsumed, getCurrBlockSize, dcQueueRemoveMore]
    rw [hpop]
    simp [blocks, currBlock, inOneBlock]
  | front node rest current h =>
    rw [DcQueueList.popConsumed, inOneBlock_front node rest h]
    split
    · next hlt =>
      have hlt : n < node.dataSize - current := hlt
      have hfront := inOneBlock_front node rest (show current + n < node.dataSize by omega) start sz
      rw [add_assoc] at hfront
      exact hfront
    · next hle =>
      have hle : ¬ n < node.content.length - current := hle
      rw [BufferNode.dataSize] at h
      have hremove := inOneBlock_removeLoop rest (n - (node.content.length - current)) start sz
      have hsum : current + (n + start) = node.content.length + (n - (node.content.length - current) + start) := by
        omega
      rw [hsum, inOneBlock_skip, ← hremove]
      rfl

/-- Reading removes as `popConsumed` does, where something is read. -/
theorem Holds.read_popConsumed (h : Holds q s) {n : ℕ} (hn : 0 < n) : (q.read n).1 = q.popConsumed n := by
  cases h with
  | empty =>
    have hread : DcQueueList.read {} n = ({}, []) := by
      simp [DcQueueList.read, getCurrBlockSize]
    simp [hread, DcQueueList.popConsumed, getCurrBlockSize, dcQueueRemoveMore]
  | front node rest current h =>
    have hsize : getCurrBlockSize ⟨node :: rest, some (current, node.dataSize)⟩ = node.dataSize - current := rfl
    rw [DcQueueList.read, hsize]
    dsimp only
    split_ifs with hlt hzero hle hzero' hle'
    · omega
    · rfl
    · omega
    · omega
    · rfl
    · rw [DcQueueList.popConsumed, hsize, if_neg hlt]
      exact blocks_readLoop rest _

end DcQueueList

end Fon9.Buffer

namespace Fon9.Buffer

open DcQueue

/-- `Peek1`: the first byte, null where there is none. -/
def peek1 {Q : Type} [DcQueue Q] (q : Q) : Option UInt8 := (DcQueue.peek q 1).bind List.head?

/-- `IsSizeEnough`. -/
def isSizeEnough {Q : Type} [DcQueue Q] (q : Q) (sz : ℕ) : Bool := sz ≤ DcQueue.calcSize q

/-- A queue with the bytes that it holds. -/
class LawfulDcQueue (Q : Type) extends DcQueue Q where
  Holds : Q → Bytes → Prop
  peek_eq : ∀ {q s}, Holds q s → ∀ sz, peek q sz = if sz ≤ s.length ∧ s ≠ [] then some (s.take sz) else none
  read_eq : ∀ {q s}, Holds q s → ∀ sz, Holds (read q sz).1 (s.drop sz) ∧ (read q sz).2 = s.take sz
  fetch_eq : ∀ {q s}, Holds q s → ∀ sz,
    Holds (fetch q sz).1 (if sz ≤ s.length then s.drop sz else s) ∧
      (fetch q sz).2 = if sz ≤ s.length then (sz, s.take sz) else (0, [])
  popConsumed_eq : ∀ {q s}, Holds q s → ∀ sz, Holds (popConsumed q sz) (s.drop sz)
  calcSize_eq : ∀ {q s}, Holds q s → calcSize q = s.length

open LawfulDcQueue

instance : LawfulDcQueue DcQueueList where
  Holds := DcQueueList.Holds
  peek_eq h sz := h.peek sz
  read_eq h sz := h.read sz
  fetch_eq h sz := h.fetch sz
  popConsumed_eq h sz := h.popConsumed sz
  calcSize_eq h := h.calcSize

instance : LawfulDcQueue Bytes where
  Holds q s := q = s
  peek_eq h sz := by rw [h]; rfl
  read_eq h sz := by rw [h]; exact ⟨rfl, rfl⟩
  fetch_eq {q s} h sz := by
    rw [h]
    simp only [DcQueue.fetch]
    split
    · exact ⟨rfl, rfl⟩
    · exact ⟨rfl, rfl⟩
  popConsumed_eq h sz := by rw [h]; rfl
  calcSize_eq h := by rw [h]; rfl

export LawfulDcQueue (Holds)

section Peek

variable {Q : Type} [LawfulDcQueue Q] {q : Q} {s : Bytes}

theorem peek1_eq (h : Holds q s) : peek1 q = s.head? := by
  rw [peek1, peek_eq h]
  cases s with
  | nil => rfl
  | cons b s => rfl

theorem isSizeEnough_eq (h : Holds q s) (sz : ℕ) : isSizeEnough q sz = decide (sz ≤ s.length) := by
  rw [isSizeEnough, LawfulDcQueue.calcSize_eq h]

theorem peek_append {front rest : Bytes} (h : Holds q (front ++ rest)) (hfront : front ≠ []) :
    peek q front.length = some front := by
  have hne : front ++ rest ≠ [] := List.append_ne_nil_of_left_ne_nil hfront rest
  have hle : front.length ≤ (front ++ rest).length := by
    rw [List.length_append]
    exact Nat.le_add_right _ _
  rw [peek_eq h, if_pos ⟨hle, hne⟩, List.take_left]

theorem peek_short {sz : ℕ} (h : Holds q s) (hlt : s.length < sz) : peek q sz = none := by
  rw [peek_eq h, if_neg]
  rintro ⟨hle, -⟩
  exact absurd hlt (not_lt.mpr hle)

theorem popConsumed_append {front rest : Bytes} (h : Holds q (front ++ rest)) :
    Holds (popConsumed q front.length) rest := by
  have hpop := popConsumed_eq h front.length
  rwa [List.drop_left] at hpop

theorem read_append {front rest : Bytes} (h : Holds q (front ++ rest)) :
    Holds (read q front.length).1 rest ∧ (read q front.length).2 = front := by
  obtain ⟨hholds, hbytes⟩ := LawfulDcQueue.read_eq h front.length
  rw [List.drop_left] at hholds
  rw [List.take_left] at hbytes
  exact ⟨hholds, hbytes⟩

end Peek

end Fon9.Buffer
