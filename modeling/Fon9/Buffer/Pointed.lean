import Fon9.Buffer.Blocks

/-! The pointer to the current block. `Peek1` gives it away as it is, so that whoever finds it
not null reads the byte that it points to. -/

namespace Fon9.Buffer

open List

/-- The front node is there for its bytes. -/
theorem DcQueueList.Holds.currBlock_cons {q : DcQueueList} {b : UInt8} {s : Bytes} (h : q.Holds (b :: s)) :
    ∃ block, q.currBlock = b :: block := by
  generalize hbytes : b :: s = bytes at h
  cases h with
  | empty => cases hbytes
  | front node rest current hlt =>
    rw [currBlock_front]
    cases hblock : node.content.drop current with
    | nil =>
      rw [BufferNode.dataSize] at hlt
      exact absurd (drop_eq_nil_iff.mp hblock) (not_le.mpr hlt)
    | cons b' block =>
      rw [hblock, cons_append] at hbytes
      exact ⟨block, by rw [head_eq_of_cons_eq hbytes]⟩

/-- A queue with the bytes from `MemCurrent_` to `MemEnd_`, `none` where the pointers are null.
No bytes are left: the pointers are null. -/
class PointedDcQueue (Q : Type) extends LawfulDcQueue Q where
  mem : Q → Option Bytes
  mem_nil : ∀ {q}, Holds q [] → mem q = none
  mem_cons : ∀ {q b s}, Holds q (b :: s) → ∃ block, mem q = some (b :: block)

instance : PointedDcQueue DcQueueList where
  mem q := q.mem.map fun _ => q.currBlock
  mem_nil {q} h := by
    rw [DcQueueList.Holds.eq_empty h rfl]
    rfl
  mem_cons {q b s} h := by
    obtain ⟨block, hblock⟩ := h.currBlock_cons
    cases hmem : q.mem with
    | none => cases h.mem_isNone.mp hmem
    | some mem => exact ⟨block, congrArg some hblock⟩

/-! ### A queue over a range of memory -/

/-- `DcQueueFixedMem`: the range from `MemCurrent_` to `MemEnd_`. -/
structure DcQueueFixedMem where
  mem : Option Bytes := none
  deriving DecidableEq, Repr

namespace DcQueueFixedMem

/-- `DcQueueFixedMem{mem, sz}`; the pointer is taken as it is, for a size of zero too. -/
def ofMem (mem : Bytes) : DcQueueFixedMem := ⟨some mem⟩

variable (q : DcQueueFixedMem)

def getCurrBlockSize : ℕ := q.mem.elim 0 List.length

/-- `Peek`; there is nothing more than the current block. -/
def peek (sz : ℕ) : Option Bytes :=
  if sz ≤ q.getCurrBlockSize then q.mem.map (List.take sz) else none

/-- `PopConsumed`; `DcQueueRemoveMore` clears the current block. -/
def popConsumed (sz : ℕ) : DcQueueFixedMem :=
  if sz < q.getCurrBlockSize then ⟨q.mem.map (List.drop sz)⟩ else {}

def read (sz : ℕ) : DcQueueFixedMem × Bytes :=
  let usedCurr := if sz < q.getCurrBlockSize then sz else q.getCurrBlockSize
  if usedCurr = 0 then (q, [])
  else if sz ≤ usedCurr then (q.popConsumed sz, (q.mem.getD []).take sz)
  else ({}, q.mem.getD [])

def fetch (sz : ℕ) : DcQueueFixedMem × ℕ × Bytes :=
  match q.peek sz with
  | some ptr => (q.popConsumed sz, sz, ptr)
  | none => (q, 0, [])

def popUnknownChar (ch : UInt8) : DcQueueFixedMem × ℕ :=
  match q.mem with
  | none => (q, 0)
  | some block =>
    match block.findIdx? (· == ch) with
    | some sz => if 0 < sz then (q.popConsumed sz, sz) else (q, 0)
    | none => (q.popConsumed block.length, block.length)

/-- The bytes of the range, where there are some; otherwise the pointers are null. -/
def Holds (s : Bytes) : Prop := q.mem = if s = [] then none else some s

variable {q : DcQueueFixedMem} {s : Bytes}

theorem Holds.nil (h : q.Holds []) : q = {} := by
  cases q
  exact congrArg mk h

theorem Holds.of_ne_nil (h : q.Holds s) (hs : s ≠ []) : q = ⟨some s⟩ := by
  rw [Holds, if_neg hs] at h
  cases q
  exact congrArg mk h

theorem holds_mk (hs : s ≠ []) : Holds ⟨some s⟩ s := by rw [Holds, if_neg hs]

theorem holds_empty : Holds {} [] := rfl

theorem Holds.peek (h : q.Holds s) (sz : ℕ) :
    q.peek sz = if sz ≤ s.length ∧ s ≠ [] then some (s.take sz) else none := by
  by_cases hs : s = []
  · subst hs
    rw [h.nil, if_neg fun hsz => hsz.2 rfl]
    simp [DcQueueFixedMem.peek]
  · rw [h.of_ne_nil hs]
    show (if sz ≤ s.length then some (s.take sz) else none) = _
    simp only [ne_eq, hs, not_false_eq_true, and_true]

theorem Holds.popConsumed (h : q.Holds s) (sz : ℕ) : (q.popConsumed sz).Holds (s.drop sz) := by
  by_cases hs : s = []
  · subst hs
    rw [h.nil, drop_nil]
    exact holds_empty
  · rw [h.of_ne_nil hs, DcQueueFixedMem.popConsumed]
    split
    · next hlt =>
      have hlt' : sz < s.length := hlt
      exact holds_mk (ne_nil_of_length_pos (by rw [length_drop]; omega))
    · next hge =>
      have hge' : s.length ≤ sz := Nat.le_of_not_lt hge
      rw [drop_eq_nil_of_le hge']
      exact holds_empty

theorem Holds.read (h : q.Holds s) (sz : ℕ) : (q.read sz).1.Holds (s.drop sz) ∧ (q.read sz).2 = s.take sz := by
  have hpop := h.popConsumed sz
  by_cases hs : s = []
  · subst hs
    rw [h.nil, drop_nil, take_nil]
    simp [DcQueueFixedMem.read, getCurrBlockSize, holds_empty]
  · have hpos := length_pos_iff.mpr hs
    rw [h.of_ne_nil hs] at hpop ⊢
    have hsize : getCurrBlockSize ⟨some s⟩ = s.length := rfl
    rw [DcQueueFixedMem.read, hsize]
    rcases lt_or_ge sz s.length with hlt | hge
    · rcases Nat.eq_zero_or_pos sz with rfl | hsz
      · simp [hpos, holds_mk hs]
      · simp only [if_pos hlt, if_neg hsz.ne', le_refl, if_true]
        exact ⟨hpop, rfl⟩
    · simp only [if_neg (not_lt.mpr hge), if_neg hpos.ne']
      rw [drop_eq_nil_of_le hge, take_of_length_le hge]
      split
      · next hle =>
        rw [drop_eq_nil_of_le hge] at hpop
        exact ⟨hpop, take_of_length_le hge⟩
      · exact ⟨holds_empty, rfl⟩

theorem Holds.fetch (h : q.Holds s) (sz : ℕ) :
    (q.fetch sz).1.Holds (if sz ≤ s.length then s.drop sz else s) ∧
      (q.fetch sz).2 = if sz ≤ s.length then (sz, s.take sz) else (0, []) := by
  rw [DcQueueFixedMem.fetch, h.peek]
  by_cases hs : s = []
  · subst hs
    rw [if_neg fun hsz => hsz.2 rfl]
    rw [drop_nil, take_nil, ite_self]
    refine ⟨h, ?_⟩
    by_cases hle : sz ≤ ([] : Bytes).length
    · rw [if_pos hle, Nat.le_zero.mp hle]
    · rw [if_neg hle]
  · by_cases hle : sz ≤ s.length
    · rw [if_pos ⟨hle, hs⟩, if_pos hle, if_pos hle]
      exact ⟨h.popConsumed sz, rfl⟩
    · rw [if_neg fun hsz => hle hsz.1, if_neg hle, if_neg hle]
      exact ⟨h, rfl⟩

end DcQueueFixedMem

instance : DcQueue DcQueueFixedMem where
  peek := DcQueueFixedMem.peek
  read := DcQueueFixedMem.read
  fetch := DcQueueFixedMem.fetch
  popConsumed := DcQueueFixedMem.popConsumed
  popUnknownChar := DcQueueFixedMem.popUnknownChar
  calcSize := DcQueueFixedMem.getCurrBlockSize

instance : PointedDcQueue DcQueueFixedMem where
  Holds := DcQueueFixedMem.Holds
  peek_eq h sz := h.peek sz
  read_eq h sz := h.read sz
  fetch_eq h sz := h.fetch sz
  popConsumed_eq h sz := h.popConsumed sz
  calcSize_eq {q s} h := by
    by_cases hs : s = []
    · subst hs
      rw [h.nil]
      rfl
    · rw [h.of_ne_nil hs]
      rfl
  mem := DcQueueFixedMem.mem
  mem_nil h := congrArg DcQueueFixedMem.mem h.nil
  mem_cons {q b s} h := ⟨s, congrArg DcQueueFixedMem.mem (h.of_ne_nil (List.cons_ne_nil b s))⟩

end Fon9.Buffer
