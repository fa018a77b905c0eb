import Fon9.Buffer.DcQueueList
import Fon9.Lib.Run

/-! The queue of received bytes as a queue of bytes: where the bytes lie in the nodes does
not matter to any operation. -/

namespace Fon9.Buffer

open List Option

/-- The bytes of the nodes. -/
def contents (nodes : List BufferNode) : Bytes := nodes.flatMap BufferNode.content

@[simp] theorem contents_nil : contents [] = [] := rfl

@[simp] theorem contents_cons (node : BufferNode) (rest : List BufferNode) :
    contents (node :: rest) = node.content ++ contents rest := rfl

@[simp] theorem contents_append (nodes nodes' : List BufferNode) :
    contents (nodes ++ nodes') = contents nodes ++ contents nodes' := flatMap_append

theorem calcDataSize_eq (nodes : List BufferNode) : calcDataSize nodes = (contents nodes).length := by
  induction nodes with
  | nil => rfl
  | cons node rest ih => rw [calcDataSize, ih, contents_cons, length_append, BufferNode.dataSize]

theorem content_of_size {node : BufferNode} (h : ¬ 0 < node.dataSize) : node.content = [] := by
  rw [BufferNode.dataSize] at h
  exact length_eq_zero_iff.mp (by omega)

namespace DcQueueList

/-- The queue holds the bytes `s`, the front node some of them. -/
inductive Holds : DcQueueList → Bytes → Prop
  | empty : Holds {} []
  | front (node : BufferNode) (rest : List BufferNode) (current : ℕ) (h : current < node.dataSize) :
      Holds ⟨node :: rest, some (current, node.dataSize)⟩ (node.content.drop current ++ contents rest)

variable {q : DcQueueList} {s : Bytes}

theorem Holds.mem_isNone (h : Holds q s) : q.mem = none ↔ s = [] := by
  cases h with
  | empty => exact ⟨fun _ => rfl, fun _ => rfl⟩
  | front node rest current h =>
    rw [BufferNode.dataSize] at h
    constructor
    · exact nofun
    · intro hs
      have hlen := congrArg length hs
      rw [length_append, length_drop, length_nil] at hlen
      omega

theorem Holds.split (h : Holds q s) :
    q.getCurrBlockSize = q.currBlock.length ∧ s = q.currBlock ++ contents q.blockList.tail := by
  cases h with
  | empty => exact ⟨rfl, rfl⟩
  | front node rest current h =>
    have hblock : currBlock ⟨node :: rest, some (current, node.dataSize)⟩ = node.content.drop current := by
      show (node.content.take node.content.length).drop current = _
      rw [take_length]
    rw [hblock, length_drop]
    exact ⟨rfl, rfl⟩

/-- The bytes in the queue. -/
def bytes (q : DcQueueList) : Bytes := q.currBlock ++ contents q.blockList.tail

theorem Holds.bytes_eq (h : Holds q s) : q.bytes = s := h.split.2.symm

/-! ### The loops over the nodes -/

variable (nodes : List BufferNode)

theorem frontLoop_holds : Holds (frontLoop nodes) (contents nodes) := by
  induction nodes with
  | nil => exact .empty
  | cons node rest ih =>
    rw [frontLoop]
    split
    · next hsize => exact .front node rest 0 hsize
    · next hsize =>
      rw [contents_cons, content_of_size hsize]
      exact ih

theorem removeLoop_holds (sz : ℕ) :
    Holds (removeLoop nodes sz) ((contents nodes).drop sz) := by
  induction nodes generalizing sz with
  | nil =>
    rw [contents_nil, drop_nil]
    exact .empty
  | cons node rest ih =>
    rw [removeLoop, contents_cons, drop_append]
    split
    · split
      · next hlt =>
        rw [BufferNode.dataSize] at hlt
        rw [Nat.sub_eq_zero_of_le hlt.le, drop_zero]
        exact .front node rest sz hlt
      · next hle =>
        rw [BufferNode.dataSize, not_lt] at hle
        rw [drop_eq_nil_of_le hle]
        exact ih _
    · next hsize =>
      rw [content_of_size hsize, drop_nil, length_nil, Nat.sub_zero, nil_append]
      exact ih sz

theorem readLoop_spec (sz : ℕ) :
    Holds (readLoop nodes sz).1 ((contents nodes).drop sz) ∧ (readLoop nodes sz).2 = (contents nodes).take sz := by
  induction nodes generalizing sz with
  | nil =>
    rw [contents_nil, drop_nil, take_nil]
    exact ⟨.empty, rfl⟩
  | cons node rest ih =>
    rw [readLoop, contents_cons, drop_append, take_append]
    split
    · split
      · next hlt =>
        rw [BufferNode.dataSize] at hlt
        rw [Nat.sub_eq_zero_of_le hlt.le, drop_zero, take_zero, append_nil]
        exact ⟨.front node rest sz hlt, rfl⟩
      · next hle =>
        rw [BufferNode.dataSize, not_lt] at hle
        obtain ⟨hholds, hbytes⟩ := ih (sz - node.content.length)
        rw [drop_eq_nil_of_le hle, take_of_length_le hle, ← hbytes]
        exact ⟨hholds, rfl⟩
    · next hsize =>
      rw [content_of_size hsize, drop_nil, take_nil, length_nil, Nat.sub_zero, nil_append,
        nil_append]
      exact ih sz

theorem peekLoop_eq {sz : ℕ} (hsz : 0 < sz) :
    peekLoop nodes sz = if sz ≤ (contents nodes).length then some ((contents nodes).take sz) else none := by
  induction nodes generalizing sz with
  | nil =>
    rw [peekLoop, if_neg]
    rw [contents_nil, length_nil]
    omega
  | cons node rest ih =>
    rw [peekLoop, contents_cons, length_append, take_append]
    split
    · next hsize =>
      rw [BufferNode.dataSize] at hsize ⊢
      by_cases hle : sz ≤ node.content.length
      · have hpeek : (if sz < node.content.length then sz else node.content.length) = sz := by
          split <;> omega
        simp only [hpeek]
        rw [Nat.sub_self, if_pos rfl, if_pos (by omega), Nat.sub_eq_zero_of_le hle, take_zero, append_nil]
      · simp only [if_neg (by omega : ¬ sz < node.content.length)]
        rw [if_neg (by omega), ih (by omega), take_length,
          take_of_length_le (by omega : node.content.length ≤ sz)]
        by_cases hrest : sz - node.content.length ≤ (contents rest).length
        · rw [if_pos hrest, if_pos (by omega)]
          rfl
        · rw [if_neg hrest, if_neg (by omega)]
          rfl
    · next hsize =>
      rw [content_of_size hsize, ih hsz, length_nil, zero_add, Nat.sub_zero, take_nil]
      rfl

theorem hasMoreLoop_eq {nodesz sz : ℕ} (h : nodesz < sz) :
    hasMoreLoop nodes nodesz sz = decide (sz ≤ nodesz + (contents nodes).length) := by
  induction nodes generalizing nodesz with
  | nil =>
    symm
    rw [hasMoreLoop, decide_eq_false_iff_not, contents_nil, length_nil]
    omega
  | cons node rest ih =>
    rw [hasMoreLoop, contents_cons, length_append, BufferNode.dataSize]
    split
    · symm
      rw [decide_eq_true_iff]
      omega
    · rw [ih (by omega), add_assoc]

/-! ### The operations -/

section

variable (h : Holds q s) (sz : ℕ)
include h

theorem Holds.popConsumed : Holds (q.popConsumed sz) (s.drop sz) := by
  obtain ⟨hsize, hs⟩ := h.split
  rw [DcQueueList.popConsumed]
  split
  · next hlt =>
    cases h with
    | empty => exact absurd hlt (Nat.not_lt_zero sz)
    | front node rest current hcur =>
      have hlt' : current + sz < node.dataSize := by
        have hlt : sz < node.dataSize - current := hlt
        omega
      have hdrop : (node.content.drop current ++ contents rest).drop sz =
          node.content.drop (current + sz) ++ contents rest := by
        rw [BufferNode.dataSize] at hlt'
        rw [drop_append_of_le_length, drop_drop]
        rw [length_drop]
        omega
      rw [hdrop]
      exact .front node rest (current + sz) hlt'
  · next hle =>
    rw [hs, drop_append, drop_eq_nil_of_le (by omega : q.currBlock.length ≤ sz), ← hsize, nil_append]
    cases h with
    | empty =>
      rw [DcQueueList.dcQueueRemoveMore, tail_nil, contents_nil, drop_nil]
      exact .empty
    | front node rest current hcur => exact removeLoop_holds rest _

theorem Holds.peek :
    q.peek sz = if sz ≤ s.length ∧ s ≠ [] then some (s.take sz) else none := by
  obtain ⟨hsize, hs⟩ := h.split
  have hnil := h.mem_isNone
  have hlen : s.length = q.currBlock.length + (contents q.blockList.tail).length := by
    rw [hs, length_append]
  rw [DcQueueList.peek]
  split
  · next hle =>
    have htake : s.take sz = q.currBlock.take sz := by
      rw [hs, take_append_of_le_length (by omega)]
    cases hmem : q.mem with
    | none => rw [if_neg fun hne => hne.2 (hnil.mp hmem)]
    | some mem =>
      rw [if_pos, htake]
      refine ⟨by omega, fun hs => ?_⟩
      rw [hnil.mpr hs] at hmem
      cases hmem
  · next hgt =>
    rw [peekLoop_eq _ (by omega)]
    by_cases hle : sz ≤ s.length
    · have hne : s ≠ [] := by
        rintro rfl
        rw [length_nil] at hle
        omega
      rw [if_pos (by omega), if_pos ⟨hle, hne⟩, map_some]
      congr 1
      rw [hs, take_append, take_of_length_le (by omega : q.currBlock.length ≤ sz), hsize]
    · rw [if_neg (by omega), if_neg fun hle' => hle hle'.1]
      rfl

theorem Holds.isSizeEnough : q.isSizeEnough sz = decide (sz ≤ s.length) := by
  obtain ⟨hsize, hs⟩ := h.split
  have hlen : s.length = q.currBlock.length + (contents q.blockList.tail).length := by
    rw [hs, length_append]
  rw [DcQueueList.isSizeEnough]
  split
  · symm
    rw [decide_eq_true_iff]
    omega
  · rw [hasMoreLoop_eq _ (by omega)]
    congr 1
    rw [eq_iff_iff]
    omega

theorem Holds.fetch :
    Holds (q.fetch sz).1 (if sz ≤ s.length then s.drop sz else s) ∧
      (q.fetch sz).2 = if sz ≤ s.length then (sz, s.take sz) else (0, []) := by
  rw [DcQueueList.fetch, h.peek sz]
  by_cases hle : sz ≤ s.length
  · rw [if_pos hle, if_pos hle]
    by_cases hne : s = []
    · rw [hne, length_nil] at hle
      rw [if_neg fun hne' => hne'.2 hne, hne, Nat.le_zero.mp hle]
      rw [hne] at h
      exact ⟨h, rfl⟩
    · rw [if_pos ⟨hle, hne⟩]
      exact ⟨h.popConsumed sz, rfl⟩
  · rw [if_neg hle, if_neg hle, if_neg fun hle' => hle hle'.1]
    exact ⟨h, rfl⟩

theorem Holds.read : Holds (q.read sz).1 (s.drop sz) ∧ (q.read sz).2 = s.take sz := by
  obtain ⟨hsize, hs⟩ := h.split
  have hused : (if sz < q.getCurrBlockSize then sz else q.getCurrBlockSize) = min sz q.currBlock.length := by
    rw [hsize]
    split <;> omega
  rw [DcQueueList.read]
  simp only [hused]
  split
  · next hzero =>
    -- nothing asked for, or nothing left
    have hsz : sz = 0 ∨ q.currBlock.length = 0 := by omega
    obtain rfl | hblock := hsz
    · exact ⟨h, rfl⟩
    · cases h with
      | empty =>
        rw [drop_nil, take_nil]
        exact ⟨.empty, rfl⟩
      | front node rest current hcur =>
        rw [← hsize] at hblock
        have hblock : node.dataSize - current = 0 := hblock
        omega
  · split
    · next hle =>
      have hle : sz ≤ q.currBlock.length := by omega
      refine ⟨h.popConsumed sz, ?_⟩
      rw [hs, take_append_of_le_length hle]
    · next hgt =>
      have hgt : q.currBlock.length ≤ sz := by omega
      obtain ⟨hholds, hbytes⟩ := readLoop_spec q.blockList.tail (sz - q.currBlock.length)
      rw [Nat.min_eq_right hgt, dcQueueReadMore, hbytes]
      have hdrop : s.drop sz = (contents q.blockList.tail).drop (sz - q.currBlock.length) := by
        rw [hs, drop_append, drop_eq_nil_of_le hgt, nil_append]
      have htake : s.take sz = q.currBlock ++ (contents q.blockList.tail).take (sz - q.currBlock.length) := by
        rw [hs, take_append, take_of_length_le hgt]
      rw [hdrop, htake, take_length]
      exact ⟨hholds, rfl⟩

end

theorem Holds.pushBack (h : Holds q s) (buf : List BufferNode) : Holds (q.pushBack buf) (s ++ contents buf) := by
  cases h with
  | empty => exact frontLoop_holds buf
  | front node rest current h =>
    rw [append_assoc, ← contents_append]
    exact .front node (rest ++ buf) current h

/-- An `Append` goes into the last node or into a node of its own. -/
theorem contents_appendToBuffer (dst : List BufferNode) (src : Bytes) (remainSize : ℕ) :
    contents (appendToBuffer dst src remainSize) = contents dst ++ src := by
  have hnew : contents (dst ++ [.data src remainSize]) = contents dst ++ src := by
    rw [contents_append, contents_cons, contents_nil, append_nil]
    rfl
  rw [appendToBuffer]
  split
  · next content room hlast =>
    split
    · exact hnew
    · have hdst := List.dropLast_append_getLast? _ hlast
      rw [contents_append, contents_cons, contents_nil, append_nil, BufferNode.content, ← append_assoc]
      congr 1
      conv_rhs => rw [← hdst]
      rw [contents_append, contents_cons, contents_nil, append_nil, BufferNode.content]
  · exact hnew

theorem appendToBuffer_ne_nil (dst : List BufferNode) (src : Bytes) (remainSize : ℕ) :
    appendToBuffer dst src remainSize ≠ [] := by
  rw [appendToBuffer]
  split
  · split <;> exact append_ne_nil_of_right_ne_nil _ (cons_ne_nil _ _)
  · exact append_ne_nil_of_right_ne_nil _ (cons_ne_nil _ _)

/-- With more than one node the front node is left alone. -/
theorem appendToBuffer_cons (node node' : BufferNode) (rest : List BufferNode) (src : Bytes) (remainSize : ℕ) :
    appendToBuffer (node :: node' :: rest) src remainSize = node :: appendToBuffer (node' :: rest) src remainSize := by
  have hlast : (node :: node' :: rest).getLast? = (node' :: rest).getLast? := getLast?_cons_cons
  rw [appendToBuffer, appendToBuffer, hlast]
  split
  · split <;> rfl
  · rfl

theorem Holds.append (h : Holds q s) (src : Bytes) (remainSize : ℕ) : Holds (q.append src remainSize) (s ++ src) := by
  cases h with
  | empty =>
    have hnew := frontLoop_holds [.data src remainSize]
    rw [contents_cons, contents_nil, append_nil] at hnew
    exact hnew
  | front node rest current h =>
    rw [DcQueueList.append, if_pos (by rfl)]
    cases rest with
    | nil =>
      rw [contents_nil, append_nil]
      cases node with
      | «virtual» => exact absurd h (Nat.not_lt_zero current)
      | data content room =>
        have hlen : current < content.length := h
        show Holds (backExpanded ⟨if room < src.length then _ else _, _⟩) _
        split
        · have hnew := Holds.front (.data content room) [.data src remainSize] current h
          rw [contents_cons, contents_nil, append_nil] at hnew
          exact hnew
        · have hlt : current < (BufferNode.data (content ++ src) (room - src.length)).dataSize := by
            show current < (content ++ src).length
            rw [length_append]
            omega
          have hext := Holds.front _ [] current hlt
          rw [contents_nil, append_nil] at hext
          have hdrop : (content ++ src).drop current = content.drop current ++ src :=
            drop_append_of_le_length hlen.le
          rw [BufferNode.content, hdrop] at hext
          exact hext
    | cons node' rest =>
      have hbytes : node.content.drop current ++ contents (node' :: rest) ++ src =
          node.content.drop current ++ contents (appendToBuffer (node' :: rest) src remainSize) := by
        rw [contents_appendToBuffer, append_assoc]
      rw [hbytes, appendToBuffer_cons]
      cases hback : appendToBuffer (node' :: rest) src remainSize with
      | nil => exact absurd hback (appendToBuffer_ne_nil _ _ _)
      | cons back nodes => exact .front node (back :: nodes) current h

theorem Holds.calcSize (h : Holds q s) : q.calcSize = s.length := by
  cases h with
  | empty => rfl
  | front node rest current h =>
    show node.dataSize - current + calcDataSize rest = _
    rw [calcDataSize_eq, length_append, length_drop]
    rfl

theorem Holds.moveOutToList (h : Holds q s) :
    Holds q.moveOutToList.1 [] ∧ contents q.moveOutToList.2 = s := by
  cases h with
  | empty => exact ⟨.empty, rfl⟩
  | front node rest current h =>
    refine ⟨.empty, ?_⟩
    show contents (node.moveDataBeginOffset current :: rest) = _
    rw [contents_cons]
    cases node with
    | data content remainSize => rfl
    | «virtual» => exact absurd h (Nat.not_lt_zero current)

/-! ### The search for a byte -/

theorem findIdx_append (block rest : Bytes) (ch : UInt8) :
    match block.findIdx? (· == ch) with
    | some i => ((block ++ rest).takeWhile (· != ch)).length = i ∧
        (block ++ rest).dropWhile (· != ch) = (block ++ rest).drop i
    | none => ((block ++ rest).takeWhile (· != ch)).length = block.length + (rest.takeWhile (· != ch)).length ∧
        (block ++ rest).dropWhile (· != ch) = rest.dropWhile (· != ch) := by
  induction block with
  | nil => exact ⟨(zero_add _).symm, rfl⟩
  | cons b block ih =>
    rw [findIdx?_cons, cons_append]
    by_cases hb : b = ch
    · simp [hb]
    · simp only [beq_iff_eq, hb, if_false, takeWhile_cons, dropWhile_cons, bne_iff_ne, ne_eq,
        not_false_eq_true, if_true, length_cons]
      cases hfind : block.findIdx? (· == ch) with
      | none =>
        rw [hfind] at ih
        simp only [map_none]
        exact ⟨by omega, ih.2⟩
      | some i =>
        rw [hfind] at ih
        simp only [map_some]
        exact ⟨by omega, ih.2⟩

theorem removeLoop_length (sz : ℕ) :
    (removeLoop nodes sz).blockList.length ≤ nodes.length := by
  induction nodes generalizing sz with
  | nil => exact le_rfl
  | cons node rest ih =>
    have hrest := ih sz
    have hrest' := ih (sz - node.dataSize)
    rw [removeLoop, length_cons]
    split
    · split
      · exact le_rfl
      · omega
    · omega

theorem popUnknownLoop_spec (ch : UInt8) (fuel : ℕ) (h : Holds q s) (hfuel : q.blockList.length < fuel) :
    Holds (popUnknownLoop ch fuel q).1 (s.dropWhile (· != ch)) ∧
      (popUnknownLoop ch fuel q).2 = (s.takeWhile (· != ch)).length := by
  induction fuel generalizing q s with
  | zero => exact absurd hfuel (Nat.not_lt_zero _)
  | succ fuel ih =>
    obtain ⟨hsize, hs⟩ := h.split
    have hfind := findIdx_append q.currBlock (contents q.blockList.tail) ch
    rw [← hs] at hfind
    have hnil := h.mem_isNone
    rw [popUnknownLoop]
    cases hmem : q.mem with
    | none =>
      rw [hnil.mp hmem] at h ⊢
      exact ⟨h, rfl⟩
    | some mem =>
      cases hidx : q.currBlock.findIdx? (· == ch) with
      | some sz =>
        rw [hidx] at hfind
        obtain ⟨hlen, hdrop⟩ := hfind
        simp only [hlen, hdrop]
        split
        · exact ⟨h.popConsumed sz, rfl⟩
        · have hzero : sz = 0 := by omega
          subst hzero
          exact ⟨h, rfl⟩
      | none =>
        rw [hidx] at hfind
        obtain ⟨hlen, hdrop⟩ := hfind
        have hpop := h.popConsumed q.getCurrBlockSize
        have hrest : s.drop q.getCurrBlockSize = contents q.blockList.tail := by
          rw [hsize, hs, drop_left]
        rw [hrest] at hpop
        have hnodes : (q.popConsumed q.getCurrBlockSize).blockList.length < fuel := by
          rw [DcQueueList.popConsumed, if_neg (lt_irrefl _)]
          cases h with
          | empty => cases hmem
          | front node rest current h =>
            have hle := removeLoop_length rest 0
            rw [Nat.sub_self]
            show (removeLoop rest 0).blockList.length < fuel
            have hfuel : rest.length + 1 < fuel + 1 := hfuel
            omega
        obtain ⟨hholds, hremoved⟩ := ih hpop hnodes
        simp only [hlen, hdrop, hsize] at hholds hremoved ⊢
        exact ⟨hholds, by rw [hremoved]⟩

theorem Holds.popUnknownChar (h : Holds q s) (ch : UInt8) :
    Holds (q.popUnknownChar ch).1 (s.dropWhile (· != ch)) ∧
      (q.popUnknownChar ch).2 = (s.takeWhile (· != ch)).length :=
  popUnknownLoop_spec ch _ h (Nat.lt_succ_self _)

end DcQueueList

/-! ### The interface -/

/-- `DcQueue`: what a reader of the bytes calls. -/
class DcQueue (Q : Type) where
  peek : Q → ℕ → Option Bytes
  read : Q → ℕ → Q × Bytes
  fetch : Q → ℕ → Q × ℕ × Bytes
  popConsumed : Q → ℕ → Q
  popUnknownChar : Q → UInt8 → Q × ℕ
  calcSize : Q → ℕ

instance : DcQueue DcQueueList where
  peek := DcQueueList.peek
  read := DcQueueList.read
  fetch := DcQueueList.fetch
  popConsumed := DcQueueList.popConsumed
  popUnknownChar := DcQueueList.popUnknownChar
  calcSize := DcQueueList.calcSize

/-- The bytes alone. -/
instance : DcQueue Bytes where
  peek s sz := if sz ≤ s.length ∧ s ≠ [] then some (s.take sz) else none
  read s sz := (s.drop sz, s.take sz)
  fetch s sz := if sz ≤ s.length then (s.drop sz, sz, s.take sz) else (s, 0, [])
  popConsumed s sz := s.drop sz
  popUnknownChar s ch := (s.dropWhile (· != ch), (s.takeWhile (· != ch)).length)
  calcSize s := s.length

/-! ### Runs -/

inductive Op
  | pushBack (buf : List BufferNode)
  | append (src : Bytes) (remainSize : ℕ)
  | peek (sz : ℕ)
  | read (sz : ℕ)
  | fetch (sz : ℕ)
  | popConsumed (sz : ℕ)
  | popUnknownChar (ch : UInt8)
  | isSizeEnough (sz : ℕ)
  | calcSize
  | moveOutToList

/-- What an operation returns: nothing, a pointer to bytes, bytes copied, a size, an answer. -/
inductive Result
  | done
  | pointer (ptr : Option Bytes)
  | copied (sz : ℕ) (buf : Bytes)
  | size (sz : ℕ)
  | answer (b : Bool)
  | moved (bytes : Bytes)
  deriving DecidableEq

namespace DcQueueList

def step (q : DcQueueList) : Op → DcQueueList × Result
  | .pushBack buf => (q.pushBack buf, .done)
  | .append src remainSize => (q.append src remainSize, .done)
  | .peek sz => (q, .pointer (q.peek sz))
  | .read sz =>
    let r := q.read sz
    (r.1, .copied r.2.length r.2)
  | .fetch sz =>
    let r := q.fetch sz
    (r.1, .copied r.2.1 r.2.2)
  | .popConsumed sz => (q.popConsumed sz, .done)
  | .popUnknownChar ch =>
    let r := q.popUnknownChar ch
    (r.1, .size r.2)
  | .isSizeEnough sz => (q, .answer (q.isSizeEnough sz))
  | .calcSize => (q, .size q.calcSize)
  | .moveOutToList =>
    let r := q.moveOutToList
    (r.1, .moved (contents r.2))

end DcQueueList

/-- The operations on a queue of bytes. -/
def queueStep (s : Bytes) : Op → Bytes × Result
  | .pushBack buf => (s ++ contents buf, .done)
  | .append src _ => (s ++ src, .done)
  | .peek sz => (s, .pointer (if sz ≤ s.length ∧ s ≠ [] then some (s.take sz) else none))
  | .read sz => (s.drop sz, .copied (min sz s.length) (s.take sz))
  | .fetch sz => if sz ≤ s.length then (s.drop sz, .copied sz (s.take sz)) else (s, .copied 0 [])
  | .popConsumed sz => (s.drop sz, .done)
  | .popUnknownChar ch => (s.dropWhile (· != ch), .size (s.takeWhile (· != ch)).length)
  | .isSizeEnough sz => (s, .answer (sz ≤ s.length))
  | .calcSize => (s, .size s.length)
  | .moveOutToList => ([], .moved s)

open DcQueueList Lib

theorem step_holds (q : DcQueueList) (s : Bytes) (op : Op) (h : Holds q s) :
    Holds (q.step op).1 (queueStep s op).1 ∧ (q.step op).2 = (queueStep s op).2 := by
  cases op with
  | pushBack buf => exact ⟨h.pushBack buf, rfl⟩
  | append src remainSize => exact ⟨h.append src remainSize, rfl⟩
  | peek sz => exact ⟨h, congrArg Result.pointer (h.peek sz)⟩
  | read sz =>
    obtain ⟨hholds, hbytes⟩ := h.read sz
    refine ⟨hholds, ?_⟩
    show Result.copied (q.read sz).2.length (q.read sz).2 = .copied (min sz s.length) (s.take sz)
    rw [hbytes, length_take]
  | fetch sz =>
    obtain ⟨hholds, hbytes⟩ := h.fetch sz
    have hres : (q.step (.fetch sz)).2 = .copied (q.fetch sz).2.1 (q.fetch sz).2.2 := rfl
    rw [hres, hbytes, queueStep]
    split
    · next hle =>
      rw [if_pos hle] at hholds
      exact ⟨hholds, rfl⟩
    · next hle =>
      rw [if_neg hle] at hholds
      exact ⟨hholds, rfl⟩
  | popConsumed sz => exact ⟨h.popConsumed sz, rfl⟩
  | popUnknownChar ch =>
    obtain ⟨hholds, hsize⟩ := h.popUnknownChar ch
    exact ⟨hholds, congrArg Result.size hsize⟩
  | isSizeEnough sz => exact ⟨h, congrArg Result.answer (h.isSizeEnough sz)⟩
  | calcSize => exact ⟨h, congrArg Result.size h.calcSize⟩
  | moveOutToList =>
    obtain ⟨hholds, hbytes⟩ := h.moveOutToList
    exact ⟨hholds, congrArg Result.moved hbytes⟩

/-- After any operations the queue has returned what a queue of bytes returns and holds its
bytes, and `MemCurrent_` is null where there are none. -/
theorem run_refines_queue (ops : List Op) :
    (trace DcQueueList.step {} ops).2 = (trace queueStep [] ops).2 ∧
      (trace DcQueueList.step {} ops).1.bytes = (trace queueStep [] ops).1 ∧
      ((trace DcQueueList.step {} ops).1.mem = none ↔ (trace queueStep [] ops).1 = []) := by
  obtain ⟨hholds, hres⟩ := trace_simulates step_holds Holds.empty ops
  exact ⟨hres, hholds.bytes_eq, hholds.mem_isNone⟩

/-- A null pointer does not always mean that fewer bytes are left: `Peek` of no bytes returns
the null `MemCurrent_` of an empty queue. -/
theorem peek_zero_of_empty :
    ¬ ∀ (ops : List Op) (sz : ℕ), (trace DcQueueList.step {} ops).1.peek sz = none ↔
      (trace queueStep [] ops).1.length < sz := by
  intro h
  exact absurd ((h [] 0).mp rfl) (lt_irrefl 0)

end Fon9.Buffer
