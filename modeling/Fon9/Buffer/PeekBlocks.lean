import Fon9.Buffer.Notify
import Fon9.Buffer.SinglyLinkedList

/-! `PeekBlockVector`. It counts the blocks of data it finds, and cuts the list behind the
last node it has visited as if there were so many nodes. -/

namespace Fon9.Buffer

open Lib Notify List Nat

/-- `StyleFlags_` of a control node. -/
structure StyleFlags where
  allowCrossing : Bool
  deriving DecidableEq

/-- `DcQueueList`, with the links of its nodes; `mem` as in `DcQueueList`. -/
structure LinkedQueue (α : Type*) where
  list : SinglyLinkedList α := {}
  mem : Option (ℕ × ℕ) := none

/-- A block of `vect`: `size` bytes from the `offset`th byte of the data of `node` on. -/
structure DataBlock (α : Type*) where
  node : α
  offset : ℕ
  size : ℕ
  deriving DecidableEq

/-- What `PeekBlockVector` leaves: the blocks, whose number it returns, the links, the
queue and the split list. -/
structure Peeked (α : Type*) where
  vect : List (DataBlock α)
  next : α → Option α
  queue : LinkedQueue α
  split : Option (SinglyLinkedList α)

namespace LinkedQueue

variable {α : Type*}

/-- A turn of the loop, with the node and the blocks so far; it ends with the node. -/
def peekBody (next : α → Option α) (nodes : α → Node StyleFlags) (maxCount : ℕ) :
    α × List (DataBlock α) → (α × List (DataBlock α)) ⊕ (Option α × List (DataBlock α))
  | (node, vect) =>
    if vect.length < maxCount then
      match next node with
      | none => .inr (none, vect)
      | some node =>
        if 0 < (nodes node).dataSize then .inl (node, vect ++ [⟨node, 0, (nodes node).dataSize⟩])
        else
          match nodes node with
          | .virtual vnode => if vnode.allowCrossing then .inl (node, vect) else .inr (some node, vect)
          | .data _ _ => .inl (node, vect)
    else .inr (some node, vect)

def peekBlockVector [DecidableEq α] (next : α → Option α) (nodes : α → Node StyleFlags) (q : LinkedQueue α)
    (maxCount : ℕ) (split : Option (SinglyLinkedList α)) (fuel : ℕ) : Option (Peeked α) :=
  match q.mem, q.list.head with
  | some (current, memEnd), some front =>
    (loop (peekBody next nodes maxCount) fuel (front, [⟨front, current, memEnd - current⟩])).map fun r =>
      match r.1, split with
      | some node, some split =>
        let r' := q.list.cut next r.2.length (some node) split
        ⟨r.2, r'.1, { q with list := r'.2.1 }, some r'.2.2⟩
      | _, split => ⟨r.2, next, q, split⟩
  | _, _ => some ⟨[], next, q, split⟩

/-! ### What it is for -/

variable (nodes : α → Node StyleFlags)

def hasData (p : α) : Bool := decide (0 < (nodes p).dataSize)

/-- A control node that must not be crossed. -/
def isBarrier (p : α) : Bool :=
  match nodes p with
  | .virtual vnode => !vnode.allowCrossing
  | .data _ _ => false

def wholeBlock (p : α) : DataBlock α := ⟨p, 0, (nodes p).dataSize⟩

/-- The blocks of the nodes behind the front one, before a control node not to be crossed. -/
def blocksBehind (rest : List α) : List (DataBlock α) :=
  ((rest.takeWhile fun p => !isBarrier nodes p).filter (hasData nodes)).map (wholeBlock nodes)

/-- The blocks of a queue of these nodes. -/
def blocks (mem : Option (ℕ × ℕ)) : List α → List (DataBlock α)
  | [] => []
  | front :: rest =>
    ⟨front, mem.elim 0 Prod.fst, mem.elim 0 fun mem => mem.2 - mem.1⟩ :: blocksBehind nodes rest

/-- The nodes visited to find `room` blocks: up to the last block, or to a control node not
to be crossed, or all. -/
def visitedBehind : ℕ → List α → List α
  | 0, _ => []
  | _ + 1, [] => []
  | room + 1, p :: rest =>
    p :: if hasData nodes p then visitedBehind room rest
      else if isBarrier nodes p then [] else visitedBehind (room + 1) rest

def visited (maxCount : ℕ) : List α → List α
  | [] => []
  | front :: rest => front :: visitedBehind nodes (maxCount - 1) rest

variable {nodes}

/-- A queue with these nodes, the front one with data not consumed. -/
structure Wf (next : α → Option α) (nodes : α → Node StyleFlags) (q : LinkedQueue α) (ptrs : List α) : Prop where
  counted : q.list.Counted next ptrs
  front : ptrs = [] ∧ q.mem = none ∨ ∃ front rest current, ptrs = front :: rest ∧
    q.mem = some (current, (nodes front).dataSize) ∧ current < (nodes front).dataSize

/-- The first blocks have been found. The queue has the nodes up to the last one visited,
the split list those behind it, and the counts are theirs. -/
structure Keeps (nodes : α → Node StyleFlags) (q : LinkedQueue α) (ptrs splitPtrs : List α) (maxCount : ℕ)
    (r : Peeked α) : Prop where
  vect : r.vect = (blocks nodes q.mem ptrs).take maxCount
  mem : r.queue.mem = q.mem
  queue : r.queue.list.Counted r.next (visited nodes maxCount ptrs)
  split : ∃ split, r.split = some split ∧
    split.Counted r.next (splitPtrs ++ ptrs.drop (visited nodes maxCount ptrs).length)

/-- The first `maxCount` nodes have data, or there are fewer with data and none behind
them that must not be crossed. -/
def CountsNodes (nodes : α → Node StyleFlags) (maxCount : ℕ) (ptrs : List α) : Prop :=
  maxCount ≤ ptrs.length ∧ (∀ p ∈ ptrs.take maxCount, hasData nodes p) ∨
    (ptrs.filter (hasData nodes)).length < maxCount ∧ ∀ p ∈ ptrs, ¬ isBarrier nodes p

/-! ### The loop -/

variable {next : α → Option α}

/-- The last node visited, `none` behind the last one of the list. -/
def lastVisited (nodes : α → Node StyleFlags) : ℕ → List α → α → Option α
  | 0, _, node => some node
  | _ + 1, [], _ => none
  | room + 1, p :: rest, _ =>
    if hasData nodes p then lastVisited nodes room rest p
    else if isBarrier nodes p then some p else lastVisited nodes (room + 1) rest p

theorem not_barrier_of_hasData {p : α} (h : hasData nodes p = true) : isBarrier nodes p = false := by
  rw [hasData, decide_eq_true_iff] at h
  rw [isBarrier]
  cases hp : nodes p with
  | data content remainSize => rfl
  | virtual vnode =>
    rw [hp] at h
    exact absurd h (lt_irrefl 0)

/-- A node with a block, one not to be crossed, and any other. -/
theorem blocksBehind_cons (p : α) (rest : List α) :
    blocksBehind nodes (p :: rest) =
      if hasData nodes p then wholeBlock nodes p :: blocksBehind nodes rest
      else if isBarrier nodes p then [] else blocksBehind nodes rest := by
  rw [blocksBehind, takeWhile_cons]
  by_cases hdata : hasData nodes p = true
  · simp [blocksBehind, hdata, not_barrier_of_hasData hdata]
  · by_cases hbarrier : isBarrier nodes p = true
    · simp [hdata, hbarrier]
    · simp [blocksBehind, hdata, hbarrier]

/-- A turn that visits a node. -/
theorem peekBody_next {maxCount : ℕ} {node p : α} {vect : List (DataBlock α)} (hlt : vect.length < maxCount)
    (hnext : next node = some p) :
    peekBody next nodes maxCount (node, vect) =
      if hasData nodes p then .inl (p, vect ++ [wholeBlock nodes p])
      else if isBarrier nodes p then .inr (some p, vect) else .inl (p, vect) := by
  rw [peekBody, if_pos hlt, hnext]
  dsimp only
  rw [hasData, isBarrier, wholeBlock]
  cases hp : nodes p with
  | data content remainSize => simp
  | virtual vnode => cases hcross : vnode.allowCrossing <;> simp [Node.dataSize, hcross]

variable {rest : List α}

theorem peek_loop {maxCount room : ℕ} {node : α} {vect : List (DataBlock α)} {fuel : ℕ}
    (hlinked : Linked next (next node) rest none) (hroom : vect.length + room = maxCount) (hfuel : rest.length < fuel)
    :
    loop (peekBody next nodes maxCount) fuel (node, vect) =
      some (lastVisited nodes room rest node, vect ++ (blocksBehind nodes rest).take room) := by
  induction rest generalizing node room vect fuel with
  | nil =>
    obtain ⟨fuel, rfl⟩ : ∃ n, fuel = n + 1 := ⟨fuel - 1, (Nat.sub_add_cancel hfuel).symm⟩
    have hnext : next node = none := hlinked
    refine loop_ends ?_
    cases room with
    | zero =>
      rw [peekBody, if_neg (by omega), take_zero, append_nil]
      rfl
    | succ room =>
      rw [peekBody, if_pos (by omega), hnext]
      exact congrArg (fun v => Sum.inr (none, v)) (append_nil vect).symm
  | cons p rest ih =>
    obtain ⟨fuel, rfl⟩ : ∃ n, fuel = n + 1 := ⟨fuel - 1, (Nat.sub_add_cancel (zero_lt_of_lt hfuel)).symm⟩
    have hfuel' : rest.length < fuel := lt_of_succ_lt_succ hfuel
    obtain ⟨hnext, hrest⟩ := hlinked
    cases room with
    | zero =>
      refine loop_ends ?_
      rw [peekBody, if_neg (by omega), take_zero, append_nil]
      rfl
    | succ room =>
      have hlt : vect.length < maxCount := by omega
      have hturn : peekBody next nodes maxCount (node, vect) = _ := peekBody_next hlt hnext
      rw [lastVisited, blocksBehind_cons]
      by_cases hdata : hasData nodes p = true
      · have hroom' : (vect ++ [wholeBlock nodes p]).length + room = maxCount := by
          rw [length_append, length_singleton]
          omega
        rw [if_pos hdata] at hturn
        rw [loop_goes hturn, ih hrest hroom' hfuel', if_pos hdata, if_pos hdata, take_succ_cons,
          append_assoc]
        rfl
      · rw [if_neg hdata] at hturn
        rw [if_neg hdata, if_neg hdata]
        by_cases hbarrier : isBarrier nodes p = true
        · rw [if_pos hbarrier] at hturn
          rw [loop_ends hturn, if_pos hbarrier, if_pos hbarrier, take_nil, append_nil]
        · rw [if_neg hbarrier] at hturn
          rw [loop_goes hturn, ih hrest hroom hfuel', if_neg hbarrier, if_neg hbarrier]

/-! ### What is visited -/

/-- The loop ends behind the last node where the nodes are visited all, with room left. -/
theorem lastVisited_none {room : ℕ} {node : α} (h : lastVisited nodes room rest node = none) :
    visitedBehind nodes room rest = rest ∧ (rest.filter (hasData nodes)).length < room ∧
      ∀ p ∈ rest, ¬ isBarrier nodes p := by
  induction rest generalizing room node with
  | nil =>
    cases room with
    | zero => exact nomatch h
    | succ room => exact ⟨rfl, succ_pos _, fun _ hp => nomatch hp⟩
  | cons p rest ih =>
    cases room with
    | zero => exact nomatch h
    | succ room =>
      rw [lastVisited] at h
      rw [visitedBehind]
      by_cases hdata : hasData nodes p = true
      · rw [if_pos hdata] at h
        obtain ⟨hvisited, hfew, hno⟩ := ih h
        rw [if_pos hdata, hvisited, filter_cons_of_pos hdata]
        refine ⟨rfl, succ_lt_succ hfew, forall_mem_cons.mpr ⟨?_, hno⟩⟩
        rw [not_barrier_of_hasData hdata]
        exact Bool.false_ne_true
      · rw [if_neg hdata] at h
        by_cases hbarrier : isBarrier nodes p = true
        · rw [if_pos hbarrier] at h
          exact nomatch h
        · rw [if_neg hbarrier] at h
          obtain ⟨hvisited, hfew, hno⟩ := ih h
          rw [if_neg hdata, if_neg hbarrier, hvisited, filter_cons_of_neg hdata]
          exact ⟨rfl, hfew, forall_mem_cons.mpr ⟨hbarrier, hno⟩⟩

/-- The blocks found are not more than the nodes visited. -/
theorem length_blocks_le (room : ℕ) (rest : List α) :
    ((blocksBehind nodes rest).take room).length ≤ (visitedBehind nodes room rest).length := by
  induction rest generalizing room with
  | nil =>
    have hnil : (blocksBehind nodes []).take room = [] := take_nil
    rw [hnil]
    exact Nat.zero_le _
  | cons p rest ih =>
    cases room with
    | zero => exact Nat.zero_le _
    | succ room =>
      rw [blocksBehind_cons, visitedBehind, length_cons]
      by_cases hdata : hasData nodes p = true
      · rw [if_pos hdata, if_pos hdata, take_succ_cons, length_cons]
        exact succ_le_succ (ih room)
      · rw [if_neg hdata, if_neg hdata]
        by_cases hbarrier : isBarrier nodes p = true
        · rw [if_pos hbarrier, if_pos hbarrier, take_nil]
          exact Nat.zero_le _
        · rw [if_neg hbarrier, if_neg hbarrier]
          exact (ih (room + 1)).trans (le_succ _)

/-- Otherwise the last node is one visited, and the nodes visited are as many as their
blocks only where each has data. -/
theorem lastVisited_some {room : ℕ} {node last : α} (h : lastVisited nodes room rest node = some last) :
    (∃ front, node :: visitedBehind nodes room rest = front ++ [last]) ∧
      (((blocksBehind nodes rest).take room).length = (visitedBehind nodes room rest).length ↔
        room ≤ rest.length ∧ ∀ p ∈ rest.take room, hasData nodes p) ∧
      ¬ ((rest.filter (hasData nodes)).length < room ∧ ∀ p ∈ rest, ¬ isBarrier nodes p) := by
  induction rest generalizing room node with
  | nil =>
    cases room with
    | zero =>
      obtain rfl := Option.some.inj h
      exact ⟨⟨[], rfl⟩, ⟨fun _ => ⟨le_refl 0, fun _ hp => nomatch hp⟩, fun _ => rfl⟩, fun hno => nomatch hno.1⟩
    | succ room => exact nomatch h
  | cons p rest ih =>
    cases room with
    | zero =>
      obtain rfl := Option.some.inj h
      exact ⟨⟨[], rfl⟩, ⟨fun _ => ⟨Nat.zero_le _, fun _ hp => nomatch hp⟩, fun _ => rfl⟩, fun hno => nomatch hno.1⟩
    | succ room =>
      rw [lastVisited] at h
      rw [blocksBehind_cons, visitedBehind, take_succ_cons, length_cons, forall_mem_cons]
      by_cases hdata : hasData nodes p = true
      · rw [if_pos hdata] at h
        obtain ⟨⟨front, hfront⟩, heven, hno⟩ := ih h
        rw [if_pos hdata, if_pos hdata, filter_cons_of_pos hdata, take_succ_cons, length_cons,
          length_cons, length_cons, Nat.add_right_cancel_iff, heven]
        refine ⟨⟨node :: front, by rw [hfront]; rfl⟩, ?_, fun hall => hno ⟨lt_of_succ_lt_succ hall.1, ?_⟩⟩
        · exact ⟨fun hrest => ⟨succ_le_succ hrest.1, hdata, hrest.2⟩,
            fun hrest => ⟨le_of_succ_le_succ hrest.1, hrest.2.2⟩⟩
        · exact fun q hq => hall.2 q (mem_cons_of_mem _ hq)
      · rw [if_neg hdata] at h
        rw [if_neg hdata, if_neg hdata, filter_cons_of_neg hdata]
        by_cases hbarrier : isBarrier nodes p = true
        · rw [if_pos hbarrier] at h
          obtain rfl := Option.some.inj h
          rw [if_pos hbarrier, if_pos hbarrier]
          refine ⟨⟨[node], rfl⟩, ?_, fun hall => hall.2 p (mem_cons_self ..) hbarrier⟩
          exact ⟨fun hlen => absurd hlen (zero_ne_add_one 0), fun hrest => absurd hrest.2.1 hdata⟩
        · rw [if_neg hbarrier] at h
          obtain ⟨⟨front, hfront⟩, heven, hno⟩ := ih h
          rw [if_neg hbarrier, if_neg hbarrier]
          refine ⟨⟨node :: front, by rw [hfront]; rfl⟩, ?_, fun hall => hno ⟨hall.1, ?_⟩⟩
          · have hle : ((blocksBehind nodes rest).take (room + 1)).length ≤ (visitedBehind nodes (room + 1) rest).length :=
              length_blocks_le (room + 1) rest
            exact ⟨fun hlen => by omega, fun hrest => absurd hrest.2.1 hdata⟩
          · exact fun q hq => hall.2 q (mem_cons_of_mem _ hq)

/-! ### The counts -/

variable {q : LinkedQueue α} {split : SinglyLinkedList α} {ptrs splitPtrs : List α} {maxCount : ℕ}

theorem visitedBehind_prefix (room : ℕ) (rest : List α) : visitedBehind nodes room rest <+: rest := by
  induction rest generalizing room with
  | nil => cases room <;> exact nil_prefix
  | cons p rest ih =>
    cases room with
    | zero => exact nil_prefix
    | succ room =>
      rw [visitedBehind, cons_prefix_cons]
      refine ⟨rfl, ?_⟩
      by_cases hdata : hasData nodes p = true
      · rw [if_pos hdata]
        exact ih room
      · rw [if_neg hdata]
        by_cases hbarrier : isBarrier nodes p = true
        · rw [if_pos hbarrier]
          exact nil_prefix
        · rw [if_neg hbarrier]
          exact ih (room + 1)

/-- The front node has data. -/
theorem countsNodes_cons {front : α} {room : ℕ} (hfront : hasData nodes front = true) :
    CountsNodes nodes (room + 1) (front :: rest) ↔
      room ≤ rest.length ∧ (∀ p ∈ rest.take room, hasData nodes p) ∨
        (rest.filter (hasData nodes)).length < room ∧ ∀ p ∈ rest, ¬ isBarrier nodes p := by
  have hbarrier := not_barrier_of_hasData hfront
  rw [CountsNodes, take_succ_cons, length_cons, filter_cons_of_pos hfront, length_cons,
    forall_mem_cons, forall_mem_cons, Nat.add_le_add_iff_right, Nat.add_lt_add_iff_right]
  simp only [hfront, hbarrier, true_and, Bool.false_eq_true, not_false_eq_true]

variable [DecidableEq α]

theorem peekBlockVector_of_empty (hq : q.Wf next nodes []) (split : Option (SinglyLinkedList α)) (fuel : ℕ) :
    q.peekBlockVector next nodes maxCount split fuel = some ⟨[], next, q, split⟩ := by
  have hmem : q.mem = none := by
    rcases hq.front with h | ⟨_, _, _, h, _⟩
    · exact h.2
    · exact nomatch h
  rw [peekBlockVector, hmem]

/-- `PeekBlockVector` returns, and with a split list it keeps the queue and the list as they
should be if and only if the first `maxCount` nodes have data, or all nodes are visited
before so many blocks are found. -/
theorem peekBlockVector_keeps_iff (hmax : 0 < maxCount) (hq : q.Wf next nodes ptrs)
    (hsplit : split.Counted next splitPtrs) (hdisj : ptrs.Disjoint splitPtrs) :
    ∃ r, (∃ n, ∀ fuel ≥ n, q.peekBlockVector next nodes maxCount (some split) fuel = some r) ∧
      (Keeps nodes q ptrs splitPtrs maxCount r ↔ CountsNodes nodes maxCount ptrs) := by
  cases ptrs with
  | nil =>
    refine ⟨_, ⟨0, fun fuel _ => peekBlockVector_of_empty hq (some split) fuel⟩, ?_⟩
    constructor
    · intro _
      exact .inr ⟨hmax, fun _ hp => by cases hp⟩
    · intro _
      refine ⟨(List.take_nil).symm, rfl, hq.counted, split, rfl, ?_⟩
      rw [List.drop_nil, List.append_nil]
      exact hsplit
  | cons front rest =>
    obtain ⟨current, hmem, hcurrent⟩ : ∃ current, q.mem = some (current, (nodes front).dataSize) ∧
        current < (nodes front).dataSize := by
      rcases hq.front with h | ⟨_, _, current, heq, hmem, hcurrent⟩
      · exact absurd h.1 (List.cons_ne_nil _ _)
      · obtain ⟨rfl, rfl⟩ := List.cons.inj heq
        exact ⟨current, hmem, hcurrent⟩
    have hdata : hasData nodes front = true := decide_eq_true (Nat.zero_lt_of_lt hcurrent)
    obtain ⟨hhead, hrest⟩ := hq.counted.linked
    obtain ⟨room, rfl⟩ : ∃ n, maxCount = n + 1 := ⟨maxCount - 1, (Nat.sub_add_cancel hmax).symm⟩
    have hloop : ∀ fuel ≥ rest.length + 1, q.peekBlockVector next nodes (room + 1) (some split) fuel =
        some ((lastVisited nodes room rest front).elim
          ⟨(blocks nodes q.mem (front :: rest)).take (room + 1), next, q, some split⟩ fun node =>
            let r' := q.list.cut next (((blocks nodes q.mem (front :: rest)).take (room + 1)).length) (some node) split
            ⟨(blocks nodes q.mem (front :: rest)).take (room + 1), r'.1, { q with list := r'.2.1 }, some r'.2.2⟩) := by
      intro fuel hfuel
      have h : loop (peekBody next nodes (room + 1)) fuel (front, [⟨front, current, (nodes front).dataSize - current⟩]) =
          some (lastVisited nodes room rest front, _) := peek_loop hrest (Nat.add_comm 1 room) hfuel
      rw [peekBlockVector, hmem, hhead]
      dsimp only
      rw [h]
      cases lastVisited nodes room rest front <;> rfl
    have hlen : ((blocks nodes q.mem (front :: rest)).take (room + 1)).length =
        ((blocksBehind nodes rest).take room).length + 1 := rfl
    refine ⟨_, ⟨rest.length + 1, hloop⟩, ?_⟩
    rw [countsNodes_cons hdata]
    cases hlast : lastVisited nodes room rest front with
    | none =>
      obtain ⟨hvisited, hfew⟩ := lastVisited_none hlast
      have hall : visited nodes (room + 1) (front :: rest) = front :: rest := congrArg (front :: ·) hvisited
      refine ⟨fun _ => .inr hfew, fun _ => ⟨rfl, rfl, ?_, split, rfl, ?_⟩⟩
      · rw [hall]
        exact hq.counted
      · rw [hall, List.drop_length, List.append_nil]
        exact hsplit
    | some last =>
      obtain ⟨⟨pre, hpre⟩, heven, hno⟩ := lastVisited_some hlast
      obtain ⟨behind, hbehind⟩ : visitedBehind nodes room rest <+: rest := visitedBehind_prefix room rest
      have hvisited : visited nodes (room + 1) (front :: rest) = pre ++ [last] := hpre
      have hptrs : front :: rest = pre ++ last :: behind := by
        rw [← hbehind, ← List.cons_append, hpre, List.append_assoc]
        rfl
      have hdrop : (front :: rest).drop (visited nodes (room + 1) (front :: rest)).length = behind := by
        rw [hvisited, hptrs, List.append_cons pre last behind, List.drop_left]
      have hpreLength : (visitedBehind nodes room rest).length = pre.length := by
        have h := congrArg List.length hpre
        rw [List.length_cons, List.length_append] at h
        exact Nat.add_right_cancel h
      have hle : ((blocksBehind nodes rest).take room).length ≤ pre.length := hpreLength ▸ length_blocks_le room rest
      have hle' : ((blocks nodes q.mem (front :: rest)).take (room + 1)).length ≤ pre.length + 1 := Nat.succ_le_succ hle
      have hlength : (pre ++ [last]).length = pre.length + 1 := List.length_append
      obtain ⟨hlist, hout, hcount, houtCount⟩ :=
        SinglyLinkedList.Counted.cut (hptrs ▸ hq.counted) hsplit.toIsList (hptrs ▸ hdisj) hle'
      rw [Option.elim_some]
      constructor
      · intro h
        have hqueue := h.queue.count
        rw [hvisited, hlength] at hqueue
        refine .inl (heven.mp ?_)
        rw [hpreLength]
        exact Nat.succ.inj (hcount.symm.trans hqueue)
      · intro h
        have heq := heven.mpr (h.resolve_right hno)
        rw [hpreLength] at heq
        refine ⟨rfl, rfl, ?_, _, rfl, ?_⟩
        · rw [hvisited]
          exact ⟨hlist, by rw [hcount, hlength, hlen, heq]⟩
        · rw [hdrop]
          refine ⟨hout, ?_⟩
          rw [houtCount, hsplit.count, List.length_append, hlen, heq, Nat.add_sub_cancel_left]
          cases behind <;> rfl

/-! A control node that may be crossed stands before the second of three data nodes. -/

def crossedNext : ℕ → Option ℕ
  | 0 => some 1
  | 1 => some 2
  | 2 => some 3
  | _ => none

def crossedNodes : ℕ → Node StyleFlags
  | 1 => .virtual ⟨true⟩
  | _ => .data [0] 0

def crossed : LinkedQueue ℕ := ⟨⟨some 0, some 3, 4⟩, some (0, 1)⟩

/-- Of the last two nodes one is visited. -/
theorem peekBlockVector_keeps_iff_two :
    ∃ r, (∃ n, ∀ fuel ≥ n,
        peekBlockVector crossedNext crossedNodes ⟨⟨some 2, some 3, 2⟩, some (0, 1)⟩ 1 (some {}) fuel = some r) ∧
      (Keeps crossedNodes ⟨⟨some 2, some 3, 2⟩, some (0, 1)⟩ [2, 3] [] 1 r ↔ CountsNodes crossedNodes 1 [2, 3]) :=
  peekBlockVector_keeps_iff (by decide)
    ⟨⟨⟨⟨rfl, rfl, rfl⟩, rfl, by decide⟩, rfl⟩, .inr ⟨2, [3], 0, rfl, rfl, by decide⟩⟩
    SinglyLinkedList.Counted.empty (List.disjoint_nil_right _)

/-- Two blocks are found in three nodes. The queue is said to have two. -/
theorem crossed_not_kept :
    crossed.Wf crossedNext crossedNodes [0, 1, 2, 3] ∧
      ¬ ∃ r, (∃ n, ∀ fuel ≥ n, crossed.peekBlockVector crossedNext crossedNodes 2 (some {}) fuel = some r) ∧
        Keeps crossedNodes crossed [0, 1, 2, 3] [] 2 r := by
  refine ⟨⟨⟨⟨⟨rfl, rfl, rfl, rfl, rfl⟩, rfl, by decide⟩, rfl⟩, .inr ⟨0, [1, 2, 3], 0, rfl, rfl, by decide⟩⟩, ?_⟩
  rintro ⟨r, ⟨n, hr⟩, hkeeps⟩
  have hcount : (crossed.peekBlockVector crossedNext crossedNodes 2 (some {}) (n + 5)).map
      (fun r => r.queue.list.count) = some 2 := rfl
  have hqueue : r.queue.list.count = 3 := hkeeps.queue.count
  rw [hr (n + 5) (Nat.le_add_right _ _), Option.map_some, hqueue] at hcount
  exact absurd hcount (by decide)

end LinkedQueue

end Fon9.Buffer
