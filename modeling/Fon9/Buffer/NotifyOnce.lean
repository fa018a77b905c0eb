import Fon9.Buffer.Notify

/-! Which notices the control nodes get over a whole run. A control node stands behind so
many bytes of the stream; where the bytes are consumed it is told so, once. `ConsumeErr`
tells each of those left twice. -/

namespace Fon9.Buffer.Notify

open List

variable {C : Type*}

/-- A control node and the number of bytes pushed before it. -/
abbrev Mark (C : Type*) := C × ℕ

/-- The control nodes of `nodes`, whose first byte is the one at `pos`. -/
def marks (pos : ℕ) : List (Node C) → List (Mark C)
  | [] => []
  | .data content _ :: rest => marks (pos + content.length) rest
  | .virtual vnode :: rest => (vnode, pos) :: marks pos rest

def dataSizes : List (Node C) → ℕ
  | [] => 0
  | node :: rest => node.dataSize + dataSizes rest

/-- The stream of what was pushed, and how much of it was consumed. -/
structure Stream (C : Type*) where
  marks : List (Mark C) := []
  pushed : ℕ := 0
  consumed : ℕ := 0

/-- Pushes and pops. `Fetch`, `PopUnknownChar` and `AppendTo` pop through these. -/
inductive Op (C : Type*)
  | pushBack (buf : List (Node C))
  | popConsumed (sz : ℕ)
  | read (sz : ℕ)
  | popConsumedAll

/-- `ConsumeErr`, or the destructor. -/
inductive Finish
  | consumeErr
  | destroy
  deriving DecidableEq

/-- What an operation does to the stream. -/
def Stream.step (s : Stream C) : Op C → Stream C
  | .pushBack buf => { s with marks := s.marks ++ Notify.marks s.pushed buf, pushed := s.pushed + dataSizes buf }
  | .popConsumed sz => { s with consumed := min (s.consumed + sz) s.pushed }
  | .read sz => { s with consumed := min (s.consumed + sz) s.pushed }
  | .popConsumedAll => { s with consumed := s.pushed }

def Stream.run (ops : List (Op C)) : Stream C := ops.foldl Stream.step {}

/-- One notice for each control node, in order: whether the data before it was consumed. -/
def Stream.notices (s : Stream C) : Notices C :=
  s.marks.map fun mark => (mark.1, if mark.2 ≤ s.consumed then .consumed else .consumedErr)

namespace Queue

def step (q : Queue C) : Op C → Queue C × Notices C
  | .pushBack buf => q.pushBack buf
  | .popConsumed sz => q.popConsumed sz
  | .read sz => q.read sz
  | .popConsumedAll => q.popConsumedAll

/-- The queue behind operations on a new one, and the notices given so far. -/
def run (ops : List (Op C)) : Queue C × Notices C :=
  ops.foldl (fun s op => ((s.1.step op).1, s.2 ++ (s.1.step op).2)) ({}, [])

def finish (q : Queue C) : Finish → Queue C × Notices C
  | .consumeErr => q.consumeErr
  | .destroy => q.destroy

/-- All notices of operations and the end. -/
def notices (ops : List (Op C)) (last : Finish) : Notices C := (run ops).2 ++ ((run ops).1.finish last).2

end Queue

/-! ### Marks -/

theorem marks_cons (pos : ℕ) (node : Node C) (rest : List (Node C)) :
    marks pos (node :: rest) = marks pos [node] ++ marks (pos + node.dataSize) rest := by
  cases node <;> rfl

theorem marks_append (pos : ℕ) (nodes nodes' : List (Node C)) :
    marks pos (nodes ++ nodes') = marks pos nodes ++ marks (pos + dataSizes nodes) nodes' := by
  induction nodes generalizing pos with
  | nil => rfl
  | cons node rest ih =>
    rw [cons_append, marks_cons, ih, marks_cons pos node rest, append_assoc, add_assoc, dataSizes]

theorem dataSizes_append (nodes nodes' : List (Node C)) :
    dataSizes (nodes ++ nodes') = dataSizes nodes + dataSizes nodes' := by
  induction nodes with
  | nil => exact (zero_add _).symm
  | cons node rest ih => rw [cons_append, dataSizes, ih, dataSizes, add_assoc]

theorem mem_marks_single {pos : ℕ} {node : Node C} {mark : Mark C} (h : mark ∈ marks pos [node]) : mark.2 = pos := by
  cases node with
  | data content remainSize => exact nomatch h
  | virtual vnode => rw [mem_singleton.mp h]

theorem marks_bounds {pos : ℕ} {nodes : List (Node C)} {mark : Mark C} (h : mark ∈ marks pos nodes) :
    pos ≤ mark.2 ∧ mark.2 ≤ pos + dataSizes nodes := by
  induction nodes generalizing pos with
  | nil => exact nomatch h
  | cons node rest ih =>
    rw [dataSizes]
    rw [marks_cons] at h
    rcases mem_append.mp h with h | h
    · rw [mem_marks_single h]
      omega
    · have hrest := ih h
      omega

/-- Behind data nothing is at its position any more. -/
theorem marks_of_data {pos : ℕ} {node : Node C} (h : 0 < node.dataSize) (rest : List (Node C)) :
    marks pos (node :: rest) = marks (pos + node.dataSize) rest := by
  cases node with
  | data content remainSize => rfl
  | virtual vnode => exact absurd h (lt_irrefl 0)

/-- The notices of consumed nodes. -/
def consumedNotices (ms : List (Mark C)) : Notices C := ms.map fun mark => (mark.1, .consumed)

theorem nodeConsumed_eq (pos : ℕ) (node : Node C) : node.nodeConsumed = consumedNotices (marks pos [node]) := by
  cases node <;> rfl

theorem consumedNotices_append (ms ms' : List (Mark C)) :
    consumedNotices (ms ++ ms') = consumedNotices ms ++ consumedNotices ms' := map_append

/-! ### The invariant -/

/-- The queue is at `consumed` of a stream with the marks `ms`. Those of the nodes given up
have got their notices. -/
def Tracks (q : Queue C) (log : Notices C) (ms : List (Mark C)) (pushed consumed : ℕ) : Prop :=
  ∃ gone pos, ms = gone ++ marks pos q.blockList ∧ log = consumedNotices gone ∧
    (∀ mark ∈ gone, mark.2 ≤ consumed) ∧ pushed = pos + dataSizes q.blockList ∧
    (q = {} ∧ consumed = pos ∨ ∃ node rest current, q = ⟨node :: rest, some (current, node.dataSize)⟩ ∧
      current < node.dataSize ∧ consumed = pos + current)

variable {q : Queue C} {log : Notices C} {ms : List (Mark C)} {pushed consumed : ℕ}

/-- With nodes given up before. -/
theorem Tracks.prepend (h : Tracks q log ms pushed consumed) {gone : List (Mark C)}
    (hgone : ∀ mark ∈ gone, mark.2 ≤ consumed) :
    Tracks q (consumedNotices gone ++ log) (gone ++ ms) pushed consumed := by
  obtain ⟨gone', pos, rfl, rfl, hle, hpushed, hfront⟩ := h
  refine ⟨gone ++ gone', pos, (append_assoc ..).symm, (consumedNotices_append ..).symm, ?_, hpushed, hfront⟩
  intro mark hmark
  exact (mem_append.mp hmark).elim (hgone mark) (hle mark)

/-- The loop gives up the nodes before the position `sz` bytes on. -/
theorem removeLoop_tracks (nodes : List (Node C)) (pos sz : ℕ) :
    Tracks (Queue.removeLoop nodes sz).1 (Queue.removeLoop nodes sz).2 (marks pos nodes) (pos + dataSizes nodes)
      (min (pos + sz) (pos + dataSizes nodes)) := by
  induction nodes generalizing pos sz with
  | nil =>
    have hmin : min (pos + sz) pos = pos := Nat.min_eq_right (Nat.le_add_right _ _)
    exact ⟨[], pos, rfl, rfl, (fun _ hmark => nomatch hmark), rfl, .inl ⟨rfl, hmin⟩⟩
  | cons node rest ih =>
    -- the node is given up
    have hgone : ∀ sz', min (pos + node.dataSize + sz') (pos + node.dataSize + dataSizes rest) =
        min (pos + sz) (pos + dataSizes (node :: rest)) →
        Tracks (Queue.removeLoop rest sz').1 (node.nodeConsumed ++ (Queue.removeLoop rest sz').2)
          (marks pos (node :: rest)) (pos + dataSizes (node :: rest)) (min (pos + sz) (pos + dataSizes (node :: rest))) := by
      intro sz' hmin
      have hrest := ih (pos + node.dataSize) sz'
      rw [hmin, add_assoc] at hrest
      rw [nodeConsumed_eq pos, marks_cons pos node rest]
      refine hrest.prepend fun mark hmark => ?_
      rw [mem_marks_single hmark]
      omega
    rw [Queue.removeLoop]
    by_cases hpos : 0 < node.dataSize
    · rw [if_pos hpos]
      by_cases hlt : sz < node.dataSize
      · rw [if_pos hlt]
        refine ⟨[], pos, rfl, rfl, (fun _ hmark => nomatch hmark), rfl, .inr ⟨node, rest, sz, rfl, hlt, ?_⟩⟩
        rw [dataSizes]
        omega
      · rw [if_neg hlt]
        refine hgone _ ?_
        rw [dataSizes]
        omega
    · rw [if_neg hpos]
      refine hgone _ ?_
      rw [dataSizes]
      omega

/-- The front node is given up, and the loop goes on behind it. -/
theorem removeLoop_front {node : Node C} {current sz : ℕ} (rest : List (Node C)) (pos : ℕ)
    (hcurrent : current < node.dataSize) (hsz : node.dataSize - current ≤ sz) :
    Tracks (Queue.removeLoop rest (sz - (node.dataSize - current))).1
      (node.nodeConsumed ++ (Queue.removeLoop rest (sz - (node.dataSize - current))).2)
      (marks pos (node :: rest)) (pos + dataSizes (node :: rest))
      (min (pos + current + sz) (pos + dataSizes (node :: rest))) := by
  have hrest := removeLoop_tracks rest (pos + node.dataSize) (sz - (node.dataSize - current))
  have hmin : min (pos + node.dataSize + (sz - (node.dataSize - current))) (pos + node.dataSize + dataSizes rest) =
      min (pos + current + sz) (pos + dataSizes (node :: rest)) := by
    rw [dataSizes]
    omega
  rw [hmin, add_assoc] at hrest
  rw [nodeConsumed_eq pos, marks_cons pos node rest]
  refine hrest.prepend fun mark hmark => ?_
  rw [mem_marks_single hmark]
  omega

theorem Tracks.pushBack (h : Tracks q log ms pushed consumed) (buf : List (Node C)) :
    Tracks (q.pushBack buf).1 (log ++ (q.pushBack buf).2) (ms ++ marks pushed buf) (pushed + dataSizes buf) consumed := by
  obtain ⟨gone, pos, rfl, rfl, hle, rfl, ⟨rfl, rfl⟩ | ⟨node, rest, current, rfl, hcurrent, rfl⟩⟩ := h
  · have hloop := removeLoop_tracks buf consumed 0
    rw [add_zero, Nat.min_eq_left (Nat.le_add_right _ _), ← Queue.frontLoop_eq] at hloop
    have h := hloop.prepend hle
    rw [append_assoc]
    exact h
  · have hpush : Queue.pushBack ⟨node :: rest, some (current, node.dataSize)⟩ buf =
        (⟨node :: rest ++ buf, some (current, node.dataSize)⟩, []) := rfl
    rw [hpush, append_nil]
    refine ⟨gone, pos, ?_, rfl, hle, ?_, .inr ⟨node, rest ++ buf, current, rfl, hcurrent, rfl⟩⟩
    · rw [marks_append, append_assoc]
    · rw [dataSizes_append, add_assoc]

theorem Tracks.popConsumed (h : Tracks q log ms pushed consumed) (sz : ℕ) :
    Tracks (q.popConsumed sz).1 (log ++ (q.popConsumed sz).2) ms pushed (min (consumed + sz) pushed) := by
  obtain ⟨gone, pos, rfl, rfl, hle, rfl, ⟨rfl, rfl⟩ | ⟨node, rest, current, rfl, hcurrent, rfl⟩⟩ := h
  · have hpop : Queue.popConsumed ({} : Queue C) sz = ({}, []) := rfl
    rw [hpop, append_nil]
    have hmin : min (consumed + sz) (consumed + dataSizes ([] : List (Node C))) = consumed :=
      Nat.min_eq_right (Nat.le_add_right _ _)
    exact ⟨gone, consumed, rfl, rfl, by rw [hmin]; exact hle, rfl, .inl ⟨rfl, hmin⟩⟩
  · have hsize : Queue.getCurrBlockSize ⟨node :: rest, some (current, node.dataSize)⟩ = node.dataSize - current := rfl
    have hle' : ∀ mark ∈ gone, mark.2 ≤ min (pos + current + sz) (pos + dataSizes (node :: rest)) := by
      intro mark hmark
      have hmark' := hle mark hmark
      rw [dataSizes]
      omega
    rw [Queue.popConsumed, hsize]
    by_cases hlt : sz < node.dataSize - current
    · rw [if_pos hlt, append_nil]
      refine ⟨gone, pos, rfl, rfl, hle', rfl, .inr ⟨node, rest, current + sz, rfl, by omega, ?_⟩⟩
      show min _ (pos + (node.dataSize + dataSizes rest)) = _
      omega
    · rw [if_neg hlt]
      exact (removeLoop_front rest pos hcurrent (Nat.le_of_not_lt hlt)).prepend hle'

theorem Tracks.read (h : Tracks q log ms pushed consumed) (sz : ℕ) :
    Tracks (q.read sz).1 (log ++ (q.read sz).2) ms pushed (min (consumed + sz) pushed) := by
  have hpop := h.popConsumed sz
  obtain ⟨gone, pos, rfl, rfl, hle, rfl, ⟨rfl, rfl⟩ | ⟨node, rest, current, rfl, hcurrent, rfl⟩⟩ := h
  · have hread : Queue.read ({} : Queue C) sz = ({}, []) := by
      have hused : (if sz < Queue.getCurrBlockSize ({} : Queue C) then sz else Queue.getCurrBlockSize ({} : Queue C)) = 0 :=
        if_neg (Nat.not_lt_zero sz)
      rw [Queue.read, hused]
      rfl
    rw [hread]
    exact hpop
  · have hsize : Queue.getCurrBlockSize ⟨node :: rest, some (current, node.dataSize)⟩ = node.dataSize - current := rfl
    have hread : Queue.read ⟨node :: rest, some (current, node.dataSize)⟩ sz =
        Queue.popConsumed ⟨node :: rest, some (current, node.dataSize)⟩ sz := by
      rw [Queue.read, hsize]
      by_cases hlt : sz < node.dataSize - current
      · rw [if_pos hlt]
        by_cases hzero : sz = 0
        · rw [if_pos hzero, Queue.popConsumed, hsize, if_pos hlt, hzero]
          rfl
        · rw [if_neg hzero, if_pos (le_refl sz)]
      · rw [if_neg hlt]
        rw [if_neg (by omega)]
        by_cases hle : sz ≤ node.dataSize - current
        · rw [if_pos hle]
        · rw [if_neg hle, Queue.popConsumed, hsize, if_neg hlt]
          show (let r := Queue.readLoop rest _; (r.1, node.nodeConsumed ++ r.2)) = _
          rw [Queue.readLoop_eq]
          rfl
    rw [hread]
    exact hpop

theorem consumedNotices_marks (pos : ℕ) (nodes : List (Node C)) :
    nodes.flatMap Node.nodeConsumed = consumedNotices (marks pos nodes) := by
  induction nodes generalizing pos with
  | nil => rfl
  | cons node rest ih => rw [flatMap_cons, ih (pos + node.dataSize), marks_cons, consumedNotices_append, ← nodeConsumed_eq]

theorem Tracks.popConsumedAll (h : Tracks q log ms pushed consumed) :
    Tracks q.popConsumedAll.1 (log ++ q.popConsumedAll.2) ms pushed pushed := by
  obtain ⟨gone, pos, rfl, rfl, hle, rfl, hfront⟩ := h
  have hconsumed : consumed ≤ pos + dataSizes q.blockList := by
    rcases hfront with ⟨-, rfl⟩ | ⟨node, rest, current, rfl, hcurrent, rfl⟩
    · exact Nat.le_add_right _ _
    · rw [dataSizes]
      omega
  refine ⟨gone ++ marks pos q.blockList, pos + dataSizes q.blockList, (append_nil _).symm, ?_, ?_, rfl,
    .inl ⟨rfl, rfl⟩⟩
  · rw [Queue.popConsumedAll, consumedNotices_marks pos, consumedNotices_append]
  · intro mark hmark
    rcases mem_append.mp hmark with hmark | hmark
    · exact (hle mark hmark).trans hconsumed
    · exact (marks_bounds hmark).2

/-- Each operation keeps the queue at the place of the stream. -/
theorem Tracks.step {s : Stream C} (h : Tracks q log s.marks s.pushed s.consumed) (op : Op C) :
    Tracks (q.step op).1 (log ++ (q.step op).2) (s.step op).marks (s.step op).pushed (s.step op).consumed := by
  cases op with
  | pushBack buf => exact h.pushBack buf
  | popConsumed sz => exact h.popConsumed sz
  | read sz => exact h.read sz
  | popConsumedAll => exact h.popConsumedAll

theorem run_tracks (ops : List (Op C)) :
    Tracks (Queue.run ops).1 (Queue.run ops).2 (Stream.run ops).marks (Stream.run ops).pushed (Stream.run ops).consumed := by
  induction ops using reverseRecOn with
  | nil => exact ⟨[], 0, rfl, rfl, (fun _ hmark => nomatch hmark), rfl, .inl ⟨rfl, rfl⟩⟩
  | append_singleton ops op ih =>
    rw [Queue.run, Stream.run, foldl_append, foldl_append]
    exact ih.step op

/-! ### The end -/

theorem errLoop_eq (nodes : List (Node C)) (pos : ℕ) :
    Queue.errLoop nodes = (marks pos nodes).flatMap fun mark => [(mark.1, .consumedErr), (mark.1, .consumedErr)] := by
  induction nodes generalizing pos with
  | nil => rfl
  | cons node rest ih =>
    have hturn : Queue.errLoop (node :: rest) =
        ((marks pos [node]).flatMap fun mark => [(mark.1, .consumedErr), (mark.1, .consumedErr)]) ++
          Queue.errLoop rest := by cases node <;> rfl
    rw [hturn, ih (pos + node.dataSize), marks_cons pos node rest, flatMap_append]

/-- The control nodes left get two notices each. -/
theorem Tracks.finish (h : Tracks q log ms pushed consumed) (last : Finish) :
    ∃ gone left, ms = gone ++ left ∧ log = consumedNotices gone ∧ (∀ mark ∈ gone, mark.2 ≤ consumed) ∧
      (∀ mark ∈ left, consumed < mark.2) ∧
      (q.finish last).2 = left.flatMap fun mark => [(mark.1, .consumedErr), (mark.1, .consumedErr)] := by
  obtain ⟨gone, pos, rfl, rfl, hle, rfl, ⟨rfl, rfl⟩ | ⟨node, rest, current, rfl, hcurrent, rfl⟩⟩ := h
  · refine ⟨gone, [], rfl, rfl, hle, (fun _ hmark => nomatch hmark), ?_⟩
    cases last <;> rfl
  · refine ⟨gone, marks pos (node :: rest), rfl, rfl, hle, ?_, ?_⟩
    · intro mark hmark
      rw [marks_of_data (Nat.zero_lt_of_lt hcurrent)] at hmark
      have hbound := (marks_bounds hmark).1
      omega
    · have hfinish : (Queue.finish ⟨node :: rest, some (current, node.dataSize)⟩ last).2 =
          (Queue.consumeErr ⟨node :: rest, some (current, node.dataSize)⟩).2 := by cases last <;> rfl
      have hfront : node.nodeConsumedErr = [] := by
        cases node with
        | data content remainSize => rfl
        | virtual vnode => exact absurd hcurrent (Nat.not_lt_zero _)
      rw [hfinish, marks_of_data (Nat.zero_lt_of_lt hcurrent)]
      dsimp only [Queue.consumeErr]
      rw [hfront, nil_append]
      exact errLoop_eq rest _

/-- Each control node gets one notice, in order, that tells whether the data before it was
consumed, if and only if no control node is left behind data when the queue ends. -/
theorem notified_once_iff (ops : List (Op C)) (last : Finish) :
    Queue.notices ops last = (Stream.run ops).notices ↔
      ∀ mark ∈ (Stream.run ops).marks, mark.2 ≤ (Stream.run ops).consumed := by
  obtain ⟨gone, left, hmarks, hlog, hgone, hleft, hlast⟩ := (run_tracks ops).finish last
  have hexpected : (Stream.run ops).notices =
      consumedNotices gone ++ left.map fun mark => (mark.1, .consumedErr) := by
    rw [Stream.notices, hmarks, List.map_append]
    congr 1
    · refine List.map_congr_left fun mark hmark => ?_
      rw [if_pos (hgone mark hmark)]
    · refine List.map_congr_left fun mark hmark => ?_
      rw [if_neg (Nat.not_le_of_lt (hleft mark hmark))]
  rw [Queue.notices, hlog, hlast, hexpected, List.append_cancel_left_eq, hmarks]
  cases left with
  | nil =>
    rw [List.append_nil]
    exact ⟨fun _ => hgone, fun _ => rfl⟩
  | cons mark rest =>
    constructor
    · intro h
      have hlen := congrArg List.length h
      rw [List.length_flatMap, List.length_map] at hlen
      simp at hlen
      omega
    · intro h
      have hmark := h mark (List.mem_append_right _ (List.mem_cons_self ..))
      exact absurd (hleft mark (List.mem_cons_self ..)) (Nat.not_lt_of_le hmark)

/-- A control node behind a byte that is not consumed. -/
theorem left_notified_twice :
    Queue.notices [.pushBack [.data [0] 0, .virtual ()]] .consumeErr ≠
      (Stream.run [.pushBack [.data [0] 0, .virtual ()]]).notices := by
  decide

end Fon9.Buffer.Notify
