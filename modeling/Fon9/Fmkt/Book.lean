import Fon9.Fmkt.TradingLine
import Mathlib.Data.List.Perm.Basic

/-! What becomes of the requests, apart from lines, helpers and timers: they come in, wait in
the queue or leave. Every request is in one place, and the queue is left from its front. -/

namespace Fon9.Fmkt

open List

/-- The requests that came, that wait, and that left. -/
structure Book where
  queue : List ℕ
  submitted : List ℕ
  settled : List Settled
  pushed : List ℕ

namespace Book

variable (b : Book)

def submit (req : ℕ) : Book := { b with submitted := b.submitted ++ [req] }

def settle (req : ℕ) (outcome : Outcome) : Book :=
  { b with settled := b.settled ++ [⟨req, outcome, b.queue⟩] }

def push (req : ℕ) : Book := { b with queue := b.queue ++ [req], pushed := b.pushed ++ [req] }

def pop : Book := { b with queue := b.queue.tail }

def erase (i : ℕ) : Book := { b with queue := b.queue.eraseIdx i }

/-- Everything that waits is rejected. -/
def clear : Book :=
  { b with queue := [], settled := b.settled ++ b.queue.map fun req => ⟨req, .rejected, []⟩ }

/-- Out to a line or to a helper. -/
def goesOut (s : Settled) : Bool := s.outcome = .sent || s.outcome = .handed

/-- What can happen to requests. -/
inductive Step (b : Book) : Book → Prop
  | direct (req : ℕ) (outcome : Outcome) (h : b.queue = []) : Step b ((b.submit req).settle req outcome)
  | aside (req : ℕ) (outcome : Outcome) (h : outcome = .ended ∨ outcome = .returned) :
      Step b ((b.submit req).settle req outcome)
  | wait (req : ℕ) : Step b ((b.submit req).push req)
  | front (req : ℕ) (outcome : Outcome) (h : b.queue.head? = some req) : Step b (b.settle req outcome).pop
  | target (i req : ℕ) (h : b.queue[i]? = some req) : Step b ((b.erase i).settle req .ended)
  | clear : Step b b.clear

abbrev Steps : Book → Book → Prop := Relation.ReflTransGen Step

/-- Every request that came waits or has left, as often as it came. -/
def Accounted : Prop :=
  ∀ req, b.submitted.count req = (b.settled.map Settled.req).count req + b.queue.count req

/-- Nothing goes out past a request that waits. -/
def InTurn : Prop := ∀ s ∈ b.settled, goesOut s → s.queue = [] ∨ s.queue.head? = some s.req

/-- What went out from the queue. -/
def outOfQueue : List ℕ := (b.settled.filter fun s => s.queue ≠ [] ∧ goesOut s).map Settled.req

/-- The queue is left in the order in which it was entered. -/
def InOrder : Prop := (b.outOfQueue ++ b.queue).Sublist b.pushed

variable {b b' : Book}

theorem outOfQueue_settle (req : ℕ) (outcome : Outcome) :
    (b.settle req outcome).outOfQueue =
      b.outOfQueue ++ if b.queue ≠ [] ∧ goesOut ⟨req, outcome, b.queue⟩ then [req] else [] := by
  simp only [outOfQueue, settle, filter_append, map_append, filter_cons, filter_nil]
  congr 1
  split_ifs <;> simp_all

theorem outOfQueue_clear : b.clear.outOfQueue = b.outOfQueue := by
  have hnone : (b.queue.map fun req => (⟨req, .rejected, []⟩ : Settled)).filter
      (fun s => s.queue ≠ [] ∧ goesOut s) = [] := by
    rw [filter_eq_nil_iff]
    intro s hs
    obtain ⟨req, -, rfl⟩ := mem_map.mp hs
    simp
  rw [outOfQueue, clear, filter_append, hnone, append_nil]
  rfl

theorem count_map_concat (l : List Settled) (s : Settled) (req : ℕ) :
    ((l ++ [s]).map Settled.req).count req = (l.map Settled.req).count req + if s.req = req then 1 else 0 := by
  rw [map_append, count_append, map_singleton, count_singleton]
  simp only [beq_iff_eq]

theorem count_concat (l : List ℕ) (s req : ℕ) :
    (l ++ [s]).count req = l.count req + if s = req then 1 else 0 := by
  rw [count_append, count_singleton]
  simp only [beq_iff_eq]

/-! ### One step -/

theorem Step.accounted (h : Step b b') (hb : b.Accounted) : b'.Accounted := by
  intro r
  have hr := hb r
  cases h with
  | direct req outcome hqueue =>
    show (b.submitted ++ [req]).count r = ((b.settled ++ [_]).map Settled.req).count r + b.queue.count r
    rw [count_map_concat, count_concat]
    dsimp only
    omega
  | aside req outcome hout =>
    show (b.submitted ++ [req]).count r = ((b.settled ++ [_]).map Settled.req).count r + b.queue.count r
    rw [count_map_concat, count_concat]
    dsimp only
    omega
  | wait req =>
    show (b.submitted ++ [req]).count r = (b.settled.map Settled.req).count r + (b.queue ++ [req]).count r
    rw [count_concat, count_concat]
    omega
  | front req outcome hfront =>
    obtain ⟨rest, hqueue⟩ := head?_eq_some_iff.mp hfront
    show b.submitted.count r = ((b.settled ++ [_]).map Settled.req).count r + b.queue.tail.count r
    rw [count_map_concat]
    rw [hqueue, count_cons] at hr
    simp only [hqueue, tail_cons, beq_iff_eq] at hr ⊢
    omega
  | target i req htarget =>
    obtain ⟨hi, hget⟩ := List.getElem?_eq_some_iff.mp htarget
    have hperm := (getElem_cons_eraseIdx_perm hi).count_eq r
    rw [hget, count_cons] at hperm
    show b.submitted.count r = ((b.settled ++ [_]).map Settled.req).count r + (b.queue.eraseIdx i).count r
    rw [count_map_concat]
    simp only [beq_iff_eq] at hperm ⊢
    omega
  | clear =>
    have hmap : (b.queue.map fun req => (⟨req, .rejected, []⟩ : Settled)).map Settled.req = b.queue := by
      rw [map_map]
      exact map_id _
    show b.submitted.count r = ((b.settled ++ _).map Settled.req).count r + 0
    rw [map_append, count_append, hmap, hr, Nat.add_zero]

theorem inTurn_concat {s : Settled} (hb : b.InTurn) (hs : goesOut s → s.queue = [] ∨ s.queue.head? = some s.req) :
    ∀ s' ∈ b.settled ++ [s], goesOut s' → s'.queue = [] ∨ s'.queue.head? = some s'.req := by
  intro s' hs' hout
  rcases mem_append.mp hs' with hold | hnew
  · exact hb s' hold hout
  · obtain rfl := mem_singleton.mp hnew
    exact hs hout

theorem Step.inTurn (h : Step b b') (hb : b.InTurn) : b'.InTurn := by
  cases h with
  | direct req outcome hqueue => exact inTurn_concat hb fun _ => .inl hqueue
  | aside req outcome hout =>
    refine inTurn_concat hb fun hgoes => ?_
    rcases hout with rfl | rfl
    · cases hgoes
    · cases hgoes
  | wait req => exact hb
  | front req outcome hfront => exact inTurn_concat hb fun _ => .inr hfront
  | target i req htarget => exact inTurn_concat hb nofun
  | clear =>
    intro s hs hout
    rcases mem_append.mp hs with hold | hnew
    · exact hb s hold hout
    · obtain ⟨req, -, rfl⟩ := mem_map.mp hnew
      exact .inl rfl

theorem Step.inOrder (h : Step b b') (hb : b.InOrder) : b'.InOrder := by
  cases h with
  | direct req outcome hqueue =>
    have hout : ((b.submit req).settle req outcome).outOfQueue = b.outOfQueue := by
      rw [outOfQueue_settle, if_neg fun hne => hne.1 hqueue, append_nil]
      rfl
    show (_ ++ b.queue).Sublist b.pushed
    rw [hout]
    exact hb
  | aside req outcome hout =>
    have hout : ((b.submit req).settle req outcome).outOfQueue = b.outOfQueue := by
      rw [outOfQueue_settle, if_neg, append_nil]
      · rfl
      · rintro ⟨-, hgoes⟩
        rcases hout with rfl | rfl
        · cases hgoes
        · cases hgoes
    show (_ ++ b.queue).Sublist b.pushed
    rw [hout]
    exact hb
  | wait req =>
    show (b.outOfQueue ++ (b.queue ++ [req])).Sublist (b.pushed ++ [req])
    rw [← append_assoc]
    exact hb.append_right [req]
  | front req outcome hfront =>
    obtain ⟨rest, hqueue⟩ := head?_eq_some_iff.mp hfront
    rw [InOrder, hqueue] at hb
    show ((b.settle req outcome).outOfQueue ++ b.queue.tail).Sublist b.pushed
    rw [outOfQueue_settle, hqueue, tail_cons, append_assoc]
    split
    · exact hb
    · exact ((sublist_cons_self req rest).append_left b.outOfQueue).trans hb
  | target i req htarget =>
    have hout : ((b.erase i).settle req .ended).outOfQueue = b.outOfQueue := by
      rw [outOfQueue_settle, if_neg (fun hne => nomatch hne.2), append_nil]
      rfl
    show (_ ++ b.queue.eraseIdx i).Sublist b.pushed
    rw [hout]
    exact ((eraseIdx_sublist b.queue i).append_left b.outOfQueue).trans hb
  | clear =>
    show (b.clear.outOfQueue ++ []).Sublist b.pushed
    rw [outOfQueue_clear, append_nil]
    exact (sublist_append_left b.outOfQueue b.queue).trans hb

/-! ### Runs -/

/-- The books are in order. -/
structure Kept (b : Book) : Prop where
  accounted : b.Accounted
  inTurn : b.InTurn
  inOrder : b.InOrder

theorem Steps.kept (h : Steps b b') (hb : b.Kept) : b'.Kept := by
  induction h with
  | refl => exact hb
  | tail _ hstep ih => exact ⟨hstep.accounted ih.accounted, hstep.inTurn ih.inTurn, hstep.inOrder ih.inOrder⟩

end Book

end Fon9.Fmkt
