import Fon9.Lib.Numeral
import Fon9.Lib.Run

/-! The subject `Subject` and its container `SubrMap`: subscribers in the order of their
ids. A publish calls them by an index that the edits of a callback move. -/

namespace Fon9.Subr

open Lib

/-- A subscriber with its `SubConn`. The code has no `serial`: it numbers the registrations,
of which several may get one id after another. -/
structure Entry (S : Type) where
  conn : ℕ
  subr : S
  serial : ℕ
  deriving DecidableEq, Repr

/-- `registered` is the number of registrations so far. -/
structure Subject (S : Type) where
  subrs : List (Entry S) := []
  nextEmitIdx : ℕ := 0
  registered : ℕ := 0

/-! ### The container -/

namespace SubrMap

variable {S : Type}

/-- `SortedVector::find`: the first one that is not before the key, where it is the key. -/
def find (subrs : List (Entry S)) (conn : ℕ) : Option ℕ :=
  (subrs.findIdx? fun e => conn ≤ e.conn).filter fun i => subrs[i]?.any fun e => e.conn ≤ conn

/-- The id of a new subscriber; zero where there is none. -/
def nextConn (subrs : List (Entry S)) : ℕ :=
  match subrs.getLast? with
  | some last => let id := u64 (last.conn + 1); if id < last.conn then 0 else id
  | none => 1

variable [BEq S]

def findSubr (subrs : List (Entry S)) (subr : S) : Option ℕ := subrs.findIdx? fun e => e.subr == subr

/-- `remove`, and the number of those removed. -/
def remove (subrs : List (Entry S)) (subr : S) (ibegin iend : ℕ) : List (Entry S) × ℕ :=
  if iend ≤ ibegin then (subrs, 0)
  else
    let range := (subrs.take iend).drop ibegin
    let kept := range.filter fun e => !(e.subr == subr)
    (subrs.take ibegin ++ kept ++ subrs.drop iend, range.length - kept.length)

end SubrMap

namespace Subject

variable {S : Type}

def subscribe (s : Subject S) (subr : S) : Subject S × ℕ :=
  let id := SubrMap.nextConn s.subrs
  if id = 0 then (s, 0)
  else ({ s with subrs := s.subrs ++ [⟨id, subr, s.registered⟩], registered := s.registered + 1 }, id)

/-- `EraseIterator`, with the end of the container as no index. -/
def eraseIterator (s : Subject S) : Option ℕ → Subject S × ℕ
  | none => (s, 0)
  | some idx =>
    ({ s with
        subrs := s.subrs.eraseIdx idx
        nextEmitIdx := if idx < s.nextEmitIdx then s.nextEmitIdx - 1 else s.nextEmitIdx }, 1)

def unsubscribe (s : Subject S) (connection : ℕ) : Subject S × ℕ :=
  if connection = 0 then (s, 0) else s.eraseIterator (SubrMap.find s.subrs connection)

variable [BEq S]

def unsubscribeSubr (s : Subject S) (subr : S) : Subject S × ℕ := s.eraseIterator (SubrMap.findSubr s.subrs subr)

def unsubscribeAll (s : Subject S) (subr : S) : Subject S × ℕ :=
  let r := SubrMap.remove s.subrs subr s.nextEmitIdx s.subrs.length
  let s := { s with subrs := r.1 }
  if 0 < s.nextEmitIdx then
    let r₂ := SubrMap.remove s.subrs subr 0 s.nextEmitIdx
    ({ s with subrs := r₂.1, nextEmitIdx := s.nextEmitIdx - r₂.2 }, r.2 + r₂.2)
  else (s, r.2)

end Subject

/-! ### Publish -/

/-- What a callback may do to the subject. -/
inductive Edit (S : Type)
  | subscribe (subr : S)
  | unsubscribe (connection : ℕ)
  | unsubscribeSubr (subr : S)
  | unsubscribeAll (subr : S)

inductive Event (S : Type)
  | subscribed (e : Entry S)
  | removed (e : Entry S)
  | called (e : Entry S)

/-- The registrations that a container has lost, and those that it has gained. -/
def events {S : Type} (before after : List (Entry S)) : List (Event S) :=
  (before.filter fun e => after.all fun e' => e'.serial ≠ e.serial).map .removed ++
    (after.filter fun e => before.all fun e' => e'.serial ≠ e.serial).map .subscribed

namespace Subject

variable {S : Type} [BEq S]

def edit (s : Subject S) : Edit S → Subject S
  | .subscribe subr => (s.subscribe subr).1
  | .unsubscribe connection => (s.unsubscribe connection).1
  | .unsubscribeSubr subr => (s.unsubscribeSubr subr).1
  | .unsubscribeAll subr => (s.unsubscribeAll subr).1

/-- The edits of a callback, one after the other. -/
def edits (s : Subject S) : List (Edit S) → Subject S × List (Event S)
  | [] => (s, [])
  | a :: as =>
    let r := (s.edit a).edits as
    (r.1, events s.subrs (s.edit a).subrs ++ r.2)

/-- The loop of `Combine`: the edits of the callbacks are those of the script from the
`n`-th one on; whether the loop has ended within `fuel` turns. -/
def publishLoop (script : ℕ → List (Edit S)) : ℕ → ℕ → Subject S → List (Event S) → Subject S × List (Event S) × Bool
  | 0, _, s, log => (s, log, false)
  | fuel + 1, n, s, log =>
    match s.subrs[s.nextEmitIdx]? with
    | none => (s, log, true)
    | some e =>
      let r := { s with nextEmitIdx := s.nextEmitIdx + 1 }.edits (script n)
      publishLoop script fuel (n + 1) r.1 (log ++ .called e :: r.2)

def publish (s : Subject S) (script : ℕ → List (Edit S)) (fuel : ℕ) : Subject S × List (Event S) × Bool :=
  let r := publishLoop script fuel 0 { s with nextEmitIdx := 0 } []
  ({ r.1 with nextEmitIdx := s.nextEmitIdx }, r.2)

end Subject

/-- What is done with a subject; a publish that does not end does not happen. -/
inductive Act (S : Type)
  | edit (a : Edit S)
  | publish (script : ℕ → List (Edit S)) (fuel : ℕ)

def step {S : Type} [BEq S] (s : Subject S) : Act S → Option (Subject S)
  | .edit a => some (s.edit a)
  | .publish script fuel => if (s.publish script fuel).2.2 then some (s.publish script fuel).1 else none

end Fon9.Subr

/-! A publish whose callbacks edit the subject. An edit leaves those that were called
before the index and those that were not behind it, whatever it removes; what it adds
comes last. -/

namespace Fon9.Subr

open Lib Subject List

variable {S : Type} {s s' : Subject S} {e : Entry S}

/-- The ids and the registrations go up, and the index is in the container. -/
structure Sorted (s : Subject S) : Prop where
  conn : s.subrs.Pairwise fun a b => a.conn < b.conn
  serial : s.subrs.Pairwise fun a b => a.serial < b.serial
  fresh : ∀ e ∈ s.subrs, e.serial < s.registered
  idx : s.nextEmitIdx ≤ s.subrs.length

/-- Those already called. -/
def passed (s : Subject S) : List (Entry S) := s.subrs.take s.nextEmitIdx

def pending (s : Subject S) : List (Entry S) := s.subrs.drop s.nextEmitIdx

theorem passed_append_pending (s : Subject S) : passed s ++ pending s = s.subrs := take_append_drop _ _

theorem mem_subrs : e ∈ s.subrs ↔ e ∈ passed s ∨ e ∈ pending s := by
  rw [← passed_append_pending s, mem_append]

/-- What an edit does: it removes some, and adds one at most. -/
structure Effect (s s' : Subject S) (new : List (Entry S)) : Prop where
  front : (passed s').Sublist (passed s)
  back : ∃ rest, pending s' = rest ++ new ∧ rest.Sublist (pending s)
  idx : s'.nextEmitIdx ≤ s'.subrs.length
  registered : s'.registered = s.registered + new.length
  added : ∀ e ∈ new, e.serial = s.registered ∧ ∀ x ∈ s.subrs, x.conn < e.conn
  single : new.length ≤ 1

/-- Entries in two parts, where the index is between them. -/
theorem Effect.of_parts {front back new : List (Entry S)} (hfront : front.Sublist (passed s))
    (hback : back.Sublist (pending s)) (hsubrs : s'.subrs = front ++ (back ++ new)) (hidx : s'.nextEmitIdx = front.length)
    (hregistered : s'.registered = s.registered + new.length)
    (hnew : ∀ e ∈ new, e.serial = s.registered ∧ ∀ x ∈ s.subrs, x.conn < e.conn) (hsingle : new.length ≤ 1) :
    Effect s s' new where
  front := by
    rw [passed, hsubrs, hidx, take_left]
    exact hfront
  back := by
    refine ⟨back, ?_, hback⟩
    rw [pending, hsubrs, hidx, drop_left]
  idx := by
    rw [hsubrs, hidx, length_append]
    exact Nat.le_add_right _ _
  registered := hregistered
  added := hnew
  single := hsingle

theorem effect_refl (h : Sorted s) : Effect s s [] := by
  apply Effect.of_parts (List.Sublist.refl _) (List.Sublist.refl _)
  · rw [append_nil, passed_append_pending]
  · rw [passed, length_take, Nat.min_eq_left h.idx]
  · rfl
  · exact fun e he => (nomatch he)
  · exact Nat.zero_le _

theorem nextConn_gt (h : Sorted s) (hne : SubrMap.nextConn s.subrs ≠ 0) :
    ∀ x ∈ s.subrs, x.conn < SubrMap.nextConn s.subrs := by
  intro x hx
  rw [SubrMap.nextConn] at hne ⊢
  cases hlast : s.subrs.getLast? with
  | none =>
    rw [getLast?_eq_none_iff] at hlast
    rw [hlast] at hx
    cases hx
  | some last =>
    rw [hlast] at hne
    dsimp only at hne ⊢
    have hle : x.conn ≤ last.conn := by
      have hsplit := List.dropLast_append_getLast? last hlast
      have hconn := h.conn
      rw [← hsplit] at hx hconn
      rcases mem_append.mp hx with hx | hx
      · exact ((pairwise_append.mp hconn).2.2 x hx last (mem_singleton_self last)).le
      · rw [mem_singleton.mp hx]
    unfold u64 at hne ⊢
    split at hne
    · exact absurd rfl hne
    · next hid =>
      rw [if_neg hid]
      omega

theorem effect_subscribe (h : Sorted s) (subr : S) : ∃ new, Effect s (s.subscribe subr).1 new := by
  by_cases hzero : SubrMap.nextConn s.subrs = 0
  · have hsame : (s.subscribe subr).1 = s := by
      simp [Subject.subscribe, hzero]
    rw [hsame]
    exact ⟨[], effect_refl h⟩
  · have hnew : (s.subscribe subr).1 = { s with
        subrs := s.subrs ++ [⟨SubrMap.nextConn s.subrs, subr, s.registered⟩], registered := s.registered + 1 } := by
      simp [Subject.subscribe, hzero]
    rw [hnew]
    refine ⟨[⟨SubrMap.nextConn s.subrs, subr, s.registered⟩], ?_⟩
    apply Effect.of_parts (List.Sublist.refl _) (List.Sublist.refl _)
    · rw [← append_assoc, passed_append_pending]
    · show s.nextEmitIdx = (s.subrs.take s.nextEmitIdx).length
      rw [length_take, Nat.min_eq_left h.idx]
    · rfl
    · intro e he
      rw [mem_singleton.mp he]
      exact ⟨rfl, nextConn_gt h hzero⟩
    · exact le_rfl

theorem effect_eraseIterator (h : Sorted s) {i : Option ℕ} (hi : ∀ idx ∈ i, idx < s.subrs.length) :
    Effect s (s.eraseIterator i).1 [] := by
  cases i with
  | none => exact effect_refl h
  | some idx =>
    have hlt := hi idx rfl
    have hidx := h.idx
    rw [Subject.eraseIterator]
    dsimp only
    by_cases hbefore : idx < s.nextEmitIdx
    · -- one that was called
      have hlen : idx < (passed s).length := by
        rw [passed, length_take]
        omega
      apply Effect.of_parts (eraseIdx_sublist (passed s) idx) (List.Sublist.refl (pending s))
      · show s.subrs.eraseIdx idx = _
        rw [append_nil, ← eraseIdx_append_of_lt_length hlen, passed_append_pending]
      · rw [length_eraseIdx_of_lt hlen, passed, length_take, Nat.min_eq_left hidx, if_pos hbefore]
      · rfl
      · exact fun e he => (nomatch he)
      · exact Nat.zero_le _
    · -- one that was not
      have hlen : (passed s).length ≤ idx := by
        rw [passed, length_take]
        omega
      apply Effect.of_parts (List.Sublist.refl (passed s)) (eraseIdx_sublist (pending s) (idx - (passed s).length))
      · show s.subrs.eraseIdx idx = _
        rw [append_nil, ← eraseIdx_append_of_length_le hlen, passed_append_pending]
      · rw [passed, length_take, Nat.min_eq_left hidx, if_neg hbefore]
      · rfl
      · exact fun e he => (nomatch he)
      · exact Nat.zero_le _

section Edits

variable [BEq S]

theorem remove_eq (subrs : List (Entry S)) (subr : S) {ibegin iend : ℕ} (hle : ibegin ≤ iend) (hend : iend ≤ subrs.length) :
    (SubrMap.remove subrs subr ibegin iend).1 = subrs.take ibegin ++
      ((subrs.take iend).drop ibegin).filter (fun e => !(e.subr == subr)) ++ subrs.drop iend ∧
    (SubrMap.remove subrs subr ibegin iend).2 = iend - ibegin -
      (((subrs.take iend).drop ibegin).filter fun e => !(e.subr == subr)).length := by
  rw [SubrMap.remove]
  split
  · next heq =>
    obtain rfl := le_antisymm hle heq
    have hnone : (subrs.take ibegin).drop ibegin = [] := drop_eq_nil_of_le (length_take_le _ _)
    rw [hnone, filter_nil, append_nil, take_append_drop, length_nil, Nat.sub_self]
    exact ⟨rfl, rfl⟩
  · refine ⟨rfl, ?_⟩
    dsimp only
    rw [length_drop, length_take, Nat.min_eq_left hend]

theorem effect_unsubscribeAll (h : Sorted s) (subr : S) : Effect s (s.unsubscribeAll subr).1 [] := by
  have hidx := h.idx
  have hpassed : (passed s).length = s.nextEmitIdx := by
    rw [passed, length_take, Nat.min_eq_left hidx]
  obtain ⟨hback, -⟩ := remove_eq s.subrs subr hidx le_rfl
  rw [take_length, drop_length, append_nil] at hback
  have hfront := @remove_eq S _ (passed s ++ (pending s).filter fun e => !(e.subr == subr)) subr 0 s.nextEmitIdx
    (Nat.zero_le _) (by rw [length_append]; omega)
  rw [← hpassed, take_left, drop_left, take_zero, drop_zero, nil_append] at hfront
  apply Effect.of_parts (filter_sublist (p := fun e => !(e.subr == subr)) (l := passed s))
    (filter_sublist (p := fun e => !(e.subr == subr)) (l := pending s))
  · rw [append_nil, Subject.unsubscribeAll]
    dsimp only
    split
    · show (SubrMap.remove (SubrMap.remove s.subrs subr s.nextEmitIdx s.subrs.length).1 subr 0 s.nextEmitIdx).1 = _
      rw [hback]
      show (SubrMap.remove (passed s ++ (pending s).filter _) subr 0 s.nextEmitIdx).1 = _
      rw [← hpassed]
      exact hfront.1
    · next hzero =>
      have hnil : passed s = [] := length_eq_zero_iff.mp (by omega)
      rw [hnil]
      exact hback.trans (congrArg (· ++ _) hnil)
  · rw [Subject.unsubscribeAll]
    dsimp only
    split
    · show s.nextEmitIdx - (SubrMap.remove (SubrMap.remove s.subrs subr s.nextEmitIdx s.subrs.length).1 subr 0
        s.nextEmitIdx).2 = _
      rw [hback]
      show s.nextEmitIdx - (SubrMap.remove (passed s ++ (pending s).filter _) subr 0 s.nextEmitIdx).2 = _
      have hle : ((passed s).filter fun e => !(e.subr == subr)).length ≤ (passed s).length := length_filter_le _ _
      rw [← hpassed, hfront.2]
      omega
    · next hzero =>
      have hnil : passed s = [] := length_eq_zero_iff.mp (by omega)
      rw [hnil]
      show s.nextEmitIdx = 0
      omega
  · rw [Subject.unsubscribeAll]
    dsimp only
    split <;> rfl
  · exact fun e he => (nomatch he)
  · exact Nat.zero_le _

/-- How many subscribers an edit adds at most. -/
def Edit.subscribes : Edit S → ℕ
  | subscribe _ => 1
  | unsubscribe _ | unsubscribeSubr _ | unsubscribeAll _ => 0

/-- What the edits can do. -/
theorem effect_edit (h : Sorted s) (a : Edit S) : ∃ new, Effect s (s.edit a) new ∧ new.length ≤ a.subscribes := by
  have hlt : ∀ (p : Entry S → Bool) idx, idx ∈ s.subrs.findIdx? p → idx < s.subrs.length := by
    intro p idx hidx
    exact (findIdx?_eq_some_iff_getElem.mp hidx).1
  cases a with
  | subscribe subr =>
    obtain ⟨new, heffect⟩ := effect_subscribe h subr
    exact ⟨new, heffect, heffect.single⟩
  | unsubscribe connection =>
    rw [Subject.edit, Subject.unsubscribe]
    split
    · exact ⟨[], effect_refl h, le_rfl⟩
    · exact ⟨[], effect_eraseIterator h fun idx hidx => hlt _ idx (Option.mem_filter_iff.mp hidx).1, le_rfl⟩
  | unsubscribeSubr subr => exact ⟨[], effect_eraseIterator h fun idx hidx => hlt _ idx hidx, le_rfl⟩
  | unsubscribeAll subr => exact ⟨[], effect_unsubscribeAll h subr, le_rfl⟩

end Edits

section Effect

variable {new : List (Entry S)}

/-- Those that are left, and those that are added behind them. -/
theorem Effect.mem_subrs (h : Effect s s' new) (he : e ∈ s'.subrs) : e ∈ s.subrs ∨ e ∈ new := by
  obtain ⟨rest, hback, hrest⟩ := h.back
  rcases Subr.mem_subrs.mp he with he | he
  · exact .inl (Subr.mem_subrs.mpr (.inl (h.front.subset he)))
  · rw [hback] at he
    rcases mem_append.mp he with he | he
    · exact .inl (Subr.mem_subrs.mpr (.inr (hrest.subset he)))
    · exact .inr he

theorem Effect.subset (h : Effect s s' new) (he : e ∈ new) : e ∈ s'.subrs := by
  obtain ⟨rest, hback, -⟩ := h.back
  apply Subr.mem_subrs.mpr
  rw [hback]
  exact .inr (mem_append_right _ he)

/-- An order of the entries is kept, where what is added comes last in it. -/
theorem Effect.pairwise {r : Entry S → Entry S → Prop} (h : Effect s s' new) (hs : s.subrs.Pairwise r)
    (hnew : ∀ e ∈ new, ∀ x ∈ s.subrs, r x e) : s'.subrs.Pairwise r := by
  obtain ⟨rest, hback, hrest⟩ := h.back
  have hkept : (passed s' ++ rest).Sublist s.subrs := by
    rw [← passed_append_pending s]
    exact h.front.append hrest
  have hsplit : s'.subrs = (passed s' ++ rest) ++ new := by
    rw [append_assoc, ← hback, passed_append_pending]
  rw [hsplit, pairwise_append]
  refine ⟨hs.sublist hkept, ?_, fun x hx e he => hnew e he x (hkept.subset hx)⟩
  match new, h.single with
  | [], _ => exact .nil
  | [e], _ => exact pairwise_singleton r e

theorem Effect.sorted (h : Effect s s' new) (hs : Sorted s) : Sorted s' where
  conn := h.pairwise hs.conn fun e he => (h.added e he).2
  serial := h.pairwise hs.serial fun e he x hx => by
    rw [(h.added e he).1]
    exact hs.fresh x hx
  fresh e he := by
    rw [h.registered]
    rcases h.mem_subrs he with he | he
    · exact Nat.lt_add_right _ (hs.fresh e he)
    · rw [(h.added e he).1]
      exact Nat.lt_add_of_pos_right (length_pos_of_mem he)
  idx := h.idx

theorem Sorted.eq_of_serial (h : Sorted s) {e' : Entry S} (he : e ∈ s.subrs) (he' : e' ∈ s.subrs)
    (heq : e.serial = e'.serial) : e = e' := by
  have hnodup : (s.subrs.map Entry.serial).Nodup := pairwise_map.mpr (h.serial.imp fun hlt => ne_of_lt hlt)
  exact inj_on_of_nodup_map hnodup he he' heq

end Effect

/-! ### The log -/

section Events

variable {new : List (Entry S)}

theorem mem_events {before after : List (Entry S)} {ev : Event S} : ev ∈ events before after ↔
    (∃ e ∈ before, (∀ e' ∈ after, e'.serial ≠ e.serial) ∧ ev = .removed e) ∨
      ∃ e ∈ after, (∀ e' ∈ before, e'.serial ≠ e.serial) ∧ ev = .subscribed e := by
  simp only [events, mem_append, mem_map, mem_filter, all_eq_true, decide_eq_true_eq, ne_eq,
    and_assoc]
  constructor
  · rintro (⟨e, he, hno, rfl⟩ | ⟨e, he, hno, rfl⟩)
    · exact .inl ⟨e, he, hno, rfl⟩
    · exact .inr ⟨e, he, hno, rfl⟩
  · rintro (⟨e, he, hno, rfl⟩ | ⟨e, he, hno, rfl⟩)
    · exact .inl ⟨e, he, hno, rfl⟩
    · exact .inr ⟨e, he, hno, rfl⟩

theorem Effect.removed_iff (h : Effect s s' new) (hs : Sorted s) :
    .removed e ∈ events s.subrs s'.subrs ↔ e ∈ s.subrs ∧ e ∉ s'.subrs := by
  have hs' := h.sorted hs
  rw [mem_events]
  constructor
  · rintro (⟨e', he', hno, heq⟩ | ⟨e', -, -, heq⟩)
    · cases heq
      exact ⟨he', fun he => hno e he rfl⟩
    · cases heq
  · rintro ⟨he, hno⟩
    refine .inl ⟨e, he, fun e' he' heq => ?_, rfl⟩
    rcases h.mem_subrs he' with hold | hnew
    · rw [hs.eq_of_serial hold he heq] at he'
      exact hno he'
    · have hlt := hs.fresh e he
      rw [← heq, (h.added e' hnew).1] at hlt
      exact lt_irrefl _ hlt

theorem Effect.subscribed_iff (h : Effect s s' new) (hs : Sorted s) :
    .subscribed e ∈ events s.subrs s'.subrs ↔ e ∈ new := by
  rw [mem_events]
  constructor
  · rintro (⟨e', -, -, heq⟩ | ⟨e', he', hno, heq⟩)
    · cases heq
    · cases heq
      rcases h.mem_subrs he' with hold | hnew
      · exact absurd rfl (hno e hold)
      · exact hnew
  · intro he
    refine .inr ⟨e, h.subset he, fun e' he' heq => ?_, rfl⟩
    have hlt := hs.fresh e' he'
    rw [heq, (h.added e he).1] at hlt
    exact lt_irrefl _ hlt

theorem called_not_mem_events (before after : List (Entry S)) : .called e ∉ events before after := by
  rw [mem_events]
  rintro (⟨e', -, -, heq⟩ | ⟨e', -, -, heq⟩)
  · cases heq
  · cases heq

end Events

/-- Registered at the start, or since. -/
def Known (start : List (Entry S)) (log : List (Event S)) (e : Entry S) : Prop := e ∈ start ∨ .subscribed e ∈ log

/-- A call, with what came before: its subscriber is registered and has not been called, and
of all of which this is true it has the least id. -/
structure CallOk (start : List (Entry S)) (log : List (Event S)) (e : Entry S) : Prop where
  known : Known start log e
  notRemoved : .removed e ∉ log
  notCalled : .called e ∉ log
  first : ∀ e', Known start log e' → .removed e' ∉ log → .called e' ∉ log → e.conn ≤ e'.conn

/-- The loop's invariant. -/
structure Publishing (start : List (Entry S)) (s : Subject S) (log : List (Event S)) : Prop where
  sorted : Sorted s
  container : ∀ e, e ∈ s.subrs ↔ Known start log e ∧ .removed e ∉ log
  passed : ∀ e ∈ passed s, .called e ∈ log
  pending : ∀ e ∈ pending s, .called e ∉ log
  calls : ∀ pre e post, log = pre ++ .called e :: post → CallOk start pre e
  old : ∀ e, Known start log e ∨ .removed e ∈ log ∨ .called e ∈ log → e.serial < s.registered

section Loop

variable {start : List (Entry S)} {log : List (Event S)}

theorem Publishing.init (h : Sorted s) : Publishing s.subrs { s with nextEmitIdx := 0 } [] where
  sorted := ⟨h.conn, h.serial, h.fresh, Nat.zero_le _⟩
  container e := by simp [Known]
  passed e he := by
    rw [Subr.passed, take_zero] at he
    cases he
  pending e _ := not_mem_nil
  calls pre e post heq := by
    cases pre <;> cases heq
  old e he := by
    rcases he with (he | he) | he | he
    · exact h.fresh e he
    · cases he
    · cases he
    · cases he

/-- The one whose turn it is. -/
theorem Publishing.call (h : Publishing start s log) (he : s.subrs[s.nextEmitIdx]? = some e) :
    Publishing start { s with nextEmitIdx := s.nextEmitIdx + 1 } (log ++ [.called e]) := by
  obtain ⟨hlt, helem⟩ := List.getElem?_eq_some_iff.mp he
  have hmem : e ∈ s.subrs := List.mem_of_getElem? he
  have hpassed : Subr.passed { s with nextEmitIdx := s.nextEmitIdx + 1 } = Subr.passed s ++ [e] := by
    show s.subrs.take (s.nextEmitIdx + 1) = _
    rw [take_add_one, he]
    rfl
  have hpending : Subr.pending s = e :: Subr.pending { s with nextEmitIdx := s.nextEmitIdx + 1 } := by
    show s.subrs.drop s.nextEmitIdx = e :: s.subrs.drop (s.nextEmitIdx + 1)
    rw [← helem, drop_eq_getElem_cons hlt]
  have hnotcalled : .called e ∉ log := h.pending e (hpending ▸ mem_cons_self)
  -- those behind have greater ids and later registrations
  have hconn := h.sorted.conn
  have hserial := h.sorted.serial
  rw [← passed_append_pending s, hpending] at hconn hserial
  have hbehind := (pairwise_cons.mp (pairwise_append.mp hconn).2.1).1
  have hlater := (pairwise_cons.mp (pairwise_append.mp hserial).2.1).1
  have hknown : ∀ e', Known start (log ++ [.called e]) e' ↔ Known start log e' := by
    intro e'
    simp [Known]
  have hremoved : ∀ e', .removed e' ∈ log ++ [.called e] ↔ .removed e' ∈ log := by
    intro e'
    simp
  constructor
  · exact ⟨h.sorted.conn, h.sorted.serial, h.sorted.fresh, hlt⟩
  · intro e'
    rw [hknown, hremoved]
    exact h.container e'
  · intro e' he'
    rw [hpassed] at he'
    rcases mem_append.mp he' with he' | he'
    · exact mem_append_left _ (h.passed e' he')
    · rw [mem_singleton.mp he']
      exact mem_append_right _ (mem_singleton_self _)
  · intro e' he' hcalled
    rcases mem_append.mp hcalled with hcalled | hcalled
    · exact h.pending e' (hpending ▸ mem_cons_of_mem _ he') hcalled
    · cases mem_singleton.mp hcalled
      exact lt_irrefl _ (hlater _ he')
  · intro pre e' post heq
    rcases post.eq_nil_or_concat with rfl | ⟨post, x, rfl⟩
    · obtain ⟨rfl, hlast⟩ := append_inj' heq rfl
      cases hlast
      obtain ⟨hk, hr⟩ := (h.container e).mp hmem
      refine ⟨hk, hr, hnotcalled, fun e' hk' hr' hc' => ?_⟩
      rcases Subr.mem_subrs.mp ((h.container e').mpr ⟨hk', hr'⟩) with he' | he'
      · exact absurd (h.passed e' he') hc'
      · rw [hpending] at he'
        rcases mem_cons.mp he' with rfl | he'
        · exact le_rfl
        · exact (hbehind e' he').le
    · rw [concat_eq_append, ← cons_append, ← append_assoc] at heq
      exact h.calls pre e' post (append_inj' heq rfl).1
  · intro e' he'
    rw [hknown, hremoved] at he'
    rcases he' with he' | he' | he'
    · exact h.old e' (.inl he')
    · exact h.old e' (.inr (.inl he'))
    · rcases mem_append.mp he' with he' | he'
      · exact h.old e' (.inr (.inr he'))
      · cases mem_singleton.mp he'
        exact h.sorted.fresh e hmem

/-- An edit of a callback. -/
theorem Publishing.effect {new : List (Entry S)} (h : Publishing start s log) (heffect : Effect s s' new) :
    Publishing start s' (log ++ events s.subrs s'.subrs) := by
  have hs := h.sorted
  have hremoved : ∀ e, .removed e ∈ log ++ events s.subrs s'.subrs ↔
      .removed e ∈ log ∨ e ∈ s.subrs ∧ e ∉ s'.subrs := by
    intro e
    rw [mem_append, heffect.removed_iff hs]
  have hknown : ∀ e, Known start (log ++ events s.subrs s'.subrs) e ↔ Known start log e ∨ e ∈ new := by
    intro e
    rw [Known, Known, mem_append, heffect.subscribed_iff hs, or_assoc]
  have hcalled : ∀ e, .called e ∈ log ++ events s.subrs s'.subrs ↔ .called e ∈ log := by
    intro e
    rw [mem_append, or_iff_left (called_not_mem_events _ _)]
  -- what is added is in no event yet
  have hnew : ∀ e ∈ new, ¬ (Known start log e ∨ .removed e ∈ log ∨ .called e ∈ log) := by
    intro e he hold
    have hlt := h.old e hold
    rw [(heffect.added e he).1] at hlt
    exact lt_irrefl _ hlt
  constructor
  · exact heffect.sorted hs
  · intro e
    rw [hknown, hremoved]
    constructor
    · intro he
      rcases heffect.mem_subrs he with hold | hadd
      · obtain ⟨hk, hr⟩ := (h.container e).mp hold
        exact ⟨.inl hk, fun hr' => hr'.elim hr fun hgone => hgone.2 he⟩
      · exact ⟨.inr hadd, fun hr => hr.elim (fun hr => hnew e hadd (.inr (.inl hr))) fun hgone => hgone.2 he⟩
    · rintro ⟨hk | hadd, hr⟩
      · by_contra he
        exact hr (.inr ⟨(h.container e).mpr ⟨hk, fun hr' => hr (.inl hr')⟩, he⟩)
      · exact heffect.subset hadd
  · intro e he
    exact mem_append_left _ (h.passed e (heffect.front.subset he))
  · intro e he
    rw [hcalled]
    obtain ⟨rest, hback, hrest⟩ := heffect.back
    rw [hback] at he
    rcases mem_append.mp he with he | he
    · exact h.pending e (hrest.subset he)
    · exact fun hc => hnew e he (.inr (.inr hc))
  · intro pre e post heq
    rcases append_eq_append_iff.mp heq with ⟨mid, -, hmid⟩ | ⟨mid, hlog, hmid⟩
    · have hmem : .called e ∈ events s.subrs s'.subrs := by
        rw [hmid]
        exact mem_append_right _ mem_cons_self
      exact absurd hmem (called_not_mem_events _ _)
    · cases mid with
      | nil =>
        have hmem : .called e ∈ events s.subrs s'.subrs := by
          rw [nil_append] at hmid
          rw [← hmid]
          exact mem_cons_self
        exact absurd hmem (called_not_mem_events _ _)
      | cons x mid =>
        cases hmid
        exact h.calls pre e mid hlog
  · intro e he
    rw [hknown, hremoved, hcalled] at he
    rw [heffect.registered]
    rcases he with (hk | hadd) | (hr | ⟨hold, -⟩) | hc
    · exact Nat.lt_add_right _ (h.old e (.inl hk))
    · rw [(heffect.added e hadd).1]
      exact Nat.lt_add_of_pos_right (length_pos_of_mem hadd)
    · exact Nat.lt_add_right _ (h.old e (.inr (.inl hr)))
    · exact Nat.lt_add_right _ (hs.fresh e hold)
    · exact Nat.lt_add_right _ (h.old e (.inr (.inr hc)))

variable [BEq S]

theorem Publishing.edits (h : Publishing start s log) (as : List (Edit S)) :
    Publishing start (s.edits as).1 (log ++ (s.edits as).2) := by
  induction as generalizing s log with
  | nil =>
    rw [Subject.edits, append_nil]
    exact h
  | cons a as ih =>
    obtain ⟨new, heffect, -⟩ := effect_edit h.sorted a
    have hrest := ih (h.effect heffect)
    rw [append_assoc] at hrest
    exact hrest

theorem Publishing.loop (h : Publishing start s log) (script : ℕ → List (Edit S)) (fuel n : ℕ) :
    let r := publishLoop script fuel n s log
    Publishing start r.1 r.2.1 ∧ (r.2.2 = true → Subr.pending r.1 = []) := by
  induction fuel generalizing n s log with
  | zero => exact ⟨h, fun hfalse => (nomatch hfalse)⟩
  | succ fuel ih =>
    rw [publishLoop]
    cases he : s.subrs[s.nextEmitIdx]? with
    | none => exact ⟨h, fun _ => drop_eq_nil_of_le (getElem?_eq_none_iff.mp he)⟩
    | some e =>
      have hcalled := (h.call he).edits (script n)
      rw [append_assoc] at hcalled
      exact ih hcalled (n + 1)


end Loop

/-! ### A publish ends -/

section Ends

theorem Effect.pending_le {new : List (Entry S)} (h : Effect s s' new) :
    (pending s').length ≤ (pending s).length + new.length := by
  obtain ⟨rest, hback, hrest⟩ := h.back
  rw [hback, length_append]
  exact Nat.add_le_add_right hrest.length_le _

variable [BEq S]

/-- The subscribers that a list of edits adds at most. -/
def subscriptions (as : List (Edit S)) : ℕ := (as.map Edit.subscribes).sum

theorem pending_edits (h : Sorted s) (as : List (Edit S)) :
    Sorted (s.edits as).1 ∧ (pending (s.edits as).1).length ≤ (pending s).length + subscriptions as := by
  induction as generalizing s with
  | nil => exact ⟨h, le_rfl⟩
  | cons a as ih =>
    obtain ⟨new, heffect, hnew⟩ := effect_edit h a
    obtain ⟨hsorted, hle⟩ := ih (heffect.sorted h)
    refine ⟨hsorted, hle.trans ?_⟩
    have hpending := heffect.pending_le
    have hsum : subscriptions (a :: as) = a.subscribes + subscriptions as := by
      rw [subscriptions, map_cons, sum_cons, subscriptions]
    omega

/-- A publish ends where its callbacks do not subscribe again and again. -/
theorem publishLoop_returns (h : Sorted s) (script : ℕ → List (Edit S)) (fuel n : ℕ) (log : List (Event S))
    (hfuel : (pending s).length + ((List.range fuel).map fun i => subscriptions (script (n + i))).sum < fuel) :
    (publishLoop script fuel n s log).2.2 = true := by
  induction fuel generalizing n s log with
  | zero => exact absurd hfuel (Nat.not_lt_zero _)
  | succ fuel ih =>
    rw [publishLoop]
    cases he : s.subrs[s.nextEmitIdx]? with
    | none => rfl
    | some e =>
      have hlt := (List.getElem?_eq_some_iff.mp he).1
      have hcalled : Sorted { s with nextEmitIdx := s.nextEmitIdx + 1 } := ⟨h.conn, h.serial, h.fresh, hlt⟩
      obtain ⟨hsorted, hle⟩ := pending_edits hcalled (script n)
      have hone : (pending { s with nextEmitIdx := s.nextEmitIdx + 1 }).length + 1 = (pending s).length := by
        show (s.subrs.drop (s.nextEmitIdx + 1)).length + 1 = (s.subrs.drop s.nextEmitIdx).length
        rw [length_drop, length_drop]
        omega
      have hsum : ((List.range (fuel + 1)).map fun i => subscriptions (script (n + i))).sum =
          subscriptions (script n) + ((List.range fuel).map fun i => subscriptions (script (n + 1 + i))).sum := by
        rw [range_succ_eq_map, map_cons, sum_cons, map_map, add_zero]
        congr 3
        funext i
        rw [Function.comp_apply, Nat.succ_eq_add_one, add_assoc, add_comm 1]
      exact ih hsorted (n + 1) _ (by omega)

end Ends

/-! ### Runs -/

section Runs

variable [BEq S]

/-- Between publishes the index is at the start. -/
theorem run_sorted {acts : List (Act S)} (hrun : steps step {} acts = some s) : Sorted s ∧ s.nextEmitIdx = 0 := by
  have hinit : Sorted ({} : Subject S) ∧ ({} : Subject S).nextEmitIdx = 0 :=
    ⟨⟨.nil, .nil, fun e he => (nomatch he), le_rfl⟩, rfl⟩
  refine steps_preserve (P := fun s : Subject S => Sorted s ∧ s.nextEmitIdx = 0) ?_ hinit hrun
  rintro s a s' ⟨hsorted, hidx⟩ hstep
  cases a with
  | edit a =>
    cases hstep
    obtain ⟨new, heffect, -⟩ := effect_edit hsorted a
    have hfront := heffect.front
    rw [passed, passed, hidx, take_zero, sublist_nil] at hfront
    refine ⟨heffect.sorted hsorted, ?_⟩
    have hlen := congrArg length hfront
    rwa [length_take, Nat.min_eq_left heffect.idx] at hlen
  | publish script fuel =>
    obtain ⟨-, hpublish⟩ := Option.ite_none_right_eq_some.mp hstep
    cases hpublish
    obtain ⟨h, -⟩ := (Publishing.init hsorted).loop script fuel 0
    refine ⟨⟨h.sorted.conn, h.sorted.serial, h.sorted.fresh, ?_⟩, hidx⟩
    show s.nextEmitIdx ≤ _
    rw [hidx]
    exact Nat.zero_le _

/-- A publish from a container, up to what it has come to. -/
structure Published (start : List (Entry S)) (s : Subject S) (log : List (Event S)) (returned : Bool) : Prop where
  calls : ∀ pre e post, log = pre ++ .called e :: post → CallOk start pre e
  complete : returned = true → ∀ e, Known start log e → .called e ∈ log ∨ .removed e ∈ log
  container : ∀ e, e ∈ s.subrs ↔ Known start log e ∧ .removed e ∉ log
  ordered : s.subrs.Pairwise fun a b => a.conn < b.conn

/-- In every state of a subject a publish calls, turn by turn, the subscriber with the least
id of those registered and not yet called; it ends where the callbacks do not subscribe
again and again, and then all have been called that were not removed before. -/
theorem publish_calls {acts : List (Act S)} (hrun : steps step {} acts = some s) (script : ℕ → List (Edit S)) (fuel : ℕ) :
    Published s.subrs (s.publish script fuel).1 (s.publish script fuel).2.1 (s.publish script fuel).2.2 ∧
      (s.subrs.length + ((List.range fuel).map fun i => subscriptions (script i)).sum < fuel →
        (s.publish script fuel).2.2 = true) := by
  obtain ⟨hsorted, -⟩ := run_sorted hrun
  have hinit := Publishing.init hsorted
  obtain ⟨h, hpending⟩ := hinit.loop script fuel 0
  refine ⟨⟨h.calls, fun hreturned e he => ?_, h.container, h.sorted.conn⟩, fun hfuel => ?_⟩
  · by_cases hr : .removed e ∈ (s.publish script fuel).2.1
    · exact Or.inr hr
    · rcases mem_subrs.mp ((h.container e).mpr ⟨he, hr⟩) with hmem | hmem
      · exact Or.inl (h.passed e hmem)
      · rw [hpending hreturned] at hmem
        cases hmem
  · apply publishLoop_returns hinit.sorted
    simpa [pending] using hfuel

end Runs

/-- Two subscribers; the second one removes both and registers a new one. -/
def renewed : ℕ → List (Edit ℕ)
  | 1 => [.unsubscribe 1, .unsubscribe 2, .subscribe 7]
  | _ => []

def twoSubscribers : List (Act ℕ) := [.edit (.subscribe 5), .edit (.subscribe 6)]

theorem publish_calls_renewed : ∃ s, steps step {} twoSubscribers = some s ∧
    Published s.subrs (s.publish renewed 5).1 (s.publish renewed 5).2.1 (s.publish renewed 5).2.2 :=
  have hrun : steps step {} twoSubscribers = some ⟨[⟨1, 5, 0⟩, ⟨2, 6, 1⟩], 0, 2⟩ := rfl
  ⟨_, hrun, (publish_calls hrun renewed 5).1⟩

/-- The ids of the subscribers called. -/
def calledConns (log : List (Event S)) : List ℕ := log.filterMap fun
  | .called e => some e.conn
  | _ => none

/-- The new one gets the id of the first one again, and is called after the second one. -/
theorem not_publish_ordered : ¬ ∀ (acts : List (Act ℕ)) (s : Subject ℕ) (script : ℕ → List (Edit ℕ)) (fuel : ℕ),
    steps step {} acts = some s → (calledConns (s.publish script fuel).2.1).Pairwise (· ≤ ·) := by
  intro h
  have hordered := h twoSubscribers _ renewed 5 rfl
  exact absurd hordered (by decide)

end Fon9.Subr
