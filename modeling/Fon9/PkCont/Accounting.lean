import Fon9.Lib.Run
import Fon9.PkCont.Feeder

/-! The counts of the feeder, where the sequence does not wrap. What was fed is delivered,
dropped, a duplicate of a pending packet, or pending; the numbers that `NextSeq_` went past
are received or lost. Only a feeder without a wait interval goes past numbers that it does
not count. -/

namespace Fon9.PkCont

open Lib PkContFeeder List

variable {Pk : Type*}

/-! ### What is counted -/

variable (events : List (Event Pk))

def deliveries : List (Pk × ℕ) := events.filterMap fun
  | .received r => some (r.pk, r.seq)
  | _ => none

def drops : List (Pk × ℕ) := events.filterMap fun
  | .dropped pk seq => some (pk, seq)
  | _ => none

/-- How often the timer was started. -/
def starts : ℕ := events.countP fun
  | .runAfter => true
  | _ => false

/-- The first packet of all is not compared with `NextSeq_`. -/
def IsFirst (s : PkContFeeder Pk) : Prop := s.nextSeq = 0 ∧ s.receivedCount = 0

instance (s : PkContFeeder Pk) : Decidable (IsFirst s) := inferInstanceAs (Decidable (_ ∧ _))

variable (cfg : Config) (s : PkContFeeder Pk) (events : List (Event Pk))

/-- A packet that is too old, or too far ahead. -/
def Rejects (seq : ℕ) : Prop :=
  seq < s.nextSeq ∨ s.nextSeq < seq ∧ ¬ IsFirst s ∧ kMaxGapAllow cfg < seq - s.nextSeq

instance (cfg : Config) (s : PkContFeeder Pk) (seq : ℕ) : Decidable (Rejects cfg s seq) :=
  inferInstanceAs (Decidable (_ ∨ _ ∧ _ ∧ _))

/-- A packet behind a gap that is not waited for. -/
def Jumps (seq : ℕ) : Prop :=
  cfg.waitInterval = 0 ∧ s.nextSeq < seq ∧ ¬ IsFirst s ∧ seq - s.nextSeq ≤ kMaxGapAllow cfg

instance (cfg : Config) (s : PkContFeeder Pk) (seq : ℕ) : Decidable (Jumps cfg s seq) :=
  inferInstanceAs (Decidable (_ ∧ _ ∧ _ ∧ _))

/-- The account of a run: the packets fed, those with the number of a pending one, those too
old or too far, how many numbers lie in the gaps that were not waited for, and whether the
timer runs. -/
structure Account (Pk : Type*) where
  fed : List (Pk × ℕ) := []
  duplicates : List (Pk × ℕ) := []
  rejected : List (Pk × ℕ) := []
  skipped : ℕ := 0
  armed : Bool := false

def Account.step (a : Account Pk) : Op Pk → Account Pk
  | .feedPacket pk seq =>
    { fed := a.fed ++ [(pk, seq)]
      duplicates := if seq ∈ s.pkPendings.map PkRec.seq then a.duplicates ++ [(pk, seq)] else a.duplicates
      rejected := if Rejects cfg s seq then a.rejected ++ [(pk, seq)] else a.rejected
      skipped := if Jumps cfg s seq then a.skipped + (seq - s.nextSeq) else a.skipped
      armed := a.armed || starts s.log < starts (s.feedPacket cfg pk seq).log }
  | .onTimer => { a with armed := false }

def account (cfg : Config) : PkContFeeder Pk → Account Pk → List (Op Pk) → Account Pk
  | _, a, [] => a
  | s, a, op :: ops => account cfg (step cfg s op) (a.step cfg s op) ops

/-- A packet of a sequence that does not wrap: it is not the last number, and it is not
taken for one behind the wrap. -/
def NeverWraps : Op Pk → Prop
  | .feedPacket _ seq => seq < cfg.maxSeqNo ∧
      (seq < s.nextSeq → kMaxGapAllow cfg ≤ u64sub (u64 (seq + cfg.maxSeqNo)) s.nextSeq)
  | .onTimer => True

instance (cfg : Config) (s : PkContFeeder Pk) : DecidablePred (NeverWraps cfg s)
  | .feedPacket _ _ => inferInstanceAs (Decidable (_ ∧ (_ → _)))
  | .onTimer => isTrue trivial

/-- No packet behind a gap that is not waited for. -/
def NoJump : Op Pk → Prop
  | .feedPacket _ seq => ¬ Jumps cfg s seq
  | .onTimer => True

instance (cfg : Config) (s : PkContFeeder Pk) : DecidablePred (NoJump cfg s)
  | .feedPacket _ seq => inferInstanceAs (Decidable (¬ Jumps cfg s seq))
  | .onTimer => isTrue trivial

section Lists

variable (l l' : List (Event Pk))

@[simp] theorem deliveries_append : deliveries (l ++ l') = deliveries l ++ deliveries l' := filterMap_append

@[simp] theorem drops_append : drops (l ++ l') = drops l ++ drops l' := filterMap_append

@[simp] theorem starts_append : starts (l ++ l') = starts l + starts l' := countP_append

@[simp] theorem deliveries_received (r : Received Pk) : deliveries [.received r] = [(r.pk, r.seq)] := rfl

@[simp] theorem deliveries_dropped (pk : Pk) (seq : ℕ) : deliveries [.dropped pk seq] = [] := rfl

@[simp] theorem deliveries_runAfter : deliveries [(.runAfter : Event Pk)] = [] := rfl

@[simp] theorem drops_received (r : Received Pk) : drops [.received r] = [] := rfl

@[simp] theorem drops_dropped (pk : Pk) (seq : ℕ) : drops [.dropped pk seq] = [(pk, seq)] := rfl

@[simp] theorem drops_runAfter : drops [(.runAfter : Event Pk)] = [] := rfl

end Lists

/-! ### Progress -/

/-- The numbers from the first delivery on are received, lost or skipped. -/
structure Progress (cfg : Config) (s : PkContFeeder Pk) (out : List (Pk × ℕ)) (skipped : ℕ) : Prop where
  start : out = [] → s.nextSeq = 0 ∧ s.receivedCount = 0 ∧ s.lostCount = 0 ∧ skipped = 0
  moved : ∀ first ∈ out.head?, 0 < s.receivedCount ∧ s.nextSeq ≤ cfg.maxSeqNo ∧
    s.nextSeq = first.2 + (s.receivedCount + s.lostCount + skipped)

variable {cfg : Config} {s : PkContFeeder Pk} {out : List (Pk × ℕ)} {skipped : ℕ} {pk : Pk} {seq : ℕ}

theorem afterReceived_of_lt (hmax : cfg.maxSeqNo < 2 ^ 64) (h : seq < cfg.maxSeqNo) :
    afterReceived cfg seq = seq + 1 := by
  have hnext : u64 (seq + 1) = seq + 1 := Nat.mod_eq_of_lt (by omega)
  rw [afterReceived, hnext]
  exact if_pos h

/-- A delivery at `NextSeq_` or behind a gap, which is lost or skipped. -/
theorem Progress.deliver (hmax : cfg.maxSeqNo < 2 ^ 64) (h : Progress cfg s out skipped) (hseq : seq < cfg.maxSeqNo)
    {lost skipped' : ℕ} (hstart : out = [] → lost = 0 ∧ skipped' = 0)
    (hgap : out ≠ [] → s.nextSeq ≤ seq ∧ lost + skipped' = s.lostCount + skipped + (seq - s.nextSeq)) :
    Progress cfg (callOnReceived cfg { s with lostCount := lost } pk seq) (out ++ [(pk, seq)]) skipped' := by
  have hnext := afterReceived_of_lt hmax hseq
  refine ⟨fun hnil => absurd hnil (by simp), fun first hfirst => ?_⟩
  simp only [callOnReceived, hnext]
  cases out with
  | nil =>
    obtain ⟨-, hcount, -, -⟩ := h.start rfl
    obtain ⟨rfl, rfl⟩ := hstart rfl
    obtain rfl : (pk, seq) = first := Option.some.inj hfirst
    rw [hcount]
    exact ⟨by decide, hseq, rfl⟩
  | cons first' out =>
    obtain rfl : first' = first := Option.some.inj hfirst
    obtain ⟨hpos, hle, hsum⟩ := h.moved first' rfl
    obtain ⟨hahead, hsum'⟩ := hgap (cons_ne_nil _ _)
    have hcount : u64 (s.receivedCount + 1) = s.receivedCount + 1 := Nat.mod_eq_of_lt (by omega)
    rw [hcount]
    exact ⟨Nat.succ_pos _, hseq, by omega⟩

/-! ### The pending packets -/

def content (i : PkRec Pk) : Pk × ℕ := (i.pk, i.seq)

/-- What a feeder has done since `before`, with the packets `l` still to come: those fed are
delivered, among the others, or to come. -/
structure Tracks (cfg : Config) (before : List (Event Pk)) (s : PkContFeeder Pk) (events : List (Event Pk))
    (fed others : Multiset (Pk × ℕ)) (skipped : ℕ) (l : List (PkRec Pk)) : Prop where
  log : s.log = before ++ events
  fed : fed = (deliveries events : Multiset (Pk × ℕ)) + others + (l.map content : List (Pk × ℕ))
  progress : Progress cfg s (deliveries events) skipped
  sorted : l.Pairwise fun i j => i.seq < j.seq
  ahead : ∀ i ∈ l, s.nextSeq ≤ i.seq ∧ i.seq < cfg.maxSeqNo ∧ i.seq ≤ s.nextSeq + kMaxGapAllow cfg
  some : l ≠ [] → deliveries events ≠ []

section Tracks

variable {before events : List (Event Pk)} {fed others : Multiset (Pk × ℕ)} {l : List (PkRec Pk)}

/-- The pending packets and the counter of drops do not matter. -/
theorem Tracks.congr {s' : PkContFeeder Pk} (h : Tracks cfg before s events fed others skipped l)
    (hlog : s'.log = s.log) (hnext : s'.nextSeq = s.nextSeq) (hrecv : s'.receivedCount = s.receivedCount)
    (hlost : s'.lostCount = s.lostCount) : Tracks cfg before s' events fed others skipped l where
  log := hlog.trans h.log
  fed := h.fed
  progress := by
    constructor
    · rw [hnext, hrecv, hlost]
      exact h.progress.start
    · rw [hnext, hrecv, hlost]
      exact h.progress.moved
  sorted := h.sorted
  ahead := hnext ▸ h.ahead
  some := h.some

/-- A delivery in front of the packets to come. -/
theorem Tracks.deliver (hmax : cfg.maxSeqNo < 2 ^ 64) (h : Tracks cfg before s events fed others skipped l)
    {fed' others' : Multiset (Pk × ℕ)} {l' : List (PkRec Pk)} {lost skipped' : ℕ} (hseq : seq < cfg.maxSeqNo)
    (hstart : deliveries events = [] → lost = 0 ∧ skipped' = 0)
    (hgap : deliveries events ≠ [] → s.nextSeq ≤ seq ∧ lost + skipped' = s.lostCount + skipped + (seq - s.nextSeq))
    (hfed : fed' = (deliveries events : Multiset (Pk × ℕ)) + {(pk, seq)} + others' + (l'.map content : List (Pk × ℕ)))
    (hsorted : l'.Pairwise fun i j => i.seq < j.seq) (hahead : ∀ i ∈ l', seq < i.seq ∧ i.seq < cfg.maxSeqNo ∧ i.seq ≤ seq + kMaxGapAllow cfg) :
    Tracks cfg before (callOnReceived cfg { s with lostCount := lost } pk seq)
      (events ++ [.received ⟨pk, seq, s.nextSeq, afterReceived cfg seq⟩]) fed' others' skipped' l' where
  log := by
    show s.log ++ [_] = _
    rw [h.log, append_assoc]
  fed := by
    rw [hfed, deliveries_append, deliveries_received, ← Multiset.coe_add, Multiset.coe_singleton]
  progress := by
    rw [deliveries_append, deliveries_received]
    exact h.progress.deliver hmax hseq hstart hgap
  sorted := hsorted
  ahead i hi := by
    show afterReceived cfg seq ≤ i.seq ∧ _ ∧ i.seq ≤ afterReceived cfg seq + _
    rw [afterReceived_of_lt hmax hseq]
    obtain ⟨hlt, hmax', hnear⟩ := hahead i hi
    exact ⟨hlt, hmax', by omega⟩
  some _ := by
    rw [deliveries_append, deliveries_received]
    exact append_ne_nil_of_right_ne_nil _ (cons_ne_nil _ _)

/-- The first of the packets to come is delivered, and what is before it is lost. -/
theorem Tracks.deliverFirst (hmax : cfg.maxSeqNo < 2 ^ 64) {i : PkRec Pk}
    (h : Tracks cfg before s events fed others skipped (i :: l)) :
    Tracks cfg before (callOnReceived cfg { s with lostCount := s.lostCount + (i.seq - s.nextSeq) } i.pk i.seq)
      (events ++ [.received ⟨i.pk, i.seq, s.nextSeq, afterReceived cfg i.seq⟩]) fed others skipped l := by
  obtain ⟨hahead, hlt, -⟩ := h.ahead i mem_cons_self
  obtain ⟨hfirst, hsorted⟩ := pairwise_cons.mp h.sorted
  apply h.deliver hmax hlt
  · intro hnil
    exact absurd hnil (h.some (cons_ne_nil _ _))
  · intro _
    exact ⟨hahead, by omega⟩
  · rw [h.fed, map_cons, ← Multiset.cons_coe, ← Multiset.singleton_add, ← add_assoc]
    rw [add_right_comm _ others]
    rfl
  · exact hsorted
  · intro j hj
    obtain ⟨-, hmax', hnear⟩ := h.ahead j (mem_cons_of_mem _ hj)
    exact ⟨hfirst j hj, hmax', by omega⟩

section

variable (hmax : cfg.maxSeqNo < 2 ^ 64) (l : List (PkRec Pk)) {s : PkContFeeder Pk} {events : List (Event Pk)}
  (h : Tracks cfg before s events fed others skipped l)
include hmax h

theorem drain_tracks :
    ∃ events', Tracks cfg before (drain cfg s l) events' fed others skipped (drain cfg s l).pkPendings ∧
      (∀ i ∈ (drain cfg s l).pkPendings, (drain cfg s l).nextSeq < i.seq) ∧ drops events' = drops events ∧
      starts events' = starts events ∧ (drain cfg s l).droppedCount = s.droppedCount ∧
      ((drain cfg s l).pkPendings ≠ [] → l ≠ []) := by
  induction l generalizing s events with
  | nil => exact ⟨events, h.congr rfl rfl rfl rfl, by simp [drain], rfl, rfl, rfl, by simp [drain]⟩
  | cons i l ih =>
    obtain ⟨hahead, hlt, -⟩ := h.ahead i mem_cons_self
    have hadjust : adjustSeq cfg i.seq = i.seq := if_neg (by omega)
    rw [drain, hadjust]
    by_cases hne : i.seq ≠ s.nextSeq
    · rw [if_pos hne]
      refine ⟨events, h.congr rfl rfl rfl rfl, fun j hj => ?_, rfl, rfl, rfl, fun _ => cons_ne_nil _ _⟩
      rcases mem_cons.mp hj with rfl | hj
      · exact lt_of_le_of_ne hahead (Ne.symm hne)
      · exact lt_of_le_of_lt hahead ((pairwise_cons.mp h.sorted).1 j hj)
    · rw [if_neg hne]
      rw [not_not] at hne
      have hfirst := h.deliverFirst hmax
      have hlost : s.lostCount + (i.seq - s.nextSeq) = s.lostCount := by omega
      rw [hlost] at hfirst
      obtain ⟨events', htracks, hpend, hdrops, hstarts, hcount, -⟩ := ih hfirst
      refine ⟨events', htracks, hpend, ?_, ?_, hcount, fun _ => cons_ne_nil _ _⟩
      · rw [hdrops, drops_append, drops_received, append_nil]
      · rw [hstarts, starts_append]
        rfl

theorem flush_tracks :
    ∃ events', Tracks cfg before (flush cfg s l) events' fed others skipped [] ∧ drops events' = drops events ∧
      (flush cfg s l).droppedCount = s.droppedCount := by
  induction l generalizing s events with
  | nil => exact ⟨events, h, rfl, rfl⟩
  | cons i l ih =>
    obtain ⟨hahead, hlt, -⟩ := h.ahead i mem_cons_self
    have hfirst := h.deliverFirst hmax
    have hsub : u64sub i.seq s.nextSeq = i.seq - s.nextSeq := by
      unfold u64sub
      omega
    have hlost : u64 (s.lostCount + u64sub i.seq s.nextSeq) = s.lostCount + (i.seq - s.nextSeq) := by
      rw [hsub]
      apply Nat.mod_eq_of_lt
      obtain ⟨first, hmem⟩ : ∃ first, first ∈ (deliveries events).head? := by
        cases hout : deliveries events with
        | nil => exact absurd hout (h.some (cons_ne_nil _ _))
        | cons first out => exact ⟨first, rfl⟩
      obtain ⟨-, hle, hsum⟩ := h.progress.moved first hmem
      omega
    rw [flush, foldl_cons, hlost]
    obtain ⟨events', htracks, hdrops, hcount⟩ := ih hfirst
    refine ⟨events', htracks, ?_, hcount⟩
    rw [hdrops, drops_append, drops_received, append_nil]

end

end Tracks

/-! ### The steps -/

/-- What a feeder and its account keep: what is not delivered or pending is rejected or a
duplicate, and the timer runs while packets are pending. -/
structure Accounts (cfg : Config) (before : List (Event Pk)) (s : PkContFeeder Pk) (a : Account Pk) : Prop where
  tracks : ∃ events, Tracks cfg before s events a.fed ((a.rejected : Multiset (Pk × ℕ)) + a.duplicates) a.skipped s.pkPendings ∧
    drops events = a.rejected
  strict : ∀ i ∈ s.pkPendings, s.nextSeq < i.seq
  dropped : s.droppedCount = u64 a.rejected.length
  armed : s.pkPendings ≠ [] → a.armed = true
  wait : cfg.waitInterval = 0 → s.pkPendings = []

theorem Accounts.init (cfg : Config) (before : List (Event Pk)) : Accounts cfg before { log := before } {} where
  tracks := ⟨[], ⟨(append_nil _).symm, rfl, ⟨fun _ => ⟨rfl, rfl, rfl, rfl⟩, by simp [deliveries]⟩,
    List.Pairwise.nil, by simp, by simp⟩, rfl⟩
  strict := by simp
  dropped := rfl
  armed h := absurd rfl h
  wait _ := rfl

section Steps

variable {before : List (Event Pk)} {a : Account Pk}

/-- Nothing is delivered before the first packet. -/
theorem Tracks.first_iff {events : List (Event Pk)} {fed others : Multiset (Pk × ℕ)} {l : List (PkRec Pk)}
    (h : Tracks cfg before s events fed others skipped l) : IsFirst s ↔ deliveries events = [] := by
  constructor
  · rintro ⟨-, hcount⟩
    by_contra hne
    obtain ⟨first, out, hout⟩ := exists_cons_of_ne_nil hne
    obtain ⟨hpos, -, -⟩ := h.progress.moved first (by rw [hout]; rfl)
    exact hpos.ne' hcount
  · intro hnil
    obtain ⟨hnext, hcount, -, -⟩ := h.progress.start hnil
    exact ⟨hnext, hcount⟩

/-- A number that is handed over at once: the first, the expected one, or one behind a gap
that is not waited for. -/
def Passes (cfg : Config) (s : PkContFeeder Pk) (seq : ℕ) : Prop :=
  IsFirst s ∨ ¬ IsFirst s ∧ s.nextSeq ≤ seq ∧
    (s.nextSeq < seq → cfg.waitInterval = 0 ∧ seq - s.nextSeq ≤ kMaxGapAllow cfg)

/-- What a packet does in a sequence that does not wrap. -/
theorem feedPacket_of_neverWraps (hop : NeverWraps cfg s (.feedPacket pk seq)) :
    (s.feedPacket cfg pk seq = s.pkReceived cfg pk seq ∧ Passes cfg s seq) ∨
      (s.feedPacket cfg pk seq = s.dropPk pk seq ∧ Rejects cfg s seq) ∨
      (s.feedPacket cfg pk seq = s.insertPending pk seq ∧ ¬ IsFirst s ∧ s.nextSeq < seq ∧
        seq - s.nextSeq ≤ kMaxGapAllow cfg ∧ cfg.waitInterval ≠ 0) := by
  obtain ⟨-, hold⟩ := hop
  by_cases hf : IsFirst s
  · refine .inl ⟨?_, .inl hf⟩
    obtain ⟨hnext, hcount⟩ := hf
    rw [feedPacket, hnext]
    rcases Nat.eq_zero_or_pos seq with rfl | hpos
    · rw [if_pos rfl]
    · rw [if_neg hpos.ne', if_neg (Nat.not_lt_zero _), if_pos ⟨rfl, hcount⟩]
  rcases PkContFeeder.feedPacket_cases cfg s pk seq with
    ⟨heq, hcase⟩ | ⟨heq, hcase⟩ | ⟨-, hlt, hnear⟩ | ⟨heq, hlt, hnear, hwait⟩
  · refine .inl ⟨heq, .inr ⟨hf, ?_⟩⟩
    obtain rfl | ⟨hlt, hzero | ⟨hnear, hwait⟩⟩ := hcase
    · exact ⟨le_rfl, fun hlt => absurd hlt (lt_irrefl _)⟩
    · exact absurd hzero hf
    · exact ⟨hlt.le, fun _ => ⟨hwait, hnear⟩⟩
  · refine .inr (.inl ⟨heq, ?_⟩)
    obtain ⟨hlt, -⟩ | ⟨hlt, hfar⟩ := hcase
    · exact .inl hlt
    · exact .inr ⟨hlt, hf, hfar⟩
  · exact absurd hnear (not_lt.mpr (hold hlt))
  · exact .inr (.inr ⟨heq, hf, hlt, hnear, hwait⟩)

/-- The packets pending are behind a packet that is handed over. -/
theorem Accounts.pending_ahead (h : Accounts cfg before s a) (hcase : Passes cfg s seq) : ∀ i ∈ s.pkPendings, seq < i.seq := by
  obtain ⟨events, htracks, -⟩ := h.tracks
  intro i hi
  have hsome := htracks.some (ne_nil_of_mem hi)
  obtain hf | ⟨-, hle, hgap⟩ := hcase
  · exact absurd (htracks.first_iff.mp hf) hsome
  · rcases hle.lt_or_eq with hlt | rfl
    · rw [h.wait (hgap hlt).1] at hi
      exact (nomatch hi)
    · exact h.strict i hi

/-- A packet that is handed over. -/
theorem Accounts.pkReceived (hmax : cfg.maxSeqNo < 2 ^ 64) (h : Accounts cfg before s a) (hseq : seq < cfg.maxSeqNo)
    (hcase : Passes cfg s seq) (heq : s.feedPacket cfg pk seq = s.pkReceived cfg pk seq) :
    Accounts cfg before (s.feedPacket cfg pk seq) (a.step cfg s (.feedPacket pk seq)) := by
  obtain ⟨events, htracks, hdrops⟩ := h.tracks
  have hfirst := htracks.first_iff
  have hahead := h.pending_ahead hcase
  have hdup : seq ∉ s.pkPendings.map PkRec.seq := by
    intro hmem
    obtain ⟨i, hi, hkey⟩ := mem_map.mp hmem
    exact absurd hkey (hahead i hi).ne'
  have hrej : ¬ Rejects cfg s seq := by
    obtain ⟨hzero, hcount⟩ | ⟨-, hle, hgap⟩ := hcase
    · rintro (hlt | ⟨-, hne, -⟩)
      · omega
      · exact hne ⟨hzero, hcount⟩
    · rintro (hlt | ⟨hlt, -, hfar⟩)
      · omega
      · have := (hgap hlt).2
        omega
  have hgap : deliveries events ≠ [] → s.nextSeq ≤ seq ∧
      s.lostCount + (a.step cfg s (.feedPacket pk seq)).skipped = s.lostCount + a.skipped + (seq - s.nextSeq) := by
    intro hsome
    obtain hf | ⟨hnf, hle, hgap⟩ := hcase
    · exact absurd (hfirst.mp hf) hsome
    · refine ⟨hle, ?_⟩
      by_cases hlt : s.nextSeq < seq
      · have hjump : Jumps cfg s seq := ⟨(hgap hlt).1, hlt, hnf, (hgap hlt).2⟩
        simp only [Account.step, if_pos hjump]
        omega
      · have hjump : ¬ Jumps cfg s seq := fun hj => hlt hj.2.1
        simp only [Account.step, if_neg hjump]
        omega
  have hstart : deliveries events = [] → s.lostCount = 0 ∧ (a.step cfg s (.feedPacket pk seq)).skipped = 0 := by
    intro hnil
    obtain ⟨-, -, hlost, hskip⟩ := htracks.progress.start hnil
    have hjump : ¬ Jumps cfg s seq := fun hj => hj.2.2.1 (hfirst.mpr hnil)
    simp only [Account.step, if_neg hjump]
    exact ⟨hlost, hskip⟩
  have hfed : ((a.step cfg s (.feedPacket pk seq)).fed : Multiset (Pk × ℕ)) =
      (deliveries events : Multiset (Pk × ℕ)) + {(pk, seq)} + ((a.rejected : Multiset (Pk × ℕ)) + a.duplicates) +
        (s.pkPendings.map content : List (Pk × ℕ)) := by
    simp only [Account.step]
    rw [← Multiset.coe_add, htracks.fed, Multiset.coe_singleton]
    ac_rfl
  have hnear : ∀ i ∈ s.pkPendings, seq < i.seq ∧ i.seq < cfg.maxSeqNo ∧ i.seq ≤ seq + kMaxGapAllow cfg := by
    intro i hi
    obtain ⟨-, hlt, hnear⟩ := htracks.ahead i hi
    have hle := (hgap (htracks.some (ne_nil_of_mem hi))).1
    exact ⟨hahead i hi, hlt, by omega⟩
  obtain ⟨events', htracks', hstrict, hdrops', hstarts, hcount, hpend⟩ :=
    drain_tracks hmax s.pkPendings (htracks.deliver hmax hseq hstart hgap hfed htracks.sorted hnear)
  have hlog : (a.step cfg s (.feedPacket pk seq)).rejected = a.rejected ∧
      (a.step cfg s (.feedPacket pk seq)).duplicates = a.duplicates := by
    simp only [Account.step, if_neg hrej, if_neg hdup, and_self]
  rw [heq]
  constructor
  · refine ⟨events', ?_, ?_⟩
    · rw [hlog.1, hlog.2]
      exact htracks'
    · rw [hlog.1, hdrops', drops_append, hdrops]
      exact append_nil _
  · exact hstrict
  · rw [hlog.1]
    exact hcount.trans h.dropped
  · intro hne
    simp only [Account.step, h.armed (hpend hne), Bool.true_or]
  · intro hwait
    by_contra hne
    exact hpend hne (h.wait hwait)

/-- A packet that is too old or too far. -/
theorem Accounts.dropPk (h : Accounts cfg before s a) (hrej : Rejects cfg s seq)
    (heq : s.feedPacket cfg pk seq = s.dropPk pk seq) :
    Accounts cfg before (s.feedPacket cfg pk seq) (a.step cfg s (.feedPacket pk seq)) := by
  obtain ⟨events, htracks, hdrops⟩ := h.tracks
  have hdup : seq ∉ s.pkPendings.map PkRec.seq := by
    intro hmem
    obtain ⟨i, hi, rfl⟩ := mem_map.mp hmem
    have hlt := h.strict i hi
    obtain ⟨-, -, hnear⟩ := htracks.ahead i hi
    obtain hold | ⟨-, -, hfar⟩ := hrej <;> omega
  have hjump : ¬ Jumps cfg s seq := by
    rintro ⟨-, hlt, hnf, hnear⟩
    obtain hold | ⟨-, -, hfar⟩ := hrej <;> omega
  rw [heq]
  constructor
  · refine ⟨events ++ [.dropped pk seq], ?_, ?_⟩
    · simp only [Account.step, if_pos hrej, if_neg hdup, if_neg hjump]
      constructor
      · show s.log ++ [_] = _
        rw [htracks.log, append_assoc]
      · rw [deliveries_append, deliveries_dropped, append_nil, ← Multiset.coe_add, ← Multiset.coe_add, htracks.fed,
          Multiset.coe_singleton]
        ac_rfl
      · rw [deliveries_append, deliveries_dropped, append_nil]
        exact ⟨htracks.progress.start, htracks.progress.moved⟩
      · exact htracks.sorted
      · exact htracks.ahead
      · rw [deliveries_append, deliveries_dropped, append_nil]
        exact htracks.some
    · simp only [Account.step, if_pos hrej, drops_append, hdrops, drops_dropped]
  · exact h.strict
  · simp only [Account.step, if_pos hrej]
    show u64 (s.droppedCount + 1) = _
    rw [h.dropped, length_append, u64, u64, u64, Nat.mod_add_mod]
    rfl
  · intro hne
    simp only [Account.step, h.armed hne, Bool.true_or]
  · exact h.wait

/-- A packet behind a gap that is waited for. -/
theorem Accounts.insertPending (h : Accounts cfg before s a) (hnf : ¬ IsFirst s) (hseq : seq < cfg.maxSeqNo)
    (hlt : s.nextSeq < seq) (hnear : seq - s.nextSeq ≤ kMaxGapAllow cfg) (hwait : cfg.waitInterval ≠ 0)
    (heq : s.feedPacket cfg pk seq = s.insertPending pk seq) :
    Accounts cfg before (s.feedPacket cfg pk seq) (a.step cfg s (.feedPacket pk seq)) := by
  obtain ⟨events, htracks, hdrops⟩ := h.tracks
  have hrej : ¬ Rejects cfg s seq := by
    rintro (hold | ⟨-, -, hfar⟩) <;> omega
  have hjump : ¬ Jumps cfg s seq := fun hj => hwait hj.1
  have hkey : (sortedInsert PkRec.seq ⟨pk, seq⟩ s.pkPendings).2 = false ↔ seq ∈ s.pkPendings.map PkRec.seq :=
    sortedInsert_false_iff htracks.sorted
  cases hb : (sortedInsert PkRec.seq ⟨pk, seq⟩ s.pkPendings).2 with
  | false =>
    have hdup : seq ∈ s.pkPendings.map PkRec.seq := hkey.mp hb
    have hsame : s.feedPacket cfg pk seq = s := by
      rw [heq, PkContFeeder.insertPending, if_pos hb]
    simp only [hsame, Account.step, if_neg hrej, if_neg hjump, if_pos hdup, lt_self_iff_false, decide_false, Bool.or_false]
    constructor
    · refine ⟨events, ⟨htracks.log, ?_, htracks.progress, htracks.sorted, htracks.ahead, htracks.some⟩, hdrops⟩
      rw [← Multiset.coe_add, ← Multiset.coe_add, htracks.fed, Multiset.coe_singleton]
      ac_rfl
    · exact h.strict
    · exact h.dropped
    · exact h.armed
    · exact h.wait
  | true =>
    have hdup : seq ∉ s.pkPendings.map PkRec.seq := fun hmem => by
      rw [hkey.mpr hmem] at hb
      cases hb
    have hnew : s.feedPacket cfg pk seq =
        { s with
          pkPendings := (sortedInsert PkRec.seq ⟨pk, seq⟩ s.pkPendings).1
          log := if s.pkPendings.isEmpty then s.log ++ [.runAfter] else s.log } := by
      rw [heq, PkContFeeder.insertPending, if_neg (by rw [hb]; decide)]
    have hperm := sortedInsert_perm hb
    have hsome : deliveries events ≠ [] := fun hnil => hnf (htracks.first_iff.mpr hnil)
    obtain ⟨added, hlog, hadded⟩ : ∃ added, (s.feedPacket cfg pk seq).log = s.log ++ added ∧
        (added = [.runAfter] ∧ s.pkPendings = [] ∨ added = [] ∧ s.pkPendings ≠ []) := by
      rw [hnew]
      cases hpend : s.pkPendings with
      | nil => exact ⟨[.runAfter], rfl, .inl ⟨rfl, rfl⟩⟩
      | cons _ _ => exact ⟨[], (append_nil _).symm, .inr ⟨rfl, cons_ne_nil _ _⟩⟩
    have hquiet : deliveries added = [] ∧ drops added = [] := by
      obtain ⟨rfl, -⟩ | ⟨rfl, -⟩ := hadded <;> exact ⟨rfl, rfl⟩
    have hmem : ∀ i ∈ (sortedInsert PkRec.seq ⟨pk, seq⟩ s.pkPendings).1, i = ⟨pk, seq⟩ ∨ i ∈ s.pkPendings :=
      fun i => mem_sortedInsert
    constructor
    · refine ⟨events ++ added, ?_, ?_⟩
      · simp only [Account.step, if_neg hrej, if_neg hdup, if_neg hjump]
        constructor
        · rw [hlog, htracks.log, append_assoc]
        · have hmap : ((sortedInsert PkRec.seq ⟨pk, seq⟩ s.pkPendings).1.map content : Multiset (Pk × ℕ)) =
              {(pk, seq)} + (s.pkPendings.map content : List (Pk × ℕ)) :=
            Multiset.coe_eq_coe.mpr (hperm.map content)
          rw [hnew, hmap, deliveries_append, hquiet.1, append_nil, ← Multiset.coe_add, htracks.fed, Multiset.coe_singleton]
          ac_rfl
        · rw [hnew, deliveries_append, hquiet.1, append_nil]
          exact ⟨htracks.progress.start, htracks.progress.moved⟩
        · rw [hnew]
          exact sortedInsert_pairwise htracks.sorted (fun _ _ hlt => hlt) (fun _ _ hlt => hlt) htracks.sorted
        · rw [hnew]
          intro i hi
          obtain rfl | hi := hmem i hi
          · exact ⟨hlt.le, hseq, by dsimp only; omega⟩
          · exact htracks.ahead i hi
        · intro _
          rwa [deliveries_append, hquiet.1, append_nil]
      · rw [drops_append, hquiet.2, append_nil, hdrops]
        simp only [Account.step, if_neg hrej]
    · rw [hnew]
      intro i hi
      obtain rfl | hi := hmem i hi
      · exact hlt
      · exact h.strict i hi
    · rw [hnew]
      simp only [Account.step, if_neg hrej]
      exact h.dropped
    · intro _
      simp only [Account.step, hlog]
      obtain ⟨rfl, -⟩ | ⟨-, hne⟩ := hadded
      · have hlt' : starts s.log < starts (s.log ++ [.runAfter]) := by
          rw [starts_append]
          exact Nat.lt_succ_self _
        rw [decide_eq_true hlt', Bool.or_true]
      · rw [h.armed hne, Bool.true_or]
    · intro hzero
      exact absurd hzero hwait

section

variable (hmax : cfg.maxSeqNo < 2 ^ 64) (h : Accounts cfg before s a)
include hmax h

theorem Accounts.onTimer :
    Accounts cfg before (s.pkContOnTimer cfg) (a.step cfg s .onTimer) := by
  obtain ⟨events, htracks, hdrops⟩ := h.tracks
  obtain ⟨events', htracks', hdrops', hcount⟩ := flush_tracks hmax _ htracks
  constructor
  · exact ⟨events', htracks'.congr rfl rfl rfl rfl, hdrops'.trans hdrops⟩
  · intro i hi
    exact (nomatch hi)
  · exact hcount.trans h.dropped
  · exact fun hne => absurd rfl hne
  · exact fun _ => rfl

theorem Accounts.step {op : Op Pk} (hop : NeverWraps cfg s op)
    : Accounts cfg before (step cfg s op) (a.step cfg s op) := by
  cases op with
  | onTimer => exact h.onTimer hmax
  | feedPacket pk seq =>
    obtain ⟨heq, hcase⟩ | ⟨heq, hrej⟩ | ⟨heq, hf, hlt, hnear, hwait⟩ := feedPacket_of_neverWraps hop
    · exact h.pkReceived hmax hop.1 hcase heq
    · exact h.dropPk hrej heq
    · exact h.insertPending hf hop.1 hlt hnear hwait heq

theorem Accounts.run {ops : List (Op Pk)} (hops : Along (PkCont.step cfg) (NeverWraps cfg) s ops)
    : Accounts cfg before (run cfg s ops) (account cfg s a ops) := by
  induction ops generalizing s a with
  | nil => exact h
  | cons op ops ih => exact ih (h.step hmax hops.1) hops.2

end

/-- Nothing is skipped exactly where no packet jumps over a gap. -/
theorem skipped_eq_zero_iff (ops : List (Op Pk)) :
    (account cfg s a ops).skipped = 0 ↔ a.skipped = 0 ∧ Along (PkCont.step cfg) (NoJump cfg) s ops := by
  induction ops generalizing s a with
  | nil => exact ⟨fun h => ⟨h, trivial⟩, And.left⟩
  | cons op ops ih =>
    have hstep : (a.step cfg s op).skipped = 0 ↔ a.skipped = 0 ∧ NoJump cfg s op := by
      cases op with
      | onTimer => exact ⟨fun h => ⟨h, trivial⟩, And.left⟩
      | feedPacket pk seq =>
        simp only [Account.step, NoJump]
        split_ifs with hjump
        · refine ⟨fun h => ?_, fun h => absurd hjump h.2⟩
          have := hjump.2.1
          omega
        · exact ⟨fun h => ⟨h, hjump⟩, And.left⟩
    rw [account, ih, hstep, and_assoc]
    rfl

end Steps

/-! ### The accounting -/

/-- The events of a feeder since its log was `before`. -/
def since (before : List (Event Pk)) (s : PkContFeeder Pk) : List (Event Pk) := s.log.drop before.length

/-- The counts of a feeder agree with the account of what it was fed. -/
structure Accounted (before : List (Event Pk)) (s : PkContFeeder Pk) (a : Account Pk) : Prop where
  continuity : ∀ first ∈ (deliveries (since before s)).head?, first.2 + (s.receivedCount + s.lostCount) = s.nextSeq
  dropped : s.droppedCount = a.rejected.length
  once : a.fed.Perm (deliveries (since before s) ++ drops (since before s) ++ a.duplicates ++ s.pkPendings.map content)
  rejected : drops (since before s) = a.rejected
  ahead : ∀ i ∈ s.pkPendings, s.nextSeq < i.seq
  armed : s.pkPendings ≠ [] → a.armed = true

/-- From construction or `Clear`, in a run that does not wrap, the counts agree exactly where
no packet jumps over a gap that the feeder does not wait for. -/
theorem accounted_iff (cfg : Config) (hmax : cfg.maxSeqNo < 2 ^ 64) (before : List (Event Pk)) (ops : List (Op Pk))
    (hops : Along (step cfg) (NeverWraps cfg) { log := before } ops) :
    Accounted before (run cfg { log := before } ops) (account cfg { log := before } {} ops) ↔
      Along (step cfg) (NoJump cfg) { log := before } ops ∧ (account cfg { log := before } {} ops).rejected.length < 2 ^ 64 := by
  have h := (Accounts.init cfg before).run hmax hops
  have hskip : (account cfg { log := before } {} ops).skipped = 0 ↔ Along (step cfg) (NoJump cfg) { log := before } ops := by
    rw [skipped_eq_zero_iff]
    exact and_iff_right rfl
  generalize run cfg { log := before } ops = s at *
  generalize account cfg { log := before } {} ops = a at *
  obtain ⟨events, htracks, hdrops⟩ := h.tracks
  have hsince : since before s = events := by
    rw [since, htracks.log, List.drop_left]
  rw [← hskip]
  constructor
  · rintro ⟨hcont, hdropped, -, -, -, -⟩
    constructor
    · cases hout : (deliveries events).head? with
      | none =>
        obtain ⟨-, -, -, hzero⟩ := htracks.progress.start (List.head?_eq_none_iff.mp hout)
        exact hzero
      | some first =>
        obtain ⟨-, -, hnext⟩ := htracks.progress.moved first hout
        have := hcont first (by rw [hsince]; exact hout)
        omega
    · rw [← hdropped, h.dropped]
      exact Nat.mod_lt _ (by decide)
  · rintro ⟨hzero, hfits⟩
    constructor
    · intro first hfirst
      rw [hsince] at hfirst
      obtain ⟨-, -, hnext⟩ := htracks.progress.moved first hfirst
      omega
    · rw [h.dropped]
      exact Nat.mod_eq_of_lt hfits
    · rw [hsince, hdrops, ← Multiset.coe_eq_coe, htracks.fed]
      simp only [← Multiset.coe_add, add_assoc]
    · rw [hsince, hdrops]
    · exact h.strict
    · exact h.armed

/-- A gap that is waited for, a repetition, the gap filled, a gap given up, a packet too old. -/
theorem accounted_waiting :
    let cfg : Config := ⟨9, 1, 5000⟩
    let ops : List (Op ℕ) :=
      [.feedPacket 10 1, .feedPacket 30 3, .feedPacket 31 3, .feedPacket 20 2, .feedPacket 60 6, .onTimer, .feedPacket 50 5]
    Accounted [] (run cfg {} ops) (account cfg {} {} ops) :=
  (accounted_iff ⟨9, 1, 5000⟩ (by decide) [] _ (by decide)).mpr (by decide)

/-- Without a wait interval packet 3 behind packet 1 is handed over, and packet 2 is not
counted as lost. -/
theorem not_accounted :
    ¬ ∀ (cfg : Config) (_ : cfg.maxSeqNo < 2 ^ 64) (before : List (Event ℕ)) (ops : List (Op ℕ))
      (_ : Along (step cfg) (NeverWraps cfg) { log := before } ops),
      Accounted before (run cfg { log := before } ops) (account cfg { log := before } {} ops) := by
  intro h
  have hops := h ⟨9, 1, 0⟩ (by decide) [] [.feedPacket 10 1, .feedPacket 30 3] (by decide)
  have hcont := hops.continuity
  revert hcont
  decide

end Fon9.PkCont
