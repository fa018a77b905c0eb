import Fon9.Lib.Cyclic
import Fon9.PkCont.Feeder

/-! Delivery safety of the feeder across the sequence wrap. The delivered packets
are packets that were fed, with the number they were fed with and each at most
once; `NextSeq_` follows each of them; and each lies ahead of the one before.
The feeder keeps this while no wrapped key reaches the timer and the order of the
keys is the order of the numbers: then the pending packets, in key order, lie at
growing distances ahead of `NextSeq_`. -/

namespace Fon9.PkCont

open Lib List PkContFeeder

variable {Pk : Type*}

/-- The feeders and numbers of the delivery property. -/
structure Config.Valid (cfg : Config) : Prop where
  two_le : 2 ≤ cfg.maxSeqNo
  lt : cfg.maxSeqNo < 2 ^ 64
  first_le : cfg.firstSeqNoAfterOverflow ≤ 1
  wait : 0 < cfg.waitInterval

variable (cfg : Config)

def Config.InRange (seq : ℕ) : Prop :=
  cfg.firstSeqNoAfterOverflow ≤ seq ∧ seq ≤ cfg.maxSeqNo

/-- The cyclic successor of a sequence number. -/
def Config.succ : ℕ → ℕ :=
  Cyclic.succ cfg.firstSeqNoAfterOverflow cfg.maxSeqNo

/-- The number of cyclic successor steps from one number to another. -/
def Config.dist : ℕ → ℕ → ℕ :=
  Cyclic.dist cfg.firstSeqNoAfterOverflow cfg.maxSeqNo

def Op.InRange : Op Pk → Prop
  | .feedPacket _ seq => cfg.InRange seq
  | .onTimer => True

instance (cfg : Config) (seq : ℕ) : Decidable (cfg.InRange seq) := inferInstanceAs (Decidable (_ ∧ _))

instance (cfg : Config) : DecidablePred (@Op.InRange Pk cfg)
  | .feedPacket _ seq => inferInstanceAs (Decidable (cfg.InRange seq))
  | .onTimer => inferInstanceAs (Decidable True)

/-- How many numbers `NextSeq_` has moved on over the deliveries. -/
def moved (out : List (Received Pk)) : ℕ :=
  (out.map fun r => cfg.dist r.expected r.seq + 1).sum

/-- The deliveries, each with its place counted in numbers from the start. -/
def places (cfg : Config) : ℕ → List (Received Pk) → List (Pk × ℕ × ℕ)
  | _, [] => []
  | n, r :: rs =>
    (r.pk, r.seq, n + cfg.dist r.expected r.seq) :: places cfg (n + (cfg.dist r.expected r.seq + 1)) rs

/-- The place a packet is fed for: its number counted on from `NextSeq_`. -/
def placeOf (s : PkContFeeder Pk) (seq : ℕ) : ℕ :=
  moved cfg s.received + cfg.dist s.nextSeq seq

/-- The packets of a run with their numbers and the places they are fed for. -/
def fed (cfg : Config) : PkContFeeder Pk → List (Op Pk) → List (Pk × ℕ × ℕ)
  | _, [] => []
  | s, .feedPacket pk seq :: ops =>
    (pk, seq, placeOf cfg s seq) :: fed cfg (s.feedPacket cfg pk seq) ops
  | s, .onTimer :: ops => fed cfg (s.pkContOnTimer cfg) ops

/-- Delivery safety, given what was fed: every delivery is a packet that was fed,
once for each time it was fed, with its number and in its place of the sequence;
`NextSeq_` follows it; and at most `kMaxGapAllow` numbers are passed over. -/
structure DeliverySafe (cfg : Config) (input : List (Pk × ℕ × ℕ)) (out : List (Received Pk)) : Prop where
  fed_once : (places cfg 0 out).Subperm input
  next_succ : ∀ r ∈ out, r.next = cfg.succ r.seq
  ahead : out.IsChain fun a b => cfg.dist (cfg.succ a.seq) b.seq ≤ cfg.maxSeqNo / 2

theorem places_append (out : List (Received Pk)) (r : Received Pk) (n : ℕ) :
    places cfg n (out ++ [r]) =
      places cfg n out ++ [(r.pk, r.seq, n + moved cfg out + cfg.dist r.expected r.seq)] := by
  induction out generalizing n with
  | nil => simp [places, moved]
  | cons a out ih =>
    simp only [cons_append, places, ih, moved, map_cons, sum_cons]
    rw [add_assoc n (_ + 1) (List.sum _)]

variable {cfg : Config} {l : List (PkRec Pk)} {i : PkRec Pk} {n : ℕ} {seq : ℕ}

/-- The places of the deliveries grow: none is delivered twice or after a later one. -/
theorem places_pairwise (cfg : Config) (out : List (Received Pk)) (n : ℕ) :
    (places cfg n out).Pairwise (fun a b => a.2.2 < b.2.2) ∧ ∀ p ∈ places cfg n out, n ≤ p.2.2 := by
  induction out generalizing n with
  | nil => simp [places]
  | cons r out ih =>
    obtain ⟨h1, h2⟩ := ih (n + (cfg.dist r.expected r.seq + 1))
    refine ⟨pairwise_cons.mpr ⟨fun p hp => ?_, h1⟩, fun p hp => ?_⟩
    · have := h2 p hp
      simp only
      omega
    · rcases List.mem_cons.mp hp with rfl | hp
      · exact Nat.le_add_right _ _
      · have := h2 p hp
        omega

/-! ### The steps that keep the order -/

/-- A packet may be fed: the counter of received packets has not come back to zero,
the number after it and its wrapped key fit in a word, and no pending packet with
a wrapped key would come after it in the vector but before it in the sequence. -/
structure FeedOk (cfg : Config) (s : PkContFeeder Pk) (seq : ℕ) : Prop where
  started : s.receivedCount = 0 → s.received = []
  succ_fits : seq + 1 < 2 ^ 64 ∨ cfg.firstSeqNoAfterOverflow = 0
  key_fits : seq < s.nextSeq → s.nextSeq + cfg.maxSeqNo / 2 > seq + cfg.maxSeqNo →
    seq + cfg.maxSeqNo + 1 < 2 ^ 64
  in_order : s.nextSeq < seq → ∀ i ∈ s.pkPendings, cfg.maxSeqNo < i.seq →
    s.nextSeq + (cfg.maxSeqNo + 1) ≤ i.seq → seq + (cfg.maxSeqNo + 1) < i.seq

/-- A step that stays clear of the wrapped keys' two defects: the timer finds only
keys that are numbers, and a packet is kept where its number belongs. -/
def StepOk (cfg : Config) (s : PkContFeeder Pk) : Op Pk → Prop
  | .feedPacket _ seq => FeedOk cfg s seq
  | .onTimer => ∀ i ∈ s.pkPendings, i.seq ≤ cfg.maxSeqNo

def StepsOk (cfg : Config) : PkContFeeder Pk → List (Op Pk) → Prop
  | _, [] => True
  | s, op :: ops => StepOk cfg s op ∧ StepsOk cfg (step cfg s op) ops

/-! ### The pending packets in key order -/

/-- A pending key lies at most `kMaxGapAllow` ahead of `n`: a number not before
`n`, or a wrapped key whose number is small and, if before `n`, close to the wrap. -/
def PendOk (cfg : Config) (n : ℕ) (i : PkRec Pk) : Prop :=
  (i.seq ≤ cfg.maxSeqNo ∧ n ≤ i.seq ∧ i.seq ≤ n + cfg.maxSeqNo / 2 ∧
    (i.seq + 1 < 2 ^ 64 ∨ cfg.firstSeqNoAfterOverflow = 0)) ∨
  (cfg.maxSeqNo + 1 + cfg.firstSeqNoAfterOverflow ≤ i.seq ∧ i.seq < 2 ^ 64 ∧
    i.seq < cfg.maxSeqNo + 1 + cfg.maxSeqNo / 2 ∧
    (i.seq < n + (cfg.maxSeqNo + 1) → i.seq < n + cfg.maxSeqNo / 2 + 1))

/-- Key order, and a number before a wrapped key that the sequence reaches later. -/
def Before (cfg : Config) (n : ℕ) (i j : PkRec Pk) : Prop :=
  i.seq < j.seq ∧ (i.seq ≤ cfg.maxSeqNo → n + (cfg.maxSeqNo + 1) ≤ j.seq →
    i.seq + (cfg.maxSeqNo + 1) < j.seq)

/-- What the pending packets keep between the calls of the drain loop. -/
structure PendInv (cfg : Config) (n : ℕ) (l : List (PkRec Pk)) : Prop where
  ok : ∀ i ∈ l, PendOk cfg n i
  order : l.Pairwise (Before cfg n)

/-- No pending packet carries the number `n`. -/
def Awaits (cfg : Config) (n : ℕ) (l : List (PkRec Pk)) : Prop :=
  ∀ i ∈ l, PkContFeeder.adjustSeq cfg i.seq ≠ n

theorem PendInv.tail (h : PendInv cfg n (i :: l)) : PendInv cfg n l :=
  ⟨fun j hj => h.ok j (by simp [hj]), h.order.of_cons⟩

section Numbers

variable {cfg : Config} {n : ℕ} {i j : PkRec Pk}

theorem adjustSeq_of_le {key : ℕ} (h : key ≤ cfg.maxSeqNo) : adjustSeq cfg key = key := by
  simp [adjustSeq, Nat.not_lt.mpr h]

theorem adjustSeq_of_gt {key : ℕ} (h : cfg.maxSeqNo < key) (hk : key < 2 ^ 64) :
    adjustSeq cfg key = key - (cfg.maxSeqNo + 1) := by
  rw [adjustSeq, if_pos h, u64, Nat.mod_eq_of_lt (by omega)]

theorem afterReceived_eq (hc : cfg.Valid) (hs : seq ≤ cfg.maxSeqNo)
    (hf : seq + 1 < 2 ^ 64 ∨ cfg.firstSeqNoAfterOverflow = 0) :
    afterReceived cfg seq = cfg.succ seq := by
  have hlt := hc.lt
  simp only [afterReceived, Config.succ, Cyclic.succ, u64]
  split_ifs <;> omega

/-- The number of a pending packet is in range and not far ahead. -/
theorem PendOk.near (hi : PendOk cfg n i) (hn : cfg.InRange n) :
    cfg.InRange (adjustSeq cfg i.seq) ∧
      cfg.dist n (adjustSeq cfg i.seq) ≤ cfg.maxSeqNo / 2 ∧
      (adjustSeq cfg i.seq + 1 < 2 ^ 64 ∨ cfg.firstSeqNoAfterOverflow = 0) := by
  obtain ⟨hn1, hn2⟩ := hn
  rcases hi with ⟨h1, h2, h3, h4⟩ | ⟨h1, h2, h3, h4⟩
  · rw [adjustSeq_of_le h1]
    simp only [Config.dist, Cyclic.dist, if_pos h2, Config.InRange]
    omega
  · rw [adjustSeq_of_gt (by omega) h2]
    simp only [Config.dist, Cyclic.dist, Config.InRange]
    split <;> omega

/-- `NextSeq_` moves on past a number that is not pending. -/
theorem PendOk.succ (hi : PendOk cfg n i) (hn : cfg.InRange n)
    (ha : adjustSeq cfg i.seq ≠ n) : PendOk cfg (cfg.succ n) i := by
  obtain ⟨hn1, hn2⟩ := hn
  rcases hi with ⟨h1, h2, h3, h4⟩ | ⟨h1, h2, h3, h4⟩
  · rw [adjustSeq_of_le h1] at ha
    left
    simp only [Config.succ, Cyclic.succ]
    split <;> omega
  · rw [adjustSeq_of_gt (by omega) h2] at ha
    right
    simp only [Config.succ, Cyclic.succ]
    split <;> omega

theorem Before.succ (hi : PendOk cfg n i) (hij : Before cfg n i j)
    (ha : adjustSeq cfg i.seq ≠ n) : Before cfg (cfg.succ n) i j := by
  refine ⟨hij.1, fun h1 h2 => ?_⟩
  rw [adjustSeq_of_le h1] at ha
  have hlow : n < i.seq := by
    rcases hi with h | h <;> omega
  have hsucc : cfg.succ n = n + 1 := by simp [Config.succ, Cyclic.succ]; omega
  exact hij.2 h1 (by omega)

/-- Of two pending packets in key order only the first can carry `n`. -/
theorem Before.awaits (hc : cfg.Valid) (hi : PendOk cfg n i) (hj : PendOk cfg n j)
    (hij : Before cfg n i j) : adjustSeq cfg j.seq ≠ n := by
  obtain ⟨hlt, hw⟩ := hij
  have := hc.two_le
  rcases hj with ⟨j1, j2, j3, j4⟩ | ⟨j1, j2, j3, j4⟩
  · rw [adjustSeq_of_le j1]
    rcases hi with hi | hi <;> omega
  · rw [adjustSeq_of_gt (by omega) j2]
    rcases hi with hi | hi <;> omega

/-- Key order is the order of the distances. -/
theorem Before.dist_lt (hc : cfg.Valid) (hn : cfg.InRange n) (hi : PendOk cfg n i)
    (hj : PendOk cfg n j) (hij : Before cfg n i j) :
    cfg.dist n (adjustSeq cfg i.seq) < cfg.dist n (adjustSeq cfg j.seq) := by
  obtain ⟨hlt, hw⟩ := hij
  obtain ⟨hn1, hn2⟩ := hn
  have := hc.two_le
  have := hc.first_le
  simp only [Config.dist, Cyclic.dist]
  rcases hj with ⟨j1, j2, j3, j4⟩ | ⟨j1, j2, j3, j4⟩
  · rw [adjustSeq_of_le j1]
    rcases hi with hi | hi
    · rw [adjustSeq_of_le hi.1]
      split_ifs <;> omega
    · omega
  · rw [adjustSeq_of_gt (by omega) j2]
    rcases hi with hi | hi
    · rw [adjustSeq_of_le hi.1]
      split_ifs <;> omega
    · rw [adjustSeq_of_gt (by omega) hi.2.1]
      split_ifs <;> omega

end Numbers

theorem PendInv.succ (h : PendInv cfg n l) (hn : cfg.InRange n) (ha : Awaits cfg n l)
    : PendInv cfg (cfg.succ n) l := by
  refine ⟨fun i hi => (h.ok i hi).succ hn (ha i hi), ?_⟩
  exact h.order.imp_of_mem fun hi _ hij => hij.succ (h.ok _ hi) (ha _ hi)

theorem PendInv.awaits_tail (hc : cfg.Valid) (h : PendInv cfg n (i :: l)) : Awaits cfg n l := by
  intro j hj
  exact Before.awaits hc (h.ok i (by simp)) (h.ok j (by simp [hj]))
    ((pairwise_cons.mp h.order).1 j hj)

/-! ### What a delivery keeps -/

/-- A pending packet with its number and its place. -/
def slot (cfg : Config) (s : PkContFeeder Pk) (i : PkRec Pk) : Pk × ℕ × ℕ :=
  (i.pk, PkContFeeder.adjustSeq cfg i.seq, placeOf cfg s (PkContFeeder.adjustSeq cfg i.seq))

/-- The delivery property with the packets `l` still to come, after `s` delivered
at least one packet. -/
structure Delivering (cfg : Config) (input : List (Pk × ℕ × ℕ)) (s : PkContFeeder Pk)
    (l : List (PkRec Pk)) : Prop where
  conserve : (places cfg 0 s.received ++ l.map (slot cfg s)).Subperm input
  next_succ : ∀ r ∈ s.received, r.next = cfg.succ r.seq
  ahead : s.received.IsChain fun a b => cfg.dist (cfg.succ a.seq) b.seq ≤ cfg.maxSeqNo / 2
  last : ∀ r ∈ s.received.getLast?, s.nextSeq = cfg.succ r.seq
  inRange : cfg.InRange s.nextSeq
  pend : PendInv cfg s.nextSeq l

section Steps

variable {cfg : Config} {input : List (Pk × ℕ × ℕ)} {s : PkContFeeder Pk}

theorem Delivering.safe (h : Delivering cfg input s l) :
    DeliverySafe cfg input s.received :=
  ⟨(sublist_append_left _ _).subperm.trans h.conserve, h.next_succ, h.ahead⟩

@[simp] theorem received_callOnReceived (pk : Pk) (seq : ℕ) :
    (s.callOnReceived cfg pk seq).received =
      s.received ++ [⟨pk, seq, s.nextSeq, afterReceived cfg seq⟩] := by
  simp [PkContFeeder.callOnReceived, PkContFeeder.received]

@[simp] theorem nextSeq_callOnReceived (pk : Pk) (seq : ℕ) :
    (s.callOnReceived cfg pk seq).nextSeq = afterReceived cfg seq := rfl

variable {pk : Pk}

/-- A delivery leaves the places of the numbers behind it alone. -/
theorem placeOf_callOnReceived (hc : cfg.Valid) {seq a : ℕ} (hn : cfg.InRange s.nextSeq) (hseq : cfg.InRange seq)
    (hfits : seq + 1 < 2 ^ 64 ∨ cfg.firstSeqNoAfterOverflow = 0) (ha : cfg.InRange a)
    (hlt : cfg.dist s.nextSeq seq < cfg.dist s.nextSeq a) :
    placeOf cfg (s.callOnReceived cfg pk seq) a = placeOf cfg s a := by
  have hd : cfg.dist s.nextSeq a = cfg.dist s.nextSeq seq + 1 + cfg.dist (cfg.succ seq) a :=
    Cyclic.dist_of_lt hn.2 hn.1 hseq.1 hseq.2 ha.1 ha.2 hlt
  simp only [placeOf, received_callOnReceived, nextSeq_callOnReceived, afterReceived_eq hc hseq.2 hfits,
    moved, map_append, sum_append, map_cons, map_nil, sum_singleton]
  omega

/-- A delivery of a number that is not far ahead, in front of the pending ones,
keeps the property. -/
theorem callOnReceived_delivering (hc : cfg.Valid) (hseq : cfg.InRange seq)
    (hfits : seq + 1 < 2 ^ 64 ∨ cfg.firstSeqNoAfterOverflow = 0)
    (hcons : (places cfg 0 s.received ++ (pk, seq, placeOf cfg s seq) :: l.map (slot cfg s)).Subperm input)
    (hplace : ∀ i ∈ l, slot cfg (s.callOnReceived cfg pk seq) i = slot cfg s i)
    (hnext : ∀ r ∈ s.received, r.next = cfg.succ r.seq)
    (hahead : s.received.IsChain fun a b => cfg.dist (cfg.succ a.seq) b.seq ≤ cfg.maxSeqNo / 2)
    (hlast : ∀ r ∈ s.received.getLast?, cfg.dist (cfg.succ r.seq) seq ≤ cfg.maxSeqNo / 2)
    (hpend : PendInv cfg (cfg.succ seq) l) :
    Delivering cfg input (s.callOnReceived cfg pk seq) l := by
  have hafter := afterReceived_eq hc hseq.2 hfits
  constructor
  · rw [received_callOnReceived, places_append, map_congr_left hplace, append_assoc,
      Nat.zero_add]
    exact hcons
  · intro r hr
    rw [received_callOnReceived, mem_append, mem_singleton] at hr
    rcases hr with hr | rfl
    · exact hnext r hr
    · exact hafter
  · rw [received_callOnReceived, isChain_append]
    refine ⟨hahead, isChain_singleton _, fun a ha b hb => ?_⟩
    simp only [List.head?_cons, Option.mem_def, Option.some.injEq] at hb
    subst hb
    exact hlast a ha
  · simp [hafter]
  · rw [nextSeq_callOnReceived, hafter]
    exact Cyclic.succ_mem (by have := hc.first_le; have := hc.two_le; omega) hseq.1 hseq.2
  · rw [nextSeq_callOnReceived, hafter]
    exact hpend

/-- The first pending packet may be delivered once the others still lie ahead. -/
theorem Delivering.deliver (hc : cfg.Valid) (h : Delivering cfg input s (i :: l))
    (hpend : PendInv cfg (cfg.succ (adjustSeq cfg i.seq)) l) :
    Delivering cfg input (s.callOnReceived cfg i.pk (adjustSeq cfg i.seq)) l := by
  have hi := h.pend.ok i (by simp)
  obtain ⟨hseq, hdist, hfits⟩ := hi.near h.inRange
  refine callOnReceived_delivering hc hseq hfits h.conserve (fun j hj => ?_) h.next_succ h.ahead
    (fun r hr => ?_) hpend
  · have hj' := h.pend.ok j (by simp [hj])
    have hij := (pairwise_cons.mp h.pend.order).1 j hj
    rw [slot, slot, placeOf_callOnReceived hc h.inRange hseq hfits (hj'.near h.inRange).1
      (hij.dist_lt hc h.inRange hi hj')]
  · rw [← h.last r hr]
    exact hdist

/-- The invariant between two calls of the feeder. -/
structure Inv (cfg : Config) (input : List (Pk × ℕ × ℕ)) (s : PkContFeeder Pk) : Prop where
  start : s.received = [] → s.nextSeq = 0 ∧ s.receivedCount = 0 ∧ s.pkPendings = []
  delivering : s.received ≠ [] → Delivering cfg input s s.pkPendings
  awaits : s.received ≠ [] → Awaits cfg s.nextSeq s.pkPendings

theorem Inv.of_delivering (h : Delivering cfg input s s.pkPendings)
    (ha : Awaits cfg s.nextSeq s.pkPendings) (hr : s.received ≠ []) : Inv cfg input s :=
  ⟨fun h0 => absurd h0 hr, fun _ => h, fun _ => ha⟩

/-- The drain loop stops in front of the first packet that does not continue the
sequence, and then no pending packet does. -/
theorem drain_inv (hc : cfg.Valid) (l : List (PkRec Pk)) (s : PkContFeeder Pk)
    (h : Delivering cfg input s l) (hr : s.received ≠ []) : Inv cfg input (s.drain cfg l) := by
  induction l generalizing s with
  | nil =>
    refine Inv.of_delivering ⟨h.conserve, h.next_succ, h.ahead, h.last, h.inRange, h.pend⟩ ?_ hr
    intro i hi
    cases hi
  | cons i rest ih =>
    rw [PkContFeeder.drain]
    have htail : Awaits cfg s.nextSeq rest := h.pend.awaits_tail hc
    split
    case isTrue hne =>
      refine Inv.of_delivering ⟨h.conserve, h.next_succ, h.ahead, h.last, h.inRange, h.pend⟩ ?_ hr
      intro j hj
      rcases List.mem_cons.mp hj with rfl | hj
      · exact hne
      · exact htail j hj
    case isFalse heq =>
      have heq : adjustSeq cfg i.seq = s.nextSeq := not_not.mp heq
      refine ih _ (h.deliver hc ?_) (by simp)
      rw [heq]
      exact h.pend.tail.succ h.inRange htail

theorem Inv.mono {input' : List (Pk × ℕ × ℕ)} (h : Inv cfg input s) (hi : input.Subperm input') :
    Inv cfg input' s := by
  refine ⟨h.start, fun hr => ?_, h.awaits⟩
  have hd := h.delivering hr
  exact ⟨hd.conserve.trans hi, hd.next_succ, hd.ahead, hd.last, hd.inRange, hd.pend⟩

theorem Inv.safe (h : Inv cfg input s) : DeliverySafe cfg input s.received := by
  by_cases hr : s.received = []
  · rw [hr]
    exact ⟨nil_subperm, by simp, isChain_nil⟩
  · exact (h.delivering hr).safe

theorem subperm_middle {α : Type*} {a b c : List α} {x : α} (h : (a ++ b).Subperm c) :
    (a ++ x :: b).Subperm (c ++ [x]) := by
  refine perm_middle.subperm_right.mpr ?_
  refine (perm_append_singleton x c).symm.subperm_left.mp ?_
  exact (subperm_cons x).mpr h

/-- The first packet of all is taken whatever its number. -/
theorem pkReceived_first (hc : cfg.Valid) (h : Inv cfg input s) (hr : s.received = []) (hseq : cfg.InRange seq)
    (hfits : seq + 1 < 2 ^ 64 ∨ cfg.firstSeqNoAfterOverflow = 0) :
    Inv cfg (input ++ [(pk, seq, placeOf cfg s seq)]) (s.pkReceived cfg pk seq) := by
  rw [PkContFeeder.pkReceived, (h.start hr).2.2]
  refine drain_inv hc _ _ (callOnReceived_delivering hc hseq hfits ?_ (by simp) ?_ ?_ ?_ ?_) (by simp)
  · simp [hr, places]
  · simp [hr]
  · simp [hr]
  · simp [hr]
  · exact ⟨by simp, List.Pairwise.nil⟩

/-- The expected packet is taken and the pending ones that follow it. -/
theorem pkReceived_next (hc : cfg.Valid) (h : Inv cfg input s) (hr : s.received ≠ [])
    (hfits : s.nextSeq + 1 < 2 ^ 64 ∨ cfg.firstSeqNoAfterOverflow = 0) :
    Inv cfg (input ++ [(pk, s.nextSeq, placeOf cfg s s.nextSeq)]) (s.pkReceived cfg pk s.nextSeq) := by
  have hd := h.delivering hr
  have hzero : cfg.dist s.nextSeq s.nextSeq = 0 := by simp [Config.dist, Cyclic.dist]
  refine drain_inv hc _ _ (callOnReceived_delivering hc hd.inRange hfits ?_ (fun i hi => ?_)
    hd.next_succ hd.ahead (fun r hr => ?_) (hd.pend.succ hd.inRange (h.awaits hr))) (by simp)
  · exact subperm_middle hd.conserve
  · have hne := h.awaits hr i hi
    obtain ⟨hin, -, -⟩ := (hd.pend.ok i hi).near hd.inRange
    rw [slot, slot, placeOf_callOnReceived hc hd.inRange hd.inRange hfits hin]
    rw [hzero]
    have := hd.inRange
    simp only [Config.dist, Cyclic.dist, Config.InRange] at *
    split_ifs <;> omega
  · rw [← hd.last r hr, hzero]
    exact Nat.zero_le _

theorem nextSeq_insertPending (pk : Pk) (key : ℕ) : (s.insertPending pk key).nextSeq = s.nextSeq := by
  simp only [PkContFeeder.insertPending]
  split_ifs <;> rfl

theorem slot_congr {s' : PkContFeeder Pk} (hr : s'.received = s.received)
    (hn : s'.nextSeq = s.nextSeq) : slot cfg s' = slot cfg s := by
  funext i
  simp only [slot, placeOf, hr, hn]

/-- A packet whose key lies where its number belongs is kept. -/
theorem insertPending_inv (h : Inv cfg input s) (hr : s.received ≠ []) {key seq : ℕ}
    (hadj : adjustSeq cfg key = seq) (hne : seq ≠ s.nextSeq)
    (hok : PendOk cfg s.nextSeq (⟨pk, key⟩ : PkRec Pk))
    (hbelow : ∀ i ∈ s.pkPendings, i.seq < key → Before cfg s.nextSeq i ⟨pk, key⟩)
    (habove : ∀ i ∈ s.pkPendings, key < i.seq → Before cfg s.nextSeq ⟨pk, key⟩ i) :
    Inv cfg (input ++ [(pk, seq, placeOf cfg s seq)]) (s.insertPending pk key) := by
  have hd := h.delivering hr
  cases hb : (sortedInsert PkRec.seq ⟨pk, key⟩ s.pkPendings).2 with
  | false =>
    have hs : s.insertPending pk key = s := by simp [PkContFeeder.insertPending, hb]
    rw [hs]
    exact h.mono (sublist_append_left _ _).subperm
  | true =>
    have hp : (s.insertPending pk key).pkPendings =
        (sortedInsert PkRec.seq ⟨pk, key⟩ s.pkPendings).1 := by
      simp [PkContFeeder.insertPending, hb]
    have hrec : (s.insertPending pk key).received = s.received := s.received_insertPending pk key
    have hnext : (s.insertPending pk key).nextSeq = s.nextSeq := nextSeq_insertPending pk key
    have hperm := sortedInsert_perm hb
    refine Inv.of_delivering ⟨?_, ?_, ?_, ?_, ?_, ?_, ?_⟩ ?_ (by rwa [hrec])
    · rw [hrec, hp, slot_congr hrec hnext]
      refine ((hperm.map _).append_left _).subperm_right.mpr ?_
      simpa [slot, hadj] using subperm_middle hd.conserve
    · rw [hrec]; exact hd.next_succ
    · rw [hrec]; exact hd.ahead
    · rw [hrec, hnext]; exact hd.last
    · rw [hnext]; exact hd.inRange
    · rw [hnext, hp]
      intro i hi
      rcases mem_sortedInsert hi with rfl | hi
      · exact hok
      · exact hd.pend.ok i hi
    · rw [hnext, hp]
      exact sortedInsert_pairwise hd.pend.order hbelow habove (hd.pend.order.imp fun h => h.1)
    · rw [hnext, hp]
      intro i hi
      rcases mem_sortedInsert hi with rfl | hi
      · rwa [hadj]
      · exact h.awaits hr i hi

theorem dropPk_inv (h : Inv cfg input s) (hr : s.received ≠ []) (pk : Pk) (seq : ℕ) :
    Inv cfg input (s.dropPk pk seq) := by
  have hrec : (s.dropPk pk seq).received = s.received := by
    simp [PkContFeeder.dropPk, PkContFeeder.received]
  have hd := h.delivering hr
  refine Inv.of_delivering ⟨?_, hrec ▸ hd.next_succ, hrec ▸ hd.ahead, hrec ▸ hd.last, hd.inRange,
    hd.pend⟩ (h.awaits hr) (hrec ▸ hr)
  rw [hrec, slot_congr hrec rfl]
  exact hd.conserve

theorem feedPacket_inv (hc : cfg.Valid) (h : Inv cfg input s) (hseq : cfg.InRange seq) (hf : FeedOk cfg s seq) :
    Inv cfg (input ++ [(pk, seq, placeOf cfg s seq)]) (s.feedPacket cfg pk seq) := by
  have hmax := hc.lt
  have htwo := hc.two_le
  by_cases hr : s.received = []
  · -- nothing delivered yet: the packet is the expected one or the first
    have hrun : s.feedPacket cfg pk seq = s.pkReceived cfg pk seq := by
      obtain ⟨h0, h1, -⟩ := h.start hr
      simp [PkContFeeder.feedPacket, h0, h1]
    rw [hrun]
    exact pkReceived_first hc h hr hseq hf.succ_fits
  have hd := h.delivering hr
  obtain ⟨hn1, hn2⟩ := hd.inRange
  have hcount : s.receivedCount ≠ 0 := fun h0 => hr (hf.started h0)
  rcases feedPacket_cases cfg s pk seq with
    ⟨he, h1⟩ | ⟨he, -⟩ | ⟨he, h1, h2⟩ | ⟨he, h1, h2, -⟩ <;> rw [he]
  · obtain h1 | ⟨-, ⟨-, h1⟩ | ⟨-, h1⟩⟩ := h1
    · subst h1
      exact pkReceived_next hc h hr hf.succ_fits
    · exact absurd h1 hcount
    · exact absurd h1 hc.wait.ne'
  · exact (dropPk_inv h hr pk seq).mono (sublist_append_left _ _).subperm
  · -- a number past the wrap: kept under the wrapped key
    have hsub : u64sub (u64 (seq + cfg.maxSeqNo)) s.nextSeq = seq + cfg.maxSeqNo - s.nextSeq := by
      simp only [u64sub, u64]; omega
    rw [hsub, kMaxGapAllow] at h2
    have hkey := hf.key_fits h1 (by omega)
    have hu : u64 (seq + u64 (cfg.maxSeqNo + 1)) = seq + cfg.maxSeqNo + 1 := by
      simp only [u64]; omega
    rw [hu]
    refine insertPending_inv h hr ?_ (by omega) ?_ ?_ ?_
    · rw [adjustSeq_of_gt (by omega) (by omega)]; omega
    · right
      have := hseq.1
      simp only
      omega
    · intro i hi hlt
      have hok := hd.pend.ok i hi
      refine ⟨hlt, fun _ h4 => ?_⟩
      simp only at h4
      omega
    · intro i hi hlt
      refine ⟨hlt, fun h3 _ => ?_⟩
      simp only at h3
      omega
  · -- a number ahead: kept under itself
    have := hseq.2
    rw [kMaxGapAllow] at h2
    refine insertPending_inv h hr (adjustSeq_of_le hseq.2) h1.ne' ?_ ?_ ?_
    · left
      have := hf.succ_fits
      simp only
      omega
    · intro i hi hlt
      refine ⟨hlt, fun _ h4 => ?_⟩
      simp only at h4
      omega
    · intro i hi hlt
      refine ⟨hlt, fun h3 h4 => ?_⟩
      exact hf.in_order h1 i hi (by omega) h4

/-- Once the packet `i` is delivered, the unwrapped keys behind it still lie ahead. -/
theorem PendInv.succ_of_unwrapped (h : PendInv cfg n (i :: l)) (hn : cfg.InRange n)
    (hl : ∀ j ∈ i :: l, j.seq ≤ cfg.maxSeqNo) :
    PendInv cfg (cfg.succ i.seq) l := by
  have hi := hl i (by simp)
  have hiok := h.ok i (by simp)
  have hord := pairwise_cons.mp h.order
  have hge : PendInv cfg i.seq l := by
    refine ⟨fun j hj => ?_, hord.2.imp_of_mem fun {j k} _ hk hjk => ⟨hjk.1, fun _ h2 => ?_⟩⟩
    · have hij := (hord.1 j hj).1
      have hjm := hl j (by simp [hj])
      have hjok := h.ok j (by simp [hj])
      left
      simp only [PendOk] at hiok hjok
      omega
    · have := hl k (by simp [hk])
      omega
  refine hge.succ ?_ fun j hj => ?_
  · have := (hiok.near hn).1
    rwa [adjustSeq_of_le hi] at this
  · rw [adjustSeq_of_le (hl j (by simp [hj]))]
    exact ((hord.1 j hj).1).ne'

/-- The flush delivers numbers in ascending order when no key is wrapped. -/
theorem flush_delivering (hc : cfg.Valid) (l : List (PkRec Pk)) (s : PkContFeeder Pk)
    (h : Delivering cfg input s l) (hr : s.received ≠ []) (hl : ∀ i ∈ l, i.seq ≤ cfg.maxSeqNo) :
    Delivering cfg input (s.flush cfg l) [] ∧ (s.flush cfg l).received ≠ [] := by
  induction l generalizing s with
  | nil => exact ⟨h, hr⟩
  | cons i rest ih =>
    have hi : i.seq ≤ cfg.maxSeqNo := hl i (by simp)
    let s' := { s with lostCount := u64 (s.lostCount + u64sub i.seq s.nextSeq) }
    have hd : Delivering cfg input s' (i :: rest) :=
      ⟨h.conserve, h.next_succ, h.ahead, h.last, h.inRange, h.pend⟩
    have hpend : PendInv cfg (cfg.succ (adjustSeq cfg i.seq)) rest := by
      rw [adjustSeq_of_le hi]
      exact h.pend.succ_of_unwrapped h.inRange hl
    have hstep := hd.deliver hc hpend
    rw [adjustSeq_of_le hi] at hstep
    exact ih _ hstep (by simp) fun j hj => hl j (by simp [hj])

theorem pkContOnTimer_inv (hc : cfg.Valid) (h : Inv cfg input s)
    (hl : ∀ i ∈ s.pkPendings, i.seq ≤ cfg.maxSeqNo) : Inv cfg input (s.pkContOnTimer cfg) := by
  by_cases hr : s.received = []
  · have hp := (h.start hr).2.2
    have hs : s.pkContOnTimer cfg = s := by
      cases s
      simp only at hp
      simp [PkContFeeder.pkContOnTimer, PkContFeeder.flush, hp]
    rwa [hs]
  · obtain ⟨hd, hr'⟩ := flush_delivering hc _ s (h.delivering hr) hr hl
    exact Inv.of_delivering ⟨hd.conserve, hd.next_succ, hd.ahead, hd.last, hd.inRange, hd.pend⟩
      (fun i hi => by cases hi) hr'

theorem run_inv (hc : cfg.Valid) (ops : List (Op Pk)) (h : Inv cfg input s)
    (hin : ∀ op ∈ ops, op.InRange cfg) (hok : StepsOk cfg s ops) :
    Inv cfg (input ++ fed cfg s ops) (run cfg s ops) := by
  induction ops generalizing s input with
  | nil => simpa [fed] using h
  | cons op ops ih =>
    have hin' : ∀ o ∈ ops, o.InRange cfg := fun o ho => hin o (by simp [ho])
    cases op with
    | feedPacket pk seq =>
      have hseq : cfg.InRange seq := hin (.feedPacket pk seq) (by simp)
      have hs : Inv cfg (input ++ [(pk, seq, placeOf cfg s seq)]) (s.feedPacket cfg pk seq) :=
        feedPacket_inv hc h hseq hok.1
      simpa [fed, step] using ih hs hin' hok.2
    | onTimer => exact ih (pkContOnTimer_inv hc h hok.1) hin' hok.2

end Steps

/-! ### Delivery safety of runs -/

end Fon9.PkCont
