import Fon9.Rts.RecoverBlocks

/-! What a firing of the recover timer does with the packets of a block: those that are
asked for are gathered, sent when they are many, and kept in mind with the position of the
first of them, to which a refusal goes back. -/

namespace Fon9.Rts

open Lib Buffer Bitv List RecoverWork TimeInterval NotifyKind

variable (args : RecoverArgs)

/-- The packets of the kinds that are asked for. -/
def selected (pks : List MdRtsPk) : List MdRtsPk := pks.filter fun pk => isEnumContainsAny args.filter pk.rtsKind

/-- The packets of one notification. -/
def packAll (b : List MdRtsPk) : Bytes := b.flatMap MdRtsPk.packed

def kindsOf (b : List MdRtsPk) : MdRtsKind := b.foldl (fun kinds pk => kinds ||| pk.rtsKind) 0

/-- The filter of the subscription's stream lets one of the packets through. -/
def Passes (b : List MdRtsPk) : Prop := ∃ pk ∈ b, isEnumContainsAny args.rtFilter pk.rtsKind = true

instance (b : List MdRtsPk) : Decidable (Passes args b) := inferInstanceAs (Decidable (∃ pk ∈ b, _))

/-- The packet has a time at which the recovery is to begin. -/
def starts (startInfoTime : DayTime) (pk : MdRtsPk) : Bool :=
  !isEnumContains pk.rtsKind mdRtsKind_NoInfoTime && isStartTime pk.infoTime startInfoTime args.dailyClearTime

/-- The packets that a recovery is to give. -/
def recovered (startInfoTime : DayTime) (recs : List MdRtsPk) : List MdRtsPk :=
  selected args (if startInfoTime = dayTimeNull then recs else recs.dropWhile fun pk => !starts args startInfoTime pk)

/-- Every notification of a block passes the filter of the subscription's stream: `calls` is
the number of the next one, `m` are the bytes of the block to go, `b` the packets gathered.
What is gathered at the end of the storage always passes. -/
def BatchesPass : ℕ → ℕ → List MdRtsPk → List MdRtsPk → Prop
  | _, _, _, [] => True
  | calls, m, b, pk :: pks =>
    if pk.recordSize ≤ m then
      if isEnumContainsAny args.filter pk.rtsKind = true then
        if (packAll (b ++ [pk])).length > 1024 then
          Passes args (b ++ [pk]) ∧
            (TimeInterval.isForced (args.answer calls) = false → BatchesPass (calls + 1) (m - pk.recordSize) [] pks)
        else BatchesPass calls (m - pk.recordSize) (b ++ [pk]) pks
      else BatchesPass calls (m - pk.recordSize) b pks
    else b = [] ∨ Passes args b

/-- The same of the block with the first packet to be recovered. -/
def StartPasses (startInfoTime : DayTime) (calls : ℕ) : ℕ → List MdRtsPk → Prop
  | _, [] => True
  | m, pk :: pks =>
    -- a record that is cut off is the first one of the next block
    let m := if pk.recordSize ≤ m then m else rdbufSize
    if starts args startInfoTime pk = true then BatchesPass args calls m [] (pk :: pks)
    else StartPasses startInfoTime calls (m - pk.recordSize) pks

/-! ### Invariants -/

/-- What was taken: batches of packets, each in one notification. -/
def Taken (subr : MdRtSubr) (bs : List (List MdRtsPk)) : Prop :=
  subr.taken = bs.map fun b => (NotifyKind.streamRecover, packAll b)

/-- Between two firings: all that is asked for has been taken, up to the position. -/
structure Resting (recs whole : List MdRtsPk) (recover : MdRtRecover) (subr : MdRtSubr) (back : List MdRtsPk) : Prop where
  isStarted : recover.isStarted = true
  endPos : recover.endPos = recordsSize recs
  here : At recs recover.lastPos back
  taken : ∃ bs, Taken subr bs ∧ bs.flatten ++ selected args back = whole

/-- Inside of a firing, with the batches taken and the packets gathered; `n` bounds the
packets that a refusal goes back to. -/
structure Batching (recs whole : List MdRtsPk) (n : ℕ) (pks : List MdRtsPk) (w : RecoverWork) (bs : List (List MdRtsPk))
    (b : List MdRtsPk) : Prop where
  isStarted : w.recover.isStarted = true
  endPos : w.recover.endPos = recordsSize recs
  notifyKind : w.nargs.notifyKind = .streamRecover
  cacheGV : w.nargs.cacheGV = packAll b
  streamDataKind : w.nargs.streamDataKind = kindsOf b
  taken : Taken w.subr bs
  all : bs.flatten ++ b ++ selected args pks = whole
  back : b ≠ [] → ∃ back, At recs w.nargs.pos back ∧ selected args back = b ++ selected args pks ∧ back.length ≤ n

/-- Before the first packet to be recovered. -/
structure Scanning (recs whole : List MdRtsPk) (tm : DayTime) (pks : List MdRtsPk) (w : RecoverWork) : Prop where
  isStarted : w.recover.isStarted = false
  startInfoTime : w.recover.startInfoTime = tm
  endPos : w.recover.endPos = recordsSize recs
  notifyKind : w.nargs.notifyKind = .streamRecover
  cacheGV : w.nargs.cacheGV = []
  streamDataKind : w.nargs.streamDataKind = 0
  taken : w.subr.taken = []
  rest : (pks.dropWhile fun pk => !starts args tm pk) = recs.dropWhile fun pk => !starts args tm pk
  all : selected args (pks.dropWhile fun pk => !starts args tm pk) = whole

/-- A call of the subscriber was refused since there were so many calls. -/
def Refused (calls : ℕ) (subr : MdRtSubr) : Prop :=
  ∃ c, calls ≤ c ∧ c < subr.calls ∧ TimeInterval.isForced (args.answer c) = true

variable {args} {recs whole pks pks' b : List MdRtsPk} {bs : List (List MdRtsPk)} {w : RecoverWork} {pk : MdRtsPk}
  {pos m n calls : ℕ} {startInfoTime : DayTime}

@[simp] theorem packAll_concat (b : List MdRtsPk) (pk : MdRtsPk) : packAll (b ++ [pk]) = packAll b ++ pk.packed := by
  simp [packAll]

theorem packAll_eq_nil : packAll b = [] ↔ b = [] := by
  constructor
  · intro h
    cases b with
    | nil => rfl
    | cons pk b =>
      have hlen := congrArg length h
      have := pk.data_ne_nil
      simp only [packAll, flatMap_cons, MdRtsPk.packed, length_append, length_nil] at hlen
      omega
  · rintro rfl
    rfl

@[simp] theorem kindsOf_concat (b : List MdRtsPk) (pk : MdRtsPk) : kindsOf (b ++ [pk]) = kindsOf b ||| pk.rtsKind := by
  rw [kindsOf, foldl_append]
  rfl

theorem selected_cons (args : RecoverArgs) (pk : MdRtsPk) (pks : List MdRtsPk) :
    selected args (pk :: pks) =
      if isEnumContainsAny args.filter pk.rtsKind = true then pk :: selected args pks else selected args pks :=
  filter_cons

theorem isEnumContainsAny_or (a k k' : MdRtsKind) :
    isEnumContainsAny a (k ||| k') = (isEnumContainsAny a k || isEnumContainsAny a k') := by
  have hor : ∀ x y : MdRtsKind, x ||| y = 0 ↔ x = 0 ∧ y = 0 := fun _ _ => BitVec.or_eq_zero_iff
  have hdistrib : a &&& (k ||| k') = (a &&& k) ||| (a &&& k') := BitVec.and_or_distrib_left
  rw [isEnumContainsAny, isEnumContainsAny, isEnumContainsAny, hdistrib, Bool.eq_iff_iff, Bool.or_eq_true, bne_iff_ne,
    bne_iff_ne, bne_iff_ne, ne_eq, hor, not_and_or]

theorem kindsOf_passes (b : List MdRtsPk) : isEnumContainsAny args.rtFilter (kindsOf b) = true ↔ Passes args b := by
  induction b using reverseRecOn with
  | nil => simp [kindsOf, Passes, isEnumContainsAny]
  | append_singleton b pk ih =>
    rw [kindsOf_concat, isEnumContainsAny_or, Bool.or_eq_true, ih]
    unfold Passes
    simp only [mem_append, mem_singleton]
    constructor
    · rintro (⟨pk', hmem, hpass⟩ | hpass)
      · exact ⟨pk', .inl hmem, hpass⟩
      · exact ⟨pk, .inr rfl, hpass⟩
    · rintro ⟨pk', hmem | rfl, hpass⟩
      · exact .inl ⟨pk', hmem, hpass⟩
      · exact .inr hpass

/-! ### One packet -/

/-- The recover with the time of a packet, which may begin the recovery. -/
def MdRtRecover.check (args : RecoverArgs) (recover : MdRtRecover) (pk : MdRtsPk) : MdRtRecover :=
  { recover with
    lastInfoTime := if isEnumContains pk.rtsKind mdRtsKind_NoInfoTime = true then recover.lastInfoTime else pk.infoTime
    isStarted := recover.isStarted || starts args recover.startInfoTime pk }

theorem checkStart_data (w : RecoverWork) (pk : MdRtsPk) :
    w.checkStart args pk.rtsKind pk.data = (w.recover.check args pk, (w.recover.check args pk).isStarted) := by
  rw [checkStart, MdRtRecover.check, starts]
  by_cases hno : isEnumContains pk.rtsKind mdRtsKind_NoInfoTime = true
  · simp [hno]
  · have hdata : pk.data.drop 1 = dayTimeToBitv pk.infoTime ++ pk.rts := by
      rw [MdRtsPk.data, if_neg hno]
      rfl
    obtain ⟨q', hread, -⟩ := @decimal_reads Bytes _ .int64 dayTimeScale pk.infoTime (pk.data.drop 1) pk.rts hdata
    rw [if_neg hno, hread]
    dsimp only
    cases hstarted : w.recover.isStarted with
    | true => simp [hno]
    | false =>
      cases hstart : isStartTime pk.infoTime w.recover.startInfoTime args.dailyClearTime with
      | true => simp [hno]
      | false => simp [hno]

theorem onPacket_data (w : RecoverWork) (pk : MdRtsPk) :
    w.onPacket args pos pk.rtsKind pk.packed pk.data =
      if (w.recover.check args pk).isStarted = true ∧ isEnumContainsAny args.filter pk.rtsKind = true then
        addPacket args { w with recover := w.recover.check args pk } pos pk.rtsKind pk.packed
      else ({ w with recover := w.recover.check args pk }, false) := by
  rw [onPacket, checkStart_data]
  simp only [Bool.and_eq_true]

theorem notify_passes (h : isEnumContainsAny args.rtFilter w.nargs.streamDataKind = true) :
    w.notify args =
      { w with
        nargs := { w.nargs with flowControlWait := args.answer w.subr.calls }
        subr := {
          calls := w.subr.calls + 1
          taken := if isForced (args.answer w.subr.calls) = true then w.subr.taken
            else w.subr.taken ++ [(w.nargs.notifyKind, w.nargs.cacheGV)] } } := by
  rw [RecoverWork.notify, if_pos h]

theorem Taken.concat {subr : MdRtSubr} (h : Taken subr bs) (b : List MdRtsPk) (calls : ℕ) :
    Taken ⟨calls, subr.taken ++ [(.streamRecover, packAll b)]⟩ (bs ++ [b]) := by
  show subr.taken ++ [(streamRecover, packAll b)] = (bs ++ [b]).map fun b => (streamRecover, packAll b)
  rw [map_append, ← show subr.taken = bs.map fun b => (streamRecover, packAll b) from h]
  rfl

namespace Batching

variable (h : Batching args recs whole n (pk :: pks) w bs b)
include h

/-- A packet that is not asked for. -/
theorem skip (hsel : ¬ isEnumContainsAny args.filter pk.rtsKind = true) :
    ∃ w', w.onPacket args pos pk.rtsKind pk.packed pk.data = (w', false) ∧ Batching args recs whole n pks w' bs b ∧
      w'.subr = w.subr := by
  have hselected : selected args (pk :: pks) = selected args pks := by rw [selected_cons, if_neg hsel]
  refine ⟨{ w with recover := w.recover.check args pk }, by rw [onPacket_data, if_neg fun hand => hsel hand.2], ?_, rfl⟩
  have hall := h.all
  have hback := h.back
  rw [hselected] at hall hback
  exact ⟨by simp [MdRtRecover.check, h.isStarted], h.endPos, h.notifyKind, h.cacheGV, h.streamDataKind, h.taken, hall, hback⟩

section

variable (hat : At recs pos (pk :: pks)) (hn : (pk :: pks).length ≤ n)
  (hsel : isEnumContainsAny args.filter pk.rtsKind = true)
include hat hn hsel

/-- The arguments of the notification with one more packet. -/
theorem gathered :
    Batching args recs whole n pks { w with
      recover := w.recover.check args pk
      nargs := { w.nargs with
        streamDataKind := w.nargs.streamDataKind ||| pk.rtsKind
        pos := if w.nargs.cacheGV = [] then pos else w.nargs.pos
        cacheGV := w.nargs.cacheGV ++ pk.packed } } bs (b ++ [pk]) := by
  have hselected : selected args (pk :: pks) = pk :: selected args pks := by rw [selected_cons, if_pos hsel]
  have hall := h.all
  rw [hselected] at hall
  refine ⟨by simp [MdRtRecover.check, h.isStarted], h.endPos, h.notifyKind, ?_, ?_, h.taken, ?_, fun _ => ?_⟩
  · rw [packAll_concat, ← h.cacheGV]
  · rw [kindsOf_concat, ← h.streamDataKind]
  · rw [← hall]
    simp
  · dsimp only
    rw [h.cacheGV]
    by_cases hb : b = []
    · subst hb
      exact ⟨pk :: pks, by rw [if_pos (show packAll [] = [] from rfl)]; exact hat, hselected, hn⟩
    · obtain ⟨back, hhere, hsame, hlen⟩ := h.back hb
      refine ⟨back, by rw [if_neg fun hnil => hb (packAll_eq_nil.mp hnil)]; exact hhere, ?_, hlen⟩
      rw [hsame, hselected, append_assoc]
      rfl

/-- A packet with which they are not yet many. -/
theorem join (hfew : ¬ (packAll (b ++ [pk])).length > 1024) :
    ∃ w', w.onPacket args pos pk.rtsKind pk.packed pk.data = (w', false) ∧ Batching args recs whole n pks w' bs (b ++ [pk]) ∧
      w'.subr = w.subr := by
  have hgathered := h.gathered hat hn hsel
  have hgv := hgathered.cacheGV
  refine ⟨_, ?_, hgathered, rfl⟩
  rw [onPacket_data, if_pos ⟨by simp [MdRtRecover.check, h.isStarted], hsel⟩, addPacket]
  dsimp only at hgv ⊢
  rw [hgv, if_neg hfew]

/-- A packet with which they are many: they are taken, or refused. -/
theorem send (hmany : (packAll (b ++ [pk])).length > 1024) (hpass : Passes args (b ++ [pk])) :
    (isForced (args.answer w.subr.calls) = false ∧
      ∃ w', w.onPacket args pos pk.rtsKind pk.packed pk.data = (w', false) ∧
        Batching args recs whole n pks w' (bs ++ [b ++ [pk]]) [] ∧ w'.subr.calls = w.subr.calls + 1) ∨
    (isForced (args.answer w.subr.calls) = true ∧
      ∃ w' back, w.onPacket args pos pk.rtsKind pk.packed pk.data = (w', true) ∧
        Resting args recs whole w'.recover w'.subr back ∧ back.length ≤ n ∧ w'.subr.calls = w.subr.calls + 1) := by
  have hgathered := h.gathered hat hn hsel
  have hgv := hgathered.cacheGV
  have hkinds := (kindsOf_passes (b ++ [pk])).mpr hpass
  rw [← hgathered.streamDataKind] at hkinds
  rw [onPacket_data, if_pos ⟨by simp [MdRtRecover.check, h.isStarted], hsel⟩, addPacket]
  dsimp only at hgv hkinds ⊢
  rw [hgv, if_pos hmany]
  rw [hgv] at hgathered
  cases hforced : isForced (args.answer w.subr.calls) with
  | false =>
    refine .inl ⟨rfl, ?_⟩
    rw [notify_passes hkinds]
    dsimp only
    rw [hforced]
    refine ⟨_, rfl, ?_, rfl⟩
    refine ⟨hgathered.isStarted, hgathered.endPos, hgathered.notifyKind, rfl, rfl, ?_, ?_, fun hne => absurd rfl hne⟩
    · rw [if_neg Bool.false_ne_true, hgathered.notifyKind]
      exact h.taken.concat _ _
    · rw [flatten_append, flatten_singleton, append_nil]
      exact hgathered.all
  | true =>
    refine .inr ⟨rfl, ?_⟩
    rw [notify_passes hkinds]
    dsimp only
    rw [hforced]
    obtain ⟨back, hhere, hsame, hlen⟩ := hgathered.back (by simp)
    refine ⟨_, back, rfl, ⟨hgathered.isStarted, hgathered.endPos, hhere, bs, h.taken, ?_⟩, hlen, rfl⟩
    rw [hsame, ← append_assoc]
    exact hgathered.all

end

end Batching

end Fon9.Rts
