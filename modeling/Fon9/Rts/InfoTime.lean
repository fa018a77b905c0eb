import Fon9.Rts.UpdateBS
import Fon9.Bitv.RoundTrip

/-! The time of a market data packet. `MdRtStream::Publish` sends it as null where the kind
and the time are those of the last packet of that symbol's stream, and a client keeps, for
each of its subscriptions, the last time that it was sent. -/

namespace Fon9.Rts

open Lib Buffer Bitv

/-- `f9sv_MdRtsKind` -/
abbrev MdRtsKind := BitVec 32

def mdRtsKind_Full : MdRtsKind := 0xffffffff

def mdRtsKind_Deal : MdRtsKind := 0x04

def mdRtsKind_BS : MdRtsKind := 0x08

def isEnumContainsAny (a b : MdRtsKind) : Bool := a &&& b != 0

/-- `StrToMdRtsKind`, behind its digits. -/
def strToMdRtsKind (res : MdRtsKind) : MdRtsKind := if res = 0 then mdRtsKind_Full else res

def rtsPackType_DealPack : UInt8 := 0

def rtsPackType_UpdateBS : UInt8 := 3

def rtsPackType_TradingSessionId : UInt8 := 4

/-- The original value of a `DayTime`. -/
abbrev DayTime := IntType.int64.Val

def dayTimeScale : Fin 32 := 6

def dayTimeNull : DayTime := IntType.int64.cast (origNull .int64)

def dayTimeToBitv (infoTime : DayTime) : Bytes := (decimalToBitv .int64 dayTimeScale infoTime.1).text

/-! ### The server -/

structure MdRtStream where
  infoTime : DayTime := dayTimeNull
  infoTimeKind : MdRtsKind := 0

/-- `Publish`, up to the notification: the stream and the packet. -/
def MdRtStream.publish (stream : MdRtStream) (pkType : UInt8) (pkKind : MdRtsKind) (infoTime : DayTime) (rts : Bytes) :
    MdRtStream × Bytes :=
  if (stream.infoTimeKind = pkKind ∧ stream.infoTime = infoTime) ∨ infoTime = dayTimeNull then
    (stream, pkType :: (revPutBitv bitvV_NumberNull).text ++ rts)
  else ({ infoTimeKind := pkKind, infoTime := infoTime }, pkType :: dayTimeToBitv infoTime ++ rts)

/-- `PublishUpdateBS`, up to what it saves. -/
def MdRtStream.publishUpdateBS (stream : MdRtStream) (symbBS : SymbBSData) (rts : Bytes) (flags : MdSymbsCtrlFlag) :
    MdRtStream × Bytes :=
  stream.publish rtsPackType_UpdateBS mdRtsKind_BS (IntType.int64.cast symbBS.infoTime) (packMktSeq flags symbBS.marketSeq rts)

/-! ### The client -/

structure StreamDecoderNote where
  rtInfoTime : DayTime := dayTimeNull
  reInfoTime : DayTime := dayTimeNull

namespace StreamDecoderNote

variable (note : StreamDecoderNote) (isStreamData : Bool)

def selectInfoTime : DayTime := if isStreamData then note.rtInfoTime else note.reInfoTime

def setInfoTime (infoTime : DayTime) : StreamDecoderNote :=
  if isStreamData then { note with rtInfoTime := infoTime } else { note with reInfoTime := infoTime }

@[simp] theorem selectInfoTime_setInfoTime (infoTime : DayTime) :
    (note.setInfoTime isStreamData infoTime).selectInfoTime isStreamData = infoTime := by
  cases isStreamData <;> rfl

end StreamDecoderNote

section Decode

variable {Q : Type} [DcQueue Q]

def bitvToDayTimeOrUnchange (rxbuf : Q) (dst : DayTime) : Except BitvError (DayTime × Q) := do
  let (val, rxbuf) ← bitvToDec .int64 dayTimeScale rxbuf
  return (if val = dayTimeNull then dst else val, rxbuf)

/-- `MdRtsDecoderAuxInfo`: the note with the time that is now selected. -/
def mdRtsDecoderAuxInfo (isStreamData : Bool) (note : StreamDecoderNote) (rxbuf : Q) :
    Except BitvError (StreamDecoderNote × Q) := do
  let (infoTime, rxbuf) ← bitvToDayTimeOrUnchange rxbuf (note.selectInfoTime isStreamData)
  return (note.setInfoTime isStreamData infoTime, rxbuf)

/-- `DecodeStreamRx` of a type that has a time, up to what the type has behind it. -/
def decodeStreamRx (isStreamData : Bool) (note : StreamDecoderNote) (rxbuf : Q) :
    Except BitvError (UInt8 × StreamDecoderNote × Q) := do
  let (pkType, rxbuf) ← readOrRaise rxbuf
  let (note, rxbuf) ← mdRtsDecoderAuxInfo isStreamData note rxbuf
  return (pkType, note, rxbuf)

end Decode

/-! ### A tree, its subscribers and their clients -/

/-- A packet on its way: `none` is the key of one for the subscribers of the tree alone, and
the time is the one that it was published with. -/
structure MdRtsNotifyArgs (K : Type) where
  keyText : Option K
  pkType : UInt8
  rtsKind : MdRtsKind
  infoTime : DayTime
  rts : Bytes

/-- A subscription with a filter of zero is none. One of the tree has the symbols whose cells
are still to be sent. The note belongs to its client, who has received packets published
with these times, the last one first. -/
structure MdSymbs (K I : Type) where
  mdRtStream : K → MdRtStream
  isDailyClearing : Bool
  isBlockPublish : Bool
  rtFilter : I → MdRtsKind
  symbsRecovering : I → K → Bool
  note : I → StreamDecoderNote
  received : I → List DayTime

inductive MdSymbsOp (K I : Type)
  | publish (key : K) (pkType : UInt8) (pkKind : MdRtsKind) (infoTime : DayTime) (rts : Bytes)
  | publishUpdateBS (key : K) (symbBS : SymbBSData) (rts : Bytes) (flags : MdSymbsCtrlFlag)
  | blockPublish
  | unsafePublish (pkType : UInt8) (pkKind : MdRtsKind) (infoTime : DayTime) (rts : Bytes)
  | dailyClearing (isDailyClearing : Bool)
  | subscribeStream (i : I) (args : MdRtsKind) (symbs : K → Bool)
  | recover (i : I) (symbs : K → Bool)
  | unsubscribeStream (i : I)

namespace MdSymbs

variable {K I : Type} [DecidableEq K] [DecidableEq I]

-- the symbol of a subscription, or none for one of the whole tree
variable (target : I → Option K)

/-- `MdRtSubrSP` filters the kinds, the `SymbsSubrSP` of a tree does not. -/
def Reaches (s : MdSymbs K I) (e : MdRtsNotifyArgs K) (i : I) : Prop :=
  match target i with
  | some key => isEnumContainsAny (s.rtFilter i) e.rtsKind = true ∧ e.keyText = some key
  | none =>
    s.rtFilter i ≠ 0 ∧ ¬ (s.isDailyClearing = true ∧ e.pkType = rtsPackType_TradingSessionId) ∧ s.isBlockPublish = false ∧
      ∀ key ∈ e.keyText, s.symbsRecovering i key = false

instance (s : MdSymbs K I) (e : MdRtsNotifyArgs K) (i : I) : Decidable (s.Reaches target e i) := by
  unfold Reaches
  cases target i <;> infer_instance

/-- An operation on the server, and the packet that goes out. -/
def perform (s : MdSymbs K I) : MdSymbsOp K I → MdSymbs K I × Option (MdRtsNotifyArgs K)
  | .publish key pkType pkKind infoTime rts =>
    let (stream, rts) := (s.mdRtStream key).publish pkType pkKind infoTime rts
    ({ s with mdRtStream := Function.update s.mdRtStream key stream }, some ⟨some key, pkType, pkKind, infoTime, rts⟩)
  | .publishUpdateBS key symbBS rts flags =>
    let (stream, rts) := (s.mdRtStream key).publishUpdateBS symbBS rts flags
    ({ s with mdRtStream := Function.update s.mdRtStream key stream },
      some ⟨some key, rtsPackType_UpdateBS, mdRtsKind_BS, IntType.int64.cast symbBS.infoTime, rts⟩)
  | .blockPublish => ({ s with isBlockPublish := true }, none)
  -- the list of the values that were held back, which always has its time
  | .unsafePublish pkType pkKind infoTime rts =>
    ({ s with isBlockPublish := false }, some ⟨none, pkType, pkKind, infoTime, pkType :: dayTimeToBitv infoTime ++ rts⟩)
  | .dailyClearing isDailyClearing => ({ s with isDailyClearing := isDailyClearing }, none)
  -- the symbols of the tree where the subscriber asks for their cells, and none else
  | .subscribeStream i args symbs =>
    ({ s with
      rtFilter := Function.update s.rtFilter i (strToMdRtsKind args)
      symbsRecovering := Function.update s.symbsRecovering i symbs }, none)
  | .recover i symbs =>
    ({ s with symbsRecovering := Function.update s.symbsRecovering i fun key => s.symbsRecovering i key && !symbs key }, none)
  | .unsubscribeStream i => ({ s with rtFilter := Function.update s.rtFilter i 0 }, none)

variable {Q : Type} [DcQueue Q] (rxbuf : Bytes → Q)

/-- A client that the packet reaches decodes it; what cannot be read leaves the note. -/
def deliver (s : MdSymbs K I) (e : MdRtsNotifyArgs K) : MdSymbs K I :=
  { s with
    note := fun i =>
      if s.Reaches target e i then
        match decodeStreamRx true (s.note i) (rxbuf e.rts) with
        | .ok (_, note, _) => note
        | .error _ => s.note i
      else s.note i
    received := fun i => if s.Reaches target e i then e.infoTime :: s.received i else s.received i }

def step (s : MdSymbs K I) (op : MdSymbsOp K I) : MdSymbs K I :=
  match s.perform op with
  | (s', none) => s'
  | (s', some e) => s'.deliver target rxbuf e

end MdSymbs

/-! ### What goes over the wire and comes out -/

section Wire

variable {Q : Type} [LawfulDcQueue Q] {stream : MdRtStream} {pkType : UInt8} {pkKind : MdRtsKind} {infoTime : DayTime}
  {rts rest : Bytes} {isStreamData : Bool} {note : StreamDecoderNote} {q : Q}

/-- The packet repeats the kind and the time of its stream. -/
def MdRtStream.Repeats (stream : MdRtStream) (pkKind : MdRtsKind) (infoTime : DayTime) : Prop :=
  stream.infoTimeKind = pkKind ∧ stream.infoTime = infoTime

instance : Decidable (stream.Repeats pkKind infoTime) := inferInstanceAs (Decidable (_ ∧ _))

theorem dayTimeToBitv_null : dayTimeToBitv dayTimeNull = (revPutBitv bitvV_NumberNull).text := by decide

theorem MdRtStream.publish_cases (stream : MdRtStream) (pkType : UInt8) (pkKind : MdRtsKind) (infoTime : DayTime)
    (rts : Bytes) :
    ((stream.Repeats pkKind infoTime ∨ infoTime = dayTimeNull) ∧
      stream.publish pkType pkKind infoTime rts = (stream, pkType :: dayTimeToBitv dayTimeNull ++ rts)) ∨
    ((¬ stream.Repeats pkKind infoTime ∧ infoTime ≠ dayTimeNull) ∧
      stream.publish pkType pkKind infoTime rts = (⟨infoTime, pkKind⟩, pkType :: dayTimeToBitv infoTime ++ rts)) := by
  by_cases h : stream.Repeats pkKind infoTime ∨ infoTime = dayTimeNull
  · exact .inl ⟨h, by rw [dayTimeToBitv_null]; exact if_pos h⟩
  · exact .inr ⟨not_or.mp h, if_neg h⟩

theorem bitvToDayTimeOrUnchange_reads (dst : DayTime) :
    Reads Q (fun q => bitvToDayTimeOrUnchange q dst) (dayTimeToBitv infoTime) (if infoTime = dayTimeNull then dst else infoTime) := by
  intro q rest h
  obtain ⟨q', hread, hrest⟩ := @decimal_reads Q _ .int64 dayTimeScale infoTime q rest h
  refine ⟨q', ?_, hrest⟩
  dsimp only
  rw [bitvToDayTimeOrUnchange, hread]
  rfl

/-- The time of the wire is the selected one, and null leaves it. -/
theorem decodeStreamRx_reads (h : Holds q (pkType :: dayTimeToBitv infoTime ++ rts)) :
    ∃ q', decodeStreamRx isStreamData note q = .ok (pkType,
      note.setInfoTime isStreamData (if infoTime = dayTimeNull then note.selectInfoTime isStreamData else infoTime), q') ∧
        Holds q' rts := by
  have hbytes : Holds q ([pkType] ++ (dayTimeToBitv infoTime ++ rts)) := h
  have hpop : Holds (DcQueue.popConsumed q 1) (dayTimeToBitv infoTime ++ rts) := popConsumed_append hbytes
  obtain ⟨q', hread, hrest⟩ :=
    bitvToDayTimeOrUnchange_reads (note.selectInfoTime isStreamData) (DcQueue.popConsumed q 1) rts hpop
  refine ⟨q', ?_, hrest⟩
  dsimp only at hread
  rw [decodeStreamRx, readOrRaise, peek1_cons h]
  show (do
    let (note, rxbuf) ← mdRtsDecoderAuxInfo isStreamData note (DcQueue.popConsumed q 1)
    return (pkType, note, rxbuf)) = _
  rw [mdRtsDecoderAuxInfo, hread]
  rfl

end Wire

/-! ### Runs -/

/-- The last time that is not null. -/
def lastInfoTime (received : List DayTime) : DayTime := (received.find? (· ≠ dayTimeNull)).getD dayTimeNull

theorem lastInfoTime_cons (infoTime : DayTime) (received : List DayTime) :
    lastInfoTime (infoTime :: received) = if infoTime = dayTimeNull then lastInfoTime received else infoTime := by
  unfold lastInfoTime
  by_cases h : infoTime = dayTimeNull <;> simp [h]

namespace MdSymbs

variable {K I Q : Type} [DecidableEq K] [DecidableEq I] [LawfulDcQueue Q] (target : I → Option K) (rxbuf : Bytes → Q) (i : I)

/-- Where the packet of an operation reaches the subscription and has a time, that is what
its client selects once it has decoded it. -/
def TransparentTo (s : MdSymbs K I) (op : MdSymbsOp K I) : Prop :=
  ∀ e ∈ (s.perform op).2, (s.perform op).1.Reaches target e i → e.infoTime ≠ dayTimeNull →
    ∃ note rest, decodeStreamRx true (s.note i) (rxbuf e.rts) = .ok (e.pkType, note, rest) ∧
      note.selectInfoTime true = e.infoTime

/-- Where the packet of an operation reaches the subscription and repeats the kind and the
time of its stream, the last packet with a time that the client received, of whatever
symbol, was published with the same time. -/
def KnownTo (s : MdSymbs K I) (op : MdSymbsOp K I) : Prop :=
  ∀ e ∈ (s.perform op).2, (s.perform op).1.Reaches target e i → e.infoTime ≠ dayTimeNull →
    ∀ key ∈ e.keyText, (s.mdRtStream key).Repeats e.rtsKind e.infoTime → lastInfoTime (s.received i) = e.infoTime

/-- The time that a packet carries: its own, or null where it repeats those of its stream. -/
def Carries (s : MdSymbs K I) (e : MdRtsNotifyArgs K) (infoTime : DayTime) : Prop :=
  (infoTime = e.infoTime ∧ ∀ key ∈ e.keyText, (s.mdRtStream key).Repeats e.rtsKind e.infoTime → e.infoTime = dayTimeNull) ∨
    (infoTime = dayTimeNull ∧ ∃ key ∈ e.keyText, (s.mdRtStream key).Repeats e.rtsKind e.infoTime)

/-- The note holds the last time received. -/
def Remembers (s : MdSymbs K I) : Prop := (s.note i).rtInfoTime = lastInfoTime (s.received i)

variable {target rxbuf i} {s : MdSymbs K I} {op : MdSymbsOp K I} {e : MdRtsNotifyArgs K}

omit [DecidableEq K] [DecidableEq I] in
theorem publish_carries (s : MdSymbs K I) (key : K) (pkType : UInt8) (pkKind : MdRtsKind) (infoTime : DayTime) (rts : Bytes) :
    ∃ wire, ((s.mdRtStream key).publish pkType pkKind infoTime rts).2 = pkType :: dayTimeToBitv wire ++ rts ∧
      s.Carries ⟨some key, pkType, pkKind, infoTime, ((s.mdRtStream key).publish pkType pkKind infoTime rts).2⟩ wire := by
  rcases (s.mdRtStream key).publish_cases pkType pkKind infoTime rts with ⟨hrepeats | hnull, hpublish⟩ | ⟨⟨hnew, -⟩, hpublish⟩
  · exact ⟨dayTimeNull, by rw [hpublish], .inr ⟨rfl, key, rfl, hrepeats⟩⟩
  · exact ⟨dayTimeNull, by rw [hpublish], .inl ⟨hnull.symm, fun _ _ _ => hnull⟩⟩
  · refine ⟨infoTime, by rw [hpublish], .inl ⟨rfl, ?_⟩⟩
    rintro _ ⟨⟩ hrepeats
    exact absurd hrepeats hnew

theorem perform_carries (he : e ∈ (s.perform op).2) :
    ∃ wire rts, e.rts = e.pkType :: dayTimeToBitv wire ++ rts ∧ s.Carries e wire := by
  cases op with
  | publish key pkType pkKind infoTime rts =>
    cases he
    obtain ⟨wire, hrts, hcarries⟩ := publish_carries s key pkType pkKind infoTime rts
    exact ⟨wire, rts, hrts, hcarries⟩
  | publishUpdateBS key symbBS rts flags =>
    cases he
    obtain ⟨wire, hrts, hcarries⟩ := publish_carries s key rtsPackType_UpdateBS mdRtsKind_BS
      (IntType.int64.cast symbBS.infoTime) (packMktSeq flags symbBS.marketSeq rts)
    exact ⟨wire, _, hrts, hcarries⟩
  | unsafePublish pkType pkKind infoTime rts =>
    cases he
    exact ⟨infoTime, rts, rfl, .inl ⟨rfl, fun _ hkey => (nomatch hkey)⟩⟩
  | blockPublish => cases he
  | dailyClearing isDailyClearing => cases he
  | subscribeStream i args symbs => cases he
  | recover i symbs => cases he
  | unsubscribeStream i => cases he

theorem perform_client (s : MdSymbs K I) (op : MdSymbsOp K I) :
    (s.perform op).1.note = s.note ∧ (s.perform op).1.received = s.received := by
  cases op <;> exact ⟨rfl, rfl⟩

/-- What the client of a packet's subscription selects. -/
theorem decode_carries (hrx : ∀ bytes, Holds (rxbuf bytes) bytes) (he : e ∈ (s.perform op).2) (note : StreamDecoderNote) :
    ∃ wire rest, s.Carries e wire ∧ decodeStreamRx true note (rxbuf e.rts) =
      .ok (e.pkType, note.setInfoTime true (if wire = dayTimeNull then note.rtInfoTime else wire), rest) := by
  obtain ⟨wire, rts, hrts, hcarries⟩ := perform_carries he
  obtain ⟨rest, hdecode, -⟩ := @decodeStreamRx_reads Q _ e.pkType wire rts true note (rxbuf e.rts) (by rw [← hrts]; exact hrx _)
  exact ⟨wire, rest, hcarries, hdecode⟩

theorem transparentTo_iff_knownTo (hrx : ∀ bytes, Holds (rxbuf bytes) bytes) (h : s.Remembers i) :
    TransparentTo target rxbuf i s op ↔ KnownTo target i s op := by
  constructor
  · intro htransparent e he hreaches hne key hkey hrepeats
    obtain ⟨note, rest, hdecode, hselect⟩ := htransparent e he hreaches hne
    obtain ⟨wire, rest', hcarries, hdecode'⟩ := decode_carries hrx he (s.note i)
    rcases hcarries with ⟨-, hnull⟩ | ⟨hwire, -⟩
    · exact absurd (hnull key hkey hrepeats) hne
    · rw [if_pos hwire] at hdecode'
      rw [hdecode, Except.ok.injEq, Prod.mk.injEq, Prod.mk.injEq] at hdecode'
      rw [hdecode'.2.1, StreamDecoderNote.selectInfoTime_setInfoTime] at hselect
      rw [← h, hselect]
  · intro hknown e he hreaches hne
    obtain ⟨wire, rest, hcarries, hdecode⟩ := decode_carries hrx he (s.note i)
    refine ⟨_, rest, hdecode, ?_⟩
    rw [StreamDecoderNote.selectInfoTime_setInfoTime]
    rcases hcarries with ⟨hwire, -⟩ | ⟨hwire, key, hkey, hrepeats⟩
    · rw [hwire, if_neg hne]
    · rw [if_pos hwire, h]
      exact hknown e he hreaches hne key hkey hrepeats

/-- A step after which the client has the right time keeps the note as it should be. -/
theorem step_remembers (hrx : ∀ bytes, Holds (rxbuf bytes) bytes) (h : s.Remembers i)
    (htransparent : TransparentTo target rxbuf i s op) : (s.step target rxbuf op).Remembers i := by
  obtain ⟨hnote, hreceived⟩ := perform_client s op
  rw [step]
  rcases hperform : s.perform op with ⟨s', _ | e⟩
  · rw [hperform] at hnote hreceived
    show (s'.note i).rtInfoTime = lastInfoTime (s'.received i)
    rw [hnote, hreceived]
    exact h
  rw [hperform] at hnote hreceived
  have he : e ∈ (s.perform op).2 := by rw [hperform]; rfl
  show ((s'.deliver target rxbuf e).note i).rtInfoTime = lastInfoTime ((s'.deliver target rxbuf e).received i)
  dsimp only at hnote hreceived
  simp only [deliver, hnote, hreceived]
  by_cases hreaches : s'.Reaches target e i
  · rw [if_pos hreaches, if_pos hreaches, lastInfoTime_cons]
    obtain ⟨wire, rest, hcarries, hdecode⟩ := decode_carries hrx he (s.note i)
    rw [hdecode]
    by_cases hnull : e.infoTime = dayTimeNull
    · have hwire : wire = dayTimeNull := by
        rcases hcarries with ⟨hwire, -⟩ | ⟨hwire, -⟩
        · rw [hwire, hnull]
        · exact hwire
      rw [if_pos hnull, if_pos hwire]
      exact h
    · obtain ⟨note, rest', hdecode', hselect⟩ := htransparent e he (by rw [hperform]; exact hreaches) hnull
      rw [hdecode, Except.ok.injEq, Prod.mk.injEq, Prod.mk.injEq] at hdecode'
      rw [if_neg hnull, ← hselect, ← hdecode'.2.1]
      rfl
  · rw [if_neg hreaches, if_neg hreaches]
    exact h

/-! ### All runs -/

/-- Before anything was published and anybody has subscribed. -/
def init : MdSymbs K I where
  mdRtStream _ := {}
  isDailyClearing := false
  isBlockPublish := false
  rtFilter _ := 0
  symbsRecovering _ _ := false
  note _ := {}
  received _ := []

/-- The client of a subscription selects the time of each packet in the runs in which every
packet that repeats the kind and the time of its stream finds it with that time as the last
one received, and in no others. -/
theorem infoTime_transparent (target : I → Option K) (rxbuf : Bytes → Q) (hrx : ∀ bytes, Holds (rxbuf bytes) bytes)
    (i : I) (ops : List (MdSymbsOp K I)) :
    Along (step target rxbuf) (TransparentTo target rxbuf i) init ops ↔
      Along (step target rxbuf) (KnownTo target i) init ops :=
  along_congr (I := Remembers i) (fun _ _ h => transparentTo_iff_knownTo hrx h)
    (fun _ _ h htransparent => step_remembers hrx h htransparent) rfl

/-- Two symbols, of which only one is subscribed, and a time that repeats. -/
theorem infoTime_transparent_twice :
    Along (step (fun _ : Unit => some false) (id : Bytes → Bytes)) (TransparentTo (fun _ : Unit => some false) id ()) init
        [.subscribeStream () 0 (fun _ => false), .publish false rtsPackType_DealPack mdRtsKind_Deal (IntType.int64.cast 1000000) [],
          .publish true rtsPackType_DealPack mdRtsKind_Deal (IntType.int64.cast 2000000) [],
          .publish false rtsPackType_DealPack mdRtsKind_Deal (IntType.int64.cast 1000000) []] ↔
      Along (step (fun _ : Unit => some false) (id : Bytes → Bytes)) (KnownTo (fun _ : Unit => some false) ()) init
        [.subscribeStream () 0 (fun _ => false), .publish false rtsPackType_DealPack mdRtsKind_Deal (IntType.int64.cast 1000000) [],
          .publish true rtsPackType_DealPack mdRtsKind_Deal (IntType.int64.cast 2000000) [],
          .publish false rtsPackType_DealPack mdRtsKind_Deal (IntType.int64.cast 1000000) []] :=
  infoTime_transparent (fun _ : Unit => some false) id (fun _ => rfl) () _

/-- A deal is published, then a client subscribes to the symbol, then another deal of the
same time is published: it is sent without its time, and the client has none. -/
theorem not_infoTime_transparent :
    ¬ ∀ (target : Unit → Option Unit) (ops : List (MdSymbsOp Unit Unit)) (i : Unit),
      Along (step target (id : Bytes → Bytes)) (TransparentTo target id i) init ops := by
  intro h
  obtain ⟨-, -, hlast, -⟩ := h (fun _ => some ())
    [.publish () rtsPackType_DealPack mdRtsKind_Deal (IntType.int64.cast 1000000) [], .subscribeStream () 0 (fun _ => false),
      .publish () rtsPackType_DealPack mdRtsKind_Deal (IntType.int64.cast 1000000) []] ()
  obtain ⟨note, rest, hdecode, hselect⟩ := hlast _ rfl (by decide) (by decide)
  have hnull : decodeStreamRx true {} ([0, 0xf9] : Bytes) = .ok (0, {}, []) := rfl
  have hboth : (Except.ok (0, {}, []) : Except BitvError (UInt8 × StreamDecoderNote × Bytes)) = .ok (_, note, rest) :=
    hnull.symm.trans hdecode
  rw [Except.ok.injEq, Prod.mk.injEq, Prod.mk.injEq] at hboth
  rw [← hboth.2.1] at hselect
  revert hselect
  decide

end MdSymbs

end Fon9.Rts
