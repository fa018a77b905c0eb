import Fon9.RcMdRts.Frame

/-! A packet of a deal with the order book behind it. Its sequence number should come to both
tabs. The decoder writes that of the book through the writer of the deal: into the memory of
the deal's seed, at the offset of a field of the other tab. -/

namespace Fon9.RcMdRts

open Lib Bitv Buffer Seed Rts RxState IntType

variable {tf : TabFields} {rx : RxNotify} {s : RxState} {seq : IntType.uint64.Val} {fDeal fBS : Field}

/-- The packet has this number, and it is not old. -/
def IsNewer (rx : RxNotify) (s : RxState) (seq : IntType.uint64.Val) : Prop :=
  ∃ infoTime rest rest',
    bitvToDayTimeOrUnchange s.rxbuf (s.note.selectInfoTime rx.isStreamData) = .ok (infoTime, rest) ∧
    bitvToInt .uint64 rest (IntType.uint64.cast 0) = .ok (seq, rest') ∧
    (rx.isStreamData ∧ ¬ rx.isSubrTree → s.rtMktSeq.1 < seq.1 ∨ seq.1 = 0)

/-- The number in the note, when a packet with that number is decoded. -/
def noteSeq (rx : RxNotify) (s : RxState) (seq : IntType.uint64.Val) : IntType.uint64.Val :=
  if rx.isStreamData ∧ ¬ rx.isSubrTree then seq else s.rtMktSeq

/-- The part of the packet that is the deal. -/
def dealPart (tf : TabFields) (rx : RxNotify) : Decoder UInt8 := do
  readInfoTime rx
  decodeDealPack tf rx

def DealPartDecodes (tf : TabFields) (rx : RxNotify) (s : RxState) : Prop :=
  ∃ dflag s', dealPart tf rx s = .ok dflag s' ∧ dflag ≠ dealFlag_IsOld

/-- The cell holds what `PutNumber` makes of the number. -/
def HoldsNumber (f : Field) (mem : Bytes) (num : ℤ) : Prop := ∃ c, f.cls.putNumber num 0 = .ok c ∧ f.bytesAt mem = c.1

/-- A field of the tab of the deals that the deal part does not write. -/
def Uncarried (tf : TabFields) (g : Field) : Prop := ∃ name, tf.deal.get name = some g ∧ ∀ x : DealFld, x.name ≠ name

/-! ### The deal part -/

theorem decodeDealBS_eq : decodeDealBS tf rx =
    dealPart tf rx >>= fun dflag =>
      if dflag ≠ dealFlag_IsOld then do
        putBSMktSeq tf
        decodeSnapshotBS tf rx (bsFlagsOfDeal dflag)
      else return () := by
  rw [dealPart, bind_assoc]
  rfl

theorem keeps_dealPart {γ : Type*} (view : (RtsTab → Bytes) → uint64.Val → γ)
    (h : ∀ x f, tf.fldDeal x = some f → Spares view .deal f) (hblind : Blind view) : Keeps (seeing view) (dealPart tf rx) :=
  Keeps.bind keeps_readInfoTime fun _ => keeps_decodeDealPack h hblind

/-- The other seed is not written. -/
theorem bs_dealPart : (leaves (dealPart tf rx s)).seeds .bs = s.seeds .bs :=
  keeps_dealPart (fun seeds _ => seeds .bs) (fun _ _ _ _ _ _ => put_seeds_of_ne _ nofun) (fun _ _ _ => rfl) s

theorem length_dealPart : ((leaves (dealPart tf rx s)).seeds .deal).length = (s.seeds .deal).length :=
  keeps_dealPart (fun seeds _ => (seeds .deal).length) (fun _ _ _ _ _ hreach => length_put hreach) (fun _ _ _ => rfl) s

theorem uncarried_dealPart {g : Field} (hg : Uncarried tf g) :
    g.bytesAt ((leaves (dealPart tf rx s)).seeds .deal) = g.bytesAt (s.seeds .deal) := by
  obtain ⟨name, hget, hname⟩ := hg
  refine keeps_dealPart (fun seeds _ => g.bytesAt (seeds .deal)) (fun x f hf s' c hreach => ?_) (fun _ _ _ => rfl) s
  exact bytesAt_put_apart hreach fun _ => Tab.apart_of_ne hf hget (hname x)

/-- The number in the note. -/
abbrev inNote (_ : RtsTab → Bytes) (n : IntType.uint64.Val) : IntType.uint64.Val := n

theorem spares_inNote (wr : RtsTab) (f : Field) : Spares inNote wr f := fun _ _ _ => rfl

/-- What comes behind the number of the packet leaves the number in the note. -/
theorem rtMktSeq_newer {α : Type} {wr : RtsTab} {f : Field} {k : Bool → Decoder α} {s' : RxState}
    (hk : ∀ b, Keeps (seeing inNote) (k b)) (hread : readUInt64 s = .ok seq s') (hsame : s'.rtMktSeq = s.rtMktSeq)
    (hnewer : rx.isStreamData ∧ ¬ rx.isSubrTree → s.rtMktSeq.1 < seq.1 ∨ seq.1 = 0) :
    (leaves ((isFldMktSeqNewer rx wr (some f) >>= k) s)).rtMktSeq = noteSeq rx s seq := by
  have hput : Keeps (seeing inNote) ((do
      putNumber wr (some f) (signedCast seq) 0
      return true) >>= k) :=
    Keeps.bind (Keeps.bind (keeps_putNumber (fun f _ => spares_inNote wr f) _ _) fun _ => Keeps.pure _) hk
  show (leaves ((isRxMktSeqNewer rx wr (some f) >>= k) s)).rtMktSeq = _
  rw [isRxMktSeqNewer, bind_assoc, leaves_bind_of_ok hread, noteSeq]
  by_cases hlive : rx.isStreamData ∧ ¬ rx.isSubrTree
  · rw [if_pos hlive, if_pos hlive, isMktSeqNewer, bind_assoc]
    have hget : getRtMktSeq s' = .ok s'.rtMktSeq s' := rfl
    rw [leaves_bind_of_ok hget, hsame, if_pos (hnewer hlive), bind_assoc]
    have hset : setRtMktSeq seq s' = .ok () { s' with rtMktSeq := seq } := rfl
    rw [leaves_bind_of_ok hset]
    exact hput { s' with rtMktSeq := seq }
  · rw [if_neg hlive, if_neg hlive, ← hsame]
    exact hput s'

theorem rtMktSeq_dealPart (hdeal : tf.fldDeal .mktSeq = some fDeal) (hnew : IsNewer rx s seq) :
    (leaves (dealPart tf rx s)).rtMktSeq = noteSeq rx s seq := by
  obtain ⟨infoTime, rest, rest', htime, hseq, hnewer⟩ := hnew
  let s₁ : RxState := { s with rxbuf := rest, note := s.note.setInfoTime rx.isStreamData infoTime }
  have hinfo : readInfoTime rx s = .ok () s₁ := by
    rw [readInfoTime, bind_of_ok (show seInfoTime rx s = .ok (s.note.selectInfoTime rx.isStreamData) s from rfl),
      bind_of_ok (popBitv_of_ok htime)]
    rfl
  have hread : readUInt64 s₁ = .ok seq { s₁ with rxbuf := rest' } := popBitv_of_ok hseq
  rw [dealPart, leaves_bind_of_ok hinfo, decodeDealPack, hdeal]
  refine rtMktSeq_newer (s := s₁) (fun isNewer => Keeps.ite ?_ (Keeps.pure _)) hread rfl hnewer
  exact keeps_decodeNewDealPack fun _ f _ => spares_inNote .deal f

/-! ### The book -/

/-- A snapshot leaves the seed of the deals. -/
theorem deal_decodeSnapshotBS (bsFlags : UInt8) : (leaves (decodeSnapshotBS tf rx bsFlags s)).seeds .deal = s.seeds .deal := by
  have hkeeps : Keeps (seeing fun seeds _ => seeds .deal) (decodeSnapshotBS tf rx bsFlags) := by
    refine keeps_decodeSnapshotBS (fun x hx f hf s' c hreach => ?_) bsFlags
    show (s'.put .bs f c).seeds .deal = s'.seeds .deal
    exact put_seeds_of_ne _ (by decide)
  exact hkeeps s

/-- It leaves the sequence number of the book. -/
theorem mktSeq_decodeSnapshotBS (hbs : tf.fldBS .mktSeq = some fBS) (bsFlags : UInt8) :
    fBS.bytesAt ((leaves (decodeSnapshotBS tf rx bsFlags s)).seeds .bs) = fBS.bytesAt (s.seeds .bs) := by
  have hkeeps : Keeps (seeing fun seeds _ => fBS.bytesAt (seeds .bs)) (decodeSnapshotBS tf rx bsFlags) := by
    refine keeps_decodeSnapshotBS (fun x hx f hf s' c hreach => ?_) bsFlags
    exact bytesAt_put_apart hreach fun _ => TabFields.fldCell_apart hf (y := .fld .mktSeq) hbs hx.1
  exact hkeeps s

/-- The bytes of the deal's seed that the number of the book comes to. -/
def putAcross (fBS : Field) (s : RxState) (num : ℤ) : Bytes :=
  match fBS.cls.putNumber num 0 with
  | .ok c => if s.Reaches .deal fBS then fBS.store c (s.seeds .deal) else s.seeds .deal
  | .error _ => s.seeds .deal

/-- Behind the deal part the number goes across, unless it raises, and the book's own number
stays. -/
theorem leaves_behind_deal (hbs : tf.fldBS .mktSeq = some fBS) (bsFlags : UInt8) :
    let s' := leaves ((do
      putBSMktSeq tf
      decodeSnapshotBS tf rx bsFlags) s)
    s'.seeds .deal = putAcross fBS s (signedCast s.rtMktSeq) ∧ fBS.bytesAt (s'.seeds .bs) = fBS.bytesAt (s.seeds .bs) := by
  intro s'
  have hget : getRtMktSeq s = .ok s.rtMktSeq s := rfl
  have hput : putBSMktSeq tf s = putNumber .deal (some fBS) (signedCast s.rtMktSeq) 0 s := by
    rw [putBSMktSeq, hbs]
    exact bind_of_ok hget
  cases hc : fBS.cls.putNumber (signedCast s.rtMktSeq) 0 with
  | error e =>
    rw [putNumber_of_error hc] at hput
    have hs' : s' = s := leaves_bind_of_error hput
    rw [hs', putAcross, hc]
    exact ⟨rfl, rfl⟩
  | ok c =>
    rw [putNumber_of_ok hc, putCell] at hput
    by_cases hreach : s.Reaches .deal fBS
    · rw [if_pos hreach] at hput
      have hs' : s' = leaves (decodeSnapshotBS tf rx bsFlags (s.put .deal fBS c)) := leaves_bind_of_ok hput
      rw [hs', deal_decodeSnapshotBS, mktSeq_decodeSnapshotBS hbs, putAcross, hc, put_seeds_self,
        put_seeds_of_ne _ (by decide)]
      exact ⟨(if_pos hreach).symm, rfl⟩
    · rw [if_neg hreach] at hput
      have hs' : s' = s := leaves_bind_of_error hput
      rw [hs', putAcross, hc]
      exact ⟨(if_neg hreach).symm, rfl⟩

/-- What is seen of an uncarried field behind a write across is seen without the deal part too. -/
theorem putAcross_congr {s₁ : RxState} {num : ℤ} {g : Field} (hlen : (s₁.seeds .deal).length = (s.seeds .deal).length)
    (hg : g.bytesAt (s₁.seeds .deal) = g.bytesAt (s.seeds .deal)) :
    g.bytesAt (putAcross fBS s₁ num) = g.bytesAt (putAcross fBS s num) := by
  rw [putAcross, putAcross]
  cases fBS.cls.putNumber num 0 with
  | error e => exact hg
  | ok c =>
    dsimp only
    by_cases hreach : s.Reaches .deal fBS
    · have hreach₁ : s₁.Reaches .deal fBS := by
        rw [RxState.Reaches, hlen]
        exact hreach
      rw [if_pos hreach, if_pos hreach₁]
      apply segment_overwrite_congr hlen
      · rw [← Field.stop_eq]
        exact hreach
      · exact hg
    · have hreach₁ : ¬ s₁.Reaches .deal fBS := by
        rw [RxState.Reaches, hlen]
        exact hreach
      rw [if_neg hreach, if_neg hreach₁]
      exact hg

/-! ### The whole packet -/

theorem decodeDealBS_of_not_decodes (h : ¬ DealPartDecodes tf rx s) :
    leaves (decodeDealBS tf rx s) = leaves (dealPart tf rx s) := by
  rw [decodeDealBS_eq]
  cases hpart : dealPart tf rx s with
  | error e s₁ => exact leaves_bind_of_error hpart
  | ok dflag s₁ =>
    have hold : ¬ dflag ≠ dealFlag_IsOld := fun hne => h ⟨dflag, s₁, hpart, hne⟩
    rw [leaves_bind_of_ok hpart, if_neg hold]
    rfl

/-- Where the deal part does not decode, nothing goes across. -/
theorem uncarried_of_not_decodes (h : ¬ DealPartDecodes tf rx s) {g : Field} (hg : Uncarried tf g) :
    g.bytesAt ((leaves (decodeDealBS tf rx s)).seeds .deal) = g.bytesAt (s.seeds .deal) := by
  rw [decodeDealBS_of_not_decodes h, uncarried_dealPart hg]

theorem uncarried_of_decodes (hdeal : tf.fldDeal .mktSeq = some fDeal) (hbs : tf.fldBS .mktSeq = some fBS)
    (hnew : IsNewer rx s seq) (h : DealPartDecodes tf rx s) {g : Field} (hg : Uncarried tf g) :
    g.bytesAt ((leaves (decodeDealBS tf rx s)).seeds .deal) =
      g.bytesAt (putAcross fBS s (signedCast (noteSeq rx s seq))) := by
  obtain ⟨dflag, s₁, hpart, hne⟩ := h
  have hleaves : leaves (dealPart tf rx s) = s₁ := congrArg leaves hpart
  have hseq := rtMktSeq_dealPart hdeal hnew
  have hlen : (s₁.seeds .deal).length = (s.seeds .deal).length := by
    rw [← hleaves]
    exact length_dealPart
  have hkept : g.bytesAt (s₁.seeds .deal) = g.bytesAt (s.seeds .deal) := by
    rw [← hleaves]
    exact uncarried_dealPart hg
  rw [hleaves] at hseq
  rw [decodeDealBS_eq, leaves_bind_of_ok hpart, if_pos hne, (leaves_behind_deal hbs _).1, hseq]
  exact putAcross_congr hlen hkept

/-- The sequence number of the book stays as it was. -/
theorem mktSeq_decodeDealBS (hbs : tf.fldBS .mktSeq = some fBS) :
    fBS.bytesAt ((leaves (decodeDealBS tf rx s)).seeds .bs) = fBS.bytesAt (s.seeds .bs) := by
  by_cases h : DealPartDecodes tf rx s
  · obtain ⟨dflag, s₁, hpart, hne⟩ := h
    have hleaves : leaves (dealPart tf rx s) = s₁ := congrArg leaves hpart
    rw [decodeDealBS_eq, leaves_bind_of_ok hpart, if_pos hne, (leaves_behind_deal hbs _).2, ← hleaves, bs_dealPart]
  · rw [decodeDealBS_of_not_decodes h, bs_dealPart]

/-- The packet sets the number of the book, and leaves what the deal part does not carry, just
where the number is there before it, and what goes across changes nothing that is seen. -/
theorem decodeDealBS_right_iff (tf : TabFields) (rx : RxNotify) (s : RxState) (seq : IntType.uint64.Val) (fDeal fBS : Field)
    (hdeal : tf.fldDeal .mktSeq = some fDeal) (hbs : tf.fldBS .mktSeq = some fBS) (hnew : IsNewer rx s seq) :
    (HoldsNumber fBS ((leaves (decodeDealBS tf rx s)).seeds .bs) (signedCast seq) ∧
      ∀ g, Uncarried tf g → g.bytesAt ((leaves (decodeDealBS tf rx s)).seeds .deal) = g.bytesAt (s.seeds .deal)) ↔
    HoldsNumber fBS (s.seeds .bs) (signedCast seq) ∧
      (DealPartDecodes tf rx s → ∀ g, Uncarried tf g →
        g.bytesAt (putAcross fBS s (signedCast (noteSeq rx s seq))) = g.bytesAt (s.seeds .deal)) := by
  have hholds : HoldsNumber fBS ((leaves (decodeDealBS tf rx s)).seeds .bs) (signedCast seq) ↔
      HoldsNumber fBS (s.seeds .bs) (signedCast seq) := by
    rw [HoldsNumber, HoldsNumber, mktSeq_decodeDealBS hbs]
  refine and_congr hholds ⟨fun h hdec g hg => ?_, fun h g hg => ?_⟩
  · rw [← uncarried_of_decodes hdeal hbs hnew hdec hg]
    exact h g hg
  · by_cases hdec : DealPartDecodes tf rx s
    · rw [uncarried_of_decodes hdeal hbs hnew hdec hg]
      exact h hdec g hg
    · exact uncarried_of_not_decodes hdec hg

/-! ### The first packet of a symbol -/

/-- An integer cell that holds a number. -/
theorem holdsNumber_fieldInt {t : IntType} {off : ℕ} {mem : Bytes} {num : ℤ} :
    HoldsNumber ⟨fieldInt t, off⟩ mem num ↔ segment mem off t.size = (intCell t (t.cast num)).1 := by
  constructor
  · rintro ⟨c, hc, hmem⟩
    cases hc
    exact hmem
  · intro hmem
    exact ⟨_, rfl, hmem⟩

/-- A live packet with number 1 on its way to the tabs of a symbol that are still empty: its
time is null, and a deal of 5 at the price 0 comes without a book. -/
def firstDealBS : RxState where
  rxbuf := (revPutBitv bitvV_NumberNull).text ++ (intToBitv .uint32 1).text ++ [0x00, 0x00] ++
    priQtyBytes ⟨IntType.int64.cast 0, IntType.uint64.cast 5⟩
  note := {}
  rtMktSeq := IntType.uint64.cast 0
  seeds := fun _ => List.replicate 256 0
  reports := []

theorem firstDealBS_isNewer : IsNewer ⟨true, false⟩ firstDealBS (uint64.cast 1) :=
  ⟨_, _, _, rfl, rfl, fun _ => .inl (by decide)⟩

theorem mktSeq_firstDealBS :
    ¬ HoldsNumber ⟨fieldInt .uint32, 8⟩ (firstDealBS.seeds .bs) (signedCast (uint64.cast 1)) := by
  rw [holdsNumber_fieldInt]
  decide

/-- It does not set the number of the book. -/
theorem firstDealBS_wrong :
    ¬ ∀ (tf : TabFields) (rx : RxNotify) (s : RxState) (seq : IntType.uint64.Val) (fDeal fBS : Field),
      tf.fldDeal .mktSeq = some fDeal → tf.fldBS .mktSeq = some fBS → IsNewer rx s seq →
        HoldsNumber fBS ((leaves (decodeDealBS tf rx s)).seeds .bs) (signedCast seq) ∧
        ∀ g, Uncarried tf g → g.bytesAt ((leaves (decodeDealBS tf rx s)).seeds .deal) = g.bytesAt (s.seeds .deal) := by
  intro h
  have hbs : (twfTabFields true false).fldBS .mktSeq = some ⟨fieldInt .uint32, 8⟩ := fldBS_twf ..
  have hholds := (h (twfTabFields true false) ⟨true, false⟩ firstDealBS _ ⟨fieldInt .uint32, 8⟩ _ (fldDeal_twf ..) hbs
    firstDealBS_isNewer).1
  rw [HoldsNumber, mktSeq_decodeDealBS hbs] at hholds
  exact mktSeq_firstDealBS hholds

theorem decodeDealBS_right_iff_first :
    ¬ (HoldsNumber ⟨fieldInt .uint32, 8⟩
        ((leaves (decodeDealBS (twfTabFields true false) ⟨true, false⟩ firstDealBS)).seeds .bs) (signedCast (IntType.uint64.cast 1)) ∧
      ∀ g, Uncarried (twfTabFields true false) g →
        g.bytesAt ((leaves (decodeDealBS (twfTabFields true false) ⟨true, false⟩ firstDealBS)).seeds .deal) =
          g.bytesAt (firstDealBS.seeds .deal)) := by
  intro h
  have hright := (decodeDealBS_right_iff (twfTabFields true false) ⟨true, false⟩ firstDealBS (IntType.uint64.cast 1)
    ⟨fieldInt .uint32, 8⟩ ⟨fieldInt .uint32, 8⟩ (fldDeal_twf ..) (fldBS_twf ..) firstDealBS_isNewer).mp h
  exact mktSeq_firstDealBS hright.1

end Fon9.RcMdRts
