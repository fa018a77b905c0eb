import Fon9.RcMdRts.Decoder

/-! What a client sees of the deals of a symbol: the cells of the deal and the reports. A
decoder that runs on bytes does something to this view, whatever the rest of the memory is. -/

namespace Fon9.RcMdRts

open Lib Bitv Buffer Seed Rts List Field Option

/-! ### The view -/

/-- The fields that the deal of the server has too. -/
def DealFld.IsOfDeal : DealFld → Bool
  | .dealTime | .dealPri | .dealQty | .totalQty | .dealBuyCnt | .dealSellCnt => true
  | _ => false

/-- The class that the server makes a field with. -/
def DealFld.cls : DealFld → FieldClass
  | .infoTime | .dealTime => fieldDayTime
  | .dealPri => fieldPri
  | .dealQty | .totalQty | .dealBuyCnt | .dealSellCnt => fieldQty
  | .flags | .lmtFlags => fieldInt .uint8
  | .mktSeq => fieldInt .uint32
  | .channelSeq => fieldInt .uint64

/-- A tab of the deals with the fields and the classes that the server has. -/
structure TabFields.IsDealOfServer (tf : TabFields) (ctrlFlags : MdSymbsCtrlFlag) : Prop where
  cls : ∀ x f, tf.fldDeal x = some f → f.cls = x.cls
  isSome : ∀ x, x.IsOfDeal ∨ x = .infoTime ∨ x = .flags → (tf.fldDeal x).isSome
  mktSeq : (tf.fldDeal .mktSeq).isSome = ctrlFlags.hasMarketDataSeq
  channelSeq : (tf.fldDeal .channelSeq).isSome = ctrlFlags.hasChannelSeq

theorem TabFields.IsDealOfServer.field_eq {tf : TabFields} {ctrlFlags : MdSymbsCtrlFlag} (h : tf.IsDealOfServer ctrlFlags)
    {x : DealFld} (hsome : (tf.fldDeal x).isSome) : ∃ offset, tf.fldDeal x = some ⟨x.cls, offset⟩ := by
  obtain ⟨⟨cls, offset⟩, hf⟩ := isSome_iff_exists.mp hsome
  obtain rfl : cls = x.cls := h.cls x _ hf
  exact ⟨offset, hf⟩

section Twf

variable (isAddMarketSeq isAddChannelSeq : Bool)

theorem cls_symbDealMakeFields : ∀ fld ∈ symbDealMakeFields false isAddMarketSeq isAddChannelSeq, fld.2 = fld.1.cls := by
  cases isAddMarketSeq <;> cases isAddChannelSeq <;> simp [symbDealMakeFields, addIf, DealFld.cls]

/-- The tab that the client makes for a symbol of the futures exchange. -/
theorem isDealOfServer_twf : (twfTabFields isAddMarketSeq isAddChannelSeq).IsDealOfServer ⟨isAddMarketSeq, isAddChannelSeq⟩ where
  cls x f h := by
    obtain ⟨y, hname, hmem⟩ := exists_key (show (twfDealTab isAddMarketSeq isAddChannelSeq).get x.name = some f from h)
    rw [← DealFld.name_injective hname]
    exact cls_symbDealMakeFields _ _ _ hmem
  isSome x hx := by
    rw [fldDeal_twf]
    revert x
    revert isAddMarketSeq isAddChannelSeq
    decide
  mktSeq := by
    rw [fldDeal_twf]
    revert isAddMarketSeq isAddChannelSeq
    decide
  channelSeq := by
    rw [fldDeal_twf]
    revert isAddMarketSeq isAddChannelSeq
    decide

end Twf

/-- The bytes of the cells of the deal. -/
abbrev DealCells := DealFld → Bytes

def dealCells (tf : TabFields) (mem : Bytes) : DealCells := fun x =>
  if x.IsOfDeal then (tf.fldDeal x).elim [] fun f => f.bytesAt mem else []

structure DealView where
  infoTime : DayTime
  rtMktSeq : IntType.uint64.Val
  cells : DealCells
  reports : List (RtsTab × DealCells)

namespace DealView

/-- A cell of the deal is written. -/
def put (d : DealView) (x : DealFld) (bytes : Bytes) : DealView := { d with cells := Function.update d.cells x bytes }

def report (d : DealView) : DealView := { d with reports := d.reports ++ [(.deal, d.cells)] }

end DealView

/-- The seed of the deals has the memory of its tab. -/
def DealSized (tf : TabFields) (s : RxState) : Prop := (s.seeds .deal).length = tf.deal.dyMemSize

section View

variable (tf : TabFields) (rx : RxNotify)

def dealView (s : RxState) : DealView where
  infoTime := s.note.selectInfoTime rx.isStreamData
  rtMktSeq := s.rtMktSeq
  cells := dealCells tf (s.seeds .deal)
  reports := s.reports.map fun rep => (rep.1, dealCells tf rep.2)

/-- From these bytes and this view, the decoder returns with those; the reports that were there
stay. -/
def Does {α : Type} (buf : Bytes) (d : DealView) (x : Decoder α) (a : α) (buf' : Bytes) (d' : DealView) : Prop :=
  ∀ s : RxState, DealSized tf s → s.rxbuf = buf → dealView tf rx s = d →
    ∃ s', x s = .ok a s' ∧ DealSized tf s' ∧ s'.rxbuf = buf' ∧ dealView tf rx s' = d' ∧ s.reports <+: s'.reports

end View

/-- A write to the cell of a field. -/
theorem dealCells_store {tf : TabFields} {x : DealFld} {f : Field} (hf : tf.fldDeal x = some f) {mem : Bytes}
    (hsize : mem.length = tf.deal.dyMemSize) (c : Cell f.cls.size) :
    dealCells tf (f.store c mem) = if x.IsOfDeal then Function.update (dealCells tf mem) x c.1 else dealCells tf mem := by
  have hstop : f.stop ≤ mem.length := (Tab.stop_le hf).trans_eq hsize.symm
  have hother : ∀ y, y ≠ x → dealCells tf (f.store c mem) y = dealCells tf mem y := by
    intro y hy
    rw [dealCells, dealCells]
    cases hg : tf.fldDeal y with
    | none => rfl
    | some g =>
      rw [elim_some, elim_some, bytesAt_store_apart hstop (TabFields.fldDeal_apart hf hg hy.symm)]
  funext y
  by_cases hy : y = x
  · subst hy
    by_cases hof : y.IsOfDeal
    · rw [if_pos hof, Function.update_self, dealCells, if_pos hof, hf, elim_some, bytesAt_store hstop]
    · rw [if_neg hof, dealCells, dealCells, if_neg hof, if_neg hof]
  · rw [hother y hy]
    by_cases hof : x.IsOfDeal
    · rw [if_pos hof, Function.update_of_ne hy]
    · rw [if_neg hof]

/-! ### What the parts of a decoder do -/

namespace Does

variable {tf : TabFields} {rx : RxNotify} {α β : Type} {buf buf' buf'' : Bytes} {d d' d'' : DealView} {x : Decoder α} {a : α}
  {ctrlFlags : MdSymbsCtrlFlag} {num : ℤ} {decScale : ℕ} {fld : DealFld}

theorem pure (a : α) : Does tf rx buf d (Pure.pure a) a buf d := fun s hsized hbuf hview =>
  ⟨s, rfl, hsized, hbuf, hview, prefix_rfl⟩

theorem bind {f : α → Decoder β} {b : β} (hx : Does tf rx buf d x a buf' d') (hf : Does tf rx buf' d' (f a) b buf'' d'') :
    Does tf rx buf d (x >>= f) b buf'' d'' := by
  intro s hsized hbuf hview
  obtain ⟨s', hrun, hsized', hbuf', hview', hreports⟩ := hx s hsized hbuf hview
  obtain ⟨s'', hrun', hsized'', hbuf'', hview'', hreports'⟩ := hf s' hsized' hbuf' hview'
  exact ⟨s'', (bind_of_ok hrun).trans hrun', hsized'', hbuf'', hview'', hreports.trans hreports'⟩

theorem popBitv {bitvTo : Bytes → Except BitvError (α × Bytes)} (h : bitvTo buf = .ok (a, buf')) :
    Does tf rx buf d (popBitv bitvTo) a buf' d := by
  intro s hsized hbuf hview
  exact ⟨{ s with rxbuf := buf' }, popBitv_of_ok (by rw [hbuf]; exact h), hsized, rfl, hview, prefix_rfl⟩

/-- What the bytes of a value read as. -/
theorem popReads {bitvTo : Bytes → Except BitvError (α × Bytes)} {bytes rest : Bytes} (h : Reads Bytes bitvTo bytes a) :
    Does tf rx (bytes ++ rest) d (RcMdRts.popBitv bitvTo) a rest d := by
  obtain ⟨q, hread, hq⟩ := h (bytes ++ rest) rest rfl
  obtain rfl : q = rest := hq
  exact popBitv hread

theorem readByte {b : UInt8} : Does tf rx (b :: buf) d readByte b buf d := popBitv rfl

theorem readUInt64 (v : IntType.uint64.Val) : Does tf rx ((intToBitv .uint64 v.1).text ++ buf) d readUInt64 v buf d :=
  popReads (int_reads v _)

theorem seInfoTime : Does tf rx buf d (seInfoTime rx) d.infoTime buf d := by
  rintro s hsized hbuf rfl
  exact ⟨s, rfl, hsized, hbuf, rfl, prefix_rfl⟩

theorem setInfoTime (infoTime : DayTime) : Does tf rx buf d (setInfoTime rx infoTime) () buf { d with infoTime := infoTime } := by
  rintro s hsized hbuf rfl
  refine ⟨_, rfl, hsized, hbuf, ?_, prefix_rfl⟩
  simp [dealView]

theorem getRtMktSeq : Does tf rx buf d getRtMktSeq d.rtMktSeq buf d := by
  rintro s hsized hbuf rfl
  exact ⟨s, rfl, hsized, hbuf, rfl, prefix_rfl⟩

theorem setRtMktSeq (rxSeq : IntType.uint64.Val) : Does tf rx buf d (setRtMktSeq rxSeq) () buf { d with rtMktSeq := rxSeq } := by
  rintro s hsized hbuf rfl
  exact ⟨_, rfl, hsized, hbuf, rfl, prefix_rfl⟩

theorem report : Does tf rx buf d (RcMdRts.report .deal) () buf d.report := by
  rintro s hsized hbuf rfl
  refine ⟨_, rfl, hsized, hbuf, ?_, prefix_append _ _⟩
  simp [dealView, DealView.report]

theorem putCell {f : Field} (hf : tf.fldDeal fld = some f) (c : Cell f.cls.size) :
    Does tf rx buf d (RcMdRts.putCell .deal f c) () buf (if fld.IsOfDeal then d.put fld c.1 else d) := by
  rintro s hsized hbuf rfl
  have hreach : s.Reaches .deal f := (Tab.stop_le hf).trans_eq hsized.symm
  refine ⟨_, putCell_of_reaches hreach, (RxState.length_put hreach).trans hsized, hbuf, ?_, prefix_rfl⟩
  rw [dealView, RxState.put_seeds_self, dealCells_store hf hsized]
  by_cases hof : fld.IsOfDeal
  · rw [if_pos hof, if_pos hof]
    rfl
  · rw [if_neg hof, if_neg hof]
    rfl

section Fields

variable (htab : tf.IsDealOfServer ctrlFlags)

include htab

/-- A number for a field of the deal. -/
theorem putNumber (hof : fld.IsOfDeal) {c : Cell fld.cls.size} (hnum : fld.cls.putNumber num decScale = .ok c) :
    Does tf rx buf d (RcMdRts.putNumber .deal (tf.fldDeal fld) num decScale) () buf (d.put fld c.1) := by
  obtain ⟨offset, hf⟩ := htab.field_eq (htab.isSome fld (.inl hof))
  have hput : Does tf rx buf d _ () buf _ := putCell hf c
  rw [if_pos hof] at hput
  intro s hsized hbuf hview
  rw [hf, putNumber_of_ok hnum]
  exact hput s hsized hbuf hview

/-- A number for a field that the deal of the server does not have. -/
theorem putOther (hof : ¬ fld.IsOfDeal) (hsome : (tf.fldDeal fld).isSome) (hnum : ∃ c, fld.cls.putNumber num decScale = .ok c) :
    Does tf rx buf d (RcMdRts.putNumber .deal (tf.fldDeal fld) num decScale) () buf d := by
  obtain ⟨c, hnum⟩ := hnum
  obtain ⟨offset, hf⟩ := htab.field_eq hsome
  have hput : Does tf rx buf d _ () buf _ := putCell hf c
  rw [if_neg hof] at hput
  intro s hsized hbuf hview
  rw [hf, putNumber_of_ok hnum]
  exact hput s hsized hbuf hview

/-- The value that a cell of the deal holds. -/
theorem getNumber (hof : fld.IsOfDeal) {c : Cell fld.cls.size} (hcell : d.cells fld = c.1) {nullValue : ℤ}
    (hnum : fld.cls.getNumber decScale nullValue c = .ok num) :
    Does tf rx buf d (RcMdRts.getNumber .deal (tf.fldDeal fld) decScale nullValue) num buf d := by
  obtain ⟨offset, hf⟩ := htab.field_eq (htab.isSome fld (.inl hof))
  rintro s hsized hbuf rfl
  refine ⟨s, ?_, hsized, hbuf, rfl, prefix_rfl⟩
  have hstop : (⟨fld.cls, offset⟩ : Seed.Field).stop ≤ (s.seeds .deal).length := (Tab.stop_le hf).trans_eq hsized.symm
  have hbytes : (⟨fld.cls, offset⟩ : Seed.Field).bytesAt (s.seeds .deal) = c.1 := by
    rw [← hcell]
    show _ = dealCells tf _ fld
    rw [dealCells, if_pos hof, hf, elim_some]
  have hget : getCell .deal ⟨fld.cls, offset⟩ s = .ok c s := by
    rw [getCell, cell_of_le hstop]
    exact congrArg (fun c => EStateM.Result.ok c s) (Subtype.ext hbytes)
  rw [hf, RcMdRts.getNumber, onField, bind_of_ok hget, hnum]
  rfl

theorem bitvToCell (hof : fld.IsOfDeal) {c : Cell fld.cls.size} (hread : fld.cls.bitvToCell buf = .ok (c, buf')) :
    Does tf rx buf d (RcMdRts.bitvToCell .deal (tf.fldDeal fld)) () buf' (d.put fld c.1) := by
  obtain ⟨offset, hf⟩ := htab.field_eq (htab.isSome fld (.inl hof))
  have hput : Does tf rx buf' d _ () buf' _ := putCell hf c
  rw [if_pos hof] at hput
  rw [hf]
  exact bind (popBitv hread) hput

end Fields

end Does

end Fon9.RcMdRts
