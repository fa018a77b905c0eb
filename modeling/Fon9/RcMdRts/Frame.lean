import Fon9.RcMdRts.Decoder

/-! What the decoder leaves as it is: whatever is seen of the seeds, and of the number in the
note, that a write to one of its cells does not change. -/

namespace Fon9.RcMdRts

open Lib Bitv Buffer Seed Rts List Keeps

variable {γ : Type*} {tf : TabFields} {rx : RxNotify}

variable (view : (RtsTab → Bytes) → IntType.uint64.Val → γ)

/-- What is seen of the seeds and of the number. -/
def seeing (s : RxState) : γ := view s.seeds s.rtMktSeq

/-- A write to the cell of a field does not show. -/
def Spares (wr : RtsTab) (f : Field) : Prop :=
  ∀ (s : RxState) (c : Cell f.cls.size), s.Reaches wr f → seeing view (s.put wr f c) = seeing view s

/-- The number does not show. -/
def Blind : Prop := ∀ seeds n n', view seeds n = view seeds n'

section Primitives

variable {view : (RtsTab → Bytes) → IntType.uint64.Val → γ} {wr : RtsTab} {f : Field} {fld : Option Field}

theorem keeps_popBitv {α : Type} (bitvTo : Bytes → Except BitvError (α × Bytes)) : Keeps (seeing view) (popBitv bitvTo) := by
  intro s
  rw [popBitv]
  cases bitvTo s.rxbuf <;> rfl

theorem keeps_computed {α : Type} (val : Except BitvError α) : Keeps (seeing view) (computed val) := by
  cases val with
  | ok val => exact pure val
  | error e => exact throw _

theorem keeps_putCell (h : Spares view wr f) (c : Cell f.cls.size) : Keeps (seeing view) (putCell wr f c) := by
  intro s
  rw [putCell]
  split_ifs with hreach
  · exact h s c hreach
  · rfl

theorem keeps_getCell : Keeps (seeing view) (getCell wr f) := by
  intro s
  rw [getCell]
  cases f.cell (s.seeds wr) <;> rfl

theorem keeps_onField {α : Type} {use : Field → Decoder α} (h : ∀ f, fld = some f → Keeps (seeing view) (use f)) :
    Keeps (seeing view) (onField fld use) := by
  cases fld with
  | none => exact throw _
  | some f => exact h f rfl

theorem keeps_putNumber (h : ∀ f, fld = some f → Spares view wr f) (num : ℤ) (decScale : ℕ) :
    Keeps (seeing view) (putNumber wr fld num decScale) :=
  keeps_onField fun f hf => bind (keeps_computed _) fun c => keeps_putCell (h f hf) c

theorem keeps_getNumber (outDecScale : ℕ) (nullValue : ℤ) : Keeps (seeing view) (getNumber wr fld outDecScale nullValue) :=
  keeps_onField fun _ _ => bind keeps_getCell fun _ => keeps_computed _

theorem keeps_bitvToCell (h : ∀ f, fld = some f → Spares view wr f) : Keeps (seeing view) (bitvToCell wr fld) :=
  keeps_onField fun f hf => bind (keeps_popBitv _) fun c => keeps_putCell (h f hf) c

theorem keeps_setNull (h : Spares view wr f) : Keeps (seeing view) (setNull wr f) := keeps_putCell h _

theorem keeps_report : Keeps (seeing view) (report wr) := fun _ => rfl

theorem keeps_readUInt64 : Keeps (seeing view) readUInt64 := keeps_popBitv _

theorem keeps_readByte : Keeps (seeing view) readByte := keeps_popBitv _

theorem keeps_seInfoTime : Keeps (seeing view) (seInfoTime rx) := fun _ => rfl

theorem keeps_readInfoTime : Keeps (seeing view) (readInfoTime rx) :=
  bind keeps_seInfoTime fun _ => bind (keeps_popBitv _) fun _ _ => rfl

theorem keeps_getRtMktSeq : Keeps (seeing view) getRtMktSeq := fun _ => rfl

theorem keeps_setRtMktSeq (hblind : Blind view) (rxSeq : IntType.uint64.Val) : Keeps (seeing view) (setRtMktSeq rxSeq) :=
  fun s => hblind s.seeds rxSeq s.rtMktSeq

theorem keeps_isFldMktSeqNewer (h : ∀ f, fld = some f → Spares view wr f) (hblind : Blind view) :
    Keeps (seeing view) (isFldMktSeqNewer rx wr fld) := by
  refine Keeps.ite (bind keeps_readUInt64 fun rxSeq => Keeps.ite ?_ ?_) (pure _)
  · refine bind keeps_getRtMktSeq fun rtMktSeq => Keeps.ite ?_ (pure _)
    exact bind (keeps_setRtMktSeq hblind _) fun _ => bind (keeps_putNumber h _ _) fun _ => pure _
  · exact bind (keeps_putNumber h _ _) fun _ => pure _

end Primitives

/-! ### The deal part -/

section Deal

variable {view : (RtsTab → Bytes) → IntType.uint64.Val → γ} (h : ∀ x f, tf.fldDeal x = some f → Spares view .deal f)
include h

theorem keeps_decodeDealPQ (totalQty : Option Qty) : Keeps (seeing view) (decodeDealPQ tf totalQty) := by
  refine bind (keeps_bitvToCell (h _)) fun _ => bind keeps_readUInt64 fun dealQty => ?_
  refine bind (keeps_putNumber (h _) _ _) fun _ => ?_
  cases totalQty with
  | none => exact pure _
  | some totalQty => exact bind (keeps_putNumber (h _) _ _) fun _ => pure _

theorem keeps_decodeDealPQs (count : ℕ) (totalQty : Option Qty) : Keeps (seeing view) (decodeDealPQs tf count totalQty) := by
  induction count generalizing totalQty with
  | zero => exact pure _
  | succ count ih =>
    exact bind (keeps_decodeDealPQ h totalQty) fun totalQty => bind keeps_report fun _ => ih totalQty

theorem keeps_decodeFirstDeals (dealFlags : UInt8) (count : ℕ) (totalQty : Option Qty) :
    Keeps (seeing view) (decodeFirstDeals tf dealFlags count totalQty) := by
  cases count with
  | zero => exact pure _
  | succ count =>
    refine bind (keeps_putNumber (h _) _ _) fun _ => bind (keeps_decodeDealPQ h totalQty) fun totalQty => ?_
    refine bind keeps_report fun _ => Keeps.ite ?_ (pure _)
    refine bind (keeps_putNumber (h _) _ _) fun _ => ?_
    exact bind (keeps_decodeDealPQs h count totalQty) fun _ => pure _

theorem keeps_decodeTotalQty (dealFlags : UInt8) : Keeps (seeing view) (decodeTotalQty tf dealFlags) := by
  refine bind (keeps_getNumber _ _) fun cell => Keeps.ite ?_ (pure _)
  refine bind (keeps_popBitv _) fun totalQty => Keeps.ite ?_ (pure _)
  exact bind (keeps_putNumber (h _) _ _) fun _ => pure _

theorem keeps_decodeDealCnt (dealFlags : UInt8) : Keeps (seeing view) (decodeDealCnt tf dealFlags) :=
  bind (Keeps.ite (keeps_bitvToCell (h _)) (pure _)) fun _ => Keeps.ite (keeps_bitvToCell (h _)) (pure _)

theorem keeps_decodeNewDealPack : Keeps (seeing view) (decodeNewDealPack tf rx) := by
  refine bind (Keeps.ite ?_ (pure _)) fun _ => ?_
  · exact bind keeps_readUInt64 fun _ => keeps_putNumber (h _) _ _
  refine bind keeps_seInfoTime fun infoTime => bind (keeps_putNumber (h _) _ _) fun _ => ?_
  refine bind keeps_readByte fun dealFlags => bind (Keeps.ite ?_ (pure _)) fun _ => ?_
  · exact bind (keeps_popBitv _) fun _ => keeps_putNumber (h _) _ _
  refine bind (keeps_decodeTotalQty h dealFlags) fun totalQty => bind (Keeps.ite ?_ (pure _)) fun _ => ?_
  · exact bind keeps_readByte fun _ => keeps_putNumber (h _) _ _
  refine bind keeps_readByte fun count => bind (keeps_decodeFirstDeals h _ _ _) fun deals => ?_
  refine bind (keeps_putNumber (h _) _ _) fun _ => bind (keeps_decodeDealPQ h _) fun _ => ?_
  exact bind (keeps_decodeDealCnt h _) fun _ => bind keeps_report fun _ => pure _

theorem keeps_decodeDealPack (hblind : Blind view) : Keeps (seeing view) (decodeDealPack tf rx) :=
  bind (keeps_isFldMktSeqNewer (h _) hblind) fun _ => Keeps.ite (keeps_decodeNewDealPack h) (pure _)

end Deal

/-! ### The order book -/

/-- The cells of a level are spared. -/
def SparesPQ (wr : RtsTab) (pq : FieldPQ) : Prop :=
  Spares view wr pq.fldPri ∧ Spares view wr pq.fldQty

section Levels

variable {view : (RtsTab → Bytes) → IntType.uint64.Val → γ} {wr : RtsTab} {flds : List FieldPQ}

theorem keeps_clearFieldPQ {pq : FieldPQ} (h : SparesPQ view wr pq) : Keeps (seeing view) (clearFieldPQ wr pq) :=
  bind (keeps_setNull h.1) fun _ => keeps_setNull h.2

theorem keeps_clearFieldPQs (h : ∀ pq ∈ flds, SparesPQ view wr pq) : Keeps (seeing view) (clearFieldPQs wr flds) := by
  induction flds with
  | nil => exact pure _
  | cons pq flds ih =>
    refine bind (keeps_clearFieldPQ (h pq mem_cons_self)) fun _ => ?_
    exact ih fun pq' hpq' => h pq' (mem_cons_of_mem _ hpq')

theorem keeps_bitvToFieldPQ {pq : FieldPQ} (h : SparesPQ view wr pq) : Keeps (seeing view) (bitvToFieldPQ wr pq) := by
  refine bind (keeps_bitvToCell ?_) fun _ => keeps_bitvToCell ?_
  · rintro f ⟨⟩
    exact h.1
  · rintro f ⟨⟩
    exact h.2

theorem keeps_bitvToFieldPQs (h : ∀ pq ∈ flds, SparesPQ view wr pq) : Keeps (seeing view) (bitvToFieldPQs wr flds) := by
  induction flds with
  | nil => exact pure _
  | cons pq flds ih =>
    refine bind (keeps_bitvToFieldPQ (h pq mem_cons_self)) fun _ => ?_
    exact ih fun pq' hpq' => h pq' (mem_cons_of_mem _ hpq')

theorem keeps_decodeLevels (h : ∀ pq ∈ flds, SparesPQ view .bs pq) (count : ℕ) :
    Keeps (seeing view) (decodeLevels flds count) := by
  refine Keeps.ite (bind ?_ fun _ => ?_) (throw _)
  · exact keeps_clearFieldPQs fun pq hpq => h pq (mem_of_mem_drop hpq)
  · exact keeps_bitvToFieldPQs fun pq hpq => h pq (mem_of_mem_take (mem_reverse.mp hpq))

end Levels

/-- A field that a snapshot writes. -/
def BSCell.IsOfSnapshot (x : BSCell) : Prop := x ≠ .fld .mktSeq ∧ x ≠ .fld .channelSeq

theorem fldCell_of_mem {t : RtBSType} {pq : FieldPQ} (h : pq ∈ tf.fldPQs t) :
    ∃ lv, tf.fldCell (.pri t lv) = some pq.fldPri ∧ tf.fldCell (.qty t lv) = some pq.fldQty := by
  obtain ⟨lv, hlv⟩ := getElem?_of_mem h
  exact ⟨lv, by rw [TabFields.fldCell, hlv]; rfl, by rw [TabFields.fldCell, hlv]; rfl⟩

section Snapshot

variable {view : (RtsTab → Bytes) → IntType.uint64.Val → γ}
  (h : ∀ x : BSCell, x.IsOfSnapshot → ∀ f, tf.fldCell x = some f → Spares view .bs f)
include h

theorem sparesPQ_of_mem {t : RtBSType} {pq : FieldPQ} (hpq : pq ∈ tf.fldPQs t) : SparesPQ view .bs pq := by
  obtain ⟨lv, hpri, hqty⟩ := fldCell_of_mem hpq
  exact ⟨h (.pri t lv) ⟨nofun, nofun⟩ _ hpri, h (.qty t lv) ⟨nofun, nofun⟩ _ hqty⟩

theorem keeps_decodeSnapshotRecord (bsFlags : UInt8) : Keeps (seeing view) (decodeSnapshotRecord tf bsFlags) := by
  refine bind keeps_readByte fun bstype => Keeps.ite ?_ (Keeps.ite ?_ (pure _))
  · exact bind (keeps_decodeLevels (fun _ hpq => sparesPQ_of_mem h hpq) _) fun _ => pure _
  · exact bind keeps_readByte fun _ => bind (keeps_putNumber (h (.fld .lmtFlags) ⟨nofun, nofun⟩) _ _) fun _ => pure _

theorem keeps_decodeSnapshotRecords (fuel : ℕ) (bsFlags : UInt8) : Keeps (seeing view) (decodeSnapshotRecords tf fuel bsFlags) := by
  induction fuel generalizing bsFlags with
  | zero => exact pure _
  | succ fuel ih =>
    intro s
    rw [decodeSnapshotRecords]
    dsimp only
    split_ifs with hempty
    · rfl
    · exact bind (keeps_decodeSnapshotRecord h bsFlags) (fun bsFlags => ih bsFlags) s

theorem keeps_checkClearFieldPQs (bsFlags : UInt8) (t : RtBSType) : Keeps (seeing view) (checkClearFieldPQs tf bsFlags t) :=
  Keeps.ite (pure _) (keeps_clearFieldPQs fun _ hpq => sparesPQ_of_mem h hpq)

theorem keeps_decodeSnapshotBS (bsFlags : UInt8) : Keeps (seeing view) (decodeSnapshotBS tf rx bsFlags) := by
  refine bind keeps_seInfoTime fun infoTime => ?_
  refine bind (keeps_putNumber (h (.fld .infoTime) ⟨nofun, nofun⟩) _ _) fun _ => ?_
  refine bind (fun s => keeps_decodeSnapshotRecords h s.rxbuf.length bsFlags s) fun bsFlags => ?_
  refine bind (keeps_checkClearFieldPQs h _ _) fun _ => bind (keeps_checkClearFieldPQs h _ _) fun _ => ?_
  refine bind (keeps_checkClearFieldPQs h _ _) fun _ => bind (keeps_checkClearFieldPQs h _ _) fun _ => ?_
  exact bind (keeps_putNumber (h (.fld .flags) ⟨nofun, nofun⟩) _ _) fun _ => keeps_report

end Snapshot

end Fon9.RcMdRts
