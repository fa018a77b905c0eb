import Fon9.RcMdRts.Frame

/-! The levels of a list in the client's tab: what they show once they have been cleared, or
read from the bytes of the prices and the quantities. -/

namespace Fon9.RcMdRts

open Lib Bitv Buffer Seed Rts List RxState Prod

/-! ### Levels and their cells -/

/-- A level with the classes that the server's fields have, and with two cells of its own in a
memory of this size. -/
structure FieldPQ.IsLevel (fld : FieldPQ) (size : ℕ) : Prop where
  pri : fld.fldPri.cls = fieldPri
  qty : fld.fldQty.cls = fieldQty
  apart : fld.fldPri.Apart fld.fldQty
  pri_le : fld.fldPri.stop ≤ size
  qty_le : fld.fldQty.stop ≤ size

/-- The cells of two levels do not meet. -/
structure FieldPQ.Apart (a b : FieldPQ) : Prop where
  pri_pri : a.fldPri.Apart b.fldPri
  pri_qty : a.fldPri.Apart b.fldQty
  qty_pri : a.fldQty.Apart b.fldPri
  qty_qty : a.fldQty.Apart b.fldQty

theorem FieldPQ.Apart.symm {a b : FieldPQ} (h : a.Apart b) : b.Apart a :=
  ⟨h.pri_pri.symm, h.qty_pri.symm, h.pri_qty.symm, h.qty_qty.symm⟩

/-- What the cells of a level hold. -/
def levelView (fld : FieldPQ) (seeds : RtsTab → Bytes) (_ : IntType.uint64.Val) : Bytes × Bytes :=
  (fld.fldPri.bytesAt (seeds .bs), fld.fldQty.bytesAt (seeds .bs))

def sizeView (seeds : RtsTab → Bytes) (_ : IntType.uint64.Val) : ℕ := (seeds .bs).length

def Shows (s : RxState) (fld : FieldPQ) (pq : PriQty) : Prop :=
  seeing (levelView fld) s = ((intCell .int64 pq.pri).1, (intCell .uint64 pq.qty).1)

section Levels

variable {s : RxState} {size : ℕ} {fld fld' : FieldPQ} {flds : List FieldPQ} {pq : PriQty} {rest : Bytes}

theorem spares_sizeView (wr : RtsTab) (f : Field) : Spares sizeView wr f := fun _ _ hreach => length_put hreach

theorem sparesPQ_sizeView (wr : RtsTab) (fld : FieldPQ) : SparesPQ sizeView wr fld :=
  ⟨spares_sizeView wr _, spares_sizeView wr _⟩

/-- A write to a cell apart from a level. -/
theorem spares_levelView {f : Field} {wr : RtsTab} (hpri : f.Apart fld.fldPri) (hqty : f.Apart fld.fldQty) :
    Spares (levelView fld) wr f := fun _ _ hreach =>
  Prod.ext (bytesAt_put_apart hreach fun _ => hpri) (bytesAt_put_apart hreach fun _ => hqty)

theorem sparesPQ_levelView (h : fld'.Apart fld) : SparesPQ (levelView fld) .bs fld' :=
  ⟨spares_levelView h.pri_pri h.pri_qty, spares_levelView h.qty_pri h.qty_qty⟩

/-! ### One level -/

/-- Two writes to the cells of a level, where the seeds stay between them. -/
theorem shows_put_put {s₁ : RxState} {c : Cell fld.fldPri.cls.size} {d : Cell fld.fldQty.cls.size}
    (hlevel : fld.IsLevel (s.seeds .bs).length) (hseeds : s₁.seeds = (s.put .bs fld.fldPri c).seeds)
    (hc : c.1 = (intCell .int64 pq.pri).1) (hd : d.1 = (intCell .uint64 pq.qty).1) :
    Shows (s₁.put .bs fld.fldQty d) fld pq := by
  have hpri : s.Reaches .bs fld.fldPri := hlevel.pri_le
  have hqty : s₁.Reaches .bs fld.fldQty := by
    rw [RxState.Reaches, hseeds]
    exact (reaches_put hpri).mpr hlevel.qty_le
  have hfirst : s₁.bytesAt .bs fld.fldPri = c.1 := by
    rw [RxState.bytesAt, hseeds]
    exact bytesAt_put hpri
  refine Prod.ext ?_ ?_
  · show RxState.bytesAt _ .bs fld.fldPri = _
    rw [bytesAt_put_apart hqty fun _ => hlevel.apart.symm, hfirst, hc]
  · show RxState.bytesAt _ .bs fld.fldQty = _
    rw [bytesAt_put hqty, hd]

theorem fieldPri_reads {cls : FieldClass} (hcls : cls = fieldPri) (pq : PriQty) (rest : Bytes) :
    ∃ c : Cell cls.size, cls.bitvToCell (priQtyBytes pq ++ rest) = .ok (c, (intToBitv .uint64 pq.qty.1).text ++ rest) ∧
      c.1 = (intCell .int64 pq.pri).1 := by
  subst hcls
  have hbytes : Holds (priQtyBytes pq ++ rest)
      ((decimalToBitv .int64 priScale pq.pri.1).text ++ ((intToBitv .uint64 pq.qty.1).text ++ rest)) := by
    rw [priQtyBytes, append_assoc]
    rfl
  obtain ⟨q, hread, hq⟩ := decimal_reads (8 : Fin 32) pq.pri (priQtyBytes pq ++ rest) _ hbytes
  obtain rfl : q = (intToBitv .uint64 pq.qty.1).text ++ rest := hq
  exact ⟨intCell .int64 pq.pri, bitvToCell_fieldDecimal hread, rfl⟩

theorem fieldQty_reads {cls : FieldClass} (hcls : cls = fieldQty) (qty : Qty) (rest : Bytes) :
    ∃ c : Cell cls.size, cls.bitvToCell ((intToBitv .uint64 qty.1).text ++ rest) = .ok (c, rest) ∧
      c.1 = (intCell .uint64 qty).1 := by
  subst hcls
  obtain ⟨q, hread, hq⟩ := int_reads qty (IntType.uint64.cast 0) ((intToBitv .uint64 qty.1).text ++ rest) rest rfl
  obtain rfl : q = rest := hq
  exact ⟨intCell .uint64 qty, bitvToCell_fieldInt hread, rfl⟩

theorem null_eq (hlevel : fld.IsLevel size) :
    fld.fldPri.cls.null.1 = (intCell .int64 nullPQ.pri).1 ∧ fld.fldQty.cls.null.1 = (intCell .uint64 nullPQ.qty).1 := by
  rw [hlevel.pri, hlevel.qty]
  exact ⟨rfl, rfl⟩

theorem bitvToFieldPQ_runs (hlevel : fld.IsLevel (s.seeds .bs).length) (hbuf : s.rxbuf = priQtyBytes pq ++ rest) :
    ∃ s', bitvToFieldPQ .bs fld s = .ok () s' ∧ s'.rxbuf = rest ∧ Shows s' fld pq := by
  obtain ⟨c, hpri, hc⟩ := fieldPri_reads hlevel.pri pq rest
  obtain ⟨d, hqty, hd⟩ := fieldQty_reads hlevel.qty pq.qty rest
  rw [← hbuf] at hpri
  have hreach : s.Reaches .bs fld.fldPri := hlevel.pri_le
  have hreach' : (s.put .bs fld.fldPri c).Reaches .bs fld.fldQty := (reaches_put hreach).mpr hlevel.qty_le
  have hrun : bitvToFieldPQ .bs fld s =
      .ok () (RxState.put { s.put .bs fld.fldPri c with rxbuf := rest } .bs fld.fldQty d) := by
    rw [bitvToFieldPQ, bind_of_ok (bitvToCell_of_ok hpri hreach)]
    exact bitvToCell_of_ok hqty hreach'
  exact ⟨_, hrun, rfl, shows_put_put hlevel rfl hc hd⟩

theorem clearFieldPQ_runs (hlevel : fld.IsLevel (s.seeds .bs).length) :
    ∃ s', clearFieldPQ .bs fld s = .ok () s' ∧ s'.rxbuf = s.rxbuf ∧ Shows s' fld nullPQ := by
  obtain ⟨hc, hd⟩ := null_eq hlevel
  have hreach : s.Reaches .bs fld.fldPri := hlevel.pri_le
  have hreach' : (s.put .bs fld.fldPri fld.fldPri.cls.null).Reaches .bs fld.fldQty :=
    (reaches_put hreach).mpr hlevel.qty_le
  have hrun : clearFieldPQ .bs fld s =
      .ok () ((s.put .bs fld.fldPri fld.fldPri.cls.null).put .bs fld.fldQty fld.fldQty.cls.null) := by
    rw [clearFieldPQ, setNull, bind_of_ok (putCell_of_reaches hreach)]
    exact putCell_of_reaches hreach'
  exact ⟨_, hrun, rfl, shows_put_put hlevel rfl hc hd⟩

/-! ### Lists of levels -/

/-- What a decoder that spares a level leaves of it. -/
theorem Shows.of_keeps {α : Type} {x : Decoder α} {s' : RxState} {a : α} (h : Shows s fld pq)
    (hx : Keeps (seeing (levelView fld)) x) (hrun : x s = .ok a s') : Shows s' fld pq := by
  have hkeep := hx s
  rw [hrun] at hkeep
  exact hkeep.trans h

theorem size_of_keeps {α : Type} {x : Decoder α} {s s' : RxState} {a : α} (hx : Keeps (seeing sizeView) x)
    (hrun : x s = .ok a s') : (s'.seeds .bs).length = (s.seeds .bs).length := by
  have hkeep := hx s
  rw [hrun] at hkeep
  exact hkeep

theorem clearFieldPQs_runs (hlevel : ∀ fld ∈ flds, fld.IsLevel size) (hapart : flds.Pairwise FieldPQ.Apart)
    (hsize : (s.seeds .bs).length = size) :
    ∃ s', clearFieldPQs .bs flds s = .ok () s' ∧ s'.rxbuf = s.rxbuf ∧ ∀ fld ∈ flds, Shows s' fld nullPQ := by
  induction flds generalizing s with
  | nil => exact ⟨s, rfl, rfl, nofun⟩
  | cons fld flds ih =>
    obtain ⟨hfirst, hrest⟩ := pairwise_cons.mp hapart
    obtain ⟨s₁, hrun₁, hbuf₁, hshow₁⟩ := clearFieldPQ_runs (hsize ▸ hlevel fld mem_cons_self)
    have hsize₁ := size_of_keeps (keeps_clearFieldPQ (sparesPQ_sizeView .bs fld)) hrun₁
    obtain ⟨s₂, hrun₂, hbuf₂, hshow₂⟩ :=
      ih (fun fld' hfld' => hlevel fld' (mem_cons_of_mem _ hfld')) hrest (hsize₁.trans hsize)
    refine ⟨s₂, ?_, hbuf₂.trans hbuf₁, fun fld' hfld' => ?_⟩
    · rw [clearFieldPQs, bind_of_ok hrun₁, hrun₂]
    · rcases mem_cons.mp hfld' with rfl | hfld'
      · exact hshow₁.of_keeps (keeps_clearFieldPQs fun fld'' hfld'' => sparesPQ_levelView (hfirst fld'' hfld'').symm) hrun₂
      · exact hshow₂ fld' hfld'

/-- Levels and what they are to show, one after the other in the bytes. -/
theorem bitvToFieldPQs_runs {zs : List (FieldPQ × PriQty)} (hlevel : ∀ z ∈ zs, z.1.IsLevel size)
    (hapart : zs.Pairwise fun z z' => z.1.Apart z'.1) (hsize : (s.seeds .bs).length = size)
    (hbuf : s.rxbuf = zs.flatMap (fun z => priQtyBytes z.2) ++ rest) :
    ∃ s', bitvToFieldPQs .bs (zs.map fst) s = .ok () s' ∧ s'.rxbuf = rest ∧ ∀ z ∈ zs, Shows s' z.1 z.2 := by
  induction zs generalizing s with
  | nil => exact ⟨s, rfl, hbuf, fun _ hz => absurd hz not_mem_nil⟩
  | cons z zs ih =>
    obtain ⟨hfirst, hrest⟩ := pairwise_cons.mp hapart
    rw [flatMap_cons, append_assoc] at hbuf
    obtain ⟨s₁, hrun₁, hbuf₁, hshow₁⟩ := bitvToFieldPQ_runs (hsize ▸ hlevel z mem_cons_self) hbuf
    have hsize₁ := size_of_keeps (keeps_bitvToFieldPQ (sparesPQ_sizeView .bs z.1)) hrun₁
    obtain ⟨s₂, hrun₂, hbuf₂, hshow₂⟩ :=
      ih (fun z' hz' => hlevel z' (mem_cons_of_mem _ hz')) hrest (hsize₁.trans hsize) hbuf₁
    refine ⟨s₂, ?_, hbuf₂, fun z' hz' => ?_⟩
    · rw [map_cons, bitvToFieldPQs, bind_of_ok hrun₁, hrun₂]
    · rcases mem_cons.mp hz' with rfl | hz'
      · refine hshow₁.of_keeps (keeps_bitvToFieldPQs fun fld hfld => ?_) hrun₂
        obtain ⟨z'', hz'', rfl⟩ := mem_map.mp hfld
        exact sparesPQ_levelView (hfirst z'' hz'').symm
      · exact hshow₂ z' hz'

/-- The levels of a list show these prices and quantities, and null where there are no more. -/
def ShowsList (s : RxState) (flds : List FieldPQ) (pqs : List PriQty) : Prop :=
  ∀ lv fld, flds[lv]? = some fld → Shows s fld (pqs.getD lv nullPQ)

/-- A record of a list, with the best level last. -/
theorem decodeLevels_runs {pqs : List PriQty} (hlevel : ∀ fld ∈ flds, fld.IsLevel size) (hapart : flds.Pairwise FieldPQ.Apart)
    (hsize : (s.seeds .bs).length = size) (hcount : pqs.length ≤ flds.length)
    (hbuf : s.rxbuf = pqs.reverse.flatMap priQtyBytes ++ rest) :
    ∃ s', decodeLevels flds pqs.length s = .ok () s' ∧ s'.rxbuf = rest ∧ ShowsList s' flds pqs := by
  have hmem : ∀ {z : FieldPQ × PriQty}, z ∈ ((flds.take pqs.length).zip pqs).reverse → z.1 ∈ flds := fun hz =>
    mem_of_mem_take (of_mem_zip (mem_reverse.mp hz)).1
  have hfst : (((flds.take pqs.length).zip pqs).reverse).map fst = (flds.take pqs.length).reverse := by
    rw [map_reverse, map_fst_zip (by rw [length_take]; omega)]
  have hsnd : (((flds.take pqs.length).zip pqs).reverse).map snd = pqs.reverse := by
    rw [map_reverse, map_snd_zip (by rw [length_take]; omega)]
  have hpairs : (((flds.take pqs.length).zip pqs).reverse).Pairwise fun z z' => z.1.Apart z'.1 := by
    apply List.Pairwise.of_map fst fun _ _ h => h
    rw [hfst, pairwise_reverse]
    exact (hapart.sublist (take_sublist _ _)).imp FieldPQ.Apart.symm
  have hdrop : ∀ fld ∈ flds.drop pqs.length, fld.IsLevel size := fun fld hfld => hlevel fld (mem_of_mem_drop hfld)
  obtain ⟨s₁, hrun₁, hbuf₁, hshow₁⟩ := clearFieldPQs_runs hdrop (hapart.sublist (drop_sublist _ _)) hsize
  have hsize₁ := size_of_keeps (keeps_clearFieldPQs fun fld _ => sparesPQ_sizeView .bs fld) hrun₁
  have hbytes : s₁.rxbuf = (((flds.take pqs.length).zip pqs).reverse).flatMap (fun z => priQtyBytes z.2) ++ rest := by
    rw [hbuf₁, hbuf, ← hsnd, flatMap_map]
  obtain ⟨s₂, hrun₂, hbuf₂, hshow₂⟩ :=
    bitvToFieldPQs_runs (fun z hz => hlevel z.1 (hmem hz)) hpairs (hsize₁.trans hsize) hbytes
  rw [hfst] at hrun₂
  refine ⟨s₂, ?_, hbuf₂, fun lv fld hfld => ?_⟩
  · rw [decodeLevels, if_pos hcount, bind_of_ok hrun₁, hrun₂]
  · by_cases hlv : lv < pqs.length
    · have hpq : pqs[lv]? = some (pqs.getD lv nullPQ) := by
        rw [getD_eq_getElem?_getD, getElem?_eq_getElem hlv]
        rfl
      have htake : (flds.take pqs.length)[lv]? = some fld := by
        rw [getElem?_take_of_lt hlv, hfld]
      have hz : ((flds.take pqs.length).zip pqs)[lv]? = some (fld, pqs.getD lv nullPQ) :=
        getElem?_zip_eq_some.mpr ⟨htake, hpq⟩
      exact hshow₂ _ (mem_reverse.mpr (mem_of_getElem? hz))
    · have hmemdrop : fld ∈ flds.drop pqs.length := by
        apply mem_of_getElem? (i := lv - pqs.length)
        rw [getElem?_drop, show pqs.length + (lv - pqs.length) = lv by omega, hfld]
      have hcross := (pairwise_append.mp ((take_append_drop pqs.length flds).symm ▸ hapart)).2.2
      rw [getD_eq_getElem?_getD, getElem?_eq_none (not_lt.mp hlv), Option.getD_none]
      refine (hshow₁ fld hmemdrop).of_keeps (keeps_bitvToFieldPQs fun fld' hfld' => ?_) hrun₂
      exact sparesPQ_levelView (hcross fld' (mem_reverse.mp hfld') fld hmemdrop)

end Levels

end Fon9.RcMdRts
