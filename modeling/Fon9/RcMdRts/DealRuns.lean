import Mathlib.Algebra.Order.BigOperators.Group.List
import Fon9.RcMdRts.DealPack

/-! The deals of a symbol on the server and at a client that decodes every packet: after each
packet the client's deal is the server's, and every match has been reported. -/

namespace Fon9.RcMdRts

open Lib Bitv Buffer Seed Rts List IntType Option DealFld Function

/-! ### The view behind a packet -/

/-- A report of a match. -/
structure ShowsMatch (rep : RtsTab × DealCells) (pq : PriQty) : Prop where
  tab : rep.1 = .deal
  pri : rep.2 .dealPri = priCell pq.pri
  qty : rep.2 .dealQty = qtyCell pq.qty

namespace DealView

variable {d : DealView} {pack : DealPack} {pq : PriQty} {pqs : List PriQty} {totalQty : Option Qty} {qty : Qty} {x : DealFld}

@[simp] theorem timed_reports : (d.timed pack).reports = d.reports := putOpt_reports ..

@[simp] theorem started_reports : (d.started pack).reports = d.reports := by
  rw [started]
  split_ifs
  · exact putOpt_reports ..
  · rfl

@[simp] theorem counted_reports : (d.counted pack).reports = d.reports := by rw [counted, putOpt_reports, putOpt_reports]

@[simp] theorem deal_reports : (d.deal totalQty pq).reports = d.reports := putOpt_reports ..

theorem deal_pri : (d.deal totalQty pq).cells .dealPri = priCell pq.pri := by
  rw [deal, putOpt_of_ne _ (show dealPri ≠ .totalQty from nofun)]
  rfl

theorem deal_qty : (d.deal totalQty pq).cells .dealQty = qtyCell pq.qty := by
  rw [deal, putOpt_of_ne _ (show dealQty ≠ .totalQty from nofun)]
  rfl

theorem deal_totalQty : (d.deal totalQty pq).cells .totalQty = (addQty totalQty pq).elim (d.cells .totalQty) qtyCell := putOpt_self ..

/-- The other cells stay. -/
theorem deal_of_ne (hpri : x ≠ .dealPri) (hqty : x ≠ .dealQty) (htotal : x ≠ .totalQty) :
    (d.deal totalQty pq).cells x = d.cells x := by
  rw [deal, putOpt_of_ne _ htotal]
  show update (update d.cells _ _) _ _ x = _
  rw [update_of_ne hqty, update_of_ne hpri]

theorem deals_of_ne (hpri : x ≠ .dealPri) (hqty : x ≠ .dealQty) (htotal : x ≠ .totalQty) :
    (d.deals totalQty pqs).cells x = d.cells x := by
  induction pqs generalizing d totalQty with
  | nil => rfl
  | cons pq pqs ih =>
    rw [deals, ih]
    exact deal_of_ne hpri hqty htotal

/-- A calculated packet leaves the total. -/
theorem deals_none : (d.deals none pqs).cells .totalQty = d.cells .totalQty := by
  induction pqs generalizing d with
  | nil => rfl
  | cons pq pqs ih =>
    have hdeal : (d.deal none pq).cells .totalQty = d.cells .totalQty := deal_totalQty
    exact ih.trans hdeal

theorem deals_reports (totalQty : Option Qty) (pqs : List PriQty) (d : DealView) : ∃ reps,
    (d.deals totalQty pqs).reports = d.reports ++ reps ∧ List.Forall₂ ShowsMatch reps pqs := by
  induction pqs generalizing d totalQty with
  | nil => exact ⟨[], (append_nil _).symm, .nil⟩
  | cons pq pqs ih =>
    obtain ⟨reps, hreps, hshows⟩ : ∃ reps, ((d.deal totalQty pq).report.deals (addQty totalQty pq) pqs).reports =
        (d.deal totalQty pq).report.reports ++ reps ∧ List.Forall₂ ShowsMatch reps pqs := ih _ _
    refine ⟨(.deal, (d.deal totalQty pq).cells) :: reps, ?_, .cons ⟨rfl, deal_pri, deal_qty⟩ hshows⟩
    rw [deals, hreps, report, deal_reports, append_assoc]
    rfl

/-- What is not of the cells. -/
def note (d : DealView) : DayTime × IntType.uint64.Val := (d.infoTime, d.rtMktSeq)

@[simp] theorem report_note : d.report.note = d.note := rfl

theorem putOpt_note {α : Type} (d : DealView) (x : DealFld) (cell : α → Bytes) (o : Option α) :
    (d.putOpt x cell o).note = d.note := by cases o <;> rfl

@[simp] theorem deal_note : (d.deal totalQty pq).note = d.note := putOpt_note ..

@[simp] theorem deals_note : (d.deals totalQty pqs).note = d.note := by
  induction pqs generalizing d totalQty with
  | nil => rfl
  | cons pq pqs ih => rw [deals, ih, report_note, deal_note]

@[simp] theorem timed_note : (d.timed pack).note = d.note := putOpt_note ..

@[simp] theorem started_note : (d.started pack).note = d.note := by
  rw [started]
  split_ifs
  · exact putOpt_note ..
  · rfl

@[simp] theorem counted_note : (d.counted pack).note = d.note := by rw [counted, putOpt_note, putOpt_note]

@[simp] theorem behind_note : (d.behind pack qty).note = d.note := by simp [behind]

theorem counted_of_ne (hbuy : x ≠ .dealBuyCnt) (hsell : x ≠ .dealSellCnt) : (d.counted pack).cells x = d.cells x := by
  rw [counted, putOpt_of_ne _ hsell, putOpt_of_ne _ hbuy]

theorem started_of_ne (htotal : x ≠ .totalQty) : (d.started pack).cells x = d.cells x := by
  rw [started]
  split_ifs
  · exact putOpt_of_ne _ htotal
  · rfl

@[simp] theorem report_cells : d.report.cells = d.cells := rfl

theorem behind_pri : (d.behind pack qty).cells .dealPri = priCell (pack.deals.getLast (cons_ne_nil _ _)).pri := by
  rw [behind, report_cells, counted_of_ne (x := .dealPri) nofun nofun, deal_pri]

theorem behind_qty : (d.behind pack qty).cells .dealQty = qtyCell (pack.deals.getLast (cons_ne_nil _ _)).qty := by
  rw [behind, report_cells, counted_of_ne (x := .dealQty) nofun nofun, deal_qty]

theorem foldl_addQty (pqs : List PriQty) (qty : Qty) :
    pqs.foldl addQty (some qty) = some (uint64.cast (qty.1 + (pqs.map fun pq => pq.qty.1).sum)) := by
  induction pqs generalizing qty with
  | nil => rw [foldl_nil, map_nil, sum_nil, add_zero, cast_val]
  | cons pq pqs ih =>
    have hwrap : ∀ a b : ℤ, uint64.wrap (uint64.wrap a + b) = uint64.wrap (a + b) := by
      simp [wrap, isSigned, IntType.size]
    rw [foldl_cons, addQty, map_some, ih, map_cons, sum_cons, ← add_assoc]
    exact congrArg some (Subtype.ext (hwrap _ _))

/-- Every match is reported, in its order. -/
theorem behind_reports : ∃ reps, (d.behind pack qty).reports = d.reports ++ reps ∧ List.Forall₂ ShowsMatch reps pack.deals := by
  have hsplit : pack.deals.dropLast ++ [pack.deals.getLast (cons_ne_nil _ _)] = pack.deals :=
    dropLast_append_getLast (cons_ne_nil _ _)
  obtain ⟨reps, hreps, hshows⟩ := deals_reports (pack.addTo qty) pack.deals.dropLast ((d.timed pack).started pack)
  rw [started_reports, timed_reports] at hreps
  refine ⟨reps ++ [(.deal, (d.behind pack qty).cells)], ?_, ?_⟩
  · rw [behind, report, counted_reports, deal_reports, hreps, append_assoc]
  · have hlast : ShowsMatch (.deal, (d.behind pack qty).cells) (pack.deals.getLast (cons_ne_nil _ _)) :=
      ⟨rfl, behind_pri, behind_qty⟩
    have hall : List.Forall₂ ShowsMatch (reps ++ [(.deal, (d.behind pack qty).cells)]) (pack.deals.dropLast ++ [_]) :=
      rel_append hshows (.cons hlast .nil)
    rwa [hsplit] at hall

theorem behind_dealTime : (d.behind pack qty).cells .dealTime =
    pack.dealTime.elim (d.cells .dealTime) fun time => timeCell (if time = dayTimeNull then d.infoTime else time) := by
  rw [behind, report_cells, counted_of_ne (x := .dealTime) nofun nofun, deal_of_ne (x := .dealTime) nofun nofun nofun,
    deals_of_ne (x := .dealTime) nofun nofun nofun, started_of_ne (x := .dealTime) nofun, timed, putOpt_self]

theorem counted_buyCnt : (d.counted pack).cells .dealBuyCnt =
    pack.buyCnt.elim (d.cells .dealBuyCnt) fun cnt => qtyCell (uint64.cast cnt.1) := by
  rw [counted, putOpt_of_ne _ (show dealBuyCnt ≠ .dealSellCnt from fun h => by cases h), putOpt_self]

theorem counted_sellCnt : (d.counted pack).cells .dealSellCnt =
    pack.sellCnt.elim (d.cells .dealSellCnt) fun cnt => qtyCell (uint64.cast cnt.1) := by
  rw [counted, putOpt_self, putOpt_of_ne _ (show dealSellCnt ≠ .dealBuyCnt from fun h => by cases h)]

theorem behind_buyCnt : (d.behind pack qty).cells .dealBuyCnt =
    pack.buyCnt.elim (d.cells .dealBuyCnt) fun cnt => qtyCell (uint64.cast cnt.1) := by
  rw [behind, report_cells, counted_buyCnt, deal_of_ne (x := .dealBuyCnt) (fun h => by cases h) (fun h => by cases h) (fun h => by cases h),
    deals_of_ne (x := .dealBuyCnt) (fun h => by cases h) (fun h => by cases h) (fun h => by cases h), started_of_ne (x := .dealBuyCnt) (fun h => by cases h), timed,
    putOpt_of_ne _ (show dealBuyCnt ≠ .dealTime from fun h => by cases h)]

theorem behind_sellCnt : (d.behind pack qty).cells .dealSellCnt =
    pack.sellCnt.elim (d.cells .dealSellCnt) fun cnt => qtyCell (uint64.cast cnt.1) := by
  rw [behind, report_cells, counted_sellCnt, deal_of_ne (x := .dealSellCnt) (fun h => by cases h) (fun h => by cases h) (fun h => by cases h),
    deals_of_ne (x := .dealSellCnt) (fun h => by cases h) (fun h => by cases h) (fun h => by cases h), started_of_ne (x := .dealSellCnt) (fun h => by cases h), timed,
    putOpt_of_ne _ (show dealSellCnt ≠ .dealTime from fun h => by cases h)]

/-- The total of a calculated packet is the one that it says. -/
theorem behind_totalQty_calculated (hcalc : pack.isCalculated = true) : (d.behind pack qty).cells .totalQty =
    pack.totalQty.elim (d.cells .totalQty) fun base => qtyCell (uint64.cast base.1) := by
  have hnone : ∀ pqs : List PriQty, pqs.foldl addQty none = none := fun pqs => by
    induction pqs with
    | nil => rfl
    | cons pq pqs ih => exact ih
  rw [behind, DealPack.addTo, if_pos hcalc, hnone, report_cells, counted_of_ne (x := .totalQty) (fun h => by cases h) (fun h => by cases h), deal_totalQty,
    addQty, map_none, elim_none, deals_none, started, if_pos hcalc, putOpt_self, timed,
    putOpt_of_ne _ (show totalQty ≠ .dealTime from fun h => by cases h)]
  cases pack.totalQty <;> rfl

/-- The total of any other packet is what the matches add to. -/
theorem behind_totalQty (hcalc : pack.isCalculated = false) : (d.behind pack qty).cells .totalQty =
    qtyCell (uint64.cast ((baseOf pack qty).1 + (pack.deals.map fun pq => pq.qty.1).sum)) := by
  have hsplit : pack.deals.dropLast ++ [pack.deals.getLast (cons_ne_nil _ _)] = pack.deals :=
    dropLast_append_getLast (cons_ne_nil _ _)
  have hfold : addQty (pack.deals.dropLast.foldl addQty (some (baseOf pack qty))) (pack.deals.getLast (cons_ne_nil _ _)) =
      pack.deals.foldl addQty (some (baseOf pack qty)) := by
    conv_rhs => rw [← hsplit, foldl_append]
    rfl
  rw [behind, DealPack.addTo, hcalc, if_neg Bool.false_ne_true, report_cells, counted_of_ne (x := .totalQty) (fun h => by cases h) (fun h => by cases h),
    deal_totalQty, hfold, foldl_addQty, elim_some]

end DealView

/-! ### A packet -/

/-- The decoder goes on with a packet of this number: only data of one symbol is compared, and
zero is newer than any number. -/
def IsNewerThan (ctrlFlags : MdSymbsCtrlFlag) (rx : RxNotify) (rtMktSeq : IntType.uint64.Val) (seq : IntType.uint32.Val) : Prop :=
  ctrlFlags.hasMarketDataSeq → rx.isStreamData → ¬ rx.isSubrTree → rtMktSeq.1 < seq.1 ∨ seq.1 = 0

/-- The last number behind a packet. -/
def nextMktSeq (ctrlFlags : MdSymbsCtrlFlag) (rx : RxNotify) (rtMktSeq : IntType.uint64.Val) (seq : IntType.uint32.Val) :
    IntType.uint64.Val :=
  if ctrlFlags.hasMarketDataSeq ∧ rx.isStreamData ∧ ¬ rx.isSubrTree then IntType.uint64.cast seq.1 else rtMktSeq

section Packet

variable {tf : TabFields} {rx : RxNotify} {ctrlFlags : MdSymbsCtrlFlag} {d : DealView} {rest : Bytes}
  (htab : tf.IsDealOfServer ctrlFlags)

include htab

theorem isFldMktSeqNewer_does {seq : uint32.Val} (hnewer : IsNewerThan ctrlFlags rx d.rtMktSeq seq) :
    Does tf rx (packMktSeq ctrlFlags seq rest) d (isFldMktSeqNewer rx .deal (tf.fldDeal .mktSeq)) true rest
      { d with rtMktSeq := nextMktSeq ctrlFlags rx d.rtMktSeq seq } := by
  rw [packMktSeq, isFldMktSeqNewer, htab.mktSeq, nextMktSeq]
  by_cases hseq : ctrlFlags.hasMarketDataSeq
  · have hsome : (tf.fldDeal .mktSeq).isSome := htab.mktSeq.trans hseq
    have hput : ∀ d : DealView, Does tf rx rest d
        (putNumber .deal (tf.fldDeal .mktSeq) (signedCast (uint64.cast seq.1)) 0) () rest d :=
      fun d => Does.putOther htab nofun hsome ⟨_, rfl⟩
    have hread : Does tf rx ((intToBitv .uint32 seq.1).text ++ rest) d readUInt64 (uint64.cast seq.1) rest d :=
      Does.popReads (md_reads seq)
    rw [if_pos hseq, if_pos hseq]
    refine Does.bind hread ?_
    by_cases hone : rx.isStreamData ∧ ¬ rx.isSubrTree
    · rw [if_pos hone, if_pos ⟨hseq, hone⟩]
      refine Does.bind Does.getRtMktSeq ?_
      have hcond : d.rtMktSeq.1 < (uint64.cast seq.1).1 ∨ (uint64.cast seq.1).1 = 0 := by
        rw [qty_cast]
        exact hnewer hseq hone.1 hone.2
      rw [if_pos hcond]
      exact Does.bind (Does.setRtMktSeq _) (Does.bind (hput _) (Does.pure true))
    · rw [if_neg hone, if_neg fun h => hone h.2]
      exact Does.bind (hput d) (Does.pure true)
  · rw [if_neg hseq, if_neg hseq, if_neg fun h => hseq h.1]
    exact Does.pure true

theorem decodeDealPack_does {origDiv : ℕ} {data : SymbDealData} {pk : ExgMcI024}
    (hnewer : IsNewerThan ctrlFlags rx d.rtMktSeq pk.prodMsgSeq) (hcell : d.cells .totalQty = qtyCell data.totalQty) :
    ∃ dealFlags, Does tf rx (pk.rts ctrlFlags origDiv data) d (decodeDealPack tf rx) dealFlags []
      (DealView.behind { d with rtMktSeq := nextMktSeq ctrlFlags rx d.rtMktSeq pk.prodMsgSeq } (pk.dealPack origDiv data)
        data.totalQty) := by
  have hlen : (pk.dealPack origDiv data).others.length < 256 := by
    have hle := pk.matchData_le
    rw [ExgMcI024.dealPack, length_map]
    omega
  obtain ⟨dealFlags, hnew⟩ : ∃ dealFlags, Does tf rx _ { d with rtMktSeq := nextMktSeq ctrlFlags rx d.rtMktSeq pk.prodMsgSeq }
      (decodeNewDealPack tf rx) dealFlags [] _ := decodeNewDealPack_does htab pk.channelSeq hlen hcell
  exact ⟨dealFlags, Does.bind (isFldMktSeqNewer_does htab hnewer) hnew⟩

/-- The time of a packet is the last one where it is null. -/
theorem decodeStreamRx_does (others : UInt8 → Decoder Unit) {time : DayTime} {origDiv : ℕ} {data : SymbDealData} {pk : ExgMcI024}
    (hnewer : IsNewerThan ctrlFlags rx d.rtMktSeq pk.prodMsgSeq) (hcell : d.cells .totalQty = qtyCell data.totalQty) :
    Does tf rx (rtsPackType_DealPack :: dayTimeToBitv time ++ pk.rts ctrlFlags origDiv data) d (decodeStreamRx tf rx others) () []
      (DealView.behind
        { d with
          infoTime := if time = dayTimeNull then d.infoTime else time
          rtMktSeq := nextMktSeq ctrlFlags rx d.rtMktSeq pk.prodMsgSeq } (pk.dealPack origDiv data) data.totalQty) := by
  have htime : Does tf rx (dayTimeToBitv time ++ pk.rts ctrlFlags origDiv data) d (readInfoTime rx) ()
      (pk.rts ctrlFlags origDiv data) { d with infoTime := if time = dayTimeNull then d.infoTime else time } :=
    Does.bind Does.seInfoTime (Does.bind (Does.popReads (bitvToDayTimeOrUnchange_reads d.infoTime)) (Does.setInfoTime _))
  obtain ⟨dealFlags, hpack⟩ : ∃ dealFlags, Does tf rx _ { d with infoTime := if time = dayTimeNull then d.infoTime else time }
      (decodeDealPack tf rx) dealFlags [] _ := decodeDealPack_does htab hnewer hcell
  refine Does.bind Does.readByte ?_
  rw [if_pos rfl]
  exact Does.bind htime (Does.bind hpack (Does.pure ()))

end Packet

/-! ### The deal of the server and of the client -/

/-- The cells of the server's deal. -/
def SymbDealData.cell (data : SymbDealData) : DealFld → Bytes
  | .dealTime => timeCell data.dealTime
  | .dealPri => priCell data.deal.pri
  | .dealQty => qtyCell data.deal.qty
  | .totalQty => qtyCell data.totalQty
  | .dealBuyCnt => qtyCell data.dealBuyCnt
  | .dealSellCnt => qtyCell data.dealSellCnt
  | _ => []

/-- The fields that a packet may leave as they are. -/
def keptFields : List DealFld := [.dealTime, .totalQty, .dealBuyCnt, .dealSellCnt]

/-- A calculated message has no total, and that of any other is at least what was matched. -/
def ExgMcI024.IsGood (pk : ExgMcI024) : Prop :=
  if pk.calculatedFlag = '1' then pk.matchTotalQty.1 = 0 else pk.sumQty ≤ pk.matchTotalQty.1

/-- The client can read the next packet of the stream. -/
structure InStep (d : DealView) (data : SymbDealData) (stream : MdRtStream) : Prop where
  infoTime : stream.infoTimeKind = mdRtsKind_Deal → d.infoTime = stream.infoTime
  cells : ∀ x ∈ keptFields, d.cells x = data.cell x

section Step

variable {d : DealView} {data : SymbDealData} {stream : MdRtStream} {pk : ExgMcI024} {origDiv : ℕ}

theorem elim_ifChanged {dst : Qty} {src : MdQty} :
    (ifChanged dst src).elim (qtyCell dst) (fun cnt => qtyCell (uint64.cast cnt.1)) =
      qtyCell (uint64.cast src.1) := by
  rw [ifChanged]
  by_cases h : dst.1 = src.1
  · rw [if_pos h, elim_none, ← h, cast_val]
  · rw [if_neg h, elim_some]

theorem baseOf_ifChanged {dst : Qty} {src : MdQty} :
    ((ifChanged dst src).map fun base => uint64.cast base.1).getD dst = uint64.cast src.1 := by
  rw [ifChanged]
  by_cases h : dst.1 = src.1
  · rw [if_pos h, map_none, getD_none, ← h, cast_val]
  · rw [if_neg h, map_some, getD_some]

theorem sum_deals (pk : ExgMcI024) : ((pk.dealPack origDiv data).deals.map fun pq => pq.qty.1).sum = pk.sumQty := by
  have hdeals : (pk.dealPack origDiv data).deals = (pk.firstMatch :: pk.matchData).map fun md => md.priQty origDiv := rfl
  rw [hdeals, List.map_map, ExgMcI024.sumQty]
  refine congrArg List.sum (map_congr_left fun md _ => ?_)
  exact qty_cast md.matchQty

theorem sumQty_nonneg (pk : ExgMcI024) : 0 ≤ pk.sumQty := by
  apply sum_nonneg
  intro qty hqty
  obtain ⟨md, -, rfl⟩ := mem_map.mp hqty
  exact md.matchQty.2.1

/-- What the matches are added to makes them the total. -/
theorem baseQty_add (hgood : pk.IsGood) (hcalc : pk.calculatedFlag ≠ '1') :
    uint64.cast ((uint64.cast pk.baseQty.1).1 + pk.sumQty) = uint64.cast pk.matchTotalQty.1 := by
  rw [ExgMcI024.IsGood, if_neg hcalc] at hgood
  have hbase : pk.baseQty.1 = pk.matchTotalQty.1 - pk.sumQty := by
    rw [ExgMcI024.baseQty, if_neg hcalc]
    exact wrap_of_mem ⟨sub_nonneg.mpr hgood, (sub_le_self _ (sumQty_nonneg pk)).trans pk.matchTotalQty.2.2⟩
  rw [qty_cast, hbase, sub_add_cancel]

/-- The cells of the deal behind a packet that came with the time of its message. -/
theorem behind_cell (hcells : ∀ x ∈ keptFields, d.cells x = data.cell x) (htime : d.infoTime = pk.informationTime)
    (hgood : pk.IsGood) (ctrlFlags : MdSymbsCtrlFlag) {x : DealFld} (hof : x.IsOfDeal) :
    (d.behind (pk.dealPack origDiv data) data.totalQty).cells x = (pk.toDealData ctrlFlags origDiv data).cell x := by
  cases x with
  | dealTime =>
    rw [DealView.behind_dealTime, hcells .dealTime (by decide)]
    show _ = timeCell pk.matchTime
    rw [ExgMcI024.dealPack]
    by_cases hchanged : pk.matchTime ≠ data.dealTime
    · rw [if_pos hchanged, elim_some, htime]
      by_cases hinfo : pk.matchTime = pk.informationTime
      · rw [if_pos hinfo, if_pos rfl, hinfo]
      · rw [if_neg hinfo, if_neg pk.matchTime_ne]
    · rw [if_neg hchanged, elim_none, not_ne_iff.mp hchanged]
      rfl
  | dealPri => exact DealView.behind_pri
  | dealQty => exact DealView.behind_qty
  | totalQty =>
    show _ = qtyCell (uint64.cast pk.matchTotalQty.1)
    by_cases hcalc : pk.calculatedFlag = '1'
    · rw [DealView.behind_totalQty_calculated (decide_eq_true hcalc), hcells .totalQty (by decide)]
      show (ifChanged data.totalQty pk.baseQty).elim (qtyCell data.totalQty) _ = _
      rw [elim_ifChanged, ExgMcI024.baseQty, if_pos hcalc]
      rw [ExgMcI024.IsGood, if_pos hcalc] at hgood
      rw [hgood]
      rfl
    · have hbase : baseOf (pk.dealPack origDiv data) data.totalQty = uint64.cast pk.baseQty.1 := baseOf_ifChanged
      rw [DealView.behind_totalQty (decide_eq_false hcalc), sum_deals, hbase, baseQty_add hgood hcalc]
  | dealBuyCnt =>
    rw [DealView.behind_buyCnt, hcells .dealBuyCnt (by decide)]
    show (ifChanged data.dealBuyCnt pk.matchBuyCnt).elim (qtyCell data.dealBuyCnt) _ = _
    exact elim_ifChanged
  | dealSellCnt =>
    rw [DealView.behind_sellCnt, hcells .dealSellCnt (by decide)]
    exact elim_ifChanged
  | _ => cases hof

end Step

/-! ### Runs -/

section Runs

variable (tf : TabFields) (rx : RxNotify) (others : UInt8 → Decoder Unit) (ctrlFlags : MdSymbsCtrlFlag) (origDiv : ℕ)

/-- The cell of a field of the client's deal holds what the server has. -/
def HoldsDeal (s : RxState) (data : SymbDealData) (x : DealFld) : Prop :=
  ∃ f, tf.fldDeal x = some f ∧ s.bytesAt .deal f = data.cell x

/-- A report of the deals with the price and the quantity of a match. -/
structure ReportsMatch (rep : RtsTab × Bytes) (pq : PriQty) : Prop where
  tab : rep.1 = .deal
  pri : ∃ f, tf.fldDeal .dealPri = some f ∧ f.bytesAt rep.2 = priCell pq.pri
  qty : ∃ f, tf.fldDeal .dealQty = some f ∧ f.bytesAt rep.2 = qtyCell pq.qty

/-- Message by message, the client decodes the packet of the server, reports every match, and
has the deal that the server has. -/
def FollowsDeals : SymbDealData → MdRtStream → RxState → List ExgMcI024 → Prop
  | _, _, _, [] => True
  | data, stream, s, pk :: pks =>
    let (data, stream, rts) := i024MatchParserToRts ctrlFlags origDiv data stream pk
    ∃ s' reps, decodeStreamRx tf rx others { s with rxbuf := rts } = .ok () s' ∧ s'.reports = s.reports ++ reps ∧
      List.Forall₂ (ReportsMatch tf) reps (pk.deals origDiv) ∧ (∀ x : DealFld, x.IsOfDeal → HoldsDeal tf s' data x) ∧
      FollowsDeals data stream s' pks

/-- The numbers of messages that the decoder goes on with. -/
def NumbersRise : IntType.uint64.Val → List ExgMcI024 → Prop
  | _, [] => True
  | rtMktSeq, pk :: pks =>
    IsNewerThan ctrlFlags rx rtMktSeq pk.prodMsgSeq ∧ NumbersRise (nextMktSeq ctrlFlags rx rtMktSeq pk.prodMsgSeq) pks

end Runs

section Follows

variable {tf : TabFields} {rx : RxNotify} {others : UInt8 → Decoder Unit} {ctrlFlags : MdSymbsCtrlFlag} {origDiv : ℕ}
  {s : RxState} {data : SymbDealData} {stream : MdRtStream} {pk : ExgMcI024}

theorem holdsDeal_iff (rx : RxNotify) (htab : tf.IsDealOfServer ctrlFlags) {x : DealFld} (hof : x.IsOfDeal) :
    HoldsDeal tf s data x ↔ (dealView tf rx s).cells x = data.cell x := by
  obtain ⟨f, hf⟩ := isSome_iff_exists.mp (htab.isSome x (.inl hof))
  have hcell : (dealView tf rx s).cells x = s.bytesAt .deal f := by
    show dealCells tf _ x = _
    rw [dealCells, if_pos hof, hf, elim_some]
    rfl
  rw [hcell]
  constructor
  · rintro ⟨g, hg, hbytes⟩
    obtain rfl : f = g := Option.some.inj (hf.symm.trans hg)
    exact hbytes
  · exact fun h => ⟨f, hf, h⟩

theorem followsDeals_cons {pks : List ExgMcI024} : FollowsDeals tf rx others ctrlFlags origDiv data stream s (pk :: pks) ↔
    ∃ s' reps, decodeStreamRx tf rx others { s with rxbuf := (i024MatchParserToRts ctrlFlags origDiv data stream pk).2.2 } = .ok () s' ∧
      s'.reports = s.reports ++ reps ∧ List.Forall₂ (ReportsMatch tf) reps (pk.deals origDiv) ∧
      (∀ x : DealFld, x.IsOfDeal → HoldsDeal tf s' (pk.toDealData ctrlFlags origDiv data) x) ∧
      FollowsDeals tf rx others ctrlFlags origDiv (pk.toDealData ctrlFlags origDiv data)
        (i024MatchParserToRts ctrlFlags origDiv data stream pk).2.1 s' pks := by
  have hdata : (i024MatchParserToRts ctrlFlags origDiv data stream pk).1 = pk.toDealData ctrlFlags origDiv data := by
    rw [i024MatchParserToRts_eq]
  rw [← hdata]
  exact Iff.rfl

/-- A report whose cells show a match. -/
theorem ShowsMatch.reports (htab : tf.IsDealOfServer ctrlFlags) {rep : RtsTab × Bytes} {pq : PriQty}
    (h : ShowsMatch (rep.1, dealCells tf rep.2) pq) : ReportsMatch tf rep pq := by
  obtain ⟨f, hf⟩ := isSome_iff_exists.mp (htab.isSome .dealPri (.inl rfl))
  obtain ⟨g, hg⟩ := isSome_iff_exists.mp (htab.isSome .dealQty (.inl rfl))
  have hpri : dealCells tf rep.2 .dealPri = priCell pq.pri := h.pri
  have hqty : dealCells tf rep.2 .dealQty = qtyCell pq.qty := h.qty
  rw [dealCells, if_pos (show dealPri.IsOfDeal = true from rfl), hf] at hpri
  rw [dealCells, if_pos (show dealQty.IsOfDeal = true from rfl), hg] at hqty
  exact ⟨h.tab, ⟨f, hf, hpri⟩, ⟨g, hg, hqty⟩⟩

/-- The packet has its time, or null where the client knows it; the stream keeps the time. -/
theorem InStep.publish {d : DealView} (h : InStep d data stream) (pk : ExgMcI024) (rts : Bytes) : ∃ time,
    (stream.publish rtsPackType_DealPack mdRtsKind_Deal pk.informationTime rts).2 =
      rtsPackType_DealPack :: dayTimeToBitv time ++ rts ∧
    (if time = dayTimeNull then d.infoTime else time) = pk.informationTime ∧
    (stream.publish rtsPackType_DealPack mdRtsKind_Deal pk.informationTime rts).1.infoTime = pk.informationTime := by
  obtain ⟨hrepeats, hpublish⟩ | ⟨-, hpublish⟩ :=
    stream.publish_cases rtsPackType_DealPack mdRtsKind_Deal pk.informationTime rts
  · obtain ⟨hkind, htime⟩ : stream.Repeats mdRtsKind_Deal pk.informationTime := hrepeats.resolve_right pk.informationTime_ne
    rw [hpublish]
    refine ⟨dayTimeNull, rfl, ?_, htime⟩
    rw [if_pos rfl, h.infoTime hkind, htime]
  · rw [hpublish]
    exact ⟨pk.informationTime, rfl, if_neg pk.informationTime_ne, rfl⟩

/-- The view behind the packet of a message. -/
def DealView.next (d : DealView) (rx : RxNotify) (ctrlFlags : MdSymbsCtrlFlag) (origDiv : ℕ) (data : SymbDealData) (pk : ExgMcI024) :
    DealView :=
  DealView.behind { d with infoTime := pk.informationTime, rtMktSeq := nextMktSeq ctrlFlags rx d.rtMktSeq pk.prodMsgSeq }
    (pk.dealPack origDiv data) data.totalQty

/-- What the decoder makes of the packet of a message, where the client is in step. -/
theorem InStep.decodes {d : DealView} (h : InStep d data stream) (htab : tf.IsDealOfServer ctrlFlags)
    (hnewer : IsNewerThan ctrlFlags rx d.rtMktSeq pk.prodMsgSeq) (others : UInt8 → Decoder Unit) (origDiv : ℕ) :
    Does tf rx (i024MatchParserToRts ctrlFlags origDiv data stream pk).2.2 d (decodeStreamRx tf rx others) () []
      (d.next rx ctrlFlags origDiv data pk) := by
  obtain ⟨time, hrts, htime, -⟩ := h.publish pk (pk.rts ctrlFlags origDiv data)
  have hread : Does tf rx (rtsPackType_DealPack :: dayTimeToBitv time ++ pk.rts ctrlFlags origDiv data) d _ () [] _ :=
    decodeStreamRx_does htab others hnewer (h.cells .totalQty (by decide))
  rw [htime] at hread
  rw [i024MatchParserToRts_eq, hrts]
  exact hread

/-- The client has what the server has, and is in step again. -/
theorem InStep.step {d : DealView} (h : InStep d data stream) (hgood : pk.IsGood) (rx : RxNotify) (ctrlFlags : MdSymbsCtrlFlag)
    (origDiv : ℕ) :
    (∀ x : DealFld, x.IsOfDeal →
      (d.next rx ctrlFlags origDiv data pk).cells x = (pk.toDealData ctrlFlags origDiv data).cell x) ∧
    InStep (d.next rx ctrlFlags origDiv data pk) (pk.toDealData ctrlFlags origDiv data)
      (i024MatchParserToRts ctrlFlags origDiv data stream pk).2.1 := by
  obtain ⟨-, -, -, hstream⟩ := h.publish pk (pk.rts ctrlFlags origDiv data)
  let d₁ : DealView :=
    { d with infoTime := pk.informationTime, rtMktSeq := nextMktSeq ctrlFlags rx d.rtMktSeq pk.prodMsgSeq }
  have hcells : ∀ x : DealFld, x.IsOfDeal →
      (d.next rx ctrlFlags origDiv data pk).cells x = (pk.toDealData ctrlFlags origDiv data).cell x :=
    fun x hof => behind_cell (d := d₁) h.cells rfl hgood ctrlFlags hof
  have hkept : ∀ x ∈ keptFields, x.IsOfDeal := by decide
  have hnote : (d.next rx ctrlFlags origDiv data pk).note = d₁.note := DealView.behind_note
  rw [i024MatchParserToRts_eq]
  exact ⟨hcells, fun _ => (congrArg Prod.fst hnote).trans hstream.symm, fun x hx => hcells x (hkept x hx)⟩

/-- From a client that is in step, by induction over the messages. -/
theorem InStep.follows (htab : tf.IsDealOfServer ctrlFlags) {pks : List ExgMcI024} (hsized : DealSized tf s)
    (h : InStep (dealView tf rx s) data stream) (hrise : NumbersRise rx ctrlFlags s.rtMktSeq pks) (hgood : ∀ pk ∈ pks, pk.IsGood) :
    FollowsDeals tf rx others ctrlFlags origDiv data stream s pks := by
  induction pks generalizing data stream s with
  | nil => trivial
  | cons pk pks ih =>
    obtain ⟨hnewer, hrise⟩ := hrise
    obtain ⟨hcells, hstep⟩ := h.step (hgood pk mem_cons_self) rx ctrlFlags origDiv
    obtain ⟨reps, hreps, hshows⟩ : ∃ reps, ((dealView tf rx s).next rx ctrlFlags origDiv data pk).reports =
        (dealView tf rx s).reports ++ reps ∧ List.Forall₂ ShowsMatch reps (pk.deals origDiv) := DealView.behind_reports
    have hseq : ((dealView tf rx s).next rx ctrlFlags origDiv data pk).rtMktSeq = nextMktSeq ctrlFlags rx s.rtMktSeq pk.prodMsgSeq :=
      congrArg Prod.snd DealView.behind_note
    let rts := (i024MatchParserToRts ctrlFlags origDiv data stream pk).2.2
    obtain ⟨s', hrun, hsized', -, hview, new, hnew⟩ := h.decodes htab hnewer others origDiv { s with rxbuf := rts } hsized rfl rfl
    rw [← hview] at hcells hstep hreps hseq
    have hmap : new.map (fun rep => (rep.1, dealCells tf rep.2)) = reps := by
      have hall : s'.reports.map (fun rep => (rep.1, dealCells tf rep.2)) =
          s.reports.map (fun rep => (rep.1, dealCells tf rep.2)) ++ reps := hreps
      rw [← hnew, map_append] at hall
      exact append_cancel_left hall
    rw [← hmap, forall₂_map_left_iff] at hshows
    have hseq' : s'.rtMktSeq = nextMktSeq ctrlFlags rx s.rtMktSeq pk.prodMsgSeq := hseq
    rw [← hseq'] at hrise
    refine followsDeals_cons.mpr ⟨s', new, hrun, hnew.symm, hshows.imp fun rep pq h => h.reports htab, fun x hof => ?_, ?_⟩
    · rw [holdsDeal_iff rx htab hof]
      exact hcells x hof
    · exact ih hsized' hstep hrise fun pk' hpk' => hgood pk' (mem_cons_of_mem _ hpk')

end Follows

theorem deals_follow (tf : TabFields) (rx : RxNotify) (others : UInt8 → Decoder Unit) (ctrlFlags : MdSymbsCtrlFlag) (origDiv : ℕ)
    (data : SymbDealData) (stream : MdRtStream) (s : RxState) (pks : List ExgMcI024) (htab : tf.IsDealOfServer ctrlFlags)
    (hsized : DealSized tf s) (hcells : ∀ x ∈ keptFields, HoldsDeal tf s data x)
    (hinfo : stream.infoTimeKind = mdRtsKind_Deal → s.note.selectInfoTime rx.isStreamData = stream.infoTime)
    (hrise : NumbersRise rx ctrlFlags s.rtMktSeq pks) (hgood : ∀ pk ∈ pks, pk.IsGood) :
    FollowsDeals tf rx others ctrlFlags origDiv data stream s pks := by
  have hkept : ∀ x ∈ keptFields, x.IsOfDeal := by decide
  have hstep : InStep (dealView tf rx s) data stream :=
    ⟨hinfo, fun x hx => (holdsDeal_iff rx htab (hkept x hx)).mp (hcells x hx)⟩
  exact hstep.follows htab hsized hrise hgood

/-! ### A real message, and a calculated one with a total -/

/-- A match of ten at a price of five. -/
def oneMatch (calculatedFlag : Char) (matchTotalQty : MdQty) : ExgMcI024 where
  informationTime := IntType.int64.cast 9
  channelSeq := IntType.uint64.cast 1
  prodMsgSeq := IntType.uint32.cast 1
  calculatedFlag := calculatedFlag
  matchTime := IntType.int64.cast 8
  firstMatch := ⟨⟨'0', 5⟩, IntType.uint32.cast 10⟩
  matchData := []
  matchTotalQty := matchTotalQty
  matchBuyCnt := IntType.uint32.cast 1
  matchSellCnt := IntType.uint32.cast 1
  matchData_le := by decide
  informationTime_ne := by decide
  matchTime_ne := by decide

/-- The deal of a symbol that has had none since midnight. -/
def noDeals : SymbDealData := { dealTime := IntType.int64.cast 0 }

/-- A client of that symbol, with a seed of zeros. -/
def noDealsClient : RxState where
  rxbuf := []
  note := {}
  rtMktSeq := IntType.uint64.cast 0
  seeds _ := List.replicate (twfDealTab true true).dyMemSize 0
  reports := []

theorem holdsDeal_noDeals : ∀ x ∈ keptFields, HoldsDeal (twfTabFields true true) noDealsClient noDeals x := by
  have hkept : ∀ x ∈ keptFields, x.IsOfDeal ∧ x.cls.size = 8 ∧ noDeals.cell x = replicate 8 0 := by
    simp [keptFields, DealFld.IsOfDeal]
    decide
  intro x hx
  obtain ⟨hof, hsize, hcell⟩ := hkept x hx
  obtain ⟨f, hf⟩ := isSome_iff_exists.mp ((isDealOfServer_twf true true).isSome x (.inl hof))
  have hstop : f.stop ≤ (twfDealTab true true).dyMemSize := Tab.stop_le hf
  have hcls : f.cls.size = 8 := by rw [(isDealOfServer_twf true true).cls x f hf, hsize]
  refine ⟨f, hf, ?_⟩
  rw [hcell]
  show segment (replicate _ 0) f.offset f.cls.size = _
  rw [Seed.Field.stop, hcls] at hstop
  rw [Lib.segment, hcls, drop_replicate, take_replicate, min_eq_left (by omega)]

theorem inStep_noDeals : InStep (dealView (twfTabFields true true) ⟨true, false⟩ noDealsClient) noDeals {} := by
  have hkept : ∀ x ∈ keptFields, x.IsOfDeal := by decide
  exact ⟨by decide, fun x hx => (holdsDeal_iff _ (isDealOfServer_twf true true) (hkept x hx)).mp (holdsDeal_noDeals x hx)⟩

/-- A real message whose total is more than what was matched. -/
theorem deals_follow_oneMatch : FollowsDeals (twfTabFields true true) ⟨true, false⟩ (fun _ => pure ()) ⟨true, true⟩ 0 noDeals {}
    noDealsClient [oneMatch '0' (IntType.uint32.cast 30)] := by
  have hgood : (oneMatch '0' (IntType.uint32.cast 30)).IsGood := by
    show (oneMatch '0' (IntType.uint32.cast 30)).sumQty ≤ 30
    decide
  exact deals_follow (twfTabFields true true) ⟨true, false⟩ (fun _ => pure ()) ⟨true, true⟩ 0 noDeals {} noDealsClient
    [oneMatch '0' (IntType.uint32.cast 30)] (isDealOfServer_twf true true) List.length_replicate holdsDeal_noDeals (by decide)
    ⟨fun _ _ _ => .inl (by decide), trivial⟩ (List.forall_mem_singleton.mpr hgood)

/-- The client's total stays zero in a calculated message, whatever total that has. -/
theorem calculatedTotal_wrong :
    ¬ ∀ (tf : TabFields) (rx : RxNotify) (others : UInt8 → Decoder Unit) (ctrlFlags : MdSymbsCtrlFlag) (origDiv : ℕ)
      (data : SymbDealData) (stream : MdRtStream) (s : RxState) (pks : List ExgMcI024), tf.IsDealOfServer ctrlFlags →
      DealSized tf s → (∀ x ∈ keptFields, HoldsDeal tf s data x) →
      (stream.infoTimeKind = mdRtsKind_Deal → s.note.selectInfoTime rx.isStreamData = stream.infoTime) →
      NumbersRise rx ctrlFlags s.rtMktSeq pks → (∀ pk ∈ pks, pk.sumQty ≤ pk.matchTotalQty.1) →
      FollowsDeals tf rx others ctrlFlags origDiv data stream s pks := by
  intro h
  let pk := oneMatch '1' (IntType.uint32.cast 30)
  have htotal : ∀ pk' ∈ [pk], pk'.sumQty ≤ pk'.matchTotalQty.1 := List.forall_mem_singleton.mpr (by decide)
  obtain ⟨s', -, hrun, -, -, hholds, -⟩ := followsDeals_cons.mp (h (twfTabFields true true) ⟨true, false⟩ (fun _ => pure ())
    ⟨true, true⟩ 0 noDeals {} noDealsClient [pk] (isDealOfServer_twf true true) List.length_replicate holdsDeal_noDeals (by decide)
    ⟨fun _ _ _ => .inl (by decide), trivial⟩ htotal)
  have hdoes : Does (twfTabFields true true) ⟨true, false⟩ _ _ _ () [] ((dealView _ _ noDealsClient).next _ _ _ noDeals pk) :=
    inStep_noDeals.decodes (isDealOfServer_twf true true) (fun _ _ _ => .inl (by decide)) (fun _ => pure ()) 0
  obtain ⟨s'', hrun', -, -, hview, -⟩ := hdoes { noDealsClient with rxbuf := _ } List.length_replicate rfl rfl
  obtain rfl : s'' = s' := (EStateM.Result.ok.inj (hrun'.symm.trans hrun)).2
  have hcell := (holdsDeal_iff ⟨true, false⟩ (isDealOfServer_twf true true) rfl).mp (hholds .totalQty rfl)
  have hnone : (pk.dealPack 0 noDeals).totalQty = none := by decide
  rw [hview, DealView.next, DealView.behind_totalQty_calculated rfl, hnone, Option.elim_none] at hcell
  have hzero : noDeals.cell .totalQty = (pk.toDealData ⟨true, true⟩ 0 noDeals).cell .totalQty :=
    (inStep_noDeals.cells .totalQty (by decide)).symm.trans hcell
  exact absurd hzero (by decide)

end Fon9.RcMdRts
