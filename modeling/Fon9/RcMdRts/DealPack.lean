import Fon9.RcMdRts.DealView
import Fon9.RcMdRts.Levels

/-! What the decoder of a deal makes of a packet of the server: it reports every match, and the
cells of the deal become those of the server's deal. -/

namespace Fon9.RcMdRts

open Lib Bitv Buffer Seed Rts List IntType Does Option

/-! ### Cells -/

def qtyCell (qty : Qty) : Bytes := (intCell .uint64 qty).1

def priCell (pri : Pri) : Bytes := (intCell .int64 pri).1

def timeCell (time : DayTime) : Bytes := (intCell .int64 time).1

theorem cast_signedCast (qty : Qty) : uint64.cast (signedCast qty) = qty := by
  obtain ⟨v, hmin, hmax⟩ := qty
  have hzero : 0 ≤ v := hmin
  have hlt : v < 2 ^ 64 := Int.lt_of_le_sub_one hmax
  apply Subtype.ext
  show uint64.wrap (int64.wrap v) = v
  simp only [wrap, isSigned, IntType.size]
  norm_num
  omega

theorem putNumber_qty (qty : Qty) : fieldQty.putNumber (signedCast qty) 0 = .ok (intCell .uint64 qty) := by
  have hput : fieldQty.putNumber (signedCast qty) 0 = .ok (intCell .uint64 (uint64.cast (signedCast qty))) := rfl
  rw [hput, cast_signedCast]

theorem getNumber_qty (qty : Qty) : fieldQty.getNumber 0 0 (intCell .uint64 qty) = .ok (signedCast qty) := by
  have hget : fieldQty.getNumber 0 0 (intCell .uint64 qty) =
      .ok (wrap .int64 (cellInt .uint64 (intCell .uint64 qty)).1) := rfl
  rw [hget, cellInt_intCell]
  rfl

theorem putNumber_time (time : DayTime) : fieldDayTime.putNumber time.1 dayTimeScale = .ok (intCell .int64 time) := by
  have hput : fieldDayTime.putNumber time.1 dayTimeScale = .ok (intCell .int64 (int64.cast time.1)) := rfl
  rw [hput, cast_val]

/-! ### The view behind a packet -/

namespace DealView

variable (d : DealView)

def putOpt {α : Type} (x : DealFld) (cell : α → Bytes) (o : Option α) : DealView := o.elim d fun v => d.put x (cell v)

section PutOpt

variable {α : Type} {x y : DealFld} {cell : α → Bytes} {o : Option α}

theorem putOpt_self : (d.putOpt x cell o).cells x = o.elim (d.cells x) cell := by
  cases o with
  | none => rfl
  | some v => exact Function.update_self ..

theorem putOpt_of_ne (h : y ≠ x) : (d.putOpt x cell o).cells y = d.cells y := by
  cases o with
  | none => rfl
  | some v => exact Function.update_of_ne h ..

@[simp] theorem putOpt_reports : (d.putOpt x cell o).reports = d.reports := by cases o <;> rfl

end PutOpt

end DealView

/-- The total behind a match, where there is one. -/
def addQty (totalQty : Option Qty) (pq : PriQty) : Option Qty := totalQty.map fun qty => IntType.uint64.cast (qty.1 + pq.qty.1)

namespace DealView

/-- The cells of a match. -/
def deal (totalQty : Option Qty) (pq : PriQty) (d : DealView) : DealView :=
  ((d.put .dealPri (priCell pq.pri)).put .dealQty (qtyCell pq.qty)).putOpt .totalQty qtyCell (addQty totalQty pq)

/-- Matches that are reported one by one. -/
def deals (totalQty : Option Qty) : List PriQty → DealView → DealView
  | [], d => d
  | pq :: pqs, d => deals (addQty totalQty pq) pqs (d.deal totalQty pq).report

end DealView

/-- The total that the matches are added to. -/
def baseOf (pack : DealPack) (qty : Qty) : Qty := (pack.totalQty.map fun base => IntType.uint64.cast base.1).getD qty

/-- The same, and nothing for a calculated packet. -/
def DealPack.addTo (pack : DealPack) (qty : Qty) : Option Qty := if pack.isCalculated then none else some (baseOf pack qty)

namespace DealView

/-- The cells behind the time of a packet. -/
def timed (pack : DealPack) (d : DealView) : DealView :=
  d.putOpt .dealTime (fun time => timeCell (if time = dayTimeNull then d.infoTime else time)) pack.dealTime

/-- The cells behind the total of a packet. -/
def started (pack : DealPack) (d : DealView) : DealView :=
  if pack.isCalculated then d.putOpt .totalQty qtyCell (pack.totalQty.map fun base => IntType.uint64.cast base.1) else d

/-- The cells behind the counts of a packet. -/
def counted (pack : DealPack) (d : DealView) : DealView :=
  (d.putOpt .dealBuyCnt (fun cnt => qtyCell (IntType.uint64.cast cnt.1)) pack.buyCnt).putOpt .dealSellCnt
    (fun cnt => qtyCell (IntType.uint64.cast cnt.1)) pack.sellCnt

/-- The view behind a packet. -/
def behind (d : DealView) (pack : DealPack) (qty : Qty) : DealView :=
  let lead := pack.deals.dropLast
  let last := pack.deals.getLast (List.cons_ne_nil _ _)
  ((((d.timed pack).started pack).deals (pack.addTo qty) lead).deal (lead.foldl addQty (pack.addTo qty)) last).counted pack |>.report

end DealView

/-! ### The flags -/

theorem isEnumContains_dealFlags : ∀ isCalculated sellCnt buyCnt totalQty dealTime : Bool,
    isEnumContains (dealFlags isCalculated sellCnt buyCnt totalQty dealTime) dealFlag_Calculated = isCalculated ∧
    isEnumContains (dealFlags isCalculated sellCnt buyCnt totalQty dealTime) dealFlag_DealTimeChanged = dealTime ∧
    isEnumContains (dealFlags isCalculated sellCnt buyCnt totalQty dealTime) dealFlag_TotalQtyLost = totalQty ∧
    isEnumContains (dealFlags isCalculated sellCnt buyCnt totalQty dealTime) dealFlag_LmtFlagsChanged = false := by decide

/-- The flags that say which counts come behind the matches. -/
structure CountFlags (pack : DealPack) (flags : UInt8) : Prop where
  buyCnt : isEnumContains flags dealFlag_DealBuyCntChanged = pack.buyCnt.isSome
  sellCnt : isEnumContains flags dealFlag_DealSellCntChanged = pack.sellCnt.isSome

theorem countFlags (pack : DealPack) : CountFlags pack pack.flags ∧
    CountFlags pack (enumMinus pack.flags (dealFlag_TotalQtyLost ||| dealFlag_DealTimeChanged)) := by
  have hall : ∀ isCalculated sellCnt buyCnt totalQty dealTime : Bool,
      isEnumContains (dealFlags isCalculated sellCnt buyCnt totalQty dealTime) dealFlag_DealBuyCntChanged = buyCnt ∧
      isEnumContains (dealFlags isCalculated sellCnt buyCnt totalQty dealTime) dealFlag_DealSellCntChanged = sellCnt ∧
      isEnumContains (enumMinus (dealFlags isCalculated sellCnt buyCnt totalQty dealTime)
        (dealFlag_TotalQtyLost ||| dealFlag_DealTimeChanged)) dealFlag_DealBuyCntChanged = buyCnt ∧
      isEnumContains (enumMinus (dealFlags isCalculated sellCnt buyCnt totalQty dealTime)
        (dealFlag_TotalQtyLost ||| dealFlag_DealTimeChanged)) dealFlag_DealSellCntChanged = sellCnt := by decide
  obtain ⟨hbuy, hsell, hbuy', hsell'⟩ := hall pack.isCalculated pack.sellCnt.isSome pack.buyCnt.isSome pack.totalQty.isSome
    pack.dealTime.isSome
  exact ⟨⟨hbuy, hsell⟩, ⟨hbuy', hsell'⟩⟩

/-! ### The parts of the decoder -/

section Decoder

variable {tf : TabFields} {rx : RxNotify} {ctrlFlags : MdSymbsCtrlFlag} {rest : Bytes} {d : DealView} {pack : DealPack}
  {totalQty : Option Qty}

theorem flags_contains (pack : DealPack) : isEnumContains pack.flags dealFlag_Calculated = pack.isCalculated ∧
    isEnumContains pack.flags dealFlag_DealTimeChanged = pack.dealTime.isSome ∧
    isEnumContains pack.flags dealFlag_TotalQtyLost = pack.totalQty.isSome ∧
    isEnumContains pack.flags dealFlag_LmtFlagsChanged = false := isEnumContains_dealFlags ..

/-- The server's `uint32_t` is read as a quantity. -/
theorem md_reads {nullValue : Qty} (qty : MdQty) :
    Reads Bytes (fun rxbuf => bitvToInt .uint64 rxbuf nullValue) (mdQtyBytes qty) (uint64.cast qty.1) := by
  have hbytes : mdQtyBytes qty = (intToBitv .uint64 (uint64.cast qty.1).1).text := by
    rw [mdQtyBytes, intToBitv_uint32, qty_cast]
  rw [hbytes]
  exact int_reads _ _

variable (htab : tf.IsDealOfServer ctrlFlags)

include htab

theorem putQty_does {fld : DealFld} (hcls : fld.cls = fieldQty) (hof : fld.IsOfDeal) (qty : Qty) :
    Does tf rx rest d (putNumber .deal (tf.fldDeal fld) (signedCast qty) 0) () rest (d.put fld (qtyCell qty)) := by
  have hput : ∃ c : Cell fld.cls.size, fld.cls.putNumber (signedCast qty) 0 = .ok c ∧ c.1 = qtyCell qty := by
    rw [hcls]
    exact ⟨_, putNumber_qty qty, rfl⟩
  obtain ⟨c, hnum, hc⟩ := hput
  rw [← hc]
  exact Does.putNumber htab hof hnum

theorem decodeDealTime_does : Does tf rx (optBytes dayTimeToBitv pack.dealTime ++ rest) d
    (decodeDealTime tf pack.flags d.infoTime) () rest (d.timed pack) := by
  rw [decodeDealTime, (flags_contains pack).2.1, DealView.timed]
  cases pack.dealTime with
  | none => exact Does.pure ()
  | some time =>
    rw [isSome_some, if_pos rfl]
    refine Does.bind (popReads (bitvToDayTimeOrUnchange_reads d.infoTime)) ?_
    exact Does.putNumber htab rfl (putNumber_time _)

theorem decodeTotalQty_does {qty : Qty} (hcell : d.cells .totalQty = qtyCell qty) :
    Does tf rx (optBytes mdQtyBytes pack.totalQty ++ rest) d (decodeTotalQty tf pack.flags)
      (pack.addTo qty) rest (d.started pack) := by
  obtain ⟨hcalc, -, hlost, -⟩ := flags_contains pack
  refine Does.bind (Does.getNumber htab rfl hcell (getNumber_qty qty)) ?_
  dsimp only
  rw [cast_signedCast, hlost, hcalc, DealPack.addTo, baseOf, DealView.started]
  cases pack.totalQty with
  | none =>
    rw [isSome_none, if_neg Bool.false_ne_true]
    cases pack.isCalculated <;> exact Does.pure _
  | some base =>
    rw [isSome_some, if_pos rfl]
    refine Does.bind (popReads (md_reads base)) ?_
    cases pack.isCalculated with
    | false => exact Does.pure _
    | true => exact Does.bind (putQty_does htab rfl rfl _) (Does.pure _)

theorem decodeDealPQ_does (pq : PriQty) :
    Does tf rx (priQtyBytes pq ++ rest) d (decodeDealPQ tf totalQty) (addQty totalQty pq) rest (d.deal totalQty pq) := by
  have hcls : DealFld.dealPri.cls = fieldPri := rfl
  obtain ⟨c, hread, hc⟩ := fieldPri_reads hcls pq rest
  refine Does.bind (Does.bitvToCell htab rfl hread) ?_
  refine Does.bind (Does.readUInt64 pq.qty) ?_
  refine Does.bind (putQty_does htab rfl rfl pq.qty) ?_
  rw [hc]
  cases totalQty with
  | none => exact Does.pure _
  | some qty => exact Does.bind (putQty_does htab rfl rfl _) (Does.pure _)

theorem putFlags_does (dealFlags : UInt8) :
    Does tf rx rest d (putNumber .deal (tf.fldDeal .flags) dealFlags.toNat 0) () rest d :=
  putOther htab nofun (htab.isSome .flags (.inr (.inr rfl))) ⟨_, rfl⟩

theorem decodeDealPQs_does (pqs : List PriQty) : ∀ (totalQty : Option Qty) (d : DealView),
    Does tf rx (pqs.flatMap priQtyBytes ++ rest) d (decodeDealPQs tf pqs.length totalQty) (pqs.foldl addQty totalQty) rest
      (d.deals totalQty pqs) := by
  induction pqs with
  | nil => exact fun totalQty d => Does.pure totalQty
  | cons pq pqs ih =>
    intro totalQty d
    rw [flatMap_cons, append_assoc]
    refine Does.bind (decodeDealPQ_does htab pq) ?_
    exact Does.bind Does.report (ih _ _)

/-- The deals before the last one; the flags that are left say the same of the counts. -/
theorem decodeFirstDeals_does (pqs : List PriQty) (totalQty : Option Qty) : ∃ dealFlags, CountFlags pack dealFlags ∧
    Does tf rx (pqs.flatMap priQtyBytes ++ rest) d (decodeFirstDeals tf pack.flags pqs.length totalQty)
      (dealFlags, pqs.foldl addQty totalQty) rest (d.deals totalQty pqs) := by
  obtain ⟨hall, hless⟩ := countFlags pack
  cases pqs with
  | nil => exact ⟨_, hall, Does.pure _⟩
  | cons pq pqs =>
    refine ⟨_, hless, ?_⟩
    rw [flatMap_cons, append_assoc, length_cons, decodeFirstDeals]
    refine Does.bind (putFlags_does htab _) ?_
    refine Does.bind (decodeDealPQ_does htab pq) ?_
    refine Does.bind Does.report ?_
    cases pqs with
    | nil => exact Does.pure _
    | cons pq' pqs =>
      dsimp only
      rw [if_pos (show 0 < (pq' :: pqs).length from Nat.succ_pos _)]
      refine Does.bind (putFlags_does htab _) ?_
      exact Does.bind (decodeDealPQs_does htab _ _ _) (Does.pure _)

theorem decodeCntIf_does {fld : DealFld} (hcls : fld.cls = fieldQty) (hof : fld.IsOfDeal) (cnt : Option MdQty) :
    Does tf rx (optBytes mdQtyBytes cnt ++ rest) d (decodeCntIf cnt.isSome (tf.fldDeal fld)) () rest
      (d.putOpt fld (fun cnt => qtyCell (uint64.cast cnt.1)) cnt) := by
  cases cnt with
  | none => exact Does.pure ()
  | some cnt =>
    have hbytes : mdQtyBytes cnt = (intToBitv .uint64 (uint64.cast cnt.1).1).text := by
      rw [mdQtyBytes, intToBitv_uint32, qty_cast]
    obtain ⟨c, hread, hc⟩ := fieldQty_reads hcls (uint64.cast cnt.1) rest
    rw [← hbytes] at hread
    have hdoes : Does tf rx (mdQtyBytes cnt ++ rest) d _ () rest (d.put fld c.1) := Does.bitvToCell htab hof hread
    rw [hc] at hdoes
    exact hdoes

/-- The channel's number, where it is sent. -/
theorem decodeChannelSeq_does (channelSeq : uint64.Val) :
    Does tf rx ((if ctrlFlags.hasChannelSeq then (intToBitv .uint64 channelSeq.1).text else []) ++ rest) d
      (decodeChannelSeq .deal (tf.fldDeal .channelSeq)) () rest d := by
  rw [decodeChannelSeq, htab.channelSeq]
  by_cases h : ctrlFlags.hasChannelSeq
  · rw [if_pos h, if_pos h]
    have hsome : (tf.fldDeal .channelSeq).isSome := htab.channelSeq.trans h
    exact Does.bind (Does.readUInt64 channelSeq) (putOther htab nofun hsome ⟨_, rfl⟩)
  · rw [if_neg h, if_neg h]
    exact Does.pure ()

omit htab in
theorem decodeDealLmtFlags_does : Does tf rx rest d (decodeDealLmtFlags tf pack.flags) () rest d := by
  rw [decodeDealLmtFlags, (flags_contains pack).2.2.2]
  exact Does.pure ()

theorem decodeDealCnt_does {dealFlags : UInt8} (hcnt : CountFlags pack dealFlags) :
    Does tf rx (optBytes mdQtyBytes pack.buyCnt ++ (optBytes mdQtyBytes pack.sellCnt ++ rest)) d (decodeDealCnt tf dealFlags) () rest
      (d.counted pack) := by
  rw [decodeDealCnt, hcnt.buyCnt, hcnt.sellCnt, DealView.counted]
  exact Does.bind (decodeCntIf_does htab rfl rfl _) (decodeCntIf_does htab rfl rfl _)

theorem decodeNewDealPack_does (channelSeq : uint64.Val) (hlen : pack.others.length < 256) {qty : Qty}
    (hcell : d.cells .totalQty = qtyCell qty) : ∃ dealFlags,
    Does tf rx ((if ctrlFlags.hasChannelSeq then (intToBitv .uint64 channelSeq.1).text else []) ++ pack.bytes) d
      (decodeNewDealPack tf rx) dealFlags [] (d.behind pack qty) := by
  let lead := pack.deals.dropLast
  let last := pack.deals.getLast (cons_ne_nil _ _)
  have hbytes : pack.bytes = pack.flags :: (optBytes dayTimeToBitv pack.dealTime ++ (optBytes mdQtyBytes pack.totalQty ++
      (UInt8.ofNat pack.others.length :: (lead.flatMap priQtyBytes ++ (priQtyBytes last ++
        (optBytes mdQtyBytes pack.buyCnt ++ (optBytes mdQtyBytes pack.sellCnt ++ []))))))) := by
    have hdeals : pack.deals.flatMap priQtyBytes = lead.flatMap priQtyBytes ++ priQtyBytes last := by
      have hsplit : lead ++ [last] = pack.deals := dropLast_append_getLast (cons_ne_nil _ _)
      rw [← hsplit, flatMap_append, flatMap_singleton]
    rw [DealPack.bytes, hdeals, append_nil, append_assoc]
  have hcount : (UInt8.ofNat pack.others.length).toNat = lead.length := by
    rw [UInt8.toNat_ofNat_of_lt' hlen, length_dropLast]
    rfl
  have hcell₁ : (d.timed pack).cells .totalQty = qtyCell qty := by
    rw [DealView.timed, DealView.putOpt_of_ne d (show DealFld.totalQty ≠ .dealTime from nofun), hcell]
  obtain ⟨dealFlags, hcnt, hfirst⟩ : ∃ dealFlags, CountFlags pack dealFlags ∧
      Does tf rx (lead.flatMap priQtyBytes ++ (priQtyBytes last ++ (optBytes mdQtyBytes pack.buyCnt ++
        (optBytes mdQtyBytes pack.sellCnt ++ [])))) ((d.timed pack).started pack) _ _ _ _ :=
    decodeFirstDeals_does htab lead (pack.addTo qty)
  refine ⟨dealFlags, ?_⟩
  rw [hbytes]
  refine Does.bind (decodeChannelSeq_does htab channelSeq) ?_
  refine Does.bind Does.seInfoTime ?_
  refine Does.bind (putOther htab nofun (htab.isSome .infoTime (.inr (.inl rfl))) ⟨_, putNumber_time _⟩) ?_
  refine Does.bind Does.readByte ?_
  refine Does.bind (decodeDealTime_does htab) ?_
  refine Does.bind (decodeTotalQty_does htab hcell₁) ?_
  refine Does.bind decodeDealLmtFlags_does ?_
  refine Does.bind Does.readByte ?_
  rw [hcount]
  refine Does.bind hfirst ?_
  refine Does.bind (putFlags_does htab dealFlags) ?_
  refine Does.bind (decodeDealPQ_does htab last) ?_
  refine Does.bind (decodeDealCnt_does htab hcnt) ?_
  exact Does.bind Does.report (Does.pure dealFlags)

end Decoder

end Fon9.RcMdRts
