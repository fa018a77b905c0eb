import Fon9.Rts.InfoTime

/-! The deals of a symbol on the server: `I024MatchParserToRts` takes the matches of a message
into the deal of the symbol, and publishes what has changed. The bytes grow to the front. -/

namespace Fon9.RcMdRts

open Bitv Buffer Rts List IntType

/-- `MdQty` -/
abbrev MdQty := IntType.uint32.Val

/-- `ExgMdMatchData`, and the first match of `ExgMdMatchHead`. -/
structure ExgMdMatchData where
  matchPrice : ExgMdSPrice
  matchQty : MdQty

/-- The times are of the day, and never null. -/
structure ExgMcI024 where
  informationTime : DayTime
  channelSeq : IntType.uint64.Val
  prodMsgSeq : IntType.uint32.Val
  calculatedFlag : Char
  matchTime : DayTime
  firstMatch : ExgMdMatchData
  matchData : List ExgMdMatchData
  matchTotalQty : MdQty
  matchBuyCnt : MdQty
  matchSellCnt : MdQty
  matchData_le : matchData.length ≤ 127
  informationTime_ne : informationTime ≠ dayTimeNull
  matchTime_ne : matchTime ≠ dayTimeNull

structure SymbDealData where
  infoTime : DayTime := dayTimeNull
  channelSeq : IntType.uint64.Val := IntType.uint64.cast 0
  dealTime : DayTime := dayTimeNull
  deal : PriQty := {}
  totalQty : Qty := IntType.uint64.cast 0
  dealBuyCnt : Qty := IntType.uint64.cast 0
  dealSellCnt : Qty := IntType.uint64.cast 0
  marketSeq : IntType.uint32.Val := IntType.uint32.cast 0

/-! ### Flags -/

def dealFlag_Calculated : UInt8 := 0x01

def dealFlag_DealTimeChanged : UInt8 := 0x02

def dealFlag_DealBuyCntChanged : UInt8 := 0x04

def dealFlag_DealSellCntChanged : UInt8 := 0x08

def dealFlag_TotalQtyLost : UInt8 := 0x10

def dealFlag_LmtFlagsChanged : UInt8 := 0x20

def isEnumContains (a b : UInt8) : Bool := a &&& b == b

/-! ### The parser -/

structure RtsMdMatchParser where
  rts : Bytes
  sumQty : MdQty
  flags : UInt8

namespace RtsMdMatchParser

variable (parser : RtsMdMatchParser)

/-- `OnParsedAMatch`; the high and the low of the day are not in the packet. -/
def onParsedAMatch (dst : PriQty) : RtsMdMatchParser :=
  { parser with
    rts := priQtyBytes dst ++ parser.rts
    sumQty := IntType.uint32.cast (parser.sumQty.1 + (IntType.uint32.cast dst.qty.1).1) }

/-- `CheckFieldChanged`, with the field. -/
def checkFieldChanged (flag : UInt8) (dst : Qty) (src : MdQty) : RtsMdMatchParser × Qty :=
  if dst.1 = src.1 then (parser, dst)
  else ({ parser with flags := parser.flags ||| flag, rts := (intToBitv .uint32 src.1).text ++ parser.rts },
    IntType.uint64.cast src.1)

def push (text : Bytes) : RtsMdMatchParser := { parser with rts := text ++ parser.rts }

end RtsMdMatchParser

/-- The price and the quantity of a match. -/
def ExgMdMatchData.priQty (origDiv : ℕ) (md : ExgMdMatchData) : PriQty :=
  ⟨md.matchPrice.assignTo origDiv, IntType.uint64.cast md.matchQty.1⟩

/-- The matches from the last one to the first, and the deal: the last match. -/
def getMatches (origDiv : ℕ) (pk : ExgMcI024) (parser : RtsMdMatchParser) : RtsMdMatchParser × PriQty :=
  let first := pk.firstMatch.priQty origDiv
  match pk.matchData.reverse with
  | [] => (parser.onParsedAMatch first, first)
  | last :: others =>
    let deal := last.priQty origDiv
    let parser := others.foldl (fun parser md => parser.onParsedAMatch (md.priQty origDiv)) (parser.onParsedAMatch deal)
    (parser.onParsedAMatch first, deal)

/-- The time of the deal, where it has changed: null for the time of the packet. -/
def checkDealTimeChanged (parser : RtsMdMatchParser) (bfDealTime : DayTime) (pk : ExgMcI024) : RtsMdMatchParser :=
  if pk.matchTime ≠ bfDealTime then
    { parser with
      flags := parser.flags ||| dealFlag_DealTimeChanged
      rts := (if pk.matchTime = pk.informationTime then (revPutBitv bitvV_NumberNull).text else dayTimeToBitv pk.matchTime) ++
        parser.rts }
  else parser

variable (ctrlFlags : MdSymbsCtrlFlag) (origDiv : ℕ) (data : SymbDealData) (pk : ExgMcI024)

/-- `I024MatchParserToRts`: the deal of the symbol, its stream, and the packet that is
published. -/
def i024MatchParserToRts (stream : MdRtStream) (pk : ExgMcI024) :
    SymbDealData × MdRtStream × Bytes :=
  let parser : RtsMdMatchParser :=
    { rts := [], sumQty := IntType.uint32.cast 0, flags := if pk.calculatedFlag = '1' then dealFlag_Calculated else 0 }
  let (parser, dealSellCnt) := parser.checkFieldChanged dealFlag_DealSellCntChanged data.dealSellCnt pk.matchSellCnt
  let (parser, dealBuyCnt) := parser.checkFieldChanged dealFlag_DealBuyCntChanged data.dealBuyCnt pk.matchBuyCnt
  let (parser, deal) := getMatches origDiv pk parser
  let parser := parser.push [UInt8.ofNat pk.matchData.length]
  let base :=
    if isEnumContains parser.flags dealFlag_Calculated then IntType.uint32.cast 0
    else IntType.uint32.cast (pk.matchTotalQty.1 - parser.sumQty.1)
  let (parser, _) := parser.checkFieldChanged dealFlag_TotalQtyLost data.totalQty base
  let parser := checkDealTimeChanged parser data.dealTime pk
  let parser := parser.push [parser.flags]
  let parser := if ctrlFlags.hasChannelSeq then parser.push (intToBitv .uint64 pk.channelSeq.1).text else parser
  let rts := packMktSeq ctrlFlags pk.prodMsgSeq parser.rts
  let data : SymbDealData :=
    { infoTime := pk.informationTime
      channelSeq := if ctrlFlags.hasChannelSeq then pk.channelSeq else data.channelSeq
      dealTime := pk.matchTime
      deal := deal
      totalQty := IntType.uint64.cast pk.matchTotalQty.1
      dealBuyCnt := dealBuyCnt
      dealSellCnt := dealSellCnt
      marketSeq := if ctrlFlags.hasMarketDataSeq then pk.prodMsgSeq else data.marketSeq }
  (data, stream.publish rtsPackType_DealPack mdRtsKind_Deal pk.informationTime rts)

/-! ### The packet from its front on -/

/-- What a packet says of the deals of a message; nothing of a field that is as it was. -/
structure DealPack where
  isCalculated : Bool
  dealTime : Option DayTime
  totalQty : Option MdQty
  first : PriQty
  others : List PriQty
  buyCnt : Option MdQty
  sellCnt : Option MdQty

def flagIf (isChanged : Bool) (flag : UInt8) : UInt8 := if isChanged then flag else 0

def dealFlags (isCalculated sellCnt buyCnt totalQty dealTime : Bool) : UInt8 :=
  flagIf isCalculated dealFlag_Calculated ||| flagIf sellCnt dealFlag_DealSellCntChanged |||
    flagIf buyCnt dealFlag_DealBuyCntChanged ||| flagIf totalQty dealFlag_TotalQtyLost ||| flagIf dealTime dealFlag_DealTimeChanged

def optBytes {α : Type} (text : α → Bytes) (o : Option α) : Bytes := o.elim [] text

def mdQtyBytes (qty : MdQty) : Bytes := (intToBitv .uint32 qty.1).text

namespace DealPack

variable (pack : DealPack)

def flags : UInt8 :=
  dealFlags pack.isCalculated pack.sellCnt.isSome pack.buyCnt.isSome pack.totalQty.isSome pack.dealTime.isSome

/-- The matches in the order of the exchange. -/
def deals : List PriQty := pack.first :: pack.others

def bytes : Bytes :=
  pack.flags :: (optBytes dayTimeToBitv pack.dealTime ++ (optBytes mdQtyBytes pack.totalQty ++
    (UInt8.ofNat pack.others.length :: (pack.deals.flatMap priQtyBytes ++
      (optBytes mdQtyBytes pack.buyCnt ++ optBytes mdQtyBytes pack.sellCnt)))))

end DealPack

/-- The value of a field, where it has changed. -/
def ifChanged (dst : Qty) (src : MdQty) : Option MdQty := if dst.1 = src.1 then none else some src

/-- The matches of a message in the order of the exchange. -/
def ExgMcI024.deals : List PriQty :=
  (pk.firstMatch :: pk.matchData).map fun md => md.priQty origDiv

/-- The quantities of the matches. -/
def ExgMcI024.sumQty : ℤ := ((pk.firstMatch :: pk.matchData).map fun md => md.matchQty.1).sum

/-- What the quantities of the matches are added to. -/
def ExgMcI024.baseQty : MdQty :=
  if pk.calculatedFlag = '1' then IntType.uint32.cast 0 else IntType.uint32.cast (pk.matchTotalQty.1 - pk.sumQty)

def ExgMcI024.dealPack : DealPack where
  isCalculated := pk.calculatedFlag = '1'
  dealTime :=
    if pk.matchTime ≠ data.dealTime then some (if pk.matchTime = pk.informationTime then dayTimeNull else pk.matchTime) else none
  totalQty := ifChanged data.totalQty pk.baseQty
  first := pk.firstMatch.priQty origDiv
  others := pk.matchData.map fun md => md.priQty origDiv
  buyCnt := ifChanged data.dealBuyCnt pk.matchBuyCnt
  sellCnt := ifChanged data.dealSellCnt pk.matchSellCnt

/-- The deal of the symbol behind a message. -/
def ExgMcI024.toDealData : SymbDealData where
  infoTime := pk.informationTime
  channelSeq := if ctrlFlags.hasChannelSeq then pk.channelSeq else data.channelSeq
  dealTime := pk.matchTime
  deal := (pk.dealPack origDiv data).deals.getLast (List.cons_ne_nil _ _)
  totalQty := IntType.uint64.cast pk.matchTotalQty.1
  dealBuyCnt := IntType.uint64.cast pk.matchBuyCnt.1
  dealSellCnt := IntType.uint64.cast pk.matchSellCnt.1
  marketSeq := if ctrlFlags.hasMarketDataSeq then pk.prodMsgSeq else data.marketSeq

/-- The packet behind its type and its time. -/
def ExgMcI024.rts : Bytes :=
  packMktSeq ctrlFlags pk.prodMsgSeq
    ((if ctrlFlags.hasChannelSeq then (intToBitv .uint64 pk.channelSeq.1).text else []) ++ (pk.dealPack origDiv data).bytes)

section Parser

variable {origDiv : ℕ} {parser : RtsMdMatchParser} {pk : ExgMcI024} {data : SymbDealData}

theorem qty_cast (qty : MdQty) : (uint64.cast qty.1).1 = qty.1 := by
  obtain ⟨v, hmin, hmax⟩ := qty
  have hzero : 0 ≤ v := hmin
  have hlt : v ≤ 2 ^ 32 - 1 := hmax
  show uint64.wrap v = v
  apply wrap_of_mem
  simp only [IntType.min, IntType.max, isSigned, IntType.size]
  norm_num
  omega

theorem checkFieldChanged_eq (flag : UInt8) (dst : Qty) (src : MdQty) :
    parser.checkFieldChanged flag dst src =
      ({ parser with
          flags := parser.flags ||| flagIf (ifChanged dst src).isSome flag
          rts := optBytes mdQtyBytes (ifChanged dst src) ++ parser.rts }, uint64.cast src.1) := by
  rw [RtsMdMatchParser.checkFieldChanged, ifChanged]
  by_cases h : dst.1 = src.1
  · have hdst : uint64.cast src.1 = dst := by
      rw [← h]
      exact cast_val dst
    rw [if_pos h, if_pos h, hdst]
    simp [flagIf, optBytes]
  · rw [if_neg h, if_neg h]
    rfl

theorem wrap_add_wrap (a b : ℤ) : uint32.wrap (uint32.wrap a + b) = uint32.wrap (a + b) := by
  simp [wrap, isSigned, IntType.size]

/-- The matches are put in front one by one. -/
theorem foldl_onParsedAMatch (mds : List ExgMdMatchData) :
    mds.foldl (fun parser md => parser.onParsedAMatch (md.priQty origDiv)) parser =
      { parser with
        rts := (mds.reverse.map fun md => md.priQty origDiv).flatMap priQtyBytes ++ parser.rts
        sumQty := uint32.cast (parser.sumQty.1 + (mds.map fun md => md.matchQty.1).sum) } := by
  induction mds generalizing parser with
  | nil => simp [cast_val]
  | cons md mds ih =>
    have hqty : (uint32.cast (md.priQty origDiv).qty.1).1 = md.matchQty.1 := by
      show (uint32.cast (uint64.cast md.matchQty.1).1).1 = _
      rw [qty_cast, cast_val]
    rw [foldl_cons, ih, RtsMdMatchParser.onParsedAMatch, hqty]
    have hsum : uint32.cast ((uint32.cast (parser.sumQty.1 + md.matchQty.1)).1 + (mds.map fun md => md.matchQty.1).sum) =
        uint32.cast (parser.sumQty.1 + ((md :: mds).map fun md => md.matchQty.1).sum) := by
      apply Subtype.ext
      show uint32.wrap (uint32.wrap _ + _) = uint32.wrap _
      rw [wrap_add_wrap, map_cons, sum_cons, add_assoc]
    rw [hsum]
    simp

theorem getMatches_eq (data : SymbDealData) : getMatches origDiv pk parser =
    ({ parser with
        rts := (pk.dealPack origDiv data).deals.flatMap priQtyBytes ++ parser.rts
        sumQty := uint32.cast (parser.sumQty.1 + pk.sumQty) },
      (pk.dealPack origDiv data).deals.getLast (cons_ne_nil _ _)) := by
  have hfold : getMatches origDiv pk parser =
      ((pk.firstMatch :: pk.matchData).reverse.foldl (fun parser md => parser.onParsedAMatch (md.priQty origDiv)) parser,
        (pk.dealPack origDiv data).deals.getLast (cons_ne_nil _ _)) := by
    rw [getMatches, reverse_cons, foldl_append]
    cases hdata : pk.matchData.reverse with
    | nil =>
      obtain hnil : pk.matchData = [] := reverse_eq_nil_iff.mp hdata
      simp [DealPack.deals, ExgMcI024.dealPack, hnil]
    | cons last others =>
      have hlast : pk.matchData = others.reverse ++ [last] := by
        rw [← reverse_reverse pk.matchData, hdata, reverse_cons]
      simp [DealPack.deals, ExgMcI024.dealPack, hlast]
  rw [hfold, foldl_onParsedAMatch, reverse_reverse, map_reverse, sum_reverse]
  rfl

theorem checkDealTimeChanged_eq (origDiv : ℕ) : checkDealTimeChanged parser data.dealTime pk =
    { parser with
      flags := parser.flags ||| flagIf (pk.dealPack origDiv data).dealTime.isSome dealFlag_DealTimeChanged
      rts := optBytes dayTimeToBitv (pk.dealPack origDiv data).dealTime ++ parser.rts } := by
  rw [checkDealTimeChanged, ExgMcI024.dealPack]
  by_cases h : pk.matchTime ≠ data.dealTime
  · rw [if_pos h, if_pos h, ← dayTimeToBitv_null]
    by_cases hinfo : pk.matchTime = pk.informationTime
    · rw [if_pos hinfo, if_pos hinfo]
      rfl
    · rw [if_neg hinfo, if_neg hinfo]
      rfl
  · rw [if_neg h, if_neg h]
    simp [flagIf, optBytes]

/-- The flags of the counts do not show as a calculated packet. -/
theorem isCalculated_flags : ∀ isCalculated sellCnt buyCnt : Bool,
    isEnumContains (flagIf isCalculated dealFlag_Calculated ||| flagIf sellCnt dealFlag_DealSellCntChanged |||
      flagIf buyCnt dealFlag_DealBuyCntChanged) dealFlag_Calculated = isCalculated := by decide

theorem i024MatchParserToRts_eq (ctrlFlags : MdSymbsCtrlFlag) (origDiv : ℕ) (data : SymbDealData) (stream : MdRtStream)
    (pk : ExgMcI024) :
    i024MatchParserToRts ctrlFlags origDiv data stream pk =
      (pk.toDealData ctrlFlags origDiv data,
        stream.publish rtsPackType_DealPack mdRtsKind_Deal pk.informationTime (pk.rts ctrlFlags origDiv data)) := by
  have hflags : (if pk.calculatedFlag = '1' then dealFlag_Calculated else 0) =
      flagIf (decide (pk.calculatedFlag = '1')) dealFlag_Calculated := by
    rw [flagIf]
    simp only [decide_eq_true_eq]
  have hbase : (if isEnumContains (flagIf (decide (pk.calculatedFlag = '1')) dealFlag_Calculated |||
      flagIf (ifChanged data.dealSellCnt pk.matchSellCnt).isSome dealFlag_DealSellCntChanged |||
      flagIf (ifChanged data.dealBuyCnt pk.matchBuyCnt).isSome dealFlag_DealBuyCntChanged) dealFlag_Calculated
      then uint32.cast 0
      else uint32.cast (pk.matchTotalQty.1 - (uint32.cast ((uint32.cast 0).1 + pk.sumQty)).1)) =
      pk.baseQty := by
    rw [isCalculated_flags, ExgMcI024.baseQty]
    simp only [decide_eq_true_eq]
    by_cases h : pk.calculatedFlag = '1'
    · rw [if_pos h, if_pos h]
    · rw [if_neg h, if_neg h]
      apply Subtype.ext
      show uint32.wrap (_ - uint32.wrap (0 + _)) = uint32.wrap _
      simp [wrap, isSigned, IntType.size]
  rw [i024MatchParserToRts]
  simp only [hflags, checkFieldChanged_eq, getMatches_eq data, RtsMdMatchParser.push, hbase,
    checkDealTimeChanged_eq origDiv]
  have hbytes : (pk.dealPack origDiv data).bytes =
      [flagIf (decide (pk.calculatedFlag = '1')) dealFlag_Calculated |||
        flagIf (ifChanged data.dealSellCnt pk.matchSellCnt).isSome dealFlag_DealSellCntChanged |||
        flagIf (ifChanged data.dealBuyCnt pk.matchBuyCnt).isSome dealFlag_DealBuyCntChanged |||
        flagIf (ifChanged data.totalQty pk.baseQty).isSome dealFlag_TotalQtyLost |||
        flagIf (pk.dealPack origDiv data).dealTime.isSome dealFlag_DealTimeChanged] ++
      (optBytes dayTimeToBitv (pk.dealPack origDiv data).dealTime ++ (optBytes mdQtyBytes (ifChanged data.totalQty pk.baseQty) ++
        ([UInt8.ofNat pk.matchData.length] ++ ((pk.dealPack origDiv data).deals.flatMap priQtyBytes ++
          (optBytes mdQtyBytes (ifChanged data.dealBuyCnt pk.matchBuyCnt) ++
            (optBytes mdQtyBytes (ifChanged data.dealSellCnt pk.matchSellCnt) ++ [])))))) := by
    rw [append_nil, ← length_map (fun md => md.priQty origDiv) ]
    rfl
  refine congrArg₂ (fun x y => (x, y)) rfl (congrArg _ ?_)
  rw [ExgMcI024.rts, hbytes]
  refine congrArg _ ?_
  by_cases h : ctrlFlags.hasChannelSeq
  · rw [if_pos h, if_pos h]
  · rw [if_neg h, if_neg h, nil_append]

end Parser

end Fon9.RcMdRts
