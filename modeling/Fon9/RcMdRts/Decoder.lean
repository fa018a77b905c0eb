import Fon9.RcMdRts.Writer
import Fon9.RcMdRts.MatchToRts

/-! The client's decoder of the packets of a deal, of a snapshot of the order book, and of a
deal with the order book behind it. -/

namespace Fon9.RcMdRts

open Lib Bitv Buffer Seed Rts

/-! ### Flags -/

/-- The decoder has found the packet to be old. -/
def dealFlag_IsOld : UInt8 := 0xff

def bsFlag_Calculated : UInt8 := 0x01

/-- The flag of a list. -/
def bsFlag : RtBSType → UInt8
  | .orderBuy => 0x02
  | .orderSell => 0x04
  | .derivedBuy => 0x10
  | .derivedSell => 0x20

/-- `-` of two sets of flags. -/
def enumMinus (a b : UInt8) : UInt8 := a &&& ~~~b

/-! ### The note -/

/-- What the subscription is to, and whether the packet is live. -/
structure RxNotify where
  isStreamData : Bool
  isSubrTree : Bool

/-- `static_cast<FieldNumberT>` of a `uint64_t`. -/
def signedCast (v : IntType.uint64.Val) : ℤ := IntType.int64.wrap v.1

section Decoder

variable (tf : TabFields) (rx : RxNotify)

/-- `*SeInfoTime_` -/
def seInfoTime : Decoder DayTime := fun s => .ok (s.note.selectInfoTime rx.isStreamData) s

def setInfoTime (infoTime : DayTime) : Decoder Unit :=
  modify fun s => { s with note := s.note.setInfoTime rx.isStreamData infoTime }

/-- `MdRtsDecoderAuxInfo` -/
def readInfoTime : Decoder Unit := do
  let dst ← seInfoTime rx
  let infoTime ← popBitv fun rxbuf => bitvToDayTimeOrUnchange rxbuf dst
  setInfoTime rx infoTime

def getRtMktSeq : Decoder IntType.uint64.Val := fun s => .ok s.rtMktSeq s

def setRtMktSeq (rxSeq : IntType.uint64.Val) : Decoder Unit := modify fun s => { s with rtMktSeq := rxSeq }

variable (wr : RtsTab) (fld : Option Field)

/-- `IsMktSeqNewer` -/
def isMktSeqNewer (rxSeq : IntType.uint64.Val) : Decoder Bool := do
  let rtMktSeq ← getRtMktSeq
  if rtMktSeq.1 < rxSeq.1 ∨ rxSeq.1 = 0 then do
    setRtMktSeq rxSeq
    putNumber wr fld (signedCast rxSeq) 0
    return true
  else return false

/-- A number of 64 bits that is zero where it is null. -/
def readUInt64 : Decoder IntType.uint64.Val := popBitv fun rxbuf => bitvToInt .uint64 rxbuf (IntType.uint64.cast 0)

/-- `IsRxMktSeqNewer`: only data of one symbol is compared with the last number. -/
def isRxMktSeqNewer : Decoder Bool := do
  let rxSeq ← readUInt64
  if rx.isStreamData ∧ ¬ rx.isSubrTree then isMktSeqNewer wr fld rxSeq
  else do
    putNumber wr fld (signedCast rxSeq) 0
    return true

/-- `IsFldDealMktSeqNewer` and `IsBSMktSeqNewer` -/
def isFldMktSeqNewer : Decoder Bool :=
  if fld.isSome then isRxMktSeqNewer rx wr fld else return true

def readByte : Decoder UInt8 := popBitv readOrRaise

/-! ### Deals -/

def decodeChannelSeq : Decoder Unit :=
  if fld.isSome then do
    let rxSeq ← readUInt64
    putNumber wr fld (signedCast rxSeq) 0
  else return ()

variable (dealFlags : UInt8) (bsFlags : UInt8) (wr : RtsTab) (fld : Option Field)

/-- The time of the deal is that of the packet where it is sent as null. -/
def decodeDealTime (infoTime : DayTime) : Decoder Unit :=
  if isEnumContains dealFlags dealFlag_DealTimeChanged then do
    let dealTime ← popBitv fun rxbuf => bitvToDayTimeOrUnchange rxbuf infoTime
    putNumber .deal (tf.fldDeal .dealTime) dealTime.1 dayTimeScale
  else return ()

/-- The total that the deals are added to, nothing for a calculated packet. -/
def decodeTotalQty : Decoder (Option Qty) := do
  let cell ← getNumber .deal (tf.fldDeal .totalQty) 0 0
  let totalQty := IntType.uint64.cast cell
  if isEnumContains dealFlags dealFlag_TotalQtyLost then do
    let totalQty ← popBitv fun rxbuf => bitvToInt .uint64 rxbuf totalQty
    if isEnumContains dealFlags dealFlag_Calculated then do
      putNumber .deal (tf.fldDeal .totalQty) (signedCast totalQty) 0
      return none
    else return some totalQty
  else return if isEnumContains dealFlags dealFlag_Calculated then none else some totalQty

def decodeDealLmtFlags : Decoder Unit :=
  if isEnumContains dealFlags dealFlag_LmtFlagsChanged then do
    let lmtFlags ← readByte
    putNumber .deal (tf.fldDeal .lmtFlags) lmtFlags.toNat 0
  else return ()

def addTotalQty (totalQty : Option Qty) (dealQty : Qty) : Decoder (Option Qty) :=
  match totalQty with
  | none => return none
  | some totalQty => do
    let totalQty := IntType.uint64.cast (totalQty.1 + dealQty.1)
    putNumber .deal (tf.fldDeal .totalQty) (signedCast totalQty) 0
    return some totalQty

def decodeDealPQ (totalQty : Option Qty) : Decoder (Option Qty) := do
  bitvToCell .deal (tf.fldDeal .dealPri)
  let dealQty ← readUInt64
  putNumber .deal (tf.fldDeal .dealQty) (signedCast dealQty) 0
  addTotalQty tf totalQty dealQty

/-- A count that has changed. -/
def decodeCntIf (isChanged : Bool) (fld : Option Field) : Decoder Unit :=
  if isChanged then bitvToCell .deal fld else return ()

def decodeDealCnt : Decoder Unit := do
  decodeCntIf (isEnumContains dealFlags dealFlag_DealBuyCntChanged) (tf.fldDeal .dealBuyCnt)
  decodeCntIf (isEnumContains dealFlags dealFlag_DealSellCntChanged) (tf.fldDeal .dealSellCnt)

/-- The flags of a report before the last one. -/
def putFlagsWithoutCnt : Decoder Unit :=
  putNumber .deal (tf.fldDeal .flags) (enumMinus dealFlags (dealFlag_DealBuyCntChanged ||| dealFlag_DealSellCntChanged)).toNat 0

/-- The deals between the first and the last one. -/
def decodeDealPQs : ℕ → Option Qty → Decoder (Option Qty)
  | 0, totalQty => return totalQty
  | count + 1, totalQty => do
    let totalQty ← decodeDealPQ tf totalQty
    report .deal
    decodeDealPQs count totalQty

/-- The deals before the last one, with the flags that the others have. -/
def decodeFirstDeals : ℕ → Option Qty → Decoder (UInt8 × Option Qty)
  | 0, totalQty => return (dealFlags, totalQty)
  | count + 1, totalQty => do
    putFlagsWithoutCnt tf dealFlags
    let totalQty ← decodeDealPQ tf totalQty
    report .deal
    let dealFlags := enumMinus dealFlags (dealFlag_TotalQtyLost ||| dealFlag_DealTimeChanged)
    if 0 < count then do
      putFlagsWithoutCnt tf dealFlags
      let totalQty ← decodeDealPQs tf count totalQty
      return (dealFlags, totalQty)
    else return (dealFlags, totalQty)

/-- `DecodeDealPack` behind the check of the sequence number. -/
def decodeNewDealPack : Decoder UInt8 := do
  decodeChannelSeq .deal (tf.fldDeal .channelSeq)
  let infoTime ← seInfoTime rx
  putNumber .deal (tf.fldDeal .infoTime) infoTime.1 dayTimeScale
  let dealFlags ← readByte
  decodeDealTime tf dealFlags infoTime
  let totalQty ← decodeTotalQty tf dealFlags
  decodeDealLmtFlags tf dealFlags
  let count ← readByte
  let (dealFlags, totalQty) ← decodeFirstDeals tf dealFlags count.toNat totalQty
  putNumber .deal (tf.fldDeal .flags) dealFlags.toNat 0
  let _ ← decodeDealPQ tf totalQty
  decodeDealCnt tf dealFlags
  report .deal
  return dealFlags

def decodeDealPack : Decoder UInt8 := do
  let isNewer ← isFldMktSeqNewer rx .deal (tf.fldDeal .mktSeq)
  if isNewer then decodeNewDealPack tf rx else return dealFlag_IsOld

/-! ### The order book -/

def clearFieldPQ (pq : FieldPQ) : Decoder Unit := do
  setNull wr pq.fldPri
  setNull wr pq.fldQty

def clearFieldPQs (wr : RtsTab) : List FieldPQ → Decoder Unit
  | [] => return ()
  | pq :: flds => do
    clearFieldPQ wr pq
    clearFieldPQs wr flds

/-- The price and the quantity of a level. -/
def bitvToFieldPQ (pq : FieldPQ) : Decoder Unit := do
  bitvToCell wr (some pq.fldPri)
  bitvToCell wr (some pq.fldQty)

def bitvToFieldPQs (wr : RtsTab) : List FieldPQ → Decoder Unit
  | [] => return ()
  | pq :: flds => do
    bitvToFieldPQ wr pq
    bitvToFieldPQs wr flds

def bsSnapshotSpc_LmtFlags : UInt8 := 0x80

/-- The levels of a list: those above the count are cleared, and the others come with the
best one last. -/
def decodeLevels (flds : List FieldPQ) (count : ℕ) : Decoder Unit :=
  if count ≤ flds.length then do
    clearFieldPQs .bs (flds.drop count)
    bitvToFieldPQs .bs (flds.take count).reverse
  else throw .noSuchLevel

/-- A record of a snapshot, and the flags with the list that it is of. -/
def decodeSnapshotRecord : Decoder UInt8 := do
  let bstype ← readByte
  if bstype &&& 0x80 = 0 then do
    decodeLevels (tf.fldPQs (rtBSType bstype)) ((bstype &&& 0x0f).toNat + 1)
    return bsFlags ||| bsFlag (rtBSType bstype)
  else if bstype = bsSnapshotSpc_LmtFlags then do
    let lmtFlags ← readByte
    putNumber .bs (tf.fldBS .lmtFlags) lmtFlags.toNat 0
    return bsFlags
  else return bsFlags

/-- The loop over the records. Each takes a byte at least. -/
def decodeSnapshotRecords : ℕ → UInt8 → Decoder UInt8
  | 0, bsFlags => return bsFlags
  | fuel + 1, bsFlags => fun s =>
    if s.rxbuf = [] then .ok bsFlags s
    else (do
      let bsFlags ← decodeSnapshotRecord tf bsFlags
      decodeSnapshotRecords fuel bsFlags) s

def decodeAllRecords : Decoder UInt8 := fun s => decodeSnapshotRecords tf s.rxbuf.length bsFlags s

/-- `check_ClearFieldPQs` -/
def checkClearFieldPQs (t : RtBSType) : Decoder Unit :=
  if isEnumContains bsFlags (bsFlag t) then return () else clearFieldPQs .bs (tf.fldPQs t)

def reportBS : Decoder Unit := do
  putNumber .bs (tf.fldBS .flags) bsFlags.toNat 0
  report .bs

def decodeSnapshotBS : Decoder Unit := do
  let infoTime ← seInfoTime rx
  putNumber .bs (tf.fldBS .infoTime) infoTime.1 dayTimeScale
  let bsFlags ← decodeAllRecords tf bsFlags
  checkClearFieldPQs tf bsFlags .orderBuy
  checkClearFieldPQs tf bsFlags .orderSell
  checkClearFieldPQs tf bsFlags .derivedBuy
  checkClearFieldPQs tf bsFlags .derivedSell
  reportBS tf bsFlags

/-! ### Packets -/

/-- The number of the book goes to the writer that the deal was decoded with. -/
def putBSMktSeq : Decoder Unit :=
  if (tf.fldBS .mktSeq).isSome then do
    let rtMktSeq ← getRtMktSeq
    putNumber .deal (tf.fldBS .mktSeq) (signedCast rtMktSeq) 0
  else return ()

/-- The flags of the book of a deal. -/
def bsFlagsOfDeal (dflag : UInt8) : UInt8 := if isEnumContains dflag dealFlag_Calculated then bsFlag_Calculated else 0

def decodeDealBS : Decoder Unit := do
  readInfoTime rx
  let dflag ← decodeDealPack tf rx
  if dflag ≠ dealFlag_IsOld then do
    putBSMktSeq tf
    decodeSnapshotBS tf rx (bsFlagsOfDeal dflag)
  else return ()

/-- The case of `DecodeStreamRx` for a snapshot. -/
def decodeSnapshotPack : Decoder Unit := do
  readInfoTime rx
  let isNewer ← isFldMktSeqNewer rx .bs (tf.fldBS .mktSeq)
  if isNewer then decodeSnapshotBS tf rx bsFlags else return ()

def rtsPackType_SnapshotBS : UInt8 := 1

def rtsPackType_CalculatedBS : UInt8 := 2

def rtsPackType_DealBS : UInt8 := 6

/-- `DecodeStreamRx`; the decoders of the other types are a parameter. -/
def decodeStreamRx (others : UInt8 → Decoder Unit) : Decoder Unit := do
  let pkType ← readByte
  if pkType = rtsPackType_DealPack then do
    readInfoTime rx
    let _ ← decodeDealPack tf rx
    return ()
  else if pkType = rtsPackType_SnapshotBS then decodeSnapshotPack tf rx 0
  else if pkType = rtsPackType_CalculatedBS then decodeSnapshotPack tf rx bsFlag_Calculated
  else if pkType = rtsPackType_DealBS then decodeDealBS tf rx
  else others pkType

end Decoder

end Fon9.RcMdRts
