import Fon9.Bitv.Decode
import Fon9.Lib.Segment

/-! The order book of a symbol on the server, and the two routines that apply an I081
message to it: `ExgMdToUpdateBS`, and `I081BSParserToRts`, which publishes the changes too.
A packed decimal is the number that it holds. -/

namespace Fon9.Rts

open Lib Bitv

/-- The original value of a `Decimal<int64_t, 8>`. -/
abbrev Pri := IntType.int64.Val

abbrev Qty := IntType.uint64.Val

def priScale : ℕ := 8

structure PriQty where
  pri : Pri := IntType.int64.cast 0
  qty : Qty := IntType.uint64.cast 0
  deriving DecidableEq

def kBSCount : ℕ := 5

/-- The four lists of a book. -/
inductive RtBSType
  | orderBuy | orderSell | derivedBuy | derivedSell
  deriving DecidableEq

instance : Fintype RtBSType where
  elems := {.orderBuy, .orderSell, .derivedBuy, .derivedSell}
  complete t := by cases t <;> decide

/-- How many levels a list has. -/
def RtBSType.count : RtBSType → ℕ
  | .orderBuy | .orderSell => kBSCount
  | .derivedBuy | .derivedSell => 1

def RtBSType.code : RtBSType → UInt8
  | .orderBuy => 0x00
  | .orderSell => 0x10
  | .derivedBuy => 0x20
  | .derivedSell => 0x30

inductive RtBSAction
  | new | delete | changePQ | changeQty
  deriving DecidableEq

def RtBSAction.code : RtBSAction → UInt8
  | .new => 0x00
  | .delete => 0x40
  | .changePQ => 0x80
  | .changeQty => 0xc0

/-- The levels of the four lists. -/
abbrev Levels := (t : RtBSType) → Fin t.count → PriQty

/-- `SymbTwfBSData`; the levels are `Buys_`, `Sells_`, `DerivedBuy_` and `DerivedSell_`, and
the flags say which of them were touched. -/
structure SymbBSData where
  infoTime : ℤ
  levels : Levels
  flags : RtBSType → Bool
  marketSeq : IntType.uint32.Val
  channelSeq : IntType.uint64.Val

structure ExgMdSPrice where
  sign : Char
  value : ℕ

def ExgMdSPrice.assignTo (price : ExgMdSPrice) (origDiv : ℕ) : Pri :=
  let dst := IntType.int64.cast price.value
  let dst := if origDiv ≠ 0 then IntType.int64.cast (dst.1 * origDiv) else dst
  if price.sign = '-' then IntType.int64.cast (-dst.1) else dst

structure ExgMcI081Entry where
  updateAction : Char
  entryType : Char
  price : ExgMdSPrice
  qty : ℕ
  level : ℕ

/-- The quantity is a `uint32_t`. -/
def ExgMcI081Entry.qty32 (e : ExgMcI081Entry) : Qty := IntType.uint64.cast (IntType.uint32.cast e.qty).1

/-- `unsigned lv`: level 0 wraps. -/
def ExgMcI081Entry.lv (e : ExgMcI081Entry) : ℕ := (e.level + (2 ^ 32 - 1)) % 2 ^ 32

/-- The number of entries has two digits. -/
structure ExgMcI081 where
  informationTime : ℤ
  channelSeq : IntType.uint64.Val
  prodMsgSeq : IntType.uint32.Val
  mdEntry : List ExgMcI081Entry
  noMdEntries_le : mdEntry.length ≤ 99

/-- The list that an entry is for. -/
def entryBSType (entryType : Char) : Option RtBSType :=
  if entryType = '0' then some .orderBuy
  else if entryType = '1' then some .orderSell
  else if entryType = 'E' then some .derivedBuy
  else if entryType = 'F' then some .derivedSell
  else none

namespace Levels

variable (levels : Levels) (t : RtBSType)

def modify (f : (Fin t.count → PriQty) → Fin t.count → PriQty) : Levels := Function.update levels t (f (levels t))

/-- `memmove(dst, dst + 1)` and `ForceZeroNonTrivial` of the last level. -/
def delete (lv : ℕ) : Levels :=
  levels.modify t fun dst => setAt (memmove dst lv (lv + 1) (t.count - lv - 1)) (t.count - 1) {}

/-- `memmove(dst + 1, dst)`, then the new level. -/
def insert (lv : ℕ) (pq : PriQty) : Levels :=
  levels.modify t fun dst => setAt (memmove dst (lv + 1) lv (t.count - lv - 1)) lv pq

def change (lv : ℕ) (pq : PriQty) : Levels := levels.modify t fun dst => setAt dst lv pq

end Levels

/-! ### ExgMdToUpdateBS -/

variable (origDiv : ℕ) (book : SymbBSData) (e : ExgMcI081Entry)

def updateEntry : SymbBSData :=
  match entryBSType e.entryType with
  | none => book
  | some t =>
    let book := { book with flags := Function.update book.flags t true }
    if e.lv ≥ t.count then book
    else
      let pq : PriQty := ⟨e.price.assignTo origDiv, e.qty32⟩
      if e.updateAction = '2' then { book with levels := book.levels.delete t e.lv }
      else if e.updateAction = '0' then { book with levels := book.levels.insert t e.lv pq }
      else if e.updateAction = '1' ∨ e.updateAction = '5' then { book with levels := book.levels.change t e.lv pq }
      else book

def exgMdToUpdateBS (mdTime : ℤ) (mdEntry : List ExgMcI081Entry) (book : SymbBSData) (origDiv : ℕ)
    (mktseq : IntType.uint32.Val) : SymbBSData :=
  mdEntry.foldl (updateEntry origDiv) { book with infoTime := mdTime, flags := fun _ => false, marketSeq := mktseq }

/-! ### I081BSParserToRts -/

/-- The bytes of a price and a quantity: the quantity goes in first, the price before it. -/
def priQtyBytes (pq : PriQty) : Bytes :=
  (decimalToBitv .int64 priScale pq.pri.1).text ++ (intToBitv .uint64 pq.qty.1).text

/-- What an entry does to the book, and the bytes for the clients, none where it is passed
over. -/
def i081Entry : SymbBSData × Option Bytes :=
  match entryBSType e.entryType with
  | none => (book, none)
  | some t =>
    let book := { book with flags := Function.update book.flags t true }
    if h : e.lv < t.count then
      let bsType := t.code ||| UInt8.ofNat e.lv
      if e.updateAction = '2' then
        ({ book with levels := book.levels.delete t e.lv }, some [bsType ||| RtBSAction.delete.code])
      else if e.updateAction = '0' then
        let pq : PriQty := ⟨e.price.assignTo origDiv, e.qty32⟩
        ({ book with levels := book.levels.insert t e.lv pq }, some ((bsType ||| RtBSAction.new.code) :: priQtyBytes pq))
      else if e.updateAction = '1' ∨ e.updateAction = '5' then
        let dst := book.levels t ⟨e.lv, h⟩
        let mdPri := e.price.assignTo origDiv
        if mdPri = dst.pri then
          ({ book with levels := book.levels.change t e.lv { dst with qty := e.qty32 } },
            some ((bsType ||| RtBSAction.changeQty.code) :: (intToBitv .uint64 e.qty32.1).text))
        else
          let pq : PriQty := ⟨mdPri, e.qty32⟩
          ({ book with levels := book.levels.change t e.lv pq }, some ((bsType ||| RtBSAction.changePQ.code) :: priQtyBytes pq))
      else (book, none)
    else (book, none)

/-- The loop over the entries; one record for each that counts. -/
def i081Entries (origDiv : ℕ) : SymbBSData → List ExgMcI081Entry → SymbBSData × List Bytes
  | book, [] => (book, [])
  | book, e :: mdEntry =>
    let (book, record) := i081Entry origDiv book e
    let (book, records) := i081Entries origDiv book mdEntry
    (book, record.toList ++ records)

/-- `MdSymbsCtrlFlag` -/
structure MdSymbsCtrlFlag where
  hasMarketDataSeq : Bool
  hasChannelSeq : Bool

def packMktSeq (ctrlFlags : MdSymbsCtrlFlag) (marketSeq : IntType.uint32.Val) (rbuf : Bytes) : Bytes :=
  if ctrlFlags.hasMarketDataSeq then (intToBitv .uint32 marketSeq.1).text ++ rbuf else rbuf

/-- The part of `I081BSParserToRts` behind the check of the trading session: the book, and
what `PublishUpdateBS` publishes behind the type of the packet and its time. -/
def i081BSParserToRts (ctrlFlags : MdSymbsCtrlFlag) (origDiv : ℕ) (symbBS : SymbBSData) (pk : ExgMcI081) :
    SymbBSData × Option Bytes :=
  let symbBS := { symbBS with infoTime := pk.informationTime, flags := fun _ => false }
  let (symbBS, records) := i081Entries origDiv symbBS pk.mdEntry
  let uCount := records.length
  if uCount = 0 then (symbBS, none)
  else
    let rbuf := UInt8.ofNat (uCount - 1) :: records.flatten
    let (symbBS, rbuf) :=
      if ctrlFlags.hasChannelSeq then
        ({ symbBS with channelSeq := pk.channelSeq }, (intToBitv .uint64 pk.channelSeq.1).text ++ rbuf)
      else (symbBS, rbuf)
    let symbBS := { symbBS with marketSeq := pk.prodMsgSeq }
    (symbBS, some (packMktSeq ctrlFlags symbBS.marketSeq rbuf))

/-! ### The two routines -/

/-- Entries have nothing to do with the number of the market. -/
theorem updateEntry_marketSeq (seq : IntType.uint32.Val) (e : ExgMcI081Entry) :
    updateEntry origDiv { book with marketSeq := seq } e = { updateEntry origDiv book e with marketSeq := seq } := by
  rw [updateEntry, updateEntry]
  cases entryBSType e.entryType with
  | none => rfl
  | some t =>
    dsimp only
    split_ifs <;> rfl

theorem foldl_updateEntry_marketSeq (seq : IntType.uint32.Val) (mdEntry : List ExgMcI081Entry) :
    mdEntry.foldl (updateEntry origDiv) { book with marketSeq := seq } =
      { mdEntry.foldl (updateEntry origDiv) book with marketSeq := seq } := by
  induction mdEntry generalizing book with
  | nil => rfl
  | cons e mdEntry ih => rw [List.foldl_cons, updateEntry_marketSeq, ih, List.foldl_cons]

theorem i081Entry_book :
    (i081Entry origDiv book e).1 = updateEntry origDiv book e := by
  rw [i081Entry, updateEntry]
  cases entryBSType e.entryType with
  | none => rfl
  | some t =>
    dsimp only
    by_cases hlv : e.lv < t.count
    · rw [dif_pos hlv, if_neg (not_le.mpr hlv)]
      split_ifs with hdelete hnew hchange hsame
      · rfl
      · rfl
      · rw [← hsame]
      · rfl
      · rfl
    · rw [dif_neg hlv, if_pos (not_lt.mp hlv)]

theorem i081Entries_book (mdEntry : List ExgMcI081Entry) :
    (i081Entries origDiv book mdEntry).1 = mdEntry.foldl (updateEntry origDiv) book := by
  induction mdEntry generalizing book with
  | nil => rfl
  | cons e mdEntry ih =>
    rw [List.foldl_cons, ← i081Entry_book, ← ih]
    rfl

theorem length_i081Entries_le (mdEntry : List ExgMcI081Entry) :
    (i081Entries origDiv book mdEntry).2.length ≤ mdEntry.length := by
  induction mdEntry generalizing book with
  | nil => exact le_rfl
  | cons e mdEntry ih =>
    have hrecord : (i081Entry origDiv book e).2.toList.length ≤ 1 := by
      cases (i081Entry origDiv book e).2 <;> simp
    have hrest := ih (i081Entry origDiv book e).1
    rw [i081Entries, List.length_append, List.length_cons]
    omega

end Fon9.Rts

/-! The client's side of an order book: `DecodeUpdateBS` on a published packet, behind the
type of the packet and its time. The prices and quantities are the fields of the client's
tab, a field of a null price has the original value of null, and one of a null quantity is
zero. -/

namespace Fon9.Rts

open Lib Buffer Bitv

/-- What the decoder is called with. -/
structure RxSubrData where
  isStreamData : Bool
  isSubrTree : Bool
  seInfoTime : ℤ

/-- The tab of the client, with the sequence number that its note keeps. The fields
`FldBSMktSeq_` and `FldBSChannelSeq_` are there where the server sends them. -/
structure BSTab where
  infoTime : ℤ
  mktSeq : ℤ
  channelSeq : ℤ
  rtMktSeq : IntType.uint64.Val
  levels : Levels

section Decode

variable {Q : Type} [DcQueue Q]

/-- `ReadOrRaise` of a byte. -/
def readOrRaise (rxbuf : Q) : Except BitvError (UInt8 × Q) :=
  match peek1 rxbuf with
  | none => .error (.needsMore "RcMdRtsDecoder.Read")
  | some b => .ok (b, DcQueue.popConsumed rxbuf 1)

/-- `bsType & RtBSType::Mask` -/
def rtBSType (bsType : UInt8) : RtBSType :=
  let masked := bsType &&& 0x30
  if masked = 0x00 then .orderBuy
  else if masked = 0x10 then .orderSell
  else if masked = 0x20 then .derivedBuy
  else .derivedSell

/-- `bsType & RtBSAction::Mask` -/
def rtBSAction (bsType : UInt8) : RtBSAction :=
  let masked := bsType &&& 0xc0
  if masked = 0x00 then .new
  else if masked = 0x40 then .delete
  else if masked = 0x80 then .changePQ
  else .changeQty

/-- The null of a level's fields. -/
def nullPQ : PriQty := ⟨IntType.int64.cast (origNull .int64), IntType.uint64.cast 0⟩

variable (levels : Levels) (ctrlFlags : MdSymbsCtrlFlag) (t : RtBSType)

/-- `InsertPQ`: the level itself stays. -/
def insertPQ (lv : ℕ) : Levels := levels.modify t (copyBack lv (t.count - 1))

def deletePQ (lv : ℕ) : Levels :=
  levels.modify t fun flds => setAt (copyForward lv (t.count - lv - 1) flds) (t.count - 1) nullPQ

/-- `BitvToCell` of the price and the quantity of a level. -/
def priQtyToCells (lv : ℕ) (rxbuf : Q) : Except BitvError (Levels × Q) := do
  let (pri, rxbuf) ← bitvToDec .int64 priScale rxbuf
  let (qty, rxbuf) ← bitvToInt .uint64 rxbuf (IntType.uint64.cast 0)
  return (levels.change t lv ⟨pri, qty⟩, rxbuf)

/-- The switch over the action of a record. -/
def decodeAction (lv : Fin t.count) (rxbuf : Q) : RtBSAction → Except BitvError (Levels × Q)
  | .new => priQtyToCells (insertPQ levels t lv) t lv rxbuf
  | .changePQ => priQtyToCells levels t lv rxbuf
  | .changeQty => do
    let (qty, rxbuf) ← bitvToInt .uint64 rxbuf (IntType.uint64.cast 0)
    return (levels.change t lv { levels t lv with qty := qty }, rxbuf)
  | .delete => return (deletePQ levels t lv, rxbuf)

/-- One record; `false` where the level is bad, and the decoder stops. -/
def decodeRecord (rxbuf : Q) : Except BitvError (Levels × Q × Bool) := do
  let (bsType, rxbuf) ← readOrRaise rxbuf
  let t := rtBSType bsType
  let lv := (bsType &&& 0x0f).toNat
  if h : lv < t.count then
    let (levels, rxbuf) ← decodeAction levels t ⟨lv, h⟩ rxbuf (rtBSAction bsType)
    return (levels, rxbuf, true)
  else return (levels, rxbuf, false)

/-- The loop over the records; the count is one less than their number. -/
def decodeRecords : ℕ → Levels → Q → Except BitvError Levels
  | 0, levels, rxbuf => do
    let (levels, _, _) ← decodeRecord levels rxbuf
    return levels
  | count + 1, levels, rxbuf => do
    let (levels, rxbuf, isGood) ← decodeRecord levels rxbuf
    if isGood then decodeRecords count levels rxbuf else return levels

/-- `IsRxMktSeqNewer`: only data of one symbol is compared with the last number. -/
def isBSMktSeqNewer (rx : RxSubrData) (tab : BSTab) (rxbuf : Q) :
    Except BitvError (Bool × BSTab × Q) :=
  if ctrlFlags.hasMarketDataSeq then do
    let (rxSeq, rxbuf) ← bitvToInt .uint64 rxbuf (IntType.uint64.cast 0)
    if rx.isStreamData ∧ ¬ rx.isSubrTree then
      if tab.rtMktSeq.1 < rxSeq.1 ∨ rxSeq.1 = 0 then return (true, { tab with rtMktSeq := rxSeq, mktSeq := rxSeq.1 }, rxbuf)
      else return (false, tab, rxbuf)
    else return (true, { tab with mktSeq := rxSeq.1 }, rxbuf)
  else return (true, tab, rxbuf)

/-- The number of the channel goes to its field. -/
def readChannelSeq (tab : BSTab) (rxbuf : Q) : Except BitvError (BSTab × Q) :=
  if ctrlFlags.hasChannelSeq then do
    let (rxSeq, rxbuf) ← bitvToInt .uint64 rxbuf (IntType.uint64.cast 0)
    return ({ tab with channelSeq := rxSeq.1 }, rxbuf)
  else return (tab, rxbuf)

def decodeUpdateBS (rx : RxSubrData) (tab : BSTab) (rxbuf : Q) : Except BitvError BSTab := do
  let (isNewer, tab, rxbuf) ← isBSMktSeqNewer ctrlFlags rx tab rxbuf
  if isNewer then
    let (tab, rxbuf) ← readChannelSeq ctrlFlags tab rxbuf
    let (first, rxbuf) ← readOrRaise rxbuf
    let levels ← decodeRecords (first &&& 0x7f).toNat tab.levels rxbuf
    return { tab with infoTime := rx.seInfoTime, levels := levels }
  else return tab

end Decode

end Fon9.Rts
