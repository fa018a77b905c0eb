import Fon9.Mc.ToMiConv

/-! What the converted packets carry: the matches of an I024, the prices of the day of an I025, the book of the symbol, and
of the other messages all that is behind the head. A run of the converter sends packets that are received, with numbers
that go up by one for each kind of message. -/

namespace Fon9.Mc

open Lib Buffer Pk PkReceiver Bitv Rts List ExgMcHead ExgMiHead Function IntType Option ExgMcToMiConv ExgMdSPrice Int

/-! ### What is in a packet -/

/-- `ExgMdMatchHead`, `ExgMdMatchData` and `ExgMdMatchCnt`, field by field. -/
structure MatchReport where
  matchTime : Bytes
  firstMatchPrice : Bytes
  firstMatchQty : Bytes
  matchDisplayItem : UInt8
  matchData : List (Bytes × Bytes)
  matchTotalQty : Bytes
  matchBuyCnt : Bytes
  matchSellCnt : Bytes
  deriving DecidableEq

/-- How many matches follow the first one. -/
def matchCount (pk : Bytes) (offset : ℕ) : ℕ := (pk.getD (offset + 16) 0 &&& 0x7f).toNat

/-- The matches behind an offset. -/
def matchReport (pk : Bytes) (offset : ℕ) : MatchReport :=
  let count := matchCount pk offset
  { matchTime := ExgMcHead.field pk offset 6
    firstMatchPrice := ExgMcHead.field pk (offset + 6) 6
    firstMatchQty := ExgMcHead.field pk (offset + 12) 4
    matchDisplayItem := pk.getD (offset + 16) 0
    matchData := (List.range count).map fun i =>
      (ExgMcHead.field pk (offset + 17 + 8 * i) 6, ExgMcHead.field pk (offset + 23 + 8 * i) 2)
    matchTotalQty := ExgMcHead.field pk (offset + 17 + 8 * count) 4
    matchBuyCnt := ExgMcHead.field pk (offset + 21 + 8 * count) 4
    matchSellCnt := ExgMcHead.field pk (offset + 25 + 8 * count) 4 }

/-- The book of an I080; without a flag there are no derived orders. -/
structure MiBook where
  buys : Fin kBSCount → PriQty
  sells : Fin kBSCount → PriQty
  derived : Option (PriQty × PriQty)

/-- `AssignTo` of a price, and the quantity. -/
def orderAt (origDiv : ℕ) (pk : Bytes) (offset : ℕ) : PriQty where
  pri := ExgMdSPrice.assignTo ⟨Char.ofNat (pk.getD offset 0).toNat, packBcdTo (ExgMcHead.field pk (offset + 1) 5)⟩ origDiv
  qty := IntType.uint64.cast (IntType.uint32.cast (packBcdTo (ExgMcHead.field pk (offset + 6) 4))).1

/-- `ExgMdPriceTo` of a price without a sign, and the quantity. -/
def derivedAt (origDiv : ℕ) (pk : Bytes) (offset : ℕ) : PriQty where
  pri := ExgMdSPrice.assignTo ⟨'0', packBcdTo (ExgMcHead.field pk offset 5)⟩ origDiv
  qty := IntType.uint64.cast (IntType.uint32.cast (packBcdTo (ExgMcHead.field pk (offset + 5) 4))).1

/-- The book is read from an I080. -/
def readI080 (origDiv : ℕ) (pk : Bytes) : MiBook where
  buys L := orderAt origDiv pk (36 + 10 * L)
  sells L := orderAt origDiv pk (86 + 10 * L)
  derived :=
    if packBcdTo (ExgMcHead.field pk 136 1) = 0 then none else some (derivedAt origDiv pk 137, derivedAt origDiv pk 146)

/-- The book of a symbol; derived orders have a quantity. -/
def ExgMdSymb.book (symb : ExgMdSymb) : MiBook where
  buys := symb.levels .orderBuy
  sells := symb.levels .orderSell
  derived := if symb.hasDerived then some (symb.derivedBuy, symb.derivedSell) else none

/-! ### What the converter is for -/

/-- The head of a packet stays, except for its kind and its version. -/
structure SameHead (pk frame : Bytes) (mg : UInt8) (ver : ℕ) : Prop where
  transmissionCode_eq : ExgMcHead.transmissionCode frame = ExgMcHead.transmissionCode pk
  messageKind_eq : ExgMcHead.messageKind frame = mg
  informationTime_eq : ExgMcHead.field frame 3 6 = ExgMcHead.field pk 3 6
  version_eq : ExgMiHead.getVersionNo frame = ver
  prodId_eq : ExgMcHead.field frame 16 20 = prodId pk

/-- An I020 or an I022 has the matches of the I024, and a status in front of the tail. -/
def CarriesMatches (pk frame : Bytes) : Prop :=
  (if calculatedFlag pk = ch '1' then SameHead pk frame (ch '7') 2 else SameHead pk frame (ch '1') 4) ∧
    matchReport frame kExgMiI020HeadSize = matchReport pk kExgMcI024HeadSize ∧
    frame.length = kExgMiI020HeadSize + 29 + 8 * matchCount pk kExgMcI024HeadSize + kExgMdMatchStatusCodeSize + kExgMdTailSize

/-- An I021 has the prices and the time of the I025. -/
def CarriesHighLow (pk frame : Bytes) : Prop :=
  SameHead pk frame (ch '5') 3 ∧ ExgMcHead.field frame kExgMiI021HeadSize 18 = ExgMcHead.field pk kExgMcI025HeadSize 18

/-- An I080 or an I082 has the book of the symbol. -/
def CarriesBook (pk : Bytes) (symb : ExgMdSymb) (frame : Bytes) (mg : UInt8) (ver : ℕ) : Prop :=
  SameHead pk frame mg ver ∧ readI080 symb.priceOrigDiv frame = symb.book

/-- All that is behind the number. -/
def CarriesBody (pk frame : Bytes) : Prop :=
  frame.take 9 = pk.take 9 ∧ ExgMcHead.field frame 13 3 = ExgMcHead.field pk 16 3 ∧
    (frame.drop kExgMiHeadSize).take (frame.length - kExgMiNoBodySize) =
      (pk.drop kExgMcHeadSize).take (pk.length - kExgMcNoBodySize)

/-- What is sent for a message carries what the message is about. -/
def Carries (e : ExgMcMessage) (frame : Bytes) : Prop :=
  match (getMsgHandler e.pk.data).map fnHandler with
  | some none => CarriesBody e.pk.data frame
  | some (some .convI024) => CarriesMatches e.pk.data frame
  | some (some .convI025) => CarriesHighLow e.pk.data frame
  | some (some .convI081) => ∃ symb, e.symb = some symb ∧ CarriesBook e.pk.data symb frame (ch '2') 2
  | some (some .convI083) => ∃ symb, e.symb = some symb ∧
      if calculatedFlag e.pk.data = ch '1' then CarriesBook e.pk.data symb frame (ch '8') 1
      else CarriesBook e.pk.data symb frame (ch '2') 2
  | _ => False

section Field

variable {a b pk frame : Bytes} {off n : ℕ}

theorem field_append_left (h : off + n ≤ a.length) : ExgMcHead.field (a ++ b) off n = ExgMcHead.field a off n := by
  rw [ExgMcHead.field, ExgMcHead.field, drop_append_of_le_length (by omega), take_append_of_le_length]
  rw [length_drop]
  omega

theorem getD_field (h : off < pk.length) : ExgMcHead.field pk off 1 = [pk.getD off 0] := by
  rw [ExgMcHead.field, drop_eq_getElem_cons h, getD_eq_getElem?_getD, getElem?_eq_getElem h]
  rfl

end Field

/-! ### The head of an image -/

variable {frame : Bytes} {n : ℕ}

section Head

variable {pk : Bytes} {mg : UInt8} {ver sz seq : ℕ}

/-- What the head of an image says. -/
structure HasHead (pk frame : Bytes) (mg : UInt8) (ver sz seq : ℕ) : Prop where
  head0 : frame.take 2 = pk.take 2
  messageKind : ExgMcHead.field frame 2 1 = [mg]
  informationTime : ExgMcHead.field frame 3 6 = ExgMcHead.field pk 3 6
  seqNo : ExgMcHead.field frame 9 4 = toPackBcd 4 seq
  version : ExgMcHead.field frame 13 1 = toPackBcd 1 ver
  bodyLength : ExgMcHead.field frame 14 2 = toPackBcd 2 (sz - kExgMiNoBodySize)

section

variable (h : HasHead pk frame mg ver sz seq)
include h

theorem HasHead.transmissionCode_eq :
    transmissionCode frame = transmissionCode pk := by
  have hget : ∀ bs : Bytes, bs.getD 1 0 = (bs.take 2).getD 1 0 := by
    intro bs
    rw [getD_eq_getElem?_getD, getD_eq_getElem?_getD, getElem?_take_of_lt (by decide)]
  rw [transmissionCode, transmissionCode, hget, h.head0, ← hget]

theorem HasHead.messageKind_eq (hlen : 2 < frame.length) :
    ExgMcHead.messageKind frame = mg := by
  have hkind := h.messageKind
  rw [getD_field hlen] at hkind
  exact (List.cons.inj hkind).1

theorem HasHead.leader : frame.head? = pk.head? := by
  rw [← head?_take (show 0 < 2 by decide) frame, h.head0, head?_take (by decide)]

end

/-- The tail does not change the head. -/
theorem HasHead.final {image : Bytes} (h : HasHead pk image mg ver sz seq) (hlen : 16 ≤ image.length) :
    HasHead pk (finalMiMessage image) mg ver sz seq where
  head0 := by
    rw [finalMiMessage, take_append_of_le_length (by omega)]
    exact h.head0
  messageKind := (field_append_left (by omega)).trans h.messageKind
  informationTime := (field_append_left (by omega)).trans h.informationTime
  seqNo := (field_append_left (by omega)).trans h.seqNo
  version := (field_append_left (by omega)).trans h.version
  bodyLength := (field_append_left (by omega)).trans h.bodyLength

end Head

/-! ### The converters -/

section Converters

variable {pk frame : Bytes} {off off' n : ℕ}

end Converters

/-! ### The book -/

section Book

variable {frame : Bytes} {off origDiv : ℕ} {pq : PriQty}

end Book

/-! ### Runs of the converter -/

section Run

variable {conv conv' : ExgMcToMiConv} {e : ExgMcMessage} {image : ℕ → Bytes} {out : List (ExgMcMessage × Bytes)}

/-- What all images of a message have, whatever the number is. -/
structure Sound (e : ExgMcMessage) (image : ℕ → Bytes) : Prop where
  accepted : ∀ seq, Accepted (finalMiMessage (image seq))
  carries : ∀ seq, Carries e (finalMiMessage (image seq))
  seqNo : ∀ seq < 160000000, ExgMiHead.getSeqNo (finalMiMessage (image seq)) = seq
  handler : ∀ seq, getMsgHandler (finalMiMessage (image seq)) = getMsgHandler (image 0)

variable {key : MsgKey} {r : ExgMcToMiConv × Option Bytes}

end Run

end Fon9.Mc
