import Fon9.Mc.Packet
import Fon9.Rts.UpdateBS

/-! The packets with the number of a message in their head: what `ToPackBcd` makes of a number, the image of a packet
with its checksum and CR LF behind it, and what the receiver of these packets makes of it. -/

namespace Fon9.Mc

open Lib Buffer Pk PkReceiver List DcQueue ExgMcHead

/-! ### Bytes at the front -/

theorem head?_take {n : ℕ} (hn : 0 < n) (s : Bytes) : (s.take n).head? = s.head? := by
  obtain ⟨m, rfl⟩ : ∃ m, n = m + 1 := ⟨n - 1, by omega⟩
  cases s <;> rfl

/-! ### Digits -/

/-- `AuxPackBcd<NumT, 2>::ToRev`: the value is cast to `unsigned char`. -/
def toBcdByte (val : ℕ) : UInt8 := ((UInt8.ofNat val / 10) <<< 4) ||| (UInt8.ofNat val % 10)

/-- `ToPackBcd` into so many bytes: the first one takes all the digits that are left. -/
def toPackBcd : ℕ → ℕ → Bytes
  | 0, _ => []
  | 1, num => [toBcdByte num]
  | sz + 2, num => toPackBcd (sz + 1) (num / 100) ++ [toBcdByte (num % 100)]

namespace ExgMiHead

variable (pk : Bytes)

def getSeqNo : ℕ := packBcdTo (ExgMcHead.field pk 9 4)

def getVersionNo : ℕ := packBcdTo (ExgMcHead.field pk 13 1)

def getBodyLength : ℕ := packBcdTo (ExgMcHead.field pk 14 2)

end ExgMiHead

/-- `sizeof(ExgMiHead)` -/
def kExgMiHeadSize : ℕ := 16

/-- `sizeof(ExgMiNoBody)` -/
def kExgMiNoBodySize : ℕ := 19

def getPkSize_ExgMi (pk : Bytes) : ℕ := u32 (ExgMiHead.getBodyLength pk + kExgMiNoBodySize)

/-- `ExgMiPkReceiver` -/
def exgMiPkReceiver : Config where
  pkHeadSize := kExgMiHeadSize
  getPkSize := getPkSize_ExgMi
  onPkReceived _ := true

/-- `FinalMiMessage`: the image of the packet without its tail, then the tail. -/
def finalMiMessage (image : Bytes) : Bytes := image ++ [calcCheckSum image (image.length + 3), 0x0d, 0x0a]

/-- The bytes are one packet, which is received, and nothing else. -/
def Accepted (frame : Bytes) : Prop :=
  feedBuffer exgMiPkReceiver {} frame = ({ receivedCount := 1, received := [frame] }, [], true)

/-! ### The receiver takes the packet -/

section Final

variable {image : Bytes} {rx : PkReceiver}

section

variable (hleader : image.head? = some kPkHeadLeader) (hhead : kExgMiHeadSize ≤ image.length)
  (hsize : getPkSize_ExgMi image = image.length + 3) (hmax : image.length + 3 < kMaxPacketSize)
include hleader hhead hsize hmax

end

end Final

end Fon9.Mc

/-! The converter `ExgMcToMiConv` from the packets of a channel to packets that have a number of their own for each kind
of message. A few kinds have a converter of their own; of the others the head is exchanged. -/

namespace Fon9.Mc

open Lib Buffer Pk Bitv Rts

/-! ### Handlers -/

/-- `AlNumToIdx`, in `uint8_t`. -/
def alNumToIdx (c : UInt8) : ℕ :=
  if c ≤ ch '9' then (c - ch '0').toNat
  else if c ≤ ch 'Z' then (c - ch 'A' + 10).toNat
  else if c ≤ ch 'z' then (c - ch 'a' + 36).toNat
  else 0xff

def kExgMdMaxTx : ℕ := alNumToIdx (ch '9')

def kExgMdMaxMg : ℕ := alNumToIdx (ch 'E')

/-- A place in `MsgMap_`. -/
abbrev MsgKey := Fin (kExgMdMaxTx + 1) × Fin (kExgMdMaxMg + 1)

variable (pk : Bytes)

/-- `GetMsgHandler`: there is no handler behind the ends of `MsgMap_`. -/
def getMsgHandler : Option MsgKey :=
  let tx := alNumToIdx (ExgMcHead.transmissionCode pk)
  let mg := alNumToIdx (ExgMcHead.messageKind pk)
  if h : tx < kExgMdMaxTx + 1 ∧ mg < kExgMdMaxMg + 1 then some (⟨tx, h.1⟩, ⟨mg, h.2⟩) else none

/-- `FnHandler_` -/
inductive FnHandler
  | convI081 | convI083 | convI084 | convI024 | convI025 | convI001 | convI002
  deriving DecidableEq

/-- What the constructor puts into `MsgMap_`. -/
def fnHandler (key : MsgKey) : Option FnHandler :=
  match key.1.val, key.2.val with
  | 2, 10 | 5, 10 => some .convI081
  | 2, 11 | 5, 11 => some .convI083
  | 2, 12 | 5, 12 => some .convI084
  | 2, 13 | 5, 13 => some .convI024
  | 2, 14 | 5, 14 => some .convI025
  | 0, 1 => some .convI001
  | 0, 2 => some .convI002
  | _, _ => none

/-- The members of `ExgMdSymb` that the converter reads: the four lists of `BS_`, and `PriceOrigDiv_`. -/
structure ExgMdSymb where
  levels : Levels
  priceOrigDiv : ℕ

structure ExgMcMessage where
  pk : ExgMcPk
  symb : Option ExgMdSymb

/-- `LastSeq_` of the handlers. -/
structure ExgMcToMiConv where
  lastSeq : MsgKey → UInt64

/-! ### Images -/

def kExgMcI024HeadSize : ℕ := 45
def kExgMiI020HeadSize : ℕ := 36
def kExgMcI025HeadSize : ℕ := 44
def kExgMiI021HeadSize : ℕ := 36
def kExgMdTailSize : ℕ := 3
def kExgMdMatchStatusCodeSize : ℕ := 1
/-- `ProdId_` of a packet of a channel. -/
def prodId : Bytes := ExgMcHead.field pk 19 20

/-- `CalculatedFlag_` of an I024 and of an I083. -/
def calculatedFlag : UInt8 := pk.getD 44 0

namespace ExgMdSymb

variable (symb : ExgMdSymb)

def derivedBuy : PriQty := symb.levels .derivedBuy ⟨0, Nat.one_pos⟩

def derivedSell : PriQty := symb.levels .derivedSell ⟨0, Nat.one_pos⟩

def hasDerived : Bool := symb.derivedBuy.qty.1 ≠ 0 ∨ symb.derivedSell.qty.1 ≠ 0

end ExgMdSymb

namespace ExgMcToMiConv

variable (conv : ExgMcToMiConv)

/-- `++msgh.LastSeq_`, and the packet. -/
def emit (key : MsgKey) (image : ℕ → Bytes) : ExgMcToMiConv × Bytes :=
  let seq := conv.lastSeq key + 1
  (⟨Function.update conv.lastSeq key seq⟩, finalMiMessage (image seq.toNat))

end ExgMcToMiConv

end Fon9.Mc
