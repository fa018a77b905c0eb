import Fon9.Base.StrTo

/-! The FIX message parser. `Verify` finds the header, the body length and the
check sum of the message at the front of a text; `ParseFields` splits its body
into fields. Arrays indexed by tag or by slot are functions, a pointer into the
field array is its tag, and a view of a text keeps the bytes behind its end, which
the RawData branch reads.

Parsed messages and the administrative messages of a session: their tags and
types, the check of the CompIDs, and the fields of the messages a receiver sends.
A parsed message is given by its text, its number and its fields. -/

namespace Fon9.Fix

open Lib

/-- `f9fix_kCHAR_SPL`, the field separator. -/
def kCharSpl : UInt8 := 0x01

def kTagCheckSum : ℕ := 10
def kTagMsgSeqNum : ℕ := 34
def kTagMsgType : ℕ := 35
def kTagSendingTime : ℕ := 52
def kTagRawDataLength : ℕ := 95
def kTagRawData : ℕ := 96

/-- `f9fix_BEGIN_HEADER`: "8=verValue|9=". -/
def kBeginHeader (verValue : Bytes) : Bytes :=
  [ch '8', ch '='] ++ verValue ++ [kCharSpl, ch '9', ch '=']

def kBeginHeaderV44 : Bytes := kBeginHeader [ch 'F', ch 'I', ch 'X', ch '.', ch '4', ch '.', ch '4']

def kBeginHeaderV42 : Bytes := kBeginHeader [ch 'F', ch 'I', ch 'X', ch '.', ch '4', ch '.', ch '2']

/-- The width of "|10=xxx|". -/
def kFixTailWidth : ℕ := 8
/-- The width of "8=FIX.4.4|9=xxx|". -/
def kFixMinHeaderWidth : ℕ := 16
def kFixMaxBodyLength : ℕ := 1024 * 1024
def kMaxDupFieldCount : ℕ := 4

/-- The largest value of an unsigned 32-bit number. -/
def uint32Max : ℕ := 2 ^ 32 - 1

/-- A view of a text and the bytes behind its end. -/
structure StrView where
  text : Bytes
  after : Bytes := []
  deriving DecidableEq

inductive Result
  | eInvalidHeader
  | eFormat
  | eDupField
  | eRawData
  | eOverFixMaxBodyLength
  | eCheckSum
  | needsMore
  | used (size : ℕ)
  deriving DecidableEq

def Result.parseEnd : Result := .used 1

/-- The code is below `NeedsMore`. -/
def Result.isError : Result → Bool
  | .needsMore => false
  | .used _ => false
  | _ => true

/-- The fields `Parse` has to find before it may stop; none for the full message. -/
structure Until where
  msgSeqNum : Bool := false
  msgType : Bool := false
  sendingTime : Bool := false
  deriving DecidableEq

def Until.fullMessage : Until := {}

/-- `until -= Until::tagName`, for the tag just parsed. -/
def Until.remove (u : Until) (tag : ℕ) : Until :=
  if tag = kTagMsgSeqNum then { u with msgSeqNum := false }
  else if tag = kTagMsgType then { u with msgType := false }
  else if tag = kTagSendingTime then { u with sendingTime := false }
  else u

structure FixField where
  tag : ℕ := 0
  mIndex : ℕ := 0
  valueCount : ℕ := 0
  value : Bytes := []
  deriving DecidableEq

structure FixParser where
  expectHeader : Bytes := []
  fieldArray : ℕ → FixField := fun _ => {}
  fieldList : List ℕ := []
  msgSeqNum : ℕ := 0
  expectSize : ℕ := 0
  mIndexNext : ℕ := 0
  mFields : ℕ → Bytes := fun _ => []

namespace FixParser

variable (p : FixParser)

def clear : FixParser :=
  { p with
    msgSeqNum := 0
    expectSize := 0
    mIndexNext := 0
    fieldList := []
    fieldArray := fun tag =>
      if tag ∈ p.fieldList then { p.fieldArray tag with valueCount := 0 } else p.fieldArray tag }

def resetExpectHeader (expectHeader : Bytes) : FixParser := { p with expectHeader := expectHeader }

def getField (tag : ℕ) : Option FixField :=
  if (p.fieldArray tag).valueCount > 0 then some (p.fieldArray tag) else none

def getValue (fld : FixField) (index : ℕ) : Bytes :=
  if index ≥ fld.valueCount then []
  else if index = 0 then fld.value
  else p.mFields (fld.mIndex + (index - 1))

/-- The first part of `Verify`: the text behind "8=x|9=". A header that is not known
yet is looked for in a text long enough for the shortest message and kept. -/
def verifyHeader (text : Bytes) (verifyHeader : Bool) : FixParser × Except Result Bytes :=
  let expHeaderWidth := p.expectHeader.length
  if expHeaderWidth > 0 then
    if text.length ≤ expHeaderWidth + kFixTailWidth then
      ({ p with expectSize := u16 (expHeaderWidth + kFixTailWidth + 1) }, .error .needsMore)
    else if verifyHeader && (text.take expHeaderWidth != p.expectHeader) then
      (p, .error .eInvalidHeader)
    else (p, .ok (text.drop expHeaderWidth))
  else if text.length ≤ kFixMinHeaderWidth + kFixTailWidth then
    ({ p with expectSize := kFixMinHeaderWidth + kFixTailWidth + 1 }, .error .needsMore)
  else if text.take 2 ≠ [ch '8', ch '='] then (p, .error .eInvalidHeader)
  else
    let msgbeg := (text.drop 2).dropWhile (· ≠ kCharSpl)
    if msgbeg.take 3 ≠ [kCharSpl, ch '9', ch '='] then (p, .error .eInvalidHeader)
    else
      ({ p with expectHeader := text.take (text.length - (msgbeg.length - 3)) }, .ok (msgbeg.drop 3))

/-- The tail test of `Verify` on the text from "|10=xxx|" on. -/
def verifyTail (pend : Bytes) : Bool :=
  pend.take 4 == [kCharSpl, ch '1', ch '0', ch '=']

/-- The check sum in the tail, less every byte before it. -/
def checkSumRest (msg pend : Bytes) : UInt8 :=
  msg.foldl (fun cks b => cks - b) (pic9StrTo3 (pend.drop 4))

variable (fixmsg : StrView)

/-- The second part of `Verify`: `msgbeg` is the text behind the header. -/
def verifyBody (msgbeg : Bytes) (verifyCheckSum : Bool) :
    FixParser × StrView × Result :=
  let r := strToUInt uint32Max msgbeg 0
  let bodyLength := r.1
  if r.2.head? ≠ some kCharSpl then (p, { fixmsg with text := r.2 }, .eInvalidHeader)
  else
    let pos := fixmsg.text.length - r.2.length
    let pend := u32 (pos + bodyLength)
    let expsz := u32 (pend + kFixTailWidth)
    if fixmsg.text.length < expsz then
      ({ p with expectSize := u16 expsz }, fixmsg,
        if bodyLength > kFixMaxBodyLength then .eOverFixMaxBodyLength else .needsMore)
    else
      let tail := fixmsg.text.drop pend
      if verifyCheckSum && !verifyTail tail then (p, { fixmsg with text := r.2 }, .eFormat)
      else if verifyCheckSum && (checkSumRest (fixmsg.text.take pend) tail != kCharSpl) then
        ({ p.clear with expectSize := u16 expsz }, { fixmsg with text := r.2 }, .eCheckSum)
      else (p, ⟨(fixmsg.text.take pend).drop (pos + 1), tail ++ fixmsg.after⟩, .used expsz)

def verify (vHeader vCheckSum : Bool) : FixParser × StrView × Result :=
  if p.expectSize > 0 ∧ fixmsg.text.length < p.expectSize then (p, fixmsg, .needsMore)
  else
    match p.verifyHeader fixmsg.text vHeader with
    | (p, .error e) => (p, fixmsg, e)
    | (p, .ok msgbeg) => p.verifyBody fixmsg msgbeg vCheckSum

/-- The field `tag` is about to get a value; for its second one it gets a block of
slots. -/
def nextSlot (tag : ℕ) : FixParser :=
  let fld := p.fieldArray tag
  if fld.valueCount = 1 then
    { p with
      fieldArray := Function.update p.fieldArray tag { fld with tag := tag, mIndex := p.mIndexNext }
      mIndexNext := u16 (p.mIndexNext + kMaxDupFieldCount) }
  else { p with fieldArray := Function.update p.fieldArray tag { fld with tag := tag } }

/-- A value of the field `tag` is stored and counted. -/
def putValue (tag : ℕ) (value : Bytes) : FixParser :=
  let fld := p.fieldArray tag
  if fld.valueCount = 0 then
    { p with
      fieldArray := Function.update p.fieldArray tag { fld with value := value, valueCount := 1 }
      fieldList := p.fieldList ++ [tag] }
  else
    { p with
      fieldArray := Function.update p.fieldArray tag { fld with valueCount := fld.valueCount + 1 }
      mFields := Function.update p.mFields (fld.mIndex + (fld.valueCount - 1)) value
      fieldList := p.fieldList ++ [tag] }

/-- The value of the field `tag` at the front of the view, and the text after it.
RawData has the length that the first RawDataLength before it says. -/
def fetchValue (tag : ℕ) (fixmsg : StrView) : Except Result (Bytes × Bytes) :=
  if tag ≠ kTagRawData then .ok (strFetchNoTrim fixmsg.text kCharSpl)
  else
    match p.getField kTagRawDataLength with
    | none => .ok (strFetchNoTrim fixmsg.text kCharSpl)
    | some fld =>
      let rawDataLength := (strToUInt uint32Max fld.value uint32Max).1
      if rawDataLength > fixmsg.text.length then .error .eRawData
      else if ((fixmsg.text ++ fixmsg.after).drop rawDataLength).head? ≠ some kCharSpl then
        .error .eRawData
      else .ok (fixmsg.text.take rawDataLength, fixmsg.text.drop (rawDataLength + 1))

/-- One turn of the loop of `ParseFields`: a field at the front of the view. -/
def parseField : FixParser × StrView × Except Result ℕ :=
  let r := strToUInt uint32Max fixmsg.text 0
  let tag := r.1
  let fixmsg : StrView := { fixmsg with text := r.2 }
  if tag = 0 ∨ fixmsg.text.head? ≠ some (ch '=') then (p, fixmsg, .error .eFormat)
  else
    let fixmsg : StrView := { fixmsg with text := fixmsg.text.drop 1 }
    if (p.fieldArray tag).valueCount ≥ kMaxDupFieldCount + 1 then (p, fixmsg, .error .eDupField)
    else
      let p := p.nextSlot tag
      match p.fetchValue tag fixmsg with
      | .error e => (p, fixmsg, .error e)
      | .ok (value, rest) => (p.putValue tag value, { fixmsg with text := rest }, .ok tag)

/-- The end of `ParseFields`: the message sequence number is kept. -/
def parseFieldsEnd : FixParser :=
  { p with
    msgSeqNum :=
      match p.getField kTagMsgSeqNum with
      | some fld => (strToUInt uint32Max fld.value 0).1
      | none => 0 }

/-- The loop of `ParseFields`. A turn takes at least one byte, so that the length of
the text bounds the number of turns. -/
def parseFieldsLoop : ℕ → FixParser → StrView → Until → FixParser × StrView × Result
  | 0, p, fixmsg, _ => (p.parseFieldsEnd, fixmsg, .parseEnd)
  | fuel + 1, p, fixmsg, u =>
    if fixmsg.text = [] then (p.parseFieldsEnd, fixmsg, .parseEnd)
    else
      match p.parseField fixmsg with
      | (p, fixmsg, .error e) => (p, fixmsg, e)
      | (p, fixmsg, .ok tag) =>
        if u = .fullMessage then parseFieldsLoop fuel p fixmsg u
        else if u.remove tag = .fullMessage then (p.parseFieldsEnd, fixmsg, .parseEnd)
        else parseFieldsLoop fuel p fixmsg (u.remove tag)

def parseFields (u : Until) : FixParser × StrView × Result :=
  parseFieldsLoop fixmsg.text.length p fixmsg u

def parse (u : Until := .fullMessage) : FixParser × StrView × Result :=
  let full : Bool := u = .fullMessage
  match p.verify fixmsg full full with
  | (p, fixmsg, rcode) =>
    if rcode = .needsMore ∨ rcode = .eCheckSum then (p, fixmsg, rcode)
    else if rcode.isError then (p.clear, fixmsg, rcode)
    else
      match p.clear.parseFields fixmsg u with
      | (p, fixmsg, pcode) => if pcode.isError then (p, fixmsg, pcode) else (p, fixmsg, rcode)

end FixParser

end Fon9.Fix

namespace Fon9.Fix

def kTagBeginSeqNo : ℕ := 7
def kTagEndSeqNo : ℕ := 16
def kTagNewSeqNo : ℕ := 36
def kTagPossDupFlag : ℕ := 43
def kTagRefSeqNum : ℕ := 45
def kTagSenderCompID : ℕ := 49
def kTagSenderSubID : ℕ := 50
def kTagTargetCompID : ℕ := 56
def kTagTargetSubID : ℕ := 57
def kTagText : ℕ := 58
def kTagEncryptMethod : ℕ := 98
def kTagHeartBtInt : ℕ := 108
def kTagTestReqID : ℕ := 112
def kTagGapFillFlag : ℕ := 123
def kTagRefTagID : ℕ := 371
def kTagRefMsgType : ℕ := 372
def kTagSessionRejectReason : ℕ := 373

/-- A text of the source, byte by byte. -/
def cstr (s : String) : Bytes := s.toList.map ch

def kMsgTypeHeartbeat : Bytes := [ch '0']
def kMsgTypeTestRequest : Bytes := [ch '1']
def kMsgTypeResendRequest : Bytes := [ch '2']
def kMsgTypeSessionReject : Bytes := [ch '3']
def kMsgTypeSequenceReset : Bytes := [ch '4']
def kMsgTypeLogout : Bytes := [ch '5']
def kMsgTypeLogon : Bytes := [ch 'A']

/-- A parsed message. -/
structure FixMsg where
  origMsgStr : Bytes := []
  msgSeqNum : ℕ
  fields : List (ℕ × Bytes)
  deriving DecidableEq

namespace FixMsg

variable (msg : FixMsg)

def getField (tag : ℕ) : Option Bytes := msg.fields.lookup tag

/-- A field read as a sequence number. -/
def seqNumOf (tag : ℕ) : Option ℕ := (msg.getField tag).map fun value => (strToUInt uint32Max value 0).1

/-- The field starts with 'Y'. -/
def isFlagSet (tag : ℕ) : Bool := (msg.getField tag).any fun value => value.head? == some (ch 'Y')

end FixMsg

structure CompID where
  compID : Bytes
  subID : Bytes := []

/-- The tag that does not fit, or 0. -/
def CompID.check (id : CompID) (msg : FixMsg) (tagCompID tagSubID : ℕ) : ℕ :=
  if !id.subID.isEmpty && (msg.getField tagSubID != some id.subID) then tagSubID
  else if msg.getField tagCompID == some id.compID then 0
  else tagCompID

/-- The CompIDs as seen from here: the sender is this side. -/
structure CompIDs where
  sender : CompID
  target : CompID

def CompIDs.check (ids : CompIDs) (msg : FixMsg) : ℕ :=
  let errTag := ids.sender.check msg kTagTargetCompID kTagTargetSubID
  if errTag = 0 then ids.target.check msg kTagSenderCompID kTagSenderSubID else errTag

/-- The calls to the sender: a message with its own fields in wire order, a range to send
again, or a new number to send. -/
inductive Sent
  | send (msgType : Bytes) (fields : List (ℕ × Bytes))
  | replay (beginSeqNo endSeqNo : ℕ)
  | resetNextSendSeq (nextSeqNum : ℕ)
  | sequenceReset (newSeqNo : ℕ)
  deriving DecidableEq

def sendRequiredTagMissing (refSeqNum refTagID : ℕ) (refMsgType : Bytes) : Sent :=
  .send kMsgTypeSessionReject <|
    (if refMsgType.isEmpty then [] else [(kTagRefMsgType, refMsgType)]) ++
    [(kTagRefSeqNum, uintToStr refSeqNum), (kTagRefTagID, uintToStr refTagID),
      (kTagSessionRejectReason, cstr "1"),
      (kTagText, cstr "Required tag missing:" ++ uintToStr refTagID)]

/-- `fields` are those put into the builder before. -/
def sendSessionReject (refSeqNum refTagID : ℕ) (refMsgType : Bytes) (fields : List (ℕ × Bytes)) : Sent :=
  .send kMsgTypeSessionReject <|
    [(kTagRefMsgType, refMsgType), (kTagRefSeqNum, uintToStr refSeqNum)] ++
    (if refTagID ≠ 0 then [(kTagRefTagID, uintToStr refTagID)] else []) ++ fields

def sendInvalidMsgType (refSeqNum : ℕ) (refMsgType : Bytes) : Sent :=
  .send kMsgTypeSessionReject
    [(kTagRefSeqNum, uintToStr refSeqNum), (kTagRefMsgType, refMsgType),
      (kTagSessionRejectReason, cstr "11"), (kTagText, cstr "Invalid MsgType:" ++ refMsgType)]

def sendHeartbeat (testReqID : Option Bytes) : Sent :=
  .send kMsgTypeHeartbeat (testReqID.toList.map fun value => (kTagTestReqID, value))

end Fon9.Fix
