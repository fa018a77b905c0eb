import Fon9.Pk.Stream

/-! The packets of the exchange's channels, and the file that a channel logs them in: behind
the time that each was logged at and its size. -/

namespace Fon9.Mc

open Lib Buffer Pk

/-- The two digits of a byte. -/
def bcdDigits (c : UInt8) : ℕ := (c >>> 4).toNat * 10 + (c &&& 0x0f).toNat

def packBcdTo (pbcd : Bytes) : ℕ := pbcd.foldl (fun n c => n * 100 + bcdDigits c) 0

namespace ExgMcHead

/-- The bytes of a field. -/
def field (pk : Bytes) (offset size : ℕ) : Bytes := (pk.drop offset).take size

variable (pk : Bytes)

def transmissionCode : UInt8 := pk.getD 1 0

def messageKind : UInt8 := pk.getD 2 0

def getChannelId : ℕ := packBcdTo (field pk 9 2)

def getChannelSeq : ℕ := packBcdTo (field pk 11 5)

def getBodyLength : ℕ := packBcdTo (field pk 17 2)

end ExgMcHead

/-- `sizeof(ExgMcHead)` -/
def kExgMcHeadSize : ℕ := 19

/-- `sizeof(ExgMcNoBody)` -/
def kExgMcNoBodySize : ℕ := 22

def getPkSize_ExgMc (pk : Bytes) : ℕ := u32 (ExgMcHead.getBodyLength pk + kExgMcNoBodySize)

/-- `ExgMcPkReceiver` -/
def exgMcPkReceiver : Config where
  pkHeadSize := kExgMcHeadSize
  getPkSize := getPkSize_ExgMc
  onPkReceived _ := true

namespace ExgMcI084

variable (pk : Bytes)

def messageType : UInt8 := pk.getD 19 0

/-- `LastSeq_` of `RefreshBegin` and of `RefreshComplete`. -/
def lastSeq : ℕ := packBcdTo (ExgMcHead.field pk 20 5)

end ExgMcI084

/-- A packet as a receiver delivers it. -/
structure ExgMcPk where
  data : Bytes
  leader : data.head? = some kPkHeadLeader
  size : data.length = getPkSize_ExgMc data
  crLf : data[data.length - 2]? = some 0x0d ∧ data[data.length - 1]? = some 0x0a
  checkSum : PkReceiver.calcCheckSum data (data.length + 1) = 0
  deriving DecidableEq

def bitvT_TimeStamp_Orig7 : UInt8 := 0xe0

/-- A packet that was logged, and when. -/
structure TsRecord where
  now : ℕ
  pk : ExgMcPk

namespace TsRecord

variable (r : TsRecord)

/-- What `TsAppend` puts before the packet. -/
def head : Bytes := bitvT_TimeStamp_Orig7 :: (BigEndian.bytes 7 r.now ++ BigEndian.bytes 2 r.pk.data.length)

def bytes : Bytes := r.head ++ r.pk.data

end TsRecord

/-- A log: what was there when it was opened, and what has been appended since. -/
structure PkLog where
  opened : Bytes := []
  records : List TsRecord := []

namespace PkLog

variable (log : PkLog)

def content : Bytes := log.opened ++ log.records.flatMap TsRecord.bytes

/-- `GetFileSize` -/
def fileSize : ℕ := log.content.length

def tsAppend (r : TsRecord) : PkLog := { log with records := log.records ++ [r] }

end PkLog

/-- `FileReadAll` into a packet receiver, 32K at a time. -/
def fileReadAll (file : Bytes) : ℕ → ℕ → PkReceiver × DcQueueList → PkReceiver × DcQueueList
  | 0, _, s => s
  | fuel + 1, fpos, s =>
    let node := (file.drop fpos).take (32 * 1024)
    if node = [] then s else fileReadAll file fuel (fpos + node.length) (feed exgMcPkReceiver s [.pushBack [.data node 0]])

/-- The packets that are read back, from a position on. Every turn of `FileReadAll` but the last
reads something. -/
def PkLog.readAll (log : PkLog) (fpos : ℕ) : List Bytes :=
  (fileReadAll log.content (log.content.length + 1) fpos ({}, {})).1.received

end Fon9.Mc
