import Fon9.Bitv.Decode
import Fon9.Inn.InnFile
import Fon9.Inn.Table

/-! An InnDbf: rows of several tables in the rooms of one file. A handler of a table asks
for a row to be written or freed; the requests wait until they are carried out one by one.
The synchronizer is left out: it is told of a row, and does not touch the rooms. -/

namespace Fon9.Inn

open Lib Bitv Buffer

def kInnRoomType_Free : InnRoomType := 0x7f

def kInnRoomType_ExFileHeader : InnRoomType := 0x81

def InnDbfRoomType.toInnRoomType : InnDbfRoomType → InnRoomType
  | .RowData => 0x10
  | .RowDeleted => 0x11

inductive InnDbfRoomNote where
  | NoPending
  | NeedsSync
  | FromSyncer
  deriving DecidableEq, Repr

/-- What an operation throws. -/
inductive DbfError where
  | inn (e : InnError)
  | bitv (e : BitvError)
  deriving DecidableEq, Repr

def liftInn {α : Type} : Except InnError α → Except DbfError α := Except.mapError DbfError.inn

def liftBitv {α : Type} : Except BitvError α → Except DbfError α := Except.mapError DbfError.bitv

/-! ### Sync keys -/

/-- The fields are a `TimeStamp`, a `uint32_t` and a `HostId`. -/
def InnSyncKey.InType (k : InnSyncKey) : Prop :=
  (IntType.int64.min ≤ k.modifyTime ∧ k.modifyTime ≤ IntType.int64.max) ∧
    k.modifySeq < 2 ^ 32 ∧ k.origHostId < 2 ^ 32

/-- A sync key as the rooms hold it. -/
abbrev RoomSyncKey := {k : InnSyncKey // k.InType}

namespace RoomSyncKey

def zero : RoomSyncKey := ⟨⟨0, 0, 0⟩, by decide, by decide, by decide⟩

/-- `SetLocalModified` at the time `now`. -/
def setLocalModified (k : RoomSyncKey) (now : IntType.int64.Val) (localHostId : UInt32) : RoomSyncKey :=
  let seq := u32 (k.1.modifySeq + 1)
  let time :=
    if k.1.modifyTime < now.1 then now
    else if seq ≤ 0 then IntType.int64.cast (k.1.modifyTime + 1)
    else ⟨k.1.modifyTime, k.2.1⟩
  ⟨⟨time.1, seq, localHostId.toNat⟩, time.2, Nat.mod_lt _ (Nat.two_pow_pos 32), localHostId.toNat_lt⟩

/-- The key as Bitv. -/
def toBitv (k : RoomSyncKey) : Bytes :=
  (timeStampToBitv k.1.modifyTime).text ++ (intToBitv .uint32 k.1.modifySeq).text ++
    (intToBitv .uint32 k.1.origHostId).text

end RoomSyncKey

theorem uint32_lt (v : IntType.uint32.Val) : v.1.toNat < 2 ^ 32 := by
  have hmax := v.2.2
  simp only [IntType.max, IntType.isSigned, IntType.size] at hmax
  norm_num at hmax
  omega

def bitvToSyncKey (buf : Bytes) : Except BitvError (RoomSyncKey × Bytes) := do
  let (time, buf) ← bitvToTimeStamp buf
  let (seq, buf) ← bitvToInt .uint32 buf (IntType.uint32.cast 0)
  let (hostId, buf) ← bitvToInt .uint32 buf (IntType.uint32.cast 0)
  return (⟨⟨time.1, seq.1.toNat, hostId.1.toNat⟩, time.2, uint32_lt seq, uint32_lt hostId⟩, buf)

/-! ### Freed rooms -/

/-- `FreedRoomsMap`: the positions of the free rooms of each size, the sizes in order. -/
abbrev FreedRoomsMap := List (ℕ × List ℕ)

namespace FreedRoomsMap

/-- `kfetch(size).second.push_back(pos)` -/
def push (size pos : ℕ) : FreedRoomsMap → FreedRoomsMap
  | [] => [(size, [pos])]
  | (size', list) :: rest =>
    if size' < size then (size', list) :: push size pos rest
    else if size' = size then (size', list ++ [pos]) :: rest
    else (size, [pos]) :: (size', list) :: rest

/-- The last room of the first size that is not less than `requiredSize`. -/
def take (requiredSize : ℕ) : FreedRoomsMap → Option (ℕ × FreedRoomsMap)
  | [] => none
  | (size, list) :: rest =>
    if size < requiredSize then (take requiredSize rest).map fun r => (r.1, (size, list) :: r.2)
    else
      match list.getLast? with
      | none => none
      | some pos => some (pos, if list.dropLast = [] then rest else (size, list.dropLast) :: rest)

def positions (freed : FreedRoomsMap) : List ℕ := freed.flatMap Prod.snd

end FreedRoomsMap

/-! ### The state -/

structure InnDbfRoom where
  pendingRoomNote : InnDbfRoomNote := .NoPending
  pendingRoomType : InnDbfRoomType := .RowData
  pendingWrite : Bytes := []
  roomKey : RoomKey := {}
  note : InnDbfRoomNote := .NoPending
  syncKey : RoomSyncKey := .zero
  deriving DecidableEq

structure InnDbfTableLink where
  tableName : Bytes
  hasHandler : Bool := false
  minRoomSize : ℕ := 0
  roomCount : ℕ := 0
  deriving DecidableEq, Repr

/-- A table alone is to be added to the file, a room alone is to be freed. -/
structure UpdateRequest where
  table : Option ℕ
  room : Option ℕ
  deriving DecidableEq, Repr

/-- Where `LoadAll` or `LoadTable` is; `delivered` where the room before was for the table. -/
inductive Loader where
  | all (roomPos : ℕ)
  | table (tableId roomPos count : ℕ) (delivered : Bool)
  deriving DecidableEq, Repr

/-- The room objects have numbers; those from `newRoom` on are not made yet. -/
structure InnDbf where
  file : InnFile
  isLoadedAll : Bool := false
  exHeaderLastRoomKey : RoomKey
  freedRoomsMap : FreedRoomsMap := []
  tableList : List (Option InnDbfTableLink) := []
  requests : List UpdateRequest := []
  rooms : ℕ → InnDbfRoom := fun _ => {}
  newRoom : ℕ := 0
  loader : Option Loader := none

namespace InnDbf

variable (s : InnDbf) (tableId : ℕ)

/-- The table of an id, from 1 on. -/
def getTable : Option InnDbfTableLink :=
  if tableId = 0 then none else (s.tableList[tableId - 1]?).join

def setTable (table : InnDbfTableLink) : InnDbf :=
  { s with tableList := s.tableList.set (tableId - 1) (some table) }

def isLinked : Bool := (s.getTable tableId).any InnDbfTableLink.hasHandler

def setRoom (i : ℕ) (room : InnDbfRoom) : InnDbf :=
  { s with rooms := Function.update s.rooms i room }

def setRoomKey (i : ℕ) (key : RoomKey) : InnDbf := s.setRoom i { s.rooms i with roomKey := key }

/-! ### Open -/

def kInnDbfExHeaderSize : ℕ := 256

/-- "InnDbf" -/
def kInnDbfExHeaderMsg : Bytes := [73, 110, 110, 68, 98, 102]

def kInnDbfExHeaderVer : ℕ := 0

def newExHeader : Bytes :=
  List.replicate 8 0 ++ (byteArrayToBitv kInnDbfExHeaderMsg).text ++
    (intToBitv .uint32 kInnDbfExHeaderVer).text

def onNewInnFile (file : InnFile) : Except DbfError InnDbf := do
  let (key, file) ← liftInn (match file.makeNewRoom kInnRoomType_ExFileHeader kInnDbfExHeaderSize .none with
    | (.ok key, file) => .ok (key, file)
    | (.error e, _) => .error e)
  let (key, file) ← liftInn (file.rewrite key newExHeader)
  return { file := file, exHeaderLastRoomKey := key }

/-- The rooms of the ExHeader, each with the position of the next one; the last one, and the
data of all of them. Nothing where there is no room at all, or the rooms do not end. -/
def openChain (file : InnFile) : ℕ → ℕ → Bytes → Except DbfError (Option (RoomKey × Bytes))
  | 0, _, _ => .ok none
  | fuel + 1, next, buf => do
    let (key, ex) ← liftInn (file.makeRoomKey next 8)
    if key.currentRoomType ≠ kInnRoomType_ExFileHeader then
      if next = 0 ∧ key.roomPos = 0 then return none
      throw (.inn .badMessage)
    let data ← liftInn (file.read key 8 (u32 (key.dataSize + 2 ^ 32 - 8)))
    let next := BigEndian.value ex
    if next = 0 then return some (key, buf ++ data)
    openChain file fuel next (buf ++ data)

/-- A table goes to its place in the list. -/
def addTable (tables : List (Option InnDbfTableLink)) (tableId : ℕ) (tableName : Bytes) :
    Option (List (Option InnDbfTableLink)) :=
  if tables.any fun t => t.any fun t => t.tableName = tableName then none
  else if tables.length < tableId then
    some (tables ++ List.replicate (tableId - 1 - tables.length) none ++ [some { tableName := tableName }])
  else if (tables[tableId - 1]?).join.isSome then none
  else some (tables.set (tableId - 1) (some { tableName := tableName }))

/-- `[TableId + TableName] * N` -/
def openTables : ℕ → Bytes → List (Option InnDbfTableLink) → Except DbfError (List (Option InnDbfTableLink))
  | 0, _, tables => .ok tables
  | fuel + 1, buf, tables =>
    if buf = [] then .ok tables
    else do
      let (tableId, buf) ← liftBitv (bitvToInt .uint32 buf (IntType.uint32.cast 0))
      let (tableName, buf) ← liftBitv (bitvToStr buf)
      if tableId.1 ≤ 0 then throw (.inn .badMessage)
      match addTable tables tableId.1.toNat tableName with
      | none => throw (.inn .badMessage)
      | some tables => openTables fuel buf tables

/-- `OpenImpl`, with the rooms of the ExHeader counted by `fuel`. -/
def «open» (storage : ByteFile) (blockSize fuel : ℕ) : Except DbfError InnDbf := do
  let (file, _) ← liftInn (InnFile.open storage blockSize)
  match ← openChain file fuel 0 [] with
  | none =>
    let (key, _) ← liftInn (file.makeRoomKey 0 8)
    if key.roomPos = 0 then onNewInnFile file else throw (.inn .badMessage)
  | some (key, buf) =>
    if buf = [] then throw (.inn .badMessage)
    let (tableName, buf) ← liftBitv (bitvToStr buf)
    let (ver, buf) ← liftBitv (bitvToInt .uint32 buf (IntType.uint32.cast 0))
    if tableName ≠ kInnDbfExHeaderMsg ∨ ver.1.toNat ≠ kInnDbfExHeaderVer then throw (.inn .badMessage)
    let tables ← openTables buf.length buf []
    return { file := file, exHeaderLastRoomKey := key, tableList := tables }

/-! ### Requests of the handlers -/

/-- `WriteRoom`: an object is made for a key that has none, and waits once. -/
def updateRoom (room : Option ℕ) (syncKey : Option RoomSyncKey) (now : IntType.int64.Val) (localHostId : UInt32)
    (roomType : InnDbfRoomType) (buf : Bytes) : InnDbf :=
  let i := room.getD s.newRoom
  let s := if room.isNone then { s with newRoom := s.newRoom + 1 } else s
  let r := s.rooms i
  let s := if r.pendingRoomNote = .NoPending then
    { s with requests := s.requests ++ [⟨some tableId, some i⟩] } else s
  s.setRoom i { r with
    pendingRoomNote := if syncKey.isSome then .FromSyncer else .NeedsSync
    syncKey := syncKey.getD (r.syncKey.setLocalModified now localHostId)
    pendingRoomType := roomType
    pendingWrite := buf }

def freeRoom (tableId room : ℕ) : InnDbf :=
  let s := match s.getTable tableId with
    | some table => s.setTable tableId { table with roomCount := u64sub table.roomCount 1 }
    | none => s
  { s with requests := s.requests ++ [⟨none, some room⟩] }

/-! ### Rooms -/

/-- The key in an object is freed, and valid no more. -/
def writeFreeRoom (i : ℕ) : Except InnError Unit × InnDbf :=
  let key := (s.rooms i).roomKey
  if key.roomPos = 0 then (.ok (), s)
  else
    let s := { s with freedRoomsMap := FreedRoomsMap.push key.roomSize key.roomPos s.freedRoomsMap }
    match s.file.freeRoom key kInnRoomType_Free with
    | .error e => (.error e, s)
    | .ok (key, file) => (.ok (), { s with file := file }.setRoomKey i key)

def freeOld : Option ℕ → Except InnError Unit × InnDbf
  | none => (.ok (), s)
  | some i => s.writeFreeRoom i

/-- `AllocRoom`: a freed room that is large enough, or a new one; the room of the object
`oldRoom` is freed first. -/
def allocRoom (oldRoom : Option ℕ) (roomType : InnRoomType) (requiredSize : ℕ) :
    Except InnError RoomKey × InnDbf :=
  match FreedRoomsMap.take requiredSize s.freedRoomsMap with
  | some (pos, freed) =>
    match { s with freedRoomsMap := freed }.freeOld oldRoom with
    | (.error e, s) => (.error e, s)
    | (.ok _, s) =>
      match s.file.reallocRoom pos roomType requiredSize with
      | .error e => (.error e, s)
      | .ok (key, file) => (.ok key, { s with file := file })
  | none =>
    match s.freeOld oldRoom with
    | (.error e, s) => (.error e, s)
    | (.ok _, s) =>
      let r := s.file.makeNewRoom roomType requiredSize .none
      (r.1, { s with file := r.2 })

/-! ### Requests carried out -/

/-- The entry of a table. -/
def tableEntry (tableName : Bytes) : Bytes :=
  (intToBitv .uint32 tableId).text ++ (byteArrayToBitv tableName).text

/-- The end of `WriteExHeaderAddTable`: the entry goes behind what the room has. -/
def appendExHeader (entry : Bytes) (requiredSize : ℕ) : InnDbf :=
  match s.file.write s.exHeaderLastRoomKey s.exHeaderLastRoomKey.dataSize requiredSize entry with
  | .error _ => s
  | .ok (key, file) => { s with exHeaderLastRoomKey := key, file := file }

/-- `WriteExHeaderAddTable`; what it throws leaves the request done. -/
def writeExHeaderAddTable (table : InnDbfTableLink) : InnDbf :=
  if table.tableName.length > kBitvMaxByteArraySize then s
  else
    let entry := tableEntry tableId table.tableName
    let requiredSize := u32 entry.length
    let last := s.exHeaderLastRoomKey
    if last.roomSize - last.dataSize < requiredSize then
      match s.allocRoom none kInnRoomType_ExFileHeader (u32 (requiredSize + kInnDbfExHeaderSize)) with
      | (.error _, s) => s
      | (.ok rkey, s) =>
        match s.file.write s.exHeaderLastRoomKey 0 8 (BigEndian.bytes 8 rkey.roomPos) with
        | .error _ => s
        | .ok (_, file) =>
          { s with file := file, exHeaderLastRoomKey := rkey }.appendExHeader
            (List.replicate 8 0 ++ entry) (u32 (requiredSize + 8))
    else s.appendExHeader entry requiredSize

/-- The data of a row. -/
def rowData (syncKey : RoomSyncKey) (payload : Bytes) : Bytes :=
  (intToBitv .uint32 tableId).text ++ syncKey.toBitv ++ payload

/-- The data goes into the room of the object. -/
def rewriteRoom (i : ℕ) (data : Bytes) : InnDbf :=
  match s.file.rewrite (s.rooms i).roomKey data with
  | .error _ => s
  | .ok (key, file) => { s with file := file }.setRoomKey i key

/-- A row is written, into a larger room where its own is too small. -/
def writeRow (tableId i : ℕ) (table : InnDbfTableLink) : InnDbf :=
  let room := s.rooms i
  let data := rowData tableId room.syncKey room.pendingWrite
  let key := { room.roomKey with pendingRoomType := room.pendingRoomType.toInnRoomType }
  let s := s.setRoom i { room with
    roomKey := key, note := room.pendingRoomNote, pendingRoomNote := .NoPending, pendingWrite := [] }
  let bufsz := u32 data.length
  if bufsz > key.roomSize then
    let s := if key.roomPos = 0 then
      s.setTable tableId { table with roomCount := u64 (table.roomCount + 1) } else s
    match s.allocRoom (some i) key.pendingRoomType (max table.minRoomSize bufsz) with
    | (.error _, s) => s
    | (.ok key, s) => (s.setRoomKey i key).rewriteRoom i data
  else s.rewriteRoom i data

/-- The first request that waits is carried out. -/
def doUpdateRequest : InnDbf :=
  match s.requests with
  | [] => s
  | req :: rest =>
    let s := { s with requests := rest }
    match req.room, req.table with
    | none, none => s
    | none, some tableId =>
      match s.getTable tableId with
      | none => s
      | some table => s.writeExHeaderAddTable tableId table
    | some i, none => (s.writeFreeRoom i).2
    | some i, some tableId =>
      match s.getTable tableId with
      | none => s
      | some table => if (s.rooms i).pendingRoomNote = .NoPending then s else s.writeRow tableId i table

/-! ### Load -/

/-- What a turn of the loops finds: the end, a room that is passed over, a free room, a row
of a table with what follows its id. -/
inductive LoadTurn where
  | done
  | skip (roomPos : ℕ)
  | free (key : RoomKey) (roomPos : ℕ)
  | row (tableId : ℕ) (key : RoomKey) (data : Bytes) (roomPos : ℕ)
  deriving DecidableEq, Repr

def loadAllTurn (file : InnFile) (roomPos : ℕ) : Except DbfError LoadTurn := do
  let (key, _) ← liftInn (file.makeRoomKey roomPos 0)
  if key.roomPos = 0 then return .done
  if key.currentRoomType = InnDbfRoomType.RowData.toInnRoomType ∨
      key.currentRoomType = InnDbfRoomType.RowDeleted.toInnRoomType then
    let buf ← liftInn (file.readAll key)
    let (tableId, buf) ← liftBitv (bitvToInt .uint32 buf (IntType.uint32.cast 0))
    return .row tableId.1.toNat key buf key.nextRoomPos
  if key.currentRoomType = kInnRoomType_Free then return .free key key.nextRoomPos
  return .skip key.nextRoomPos

/-- `sizeof(dcmembuf)` -/
def kDcMemBufSize : ℕ := 6

def loadTableTurn (file : InnFile) (tableId roomPos : ℕ) : Except DbfError LoadTurn := do
  let (key, dcmembuf) ← liftInn (file.makeRoomKey roomPos kDcMemBufSize)
  if key.roomPos = 0 then return .done
  if key.dataSize ≤ kDcMemBufSize then return .skip key.nextRoomPos
  let (id, dcmem) ← liftBitv (bitvToInt .uint32 dcmembuf (IntType.uint32.cast 0))
  if id.1.toNat ≠ tableId then return .skip key.nextRoomPos
  let usedsz := dcmembuf.length - dcmem.length
  let buf ← liftInn (file.read key usedsz (key.dataSize - usedsz))
  return .row tableId key buf key.nextRoomPos

/-- `LoadRoom`: the object that is given to the handler, and the data behind its sync key. -/
def loadRoom (key : RoomKey) (data : Bytes) : Except DbfError (InnDbfRoom × Bytes) := do
  let (syncKey, data) ← liftBitv (bitvToSyncKey data)
  return ({ roomKey := key, syncKey := syncKey }, data)

/-- The handler has the object of a row. -/
def deliver (room : InnDbfRoom) : InnDbf :=
  { s with rooms := Function.update s.rooms s.newRoom room, newRoom := s.newRoom + 1 }

/-- A turn of `LoadAll` or of `LoadTable`. What it throws ends the loop. -/
def loadStep : InnDbf :=
  match s.loader with
  | none => s
  | some (.all roomPos) =>
    match loadAllTurn s.file roomPos with
    | .error _ | .ok .done => { s with loader := none }
    | .ok (.skip next) => { s with loader := some (.all next) }
    | .ok (.free key next) =>
      { s with
        freedRoomsMap := FreedRoomsMap.push key.roomSize key.roomPos s.freedRoomsMap
        loader := some (.all next) }
    | .ok (.row tableId key data next) =>
      match s.getTable tableId with
      | none => { s with loader := some (.all next) }
      | some table =>
        let s := s.setTable tableId { table with roomCount := u64 (table.roomCount + 1) }
        if table.hasHandler then
          match loadRoom key data with
          | .error _ => { s with loader := none }
          | .ok (room, _) => { s with loader := some (.all next) }.deliver room
        else { s with loader := some (.all next) }
  | some (.table tableId roomPos count delivered) =>
    if delivered && (s.getTable tableId).any fun table => table.roomCount ≤ count then
      { s with loader := none }
    else
      match loadTableTurn s.file tableId roomPos with
      | .error _ | .ok .done => { s with loader := none }
      | .ok (.skip next) | .ok (.free _ next) => { s with loader := some (.table tableId next count false) }
      | .ok (.row _ key data next) =>
        match loadRoom key data with
        | .error _ => { s with loader := none }
        | .ok (room, _) => { s with loader := some (.table tableId next (count + 1) true) }.deliver room

def loadAll : InnDbf :=
  if s.isLoadedAll then s
  else
    let s := { s with isLoadedAll := true }
    match s.file.makeRoomKey 0 0 with
    | .error _ => s
    | .ok (key, _) => if key.roomPos = 0 then s else { s with loader := some (.all key.nextRoomPos) }

def loadTable : InnDbf :=
  match s.file.makeRoomKey 0 0 with
  | .error _ => s
  | .ok (key, _) =>
    if key.roomPos = 0 then s else { s with loader := some (.table tableId key.nextRoomPos 0 false) }

/-- `LinkTable` of a handler that has no table. -/
def linkTable (tableName : Bytes) (minRoomSize : ℕ) : InnDbf :=
  match s.tableList.findIdx? fun t => t.any fun t => t.tableName = tableName with
  | some index =>
    match (s.tableList[index]?).join with
    | none => s
    | some table =>
      if table.hasHandler then s
      else
        let s := s.setTable (index + 1) { table with hasHandler := true, minRoomSize := minRoomSize }
        if table.roomCount > 0 then s.loadTable (index + 1) else s
  | none =>
    let index := s.tableList.findIdx (·.isNone)
    let table : InnDbfTableLink := { tableName := tableName, hasHandler := true, minRoomSize := minRoomSize }
    let tables := if index < s.tableList.length then s.tableList.set index (some table)
      else s.tableList ++ [some table]
    { s with tableList := tables, requests := s.requests ++ [⟨some (index + 1), none⟩] }

/-! ### Runs -/

inductive Act where
  | linkTable (tableName : Bytes) (minRoomSize : UInt32)
  | loadAll
  | loadStep
  | updateRoom (tableId : ℕ) (room : Option ℕ) (syncKey : Option RoomSyncKey) (now : IntType.int64.Val)
      (localHostId : UInt32) (roomType : InnDbfRoomType) (buf : Bytes)
  | freeRoom (tableId room : ℕ)
  | doUpdateRequest
  | reopen (fuel : ℕ)

/-- A handler works while its table is linked, on objects that it was given; the file is
closed with no request waiting. An action that is refused does not happen. -/
def step : Act → Option InnDbf
  | .linkTable tableName minRoomSize =>
    if s.loader = none then some (s.linkTable tableName minRoomSize.toNat) else none
  | .loadAll => if s.loader = none then some s.loadAll else none
  | .loadStep => some s.loadStep
  | .updateRoom tableId room syncKey now localHostId roomType buf =>
    if s.isLinked tableId ∧ ∀ i ∈ room, i < s.newRoom then
      some (s.updateRoom tableId room syncKey now localHostId roomType buf)
    else none
  | .freeRoom tableId room =>
    if s.isLinked tableId ∧ room < s.newRoom then some (s.freeRoom tableId room) else none
  | .doUpdateRequest => some s.doUpdateRequest
  | .reopen fuel =>
    if s.requests = [] ∧ s.loader = none then (InnDbf.open s.file.storage 0 fuel).toOption else none

end InnDbf

end Fon9.Inn
