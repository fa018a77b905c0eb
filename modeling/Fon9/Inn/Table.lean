import Fon9.Lib.LastWriter
import Mathlib.Data.Prod.Lex

/-! The rows of a table: a main map and a map of the deleted keys. An event from another
host, or a room that is loaded, counts for its key where its InnSyncKey is greater than
that of the row that is there. -/

namespace Fon9.Inn

open Lib

structure InnSyncKey where
  modifyTime : ℤ
  modifySeq : ℕ
  origHostId : ℕ
  deriving DecidableEq, Repr

namespace InnSyncKey

/-- `operator<` -/
def less (lhs rhs : InnSyncKey) : Bool :=
  if lhs.modifyTime < rhs.modifyTime then true
  else if lhs.modifyTime > rhs.modifyTime then false
  else if lhs.modifySeq < rhs.modifySeq then true
  else if lhs.modifySeq > rhs.modifySeq then false
  else lhs.origHostId < rhs.origHostId

/-- `operator<=` -/
def lessEq (lhs rhs : InnSyncKey) : Bool := !rhs.less lhs

/-- The time decides, then the sequence number, then the host. -/
def lexicographic (k : InnSyncKey) : ℤ ×ₗ ℕ ×ₗ ℕ := toLex (k.modifyTime, toLex (k.modifySeq, k.origHostId))

theorem lexicographic_injective : Function.Injective lexicographic := by
  rintro ⟨t, s, h⟩ ⟨t', s', h'⟩ heq
  simp only [lexicographic, EmbeddingLike.apply_eq_iff_eq, Prod.mk.injEq] at heq
  obtain ⟨rfl, rfl, rfl⟩ := heq
  rfl

instance : LinearOrder InnSyncKey := LinearOrder.lift' lexicographic lexicographic_injective

theorem less_iff {lhs rhs : InnSyncKey} : lhs.less rhs = true ↔ lhs < rhs := by
  show _ ↔ lhs.lexicographic < rhs.lexicographic
  unfold less lexicographic
  rw [Prod.Lex.toLex_lt_toLex, Prod.Lex.toLex_lt_toLex]
  dsimp only
  split
  next hlt => exact iff_of_true rfl (.inl hlt)
  next hnot =>
    split
    next hgt => exact iff_of_false Bool.false_ne_true (by omega)
    next hnot' =>
      have heq : lhs.modifyTime = rhs.modifyTime := by omega
      split
      next hlt => exact iff_of_true rfl (.inr ⟨heq, .inl hlt⟩)
      next hnot'' =>
        split
        next hgt => exact iff_of_false Bool.false_ne_true (by omega)
        next => rw [decide_eq_true_iff]; omega

theorem lessEq_iff {lhs rhs : InnSyncKey} : lhs.lessEq rhs = true ↔ lhs ≤ rhs := by
  rw [lessEq, Bool.not_eq_true', ← Bool.not_eq_true, less_iff, not_lt]

end InnSyncKey

inductive InnDbfRoomType where
  | RowData
  | RowDeleted
  deriving DecidableEq, Repr

/-- An event of the syncer with its data, or a room with its position. -/
structure Version (K P : Type*) where
  key : K
  roomType : InnDbfRoomType
  syncKey : InnSyncKey
  data : P
  deriving DecidableEq, Repr

/-- The rows of a map: the version that a row has a room key for, if it has one. -/
abbrev RowMap (K P : Type*) := K → Option (Option (Version K P))

structure Maps (K P : Type*) where
  main : RowMap K P
  deleted : RowMap K P

inductive InnSyncCheckResult where
  | NotExists
  | SyncIsNewer
  | SyncIsOlder
  deriving DecidableEq, Repr

variable {K P : Type*} [DecidableEq K]

variable (map : RowMap K P) (e : Version K P)

def innSyncCheck (key : K) (syncKey : InnSyncKey) : InnSyncCheckResult :=
  match map key with
  | none => .NotExists
  | some none => .SyncIsNewer
  | some (some row) => if syncKey.lessEq row.syncKey then .SyncIsOlder else .SyncIsNewer

/-! ### Sync -/

def onInnDbfSync_Erase : InnSyncCheckResult × RowMap K P :=
  match innSyncCheck map e.key e.syncKey with
  | .NotExists => (.NotExists, map)
  | .SyncIsNewer => (.SyncIsNewer, Function.update map e.key none)
  | .SyncIsOlder => (.SyncIsOlder, map)

/-- `UpdateSync` makes or takes the row of the key, and `WriteRoom` records the sync key of
the event in its room key. -/
def onInnDbfSync_Update : RowMap K P :=
  match innSyncCheck map e.key e.syncKey with
  | .SyncIsOlder => map
  | _ => Function.update map e.key (some (some e))

def onInnDbfSync (maps : Maps K P) (e : Version K P) : Maps K P :=
  match e.roomType with
  | .RowDeleted =>
    let r := onInnDbfSync_Erase maps.main e
    if r.1 ≠ .SyncIsOlder then ⟨r.2, onInnDbfSync_Update maps.deleted e⟩ else ⟨r.2, maps.deleted⟩
  | .RowData =>
    let r := onInnDbfSync_Erase maps.deleted e
    if r.1 ≠ .SyncIsOlder then ⟨onInnDbfSync_Update maps.main e, r.2⟩ else ⟨maps.main, r.2⟩

def syncAll (maps : Maps K P) (events : List (Version K P)) : Maps K P := events.foldl onInnDbfSync maps

/-! ### Load -/

/-- The room key of the arguments until it is moved away, and the two that are to be freed. -/
structure LoadHandler (K P : Type*) where
  roomKey : Option (Version K P)
  pendingFreeRoomKey1 : Option (Version K P) := none
  pendingFreeRoomKey2 : Option (Version K P) := none

def onInnDbfLoad_Erase (handler : LoadHandler K P) :
    InnSyncCheckResult × RowMap K P × LoadHandler K P :=
  match innSyncCheck map e.key e.syncKey with
  | .NotExists => (.NotExists, map, handler)
  | .SyncIsNewer => (.SyncIsNewer, Function.update map e.key none,
      { handler with pendingFreeRoomKey1 := (map e.key).join })
  | .SyncIsOlder => (.SyncIsOlder, map,
      { handler with pendingFreeRoomKey1 := handler.roomKey, roomKey := none })

/-- `UpdateLoad` moves the room key of the arguments into the row of the key. -/
def onInnDbfLoad_Update (handler : LoadHandler K P) :
    RowMap K P × LoadHandler K P :=
  match innSyncCheck map e.key e.syncKey with
  | .NotExists => (Function.update map e.key (some handler.roomKey), { handler with roomKey := none })
  | .SyncIsNewer => (Function.update map e.key (some handler.roomKey),
      { handler with pendingFreeRoomKey2 := (map e.key).join, roomKey := none })
  | .SyncIsOlder => (map, { handler with pendingFreeRoomKey2 := handler.roomKey, roomKey := none })

/-- The maps with a room loaded, and the rooms the destructor of the handler frees. -/
def onInnDbfLoad (maps : Maps K P) (e : Version K P) : Maps K P × List (Version K P) :=
  let handler : LoadHandler K P := { roomKey := some e }
  let free := fun h : LoadHandler K P => h.pendingFreeRoomKey1.toList ++ h.pendingFreeRoomKey2.toList
  match e.roomType with
  | .RowDeleted =>
    let r := onInnDbfLoad_Erase maps.main e handler
    if r.1 ≠ .SyncIsOlder then
      let u := onInnDbfLoad_Update maps.deleted e r.2.2
      (⟨r.2.1, u.1⟩, free u.2)
    else (⟨r.2.1, maps.deleted⟩, free r.2.2)
  | .RowData =>
    let r := onInnDbfLoad_Erase maps.deleted e handler
    if r.1 ≠ .SyncIsOlder then
      let u := onInnDbfLoad_Update maps.main e r.2.2
      (⟨u.1, r.2.1⟩, free u.2)
    else (⟨maps.main, r.2.1⟩, free r.2.2)

def loadAll (maps : Maps K P) : List (Version K P) → Maps K P × List (Version K P)
  | [] => (maps, [])
  | e :: es => ((loadAll (onInnDbfLoad maps e).1 es).1,
      (onInnDbfLoad maps e).2 ++ (loadAll (onInnDbfLoad maps e).1 es).2)

/-! ### The winners -/

omit [DecidableEq K]

/-- The rows of one kind of the versions that have won. -/
def rowsOf (roomType : InnDbfRoomType) (w : K → Option (Version K P)) : RowMap K P :=
  fun k => ((w k).filter fun e => e.roomType = roomType).map some

/-- The maps whose rows are the versions that have won. -/
def ofWinners (w : K → Option (Version K P)) : Maps K P where
  main := rowsOf .RowData w
  deleted := rowsOf .RowDeleted w

end Fon9.Inn
