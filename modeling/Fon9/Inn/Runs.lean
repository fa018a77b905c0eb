import Fon9.Lib.Effect
import Fon9.Inn.Update

/-! Runs of an InnDbf. Where requests are carried out only after `LoadAll`, and not while a
load is under way, no room has two owners. -/

namespace Fon9.Inn

open Lib Bitv Buffer InnDbf List FreedRoomsMap Function

variable {s s' : InnDbf} {rooms back : List Room} {r : Room}

/-- What lies ahead of a load. -/
def Ahead (s : InnDbf) (back : List Room) : Loader → Prop
  | .all pos => pos = startPos s.file back ∧ ∀ r ∈ back,
    (∀ i, s.HasRoom i → (s.rooms i).roomKey.roomPos ≠ r.key.roomPos) ∧
      r.key.roomPos ∉ s.freedRoomsMap.positions
  | .table tableId pos _ _ => pos = startPos s.file back ∧ s.isLinked tableId = true ∧
    ∀ r ∈ back, ∀ syncKey payload, RowOf tableId syncKey payload r →
      ∀ i, s.HasRoom i → (s.rooms i).roomKey.roomPos ≠ r.key.roomPos

structure Inv (s : InnDbf) (rooms : List Room) : Prop where
  owns : Owns s rooms
  fresh : ∀ i, s.newRoom ≤ i → ¬ s.HasRoom i
  requests : ∀ req ∈ s.requests, ∀ i ∈ req.room, i < s.newRoom ∧
    ∀ tableId ∈ req.table, s.isLinked tableId = true
  unloaded : s.isLoadedAll = false → (∀ i, ¬ s.HasRoom i) ∧ s.freedRoomsMap = [] ∧ s.loader = none ∧
    ∀ tableId table, s.getTable tableId = some table → table.hasHandler = false → table.roomCount = 0
  loading : ∀ loader ∈ s.loader, ∃ front back, rooms = front ++ back ∧ Ahead s back loader

theorem RowOf.unique {tableId tableId' : ℕ} {syncKey syncKey' : RoomSyncKey} {payload payload' : Bytes}
    (h : RowOf tableId syncKey payload r) (h' : RowOf tableId' syncKey' payload' r) : tableId = tableId' := by
  obtain ⟨v, hv, hread⟩ := uint32_reads h.id_lt (syncKey.toBitv ++ payload)
  obtain ⟨v', hv', hread'⟩ := uint32_reads h'.id_lt (syncKey'.toBitv ++ payload')
  rw [← rowData_eq, ← h.data, h'.data, rowData_eq, hread'] at hread
  simp only [Except.ok.injEq, Prod.mk.injEq] at hread
  rw [← hv, ← hv', hread.1]

/-- The room of the file that comes first. -/
theorem Content.head {f : InnFile} (h : Content f rooms) : ∃ r rest, rooms = r :: rest ∧
    f.makeRoomKey 0 0 = .ok (r.key, []) ∧ r.key.roomPos ≠ 0 ∧ r.key.nextRoomPos = startPos f rest := by
  cases rooms with
  | nil =>
    obtain ⟨r, hr, -⟩ := h.first
    cases hr
  | cons r rest =>
    have hr : r ∈ r :: rest := mem_cons_self
    have hpos : r.key.roomPos = f.headerSize := h.stores.startPos_eq
    refine ⟨r, rest, rfl, ?_, h.stores.roomPos_ne hr, @Stores.nextRoomPos f r [] rest h.stores⟩
    rw [makeRoomKey_zero h.stores.laid.header_pos, ← hpos,
      (h.stores.lies hr).makeRoomKey (by decide) (h.stores.stored_header hr)]
    simp [ByteFile.read]

namespace Inv

/-- What is not about rooms. -/
theorem book (h : Inv s rooms) (hfile : s'.file = s.file) (hex : s'.exHeaderLastRoomKey = s.exHeaderLastRoomKey)
    (hfreed : s'.freedRoomsMap = s.freedRoomsMap) (hkeys : ∀ i, (s'.rooms i).roomKey = (s.rooms i).roomKey)
    (hloaded : s'.isLoadedAll = s.isLoadedAll) (hloader : s'.loader = s.loader) (hnew : s.newRoom ≤ s'.newRoom)
    (hlink : ∀ t, s.isLinked t = true → s'.isLinked t = true)
    (htables : s.isLoadedAll = false → ∀ t table, s'.getTable t = some table → table.hasHandler = false →
      s.getTable t = some table)
    (hreq : ∀ req ∈ s'.requests, req ∈ s.requests ∨ ∀ i ∈ req.room, i < s'.newRoom ∧
      ∀ tableId ∈ req.table, s'.isLinked tableId = true) : Inv s' rooms := by
  have hlive : ∀ i, s'.HasRoom i ↔ s.HasRoom i := by
    intro i
    rw [InnDbf.HasRoom, hkeys]
    rfl
  refine ⟨h.owns.congr hfile hex hfreed (fun i => congrArg RoomKey.saved (hkeys i)) hlink, ?_, ?_, ?_, ?_⟩
  · intro i hi
    rw [hlive]
    exact h.fresh i (hnew.trans hi)
  · intro req hmem i hi
    rcases hreq req hmem with hold | hnewReq
    · obtain ⟨hlt, hlinks⟩ := h.requests req hold i hi
      exact ⟨hlt.trans_le hnew, fun tableId ht => hlink tableId (hlinks tableId ht)⟩
    · exact hnewReq i hi
  · intro hno
    rw [hloaded] at hno
    obtain ⟨hrooms, hfree, hidle, hcount⟩ := h.unloaded hno
    refine ⟨fun i => ?_, hfreed.trans hfree, hloader.trans hidle, fun t table ht hhandler => ?_⟩
    · rw [hlive]
      exact hrooms i
    · exact hcount t table (htables hno t table ht hhandler) hhandler
  · intro loader hmem
    rw [hloader] at hmem
    obtain ⟨front, back, hsplit, hahead⟩ := h.loading loader hmem
    refine ⟨front, back, hsplit, ?_⟩
    cases loader with
    | all pos =>
      obtain ⟨hpos, hrest⟩ := hahead
      refine ⟨by rw [hfile]; exact hpos, fun r hr => ⟨fun i hi => ?_, ?_⟩⟩
      · rw [hkeys]
        exact (hrest r hr).1 i ((hlive i).mp hi)
      · rw [hfreed]
        exact (hrest r hr).2
    | table tableId pos count delivered =>
      obtain ⟨hpos, hlinked, hrest⟩ := hahead
      refine ⟨by rw [hfile]; exact hpos, hlink tableId hlinked, fun r hr syncKey payload hrow i hi => ?_⟩
      rw [hkeys]
      exact hrest r hr syncKey payload hrow i ((hlive i).mp hi)

/-! ### Requests are made and carried out -/

theorem updateRoom_eq (s : InnDbf) (tableId : ℕ) (room : Option ℕ) (syncKey : Option RoomSyncKey)
    (now : IntType.int64.Val) (localHostId : UInt32) (roomType : InnDbfRoomType) (buf : Bytes) :
    s.updateRoom tableId room syncKey now localHostId roomType buf = InnDbf.setRoom
      { s with
        newRoom := if room.isNone then s.newRoom + 1 else s.newRoom
        requests := if (s.rooms (room.getD s.newRoom)).pendingRoomNote = .NoPending then
          s.requests ++ [⟨some tableId, some (room.getD s.newRoom)⟩] else s.requests }
      (room.getD s.newRoom) { s.rooms (room.getD s.newRoom) with
        pendingRoomNote := if syncKey.isSome then .FromSyncer else .NeedsSync
        syncKey := syncKey.getD ((s.rooms (room.getD s.newRoom)).syncKey.setLocalModified now localHostId)
        pendingRoomType := roomType
        pendingWrite := buf } := by
  unfold InnDbf.updateRoom
  by_cases hwaits : (s.rooms (room.getD s.newRoom)).pendingRoomNote = .NoPending
  · cases room <;> simp_all
  · cases room <;> simp_all

variable {tableId : ℕ}

theorem updateRoom (h : Inv s rooms) {room : Option ℕ} (syncKey : Option RoomSyncKey) (now : IntType.int64.Val)
    (localHostId : UInt32) (roomType : InnDbfRoomType) (buf : Bytes) (hlinked : s.isLinked tableId = true)
    (hroom : ∀ i ∈ room, i < s.newRoom) :
    Inv (s.updateRoom tableId room syncKey now localHostId roomType buf) rooms := by
  have hkeys : ∀ (t : InnDbf) (i : ℕ) (object : InnDbfRoom), object.roomKey = (t.rooms i).roomKey →
      ∀ j, ((t.setRoom i object).rooms j).roomKey = (t.rooms j).roomKey := by
    intro t i object hkey j
    unfold InnDbf.setRoom
    by_cases hj : j = i
    · subst hj
      simp only [update_self]
      exact hkey
    · simp only [update_of_ne hj]
  have hlt : room.getD s.newRoom < if room.isNone then s.newRoom + 1 else s.newRoom := by
    cases room with
    | none => exact Nat.lt_succ_self _
    | some i => exact hroom i rfl
  -- the request is one of the object, where it has none that waits
  have hreq : ∀ (waits : Prop) [Decidable waits] (req : UpdateRequest),
      req ∈ (if waits then s.requests ++ [⟨some tableId, some (room.getD s.newRoom)⟩] else s.requests) →
      req ∈ s.requests ∨ ∀ i ∈ req.room, i < (if room.isNone then s.newRoom + 1 else s.newRoom) ∧
        ∀ t ∈ req.table, s.isLinked t = true := by
    intro waits _ req hmem
    split at hmem
    · rcases mem_append.mp hmem with hmem | hmem
      · exact .inl hmem
      · right
        obtain rfl := mem_singleton.mp hmem
        rintro i ⟨⟩
        exact ⟨hlt, by rintro t ⟨⟩; exact hlinked⟩
    · exact .inl hmem
  rw [updateRoom_eq]
  refine h.book rfl rfl rfl (hkeys _ _ _ rfl) rfl rfl ?_ (fun _ ht => ht) (fun _ _ _ ht _ => ht)
    fun req hmem => hreq _ req hmem
  show s.newRoom ≤ if room.isNone then s.newRoom + 1 else s.newRoom
  split <;> omega

theorem freeRoom (h : Inv s rooms) {tableId room : ℕ} (hlinked : s.isLinked tableId = true)
    (hroom : room < s.newRoom) : Inv (s.freeRoom tableId room) rooms := by
  have hreq : ∀ req ∈ s.requests ++ [⟨none, some room⟩], req ∈ s.requests ∨ ∀ i ∈ req.room, i < s.newRoom ∧
      ∀ t ∈ req.table, s.isLinked t = true := by
    intro req hmem
    rcases mem_append.mp hmem with hmem | hmem
    · exact .inl hmem
    · right
      obtain rfl := mem_singleton.mp hmem
      rintro i ⟨⟩
      exact ⟨hroom, fun t ht => nomatch ht⟩
  unfold InnDbf.freeRoom
  cases htable : s.getTable tableId with
  | none =>
    exact h.book rfl rfl rfl (fun _ => rfl) rfl rfl le_rfl (fun _ ht => ht) (fun _ _ _ ht _ => ht) hreq
  | some table =>
    have hlinks := @isLinked_setTable s tableId table { table with roomCount := u64sub table.roomCount 1 } htable rfl
    have hhandler : table.hasHandler = true := by
      unfold isLinked at hlinked
      rw [htable] at hlinked
      exact hlinked
    refine h.book rfl rfl rfl (fun _ => rfl) rfl rfl le_rfl (fun t ht => ?_) (fun _ t table' ht hno => ?_) ?_
    · show (s.setTable tableId _).isLinked t = true
      rw [hlinks]
      exact ht
    · have ht' : (s.setTable tableId _).getTable t = some table' := ht
      rw [getTable_setTable htable] at ht'
      split at ht'
      · cases ht'
        exact absurd (hhandler.symm.trans hno) (by decide)
      · exact ht'
    · intro req hmem
      rcases hreq req hmem with hold | hnew
      · exact .inl hold
      · refine .inr fun i hi => ⟨(hnew i hi).1, fun t ht => ?_⟩
        show (s.setTable tableId _).isLinked t = true
        rw [hlinks]
        exact (hnew i hi).2 t ht

theorem doUpdateRequest (h : Inv s rooms) (hloaded : s.isLoadedAll = true) (hidle : s.loader = none)
    (hfits : ∀ req ∈ s.requests.head?, RequestFits s req) : ∃ rooms', Inv s.doUpdateRequest rooms' := by
  cases hreq : s.requests with
  | nil =>
    refine ⟨rooms, ?_⟩
    unfold InnDbf.doUpdateRequest
    rw [hreq]
    exact h
  | cons req rest =>
    have hfits' : RequestFits s req := hfits req (by rw [hreq]; rfl)
    obtain ⟨rooms', howns, hframe⟩ := h.owns.doUpdateRequest hreq hfits' fun i hi tableId ht =>
      (h.requests req (by rw [hreq]; exact mem_cons_self) i hi).2 tableId ht
    refine ⟨rooms', howns, ?_, ?_, ?_, ?_⟩
    · intro i hi
      rw [hframe.newRoom] at hi
      have hne : req.room ≠ some i := by
        intro heq
        have hlt := (h.requests req (by rw [hreq]; exact mem_cons_self) i heq).1
        exact absurd hlt (not_lt.mpr hi)
      have hdead := h.fresh i hi
      unfold InnDbf.HasRoom at hdead ⊢
      rw [hframe.objects i hne]
      exact hdead
    · intro req' hreq' i hi
      rw [hframe.requests] at hreq'
      obtain ⟨hlt, hlinks⟩ := h.requests req' (by rw [hreq]; exact mem_cons_of_mem _ hreq') i hi
      refine ⟨by rw [hframe.newRoom]; exact hlt, fun tableId ht => ?_⟩
      rw [hframe.linked]
      exact hlinks tableId ht
    · intro hno
      rw [hframe.isLoadedAll] at hno
      exact absurd (hloaded.symm.trans hno) (by decide)
    · intro loader hloader
      rw [hframe.loader] at hloader
      exact absurd (hidle.symm.trans hloader) (by simp)

/-! ### Loads begin -/

theorem loadTable (h : Inv s rooms) (hloaded : s.isLoadedAll = true) (hlinked : s.isLinked tableId = true)
    (hnone : ∀ r ∈ rooms, ∀ syncKey payload, RowOf tableId syncKey payload r → ∀ i, s.HasRoom i → (s.rooms i).roomKey.roomPos ≠ r.key.roomPos)
    : Inv (s.loadTable tableId) rooms := by
  obtain ⟨r, rest, rfl, hmake, hpos, hnext⟩ := h.owns.content.head
  unfold InnDbf.loadTable
  simp only [hmake, if_neg hpos]
  refine ⟨h.owns.congr rfl rfl rfl (fun _ => rfl) fun _ ht => ht, h.fresh, h.requests, ?_, ?_⟩
  · intro hno
    exact absurd (hloaded.symm.trans hno) (by decide)
  · rintro loader ⟨⟩
    exact ⟨[r], rest, rfl, hnext, hlinked, fun x hx => hnone x (mem_cons_of_mem _ hx)⟩

theorem loadAll (h : Inv s rooms) : Inv s.loadAll rooms := by
  unfold InnDbf.loadAll
  split
  · exact h
  next hno =>
    obtain ⟨hdead, hfree, -, -⟩ := h.unloaded (Bool.eq_false_iff.mpr hno)
    obtain ⟨r, rest, rfl, hmake, hpos, hnext⟩ := h.owns.content.head
    simp only [hmake, if_neg hpos]
    refine ⟨h.owns.congr rfl rfl rfl (fun _ => rfl) fun _ ht => ht, h.fresh, h.requests, fun hno' => (nomatch hno'), ?_⟩
    rintro loader ⟨⟩
    refine ⟨[r], rest, rfl, hnext, fun x _ => ⟨fun i hi => absurd hi (hdead i), ?_⟩⟩
    show x.key.roomPos ∉ s.freedRoomsMap.positions
    rw [hfree]
    exact not_mem_nil

/-- The objects have rows of linked tables only. -/
theorem unlinked_rows (h : Inv s rooms) (hno : s.isLinked tableId = false) (hr : r ∈ rooms) {syncKey : RoomSyncKey}
    {payload : Bytes} (hrow : RowOf tableId syncKey payload r) (i : ℕ) (hi : s.HasRoom i) :
    (s.rooms i).roomKey.roomPos ≠ r.key.roomPos := by
  intro heq
  obtain ⟨x, hx, hkey, tableId', syncKey', payload', hrow', hlinked⟩ := h.owns.live i hi
  have hpos : x.key.roomPos = r.key.roomPos := by
    rw [hkey]
    exact heq
  rw [h.owns.content.stores.unique hx hr hpos] at hrow'
  rw [hrow.unique hrow', hlinked] at hno
  cases hno

/-- A new table has the first id that is not in use. -/
theorem getTable_newTable (s : InnDbf) (table : InnDbfTableLink) (requests : List UpdateRequest) (t : ℕ) :
    InnDbf.getTable { s with
      tableList := if s.tableList.findIdx (·.isNone) < s.tableList.length then
        s.tableList.set (s.tableList.findIdx (·.isNone)) (some table) else s.tableList ++ [some table]
      requests := requests } t =
      if t = s.tableList.findIdx (·.isNone) + 1 then some table else s.getTable t := by
  unfold getTable
  by_cases hzero : t = 0
  · rw [if_pos hzero, if_pos hzero, if_neg (by omega)]
  rw [if_neg hzero, if_neg hzero]
  by_cases hlt : s.tableList.findIdx (·.isNone) < s.tableList.length
  · simp only [if_pos hlt]
    split
    · next ht => rw [ht, Nat.add_sub_cancel, getElem?_set_self hlt, Option.join_some]
    · next ht => rw [getElem?_set_ne (by omega)]
  · simp only [if_neg hlt]
    have hlen : s.tableList.findIdx (·.isNone) = s.tableList.length :=
      le_antisymm findIdx_le_length (not_lt.mp hlt)
    rw [hlen]
    split
    · next ht =>
      rw [ht, Nat.add_sub_cancel, getElem?_append_right le_rfl, Nat.sub_self]
      rfl
    · next ht =>
      by_cases hin : t - 1 < s.tableList.length
      · rw [getElem?_append_left hin]
      · rw [getElem?_eq_none (by rw [length_append, length_singleton]; omega),
          getElem?_eq_none (not_lt.mp hin)]

theorem linkTable (h : Inv s rooms) (tableName : Bytes) (minRoomSize : ℕ) :
    Inv (s.linkTable tableName minRoomSize) rooms := by
  unfold InnDbf.linkTable
  split
  · next index hindex =>
    cases htable : (s.tableList[index]?).join with
    | none => exact h
    | some table =>
      have hget : s.getTable (index + 1) = some table := htable
      cases hhandler : table.hasHandler with
      | true =>
        show Inv (if table.hasHandler = true then s else _) rooms
        rw [if_pos hhandler]
        exact h
      | false =>
        show Inv (if table.hasHandler = true then s else _) rooms
        rw [if_neg (by rw [hhandler]; decide)]
        have hnot : s.isLinked (index + 1) = false := by
          unfold isLinked
          rw [hget]
          exact hhandler
        have hlinks : ∀ t, (s.setTable (index + 1)
            { table with hasHandler := true, minRoomSize := minRoomSize }).isLinked t =
              if t = index + 1 then true else s.isLinked t := by
          intro t
          unfold isLinked
          rw [getTable_setTable hget]
          split <;> rfl
        have hset : Inv (s.setTable (index + 1) { table with hasHandler := true, minRoomSize := minRoomSize })
            rooms := by
          refine h.book rfl rfl rfl (fun _ => rfl) rfl rfl le_rfl (fun t ht => ?_) (fun _ t table' ht hno => ?_)
            fun req hmem => .inl hmem
          · rw [hlinks, ht]
            split <;> rfl
          · rw [getTable_setTable hget] at ht
            split at ht
            · cases ht
              cases hno
            · exact ht
        split
        · next hcount =>
          have hloaded : s.isLoadedAll = true := by
            by_contra hno
            have hzero := (h.unloaded (Bool.eq_false_iff.mpr hno)).2.2.2 _ _ hget hhandler
            omega
          refine hset.loadTable hloaded (by rw [hlinks, if_pos rfl]) fun r hr syncKey payload hrow i hi => ?_
          exact h.unlinked_rows hnot hr hrow i hi
        · exact hset
  · have hget := getTable_newTable s { tableName := tableName, hasHandler := true, minRoomSize := minRoomSize }
      (s.requests ++ [⟨some (s.tableList.findIdx (·.isNone) + 1), none⟩])
    refine h.book rfl rfl rfl (fun _ => rfl) rfl rfl le_rfl (fun t ht => ?_) (fun _ t table' ht hno => ?_)
      fun req hmem => ?_
    · unfold isLinked
      rw [hget]
      split
      · rfl
      · exact ht
    · rw [hget] at ht
      split at ht
      · cases ht
        cases hno
      · exact ht
    · rcases mem_append.mp hmem with hmem | hmem
      · exact .inl hmem
      · right
        obtain rfl := mem_singleton.mp hmem
        exact fun i hi => nomatch hi

/-! ### Loads go on -/

theorem loaded (h : Inv s rooms) {loader : Loader} (hloader : s.loader = some loader) : s.isLoadedAll = true := by
  by_contra hno
  have hidle := (h.unloaded (Bool.eq_false_iff.mpr hno)).2.2.1
  rw [hloader] at hidle
  cases hidle

theorem setLoader (h : Inv s rooms) (hloaded : s.isLoadedAll = true) {loader : Option Loader}
    (hahead : ∀ l ∈ loader, ∃ front back, rooms = front ++ back ∧ Ahead s back l) :
    Inv { s with loader := loader } rooms where
  owns := h.owns.congr rfl rfl rfl (fun _ => rfl) fun _ ht => ht
  fresh := h.fresh
  requests := h.requests
  unloaded hno := absurd (hloaded.symm.trans hno) (by decide)
  loading := hahead

/-- A row that no object has goes to a new object. -/
theorem deliver (h : Inv s rooms) (hloaded : s.isLoadedAll = true) (hr : r ∈ rooms) {syncKey : RoomSyncKey}
    {payload : Bytes} (hrow : RowOf tableId syncKey payload r) (hlinked : s.isLinked tableId = true)
    (hnone : ∀ i, s.HasRoom i → (s.rooms i).roomKey.roomPos ≠ r.key.roomPos) {loader : Loader}
    (hahead : ∃ front back, rooms = front ++ back ∧ Ahead s back loader ∧ ∀ x ∈ back, x.key.roomPos ≠ r.key.roomPos)
    {room : InnDbfRoom} (hkey : room.roomKey = r.key) :
    Inv (InnDbf.deliver { s with loader := some loader } room) rooms := by
  have hu : Unowned s rooms r.key.roomPos := by
    refine ⟨hnone, fun hin => ?_, fun x hx hpos => ?_⟩
    · obtain ⟨x, hx, hpos, hfreed⟩ := h.owns.entry hin
      rw [h.owns.content.stores.unique hx hr hpos] at hfreed
      exact hrow.not_freed hfreed.type
    · rw [h.owns.content.stores.unique hx hr hpos]
      exact hrow.not_exHeader
  have hkeys : ∀ j, ((InnDbf.deliver { s with loader := some loader } room).rooms j).roomKey =
      ((s.setRoomKey s.newRoom r.key).rooms j).roomKey := by
    intro j
    rw [Owns.roomKey_setRoomKey]
    unfold InnDbf.deliver
    by_cases hj : j = s.newRoom
    · subst hj
      simp only [update_self, if_true]
      exact hkey
    · simp only [update_of_ne hj, if_neg hj]
  have hlive : ∀ j, (InnDbf.deliver { s with loader := some loader } room).HasRoom j →
      j = s.newRoom ∨ s.HasRoom j := by
    intro j hj
    rw [InnDbf.HasRoom, hkeys] at hj
    have hj' := Owns.hasRoom_setRoomKey.mp hj
    split at hj'
    · next heq => exact .inl heq
    · exact .inr hj'
  have howns : Owns (InnDbf.deliver { s with loader := some loader } room) rooms :=
    (h.owns.adopt (i := s.newRoom) hr hu hrow hlinked).congr rfl rfl rfl
      (fun j => congrArg RoomKey.saved (hkeys j)) fun _ ht => ht
  refine ⟨howns, ?_, ?_, fun hno => absurd (hloaded.symm.trans hno) (by decide), ?_⟩
  · intro i hi hroom
    have hi' : s.newRoom + 1 ≤ i := hi
    rcases hlive i hroom with heq | hlive
    · omega
    · exact h.fresh i (by omega) hlive
  · intro req hreq i hi
    obtain ⟨hlt, hlinks⟩ := h.requests req hreq i hi
    exact ⟨Nat.lt_succ_of_lt hlt, hlinks⟩
  · rintro l ⟨⟩
    obtain ⟨front, back, hsplit, hahead, hne⟩ := hahead
    refine ⟨front, back, hsplit, ?_⟩
    -- the object that is new has a room that is passed
    have hothers : ∀ x ∈ back, (∀ i, s.HasRoom i → (s.rooms i).roomKey.roomPos ≠ x.key.roomPos) →
        ∀ i, (InnDbf.deliver { s with loader := some loader } room).HasRoom i →
          ((InnDbf.deliver { s with loader := some loader } room).rooms i).roomKey.roomPos ≠ x.key.roomPos := by
      intro x hx hold i hi
      rw [hkeys, Owns.roomKey_setRoomKey]
      split
      · exact (hne x hx).symm
      · next hi' => exact hold i ((hlive i hi).resolve_left hi')
    cases loader with
    | all pos => exact ⟨hahead.1, fun x hx => ⟨hothers x hx (hahead.2 x hx).1, (hahead.2 x hx).2⟩⟩
    | table t pos count delivered =>
      exact ⟨hahead.1, hahead.2.1, fun x hx syncKey payload hrow =>
        hothers x hx (hahead.2.2 x hx syncKey payload hrow)⟩

theorem passed {front : List Room} (h : Inv s (front ++ r :: back)) : ∀ x ∈ back, x.key.roomPos ≠ r.key.roomPos := by
  intro x hx
  exact ne_of_gt (h.owns.content.stores.around.2 x hx)

theorem loadRoom_key {key : RoomKey} {data rest : Bytes} {room : InnDbfRoom}
    (h : loadRoom key data = .ok (room, rest)) : room.roomKey = key := by
  unfold loadRoom at h
  obtain ⟨_, _, h⟩ := bind_ok h
  cases h
  rfl

theorem loadAllStep (h : Inv s rooms) {pos : ℕ} (hloader : s.loader = some (.all pos)) :
    Inv s.loadStep rooms := by
  have hloaded := h.loaded hloader
  obtain ⟨front, back, rfl, hpos, hrest⟩ := h.loading _ hloader
  have hstop : ∀ {t : InnDbf} {rooms : List Room}, Inv t rooms → t.isLoadedAll = true →
      Inv { t with loader := none } rooms := fun ht hl => ht.setLoader hl fun l hl => nomatch hl
  have hstores := h.owns.content.stores
  unfold InnDbf.loadStep
  simp only [hloader]
  cases back with
  | nil =>
    rw [show pos = s.file.fileSize from hpos, loadAllTurn_end hstores]
    exact hstop h hloaded
  | cons r back =>
    have hr : r ∈ front ++ r :: back := mem_append_right _ mem_cons_self
    have hpos : pos = r.key.roomPos := hpos
    have hsplit : front ++ r :: back = (front ++ [r]) ++ back := by simp
    have hnext := hstores.nextRoomPos
    have hback : Ahead s back (.all r.key.nextRoomPos) :=
      ⟨hnext, fun x hx => hrest x (mem_cons_of_mem _ hx)⟩
    have hskip : Inv { s with loader := some (.all r.key.nextRoomPos) } (front ++ r :: back) :=
      h.setLoader hloaded (by
        rintro l ⟨⟩
        exact ⟨front ++ [r], back, hsplit, hback⟩)
    obtain ⟨hobjects, hfree⟩ := hrest r mem_cons_self
    rw [hpos]
    rcases h.owns.content.each r hr with hfreed | ⟨next, hex⟩ | ⟨tableId, syncKey, payload, hrow⟩
    · rw [loadAllTurn_free hstores hr hfreed]
      have hu : Unowned s (front ++ r :: back) r.key.roomPos := by
        refine ⟨hobjects, hfree, fun x hx hxpos => ?_⟩
        rw [hstores.unique hx hr hxpos]
        exact hfreed.not_exHeader
      refine ⟨(h.owns.push hr hu hfreed).congr rfl rfl rfl (fun _ => rfl) fun _ ht => ht, h.fresh, h.requests,
        fun hno => absurd (hloaded.symm.trans hno) (by decide), ?_⟩
      rintro l ⟨⟩
      refine ⟨front ++ [r], back, hsplit, hnext, fun x hx => ⟨(hback.2 x hx).1, fun hin => ?_⟩⟩
      have hperm := (entries_push r.key.roomSize r.key.roomPos s.freedRoomsMap).map Prod.snd
      rw [← positions_eq, map_cons, ← positions_eq] at hperm
      rcases mem_cons.mp (hperm.mem_iff.mp hin) with heq | hin
      · exact h.passed x hx heq
      · exact (hback.2 x hx).2 hin
    · rw [loadAllTurn_exHeader hstores hr hex]
      exact hskip
    · rw [loadAllTurn_row hstores hr hrow]
      cases htable : s.getTable tableId with
      | none =>
        simp only [htable]
        exact hskip
      | some table =>
        simp only [htable]
        have hlinks := @isLinked_setTable s tableId table { table with roomCount := u64 (table.roomCount + 1) }
          htable rfl
        have hcount : Inv (s.setTable tableId { table with roomCount := u64 (table.roomCount + 1) })
            (front ++ r :: back) := by
          refine h.book rfl rfl rfl (fun _ => rfl) rfl rfl le_rfl (fun t ht => ?_) (fun hno => ?_)
            fun req hmem => .inl hmem
          · rw [hlinks]
            exact ht
          · exact absurd (hloaded.symm.trans hno) (by decide)
        have hahead : ∃ front' back', front ++ r :: back = front' ++ back' ∧
            Ahead (s.setTable tableId { table with roomCount := u64 (table.roomCount + 1) }) back'
              (.all r.key.nextRoomPos) ∧ ∀ x ∈ back', x.key.roomPos ≠ r.key.roomPos :=
          ⟨front ++ [r], back, hsplit, hback, h.passed⟩
        split
        · next hhandler =>
          have hlinked : (s.setTable tableId { table with roomCount := u64 (table.roomCount + 1) }).isLinked
              tableId = true := by
            rw [hlinks, isLinked, htable]
            exact hhandler
          cases hload : loadRoom r.key (syncKey.toBitv ++ payload) with
          | error e => exact hstop hcount hloaded
          | ok found =>
            obtain ⟨room, data⟩ := found
            exact hcount.deliver hloaded hr hrow hlinked hobjects hahead (loadRoom_key hload)
        · refine hcount.setLoader hloaded fun l hl => ?_
          obtain ⟨front', back', hsplit', hback', -⟩ := hahead
          obtain rfl := Option.mem_some_iff.mp hl
          exact ⟨front', back', hsplit', hback'⟩

theorem loadTableStep (h : Inv s rooms) {tableId pos count : ℕ} {delivered : Bool}
    (hloader : s.loader = some (.table tableId pos count delivered)) : Inv s.loadStep rooms := by
  have hloaded := h.loaded hloader
  obtain ⟨front, back, rfl, hpos, hlinked, hrest⟩ := h.loading _ hloader
  have hstop : Inv { s with loader := none } (front ++ back) := h.setLoader hloaded fun l hl => nomatch hl
  have hstores := h.owns.content.stores
  unfold InnDbf.loadStep
  simp only [hloader]
  split
  · exact hstop
  cases hturn : loadTableTurn s.file tableId pos with
  | error e => exact hstop
  | ok turn =>
    cases back with
    | nil =>
      rw [show pos = s.file.fileSize from hpos, loadTableTurn_end hstores] at hturn
      cases hturn
      exact hstop
    | cons r back =>
      have hr : r ∈ front ++ r :: back := mem_append_right _ mem_cons_self
      have hpos : pos = r.key.roomPos := hpos
      have hsplit : front ++ r :: back = (front ++ [r]) ++ back := by simp
      have hback : ∀ count delivered, Ahead s back (.table tableId r.key.nextRoomPos count delivered) :=
        fun _ _ => ⟨hstores.nextRoomPos, hlinked, fun x hx => hrest x (mem_cons_of_mem _ hx)⟩
      have hskip : Inv { s with loader := some (.table tableId r.key.nextRoomPos count false) }
          (front ++ r :: back) := h.setLoader hloaded (by
            rintro l ⟨⟩
            exact ⟨front ++ [r], back, hsplit, hback _ _⟩)
      rw [hpos] at hturn
      have hin := loadTableTurn_ok hstores hr hturn
      by_cases hshort : r.key.dataSize ≤ kDcMemBufSize
      · rw [loadTableTurn_short hstores hr hin tableId hshort] at hturn
        cases hturn
        exact hskip
      rcases h.owns.content.each r hr with hfreed | ⟨next, hex⟩ | ⟨id, syncKey, payload, hrow⟩
      · have hlen := hstores.data_length hr
        rw [hfreed.data, length_nil] at hlen
        exact absurd (Nat.zero_le _) (hlen ▸ hshort)
      · rw [loadTableTurn_exHeader hstores hr hin tableId hex] at hturn
        cases hturn
      · rw [loadTableTurn_row hstores hr hin tableId hrow (not_le.mp hshort)] at hturn
        by_cases hid : id = tableId
        · subst hid
          rw [if_pos rfl] at hturn
          cases hturn
          cases hload : loadRoom r.key (syncKey.toBitv ++ payload) with
          | error e =>
            simp only [hload]
            exact hstop
          | ok found =>
            obtain ⟨room, data⟩ := found
            simp only [hload]
            exact h.deliver hloaded hr hrow hlinked (hrest r mem_cons_self syncKey payload hrow)
              ⟨front ++ [r], back, hsplit, hback _ _, h.passed⟩ (loadRoom_key hload)
        · rw [if_neg hid] at hturn
          cases hturn
          exact hskip

theorem loadStep (h : Inv s rooms) : Inv s.loadStep rooms := by
  cases hloader : s.loader with
  | none =>
    unfold InnDbf.loadStep
    simp only [hloader]
    exact h
  | some loader =>
    cases loader with
    | all pos => exact h.loadAllStep hloader
    | table tableId pos count delivered => exact h.loadTableStep hloader

end Inv

end Fon9.Inn
