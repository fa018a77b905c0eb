import Fon9.Inn.Ownership

/-! Requests that are carried out keep who has which room. -/

namespace Fon9.Inn

open Lib Bitv Buffer InnDbf List FreedRoomsMap Function BigEndian

variable {s s' s'' : InnDbf} {rooms rooms' : List Room} {g : InnFile} {r : Room} {i : ℕ} {o : Option ℕ}

/-! ### Tables -/

theorem getTable_setTable {tableId t : ℕ} {old table : InnDbfTableLink} (h : s.getTable tableId = some old) :
    (s.setTable tableId table).getTable t = if t = tableId then some table else s.getTable t := by
  unfold getTable at h
  split at h
  · cases h
  next hzero =>
    have hlt : tableId - 1 < s.tableList.length := by
      by_contra hge
      rw [getElem?_eq_none (not_lt.mp hge)] at h
      cases h
    unfold getTable setTable
    by_cases ht : t = tableId
    · subst ht
      rw [if_neg hzero, if_pos rfl, getElem?_set_self hlt]
      rfl
    · rw [if_neg ht]
      by_cases htzero : t = 0
      · rw [if_pos htzero, if_pos htzero]
      · rw [if_neg htzero, if_neg htzero, getElem?_set_ne (by omega)]

theorem isLinked_setTable {tableId : ℕ} {old table : InnDbfTableLink} (h : s.getTable tableId = some old)
    (hhandler : table.hasHandler = old.hasHandler) (t : ℕ) : (s.setTable tableId table).isLinked t = s.isLinked t := by
  unfold isLinked
  rw [getTable_setTable h]
  split
  · next ht =>
    subst ht
    rw [h]
    exact hhandler
  · rfl

/-! ### What an update leaves -/

/-- Beside the rooms an update changes one object at most. -/
structure Frame (s s' : InnDbf) (o : Option ℕ) : Prop where
  isLoadedAll : s'.isLoadedAll = s.isLoadedAll
  loader : s'.loader = s.loader
  requests : s'.requests = s.requests
  newRoom : s'.newRoom = s.newRoom
  linked : ∀ t, s'.isLinked t = s.isLinked t
  objects : ∀ j, o ≠ some j → s'.rooms j = s.rooms j

namespace Frame

theorem rfl' : Frame s s o := ⟨rfl, rfl, rfl, rfl, fun _ => rfl, fun _ _ => rfl⟩

theorem trans (h : Frame s s' o) (h' : Frame s' s'' o) : Frame s s'' o where
  isLoadedAll := h'.isLoadedAll.trans h.isLoadedAll
  loader := h'.loader.trans h.loader
  requests := h'.requests.trans h.requests
  newRoom := h'.newRoom.trans h.newRoom
  linked t := (h'.linked t).trans (h.linked t)
  objects j hj := (h'.objects j hj).trans (h.objects j hj)

theorem setRoom (s : InnDbf) (i : ℕ) (room : InnDbfRoom) : Frame s (s.setRoom i room) (some i) where
  isLoadedAll := rfl
  loader := rfl
  requests := rfl
  newRoom := rfl
  linked _ := rfl
  objects _ hj := update_of_ne (fun heq => hj (congrArg some heq.symm)) _ _

theorem setRoomKey (s : InnDbf) (i : ℕ) (key : RoomKey) : Frame s (s.setRoomKey i key) (some i) :=
  Frame.setRoom s i { s.rooms i with roomKey := key }

theorem setFile (s : InnDbf) (g : InnFile) : Frame s { s with file := g } o :=
  ⟨rfl, rfl, rfl, rfl, fun _ => rfl, fun _ _ => rfl⟩

end Frame

theorem setRoomKey_setRoomKey (s : InnDbf) (i : ℕ) (key key' : RoomKey) :
    (s.setRoomKey i key).setRoomKey i key' = s.setRoomKey i key' := by
  unfold setRoomKey setRoom
  simp only [update_self, update_idem]

namespace Owns

/-- The room of an object is freed. -/
theorem writeFreeRoom (h : Owns s rooms) (i : ℕ) :
    ∃ s' rooms', s.writeFreeRoom i = (.ok (), s') ∧ Owns s' rooms' ∧ ¬ s'.HasRoom i ∧ Frame s s' (some i) ∧
      s'.exHeaderLastRoomKey = s.exHeaderLastRoomKey ∧ s'.file.blockSize = s.file.blockSize ∧
      s'.file.fileSize = s.file.fileSize ∧
      (∀ p, Unowned s rooms p → Unowned s' rooms' p) ∧ ∀ r ∈ rooms, Unowned s rooms r.key.roomPos → r ∈ rooms' := by
  by_cases hi : s.HasRoom i
  · obtain ⟨r, hr, hkey, -⟩ := h.live i hi
    obtain ⟨g, rooms', heq, hblock, hsize, hc⟩ :=
      freeRoom_changed h.content.stores h.content.whole hr hkey.symm kInnRoomType_Free
    have hforget := h.forget i
    have hfreed : Freed ⟨{ (s.rooms i).roomKey with
        currentRoomType := kInnRoomType_Free, pendingRoomType := kInnRoomType_Free, dataSize := 0 }, []⟩ := ⟨rfl, rfl⟩
    have hu : Unowned (s.setRoomKey i {}) rooms (s.rooms i).roomKey.roomPos := h.unowned_forget hi
    have hchange := hforget.change hu hc (.inl hfreed) hfreed.not_exHeader
    have hpush := hchange.push (hc.mem (mem_singleton_self _))
      (unowned_change hc hfreed.not_exHeader hu) hfreed
    refine ⟨_, rooms', ?_, hpush, ?_, ?_, rfl, hblock, hsize, ?_, ?_⟩
    · unfold InnDbf.writeFreeRoom
      simp only [if_neg hi, heq]
      rfl
    · intro hlive
      have hlive' := hasRoom_setRoomKey.mp hlive
      rw [if_pos rfl] at hlive'
      exact hlive' rfl
    · have hframe := Frame.setRoomKey s i {}
      exact { hframe with isLoadedAll := rfl }
    · intro p hp
      have hp' := unowned_setRoomKey i hp
      have hchanged := unowned_change hc hfreed.not_exHeader hp'
      refine ⟨hchanged.objects, fun hin => ?_, hchanged.exHeader⟩
      have hperm := (entries_push (s.rooms i).roomKey.roomSize (s.rooms i).roomKey.roomPos
        s.freedRoomsMap).map Prod.snd
      rw [← positions_eq, map_cons, ← positions_eq] at hperm
      rcases mem_cons.mp (hperm.mem_iff.mp hin) with heq | hin
      · exact hp.objects i hi heq.symm
      · exact hp.freed hin
    · intro r hr hu
      apply hc.mem_of_ne hr
      rw [forall_mem_singleton]
      exact (hu.objects i hi).symm
  · refine ⟨s, rooms, ?_, h, hi, Frame.rfl', rfl, rfl, rfl, fun p hp => hp, fun r hr _ => hr⟩
    unfold InnDbf.writeFreeRoom
    exact if_pos (Decidable.not_not.mp hi)

theorem freeOld (h : Owns s rooms) (o : Option ℕ) :
    ∃ s' rooms', s.freeOld o = (.ok (), s') ∧ Owns s' rooms' ∧ (∀ i, o = some i → ¬ s'.HasRoom i) ∧ Frame s s' o ∧
      s'.exHeaderLastRoomKey = s.exHeaderLastRoomKey ∧ s'.file.blockSize = s.file.blockSize ∧
      s'.file.fileSize = s.file.fileSize ∧
      (∀ p, Unowned s rooms p → Unowned s' rooms' p) ∧ ∀ r ∈ rooms, Unowned s rooms r.key.roomPos → r ∈ rooms' := by
  cases o with
  | none =>
    exact ⟨s, rooms, rfl, h, fun i hi => (nomatch hi), Frame.rfl', rfl, rfl, rfl, fun p hp => hp, fun r hr _ => hr⟩
  | some i =>
    obtain ⟨s', rooms', heq, howns, hdead, hrest⟩ := h.writeFreeRoom i
    exact ⟨s', rooms', heq, howns, fun j hj => by cases hj; exact hdead, hrest⟩

/-- A room of the requested size is nobody's, and the old one is free. -/
theorem allocRoom (h : Owns s rooms) (o : Option ℕ) (roomType : InnRoomType) {requiredSize : ℕ}
    (hfits : Fits s.file.blockSize requiredSize) (hgrow : s.file.cannotGrow requiredSize .none = false) :
    ∃ s' rooms' key g rooms'', s.allocRoom o roomType requiredSize = (.ok key, { s' with file := g }) ∧
      Owns s' rooms' ∧ (∀ i, o = some i → ¬ s'.HasRoom i) ∧ Frame s s' o ∧
      s'.exHeaderLastRoomKey = s.exHeaderLastRoomKey ∧ Unowned s' rooms' key.roomPos ∧
      Changed rooms' g [⟨key, []⟩] rooms'' ∧ requiredSize ≤ key.roomSize ∧
      key.dataSize = 0 ∧ key.currentRoomType = roomType := by
  unfold InnDbf.allocRoom
  cases htake : FreedRoomsMap.take requiredSize s.freedRoomsMap with
  | some taken =>
    obtain ⟨p, freed⟩ := taken
    obtain ⟨htaken, hu, r, hr, hpos, hle, hfreed⟩ := h.take htake
    obtain ⟨s', rooms', heq, howns, hdead, hframe, hex, -, -, hkeep, hmem⟩ := htaken.freeOld o
    have hr' : r ∈ rooms' := hmem r hr (by rw [hpos]; exact hu)
    obtain ⟨g, rooms'', hrealloc, hc⟩ :=
      reallocRoom_changed howns.content.stores howns.content.whole hr' roomType hle
    rw [hpos] at hrealloc
    refine ⟨s', rooms', _, g, rooms'', ?_, howns, hdead, ?_, hex, ?_, hc, hle, rfl, rfl⟩
    · simp only [heq, hrealloc]
    · exact ⟨hframe.isLoadedAll, hframe.loader, hframe.requests, hframe.newRoom, hframe.linked, hframe.objects⟩
    · show Unowned s' rooms' r.key.roomPos
      rw [hpos]
      exact hkeep p hu
  | none =>
    obtain ⟨s', rooms', heq, howns, hdead, hframe, hex, hblock, hsize, -, -⟩ := h.freeOld o
    have hfits' : Fits s'.file.blockSize requiredSize := by rw [hblock]; exact hfits
    have hgrow' : s'.file.cannotGrow requiredSize .none = false := by
      unfold InnFile.cannotGrow InnFile.grownSize InnFile.newBlockCount
      rw [hblock, hsize]
      exact hgrow
    obtain ⟨key, g, rooms'', hmake, hle, hdata, htype, hnew, hc⟩ :=
      @makeNewRoom_changed _ _ roomType _ howns.content.stores howns.content.whole hfits' hgrow'
    refine ⟨s', rooms', key, g, rooms'', ?_, howns, hdead, hframe, hex, howns.unowned_new hnew, hc, hle, hdata,
      htype⟩
    simp only [heq, hmake]

/-- The data of a row goes into a room that is nobody's, and the object has it. -/
theorem rewriteRoom {f : InnFile} (h : Owns { s.setRoomKey i {} with file := f } rooms)
    (hu : Unowned { s.setRoomKey i {} with file := f } rooms r.key.roomPos) (hc : Changed rooms s.file [r] rooms')
    (hkey : (s.rooms i).roomKey.saved = r.key) {t : InnDbfRoomType}
    (hpending : (s.rooms i).roomKey.pendingRoomType = t.toInnRoomType) {tableId : ℕ} {syncKey : RoomSyncKey}
    {payload : Bytes} (hle : (rowData tableId syncKey payload).length ≤ r.key.roomSize) (hid : 0 < tableId)
    (hlt : tableId < 2 ^ 32) (hlinked : s.isLinked tableId = true) :
    ∃ rooms'', Owns (s.rewriteRoom i (rowData tableId syncKey payload)) rooms'' ∧
      Frame s (s.rewriteRoom i (rowData tableId syncKey payload)) (some i) := by
  have hsize : (s.rooms i).roomKey.roomSize = r.key.roomSize := by rw [← hkey, RoomKey.saved_roomSize]
  have hpos : r.key.roomPos = (s.rooms i).roomKey.roomPos := by rw [← hkey, RoomKey.saved_roomPos]
  obtain ⟨g, rooms'', heq, hc'⟩ := rewrite_changed hc.stores hc.whole (hc.mem (mem_singleton_self _)) hkey
    (hle.trans_eq hsize.symm)
  have hall := hc.again hc' hpos
  have hrow : RowOf tableId syncKey payload ⟨{ (s.rooms i).roomKey with
      currentRoomType := (s.rooms i).roomKey.pendingRoomType
      dataSize := (rowData tableId syncKey payload).length }, rowData tableId syncKey payload⟩ :=
    ⟨⟨t, hpending⟩, rfl, hid, hlt⟩
  rw [hpos] at hu
  have hchange := h.change hu hall (.inr (.inr ⟨_, _, _, hrow⟩)) hrow.not_exHeader
  have hadopt := hchange.adopt (i := i) (hall.mem (mem_singleton_self _))
    (unowned_change hall hrow.not_exHeader hu) hrow hlinked
  have hstate : s.rewriteRoom i (rowData tableId syncKey payload) = InnDbf.setRoomKey
      { { s.setRoomKey i {} with file := f } with file := g } i { (s.rooms i).roomKey with
        currentRoomType := (s.rooms i).roomKey.pendingRoomType
        dataSize := (rowData tableId syncKey payload).length } := by
    unfold InnDbf.rewriteRoom
    rw [heq]
    unfold InnDbf.setRoomKey InnDbf.setRoom
    simp only [update_self, update_idem]
  refine ⟨rooms'', ?_, ?_⟩
  · rw [hstate]
    exact hadopt
  · unfold InnDbf.rewriteRoom
    rw [heq]
    exact (Frame.setFile s g).trans (Frame.setRoomKey _ i _)

/-- The size of the room of a row. -/
theorem writeRow (h : Owns s rooms) {tableId : ℕ} {table : InnDbfTableLink} (i : ℕ)
    (htable : s.getTable tableId = some table) (hlinked : s.isLinked tableId = true) (hlt : tableId < 2 ^ 32)
    (hfits : Fits s.file.blockSize (max table.minRoomSize
      (rowData tableId (s.rooms i).syncKey (s.rooms i).pendingWrite).length))
    (hgrow : s.file.cannotGrow (max table.minRoomSize
      (rowData tableId (s.rooms i).syncKey (s.rooms i).pendingWrite).length) .none = false) :
    ∃ rooms', Owns (s.writeRow tableId i table) rooms' ∧ Frame s (s.writeRow tableId i table) (some i) := by
  have hid : 0 < tableId := by
    unfold getTable at htable
    split at htable
    · cases htable
    · omega
  have hu32 : u32 (rowData tableId (s.rooms i).syncKey (s.rooms i).pendingWrite).length =
      (rowData tableId (s.rooms i).syncKey (s.rooms i).pendingWrite).length := by
    have hsum := hfits.1
    have h9 : kRoomHeaderSize = 9 := rfl
    have hblock := h.content.stores.laid.block_pos
    exact u32_of_lt (by omega)
  -- the object as the request leaves it
  let room : InnDbfRoom := { s.rooms i with
    roomKey := { (s.rooms i).roomKey with pendingRoomType := (s.rooms i).pendingRoomType.toInnRoomType }
    note := (s.rooms i).pendingRoomNote
    pendingRoomNote := .NoPending
    pendingWrite := [] }
  have hroom : Owns (s.setRoom i room) rooms := by
    refine h.congr rfl rfl rfl ?_ fun t ht => ht
    intro j
    unfold InnDbf.setRoom
    by_cases hj : j = i
    · subst hj
      simp only [update_self]
      rfl
    · simp only [update_of_ne hj]
  have hself : (s.setRoom i room).rooms i = room := update_self _ _ _
  unfold InnDbf.writeRow
  simp only [hu32]
  split
  · next hsmall =>
    -- the count of the table does not matter
    obtain ⟨s₁, hs₁, howns, hframe, hi, hfile⟩ : ∃ s₁, (if (s.rooms i).roomKey.roomPos = 0 then
        (s.setRoom i room).setTable tableId { table with roomCount := u64 (table.roomCount + 1) }
        else s.setRoom i room) = s₁ ∧ Owns s₁ rooms ∧ Frame s s₁ (some i) ∧ s₁.rooms i = room ∧
        s₁.file = s.file := by
      split
      · have hlinks := @isLinked_setTable (s.setRoom i room) tableId table
          { table with roomCount := u64 (table.roomCount + 1) } htable rfl
        refine ⟨_, rfl, hroom.congr rfl rfl rfl (fun _ => rfl) fun t ht => ?_, ?_, hself, rfl⟩
        · rw [hlinks]
          exact ht
        · exact (Frame.setRoom s i room).trans ⟨rfl, rfl, rfl, rfl, hlinks, fun _ _ => rfl⟩
      · exact ⟨_, rfl, hroom, Frame.setRoom s i room, hself, rfl⟩
    have hs₁' := hs₁
    simp only [room] at hs₁'
    simp only [hs₁']
    rw [← hfile] at hfits hgrow
    obtain ⟨s', rooms', key, g, rooms'', heq, howns', hdead, hframe', -, hu, hc, hle, hdata, htype⟩ :=
      howns.allocRoom (some i) (s.rooms i).pendingRoomType.toInnRoomType hfits hgrow
    simp only [heq]
    have hmem := hc.mem (mem_singleton_self _)
    have hstate : InnDbf.setRoomKey (InnDbf.setRoomKey { s' with file := g } i key) i {} =
        { s'.setRoomKey i {} with file := g } := by
      rw [setRoomKey_setRoomKey]
      rfl
    have hkey : ((InnDbf.setRoomKey { s' with file := g } i key).rooms i).roomKey = key := by
      rw [roomKey_setRoomKey, if_pos rfl]
    have hforget := howns'.forget i
    have hu' := unowned_setRoomKey i hu
    obtain ⟨rooms₃, howns₃, hframe₃⟩ := @rewriteRoom (InnDbf.setRoomKey { s' with file := g } i key) rooms' rooms''
      ⟨key, []⟩ i s'.file (by rw [hstate]; exact hforget) (by rw [hstate]; exact hu') hc
      (by rw [hkey]; exact hc.stores.saved_key hmem) (s.rooms i).pendingRoomType
      (by rw [hkey, ← htype]; exact (hc.stores.lies hmem).disk.pending) tableId (s.rooms i).syncKey
      (s.rooms i).pendingWrite ((le_max_right _ _).trans hle) hid hlt
      (by
        have hlinked' := hframe'.linked tableId
        rw [hframe.linked, hlinked] at hlinked'
        exact hlinked')
    exact ⟨rooms₃, howns₃, (hframe.trans hframe').trans
      ((Frame.setFile s' g).trans ((Frame.setRoomKey _ i key).trans hframe₃))⟩
  · next hle =>
    have hpos : (rowData tableId (s.rooms i).syncKey (s.rooms i).pendingWrite).length ≠ 0 := by
      have := (uint32_length hlt).1
      rw [rowData_eq, length_append]
      omega
    have hi : (s.setRoom i room).HasRoom i := by
      by_contra hno
      have hdead := hroom.dead i hno
      rw [hself] at hdead
      have hdead' : (s.rooms i).roomKey.roomSize = 0 := hdead
      omega
    obtain ⟨r, hr, hkey, -⟩ := hroom.live i hi
    rw [hself] at hkey
    have hrpos : r.key.roomPos = (s.rooms i).roomKey.roomPos := by rw [hkey]; rfl
    have hu := hroom.unowned_forget hi
    rw [hself] at hu
    have hrsize : r.key.roomSize = (s.rooms i).roomKey.roomSize := by rw [hkey]; rfl
    obtain ⟨rooms', howns, hframe⟩ := @rewriteRoom (s.setRoom i room) rooms rooms r i s.file (hroom.forget i)
      (by rw [hrpos]; exact hu) (Changed.refl hroom.content.stores hroom.content.whole hr)
      (by rw [hself, hkey]) (s.rooms i).pendingRoomType (by rw [hself]) tableId (s.rooms i).syncKey
      (s.rooms i).pendingWrite (by rw [hrsize]; omega) hid hlt hlinked
    exact ⟨rooms', howns, (Frame.setRoom s i room).trans hframe⟩

/-- Rooms of the ExHeader are changed, and one of them is the last one now. -/
theorem changeExHeaders (h : Owns s rooms) {news : List Room} (hc : Changed rooms g news rooms')
    (hnews : ∀ n ∈ news, ∃ next, ExHeaderOf next n ∧
      (next ≠ 0 → ∃ x ∈ rooms', x.key.roomPos = next ∧ x.key.currentRoomType = kInnRoomType_ExFileHeader))
    (hobjects : ∀ n ∈ news, ∀ j, s.HasRoom j → (s.rooms j).roomKey.roomPos ≠ n.key.roomPos)
    (hfreed : ∀ n ∈ news, n.key.roomPos ∉ s.freedRoomsMap.positions) (hr : r ∈ news) :
    Owns { s with file := g, exHeaderLastRoomKey := r.key } rooms' where
  content := by
    apply h.content.changed hc
    · intro n hn
      obtain ⟨next, hof, -⟩ := hnews n hn
      exact .inr (.inl ⟨next, hof⟩)
    · intro n hn next hof hne
      obtain ⟨next', hof', hnext⟩ := hnews n hn
      rw [hof.unique hof'] at hne ⊢
      exact hnext hne
    · intro n hn x _ _ _
      obtain ⟨next, hof, -⟩ := hnews n hn
      exact hof.type
  exHeader := by
    obtain ⟨next, hof, -⟩ := hnews r hr
    exact ⟨r, hc.mem hr, rfl, hof.type⟩
  live j hj := by
    obtain ⟨x, hx, hkey, hrow⟩ := h.live j hj
    refine ⟨x, hc.mem_of_ne hx ?_, hkey, hrow⟩
    intro n hn
    rw [hkey]
    exact hobjects n hn j hj
  inj := h.inj
  dead := h.dead
  freed e he := by
    obtain ⟨x, hx, hpos, hsize, hfree⟩ := h.freed e he
    refine ⟨x, hc.mem_of_ne hx ?_, hpos, hsize, hfree⟩
    intro n hn heq
    apply hfreed n hn
    rw [positions_eq, ← heq, hpos]
    exact mem_map_of_mem he
  nodup := h.nodup

/-- A room of the ExHeader is no object's and not in the map. -/
theorem exHeader_ne (h : Owns s rooms) (hr : r ∈ rooms) (htype : r.key.currentRoomType = kInnRoomType_ExFileHeader) :
    (∀ j, s.HasRoom j → (s.rooms j).roomKey.roomPos ≠ r.key.roomPos) ∧
      r.key.roomPos ∉ s.freedRoomsMap.positions := by
  constructor
  · intro j hj heq
    obtain ⟨x, hx, hkey, tableId, syncKey, payload, hrow, -⟩ := h.live j hj
    have hpos : x.key.roomPos = r.key.roomPos := by
      rw [hkey]
      exact heq
    rw [h.content.stores.unique hx hr hpos] at hrow
    exact hrow.not_exHeader htype
  · intro hin
    obtain ⟨x, hx, hpos, hfreed⟩ := h.entry hin
    rw [h.content.stores.unique hx hr hpos] at hfreed
    exact hfreed.not_exHeader htype

/-- The entry goes behind the data of the last room. -/
theorem appendExHeader (h : Owns s rooms) {entry : Bytes}
    (hle : s.exHeaderLastRoomKey.dataSize + entry.length ≤ s.exHeaderLastRoomKey.roomSize) :
    ∃ rooms', Owns (s.appendExHeader entry entry.length) rooms' ∧ Frame s (s.appendExHeader entry entry.length) none := by
  obtain ⟨r, hr, hkey, htype⟩ := h.exHeader
  obtain ⟨next, hof⟩ := h.content.exHeaderOf hr htype
  obtain ⟨rest, hdata⟩ := hof.data
  have hlen := h.content.stores.data_length hr
  rw [← hkey] at hle
  obtain ⟨g, rooms', heq, hc⟩ := write_changed h.content.stores h.content.whole hr le_rfl hle (le_refl entry.length)
  rw [← hlen, take_length, take_length, drop_of_length_le (Nat.le_add_right _ _), append_nil,
    hlen] at hc
  have hchange := h.changeExHeaders hc (by
    rw [forall_mem_singleton]
    refine ⟨next, ⟨htype, ⟨rest ++ entry, by rw [hdata, append_assoc]⟩, hof.next_lt⟩, fun hne => ?_⟩
    apply hc.exHeader
    · rw [forall_mem_singleton]
      exact fun _ _ _ _ => htype
    · exact h.content.next r hr next hof hne) (by
    rw [forall_mem_singleton]
    exact (h.exHeader_ne hr htype).1) (by
    rw [forall_mem_singleton]
    exact (h.exHeader_ne hr htype).2) (mem_singleton_self _)
  refine ⟨rooms', ?_, ?_⟩
  · unfold InnDbf.appendExHeader
    rw [← hkey, heq]
    exact hchange
  · unfold InnDbf.appendExHeader
    rw [← hkey, heq]
    exact ⟨rfl, rfl, rfl, rfl, fun _ => rfl, fun _ _ => rfl⟩

/-- The entry goes into a new room, to which the last one leads. -/
theorem growExHeader (h : Owns s rooms) {f₁ : InnFile} {rooms₁ : List Room} {key : RoomKey} {entry : Bytes}
    (hc : Changed rooms f₁ [⟨key, []⟩] rooms₁) (hu : Unowned s rooms key.roomPos)
    (htype : key.currentRoomType = kInnRoomType_ExFileHeader) (hdata : key.dataSize = 0)
    (hle : entry.length + 8 ≤ key.roomSize) :
    ∃ last f₂, f₁.write s.exHeaderLastRoomKey 0 8 (BigEndian.bytes 8 key.roomPos) = .ok (last, f₂) ∧
      (∃ rooms₂, Owns (InnDbf.appendExHeader { s with file := f₂, exHeaderLastRoomKey := key }
        (replicate 8 0 ++ entry) (entry.length + 8)) rooms₂) ∧
      Frame s (InnDbf.appendExHeader { s with file := f₂, exHeaderLastRoomKey := key }
        (replicate 8 0 ++ entry) (entry.length + 8)) none := by
  obtain ⟨r, hr, hkey, hex⟩ := h.exHeader
  obtain ⟨next, hof⟩ := h.content.exHeaderOf hr hex
  obtain ⟨rest, hrest⟩ := hof.data
  have hlen := h.content.stores.data_length hr
  rw [hrest, length_append, length_bytes] at hlen
  have hroom := (h.content.stores.lies hr).disk.data_le
  have hne : r.key.roomPos ≠ key.roomPos := fun heq => hu.exHeader r hr heq hex
  have hr₁ : r ∈ rooms₁ := hc.mem_of_ne hr (by rw [forall_mem_singleton]; exact hne)
  -- the room that was the last one leads to the new one
  obtain ⟨f₂, rooms₂, hwrite, hc₂⟩ := write_changed hc.stores hc.whole hr₁ (Nat.zero_le _)
    (show 0 + 8 ≤ r.key.roomSize by omega) (length_bytes 8 key.roomPos).ge
  have hnew : ⟨key, []⟩ ∈ rooms₂ := by
    apply hc₂.mem_of_ne (hc.mem (mem_singleton_self _))
    rw [forall_mem_singleton]
    exact hne.symm
  have hlong : (replicate 8 (0 : UInt8) ++ entry).length = entry.length + 8 := by
    rw [length_append, length_replicate, add_comm]
  obtain ⟨f₃, rooms₃, hwrite₃, hc₃⟩ := write_changed hc₂.stores hc₂.whole hnew
    (show key.dataSize ≤ (⟨key, []⟩ : Room).key.dataSize from le_rfl)
    (show key.dataSize + (entry.length + 8) ≤ key.roomSize by omega) hlong.ge
  have hlies := hc₃.stores.lies (hc₃.mem (mem_singleton_self _))
  have hpos : key.roomPos < 2 ^ 63 := by
    have hnext := hlies.next_le
    have hlt := hc₃.stores.laid.size_lt
    simp only at hnext
    omega
  -- the two rooms as they are in the end
  obtain ⟨r₀, hr₀, hof₀, hc₂⟩ : ∃ r₀ : Room, r₀.key.roomPos = r.key.roomPos ∧ ExHeaderOf key.roomPos r₀ ∧
      Changed rooms₁ f₂ [r₀] rooms₂ := by
    refine ⟨_, ?_, ?_, hc₂⟩
    · rfl
    · refine ⟨hex, ⟨r.data.drop 8, ?_⟩, hpos⟩
      rw [take_zero, nil_append, take_of_length_le (length_bytes 8 _).le]
  obtain ⟨r₁, hkey₁, hof₁, hc₃⟩ : ∃ r₁ : Room,
      r₁.key = { key with dataSize := max key.dataSize (key.dataSize + (entry.length + 8)) } ∧ ExHeaderOf 0 r₁ ∧
      Changed rooms₂ f₃ [r₁] rooms₃ := by
    refine ⟨_, ?_, ?_, hc₃⟩
    · rfl
    · refine ⟨htype, ⟨entry, ?_⟩, by decide⟩
      rw [take_nil, nil_append, drop_nil, append_nil, take_of_length_le hlong.le]
      rfl
  have hr₁ : r₁.key.roomPos = key.roomPos := by rw [hkey₁]
  have hall := (hc.cons hc₂).cons hc₃
  have hnews : ∀ n ∈ r₁ :: (r₀ :: [(⟨key, []⟩ : Room)].filter fun n => n.key.roomPos ≠ r₀.key.roomPos).filter
      fun n => n.key.roomPos ≠ r₁.key.roomPos, n = r₁ ∨ n = r₀ := by
    intro n hn
    rcases mem_cons.mp hn with rfl | hn
    · exact .inl rfl
    · obtain ⟨hn, hnpos⟩ := mem_filter.mp hn
      rcases mem_cons.mp hn with rfl | hn
      · exact .inr rfl
      · obtain rfl := mem_singleton.mp (mem_filter.mp hn).1
        exact absurd hr₁.symm (of_decide_eq_true hnpos)
  obtain ⟨hobjects, hfreed⟩ := h.exHeader_ne hr hex
  have hchange := h.changeExHeaders hall
    (by
      intro n hn
      rcases hnews n hn with rfl | rfl
      · exact ⟨0, hof₁, fun hzero => absurd rfl hzero⟩
      · exact ⟨key.roomPos, hof₀, fun _ => ⟨r₁, hall.mem mem_cons_self, hr₁, hof₁.type⟩⟩)
    (by
      intro n hn j hj
      rcases hnews n hn with rfl | rfl
      · rw [hr₁]
        exact hu.objects j hj
      · rw [hr₀]
        exact hobjects j hj)
    (by
      intro n hn
      rcases hnews n hn with rfl | rfl
      · rw [hr₁]
        exact hu.freed
      · rw [hr₀]
        exact hfreed)
    mem_cons_self
  rw [hkey₁] at hchange
  refine ⟨_, f₂, by rw [← hkey]; exact hwrite, ⟨rooms₃, ?_⟩, ?_⟩
  · unfold InnDbf.appendExHeader
    simp only [hwrite₃]
    exact hchange
  · unfold InnDbf.appendExHeader
    simp only [hwrite₃]
    exact ⟨rfl, rfl, rfl, rfl, fun _ => rfl, fun _ _ => rfl⟩

theorem writeExHeaderAddTable (h : Owns s rooms) (tableId : ℕ) (table : InnDbfTableLink)
    (hfits : Fits s.file.blockSize ((tableEntry tableId table.tableName).length + kInnDbfExHeaderSize))
    (hgrow : s.file.cannotGrow ((tableEntry tableId table.tableName).length + kInnDbfExHeaderSize) .none = false) :
    ∃ rooms', Owns (s.writeExHeaderAddTable tableId table) rooms' ∧
      Frame s (s.writeExHeaderAddTable tableId table) none := by
  have h256 : kInnDbfExHeaderSize = 256 := rfl
  have hsum := hfits.1
  have h9 : kRoomHeaderSize = 9 := rfl
  have hblock := h.content.stores.laid.block_pos
  have hu32 : u32 (tableEntry tableId table.tableName).length = (tableEntry tableId table.tableName).length :=
    u32_of_lt (by omega)
  have hu32' : u32 ((tableEntry tableId table.tableName).length + kInnDbfExHeaderSize) =
      (tableEntry tableId table.tableName).length + kInnDbfExHeaderSize := u32_of_lt (by omega)
  have hu32'' : u32 ((tableEntry tableId table.tableName).length + 8) =
      (tableEntry tableId table.tableName).length + 8 := u32_of_lt (by omega)
  unfold InnDbf.writeExHeaderAddTable
  split
  · exact ⟨rooms, h, Frame.rfl'⟩
  simp only [hu32, hu32', hu32'']
  split
  · obtain ⟨s', rooms', key, g, rooms'', heq, howns, -, hframe, -, hu, hc, hle, hdata, htype⟩ :=
      h.allocRoom none kInnRoomType_ExFileHeader hfits hgrow
    obtain ⟨last, f₂, hwrite, ⟨rooms₂, howns₂⟩, hframe₂⟩ :=
      howns.growExHeader hc hu htype hdata (show (tableEntry tableId table.tableName).length + 8 ≤ key.roomSize by omega)
    simp only [heq, hwrite]
    exact ⟨rooms₂, howns₂, hframe.trans hframe₂⟩
  · next hfit =>
    obtain ⟨r, hr, hkey, -⟩ := h.exHeader
    have hdata := (h.content.stores.lies hr).disk.data_le
    rw [hkey] at hdata
    exact h.appendExHeader (by omega)

end Owns

/-! ### One request -/

/-- What a request needs: the id and the sizes are in their types, and the file can grow. -/
def RequestFits (s : InnDbf) (req : UpdateRequest) : Prop :=
  match req.room, req.table with
  | some i, some tableId => ∀ table ∈ s.getTable tableId,
    let size := max table.minRoomSize (rowData tableId (s.rooms i).syncKey (s.rooms i).pendingWrite).length
    tableId < 2 ^ 32 ∧ Fits s.file.blockSize size ∧ s.file.cannotGrow size .none = false
  | none, some tableId => ∀ table ∈ s.getTable tableId,
    let size := (tableEntry tableId table.tableName).length + kInnDbfExHeaderSize
    Fits s.file.blockSize size ∧ s.file.cannotGrow size .none = false
  | _, none => True

instance (s : InnDbf) : (req : UpdateRequest) → Decidable (RequestFits s req)
  | ⟨some _, some _⟩ => inferInstanceAs (Decidable (∀ table ∈ s.getTable _, _ ∧ Fits _ _ ∧ _ = _))
  | ⟨some _, none⟩ => inferInstanceAs (Decidable (∀ table ∈ s.getTable _, Fits _ _ ∧ _ = _))
  | ⟨none, some _⟩ | ⟨none, none⟩ => isTrue trivial

theorem Owns.doUpdateRequest (h : Owns s rooms) {req : UpdateRequest} {rest : List UpdateRequest}
    (hreq : s.requests = req :: rest) (hfits : RequestFits s req)
    (hlinked : ∀ i ∈ req.room, ∀ tableId ∈ req.table, s.isLinked tableId = true) :
    ∃ rooms', Owns s.doUpdateRequest rooms' ∧ Frame { s with requests := rest } s.doUpdateRequest req.room := by
  have hrest : Owns { s with requests := rest } rooms := h.congr rfl rfl rfl (fun _ => rfl) fun _ ht => ht
  have hsame : ∃ rooms', Owns { s with requests := rest } rooms' ∧
      Frame { s with requests := rest } { s with requests := rest } req.room := ⟨rooms, hrest, Frame.rfl'⟩
  obtain ⟨table, room⟩ := req
  unfold InnDbf.doUpdateRequest
  simp only [hreq]
  cases room with
  | none =>
    cases table with
    | none => exact hsame
    | some tableId =>
      cases htable : getTable { s with requests := rest } tableId with
      | none =>
        simp only [htable]
        exact hsame
      | some table =>
        obtain ⟨hfits, hgrow⟩ := hfits table htable
        simp only [htable]
        exact hrest.writeExHeaderAddTable tableId table hfits hgrow
  | some i =>
    cases table with
    | none =>
      obtain ⟨s', rooms', heq, howns, -, hframe, -⟩ := hrest.writeFreeRoom i
      simp only [heq]
      exact ⟨rooms', howns, hframe⟩
    | some tableId =>
      cases htable : getTable { s with requests := rest } tableId with
      | none =>
        simp only [htable]
        exact hsame
      | some table =>
        obtain ⟨hlt, hfits, hgrow⟩ := hfits table htable
        simp only [htable]
        split
        · exact hsame
        · exact hrest.writeRow i htable (hlinked i rfl tableId rfl) hlt hfits hgrow

end Fon9.Inn
