import Fon9.Inn.LoadTurn

/-! Rooms of an InnDbf that are changed: some rooms are new or take the place of others, and
all others stay. -/

namespace Fon9.Inn

open Lib Bitv Buffer InnDbf List BigEndian

variable {f g k : InnFile} {rooms rooms' rooms'' news : List Room} {r r' : Room} {key : RoomKey}

/-- The file `g` has the rooms `news`, and those of `rooms` at other positions. -/
structure Changed (rooms : List Room) (g : InnFile) (news rooms' : List Room) : Prop where
  stores : Stores g rooms'
  whole : Whole g
  mem_iff : ∀ x, x ∈ rooms' ↔ x ∈ news ∨ (x ∈ rooms ∧ ∀ n ∈ news, x.key.roomPos ≠ n.key.roomPos)

namespace Changed

theorem put (h : Stores f rooms) (hwhole : Whole f) (hr : r ∈ rooms) (hkey : key.saved = r.key)
    (hpos : r'.key.roomPos = key.roomPos) (hsame : SameBut f g key.roomPos key.nextRoomPos)
    (hstores : Stores g (putRoom rooms r')) : Changed rooms g [r'] (putRoom rooms r') where
  stores := hstores
  whole := hwhole.of_sameBut (h.lies_saved hr hkey) hsame le_rfl
  mem_iff x := by
    have hpos : r'.key.roomPos = r.key.roomPos := by rw [hpos, ← hkey, RoomKey.saved_roomPos]
    rw [mem_putRoom, mem_singleton]
    constructor
    · rintro (⟨hx, hne⟩ | ⟨rfl, -⟩)
      · exact .inr ⟨hx, fun n hn => by rw [mem_singleton.mp hn]; exact hne⟩
      · exact .inl rfl
    · rintro (rfl | ⟨hx, hne⟩)
      · exact .inr ⟨rfl, r, hr, hpos.symm⟩
      · exact .inl ⟨hx, hne r' (mem_singleton.mpr rfl)⟩

/-- A room that stays takes its own place. -/
theorem refl (h : Stores f rooms) (hwhole : Whole f) (hr : r ∈ rooms) : Changed rooms f [r] rooms where
  stores := h
  whole := hwhole
  mem_iff x := by
    rw [forall_mem_singleton, mem_singleton]
    constructor
    · intro hx
      by_cases hpos : x.key.roomPos = r.key.roomPos
      · exact .inl (h.unique hx hr hpos)
      · exact .inr ⟨hx, hpos⟩
    · rintro (rfl | ⟨hx, -⟩)
      · exact hr
      · exact hx

theorem mem (h : Changed rooms g news rooms') (hr : r ∈ news) : r ∈ rooms' := (h.mem_iff r).mpr (.inl hr)

theorem mem_of_ne (h : Changed rooms g news rooms') (hr : r ∈ rooms)
    (hne : ∀ n ∈ news, r.key.roomPos ≠ n.key.roomPos) : r ∈ rooms' := (h.mem_iff r).mpr (.inr ⟨hr, hne⟩)

/-- One room more, or one of the new ones again. -/
theorem cons (h : Changed rooms g news rooms') (h' : Changed rooms' k [r] rooms'') :
    Changed rooms k (r :: news.filter fun n => n.key.roomPos ≠ r.key.roomPos) rooms'' where
  stores := h'.stores
  whole := h'.whole
  mem_iff x := by
    rw [h'.mem_iff, h.mem_iff, mem_singleton, mem_cons]
    simp only [forall_mem_singleton]
    simp only [mem_cons, mem_filter, decide_eq_true_eq]
    constructor
    · rintro (rfl | ⟨hx | ⟨hx, hne⟩, hpos⟩)
      · exact .inl (.inl rfl)
      · exact .inl (.inr ⟨hx, hpos⟩)
      · refine .inr ⟨hx, ?_⟩
        rintro n (rfl | ⟨hn, -⟩)
        · exact hpos
        · exact hne n hn
    · rintro ((rfl | ⟨hx, hpos⟩) | ⟨hx, hne⟩)
      · exact .inl rfl
      · exact .inr ⟨.inl hx, hpos⟩
      · refine .inr ⟨.inr ⟨hx, fun n hn => ?_⟩, hne r (.inl rfl)⟩
        by_cases hpos : n.key.roomPos = r.key.roomPos
        · rw [hpos]
          exact hne r (.inl rfl)
        · exact hne n (.inr ⟨hn, hpos⟩)

/-- The same room again. -/
theorem again (h : Changed rooms g [r] rooms') (h' : Changed rooms' k [r'] rooms'')
    (hpos : r.key.roomPos = r'.key.roomPos) : Changed rooms k [r'] rooms'' := by
  have hcons := h.cons h'
  rwa [filter_cons_of_neg (by simpa using hpos), filter_nil] at hcons

end Changed

/-! ### The operations change one room -/

section Operations

variable (h : Stores f rooms) (hwhole : Whole f) (hr : r ∈ rooms)
include h hwhole hr

theorem freeRoom_changed (hkey : key.saved = r.key) (roomType : InnRoomType) :
    ∃ g rooms', f.freeRoom key roomType = .ok ({}, g) ∧ g.blockSize = f.blockSize ∧ g.fileSize = f.fileSize ∧
      Changed rooms g
        [⟨{ key with currentRoomType := roomType, pendingRoomType := roomType, dataSize := 0 }, []⟩] rooms' := by
  obtain ⟨g, heq, hsame, hstores⟩ := h.freeRoom hr hkey roomType
  exact ⟨g, _, heq, hsame.blockSize, hsame.fileSize, Changed.put h hwhole hr hkey rfl hsame hstores⟩

theorem reallocRoom_changed {requiredSize : ℕ} (roomType : InnRoomType) (hle : requiredSize ≤ r.key.roomSize) :
    ∃ g rooms', f.reallocRoom r.key.roomPos roomType requiredSize =
        .ok ({ r.key with currentRoomType := roomType, pendingRoomType := roomType, dataSize := 0 }, g) ∧
      Changed rooms g
        [⟨{ r.key with currentRoomType := roomType, pendingRoomType := roomType, dataSize := 0 }, []⟩] rooms' := by
  obtain ⟨g, heq, hsame, hstores⟩ := h.reallocRoom hr roomType hle
  exact ⟨g, _, heq, Changed.put h hwhole hr (h.saved_key hr) rfl hsame hstores⟩

theorem rewrite_changed (hkey : key.saved = r.key) {buf : List UInt8} (hle : buf.length ≤ key.roomSize) :
    ∃ g rooms', f.rewrite key buf =
        .ok ({ key with currentRoomType := key.pendingRoomType, dataSize := buf.length }, g) ∧
      Changed rooms g [⟨{ key with currentRoomType := key.pendingRoomType, dataSize := buf.length }, buf⟩]
        rooms' := by
  obtain ⟨g, heq, hsame, hstores⟩ := h.rewrite hr hkey hle
  exact ⟨g, _, heq, Changed.put h hwhole hr hkey rfl hsame hstores⟩

theorem write_changed {offset size : ℕ} {buf : List UInt8} (hoffset : offset ≤ r.key.dataSize)
    (hle : offset + size ≤ r.key.roomSize) (hbuf : size ≤ buf.length) :
    ∃ g rooms', f.write r.key offset size buf =
        .ok ({ r.key with dataSize := max r.key.dataSize (offset + size) }, g) ∧
      Changed rooms g [⟨{ r.key with dataSize := max r.key.dataSize (offset + size) },
        r.data.take offset ++ buf.take size ++ r.data.drop (offset + size)⟩] rooms' := by
  obtain ⟨g, heq, hsame, hstores⟩ := h.write hr hoffset hle hbuf
  exact ⟨g, _, heq, Changed.put h hwhole hr (h.saved_key hr) rfl hsame hstores⟩

end Operations

/-- The rooms and the new one behind them. -/
theorem Whole.makeNewRoom {roomType : InnRoomType} {size : ℕ} (hwhole : Whole f) (h : Stores f rooms)
    (hfits : Fits f.blockSize size) (hgrow : f.cannotGrow size .none = false) :
    ∃ key g, f.makeNewRoom roomType size .none = (.ok key, g) ∧ size ≤ key.roomSize ∧ key.currentRoomType = roomType ∧
      Stores g (rooms ++ [⟨key, []⟩]) ∧ Whole g ∧ g.blockSize = f.blockSize := by
  obtain ⟨key, g, heq, hsize, hpos, -, htype, hstores, hheader, hblock, hwhole', hbyte⟩ :=
    @Stores.makeNewRoom _ _ roomType _ h hfits hgrow
  refine ⟨key, g, heq, hsize, htype, hstores, ⟨?_, hwhole', ?_⟩, hblock⟩
  · rw [hheader, hwhole.headerSize]
  · have hle := h.laid.tiles.le
    have hstored := h.laid.stored
    have hlies := hstores.lies (mem_append_right rooms (mem_singleton_self _))
    have hnext := hlies.next_le
    have hheader' := hwhole.headerSize
    simp only at hnext
    rw [hblock, ByteFile.read_congr (by omega) (by omega) fun i _ hi => hbyte i (by omega)]
    exact hwhole.header

theorem makeNewRoom_changed {roomType : InnRoomType} {size : ℕ} (h : Stores f rooms) (hwhole : Whole f)
    (hfits : Fits f.blockSize size) (hgrow : f.cannotGrow size .none = false) :
    ∃ key g rooms', f.makeNewRoom roomType size .none = (.ok key, g) ∧ size ≤ key.roomSize ∧
      key.dataSize = 0 ∧ key.currentRoomType = roomType ∧ (∀ r ∈ rooms, r.key.roomPos ≠ key.roomPos) ∧
      Changed rooms g [⟨key, []⟩] rooms' := by
  obtain ⟨key, g, heq, hsize, hpos, hdata, htype, hstores, -⟩ := @Stores.makeNewRoom _ _ roomType _ h hfits hgrow
  have hne : ∀ r ∈ rooms, r.key.roomPos ≠ key.roomPos := by
    intro r hr
    have hnext := (h.lies hr).next_le
    have hroom := (h.lies hr).disk.room_pos
    omega
  obtain ⟨key', g', heq', -, -, -, hwhole', -⟩ := @Whole.makeNewRoom _ _ roomType _ hwhole h hfits hgrow
  rw [heq] at heq'
  cases heq'
  refine ⟨key, g, _, heq, hsize, hdata, htype, hne, hstores, hwhole', fun x => ?_⟩
  rw [mem_append, mem_singleton]
  simp only [forall_mem_singleton]
  constructor
  · rintro (hx | rfl)
    · exact .inr ⟨hx, hne x hx⟩
    · exact .inl rfl
  · rintro (rfl | ⟨hx, -⟩)
    · exact .inr rfl
    · exact .inl hx

/-! ### What the rooms hold -/

theorem Freed.not_exHeader (h : Freed r) : r.key.currentRoomType ≠ kInnRoomType_ExFileHeader := by
  rw [h.type]
  decide

theorem RowOf.not_exHeader {tableId : ℕ} {syncKey : RoomSyncKey} {payload : Bytes}
    (h : RowOf tableId syncKey payload r) : r.key.currentRoomType ≠ kInnRoomType_ExFileHeader := by
  obtain ⟨t, ht⟩ := h.type
  rw [ht]
  exact (toInnRoomType_ne t).2

theorem RowOf.not_freed {tableId : ℕ} {syncKey : RoomSyncKey} {payload : Bytes}
    (h : RowOf tableId syncKey payload r) : r.key.currentRoomType ≠ kInnRoomType_Free := by
  obtain ⟨t, ht⟩ := h.type
  rw [ht]
  exact (toInnRoomType_ne t).1

theorem ExHeaderOf.unique {next next' : ℕ} (h : ExHeaderOf next r) (h' : ExHeaderOf next' r) : next = next' := by
  obtain ⟨rest, hdata⟩ := h.data
  obtain ⟨rest', hdata'⟩ := h'.data
  rw [hdata] at hdata'
  have hlen : (BigEndian.bytes 8 next).length = (BigEndian.bytes 8 next').length := by
    rw [length_bytes, length_bytes]
  have hbytes := append_inj_left hdata' hlen
  rw [← value_bytes (lt_trans h.next_lt (by decide : 2 ^ 63 < 256 ^ 8)), hbytes,
    value_bytes (lt_trans h'.next_lt (by decide : 2 ^ 63 < 256 ^ 8))]

theorem Content.exHeaderOf (h : Content f rooms) (hr : r ∈ rooms)
    (htype : r.key.currentRoomType = kInnRoomType_ExFileHeader) : ∃ next, ExHeaderOf next r := by
  rcases h.each r hr with hfreed | hex | ⟨tableId, syncKey, payload, hrow⟩
  · exact absurd htype hfreed.not_exHeader
  · exact hex
  · exact absurd htype hrow.not_exHeader

/-- A room of the ExHeader stays one, whatever else changes. -/
theorem Changed.exHeader {p : ℕ} (hc : Changed rooms g news rooms')
    (hex : ∀ n ∈ news, ∀ x ∈ rooms, x.key.roomPos = n.key.roomPos →
      x.key.currentRoomType = kInnRoomType_ExFileHeader → n.key.currentRoomType = kInnRoomType_ExFileHeader)
    (h : ∃ x ∈ rooms, x.key.roomPos = p ∧ x.key.currentRoomType = kInnRoomType_ExFileHeader) :
    ∃ x ∈ rooms', x.key.roomPos = p ∧ x.key.currentRoomType = kInnRoomType_ExFileHeader := by
  obtain ⟨x, hx, hpos, htype⟩ := h
  by_cases hnew : ∃ n ∈ news, x.key.roomPos = n.key.roomPos
  · obtain ⟨n, hn, hxn⟩ := hnew
    exact ⟨n, hc.mem hn, hxn.symm.trans hpos, hex n hn x hx hxn htype⟩
  · push Not at hnew
    exact ⟨x, hc.mem_of_ne hx hnew, hpos, htype⟩

theorem Content.changed (h : Content f rooms) (hc : Changed rooms g news rooms') (hkept : ∀ n ∈ news, Kept n)
    (hnext : ∀ n ∈ news, ∀ next, ExHeaderOf next n → next ≠ 0 →
      ∃ x ∈ rooms', x.key.roomPos = next ∧ x.key.currentRoomType = kInnRoomType_ExFileHeader)
    (hex : ∀ n ∈ news, ∀ x ∈ rooms, x.key.roomPos = n.key.roomPos →
      x.key.currentRoomType = kInnRoomType_ExFileHeader → n.key.currentRoomType = kInnRoomType_ExFileHeader) :
    Content g rooms' where
  stores := hc.stores
  whole := hc.whole
  each r hr := by
    rcases (hc.mem_iff r).mp hr with hr | ⟨hr, -⟩
    · exact hkept r hr
    · exact h.each r hr
  next r hr next hof hne := by
    rcases (hc.mem_iff r).mp hr with hr | ⟨hr, -⟩
    · exact hnext r hr next hof hne
    · exact hc.exHeader hex (h.next r hr next hof hne)
  first := by
    rw [hc.whole.headerSize, ← h.whole.headerSize]
    exact hc.exHeader hex h.first

end Fon9.Inn
