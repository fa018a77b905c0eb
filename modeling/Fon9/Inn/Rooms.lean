import Fon9.Inn.Access
import Fon9.Inn.NewRoom

/-! The rooms of a file as its operations change them. An operation is given the key of a
room, as it is on disk but for a type that waits; a room takes the place of that one. -/

namespace Fon9.Inn

open Lib List BigEndian ByteFile InnFile RoomKey

variable {f g : InnFile} {key : RoomKey} {rooms : List Room} {r r' : Room}

/-- The room takes the place of the one at its position. -/
def putRoom (rooms : List Room) (r : Room) : List Room :=
  rooms.map fun x => if x.key.roomPos = r.key.roomPos then r else x

theorem mem_putRoom {x : Room} : x ∈ putRoom rooms r ↔
    (x ∈ rooms ∧ x.key.roomPos ≠ r.key.roomPos) ∨ (x = r ∧ ∃ y ∈ rooms, y.key.roomPos = r.key.roomPos) := by
  unfold putRoom
  rw [mem_map]
  constructor
  · rintro ⟨y, hy, heq⟩
    split at heq
    · next hpos => exact .inr ⟨heq.symm, y, hy, hpos⟩
    · next hpos =>
      subst heq
      exact .inl ⟨hy, hpos⟩
  · rintro (⟨hx, hpos⟩ | ⟨rfl, y, hy, hpos⟩)
    · exact ⟨x, hx, if_neg hpos⟩
    · exact ⟨y, hy, if_pos hpos⟩

theorem mem_putRoom_self (hr : r ∈ rooms) (hpos : r.key.roomPos = r'.key.roomPos) : r' ∈ putRoom rooms r' :=
  mem_putRoom.mpr (.inr ⟨rfl, r, hr, hpos⟩)

theorem mem_putRoom_of_ne (hr : r ∈ rooms) (hpos : r.key.roomPos ≠ r'.key.roomPos) : r ∈ putRoom rooms r' :=
  mem_putRoom.mpr (.inl ⟨hr, hpos⟩)

theorem putRoom_putRoom (rooms : List Room) (r r' : Room) (hpos : r.key.roomPos = r'.key.roomPos) :
    putRoom (putRoom rooms r) r' = putRoom rooms r' := by
  unfold putRoom
  rw [map_map]
  apply map_congr_left
  intro x _
  rw [Function.comp_apply]
  by_cases hx : x.key.roomPos = r.key.roomPos
  · rw [if_pos hx, if_pos hpos, if_pos (hx.trans hpos)]
  · rw [if_neg hx]

variable {front back : List Room}

namespace Stores

theorem pairwise (h : Stores f rooms) : rooms.Pairwise fun a b => a.key.nextRoomPos ≤ b.key.roomPos :=
  pairwise_map.mp h.laid.tiles.pairwise

theorem lies (h : Stores f rooms) (hr : r ∈ rooms) : Lies f r.key := h.laid.lies_of_mem (mem_map_of_mem hr)

/-- The rooms before one are at lower positions, those behind it at higher ones. -/
theorem around (h : Stores f (front ++ r :: back)) :
    (∀ x ∈ front, x.key.roomPos < r.key.roomPos) ∧ ∀ x ∈ back, r.key.roomPos < x.key.roomPos := by
  have hlt : ∀ a b : Room, a.key.nextRoomPos ≤ b.key.roomPos → a.key.roomPos < b.key.roomPos := by
    intro a b hab
    unfold RoomKey.nextRoomPos kRoomHeaderSize at hab
    omega
  obtain ⟨-, hback, hfront⟩ := pairwise_append.mp h.pairwise
  constructor
  · intro x hx
    exact hlt x r (hfront x hx r mem_cons_self)
  · intro x hx
    exact hlt r x ((pairwise_cons.mp hback).1 x hx)

/-- A position has one room. -/
theorem unique (h : Stores f rooms) (hr : r ∈ rooms) (hr' : r' ∈ rooms)
    (hpos : r.key.roomPos = r'.key.roomPos) : r = r' := by
  obtain ⟨front, back, rfl⟩ := append_of_mem hr
  obtain ⟨hfront, hback⟩ := h.around
  rcases mem_append.mp hr' with hin | hin
  · have := hfront r' hin
    omega
  · rcases mem_cons.mp hin with rfl | hin
    · rfl
    · have := hback r' hin
      omega

theorem data_length (h : Stores f rooms) (hr : r ∈ rooms) : r.data.length = r.key.dataSize := by
  have hlies := h.lies hr
  have hle := hlies.disk.data_le
  have hnext := hlies.next_le
  have hstored := hlies.stored
  rw [← h.data r hr]
  exact length_read (by omega)

/-- The other rooms keep their places. -/
theorem putRoom_split (h : Stores f (front ++ r :: back)) (hpos : r'.key.roomPos = r.key.roomPos) :
    putRoom (front ++ r :: back) r' = front ++ r' :: back := by
  obtain ⟨hfront, hback⟩ := h.around
  have hid : ∀ l : List Room, (∀ x ∈ l, x.key.roomPos ≠ r.key.roomPos) → putRoom l r' = l := by
    intro l hl
    rw [putRoom, map_congr_left (g := id) (fun x hx => ?_), map_id]
    exact if_neg (hpos ▸ hl x hx)
  have hsplit : putRoom (front ++ r :: back) r' = putRoom front r' ++ r' :: putRoom back r' := by
    rw [putRoom, map_append, map_cons, if_pos hpos.symm]
    rfl
  rw [hsplit, hid front fun x hx => ne_of_lt (hfront x hx), hid back fun x hx => ne_of_gt (hback x hx)]

/-- A room is replaced by another one at its position. -/
theorem put (h : Stores f rooms) (hr : r ∈ rooms) (hpos : r'.key.roomPos = r.key.roomPos)
    (hsize : r'.key.roomSize = r.key.roomSize)
    (hsame : SameBut f g r.key.roomPos (r.key.roomPos + r.key.roomSize + kRoomHeaderSize))
    (hdisk : OnDisk g r'.key)
    (hdata : g.storage.read (r'.key.roomPos + kRoomHeaderSize) r'.key.dataSize = r'.data) :
    Stores g (putRoom rooms r') := by
  obtain ⟨front, back, rfl⟩ := append_of_mem hr
  rw [h.putRoom_split hpos]
  exact h.replace hpos hsize hsame hdisk hdata

/-! ### The operations -/

variable (h : Stores f rooms) (hr : r ∈ rooms) (hkey : key.saved = r.key)
include h hr hkey

theorem lies_saved : Lies f key.saved := hkey ▸ h.lies hr

theorem checkRoomPos_ok (what : String) : f.checkRoomPos key.roomPos what = .ok () :=
  (h.lies_saved hr hkey).checkRoomPos what

/-- A new header, over the data that is there. -/
theorem updateRoomHeader {newsz : ℕ} (hle : newsz ≤ key.roomSize) :
    ∃ g, f.updateRoomHeader key newsz =
        ({ key with currentRoomType := key.pendingRoomType, dataSize := newsz }, g) ∧
      SameBut f g (key.roomPos + 4) (key.roomPos + kRoomHeaderSize) ∧
      OnDisk g { key with currentRoomType := key.pendingRoomType, dataSize := newsz } ∧
      Stores g (putRoom rooms ⟨{ key with currentRoomType := key.pendingRoomType, dataSize := newsz },
        f.storage.read (key.roomPos + kRoomHeaderSize) newsz⟩) := by
  have hlies := h.lies_saved hr hkey
  have hsize : key.roomSize < 2 ^ 32 := hlies.size_lt
  have hnext : key.roomPos + key.roomSize + kRoomHeaderSize ≤ f.fileSize := hlies.next_le
  have hstored := hlies.stored
  obtain ⟨g, heq, hsame, hdisk⟩ := updateRoomHeader_spec hlies hle (lt_of_le_of_lt hle hsize)
  refine ⟨g, heq, hsame, hdisk, ?_⟩
  have hpos : key.roomPos = r.key.roomPos := by rw [← hkey, saved_roomPos]
  have hroom : key.roomSize = r.key.roomSize := by rw [← hkey, saved_roomSize]
  refine h.put hr hpos hroom ?_ hdisk ?_
  · rw [← hpos, ← hroom]
    exact hsame.mono (Nat.le_add_right _ _) (by unfold kRoomHeaderSize; omega)
  · exact hsame.read (by show key.roomPos + kRoomHeaderSize + newsz ≤ _; omega) (.inr le_rfl)

theorem clearRoom {requiredSize : ℕ} (hle : requiredSize ≤ key.roomSize) :
    ∃ g, f.clearRoom key requiredSize =
        .ok ({ key with currentRoomType := key.pendingRoomType, dataSize := 0 }, g) ∧
      SameBut f g key.roomPos key.nextRoomPos ∧
      Stores g (putRoom rooms ⟨{ key with currentRoomType := key.pendingRoomType, dataSize := 0 }, []⟩) := by
  obtain ⟨g, heq, hsame, -, hstores⟩ := h.updateRoomHeader hr hkey (Nat.zero_le key.roomSize)
  refine ⟨g, ?_, hsame.mono (Nat.le_add_right _ _) (by unfold RoomKey.nextRoomPos; omega), hstores⟩
  unfold InnFile.clearRoom
  simp only [h.checkRoomPos_ok hr hkey, bind, Except.bind, if_neg (not_lt.mpr hle), heq, pure, Except.pure]

omit hkey in
theorem reallocRoom {requiredSize : ℕ} (roomType : InnRoomType) (hle : requiredSize ≤ r.key.roomSize) :
    ∃ g, f.reallocRoom r.key.roomPos roomType requiredSize =
        .ok ({ r.key with currentRoomType := roomType, pendingRoomType := roomType, dataSize := 0 }, g) ∧
      SameBut f g r.key.roomPos r.key.nextRoomPos ∧
      Stores g (putRoom rooms
        ⟨{ r.key with currentRoomType := roomType, pendingRoomType := roomType, dataSize := 0 }, []⟩) := by
  have hlies := h.lies hr
  have hnext := hlies.next_le
  have hstored := hlies.stored
  have hsaved : ({ r.key with pendingRoomType := roomType } : RoomKey).saved = r.key := by
    have hpending := hlies.disk.pending
    obtain ⟨⟨roomPos, roomSize, dataSize, current, pending⟩, data⟩ := r
    exact congrArg (RoomKey.mk roomPos roomSize dataSize current) hpending.symm
  obtain ⟨g, heq, hsame, hstores⟩ := h.clearRoom hr hsaved hle
  refine ⟨g, ?_, hsame, hstores⟩
  unfold InnFile.reallocRoom
  rw [hlies.makeRoomKey (by decide) (by omega)]
  exact heq

theorem freeRoom (roomType : InnRoomType) :
    ∃ g, f.freeRoom key roomType = .ok ({}, g) ∧ SameBut f g key.roomPos key.nextRoomPos ∧
      Stores g (putRoom rooms
        ⟨{ key with currentRoomType := roomType, pendingRoomType := roomType, dataSize := 0 }, []⟩) := by
  have hsaved : ({ key with pendingRoomType := roomType } : RoomKey).saved = r.key := hkey
  obtain ⟨g, heq, hsame, hstores⟩ := h.clearRoom hr hsaved (Nat.zero_le _)
  refine ⟨g, ?_, hsame, hstores⟩
  unfold InnFile.freeRoom
  rw [heq]
  rfl

variable {buf : List UInt8} {offset size : ℕ}

theorem rewrite (hle : buf.length ≤ key.roomSize) :
    ∃ g, f.rewrite key buf =
        .ok ({ key with currentRoomType := key.pendingRoomType, dataSize := buf.length }, g) ∧
      SameBut f g key.roomPos key.nextRoomPos ∧
      Stores g (putRoom rooms
        ⟨{ key with currentRoomType := key.pendingRoomType, dataSize := buf.length }, buf⟩) := by
  have hlies := h.lies_saved hr hkey
  have hsize : key.roomSize < 2 ^ 32 := hlies.size_lt
  have hnext : key.roomPos + key.roomSize + kRoomHeaderSize ≤ f.fileSize := hlies.next_le
  have hstored := hlies.stored
  have hpos : r.key.roomPos = key.roomPos := by rw [← hkey, saved_roomPos]
  obtain ⟨g, heq, hsame, hdisk, hstores⟩ := h.updateRoomHeader hr hkey hle
  have hin : key.roomPos + kRoomHeaderSize + buf.length ≤ g.storage.size := by
    rw [hsame.size]
    omega
  have hsame' := sameBut_writeStorage hin
  have hall : SameBut f (g.writeStorage (key.roomPos + kRoomHeaderSize) buf) key.roomPos key.nextRoomPos :=
    (hsame.mono (Nat.le_add_right _ _) (by unfold RoomKey.nextRoomPos; omega)).trans
      (hsame'.mono (Nat.le_add_right _ _) (by unfold RoomKey.nextRoomPos; omega))
  refine ⟨_, ?_, hall, ?_⟩
  · unfold InnFile.rewrite
    simp only [h.checkRoomPos_ok hr hkey, bind, Except.bind, if_neg (not_lt.mpr hle),
      u32_of_lt (lt_of_le_of_lt hle hsize), heq, pure, Except.pure]
  · have hput : Stores _ (putRoom _ ⟨{ key with currentRoomType := key.pendingRoomType, dataSize := buf.length }, buf⟩) :=
      hstores.put (mem_putRoom_self hr hpos) rfl rfl
      (hsame'.mono (Nat.le_add_right _ _) (by show _ ≤ key.roomPos + key.roomSize + kRoomHeaderSize; omega))
      (hdisk.congr rfl (hsame'.read (by show key.roomPos + kRoomHeaderSize ≤ _; omega) (.inl le_rfl)))
      (by
        by_cases hnil : buf = []
        · subst hnil
          rfl
        · exact read_write hnil)
    rw [putRoom_putRoom] at hput
    · exact hput
    · rfl

omit hkey

theorem saved_key : r.key.saved = r.key := by
  have hpending := (h.lies hr).disk.pending
  obtain ⟨⟨roomPos, roomSize, dataSize, current, pending⟩, data⟩ := r
  exact congrArg (RoomKey.mk roomPos roomSize dataSize current) hpending.symm

theorem putRoom_self : putRoom rooms r = rooms := by
  have hid : ∀ x ∈ rooms, (if x.key.roomPos = r.key.roomPos then r else x) = x := by
    intro x hx
    split
    · next hpos => exact (h.unique hx hr hpos).symm
    · rfl
  rw [putRoom, map_congr_left hid, map_id']

theorem read (hsize : offset + size < 2 ^ 32) :
    f.read r.key offset size = .ok ((r.data.drop offset).take size) := by
  have hlies := h.lies hr
  have hle := hlies.disk.data_le
  have hnext := hlies.next_le
  have hstored := hlies.stored
  have hlen := h.data_length hr
  unfold InnFile.read
  simp only [hlies.checkRoomPos, bind, Except.bind, pure, Except.pure, u32_of_lt hsize]
  by_cases hnone : r.key.dataSize ≤ offset ∨ size = 0
  · rw [if_pos hnone]
    rcases hnone with hover | rfl
    · rw [drop_of_length_le (by omega), take_nil]
    · rw [take_zero]
  rw [if_neg hnone]
  rw [not_or, not_le] at hnone
  -- what is read is less than all data only where `size` says so
  have hpart : ∀ n, offset + n ≤ r.key.dataSize →
      f.storage.read (r.key.roomPos + kRoomHeaderSize + offset) n = (r.data.drop offset).take n := by
    intro n hn
    rw [← h.data r hr]
    exact read_part hn (by omega)
  have hread : ∀ n, offset + n ≤ r.key.dataSize →
      (f.storage.read (r.key.roomPos + kRoomHeaderSize + offset) n).length = n := by
    intro n hn
    exact length_read (by omega)
  by_cases hmore : r.key.dataSize < offset + size
  · simp only [if_pos (show offset + size > r.key.dataSize from hmore)]
    rw [hread _ (by omega), if_neg (not_not_intro rfl), hpart _ (by omega),
      take_of_length_le (by rw [length_drop]; omega),
      take_of_length_le (by rw [length_drop]; omega)]
  · simp only [if_neg (show ¬ offset + size > r.key.dataSize from hmore)]
    rw [hread _ (by omega), if_neg (not_not_intro rfl), hpart _ (by omega)]

theorem readAll : f.readAll r.key = .ok r.data := by
  have hlt := (h.lies hr).disk.data_lt
  have hlen := h.data_length hr
  unfold InnFile.readAll
  rw [h.read hr (by omega), drop_zero, take_of_length_le (by omega)]

/-- The data behind a write, where the header says that it is there. -/
theorem read_written (hoffset : offset ≤ r.key.dataSize) (hle : offset + size ≤ r.key.roomSize)
    (hbuf : size ≤ buf.length) :
    (f.storage.write (r.key.roomPos + kRoomHeaderSize + offset) (buf.take size)).read
        (r.key.roomPos + kRoomHeaderSize) (max r.key.dataSize (offset + size)) =
      r.data.take offset ++ buf.take size ++ r.data.drop (offset + size) := by
  have hlies := h.lies hr
  have hdata := hlies.disk.data_le
  have hnext := hlies.next_le
  have hstored := hlies.stored
  have hlen := h.data_length hr
  have htake : (buf.take size).length = size := by
    rw [length_take]
    omega
  -- the data, and the bytes behind it that the write takes in
  have hold : f.storage.read (r.key.roomPos + kRoomHeaderSize) (max r.key.dataSize (offset + size)) =
      r.data ++ f.storage.read (r.key.roomPos + kRoomHeaderSize + r.key.dataSize) (offset + size - r.key.dataSize) := by
    rw [show max r.key.dataSize (offset + size) = r.key.dataSize + (offset + size - r.key.dataSize) by omega,
      read_add _ _ (by omega), h.data r hr]
  have hmore : (f.storage.read (r.key.roomPos + kRoomHeaderSize + r.key.dataSize)
      (offset + size - r.key.dataSize)).length = offset + size - r.key.dataSize := length_read (by omega)
  rw [read_write_part (by omega) (by omega), hold, htake,
    take_append_of_le_length (by omega), drop_append, hlen,
    drop_of_length_le hmore.le, append_nil]

theorem write (hoffset : offset ≤ r.key.dataSize) (hle : offset + size ≤ r.key.roomSize) (hbuf : size ≤ buf.length) :
    ∃ g, f.write r.key offset size buf =
        .ok ({ r.key with dataSize := max r.key.dataSize (offset + size) }, g) ∧
      SameBut f g r.key.roomPos r.key.nextRoomPos ∧
      Stores g (putRoom rooms ⟨{ r.key with dataSize := max r.key.dataSize (offset + size) },
        r.data.take offset ++ buf.take size ++ r.data.drop (offset + size)⟩) := by
  have hlies := h.lies hr
  have hdata := hlies.disk.data_le
  have hnext := hlies.next_le
  have hstored := hlies.stored
  have hlen := h.data_length hr
  by_cases hzero : size = 0
  · subst hzero
    rw [add_zero, Nat.max_eq_left hoffset, take_zero, append_nil, take_append_drop]
    refine ⟨f, ?_, ⟨rfl, rfl, rfl, rfl, fun _ _ _ => rfl⟩, ?_⟩
    · unfold InnFile.write
      simp only [hlies.checkRoomPos, bind, Except.bind, if_neg (not_lt.mpr hoffset), add_zero,
        if_neg (show ¬ offset > r.key.roomSize by omega), if_true, pure, Except.pure]
    · rw [h.putRoom_self hr]
      exact h
  have htake : (buf.take size).length = size := by
    rw [length_take]
    omega
  have hsame : SameBut f (f.writeStorage (r.key.roomPos + kRoomHeaderSize + offset) (buf.take size))
      (r.key.roomPos + kRoomHeaderSize + offset)
      (r.key.roomPos + kRoomHeaderSize + offset + (buf.take size).length) :=
    sameBut_writeStorage (by omega)
  rw [htake] at hsame
  have hsame' := hsame.mono (show r.key.roomPos ≤ _ by omega)
    (show _ ≤ r.key.roomPos + r.key.roomSize + kRoomHeaderSize by omega)
  -- the bytes first, under the old header, then the header
  have hput := @put f (f.writeStorage (r.key.roomPos + kRoomHeaderSize + offset) (buf.take size)) rooms r
    ⟨r.key, ByteFile.read _ (r.key.roomPos + kRoomHeaderSize) r.key.dataSize⟩ h hr rfl rfl hsame'
    (hlies.disk.congr rfl (hsame.read (by omega) (.inl (by omega)))) rfl
  have hmax : max r.key.dataSize (offset + size) ≤ r.key.roomSize := Nat.max_le.mpr ⟨hdata, hle⟩
  have hsaved := h.saved_key hr
  obtain ⟨g, heq, hsame'', -, hstores⟩ := hput.updateRoomHeader (mem_putRoom_self hr rfl) hsaved hmax
  rw [putRoom_putRoom] at hstores
  rotate_left
  · rfl
  have hsame_key : ({ r.key with
      currentRoomType := r.key.pendingRoomType
      dataSize := max r.key.dataSize (offset + size) } : RoomKey) =
      { r.key with dataSize := max r.key.dataSize (offset + size) } := by
    rw [hlies.disk.pending]
  rw [hsame_key] at heq hstores
  refine ⟨g, ?_, hsame'.trans (hsame''.mono (Nat.le_add_right _ _) (by omega)), ?_⟩
  · unfold InnFile.write
    have hnewsz : (if u32 (offset + size) < r.key.dataSize then r.key.dataSize else u32 (offset + size)) =
        max r.key.dataSize (offset + size) := by
      have hsize := hlies.size_lt
      rw [u32_of_lt (by omega)]
      split <;> omega
    simp only [hlies.checkRoomPos, bind, Except.bind, if_neg (not_lt.mpr hoffset),
      if_neg (not_lt.mpr hle), if_neg hzero, if_neg (not_lt.mpr hbuf), hnewsz, pure, Except.pure]
    rw [heq]
  · rw [← h.read_written hr hoffset hle hbuf]
    exact hstores

end Stores

/-! ### One room after the other -/

/-- Where the first of the rooms is, or the end of the file. -/
def startPos (f : InnFile) : List Room → ℕ
  | [] => f.fileSize
  | r :: _ => r.key.roomPos

theorem Stores.nextRoomPos (h : Stores f (front ++ r :: back)) :
    r.key.nextRoomPos = startPos f back := by
  have hlaid := h.laid
  rw [map_append, map_cons] at hlaid
  obtain ⟨mid, -, -, -, hback⟩ := hlaid.tiles.split
  cases back with
  | nil => exact hback
  | cons r' back => exact hback.1.symm

theorem Stores.startPos_eq (h : Stores f rooms) : startPos f rooms = f.headerSize := by
  cases rooms with
  | nil => exact h.laid.tiles.symm
  | cons r rooms => exact h.laid.tiles.1

theorem makeRoomKey_zero (hheader : 0 < f.headerSize) (ex : ℕ) :
    f.makeRoomKey 0 ex = f.makeRoomKey f.headerSize ex := by
  unfold InnFile.makeRoomKey
  simp only [if_pos, if_neg (ne_of_gt hheader)]

theorem Stores.makeRoomKey_end {ex : ℕ} (h : Stores f rooms) : f.makeRoomKey f.fileSize ex = .ok ({}, []) := by
  have hlaid := h.laid
  exact Inn.makeRoomKey_end hlaid.block_pos hlaid.header_pos hlaid.tiles.le hlaid.tiles.dvd le_rfl

/-- What `MakeRoomKey` gives at a room is that room. -/
theorem Lies.makeRoomKey_ok {ex : ℕ} {k : RoomKey} {bytes : List UInt8} (h : Lies f key) (hex : ex ≤ 128)
    (hok : f.makeRoomKey key.roomPos ex = .ok (k, bytes)) :
    k = key ∧ bytes = f.storage.read (key.roomPos + kRoomHeaderSize) ex ∧
      key.roomPos + kRoomHeaderSize + ex ≤ f.storage.size := by
  by_cases hin : key.roomPos + kRoomHeaderSize + ex ≤ f.storage.size
  · rw [h.makeRoomKey (by omega) hin] at hok
    cases hok
    exact ⟨rfl, rfl, hin⟩
  -- the bytes behind the header are not all there
  have h9 : kRoomHeaderSize = 9 := rfl
  have hnext := h.next_le
  have hroom := h.disk.room_pos
  have hsz : u32 (kRoomHeaderSize + ex) = kRoomHeaderSize + ex := u32_of_lt (by omega)
  have hlen : (f.storage.read key.roomPos (kRoomHeaderSize + ex)).length ≠ kRoomHeaderSize + ex := by
    rw [ByteFile.read, length_map, length_range]
    omega
  unfold InnFile.makeRoomKey at hok
  simp only [if_neg (ne_of_gt h.roomPos_pos), h.checkRoomPos, bind, Except.bind,
    if_neg (show ¬ f.fileSize ≤ key.roomPos by omega), hsz,
    if_neg (show ¬ kRoomHeaderSize + ex > kRoomHeaderSize + 128 by omega), if_pos hlen] at hok
  cases hok

theorem Stores.makeNewRoom {roomType : InnRoomType} {size : ℕ} (h : Stores f rooms) (hfits : Fits f.blockSize size)
    (hgrow : f.cannotGrow size .none = false) :
    ∃ key g, f.makeNewRoom roomType size .none = (.ok key, g) ∧ size ≤ key.roomSize ∧
      key.roomPos = f.fileSize ∧ key.dataSize = 0 ∧ key.currentRoomType = roomType ∧
      Stores g (rooms ++ [⟨key, []⟩]) ∧ g.headerSize = f.headerSize ∧ g.blockSize = f.blockSize ∧
      g.storage.size = g.fileSize ∧ ∀ i < f.fileSize, g.storage.byte i = f.storage.byte i := by
  obtain ⟨key, g, heq, hsize, hpos, hdata, htype, hlaid, hheader, hblock, -, hle, hbyte, hwhole⟩ :=
    @makeNewRoom_laid _ _ roomType _ _ h.laid hfits hgrow (fun n => by rintro ⟨⟩)
  refine ⟨key, g, heq, hsize, hpos, hdata, htype, ⟨?_, ?_⟩, hheader, hblock, hwhole, hbyte⟩
  · rw [map_append]
    exact hlaid
  · intro r hr
    rcases mem_append.mp hr with hr | hr
    · have hin := (h.laid.tiles.mem (mem_map_of_mem hr)).2.2
      have hdata := (h.lies hr).disk.data_le
      have hstored := h.laid.stored
      have hstored' := hlaid.stored
      unfold RoomKey.nextRoomPos at hin
      rw [← h.data r hr]
      exact read_congr (by omega) (by omega) fun i _ hi => hbyte i (by omega)
    · rw [mem_singleton] at hr
      subst hr
      rw [hdata]
      rfl

/-! ### The whole file -/

/-- The file is on disk, and nothing else is. -/
structure Whole (f : InnFile) : Prop where
  headerSize : f.headerSize = kInnHeaderSize
  size : f.storage.size = f.fileSize
  header : f.storage.read 0 kInnHeaderSize = InnFile.newHeader f.blockSize

theorem Whole.of_sameBut {first last : ℕ} (h : Whole f) (hlies : Lies f key) (hsame : SameBut f g first last)
    (hfirst : key.roomPos ≤ first) : Whole g where
  headerSize := hsame.headerSize.trans h.headerSize
  size := hsame.size.trans (h.size.trans hsame.fileSize.symm)
  header := by
    have hle := hlies.headerSize_le
    have hnext := hlies.next_le
    have hstored := hlies.stored
    rw [h.headerSize] at hle
    rw [hsame.blockSize, hsame.read (by omega) (.inl (by omega))]
    exact h.header

/-- What `Open` makes of a file that begins with the header of a new one. -/
theorem open_header {storage : ByteFile} {blockSize : ℕ} (hlt : blockSize < 2 ^ 32)
    (hheader : storage.read 0 kInnHeaderSize = newHeader blockSize) (argBlockSize : ℕ) :
    InnFile.open storage argBlockSize =
      if blockSize < kBlockSizeAlign ∨ blockSize % kBlockSizeAlign ≠ 0 then .error .badMessage
      else if u64sub storage.size kInnHeaderSize % blockSize ≠ 0 then .error .badMessage
      else .ok (⟨storage, kInnHeaderSize, blockSize, storage.size⟩,
        u64sub storage.size kInnHeaderSize / blockSize) := by
  have hlen : (newHeader blockSize).length = kInnHeaderSize := by
    simp only [newHeader, length_append, length_bytes, length_replicate]
    rfl
  have hstr : (newHeader blockSize).take 20 = kInnHeaderStr := by
    simp only [newHeader, append_assoc]
    exact take_left' rfl
  have hsizes : ((newHeader blockSize).drop 20) =
      bytes 4 kInnHeaderSize ++ (bytes 4 blockSize ++ replicate 36 0) := by
    simp only [newHeader, append_assoc]
    exact drop_left' rfl
  have hhead : value (((newHeader blockSize).drop 20).take 4) = kInnHeaderSize := by
    rw [hsizes, take_left' (length_bytes 4 _), value_bytes (by decide)]
  have hblock : value (((newHeader blockSize).drop 24).take 4) = blockSize := by
    rw [show (24 : ℕ) = 20 + 4 from rfl, ← drop_drop, hsizes, drop_left' (length_bytes 4 _),
      take_left' (length_bytes 4 _), value_bytes hlt]
  have hvalid : (blockSize < kBlockSizeAlign ∨ blockSize % kBlockSizeAlign ≠ 0 ∨ kInnHeaderSize < kInnHeaderSize ∨
      kInnHeaderSize % kBlockSizeAlign ≠ 0) ↔ blockSize < kBlockSizeAlign ∨ blockSize % kBlockSizeAlign ≠ 0 := by
    simp [kInnHeaderSize, kBlockSizeAlign]
  unfold InnFile.open
  simp only [hheader, hlen, hstr, hhead, hblock, hvalid]
  rw [if_neg (by decide), if_neg (not_not_intro rfl), if_neg (not_not_intro rfl)]

/-- A file that is opened again is the same. -/
theorem Whole.open {g : InnFile} {argBlockSize blockCount : ℕ} (h : Whole f) (hlt : f.blockSize < 2 ^ 32)
    (hopen : InnFile.open f.storage argBlockSize = .ok (g, blockCount)) : g = f ∧ kBlockSizeAlign ≤ f.blockSize := by
  rw [open_header hlt h.header] at hopen
  split at hopen
  · cases hopen
  split at hopen
  · cases hopen
  next hbad hsize =>
    cases hopen
    refine ⟨?_, by omega⟩
    have hhead := h.headerSize
    have hsize := h.size
    cases f
    simp only at hhead hsize
    rw [hhead, ← hsize]

end Fon9.Inn
