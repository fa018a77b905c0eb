import Fon9.Inn.Layout

/-! What the operations on a room do to the rooms of the file: the room has the new type
and the new data, and every other room is as it was. -/

namespace Fon9.Inn

open Lib List ByteFile BigEndian InnFile BigEndian

variable {f g : InnFile} {key : RoomKey} {keys : List RoomKey} {pos stop : ℕ}

/-- A room with the data that is in it. -/
structure Room where
  key : RoomKey
  data : List UInt8
  deriving DecidableEq, Repr

/-- The file holds the rooms, one behind the other. -/
structure Stores (f : InnFile) (rooms : List Room) : Prop where
  laid : Laid f (rooms.map Room.key)
  data : ∀ r ∈ rooms, f.storage.read (r.key.roomPos + kRoomHeaderSize) r.key.dataSize = r.data

/-- The key as it is on disk: a type that waits is not there yet. -/
def RoomKey.saved (key : RoomKey) : RoomKey := { key with pendingRoomType := key.currentRoomType }

@[simp] theorem RoomKey.saved_roomPos (key : RoomKey) : key.saved.roomPos = key.roomPos := rfl

@[simp] theorem RoomKey.saved_roomSize (key : RoomKey) : key.saved.roomSize = key.roomSize := rfl

/-! ### One room in the file -/

variable {front back : List RoomKey}

theorem Tiles.split (h : Tiles f pos (front ++ back) stop) :
    ∃ mid, Tiles f pos front mid ∧ Tiles f mid back stop := by
  induction front generalizing pos with
  | nil => exact ⟨pos, rfl, h⟩
  | cons key front ih =>
    obtain ⟨hpos, hdisk, hrest⟩ := h
    obtain ⟨mid, hfront, hback⟩ := ih hrest
    exact ⟨mid, ⟨hpos, hdisk, hfront⟩, hback⟩

theorem Tiles.join {mid : ℕ} (hfront : Tiles f pos front mid) (hback : Tiles f mid back stop)
    : Tiles f pos (front ++ back) stop := by
  induction front generalizing pos with
  | nil =>
    obtain rfl : pos = mid := hfront
    exact hback
  | cons key front ih =>
    obtain ⟨hpos, hdisk, hrest⟩ := hfront
    exact ⟨hpos, hdisk, ih hrest⟩

/-- What is stored where the rooms are decides. -/
theorem Tiles.congr_from (h : Tiles f pos keys stop) (hblock : g.blockSize = f.blockSize)
    (hf : stop ≤ f.storage.size) (hg : stop ≤ g.storage.size)
    (hbyte : ∀ i, pos ≤ i → i < stop → g.storage.byte i = f.storage.byte i) : Tiles g pos keys stop := by
  induction keys generalizing pos with
  | nil => exact h
  | cons key keys ih =>
    have hend := (h.mem mem_cons_self).2.2
    obtain ⟨hpos, hdisk, hrest⟩ := h
    unfold RoomKey.nextRoomPos at hend
    have hread : g.storage.read key.roomPos kRoomHeaderSize = f.storage.read key.roomPos kRoomHeaderSize :=
      read_congr (by omega) (by omega) fun i hi hi' => hbyte i (by omega) (by omega)
    refine ⟨hpos, hdisk.congr hblock hread, ih hrest fun i hi hi' => hbyte i ?_ hi'⟩
    unfold RoomKey.nextRoomPos at hi
    omega

/-- Where a room of the file lies. -/
structure Lies (f : InnFile) (key : RoomKey) : Prop where
  disk : OnDisk f key
  block_pos : 0 < f.blockSize
  header_pos : 0 < f.headerSize
  headerSize_le : f.headerSize ≤ key.roomPos
  dvd : f.blockSize ∣ key.roomPos - f.headerSize
  next_le : key.roomPos + key.roomSize + kRoomHeaderSize ≤ f.fileSize
  stored : f.fileSize ≤ f.storage.size

theorem Laid.lies (h : Laid f (front ++ key :: back)) : Lies f key := by
  obtain ⟨mid, hfront, hpos, hdisk, hback⟩ := h.tiles.split
  have hle := hfront.le
  have hdvd := hfront.dvd
  have hend := hback.le
  rw [← hpos] at hle hdvd
  exact ⟨hdisk, h.block_pos, h.header_pos, hle, hdvd, hend, h.stored⟩

theorem Laid.lies_of_mem (h : Laid f keys) (hkey : key ∈ keys) : Lies f key := by
  obtain ⟨front, back, rfl⟩ := append_of_mem hkey
  exact h.lies

theorem Lies.roomPos_pos (h : Lies f key) : 0 < key.roomPos := by
  have := h.header_pos
  have := h.headerSize_le
  omega

theorem Lies.checkRoomPos (h : Lies f key) (what : String) : f.checkRoomPos key.roomPos what = .ok () :=
  checkRoomPos_ok h.block_pos h.headerSize_le h.dvd what

theorem Lies.size_lt (h : Lies f key) : key.roomSize < 2 ^ 32 := by
  obtain ⟨blockCount, hlt, hsize, -⟩ := h.disk.header
  rw [← hsize, calcRoomSize]
  split
  · exact Nat.mod_lt _ (Nat.two_pow_pos 32)
  · exact Nat.two_pow_pos 32

theorem Lies.makeRoomKey (h : Lies f key) {ex : ℕ} (hex : ex < 2 ^ 31)
    (hread : key.roomPos + kRoomHeaderSize + ex ≤ f.storage.size) :
    f.makeRoomKey key.roomPos ex = .ok (key, f.storage.read (key.roomPos + kRoomHeaderSize) ex) :=
  makeRoomKey_onDisk h.disk h.block_pos h.header_pos h.headerSize_le h.dvd h.next_le hex hread

/-- The bytes of the file and of another one are the same but for those of a room. -/
structure SameBut (f g : InnFile) (first last : ℕ) : Prop where
  headerSize : g.headerSize = f.headerSize
  blockSize : g.blockSize = f.blockSize
  fileSize : g.fileSize = f.fileSize
  size : g.storage.size = f.storage.size
  byte : ∀ i < f.storage.size, i < first ∨ last ≤ i → g.storage.byte i = f.storage.byte i

theorem SameBut.trans {f g k : InnFile} {first last : ℕ} (h : SameBut f g first last) (h' : SameBut g k first last) :
    SameBut f k first last where
  headerSize := h'.headerSize.trans h.headerSize
  blockSize := h'.blockSize.trans h.blockSize
  fileSize := h'.fileSize.trans h.fileSize
  size := h'.size.trans h.size
  byte i hi hout := (h'.byte i (Nat.lt_of_lt_of_eq hi h.size.symm) hout).trans (h.byte i hi hout)

theorem SameBut.mono {first last first' last' : ℕ} (h : SameBut f g first last) (hfirst : first' ≤ first)
    (hlast : last ≤ last') : SameBut f g first' last' :=
  { h with byte := fun i hi hout => h.byte i hi (by omega) }

theorem SameBut.read {first last p n : ℕ} (h : SameBut f g first last) (hin : p + n ≤ f.storage.size)
    (hout : p + n ≤ first ∨ last ≤ p) : g.storage.read p n = f.storage.read p n :=
  read_congr (hin.trans_eq h.size.symm) hin fun i hi hi' => h.byte i (by omega) (by omega)

theorem sameBut_writeStorage {p : ℕ} {data : List UInt8} (hin : p + data.length ≤ f.storage.size) :
    SameBut f (f.writeStorage p data) p (p + data.length) where
  headerSize := rfl
  blockSize := rfl
  fileSize := rfl
  size := size_write hin
  byte i hi hout := by
    rcases hout with hlt | hge
    · exact byte_write_of_lt hlt hi
    · exact byte_write_of_ge hge hi

/-- A room is replaced by another one in its place. -/
theorem Stores.replace {front back : List Room} {r r' : Room} (h : Stores f (front ++ r :: back))
    (hpos : r'.key.roomPos = r.key.roomPos) (hsize : r'.key.roomSize = r.key.roomSize)
    (hsame : SameBut f g r.key.roomPos (r.key.roomPos + r.key.roomSize + kRoomHeaderSize))
    (hdisk : OnDisk g r'.key)
    (hdata : g.storage.read (r'.key.roomPos + kRoomHeaderSize) r'.key.dataSize = r'.data) :
    Stores g (front ++ r' :: back) := by
  have hlaid := h.laid
  rw [map_append, map_cons] at hlaid
  obtain ⟨mid, hfront, hmid, -, hback⟩ := hlaid.tiles.split
  have hstored := hlaid.stored
  have hend := hback.le
  have hmid' := hfront.le
  unfold RoomKey.nextRoomPos at hend hback
  have hgstored : f.fileSize ≤ g.storage.size := hstored.trans_eq hsame.size.symm
  constructor
  · rw [map_append, map_cons]
    refine ⟨by rw [hsame.blockSize]; exact hlaid.block_pos, by rw [hsame.blockSize]; exact hlaid.block_lt,
      by rw [hsame.headerSize]; exact hlaid.header_pos, ?_, by rw [hsame.fileSize]; exact hgstored,
      by rw [hsame.fileSize]; exact hlaid.size_lt⟩
    rw [hsame.headerSize, hsame.fileSize]
    have hfront' : Tiles g f.headerSize (front.map Room.key) mid :=
      hfront.congr_from hsame.blockSize (by omega) (by omega) fun i _ hi => hsame.byte i (by omega) (by omega)
    have hback' : Tiles g (r.key.roomPos + r.key.roomSize + kRoomHeaderSize) (back.map Room.key) f.fileSize :=
      hback.congr_from hsame.blockSize hstored hgstored fun i hi hi' => hsame.byte i (by omega) (by omega)
    refine hfront'.join ⟨hpos.trans hmid, hdisk, ?_⟩
    unfold RoomKey.nextRoomPos
    rw [hpos, hsize]
    exact hback'
  · intro r'' hr''
    rcases mem_append.mp hr'' with hin | hin
    · obtain ⟨hdisk'', -, hto⟩ := hfront.mem (mem_map_of_mem hin)
      have hle := hdisk''.data_le
      unfold RoomKey.nextRoomPos at hto
      rw [hsame.read (by omega) (by omega)]
      exact h.data r'' (mem_append_left _ hin)
    · rcases mem_cons.mp hin with rfl | hin
      · exact hdata
      · obtain ⟨hdisk'', hfrom, hto⟩ := hback.mem (mem_map_of_mem hin)
        have hle := hdisk''.data_le
        unfold RoomKey.nextRoomPos at hto
        rw [hsame.read (by omega) (by omega)]
        exact h.data r'' (mem_append_right _ (mem_cons_of_mem _ hin))

/-! ### The header of a room -/

theorem header_parts {blockCount dataSize : ℕ} {roomType : InnRoomType} {p : ℕ} (hin : p + 9 ≤ f.storage.size) :
    f.storage.read p kRoomHeaderSize = roomHeader blockCount roomType dataSize ↔
      f.storage.read p 4 = bytes 4 blockCount ∧ f.storage.read (p + 4) 1 = [roomType] ∧
        f.storage.read (p + 5) 4 = bytes 4 dataSize := by
  have hsplit : f.storage.read p kRoomHeaderSize =
      f.storage.read p 4 ++ f.storage.read (p + 4) 1 ++ f.storage.read (p + 5) 4 := by
    show f.storage.read p (4 + 1 + 4) = _
    rw [read_add (4 + 1) 4 (by omega), read_add 4 1 (by omega)]
  rw [hsplit]
  unfold roomHeader
  constructor
  · intro heq
    have hlen4 := @ByteFile.length_read f.storage p 4 (by omega)
    have hlen1 := @ByteFile.length_read f.storage (p + 4) 1 (by omega)
    obtain ⟨hleft, hright⟩ := append_inj heq (by
      simp only [length_append, hlen4, hlen1, length_bytes, length_singleton])
    obtain ⟨hcount, htype⟩ := append_inj hleft (by rw [hlen4, length_bytes])
    exact ⟨hcount, htype, hright⟩
  · rintro ⟨hcount, htype, hsize⟩
    rw [hcount, htype, hsize]

/-- What `UpdateRoomHeader` leaves. -/
theorem updateRoomHeader_spec {newsz : ℕ} (hlies : Lies f key.saved) (hle : newsz ≤ key.roomSize)
    (hlt : newsz < 2 ^ 32) :
    ∃ g, f.updateRoomHeader key newsz =
        ({ key with currentRoomType := key.pendingRoomType, dataSize := newsz }, g) ∧
      SameBut f g (key.roomPos + 4) (key.roomPos + 9) ∧
      OnDisk g { key with currentRoomType := key.pendingRoomType, dataSize := newsz } := by
  obtain ⟨blockCount, hcount, hroom, hheader⟩ := hlies.disk.header
  have hin : key.roomPos + 9 ≤ f.storage.size := by
    have hnext := hlies.next_le
    have hstored := hlies.stored
    simp only [RoomKey.saved_roomPos, RoomKey.saved_roomSize, kRoomHeaderSize] at hnext
    omega
  obtain ⟨hblocks, htype, hdata⟩ := (header_parts hin).mp hheader
  -- the header of a file that has the type and the size where they belong
  have hdone : ∀ g : InnFile, SameBut f g (key.roomPos + 4) (key.roomPos + 9) →
      g.storage.read (key.roomPos + 4) 1 = [key.pendingRoomType] →
      g.storage.read (key.roomPos + 5) 4 = bytes 4 newsz →
      OnDisk g { key with currentRoomType := key.pendingRoomType, dataSize := newsz } := by
    intro g hsame htype' hdata'
    refine ⟨⟨blockCount, hcount, ?_, (header_parts (hin.trans_eq hsame.size.symm)).mpr ⟨?_, htype', hdata'⟩⟩, rfl,
      hlies.disk.room_pos, hle, hlt, ?_⟩
    · rw [calcRoomSize, hsame.blockSize]
      exact hroom
    · rw [hsame.read (by omega) (by omega)]
      exact hblocks
    · rw [hsame.blockSize]
      exact hlies.disk.blocks
  have hlen : (bytes 4 newsz).length = 4 := length_bytes 4 newsz
  have hne : bytes 4 newsz ≠ [] := by
    intro hnil
    rw [hnil] at hlen
    cases hlen
  unfold InnFile.updateRoomHeader
  split
  · next heq =>
    split
    · next hsize =>
      have hsame : SameBut f _ (key.roomPos + 5) (key.roomPos + 5 + (bytes 4 newsz).length) :=
        sameBut_writeStorage (by omega)
      rw [hlen] at hsame
      refine ⟨_, by rw [heq]; rfl, hsame.mono (Nat.le_succ _) le_rfl, hdone _ (hsame.mono (Nat.le_succ _) le_rfl) ?_ ?_⟩
      · rw [hsame.read (p := key.roomPos + 4) (n := 1) (by omega) (by omega), htype]
        exact congrArg (fun t => [t]) heq
      · have hread := @ByteFile.read_write f.storage (key.roomPos + 5) _ hne
        rw [hlen] at hread
        exact hread
    · next hsize =>
      have hsize' : key.dataSize = newsz := Decidable.not_not.mp hsize
      have hkey : key = { key with currentRoomType := key.pendingRoomType, dataSize := newsz } := by
        cases key
        simp only at heq hsize'
        subst heq hsize'
        rfl
      have hsame : SameBut f f (key.roomPos + 4) (key.roomPos + 9) := ⟨rfl, rfl, rfl, rfl, fun _ _ _ => rfl⟩
      refine ⟨f, congrArg (·, f) hkey, hsame, hdone f hsame ?_ ?_⟩
      · rw [htype]
        exact congrArg (fun t => [t]) heq
      · rw [hdata]
        exact congrArg (bytes 4) hsize'
  · split
    · next hsize =>
      have hsame : SameBut f _ (key.roomPos + 4) (key.roomPos + 4 + 1) :=
        @sameBut_writeStorage f (key.roomPos + 4) [key.pendingRoomType] (show key.roomPos + 4 + 1 ≤ _ by omega)
      have hsame' := hsame.mono (le_refl _) (Nat.add_le_add_left (by decide : 1 ≤ 5) (key.roomPos + 4))
      refine ⟨_, by rw [hsize]; rfl, hsame', hdone _ hsame' ?_ ?_⟩
      · exact @ByteFile.read_write f.storage (key.roomPos + 4) [key.pendingRoomType] (cons_ne_nil _ _)
      · rw [hsame.read (p := key.roomPos + 5) (n := 4) (by omega) (by omega), hdata]
        exact congrArg (bytes 4) hsize
    · have hlen' : ([key.pendingRoomType] ++ bytes 4 newsz).length = 1 + 4 := by
        rw [length_append, hlen]
        rfl
      have hsame : SameBut f _ (key.roomPos + 4)
          (key.roomPos + 4 + ([key.pendingRoomType] ++ bytes 4 newsz).length) :=
        sameBut_writeStorage (by rw [hlen']; omega)
      have hwhole := @ByteFile.read_write f.storage (key.roomPos + 4)
        ([key.pendingRoomType] ++ bytes 4 newsz) (cons_ne_nil _ _)
      have hsize' := hsame.size
      rw [hlen'] at hsame hwhole
      rw [read_add 1 4 (by
        have := hin.trans_eq hsize'.symm
        exact this)] at hwhole
      obtain ⟨hone, hfour⟩ := append_inj hwhole (length_read (by
        have := hin.trans_eq hsize'.symm
        show key.roomPos + 4 + 1 ≤ _
        exact (Nat.le_add_right _ 4).trans this))
      exact ⟨_, rfl, hsame, hdone _ hsame hone hfour⟩

end Fon9.Inn
