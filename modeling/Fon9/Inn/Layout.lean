import Fon9.Inn.InnFile
import Fon9.Lib.Run

/-! Rooms tile the file: each begins where the one before it ends, the last ends where the
file ends, and the headers on disk say so. -/

namespace Fon9.Inn

open Lib List BigEndian InnFile ByteFile Nat RoomKey

variable {f g : InnFile} {key : RoomKey} {keys : List RoomKey} {pos stop : ℕ}

/-- The header on disk is that of the key. -/
structure OnDisk (f : InnFile) (key : RoomKey) : Prop where
  header : ∃ blockCount < 2 ^ 32, f.calcRoomSize blockCount = key.roomSize ∧
    f.storage.read key.roomPos kRoomHeaderSize =
      InnFile.roomHeader blockCount key.currentRoomType key.dataSize
  pending : key.pendingRoomType = key.currentRoomType
  room_pos : 0 < key.roomSize
  data_le : key.dataSize ≤ key.roomSize
  data_lt : key.dataSize < 2 ^ 32
  blocks : f.blockSize ∣ key.roomSize + kRoomHeaderSize

/-- The rooms follow each other from `pos` up to the end. -/
def Tiles (f : InnFile) : ℕ → List RoomKey → ℕ → Prop
  | pos, [], stop => pos = stop
  | pos, key :: keys, stop => key.roomPos = pos ∧ OnDisk f key ∧ Tiles f key.nextRoomPos keys stop

/-- The rooms of a file that is in order. -/
structure Laid (f : InnFile) (keys : List RoomKey) : Prop where
  block_pos : 0 < f.blockSize
  block_lt : f.blockSize < 2 ^ 32
  header_pos : 0 < f.headerSize
  tiles : Tiles f f.headerSize keys f.fileSize
  stored : f.fileSize ≤ f.storage.size
  size_lt : f.fileSize < 2 ^ 63

theorem length_roomHeader (blockCount : ℕ) (roomType : InnRoomType) (dataSize : ℕ) :
    (roomHeader blockCount roomType dataSize).length = kRoomHeaderSize := by
  simp [roomHeader, kRoomHeaderSize]

theorem OnDisk.congr (h : OnDisk f key) (hblock : g.blockSize = f.blockSize)
    (hread : g.storage.read key.roomPos kRoomHeaderSize = f.storage.read key.roomPos kRoomHeaderSize) :
    OnDisk g key where
  header := by
    obtain ⟨blockCount, hlt, hsize, hheader⟩ := h.header
    refine ⟨blockCount, hlt, ?_, hread.trans hheader⟩
    rw [calcRoomSize, hblock]
    exact hsize
  pending := h.pending
  room_pos := h.room_pos
  data_le := h.data_le
  data_lt := h.data_lt
  blocks := by rw [hblock]; exact h.blocks

namespace Tiles

section

variable (h : Tiles f pos keys stop)
include h

theorem le : pos ≤ stop := by
  induction keys generalizing pos with
  | nil => exact le_of_eq h
  | cons key keys ih =>
    obtain ⟨hpos, -, hrest⟩ := h
    have hnext := ih hrest
    unfold nextRoomPos at hnext
    omega

theorem mem (hkey : key ∈ keys) :
    OnDisk f key ∧ pos ≤ key.roomPos ∧ key.nextRoomPos ≤ stop := by
  induction keys generalizing pos with
  | nil => cases hkey
  | cons key' keys ih =>
    obtain ⟨hpos, hdisk, hrest⟩ := h
    rcases mem_cons.mp hkey with rfl | hkey
    · exact ⟨hdisk, le_of_eq hpos.symm, hrest.le⟩
    · obtain ⟨hdisk', hfrom, hto⟩ := ih hrest hkey
      unfold nextRoomPos at hfrom
      exact ⟨hdisk', by omega, hto⟩

/-- What is stored before the end of the rooms decides. -/
theorem congr (hblock : g.blockSize = f.blockSize) (hf : stop ≤ f.storage.size) (hg : stop ≤ g.storage.size)
    (hbyte : ∀ i < stop, g.storage.byte i = f.storage.byte i) : Tiles g pos keys stop := by
  induction keys generalizing pos with
  | nil => exact h
  | cons key keys ih =>
    have hend := (h.mem mem_cons_self).2.2
    obtain ⟨hpos, hdisk, hrest⟩ := h
    unfold nextRoomPos at hend
    refine ⟨hpos, hdisk.congr hblock ?_, ih hrest⟩
    exact read_congr (by omega) (by omega) (fun i _ hi => hbyte i (by omega))

theorem append (hpos : key.roomPos = stop) (hdisk : OnDisk f key) :
    Tiles f pos (keys ++ [key]) key.nextRoomPos := by
  induction keys generalizing pos with
  | nil => exact ⟨hpos.trans (Eq.symm h), hdisk, rfl⟩
  | cons key' keys ih =>
    obtain ⟨hpos', hdisk', hrest⟩ := h
    exact ⟨hpos', hdisk', ih hrest⟩

theorem dvd : f.blockSize ∣ stop - pos := by
  induction keys generalizing pos with
  | nil =>
    rw [show pos = stop from h, Nat.sub_self]
    exact dvd_zero _
  | cons key keys ih =>
    obtain ⟨hpos, hdisk, hrest⟩ := h
    have hsum := Nat.dvd_add (ih hrest) hdisk.blocks
    have hle := hrest.le
    unfold nextRoomPos at hsum hle
    rwa [show stop - (key.roomPos + key.roomSize + kRoomHeaderSize) + (key.roomSize + kRoomHeaderSize)
      = stop - pos by omega] at hsum

end

end Tiles

/-! ### Keys from the disk -/

theorem roomHeader_info (f : InnFile) (pos blockCount : ℕ) (roomType : InnRoomType) (dataSize : ℕ)
    (rest : List UInt8) (hblock : blockCount < 2 ^ 32) (hdata : dataSize < 2 ^ 32) :
    f.roomHeaderToRoomKeyInfo pos (roomHeader blockCount roomType dataSize ++ rest) =
      ⟨pos, f.calcRoomSize blockCount, dataSize, roomType, roomType⟩ := by
  have hsplit : roomHeader blockCount roomType dataSize ++ rest =
      bytes 4 blockCount ++ (roomType :: (bytes 4 dataSize ++ rest)) := by
    simp [roomHeader]
  have htake : (roomHeader blockCount roomType dataSize ++ rest).take 4 =
      bytes 4 blockCount := by
    rw [hsplit, take_left' (length_bytes 4 _)]
  have hget : (roomHeader blockCount roomType dataSize ++ rest).getD 4 0 = roomType := by
    rw [hsplit, getD_append_right _ _ _ _ (by simp), length_bytes]
    rfl
  have hdrop : ((roomHeader blockCount roomType dataSize ++ rest).drop 5).take 4 =
      bytes 4 dataSize := by
    have hsplit' : roomHeader blockCount roomType dataSize ++ rest =
        (bytes 4 blockCount ++ [roomType]) ++ (bytes 4 dataSize ++ rest) := by
      simp [roomHeader]
    rw [hsplit', drop_left' (by simp), take_left' (length_bytes 4 _)]
  unfold roomHeaderToRoomKeyInfo
  rw [htake, hdrop, hget, value_bytes hblock, value_bytes hdata]

theorem checkRoomPos_ok (hblock : 0 < f.blockSize) (hpos : f.headerSize ≤ pos)
    (hdvd : f.blockSize ∣ pos - f.headerSize) (what : String) : f.checkRoomPos pos what = .ok () := by
  unfold InnFile.checkRoomPos isGoodRoomPos
  rw [if_neg (by omega), if_pos]
  simpa [hpos] using mod_eq_zero_of_dvd hdvd

/-- `MakeRoomKey` at a room gives its key, and the first bytes of its data. -/
theorem makeRoomKey_onDisk {ex : ℕ} (hdisk : OnDisk f key) (hblock : 0 < f.blockSize)
    (hheader : 0 < f.headerSize) (hfrom : f.headerSize ≤ key.roomPos)
    (hdvd : f.blockSize ∣ key.roomPos - f.headerSize) (hto : key.nextRoomPos ≤ f.fileSize)
    (hex : ex < 2 ^ 31)
    (hread : key.roomPos + kRoomHeaderSize + ex ≤ f.storage.size) :
    f.makeRoomKey key.roomPos ex =
      .ok (key, f.storage.read (key.roomPos + kRoomHeaderSize) ex) := by
  obtain ⟨blockCount, hlt, hsize, hroom⟩ := hdisk.header
  have hinfo : ∀ rest, f.roomHeaderToRoomKeyInfo key.roomPos
      (roomHeader blockCount key.currentRoomType key.dataSize ++ rest) = key := by
    intro rest
    rw [roomHeader_info f _ _ _ _ _ hlt hdisk.data_lt, hsize, ← hdisk.pending]
    cases key
    congr
    exact hdisk.pending
  have hpos : key.roomPos ≠ 0 := by omega
  have hbefore : ¬ f.fileSize ≤ key.roomPos := by
    have := hdisk.room_pos
    unfold nextRoomPos at hto
    omega
  have hgood : ¬ (key.dataSize > key.roomSize ∨ key.roomSize = 0 ∨
      key.roomPos + key.roomSize + kRoomHeaderSize > f.fileSize) := by
    have h1 := hdisk.data_le
    have h2 := hdisk.room_pos
    unfold nextRoomPos at hto
    omega
  have h9 : kRoomHeaderSize = 9 := rfl
  have hsz : u32 (kRoomHeaderSize + ex) = kRoomHeaderSize + ex := u32_of_lt (by omega)
  unfold InnFile.makeRoomKey
  simp only [if_neg hpos, checkRoomPos_ok hblock hfrom hdvd, bind, Except.bind, if_neg hbefore, hsz]
  by_cases hlong : kRoomHeaderSize + ex > kRoomHeaderSize + 128
  · -- the bytes after the header are read on their own
    have hlen := @ByteFile.length_read f.storage key.roomPos kRoomHeaderSize (by omega)
    have hlen' := length_read hread
    have hinfo' := hinfo []
    rw [append_nil, ← hroom] at hinfo'
    have hne : ex ≠ 0 := by omega
    simp only [if_pos hlong, hlen, hinfo', if_neg hgood, hne, hlen', ne_eq, not_true_eq_false,
      not_false_eq_true, and_self, if_true, if_false, pure, Except.pure]
  · have hlen := @ByteFile.length_read f.storage key.roomPos (kRoomHeaderSize + ex) (by omega)
    have hsplit := @ByteFile.read_add f.storage key.roomPos kRoomHeaderSize ex hread
    have hinfo' := hinfo (f.storage.read (key.roomPos + kRoomHeaderSize) ex)
    rw [← hroom, ← hsplit] at hinfo'
    have hno : ¬ (kRoomHeaderSize + ex = kRoomHeaderSize ∧ ex ≠ 0) := by omega
    have hdrop : (f.storage.read key.roomPos (kRoomHeaderSize + ex)).drop kRoomHeaderSize =
        f.storage.read (key.roomPos + kRoomHeaderSize) ex := by
      rw [hsplit]
      exact drop_left' (length_read (by omega))
    simp only [if_neg hlong, hlen, hinfo', if_neg hgood, if_neg hno, hdrop, ne_eq,
      not_true_eq_false, if_false, pure, Except.pure]

theorem makeRoomKey_end {ex : ℕ} (hblock : 0 < f.blockSize) (hheader : 0 < f.headerSize)
    (hfrom : f.headerSize ≤ pos) (hdvd : f.blockSize ∣ pos - f.headerSize) (hend : f.fileSize ≤ pos) :
    f.makeRoomKey pos ex = .ok ({}, []) := by
  unfold InnFile.makeRoomKey
  have hpos : pos ≠ 0 := by omega
  simp only [if_neg hpos, checkRoomPos_ok hblock hfrom hdvd, bind, Except.bind, if_pos hend, pure,
    Except.pure]

/-- From a room on, the walk gives the rooms up to the end of the file. -/
theorem walkFrom_tiles (hblock : 0 < f.blockSize) (hheader : 0 < f.headerSize)
    (hstored : f.fileSize ≤ f.storage.size) (h : Tiles f pos keys f.fileSize)
    (hfrom : f.headerSize ≤ pos) (hdvd : f.blockSize ∣ pos - f.headerSize) {fuel : ℕ}
    (hfuel : keys.length < fuel) :
    f.walkFrom fuel ((f.makeRoomKey pos 0).map Prod.fst) = .ok keys := by
  induction keys generalizing pos fuel with
  | nil =>
    obtain ⟨fuel, rfl⟩ := exists_eq_succ_of_ne_zero (ne_of_gt hfuel)
    rw [makeRoomKey_end hblock hheader hfrom hdvd (le_of_eq (Eq.symm h))]
    rfl
  | cons key keys ih =>
    obtain ⟨fuel, rfl⟩ := exists_eq_succ_of_ne_zero (ne_of_gt (zero_lt_of_lt hfuel))
    have hto := (h.mem mem_cons_self).2.2
    obtain ⟨rfl, hdisk, hrest⟩ := h
    have hnext : f.headerSize ≤ key.nextRoomPos := by
      unfold nextRoomPos
      omega
    have hdvd' : f.blockSize ∣ key.nextRoomPos - f.headerSize := by
      have := Nat.dvd_add hdvd hdisk.blocks
      unfold nextRoomPos
      rwa [show key.roomPos - f.headerSize + (key.roomSize + kRoomHeaderSize) =
        key.roomPos + key.roomSize + kRoomHeaderSize - f.headerSize by omega] at this
    have hread : key.roomPos + kRoomHeaderSize + 0 ≤ f.storage.size := by
      unfold nextRoomPos at hto
      omega
    rw [makeRoomKey_onDisk hdisk hblock hheader hfrom hdvd hto (by decide) hread]
    have hpos : key.roomPos ≠ 0 := by omega
    have htail := ih hrest hnext hdvd' (lt_of_succ_lt_succ hfuel)
    show f.walkFrom (fuel + 1) (.ok key) = _
    rw [walkFrom, if_neg hpos, makeNextRoomKey, if_neg hpos, htail]
    rfl

theorem Laid.walk (h : Laid f keys) {fuel : ℕ} (hfuel : keys.length < fuel) :
    f.walk fuel = .ok keys := by
  have hzero : f.makeRoomKey 0 0 = f.makeRoomKey f.headerSize 0 := by
    have hne : f.headerSize ≠ 0 := ne_of_gt h.header_pos
    unfold InnFile.makeRoomKey
    simp only [if_pos, if_neg hne]
  rw [InnFile.walk, hzero]
  exact walkFrom_tiles h.block_pos h.header_pos h.stored h.tiles le_rfl (by simp) hfuel

/-! ### New rooms -/

/-- The sum that gives the number of blocks does not wrap, and there is room for data. -/
def Fits (blockSize size : ℕ) : Prop :=
  size + kRoomHeaderSize + blockSize - 1 < 2 ^ 32 ∧ ¬ (size = 0 ∧ blockSize ∣ kRoomHeaderSize)

instance (blockSize size : ℕ) : Decidable (Fits blockSize size) :=
  inferInstanceAs (Decidable (_ ∧ ¬ (_ ∧ _)))

/-- The blocks of a new room hold its header and the data. -/
theorem newBlockCount_fits {size : ℕ} (hblock : 0 < f.blockSize) (hlt : f.blockSize < 2 ^ 32)
    (hfits : Fits f.blockSize size) :
    size + kRoomHeaderSize ≤ f.blockSize * f.newBlockCount size ∧
      f.blockSize * f.newBlockCount size < 2 ^ 32 ∧
      f.calcRoomSize (f.newBlockCount size) + kRoomHeaderSize = f.blockSize * f.newBlockCount size ∧
      0 < f.calcRoomSize (f.newBlockCount size) := by
  obtain ⟨hsum, hdata⟩ := hfits
  have hcount : f.newBlockCount size = (size + kRoomHeaderSize + f.blockSize - 1) / f.blockSize := by
    rw [newBlockCount, u32_of_lt hsum]
  have hdiv := div_add_mod (size + kRoomHeaderSize + f.blockSize - 1) f.blockSize
  have hmod := mod_lt (size + kRoomHeaderSize + f.blockSize - 1) hblock
  rw [← hcount] at hdiv
  have h9 : kRoomHeaderSize = 9 := rfl
  have hne : f.newBlockCount size ≠ 0 := by
    intro hzero
    rw [hzero, mul_zero] at hdiv
    omega
  have hlow : size + kRoomHeaderSize ≤ f.blockSize * f.newBlockCount size := by omega
  have hhigh : f.blockSize * f.newBlockCount size < 2 ^ 32 := by omega
  have hsize : f.calcRoomSize (f.newBlockCount size) + kRoomHeaderSize =
      f.blockSize * f.newBlockCount size := by
    rw [calcRoomSize, if_pos hne, u32]
    omega
  refine ⟨hlow, hhigh, hsize, pos_of_ne_zero fun hzero => hdata ?_⟩
  rw [hzero, zero_add] at hsize
  exact ⟨by omega, Dvd.intro _ hsize.symm⟩

end Fon9.Inn
