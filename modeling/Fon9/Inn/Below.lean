import Fon9.Inn.Rooms

/-! What is stored before a position of the file, and what stays there. Rooms that are made
behind the position, and all that is written to them, leave it as it is, whatever their sizes are. -/

namespace Fon9.Inn

open Lib ByteFile

variable {f g k : InnFile} {key : RoomKey} {rooms : List Room} {top : ℕ}

/-- The file as if it ended at `top`. -/
def InnFile.upTo (f : InnFile) (top : ℕ) : InnFile := { f with fileSize := top }

/-- Another file has the same headers' size and blocks, and the same bytes up to `top`. -/
structure SameBelow (top : ℕ) (f g : InnFile) : Prop where
  headerSize : g.headerSize = f.headerSize
  blockSize : g.blockSize = f.blockSize
  stored : top ≤ g.storage.size
  byte : ∀ i < top, g.storage.byte i = f.storage.byte i

/-- A file whose last room ends at `top` or behind it. -/
structure Above (top : ℕ) (f : InnFile) : Prop where
  header_pos : 0 < f.headerSize
  header_le : f.headerSize ≤ top
  le : top ≤ f.fileSize
  lt : f.fileSize < 2 ^ 63
  stored : f.fileSize ≤ f.storage.size
  align : kBlockSizeAlign ≤ f.blockSize
  block_lt : f.blockSize < 2 ^ 32
  dvd : f.blockSize ∣ f.fileSize - f.headerSize

/-- A key that the file takes: its room is at the start of a block. -/
structure Keyed (f : InnFile) (key : RoomKey) : Prop where
  block_pos : 0 < f.blockSize
  headerSize_le : f.headerSize ≤ key.roomPos
  dvd : f.blockSize ∣ key.roomPos - f.headerSize
  pending : key.pendingRoomType = key.currentRoomType
  size_lt : key.roomSize < 2 ^ 32

theorem SameBelow.refl (h : top ≤ f.storage.size) : SameBelow top f f := ⟨rfl, rfl, h, fun _ _ => rfl⟩

theorem SameBelow.trans (h : SameBelow top f g) (h' : SameBelow top g k) : SameBelow top f k where
  headerSize := h'.headerSize.trans h.headerSize
  blockSize := h'.blockSize.trans h.blockSize
  stored := h'.stored
  byte i hi := (h'.byte i hi).trans (h.byte i hi)

/-- The rooms that end before `top` are still there. -/
theorem Stores.below (h : Stores (f.upTo top) rooms) (hsame : SameBelow top f g) : Stores (g.upTo top) rooms where
  laid :=
    { block_pos := hsame.blockSize.symm ▸ h.laid.block_pos
      block_lt := hsame.blockSize.symm ▸ h.laid.block_lt
      header_pos := hsame.headerSize.symm ▸ h.laid.header_pos
      tiles := by
        show Tiles _ g.headerSize _ top
        rw [hsame.headerSize]
        exact h.laid.tiles.congr hsame.blockSize h.laid.stored hsame.stored hsame.byte
      stored := hsame.stored
      size_lt := h.laid.size_lt }
  data r hr := by
    have hlies := h.lies hr
    have hnext : r.key.roomPos + r.key.roomSize + kRoomHeaderSize ≤ top := hlies.next_le
    have hdata := hlies.disk.data_le
    have hstored : top ≤ f.storage.size := h.laid.stored
    have hstored' := hsame.stored
    rw [← h.data r hr]
    exact read_congr (by show _ ≤ g.storage.size; omega) (by show _ ≤ f.storage.size; omega)
      fun i _ hi => hsame.byte i (by omega)

theorem Stores.above (h : Stores f rooms) (halign : kBlockSizeAlign ≤ f.blockSize) : Above f.fileSize f where
  header_pos := h.laid.header_pos
  header_le := h.laid.tiles.le
  le := le_rfl
  lt := h.laid.size_lt
  stored := h.laid.stored
  align := halign
  block_lt := h.laid.block_lt
  dvd := h.laid.tiles.dvd

theorem Lies.keyed (h : Lies f key) : Keyed f key := ⟨h.block_pos, h.headerSize_le, h.dvd, h.disk.pending, h.size_lt⟩

theorem Keyed.checkRoomPos (h : Keyed f key) (what : String) : f.checkRoomPos key.roomPos what = .ok () :=
  checkRoomPos_ok h.block_pos h.headerSize_le h.dvd what

theorem Keyed.congr {key' : RoomKey} (h : Keyed f key) (hheader : g.headerSize = f.headerSize)
    (hblock : g.blockSize = f.blockSize) (hpos : key'.roomPos = key.roomPos) (hsize : key'.roomSize = key.roomSize)
    (hpending : key'.pendingRoomType = key'.currentRoomType) : Keyed g key' := by
  refine ⟨hblock ▸ h.block_pos, ?_, ?_, hpending, hsize ▸ h.size_lt⟩
  · rw [hheader, hpos]
    exact h.headerSize_le
  · rw [hheader, hblock, hpos]
    exact h.dvd

/-! ### Writes -/

variable {offset size : ℕ} {buf : List UInt8}

/-- The size of the file does not matter to a header. -/
theorem updateRoomHeader_upTo (f : InnFile) (top : ℕ) (key : RoomKey) (newsz : ℕ) :
    (f.upTo top).updateRoomHeader key newsz =
      ((f.updateRoomHeader key newsz).1, (f.updateRoomHeader key newsz).2.upTo top) := by
  unfold InnFile.updateRoomHeader
  split_ifs <;> rfl

/-- The size of the file does not matter to a write. -/
theorem write_upTo (f : InnFile) (top : ℕ) (key : RoomKey) (offset size : ℕ) (buf : List UInt8) :
    (f.upTo top).write key offset size buf = (f.write key offset size buf).map fun r => (r.1, r.2.upTo top) := by
  have hcheck : (f.upTo top).checkRoomPos key.roomPos = f.checkRoomPos key.roomPos := rfl
  have hwrite : ∀ pos data, (f.upTo top).writeStorage pos data = (f.writeStorage pos data).upTo top := fun _ _ => rfl
  unfold InnFile.write
  rw [hcheck]
  cases f.checkRoomPos key.roomPos "InnFile.Write: bad roomPos." with
  | error e => rfl
  | ok u =>
    simp only [bind, Except.bind, pure, Except.pure, throw, throwThe, MonadExceptOf.throw, hwrite,
      updateRoomHeader_upTo]
    split_ifs <;> rfl

/-- Nor to a read. -/
theorem read_upTo (f : InnFile) (top : ℕ) (key : RoomKey) (offset size : ℕ) :
    (f.upTo top).read key offset size = f.read key offset size := rfl

theorem updateRoomHeader_below (key : RoomKey) (newsz : ℕ) (hpending : key.pendingRoomType = key.currentRoomType) :
    ∃ g, f.updateRoomHeader key newsz = ({ key with dataSize := newsz }, g) ∧ g.fileSize = f.fileSize ∧
      f.storage.size ≤ g.storage.size ∧
      ∀ top, top ≤ key.roomPos → top ≤ f.storage.size → SameBelow top f g := by
  unfold InnFile.updateRoomHeader
  rw [if_pos hpending.symm]
  by_cases hsize : key.dataSize ≠ newsz
  · rw [if_pos hsize]
    have hle := le_size_write f.storage (key.roomPos + InnFile.kOffset_DataSize) (BigEndian.bytes 4 newsz)
    refine ⟨_, rfl, rfl, hle, fun top htop hstored => ⟨rfl, rfl, hstored.trans hle, fun i hi => ?_⟩⟩
    exact byte_write_of_lt (by omega) (by omega)
  · rw [if_neg hsize]
    rw [not_not] at hsize
    subst hsize
    exact ⟨f, rfl, rfl, le_rfl, fun top _ hstored => SameBelow.refl hstored⟩

/-- A write to a room leaves all before the room as it is. -/
theorem Keyed.write (h : Keyed f key) (offset size : ℕ) (buf : List UInt8) (hoffset : offset ≤ key.dataSize) (hle : offset + size ≤ key.roomSize)
    (hbuf : size ≤ buf.length) :
    ∃ g, f.write key offset size buf = .ok ({ key with dataSize := max key.dataSize (offset + size) }, g) ∧
      g.fileSize = f.fileSize ∧ f.storage.size ≤ g.storage.size ∧
      ∀ top, top ≤ key.roomPos → top ≤ f.storage.size → SameBelow top f g := by
  have hsize := h.size_lt
  have hwrite : f.write key offset size buf =
      if size = 0 then .ok (key, f)
      else .ok ((f.writeStorage (key.roomPos + kRoomHeaderSize + offset) (buf.take size)).updateRoomHeader key
        (max key.dataSize (offset + size))) := by
    unfold InnFile.write
    have hnewsz : (if u32 (offset + size) < key.dataSize then key.dataSize else u32 (offset + size)) =
        max key.dataSize (offset + size) := by
      rw [u32_of_lt (by omega)]
      split <;> omega
    simp only [h.checkRoomPos, bind, Except.bind, if_neg (not_lt.mpr hoffset), if_neg (not_lt.mpr hle),
      if_neg (not_lt.mpr hbuf), hnewsz, pure, Except.pure]
  rw [hwrite]
  by_cases hzero : size = 0
  · rw [if_pos hzero, hzero, add_zero, Nat.max_eq_left hoffset]
    exact ⟨f, rfl, rfl, le_rfl, fun top _ hstored => SameBelow.refl hstored⟩
  rw [if_neg hzero]
  obtain ⟨g, heq, hfile, hgrow, hbelow⟩ := updateRoomHeader_below
    (f := f.writeStorage (key.roomPos + kRoomHeaderSize + offset) (buf.take size)) key
    (max key.dataSize (offset + size)) h.pending
  have hgrow' := le_size_write f.storage (key.roomPos + kRoomHeaderSize + offset) (buf.take size)
  rw [heq]
  refine ⟨g, rfl, hfile, hgrow'.trans hgrow, fun top htop hstored => ?_⟩
  have hfirst : SameBelow top f (f.writeStorage (key.roomPos + kRoomHeaderSize + offset) (buf.take size)) := by
    refine ⟨rfl, rfl, hstored.trans hgrow', fun i hi => ?_⟩
    exact byte_write_of_lt (by omega) (by omega)
  exact hfirst.trans (hbelow top htop (hstored.trans hgrow'))

/-- There is no such room. -/
theorem Keyed.write_fails (h : Keyed f key) (hoffset : offset ≤ key.dataSize) (hlt : key.roomSize < offset + size) :
    f.write key offset size buf = .error (.roomSize "InnFile.Write: bad request size.") := by
  unfold InnFile.write
  simp only [h.checkRoomPos, bind, Except.bind, if_neg (not_lt.mpr hoffset), if_pos hlt, throw, throwThe,
    MonadExceptOf.throw]

theorem Above.congr {top' : ℕ} (h : Above top f) (hfile : g.fileSize = f.fileSize)
    (hstored : f.storage.size ≤ g.storage.size) (hsame : SameBelow top' f g) : Above top g where
  header_pos := hsame.headerSize ▸ h.header_pos
  header_le := hsame.headerSize ▸ h.header_le
  le := hfile ▸ h.le
  lt := hfile ▸ h.lt
  stored := by
    rw [hfile]
    exact h.stored.trans hstored
  align := hsame.blockSize ▸ h.align
  block_lt := hsame.blockSize ▸ h.block_lt
  dvd := by
    rw [hsame.blockSize, hfile, hsame.headerSize]
    exact h.dvd

/-! ### New rooms of any size -/

/-- The room that `MakeNewRoom` makes. -/
def InnFile.newKey (f : InnFile) (roomType : InnRoomType) (size : ℕ) : RoomKey where
  roomPos := f.fileSize
  roomSize := f.calcRoomSize (f.newBlockCount size)
  dataSize := 0
  currentRoomType := roomType
  pendingRoomType := roomType

/-- A room is no larger than what the file grows by. -/
theorem Above.grownSize (h : Above top f) (hgrow : f.cannotGrow size .none = false) :
    f.grownSize size < 2 ^ 63 ∧ f.blockSize ∣ f.grownSize size - f.fileSize ∧ f.fileSize ≤ f.grownSize size ∧
      (f.calcRoomSize (f.newBlockCount size) = 0 ∨
        f.fileSize + f.calcRoomSize (f.newBlockCount size) + kRoomHeaderSize = f.grownSize size) := by
  have hlt := h.lt
  have halign := h.align
  have h16 : kBlockSizeAlign = 16 := rfl
  have h9 : kRoomHeaderSize = 9 := rfl
  have hcount : f.newBlockCount size * f.blockSize < 2 ^ 32 :=
    lt_of_le_of_lt (Nat.div_mul_le_self _ _) (Nat.mod_lt _ (Nat.two_pow_pos 32))
  have hgrown : f.grownSize size = f.fileSize + f.newBlockCount size * f.blockSize := by
    rw [InnFile.grownSize, u32_of_lt hcount, u64]
    omega
  have hsize : f.grownSize size < 2 ^ 63 := by
    simp only [InnFile.cannotGrow, Bool.or_eq_false_iff, decide_eq_false_iff_not, not_le] at hgrow
    exact hgrow.2
  refine ⟨hsize, ?_, by omega, ?_⟩
  · rw [hgrown, Nat.add_sub_cancel_left]
    exact Nat.dvd_mul_left _ _
  rw [InnFile.calcRoomSize]
  by_cases hzero : f.newBlockCount size = 0
  · left
    rw [if_neg (not_not_intro hzero)]
  · right
    rw [if_pos hzero]
    have hmul : f.blockSize ≤ f.newBlockCount size * f.blockSize :=
      Nat.le_mul_of_pos_left _ (pos_of_ne_zero hzero)
    rw [mul_comm f.blockSize, u32]
    omega

/-- The new room is behind `top`, and nothing has changed before. -/
theorem Above.makeNewRoom (h : Above top f) (roomType : InnRoomType) (hgrow : f.cannotGrow size .none = false) :
    ∃ g, f.makeNewRoom roomType size .none = (.ok (f.newKey roomType size), g) ∧ SameBelow top f g ∧ Above top g ∧
      Keyed g (f.newKey roomType size) ∧ g.fileSize = f.grownSize size := by
  have hle := h.le
  have hstored := h.stored
  have halign := h.align
  have h16 : kBlockSizeAlign = 16 := rfl
  obtain ⟨hlt, hdvd, hge, hroom⟩ := h.grownSize hgrow
  have hblock : f.blockSize ≠ 0 := by omega
  let header := InnFile.roomHeader (f.newBlockCount size) roomType 0
  let g : InnFile := { f with
    storage := (f.storage.setSize (f.grownSize size)).write f.fileSize header
    fileSize := f.grownSize size }
  have hsize : f.grownSize size ≤ g.storage.size :=
    le_size_write (f.storage.setSize (f.grownSize size)) f.fileSize header
  have hbelow : SameBelow top f g := by
    refine ⟨rfl, rfl, by omega, fun i hi => ?_⟩
    have hi' : i < f.grownSize size := by omega
    show (ByteFile.write _ _ _).byte i = _
    rw [byte_write_of_lt (by omega) hi', byte_setSize hi' (by omega)]
  have hheader := h.header_le
  refine ⟨g, ?_, hbelow, ?_, ?_, rfl⟩
  · unfold InnFile.makeNewRoom
    rw [if_neg hblock]
    simp only [hgrow, Bool.false_eq_true, if_false]
    rfl
  · refine ⟨h.header_pos, h.header_le, by show top ≤ f.grownSize size; omega, hlt, hsize, h.align, h.block_lt, ?_⟩
    show f.blockSize ∣ f.grownSize size - f.headerSize
    have hsum := Nat.dvd_add hdvd h.dvd
    rwa [show f.grownSize size - f.fileSize + (f.fileSize - f.headerSize) = f.grownSize size - f.headerSize by omega]
      at hsum
  · refine ⟨pos_of_ne_zero hblock, by show f.headerSize ≤ f.fileSize; omega, h.dvd, rfl, ?_⟩
    show f.calcRoomSize _ < 2 ^ 32
    rw [InnFile.calcRoomSize]
    split
    · exact Nat.mod_lt _ (Nat.two_pow_pos 32)
    · exact Nat.two_pow_pos 32

theorem Above.makeNewRoom_fails (h : Above top f) (roomType : InnRoomType) (hgrow : f.cannotGrow size .none = true) :
    ∃ e g, f.makeNewRoom roomType size .none = (.error e, g) ∧ SameBelow top f g := by
  have hle := h.le
  have hstored := h.stored
  have halign := h.align
  have h16 : kBlockSizeAlign = 16 := rfl
  have hblock : f.blockSize ≠ 0 := by omega
  unfold InnFile.makeNewRoom
  rw [if_neg hblock]
  simp only [hgrow, if_true]
  refine ⟨_, _, rfl, rfl, rfl, hle, fun i hi => ?_⟩
  exact byte_setSize (by omega) (by omega)

end Fon9.Inn
