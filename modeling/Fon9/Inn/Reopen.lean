import Fon9.Inn.Below

/-! A file that was created, and had rooms made and written since, is opened again. -/

namespace Fon9.Inn

open Lib List ByteFile InnFile

/-- An open file, the keys of the rooms that were made since it was created, and the number of
the blocks of these. -/
structure CreatedFile where
  file : InnFile
  keys : List RoomKey
  blocks : ℕ

inductive RoomCall where
  | makeNewRoom (roomType : InnRoomType) (size : UInt32)
  | write (room : ℕ) (offset size : UInt32) (buf : List UInt8)

namespace CreatedFile

/-- What `Open` makes of an empty file. -/
def create (blockSize : UInt32) : CreatedFile := ⟨newFile blockSize.toNat, [], 0⟩

def call (s : CreatedFile) : RoomCall → Except InnError CreatedFile
  | .makeNewRoom roomType size =>
    match s.file.makeNewRoom roomType size.toNat .none with
    | (.ok key, file) => .ok ⟨file, s.keys ++ [key], s.blocks + s.file.newBlockCount size.toNat⟩
    | (.error e, _) => .error e
  | .write room offset size buf =>
    match s.keys[room]? with
    | none => .error (.roomPos "InnFile.Write: bad roomPos.")
    | some key =>
      match s.file.write key offset.toNat size.toNat buf with
      | .ok (key, file) => .ok { s with file := file, keys := s.keys.set room key }
      | .error e => .error e

/-- The calls one after the other, as long as they succeed. -/
def run (s : CreatedFile) : List RoomCall → Except InnError CreatedFile
  | [] => .ok s
  | c :: calls =>
    match s.call c with
    | .ok s => s.run calls
    | .error e => .error e

end CreatedFile

/-- The size asked for in the last `MakeNewRoom`. -/
def lastSize (last : Option UInt32) : List RoomCall → Option UInt32
  | [] => last
  | .makeNewRoom _ size :: calls => lastSize (some size) calls
  | .write .. :: calls => lastSize last calls

/-- `MakeNewRoom` gives a room of this size at least one block: the sum of its sizes stays in a word,
or what is asked for makes it go around with a block's size to spare. -/
def HasBlocks (blockSize size : UInt32) : Prop :=
  size.toNat + 8 + blockSize.toNat < 2 ^ 32 ∨ 2 ^ 32 ≤ size.toNat + 8

variable {f g k : InnFile} {key key' : RoomKey} {s s' : CreatedFile} {blockSize : UInt32} {last : Option UInt32}

/-! ### What a write reaches -/

/-- Bytes of another file differ between two positions, or past the end. -/
structure WrittenIn (first stop : ℕ) (f g : InnFile) : Prop where
  headerSize : g.headerSize = f.headerSize
  blockSize : g.blockSize = f.blockSize
  fileSize : g.fileSize = f.fileSize
  grows : f.storage.size ≤ g.storage.size
  size : stop ≤ f.storage.size → g.storage.size = f.storage.size
  byte : ∀ i < first, i < f.storage.size → g.storage.byte i = f.storage.byte i

theorem WrittenIn.refl (first stop : ℕ) (f : InnFile) : WrittenIn first stop f f :=
  ⟨rfl, rfl, rfl, le_rfl, fun _ => rfl, fun _ _ _ => rfl⟩

theorem WrittenIn.trans {first stop : ℕ} (h : WrittenIn first stop f g) (h' : WrittenIn first stop g k) :
    WrittenIn first stop f k where
  headerSize := h'.headerSize.trans h.headerSize
  blockSize := h'.blockSize.trans h.blockSize
  fileSize := h'.fileSize.trans h.fileSize
  grows := h.grows.trans h'.grows
  size hstop := (h'.size (hstop.trans h.grows)).trans (h.size hstop)
  byte i hi hsize := (h'.byte i hi (lt_of_lt_of_le hsize h.grows)).trans (h.byte i hi hsize)

theorem writtenIn_writeStorage {first stop pos : ℕ} {data : List UInt8} (f : InnFile) (hpos : first ≤ pos)
    (hstop : pos + data.length ≤ stop) : WrittenIn first stop f (f.writeStorage pos data) where
  headerSize := rfl
  blockSize := rfl
  fileSize := rfl
  grows := le_size_write f.storage pos data
  size h := size_write (hstop.trans h)
  byte _ hi hsize := byte_write_of_lt (lt_of_lt_of_le hi hpos) hsize

theorem updateRoomHeader_writtenIn (f : InnFile) (key : RoomKey) (newsz : ℕ) :
    (f.updateRoomHeader key newsz).1.roomPos = key.roomPos ∧ (f.updateRoomHeader key newsz).1.roomSize = key.roomSize ∧
      WrittenIn key.roomPos key.nextRoomPos f (f.updateRoomHeader key newsz).2 := by
  have hin : ∀ offset data, offset + data.length ≤ kRoomHeaderSize →
      WrittenIn key.roomPos key.nextRoomPos f (f.writeStorage (key.roomPos + offset) data) := by
    intro offset data hle
    refine writtenIn_writeStorage f (Nat.le_add_right _ _) ?_
    unfold RoomKey.nextRoomPos
    omega
  have hlen : (BigEndian.bytes 4 newsz).length = 4 := BigEndian.length_bytes 4 newsz
  unfold InnFile.updateRoomHeader
  by_cases htype : key.currentRoomType = key.pendingRoomType
  · rw [if_pos htype]
    by_cases hsize : key.dataSize ≠ newsz
    · rw [if_pos hsize]
      exact ⟨rfl, rfl, hin _ _ (by rw [hlen]; decide)⟩
    · rw [if_neg hsize]
      exact ⟨rfl, rfl, WrittenIn.refl _ _ _⟩
  · rw [if_neg htype]
    by_cases hsize : key.dataSize = newsz
    · rw [if_pos hsize]
      exact ⟨rfl, rfl, hin _ _ (show 4 + 1 ≤ 9 by decide)⟩
    · rw [if_neg hsize]
      exact ⟨rfl, rfl, hin _ _ (by rw [length_append, hlen]; show 4 + (1 + 4) ≤ 9; decide)⟩

variable {buf : List UInt8} {roomType : InnRoomType} {size : UInt32}

/-- A write that succeeds reaches nothing but the room; there is none to a room without blocks. -/
theorem write_writtenIn {offset size : ℕ} (h : f.write key offset size buf = .ok (key', g)) :
    key'.roomPos = key.roomPos ∧ key'.roomSize = key.roomSize ∧ WrittenIn key.roomPos key.nextRoomPos f g ∧
      (key.roomSize = 0 → g = f) := by
  unfold InnFile.write at h
  simp only [bind, Except.bind, pure, Except.pure, throw, throwThe, MonadExceptOf.throw] at h
  split at h
  · cases h
  split at h
  · cases h
  split at h
  · cases h
  next hoffset hend =>
  split at h
  · cases h
    exact ⟨rfl, rfl, WrittenIn.refl _ _ _, fun _ => rfl⟩
  next hzero =>
  split at h
  · cases h
  next hbuf =>
  obtain ⟨hpos, hsize, hheader⟩ := updateRoomHeader_writtenIn
    (f.writeStorage (key.roomPos + kRoomHeaderSize + offset) (buf.take size)) key
    (if u32 (offset + size) < key.dataSize then key.dataSize else u32 (offset + size))
  rw [Except.ok.injEq] at h
  rw [h] at hpos hsize hheader
  refine ⟨hpos, hsize, WrittenIn.trans (writtenIn_writeStorage f (by omega) ?_) hheader, fun hnone => by omega⟩
  rw [length_take]
  unfold RoomKey.nextRoomPos
  omega

/-! ### The header of the file -/

/-- The header of the file is that of a new one; the rooms are behind it. -/
structure Created (size : UInt32) (s : CreatedFile) : Prop where
  headerSize : s.file.headerSize = kInnHeaderSize
  blockSize : s.file.blockSize = size.toNat
  header : s.file.storage.read 0 kInnHeaderSize = InnFile.newHeader size.toNat
  header_le : kInnHeaderSize ≤ s.file.fileSize
  size_lt : s.file.fileSize < 2 ^ 63
  stored : s.file.fileSize ≤ s.file.storage.size
  keys : ∀ key ∈ s.keys, kInnHeaderSize ≤ key.roomPos

/-- The room that `MakeNewRoom` makes, and the file with it. -/
theorem makeNewRoom_ok {size : ℕ} (hlt : f.fileSize < 2 ^ 63) (h : f.makeNewRoom roomType size .none = (.ok key, g)) :
    key = f.newKey roomType size ∧
      g = { f with
        storage := (f.storage.setSize (f.grownSize size)).write f.fileSize
          (roomHeader (f.newBlockCount size) roomType 0)
        fileSize := f.grownSize size } ∧
      f.grownSize size = f.fileSize + f.newBlockCount size * f.blockSize ∧ f.grownSize size < 2 ^ 63 := by
  have hcount : f.newBlockCount size * f.blockSize < 2 ^ 32 :=
    lt_of_le_of_lt (Nat.div_mul_le_self _ _) (Nat.mod_lt _ (Nat.two_pow_pos 32))
  have hgrown : f.grownSize size = f.fileSize + f.newBlockCount size * f.blockSize := by
    rw [InnFile.grownSize, u32_of_lt hcount, u64]
    omega
  unfold InnFile.makeNewRoom at h
  split at h
  · cases h
  dsimp only at h
  split at h
  · cases h
  next hgrow =>
    rw [Bool.not_eq_true, cannotGrow, Bool.or_eq_false_iff, decide_eq_false_iff_not, not_le] at hgrow
    cases h
    exact ⟨rfl, rfl, hgrown, hgrow.2⟩

theorem call_makeNewRoom (h : s.call (.makeNewRoom roomType size) = .ok s') :
    ∃ key g, s.file.makeNewRoom roomType size.toNat .none = (.ok key, g) ∧
      s' = ⟨g, s.keys ++ [key], s.blocks + s.file.newBlockCount size.toNat⟩ := by
  simp only [CreatedFile.call] at h
  split at h
  · next key g heq =>
    cases h
    exact ⟨key, g, heq, rfl⟩
  · cases h

theorem call_write {room : ℕ} {offset size : UInt32} (h : s.call (.write room offset size buf) = .ok s') :
    ∃ key key' g, key ∈ s.keys ∧ s.file.write key offset.toNat size.toNat buf = .ok (key', g) ∧
      s' = { s with file := g, keys := s.keys.set room key' } := by
  simp only [CreatedFile.call] at h
  split at h
  · cases h
  next key hkey =>
  split at h
  · next key' g heq =>
    cases h
    exact ⟨key, key', g, mem_of_getElem? hkey, heq, rfl⟩
  · cases h

theorem Created.call {c : RoomCall} (h : Created blockSize s) (hcall : s.call c = .ok s') : Created blockSize s' := by
  have hle := h.header_le
  have hstored := h.stored
  cases c with
  | makeNewRoom roomType size =>
    obtain ⟨key, g, hmake, rfl⟩ := call_makeNewRoom hcall
    obtain ⟨rfl, rfl, hgrown, hlt⟩ := makeNewRoom_ok h.size_lt hmake
    have hsize := le_size_write (s.file.storage.setSize (s.file.grownSize size.toNat)) s.file.fileSize
      (roomHeader (s.file.newBlockCount size.toNat) roomType 0)
    have hge : s.file.fileSize ≤ s.file.grownSize size.toNat := by
      rw [hgrown]
      exact Nat.le_add_right _ _
    refine ⟨h.headerSize, h.blockSize, ?_, hle.trans hge, hlt, hsize, ?_⟩
    · rw [← h.header]
      refine read_congr ?_ (by omega) fun i _ hi => ?_
      · rw [zero_add]
        exact (hle.trans hge).trans hsize
      · have hi' : i < s.file.grownSize size.toNat := by omega
        rw [byte_write_of_lt (by omega) hi', byte_setSize hi' (by omega)]
    · intro key hkey
      rcases mem_append.mp hkey with hkey | hkey
      · exact h.keys key hkey
      · rw [mem_singleton.mp hkey]
        exact hle
  | write room offset size buf =>
    obtain ⟨key, key', g, hkey, hwrite, rfl⟩ := call_write hcall
    obtain ⟨hpos, -, hin, -⟩ := write_writtenIn hwrite
    have hbehind := h.keys key hkey
    have hgrows := hin.grows
    refine ⟨hin.headerSize.trans h.headerSize, hin.blockSize.trans h.blockSize, ?_, ?_, ?_, ?_, ?_⟩
    · rw [← h.header]
      exact read_congr (by show _ ≤ g.storage.size; omega) (by omega)
        fun i _ hi => hin.byte i (by omega) (by omega)
    · exact hle.trans_eq hin.fileSize.symm
    · exact hin.fileSize.trans_lt h.size_lt
    · exact hin.fileSize.trans_le (hstored.trans hgrows)
    · intro k hk
      rcases mem_or_eq_of_mem_set hk with hk | rfl
      · exact h.keys k hk
      · exact hbehind.trans_eq hpos.symm

/-! ### The size of the file -/

/-- What `Open` asks of the size of the blocks. -/
def Aligned (blockSize : UInt32) : Prop :=
  kBlockSizeAlign ≤ blockSize.toNat ∧ blockSize.toNat % kBlockSizeAlign = 0

theorem newBlockCount_eq_zero (hblock : f.blockSize = blockSize.toNat) (halign : Aligned blockSize) :
    f.newBlockCount size.toNat = 0 ↔ ¬ HasBlocks blockSize size := by
  have hlt := size.toNat_lt
  have hlt' := blockSize.toNat_lt
  obtain ⟨hpos, hmod⟩ := halign
  unfold kBlockSizeAlign at hpos hmod
  have hpos : 0 < blockSize.toNat := by omega
  rw [newBlockCount, hblock, Nat.div_eq_zero_iff_lt hpos, HasBlocks]
  unfold u32 kRoomHeaderSize
  omega

/-- The blocks of the rooms make the size of the file; the header of a room without blocks is behind it. -/
structure Sized (size : UInt32) (last : Option UInt32) (s : CreatedFile) : Prop where
  created : Created size s
  fileSize : s.file.fileSize = kInnHeaderSize + s.blocks * size.toNat
  whole : (∀ n ∈ last, HasBlocks size n) → s.file.storage.size = s.file.fileSize
  longer : (¬ ∀ n ∈ last, HasBlocks size n) → s.file.storage.size = s.file.fileSize + kRoomHeaderSize
  keys : ∀ key ∈ s.keys, key.roomSize = 0 ∨ key.nextRoomPos ≤ s.file.fileSize

theorem Sized.makeNewRoom (h : Sized blockSize last s) (halign : Aligned blockSize)
    (hcall : s.call (.makeNewRoom roomType size) = .ok s') :
    Sized blockSize (some size) s' := by
  have hle : 16 ≤ blockSize.toNat := halign.1
  have hcreated := h.created.call hcall
  have hblock := h.created.blockSize
  obtain ⟨key, g, hmake, rfl⟩ := call_makeNewRoom hcall
  obtain ⟨rfl, rfl, hgrown, hlt⟩ := makeNewRoom_ok h.created.size_lt hmake
  have hzero := @newBlockCount_eq_zero _ _ size hblock halign
  have hlen := length_roomHeader (s.file.newBlockCount size.toNat) roomType 0
  have hone : (∀ n ∈ some size, HasBlocks blockSize n) ↔ HasBlocks blockSize size := by simp
  have hmul : s.file.newBlockCount size.toNat ≠ 0 →
      s.file.blockSize ≤ s.file.newBlockCount size.toNat * s.file.blockSize :=
    fun hne => Nat.le_mul_of_pos_left _ (pos_of_ne_zero hne)
  refine ⟨hcreated, ?_, ?_, ?_, ?_⟩
  · show s.file.grownSize size.toNat = kInnHeaderSize + (s.blocks + s.file.newBlockCount size.toNat) * blockSize.toNat
    rw [hgrown, h.fileSize, hblock, add_mul, add_assoc]
  · intro hhas
    have hmul' := hmul fun hno => hzero.mp hno (hone.mp hhas)
    refine size_write ?_
    rw [hlen]
    show s.file.fileSize + 9 ≤ s.file.grownSize size.toNat
    omega
  · intro hno
    have hnone := hzero.mpr (mt hone.mpr hno)
    rw [hnone, zero_mul, add_zero] at hgrown
    have hne : roomHeader (s.file.newBlockCount size.toNat) roomType 0 ≠ [] :=
      ne_nil_of_length_pos (by rw [hlen]; decide)
    show (ByteFile.write _ _ _).size = s.file.grownSize size.toNat + kRoomHeaderSize
    rw [ByteFile.write, if_neg hne, hlen, hgrown]
    exact Nat.max_eq_right (Nat.le_add_right _ _)
  · intro key hkey
    rcases mem_append.mp hkey with hkey | hkey
    · refine (h.keys key hkey).imp_right fun hle => hle.trans ?_
      show s.file.fileSize ≤ s.file.grownSize size.toNat
      rw [hgrown]
      exact Nat.le_add_right _ _
    · rw [mem_singleton.mp hkey]
      show s.file.calcRoomSize _ = 0 ∨ s.file.fileSize + s.file.calcRoomSize _ + kRoomHeaderSize ≤ s.file.grownSize _
      rw [calcRoomSize]
      by_cases hnone : s.file.newBlockCount size.toNat = 0
      · left
        rw [if_neg (not_not_intro hnone)]
      · right
        have hmul' := hmul hnone
        have hcount : s.file.newBlockCount size.toNat * s.file.blockSize < 2 ^ 32 :=
          lt_of_le_of_lt (Nat.div_mul_le_self _ _) (Nat.mod_lt _ (Nat.two_pow_pos 32))
        rw [if_pos hnone, mul_comm s.file.blockSize, hgrown, u32]
        unfold kRoomHeaderSize
        omega

theorem Sized.write {room : ℕ} {offset size : UInt32} (h : Sized blockSize last s)
    (hcall : s.call (.write room offset size buf) = .ok s') : Sized blockSize last s' := by
  have hcreated := h.created.call hcall
  obtain ⟨key, key', g, hkey, hwrite, rfl⟩ := call_write hcall
  obtain ⟨hpos, hroom, hin, hnone⟩ := write_writtenIn hwrite
  have hsize : g.storage.size = s.file.storage.size := by
    rcases h.keys key hkey with hzero | hle
    · rw [hnone hzero]
    · exact hin.size (hle.trans h.created.stored)
  refine ⟨hcreated, ?_, ?_, ?_, ?_⟩
  · exact hin.fileSize.trans h.fileSize
  · intro hhas
    exact hsize.trans ((h.whole hhas).trans hin.fileSize.symm)
  · intro hno
    show g.storage.size = g.fileSize + kRoomHeaderSize
    rw [hsize, h.longer hno, hin.fileSize]
  · intro k hk
    show k.roomSize = 0 ∨ k.nextRoomPos ≤ g.fileSize
    rw [hin.fileSize]
    rcases mem_or_eq_of_mem_set hk with hk | rfl
    · exact h.keys k hk
    · rw [RoomKey.nextRoomPos, hpos, hroom]
      exact h.keys key hkey

/-! ### Runs -/

theorem Created.run {calls : List RoomCall} (h : Created blockSize s) (hrun : s.run calls = .ok s') :
    Created blockSize s' := by
  induction calls generalizing s with
  | nil =>
    cases hrun
    exact h
  | cons c calls ih =>
    rw [CreatedFile.run] at hrun
    split at hrun
    · next hcall => exact ih (h.call hcall) hrun
    · cases hrun

theorem Sized.run {calls : List RoomCall} (h : Sized blockSize last s) (halign : Aligned blockSize)
    (hrun : s.run calls = .ok s') : Sized blockSize (lastSize last calls) s' := by
  induction calls generalizing s last with
  | nil =>
    cases hrun
    exact h
  | cons c calls ih =>
    rw [CreatedFile.run] at hrun
    split at hrun
    · next hcall =>
      cases c with
      | makeNewRoom roomType size => exact ih (h.makeNewRoom halign hcall) hrun
      | write room offset size buf => exact ih (h.write hcall) hrun
    · cases hrun

end Fon9.Inn
