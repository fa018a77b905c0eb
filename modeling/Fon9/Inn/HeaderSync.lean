import Fon9.Inn.Faults
import Fon9.Lib.Run

/-! The key of a room and the header on disk. They say the same after every call of a run, unless the write
of a header fails and leaves a byte of it that should have changed. -/

namespace Fon9.Inn

open Lib List BigEndian ByteFile InnFile BigEndian

variable {f g k : InnFile} {s : KeyedFile} {pos n : ℕ} {data : List UInt8}

variable (key : RoomKey)

/-- The bytes of a room header that change: the type and the size of the data. -/
def headerBytes : List UInt8 := [key.currentRoomType] ++ BigEndian.bytes 4 key.dataSize

/-- Those bytes on disk. -/
def InnFile.header (f : InnFile) (pos : ℕ) : List UInt8 := f.storage.read (pos + InnFile.kOffset_RoomType) 5

namespace KeyedFile

/-- The type and the size of the data are those on disk. -/
def Coherent (s : KeyedFile) : Prop :=
  s.file.storage.read (s.key.roomPos + InnFile.kOffset_RoomType) 1 = [s.key.currentRoomType] ∧
    BigEndian.value (s.file.storage.read (s.key.roomPos + InnFile.kOffset_DataSize) 4) = s.key.dataSize

instance (s : KeyedFile) : Decidable s.Coherent := inferInstanceAs (Decidable (_ ∧ _))

/-- The header is in the file. -/
def Inside (s : KeyedFile) : Prop := s.key.roomPos + kRoomHeaderSize ≤ s.file.storage.size

theorem coherent_iff (hin : s.Inside) :
    s.Coherent ↔ s.file.header s.key.roomPos = headerBytes s.key ∧ s.key.dataSize < 2 ^ 32 := by
  have hin' : s.key.roomPos + 9 ≤ s.file.storage.size := hin
  have hsplit : s.file.header s.key.roomPos =
      s.file.storage.read (s.key.roomPos + 4) 1 ++ s.file.storage.read (s.key.roomPos + 5) 4 :=
    read_add 1 4 (by show s.key.roomPos + 4 + 1 + 4 ≤ _; omega)
  have htype : (s.file.storage.read (s.key.roomPos + 4) 1).length = 1 := length_read (by omega)
  have hsize : (s.file.storage.read (s.key.roomPos + 5) 4).length = 4 := length_read (by omega)
  rw [hsplit, headerBytes]
  constructor
  · rintro ⟨heq, hvalue⟩
    have hbytes := bytes_value (s.file.storage.read (s.key.roomPos + 5) 4)
    have hlt := value_lt (s.file.storage.read (s.key.roomPos + 5) 4)
    rw [hsize, show value (s.file.storage.read (s.key.roomPos + 5) 4) = _ from hvalue] at hbytes hlt
    exact ⟨by rw [hbytes, ← heq]; rfl, hlt⟩
  · rintro ⟨heq, hlt⟩
    obtain ⟨hleft, hright⟩ := append_inj heq (by rw [htype]; rfl)
    refine ⟨hleft, ?_⟩
    show value (s.file.storage.read (s.key.roomPos + 5) 4) = _
    rw [hright, value_bytes hlt]

end KeyedFile

/-! ### What a write keeps -/

/-- The bytes of the file that are not in the range are kept. -/
structure KeptBut (range : ℕ → Prop) (f g : InnFile) : Prop where
  size : f.storage.size ≤ g.storage.size
  byte : ∀ i < f.storage.size, ¬ range i → g.storage.byte i = f.storage.byte i

theorem KeptBut.refl (range : ℕ → Prop) (f : InnFile) : KeptBut range f f := ⟨le_rfl, fun _ _ _ => rfl⟩

theorem KeptBut.trans {range : ℕ → Prop} (h : KeptBut range f g) (h' : KeptBut range g k) : KeptBut range f k where
  size := h.size.trans h'.size
  byte i hi hout := (h'.byte i (lt_of_lt_of_le hi h.size) hout).trans (h.byte i hi hout)

theorem KeptBut.mono {range range' : ℕ → Prop} (h : KeptBut range f g) (himp : ∀ i, range i → range' i) :
    KeptBut range' f g := ⟨h.size, fun i hi hout => h.byte i hi (mt (himp i) hout)⟩

theorem keptBut_writeStorage (f : InnFile) (pos : ℕ) (data : List UInt8) :
    KeptBut (fun i => pos ≤ i ∧ i < pos + data.length) f (f.writeStorage pos data) where
  size := le_size_write f.storage pos data
  byte i hi hout := by
    show (f.storage.write pos data).byte i = _
    rw [byte_write, if_neg hout, if_pos hi]

theorem keptBut_checkedWrite (f : InnFile) (fault : Option WriteFault) (pos : ℕ) (data : List UInt8) (ex ex' : String) :
    KeptBut (fun i => pos ≤ i ∧ i < pos + data.length) f (f.checkedWrite fault pos data ex ex').2 := by
  have hpart : ∀ n, KeptBut (fun i => pos ≤ i ∧ i < pos + data.length) f (f.writeStorage pos (data.take n)) := by
    intro n
    refine (keptBut_writeStorage f pos (data.take n)).mono fun i hi => ?_
    rw [length_take] at hi
    omega
  cases fault with
  | none => exact keptBut_writeStorage f pos data
  | some fault => cases fault <;> exact hpart _

theorem keptBut_writeRoom (ex ex' : String) (buf : List (List UInt8)) (f : InnFile) (pos wrsz : ℕ)
    (faults : List (Option WriteFault)) :
    KeptBut (fun i => pos ≤ i ∧ i < pos + wrsz) f (f.writeRoom pos wrsz ex ex' buf faults).2 := by
  induction buf generalizing f pos wrsz faults with
  | nil => exact KeptBut.refl _ f
  | cons blk buf ih =>
    have hlen : (blk.take wrsz).length ≤ wrsz := length_take_le _ _
    have hfirst := keptBut_checkedWrite f faults.head?.join pos (blk.take wrsz) ex ex'
    replace hfirst : KeptBut (fun i => pos ≤ i ∧ i < pos + wrsz) f _ := hfirst.mono fun i hi => by omega
    unfold writeRoom
    dsimp only
    generalize f.checkedWrite faults.head?.join pos (blk.take wrsz) ex ex' = r at hfirst ⊢
    obtain ⟨res, g⟩ := r
    cases res with
    | error e => exact hfirst
    | ok u =>
      dsimp only
      split
      · exact hfirst
      · exact hfirst.trans ((ih g _ _ _).mono fun i hi => by omega)

/-! ### The write of a header -/

theorem length_header (hin : pos + kRoomHeaderSize ≤ f.storage.size) : (f.header pos).length = 5 :=
  length_read (by show pos + 4 + 5 ≤ _; exact hin)

theorem length_headerBytes : (headerBytes key).length = 5 := by
  rw [headerBytes, length_append, length_bytes]
  rfl

/-- What is on disk when a header has been put in part: from the byte `a` on, `n` bytes. -/
theorem header_put {new : List UInt8} {a : ℕ} (extra : List UInt8) (hin : pos + kRoomHeaderSize ≤ f.storage.size)
    (hnew : new.length = 5) (ha : (f.header pos).take a = new.take a) (n : ℕ) :
    (f.writeStorage (pos + kOffset_RoomType + a) (((new ++ extra).drop a).take n)).header pos =
      new.take (a + n) ++ (f.header pos).drop (a + n) := by
  have hin' : pos + 9 ≤ f.storage.size := hin
  let data := ((new ++ extra).drop a).take n
  have hold := length_header hin
  have hsize : f.storage.size ≤ (f.storage.write (pos + 4 + a) data).size := le_size_write _ _ _
  have hput : ((f.storage.write (pos + 4 + a) data).read (pos + 4) 5).length = 5 := length_read (by omega)
  have hdata : data.length = min n (5 + extra.length - a) := by
    rw [length_take, length_drop, length_append, hnew]
  have hright : (new.take (a + n) ++ (f.header pos).drop (a + n)).length = 5 := by
    rw [length_append, length_take, length_drop, hnew, hold]
    omega
  show (f.storage.write (pos + 4 + a) data).read (pos + 4) 5 = _
  apply ext_getElem (hput.trans hright.symm)
  intro i hi hi'
  rw [hput] at hi
  have hbyte : (f.header pos)[i] = f.storage.byte (pos + 4 + i) := getElem_read _
  rw [getElem_read, byte_write]
  by_cases hbefore : i < a
  · have heq : (f.header pos)[i] = new[i] := by
      have htake := congrArg (·[i]?) ha
      simpa [getElem?_take, hbefore, hi, hold, hnew] using htake
    rw [if_neg (by omega), if_pos (by omega), ← hbyte, heq, getElem_append_left (by rw [length_take]; omega),
      getElem_take]
  by_cases hin : i < a + n
  · have hget : data[i - a]? = some new[i] := by
      rw [getElem?_take_of_lt (by omega), getElem?_drop, Nat.add_sub_cancel' (by omega),
        getElem?_append_left (by omega), getElem?_eq_getElem]
    have hofs : pos + 4 + i - (pos + 4 + a) = i - a := by omega
    rw [if_pos (by omega), hofs, getD_eq_getElem?_getD, hget, Option.getD_some,
      getElem_append_left (by rw [length_take]; omega), getElem_take]
  · have hlen : (new.take (a + n)).length = a + n := by
      rw [length_take]
      omega
    rw [if_neg (by omega), if_pos (by omega), ← hbyte, getElem_append_right (by omega), getElem_drop]
    congr 1
    omega

/-- A key with another header. -/
def RoomKey.headed (newsz : ℕ) : RoomKey :=
  { key with currentRoomType := key.pendingRoomType, dataSize := newsz }

theorem RoomKey.headed_self {key : RoomKey} {newsz : ℕ} (htype : key.currentRoomType = key.pendingRoomType)
    (hsize : key.dataSize = newsz) : key.headed newsz = key := by
  obtain ⟨roomPos, roomSize, dataSize, current, pending⟩ := key
  dsimp only at htype hsize
  subst htype hsize
  rfl

/-- The bytes of the new header that the write does not put, from the byte `a` on, are there already. -/
def Put (newsz a : ℕ) : Option WriteFault → Prop
  | none => True
  | some fault => (headerBytes (key.headed newsz)).drop (a + fault.written) = (headerBytes key).drop (a + fault.written)

instance (key : RoomKey) (newsz a : ℕ) : (fault : Option WriteFault) → Decidable (Put key newsz a fault)
  | none => inferInstanceAs (Decidable True)
  | some _ => inferInstanceAs (Decidable (_ = _))

/-- A checked write of a part of the new header leaves the new header exactly if it puts what differs. -/
theorem header_checkedWrite {old new : List UInt8} (a count : ℕ) (extra : List UInt8)
    (hin : pos + kRoomHeaderSize ≤ f.storage.size) (hold : f.header pos = old) (hnew : new.length = 5)
    (hdata : data = ((new ++ extra).drop a).take count) (ha : old.take a = new.take a)
    (hrest : old.drop (a + count) = new.drop (a + count)) (fault : Option WriteFault) (ex ex' : String) :
    (f.checkedWrite fault (pos + kOffset_RoomType + a) data ex ex').2.header pos = new ↔
      ∀ w, fault = some w → new.drop (a + w.written) = old.drop (a + w.written) := by
  subst hold hdata
  have hput : ∀ m, (f.writeStorage (pos + kOffset_RoomType + a) (((new ++ extra).drop a).take m)).header pos =
      new ↔ new.drop (a + m) = (f.header pos).drop (a + m) := by
    intro m
    rw [header_put extra hin hnew ha m]
    constructor
    · intro heq
      have hsplit := heq.trans (take_append_drop (a + m) new).symm
      exact (append_cancel_left hsplit).symm
    · intro heq
      rw [← heq, take_append_drop]
  have hpart : ∀ w : ℕ, (f.writeStorage (pos + kOffset_RoomType + a)
      ((((new ++ extra).drop a).take count).take w)).header pos = new ↔
      new.drop (a + w) = (f.header pos).drop (a + w) := by
    intro w
    rw [take_take, hput]
    by_cases hw : w ≤ count
    · rw [Nat.min_eq_left hw]
    · have hmore : ∀ l : List UInt8, l.drop (a + w) = (l.drop (a + count)).drop (w - count) := by
        intro l
        rw [drop_drop]
        congr 1
        omega
      rw [Nat.min_eq_right (by omega), hmore new, hmore (f.header pos), hrest]
      exact iff_of_true rfl rfl
  cases fault with
  | none =>
    refine iff_of_true ?_ (fun w hw => by cases hw)
    exact (hput count).mpr hrest.symm
  | some w =>
    rw [show (∀ w', some w = some w' → new.drop (a + w'.written) = (f.header pos).drop (a + w'.written)) ↔
        new.drop (a + w.written) = (f.header pos).drop (a + w.written) from
      ⟨fun h => h w rfl, fun h w' hw' => by cases hw'; exact h⟩]
    cases w with
    | error w => exact hpart w
    | short w => exact hpart w

theorem put_iff (newsz a : ℕ) (fault : Option WriteFault) : Put key newsz a fault ↔ ∀ w, fault = some w →
    (headerBytes (key.headed newsz)).drop (a + w.written) = (headerBytes key).drop (a + w.written) := by
  cases fault with
  | none => exact iff_of_true trivial (fun w hw => by cases hw)
  | some w => exact ⟨fun h w' hw' => by cases hw'; exact h, fun h => h w rfl⟩

/-- Other bytes than those of the header do not matter to it. -/
theorem KeptBut.header {range : ℕ → Prop} (h : KeptBut range f g) (hin : pos + kRoomHeaderSize ≤ f.storage.size)
    (hout : ∀ i, range i → pos + kRoomHeaderSize ≤ i) : g.header pos = f.header pos := by
  have hin' : pos + 4 + 5 ≤ f.storage.size := hin
  refine read_congr (hin'.trans h.size) hin' fun i _ hi => ?_
  have hlt : i < pos + 4 + 5 := hi
  refine h.byte i (by omega) fun hr => ?_
  have hge : pos + 9 ≤ i := hout i hr
  omega

namespace KeyedFile

/-- Where the write of the header begins in `UpdateRoomHeader`: behind the type where that stays. -/
def headerFrom (key : RoomKey) : ℕ := if key.currentRoomType = key.pendingRoomType then 1 else 0

theorem updateRoomHeader_key (s : KeyedFile) (newsz : ℕ) (fault : Option WriteFault) (ex ex' : String) :
    (s.updateRoomHeader newsz fault ex ex').2.key = s.key.headed newsz := by
  obtain ⟨⟨roomPos, roomSize, dataSize, current, pending⟩, file⟩ := s
  unfold updateRoomHeader RoomKey.headed
  dsimp only
  by_cases htype : current = pending
  · subst htype
    by_cases hsize : dataSize = newsz
    · subst hsize
      rw [if_pos rfl, if_neg (not_not_intro rfl)]
    · rw [if_pos rfl, if_pos hsize]
  · rw [if_neg htype]

theorem updateRoomHeader_kept (s : KeyedFile) (newsz : ℕ) (fault : Option WriteFault) (ex ex' : String) :
    KeptBut (fun i => s.key.roomPos + 4 ≤ i ∧ i < s.key.roomPos + kRoomHeaderSize) s.file
      (s.updateRoomHeader newsz fault ex ex').2.file := by
  have h9 : kRoomHeaderSize = 9 := rfl
  unfold updateRoomHeader
  by_cases htype : s.key.currentRoomType = s.key.pendingRoomType
  · by_cases hsize : s.key.dataSize ≠ newsz
    · rw [if_pos htype, if_pos hsize]
      refine (keptBut_checkedWrite s.file fault _ _ ex ex').mono fun i hi => ?_
      rw [length_bytes] at hi
      unfold kOffset_DataSize at hi
      omega
    · rw [if_pos htype, if_neg hsize]
      exact KeptBut.refl _ _
  · rw [if_neg htype]
    refine (keptBut_checkedWrite s.file fault _ _ ex ex').mono fun i hi => ?_
    have hlen : (List.take (if s.key.dataSize = newsz then 1 else 5)
        ([s.key.pendingRoomType] ++ bytes 4 newsz)).length ≤ 5 := by
      rw [length_take, length_append, length_bytes, length_singleton]
      omega
    unfold kOffset_RoomType at hi
    omega

/-- After `UpdateRoomHeader` the key and the header say the same exactly if what differs was put. -/
theorem updateRoomHeader_coherent {newsz : ℕ} (hin : s.Inside) (hc : s.Coherent) (hlt : newsz < 2 ^ 32)
    (fault : Option WriteFault) (ex ex' : String) :
    (s.updateRoomHeader newsz fault ex ex').2.Coherent ↔ Put s.key newsz (headerFrom s.key) fault := by
  have hkey := s.updateRoomHeader_key newsz fault ex ex'
  have hkept := s.updateRoomHeader_kept newsz fault ex ex'
  obtain ⟨hold, -⟩ := (coherent_iff hin).mp hc
  have hin' : (s.updateRoomHeader newsz fault ex ex').2.Inside := by
    rw [Inside, hkey]
    exact le_trans hin hkept.size
  rw [coherent_iff hin', hkey, put_iff, and_iff_left (show (s.key.headed newsz).dataSize < 2 ^ 32 from hlt)]
  show InnFile.header _ s.key.roomPos = _ ↔ _
  have hnew := length_headerBytes (s.key.headed newsz)
  have hold5 := length_headerBytes s.key
  have hend : ∀ n, 5 ≤ n → (headerBytes s.key).drop n = (headerBytes (s.key.headed newsz)).drop n := by
    intro n hn
    rw [drop_of_length_le (by omega), drop_of_length_le (by omega)]
  have hbytes : (bytes 4 newsz).length = 4 := length_bytes 4 newsz
  unfold updateRoomHeader headerFrom
  by_cases htype : s.key.currentRoomType = s.key.pendingRoomType
  · rw [if_pos htype, if_pos htype]
    by_cases hsize : s.key.dataSize = newsz
    · -- nothing is written
      have hsame : s.key.headed newsz = s.key := RoomKey.headed_self htype hsize
      rw [if_neg (not_not_intro hsize), hsame]
      exact iff_of_true hold fun w _ => rfl
    · rw [if_pos hsize]
      refine header_checkedWrite 1 4 [] hin hold hnew ?_ ?_ (hend _ (le_refl 5)) fault ex ex'
      · rw [append_nil, headerBytes, singleton_append, drop_one, tail_cons]
        exact (take_of_length_le (le_of_eq hbytes)).symm
      · rw [headerBytes, headerBytes, htype]
        rfl
  · rw [if_neg htype, if_neg htype]
    refine header_checkedWrite 0 (if s.key.dataSize = newsz then 1 else 5) [] hin hold hnew ?_ rfl ?_ fault ex ex'
    · rw [append_nil, drop_zero]
      rfl
    · by_cases hsize : s.key.dataSize = newsz
      · rw [if_pos hsize, headerBytes, headerBytes, hsize]
        rfl
      · rw [if_neg hsize]
        exact hend 5 (le_refl 5)

end KeyedFile

end Fon9.Inn
