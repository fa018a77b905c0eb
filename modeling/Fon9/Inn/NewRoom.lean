import Fon9.Inn.Layout

/-! Runs of `MakeNewRoom` on a new file. The rooms tile the file throughout a run exactly
if the block count of every room that is made is computed without wrapping. -/

namespace Fon9.Inn

open Lib List ByteFile InnFile Except

variable {f : InnFile} {keys : List RoomKey}

theorem le_grownSize (h : Laid f keys) (size : ℕ) : f.fileSize ≤ f.grownSize size := by
  have hlt := h.size_lt
  have hmod := Nat.mod_lt (f.newBlockCount size * f.blockSize) (Nat.two_pow_pos 32)
  unfold InnFile.grownSize u64 u32
  omega

/-- A room at the end of the file joins the others. -/
theorem makeNewRoom_laid {roomType : InnRoomType} {size : ℕ} {fault : InnFile.Fault} (h : Laid f keys)
    (hfits : Fits f.blockSize size) (hgrow : f.cannotGrow size fault = false)
    (hfault : ∀ n, fault ≠ .write n) :
    ∃ key g, f.makeNewRoom roomType size fault = (.ok key, g) ∧ size ≤ key.roomSize ∧
      key.roomPos = f.fileSize ∧ key.dataSize = 0 ∧ key.currentRoomType = roomType ∧
      Laid g (keys ++ [key]) ∧ g.headerSize = f.headerSize ∧ g.blockSize = f.blockSize ∧
      g.fileSize = key.nextRoomPos ∧ f.fileSize ≤ g.fileSize ∧
      (∀ i < f.fileSize, g.storage.byte i = f.storage.byte i) ∧ g.storage.size = g.fileSize := by
  obtain ⟨hlow, hhigh, hsize, hroom⟩ := newBlockCount_fits h.block_pos h.block_lt hfits
  have h9 : kRoomHeaderSize = 9 := rfl
  have hgrown : f.grownSize size = f.fileSize + f.blockSize * f.newBlockCount size := by
    have hlt := h.size_lt
    rw [InnFile.grownSize, mul_comm, u32_of_lt hhigh, u64]
    omega
  simp only [cannotGrow, Bool.or_eq_false_iff, decide_eq_false_iff_not, not_le] at hgrow
  have hcount : f.newBlockCount size < 2 ^ 32 := by
    have := Nat.le_mul_of_pos_left (f.newBlockCount size) h.block_pos
    omega
  let key : RoomKey := ⟨f.fileSize, f.calcRoomSize (f.newBlockCount size), 0, roomType, roomType⟩
  let header := roomHeader (f.newBlockCount size) roomType 0
  let g : InnFile := { f with
    storage := (f.storage.setSize (f.grownSize size)).write f.fileSize header
    fileSize := f.grownSize size }
  have hlen : header.length = kRoomHeaderSize := length_roomHeader ..
  have hheader : header ≠ [] := by
    intro hnil
    rw [hnil] at hlen
    cases hlen
  have hnext : key.nextRoomPos = f.grownSize size := by
    show f.fileSize + f.calcRoomSize (f.newBlockCount size) + kRoomHeaderSize = _
    omega
  have hstored : g.storage.size = f.grownSize size := by
    show (ByteFile.write _ _ _).size = _
    rw [size_write]
    · rfl
    · show f.fileSize + header.length ≤ f.grownSize size
      omega
  have hbyte : ∀ i < f.fileSize, g.storage.byte i = f.storage.byte i := by
    intro i hi
    have hs := h.stored
    have hi' : i < f.grownSize size := by omega
    show (ByteFile.write _ _ _).byte i = _
    rw [byte_write_of_lt hi hi', byte_setSize hi' (by omega)]
  have hdisk : OnDisk g key := by
    refine ⟨⟨f.newBlockCount size, hcount, rfl, ?_⟩, rfl, hroom, Nat.zero_le _, Nat.two_pow_pos 32, ?_⟩
    · show ByteFile.read _ f.fileSize kRoomHeaderSize = header
      rw [← hlen]
      exact read_write hheader
    · exact Dvd.intro _ hsize.symm
  refine ⟨key, g, ?_, ?_, rfl, rfl, rfl, ?_, rfl, rfl, hnext.symm, ?_, hbyte, hstored⟩
  · have hgrow' : f.cannotGrow size fault = false := by
      simp only [cannotGrow, Bool.or_eq_false_iff, decide_eq_false_iff_not, not_le]
      exact hgrow
    unfold InnFile.makeNewRoom
    rw [if_neg (ne_of_gt h.block_pos)]
    simp only [hgrow', Bool.false_eq_true, if_false]
    cases fault with
    | none => rfl
    | setFileSize => rfl
    | write n => exact absurd rfl (hfault n)
  · show size ≤ f.calcRoomSize (f.newBlockCount size)
    omega
  · have hold : Tiles g f.headerSize keys f.fileSize := by
      refine h.tiles.congr rfl h.stored ?_ hbyte
      rw [hstored]
      omega
    refine ⟨h.block_pos, h.block_lt, h.header_pos, ?_, ?_, hgrow.2⟩
    · have hnew : Tiles g f.headerSize (keys ++ [key]) key.nextRoomPos := hold.append rfl hdisk
      rw [hnext] at hnew
      exact hnew
    · rw [hstored]
  · show f.fileSize ≤ f.grownSize size
    omega

/-- A call that throws leaves the rooms as they were. -/
theorem makeNewRoom_fails (roomType : InnRoomType) {size : ℕ} {fault : InnFile.Fault} (h : Laid f keys)
    (hfail : f.cannotGrow size fault = true ∨ ∃ n, fault = .write n) :
    ∃ e g, f.makeNewRoom roomType size fault = (.error e, g) ∧ Laid g keys ∧
      g.headerSize = f.headerSize ∧ g.blockSize = f.blockSize ∧ g.fileSize = f.fileSize := by
  have hback : ∀ storage : ByteFile, (∀ i < f.fileSize, i < storage.size) →
      (∀ i < f.fileSize, storage.byte i = f.storage.byte i) →
      Laid { f with storage := storage.setSize f.fileSize } keys := by
    intro storage hsize hbyte
    refine ⟨h.block_pos, h.block_lt, h.header_pos, ?_, le_rfl, h.size_lt⟩
    refine h.tiles.congr rfl h.stored le_rfl (fun i hi => ?_)
    exact (byte_setSize hi (hsize i hi)).trans (hbyte i hi)
  have hstored := h.stored
  unfold InnFile.makeNewRoom
  rw [if_neg (ne_of_gt h.block_pos)]
  cases hgrow : f.cannotGrow size fault with
  | true => exact ⟨_, _, rfl, hback f.storage (fun i hi => by omega) (fun i _ => rfl), rfl, rfl, rfl⟩
  | false =>
    obtain ⟨n, rfl⟩ := hfail.resolve_left (by simp [hgrow])
    have hgrown := le_grownSize h size
    have hsize : f.grownSize size ≤ ((f.storage.setSize (f.grownSize size)).write f.fileSize
        ((roomHeader (f.newBlockCount size) roomType 0).take n)).size :=
      le_size_write (f.storage.setSize (f.grownSize size)) _ _
    refine ⟨_, _, rfl, hback _ (fun i hi => by omega) (fun i hi => ?_), rfl, rfl, rfl⟩
    have hi' : i < f.grownSize size := by omega
    rw [byte_write_of_lt hi hi', byte_setSize hi' (by omega)]

/-! ### Runs -/

structure NewRoomRequest where
  roomType : InnRoomType
  size : UInt32
  fault : InnFile.Fault
  deriving DecidableEq, Repr

/-- A file, and the rooms that were made with the sizes that were asked for. -/
structure RoomsState where
  file : InnFile
  rooms : List (ℕ × RoomKey)

/-- The storage fails the call. -/
def NewRoomRequest.fails (req : NewRoomRequest) (f : InnFile) : Bool :=
  f.cannotGrow req.size.toNat req.fault || match req.fault with | .write _ => true | _ => false

def RoomsState.makeNewRoom (s : RoomsState) (req : NewRoomRequest) : RoomsState :=
  match s.file.makeNewRoom req.roomType req.size.toNat req.fault with
  | (.ok key, g) => ⟨g, s.rooms ++ [(req.size.toNat, key)]⟩
  | (.error _, g) => ⟨g, s.rooms⟩

/-- The rooms are as large as asked for, lie in the file, are disjoint and cover the file,
and a walk visits them once, in the order in which they were made. -/
structure Tiled (s : RoomsState) : Prop where
  large : ∀ r ∈ s.rooms, r.1 ≤ r.2.roomSize
  inside : ∀ r ∈ s.rooms, s.file.headerSize ≤ r.2.roomPos ∧ r.2.nextRoomPos ≤ s.file.fileSize
  disjoint : s.rooms.Pairwise fun a b => a.2.nextRoomPos ≤ b.2.roomPos
  cover : ∀ x, s.file.headerSize ≤ x → x < s.file.fileSize →
    ∃ r ∈ s.rooms, r.2.roomPos ≤ x ∧ x < r.2.nextRoomPos
  walks : ∀ fuel, s.rooms.length < fuel → s.file.walk fuel = .ok (s.rooms.map Prod.snd)

/-- The request fails, or the number of its blocks is computed without wrapping. -/
def Meets (s : RoomsState) (req : NewRoomRequest) : Prop :=
  req.fails s.file = true ∨ Fits s.file.blockSize req.size.toNat

instance (s : RoomsState) (req : NewRoomRequest) : Decidable (Meets s req) :=
  inferInstanceAs (Decidable (_ ∨ _))

/-- The invariant of the runs. -/
structure RoomsInv (s : RoomsState) : Prop where
  laid : Laid s.file (s.rooms.map Prod.snd)
  large : ∀ r ∈ s.rooms, r.1 ≤ r.2.roomSize

theorem Tiles.pairwise {pos stop : ℕ} (h : Tiles f pos keys stop) :
    keys.Pairwise fun a b => a.nextRoomPos ≤ b.roomPos := by
  induction keys generalizing pos with
  | nil => exact List.Pairwise.nil
  | cons key keys ih =>
    obtain ⟨-, -, hrest⟩ := h
    exact pairwise_cons.mpr ⟨fun b hb => (hrest.mem hb).2.1, ih hrest⟩

theorem Tiles.cover {pos stop x : ℕ} (h : Tiles f pos keys stop) (hfrom : pos ≤ x) (hto : x < stop) :
    ∃ key ∈ keys, key.roomPos ≤ x ∧ x < key.nextRoomPos := by
  induction keys generalizing pos with
  | nil =>
    have : pos = stop := h
    omega
  | cons key keys ih =>
    obtain ⟨hpos, -, hrest⟩ := h
    by_cases hx : x < key.nextRoomPos
    · exact ⟨key, mem_cons_self, by omega, hx⟩
    · obtain ⟨key', hkey', hin⟩ := ih hrest (by omega)
      exact ⟨key', mem_cons_of_mem _ hkey', hin⟩

theorem RoomsInv.tiled {s : RoomsState} (h : RoomsInv s) : Tiled s where
  large := h.large
  inside r hr := by
    have hmem : r.2 ∈ s.rooms.map Prod.snd := mem_map_of_mem hr
    exact (h.laid.tiles.mem hmem).2
  disjoint := pairwise_map.mp h.laid.tiles.pairwise
  cover x hfrom hto := by
    obtain ⟨key, hkey, hin⟩ := h.laid.tiles.cover hfrom hto
    obtain ⟨r, hr, rfl⟩ := mem_map.mp hkey
    exact ⟨r, hr, hin⟩
  walks fuel hfuel := h.laid.walk (by rwa [length_map])

theorem RoomsInv.makeNewRoom {s : RoomsState} (req : NewRoomRequest) (h : RoomsInv s)
    (hmeets : Meets s req) : RoomsInv (s.makeNewRoom req) := by
  cases hfails : req.fails s.file with
  | true =>
    have hfail : s.file.cannotGrow req.size.toNat req.fault = true ∨ ∃ n, req.fault = .write n := by
      rw [NewRoomRequest.fails, Bool.or_eq_true] at hfails
      rcases hfails with hgrow | hwrite
      · exact .inl hgrow
      · cases hfault : req.fault with
        | write n => exact .inr ⟨n, rfl⟩
        | none => simp [hfault] at hwrite
        | setFileSize => simp [hfault] at hwrite
    obtain ⟨e, g, heq, hlaid, -⟩ := makeNewRoom_fails req.roomType h.laid hfail
    rw [RoomsState.makeNewRoom, heq]
    exact ⟨hlaid, h.large⟩
  | false =>
    have hfits := hmeets.resolve_left (by simp [hfails])
    rw [NewRoomRequest.fails, Bool.or_eq_false_iff] at hfails
    have hfault : ∀ n, req.fault ≠ .write n := by
      intro n hn
      simp [hn] at hfails
    obtain ⟨key, g, heq, hsize, -, -, -, hlaid, -⟩ :=
      @makeNewRoom_laid _ _ req.roomType _ _ h.laid hfits hfails.1 hfault
    rw [RoomsState.makeNewRoom, heq]
    refine ⟨?_, ?_⟩
    · rw [map_append]
      exact hlaid
    · intro r hr
      rcases mem_append.mp hr with hr | hr
      · exact h.large r hr
      · rw [mem_singleton] at hr
        rw [hr]
        exact hsize

/-! ### Only such runs tile the file -/

/-- `MakeRoomKey` gives no room without room for data. -/
theorem makeRoomKey_roomSize {pos ex : ℕ} {key : RoomKey} {data : List UInt8}
    (h : f.makeRoomKey pos ex = .ok (key, data)) : key.roomPos = 0 ∨ key.roomSize ≠ 0 := by
  unfold InnFile.makeRoomKey at h
  simp only [bind, Except.bind, pure, Except.pure, throw, throwThe, MonadExceptOf.throw] at h
  generalize (if pos = 0 then f.headerSize else pos) = pos' at h
  generalize (if u32 (kRoomHeaderSize + ex) > kRoomHeaderSize + 128 then kRoomHeaderSize
    else u32 (kRoomHeaderSize + ex)) = sz at h
  split at h
  · cases h
  split at h
  · simp only [ok.injEq, Prod.mk.injEq] at h
    exact .inl (by rw [← h.1])
  split at h
  · cases h
  split at h
  · cases h
  next hbad =>
    rw [not_or, not_or] at hbad
    right
    split at h
    · split at h
      · cases h
      · simp only [ok.injEq, Prod.mk.injEq] at h
        rw [← h.1]
        exact hbad.2.1
    · simp only [ok.injEq, Prod.mk.injEq] at h
      rw [← h.1]
      exact hbad.2.1

theorem walkFrom_roomSize {fuel : ℕ} {start : Except InnError RoomKey}
    (hstart : ∀ key, start = .ok key → key.roomPos = 0 ∨ key.roomSize ≠ 0)
    (h : f.walkFrom fuel start = .ok keys) : ∀ key ∈ keys, key.roomSize ≠ 0 := by
  induction fuel generalizing start keys with
  | zero => cases start <;> cases h
  | succ fuel ih =>
    cases start with
    | error e => cases h
    | ok key =>
      rw [walkFrom] at h
      by_cases hpos : key.roomPos = 0
      · rw [if_pos hpos] at h
        cases h
        exact fun key hkey => by cases hkey
      · rw [if_neg hpos] at h
        cases hrest : f.walkFrom fuel ((f.makeNextRoomKey key 0).map Prod.fst) with
        | error e => simp [hrest, bind, Except.bind] at h
        | ok rest =>
          simp only [hrest, bind, Except.bind, pure, Except.pure, ok.injEq] at h
          subst h
          intro key' hkey'
          rcases mem_cons.mp hkey' with rfl | hkey'
          · exact (hstart _ rfl).resolve_left hpos
          · refine ih ?_ hrest key' hkey'
            intro next hnext
            rw [makeNextRoomKey, if_neg hpos] at hnext
            cases hmake : f.makeRoomKey key.nextRoomPos 0 with
            | error e => simp [hmake, Except.map] at hnext
            | ok r =>
              simp only [hmake, Except.map, ok.injEq] at hnext
              subst hnext
              exact makeRoomKey_roomSize hmake

/-- A room that holds what was asked for and ends in the file has the right block count. -/
theorem fits_of_room {size : ℕ} (hblock : 0 < f.blockSize) (hlt : f.blockSize < 2 ^ 32)
    (hsize : size < 2 ^ 32) (hlarge : size ≤ f.calcRoomSize (f.newBlockCount size))
    (hinside : f.calcRoomSize (f.newBlockCount size) + kRoomHeaderSize ≤
      u32 (f.newBlockCount size * f.blockSize))
    (hroom : f.calcRoomSize (f.newBlockCount size) ≠ 0) : Fits f.blockSize size := by
  have h9 : kRoomHeaderSize = 9 := rfl
  have hdiv : f.blockSize * f.newBlockCount size ≤ u32 (size + kRoomHeaderSize + f.blockSize - 1) := by
    rw [newBlockCount]
    exact Nat.mul_div_le _ _
  have hmod := Nat.mod_lt (size + kRoomHeaderSize + f.blockSize - 1) (Nat.two_pow_pos 32)
  rw [mul_comm, u32_of_lt (lt_of_le_of_lt hdiv hmod)] at hinside
  have hne : f.newBlockCount size ≠ 0 := by
    intro hzero
    rw [hzero] at hinside
    omega
  have hcalc : f.calcRoomSize (f.newBlockCount size) =
      u32 (f.blockSize * f.newBlockCount size + 2 ^ 32 - kRoomHeaderSize) := by
    rw [calcRoomSize, if_pos hne]
  have hexact : f.calcRoomSize (f.newBlockCount size) + kRoomHeaderSize =
      f.blockSize * f.newBlockCount size := by
    unfold u32 at hdiv hcalc
    omega
  constructor
  · unfold u32 at hdiv
    omega
  · rintro ⟨rfl, hdvd⟩
    apply hroom
    have hrest : f.blockSize ∣ f.calcRoomSize (f.newBlockCount 0) := by
      rw [← Nat.dvd_add_left hdvd, hexact]
      exact Nat.dvd_mul_right _ _
    apply Nat.eq_zero_of_dvd_of_lt hrest
    unfold u32 at hdiv
    have hle := Nat.le_of_dvd (by omega) hdvd
    omega

theorem Tiled.meets {s : RoomsState} (req : NewRoomRequest) (hinv : RoomsInv s)
    (h : Tiled (s.makeNewRoom req)) : Meets s req := by
  by_contra hno
  rw [Meets, not_or, Bool.not_eq_true] at hno
  obtain ⟨hfails, hfits⟩ := hno
  rw [NewRoomRequest.fails, Bool.or_eq_false_iff] at hfails
  obtain ⟨hgrow, hwrite⟩ := hfails
  have hlt := hinv.laid.size_lt
  have hmod := Nat.mod_lt (s.file.newBlockCount req.size.toNat * s.file.blockSize) (Nat.two_pow_pos 32)
  let key : RoomKey := ⟨s.file.fileSize, s.file.calcRoomSize (s.file.newBlockCount req.size.toNat), 0,
    req.roomType, req.roomType⟩
  have hmade : ∃ g : InnFile, s.makeNewRoom req = ⟨g, s.rooms ++ [(req.size.toNat, key)]⟩ ∧
      g.fileSize = s.file.grownSize req.size.toNat := by
    unfold RoomsState.makeNewRoom InnFile.makeNewRoom
    rw [if_neg (ne_of_gt hinv.laid.block_pos)]
    simp only [hgrow, Bool.false_eq_true, if_false]
    cases hfault : req.fault with
    | none => exact ⟨_, rfl, rfl⟩
    | setFileSize => exact ⟨_, rfl, rfl⟩
    | write n => simp [hfault] at hwrite
  obtain ⟨g, hmade, hg⟩ := hmade
  rw [hmade] at h
  have hmem : (req.size.toNat, key) ∈ s.rooms ++ [(req.size.toNat, key)] := mem_concat_self
  have hlarge := h.large _ hmem
  have hinside := (h.inside _ hmem).2
  have hwalk := h.walks _ (Nat.lt_succ_self _)
  apply hfits
  refine fits_of_room hinv.laid.block_pos hinv.laid.block_lt req.size.toNat_lt hlarge ?_ ?_
  · have hend : s.file.fileSize + s.file.calcRoomSize (s.file.newBlockCount req.size.toNat) +
        kRoomHeaderSize ≤ g.fileSize := hinside
    rw [hg, InnFile.grownSize] at hend
    unfold u64 u32 at hend
    unfold u32
    omega
  · refine walkFrom_roomSize ?_ hwalk key (mem_map_of_mem hmem)
    intro first hfirst
    cases hmake : g.makeRoomKey 0 0 with
    | error e => simp [hmake, Except.map] at hfirst
    | ok r =>
      simp only [hmake, Except.map, ok.injEq] at hfirst
      subst hfirst
      exact makeRoomKey_roomSize hmake

/-! ### New files -/

/-- The file that `Open` makes of an empty one. -/
def newFile (blockSize : ℕ) : InnFile :=
  ⟨ByteFile.empty.write 0 (InnFile.newHeader blockSize), kInnHeaderSize, blockSize, kInnHeaderSize⟩

theorem open_empty (blockSize : ℕ) : InnFile.open ByteFile.empty blockSize = .ok (newFile blockSize, 0) :=
  rfl

theorem newFile_inv {blockSize : ℕ} (hblock : 0 < blockSize) (hlt : blockSize < 2 ^ 32) :
    RoomsInv ⟨newFile blockSize, []⟩ where
  laid :=
    { block_pos := hblock
      block_lt := hlt
      header_pos := Nat.succ_pos _
      tiles := rfl
      stored := by
        have hlen : (newHeader blockSize).length = 64 := by simp [newHeader, kInnHeaderStr]
        have hne : newHeader blockSize ≠ [] := ne_nil_of_length_pos (by omega)
        show 64 ≤ (ByteFile.empty.write 0 (newHeader blockSize)).size
        rw [ByteFile.write, if_neg hne, hlen]
        exact Nat.le_max_right _ _
      size_lt := show 64 < 2 ^ 63 by decide }
  large r hr := by cases hr

/-- A file whose blocks have no size cannot be walked. -/
theorem not_tiled_of_zero : ¬ Tiled ⟨newFile 0, []⟩ := by
  intro h
  have hwalk := h.walks 1 Nat.one_pos
  cases hwalk

/-- Throughout a run of `MakeNewRoom` on a new file the rooms tile the file exactly if the
blocks have a size and every call fails or computes its block count without wrapping. -/
theorem tiled_throughout_iff (blockSize : UInt32) (reqs : List NewRoomRequest) :
    Throughout RoomsState.makeNewRoom Tiled ⟨newFile blockSize.toNat, []⟩ reqs ↔
      0 < blockSize ∧ Along RoomsState.makeNewRoom Meets ⟨newFile blockSize.toNat, []⟩ reqs := by
  by_cases hblock : 0 < blockSize
  · have hpos : 0 < blockSize.toNat := hblock
    rw [and_iff_right hblock]
    exact throughout_iff_along (fun s h => h.tiled) (fun s req h hmeets => h.makeNewRoom req hmeets)
      (fun s req h htiled => htiled.meets req h) (newFile_inv hpos blockSize.toNat_lt)
  · have hzero : blockSize.toNat = 0 := Nat.eq_zero_of_not_pos hblock
    rw [hzero]
    have hno := not_tiled_of_zero
    refine iff_of_false ?_ (fun h => absurd h.1 hblock)
    cases reqs with
    | nil => exact hno
    | cons req reqs => exact fun h => hno h.1

/-- A room of the greatest size in blocks of 64 bytes gets a single block. -/
theorem greatest_room_not_tiled : ¬ Throughout RoomsState.makeNewRoom Tiled ⟨newFile 64, []⟩
    [⟨0x10, 0xffffffff, .none⟩] := by
  rintro ⟨-, h⟩
  have hlarge := h.large (0xffffffff, ⟨64, 55, 0, 0x10, 0x10⟩) List.mem_cons_self
  exact absurd hlarge (by decide)

end Fon9.Inn
