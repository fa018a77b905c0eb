import Fon9.Inn.Overlay

/-! A write that begins at the first of the loaded rooms, with a new room behind the last one. It goes
through all rooms, makes new ones for what is left, and ends. -/

namespace Fon9.Inn

open Lib List InnStream Option

variable {f g : InnFile} {cells cells' front back : List Room} {c : Room} {s : InnStream}
  {blocks init : List Block} {b prv : Block} {key : RoomKey} {top unset : ℕ} {w : InnStream.Working} {buf : Bytes}

/-! ### The new room -/

namespace InnStream

/-- The size that `AddNewRoom` asks for. -/
def newRoomSize (s : InnStream) (blockCount : ℕ) : ℕ :=
  (s.openArgs.expectedRoomSize.getD (min blockCount (s.openArgs.expectedRoomSize.length - 1)) 0).toNat

/-- The file has no room for another block, or one in which the header does not fit. -/
def Refuses (s : InnStream) (blockCount : ℕ) : Prop :=
  s.file.cannotGrow (s.newRoomSize blockCount) .none = true ∨
    s.file.calcRoomSize (s.file.newBlockCount (s.newRoomSize blockCount)) < kStreamHeaderSize

instance (s : InnStream) (blockCount : ℕ) : Decidable (s.Refuses blockCount) := inferInstanceAs (Decidable (_ ∨ _))

end InnStream

/-- The block of the room that `AddNewRoom` makes, with its header written. -/
def newBlock (s : InnStream) (prv : Block) : Block where
  roomKey := { s.file.newKey s.openArgs.roomType (s.newRoomSize s.blockList.length) with
    dataSize := kStreamHeaderSize }
  sPos := u64 (prv.sPos + prv.payloadSize)

theorem addNewRoom_of_fails {e : InnError}
    (hmake : s.file.makeNewRoom s.openArgs.roomType (s.newRoomSize s.blockList.length) .none = (.error e, g)) :
    s.addNewRoom unset .wr = (.error e, { s with file := g }) := by
  unfold newRoomSize at hmake
  unfold addNewRoom
  dsimp only
  rw [hmake]

theorem addNewRoom_of_made
    (hmake : s.file.makeNewRoom s.openArgs.roomType (s.newRoomSize s.blockList.length) .none = (.ok key, g))
    (hlast : s.blockList = init ++ [prv]) :
    s.addNewRoom unset .wr =
      match g.write key 0 kStreamHeaderSize (replicate kStreamHeaderSize 0) with
      | .error e => (.error e, { s with file := g, blockList := s.blockList ++ [⟨key, unset⟩] })
      | .ok (key, g) =>
        match g.write prv.roomKey 0 kStreamHeaderSize (BigEndian.bytes 8 key.roomPos) with
        | .error e => (.error e,
            { s with file := g, blockList := s.blockList ++ [⟨key, u64 (prv.sPos + prv.payloadSize)⟩] })
        | .ok (prvKey, g) => (.ok true,
            { s with
              file := g
              blockList := init ++ [{ prv with roomKey := prvKey }, ⟨key, u64 (prv.sPos + prv.payloadSize)⟩] }) := by
  unfold newRoomSize at hmake
  unfold addNewRoom
  dsimp only
  rw [hmake, hlast, getLast?_concat, dropLast_concat]
  all_goals rfl

/-- An `AddNewRoom` that throws leaves what is before `top`, and the blocks there are. -/
theorem addNewRoom_refused (unset : ℕ) (h : Above top s.file) (hrefuses : s.Refuses s.blockList.length)
    (hlast : s.blockList = init ++ [prv]) :
    ∃ e g more, s.addNewRoom unset .wr = (.error e, { s with file := g, blockList := s.blockList ++ more }) ∧
      SameBelow top s.file g := by
  have hstored := h.stored
  have hle := h.le
  cases hgrow : s.file.cannotGrow (s.newRoomSize s.blockList.length) .none with
  | true =>
    obtain ⟨e, g, hmake, hbelow⟩ := h.makeNewRoom_fails s.openArgs.roomType hgrow
    refine ⟨e, g, [], ?_, hbelow⟩
    rw [append_nil]
    exact addNewRoom_of_fails hmake
  | false =>
    have hsmall := hrefuses.resolve_left (by simp [hgrow])
    obtain ⟨g, hmake, hbelow, -, hkeyed, -⟩ := h.makeNewRoom s.openArgs.roomType hgrow
    refine ⟨.roomSize "InnFile.Write: bad request size.", g, [⟨s.file.newKey s.openArgs.roomType (s.newRoomSize s.blockList.length), unset⟩], ?_, hbelow⟩
    rw [addNewRoom_of_made hmake hlast, hkeyed.write_fails (le_refl 0) (by rw [zero_add]; exact hsmall)]

/-- The room is made, and the last block gets the position of it. -/
theorem addNewRoom_eq (unset : ℕ) (h : Above top s.file) (hrefuses : ¬ s.Refuses s.blockList.length)
    (hlast : s.blockList = init ++ [prv]) :
    ∃ g, SameBelow top s.file g ∧ Above top g ∧ Keyed g (newBlock s prv).roomKey ∧
      g.fileSize = s.file.fileSize + (newBlock s prv).roomKey.roomSize + kRoomHeaderSize ∧
      s.addNewRoom unset .wr =
        match g.write prv.roomKey 0 kStreamHeaderSize (BigEndian.bytes 8 s.file.fileSize) with
        | .error e => (.error e, { s with file := g, blockList := s.blockList ++ [newBlock s prv] })
        | .ok (prvKey, file) =>
          (.ok true, { s with file := file, blockList := init ++ [{ prv with roomKey := prvKey }, newBlock s prv] }) := by
  have hstored := h.stored
  have hle := h.le
  rw [InnStream.Refuses, not_or, Bool.not_eq_true, not_lt] at hrefuses
  obtain ⟨hgrow, hlarge⟩ := hrefuses
  obtain ⟨g, hmake, hbelow, habove, hkeyed, hsize⟩ := h.makeNewRoom s.openArgs.roomType hgrow
  obtain ⟨g', hwrite, hfile, hgrows, hbelow'⟩ := hkeyed.write 0 kStreamHeaderSize
    (replicate kStreamHeaderSize 0) (le_refl 0) (show 0 + kStreamHeaderSize ≤ _ by rw [zero_add]; exact hlarge) (by simp)
  have hb := hbelow' top hle hbelow.stored
  refine ⟨g', hbelow.trans hb, habove.congr hfile hgrows hb,
    hkeyed.congr hb.headerSize hb.blockSize rfl rfl rfl, ?_, ?_⟩
  · obtain ⟨-, -, -, hroom⟩ := h.grownSize hgrow
    rw [hfile, hsize]
    have h8 : kStreamHeaderSize = 8 := rfl
    exact (hroom.resolve_left (by omega)).symm
  · rw [addNewRoom_of_made hmake hlast, hwrite]
    rfl

/-! ### A round -/

theorem write_zero {offset : ℕ} {r : RoomKey × InnFile} (h : f.write key offset 0 buf = .ok r) : r = (key, f) := by
  unfold InnFile.write at h
  simp only [bind, Except.bind, pure, Except.pure, throw, throwThe, MonadExceptOf.throw, if_true] at h
  split at h
  · cases h
  split at h
  · cases h
  split at h
  · cases h
  · cases h
    rfl

/-- A round of a write from the start of a block. -/
theorem workBody_wr (hb : w.stream.blockList[w.idx]? = some b) (hofs : w.ofsBlock = 0)
    (hwrite : w.stream.file.write b.roomKey kStreamHeaderSize (min b.blockSize w.bufsz) w.buf = .ok (key, g)) :
    workBody unset .wr w =
      let s := { w.stream with file := g, blockList := w.stream.blockList.set w.idx { b with roomKey := key } }
      let n := min b.blockSize w.bufsz
      if w.bufsz - n = 0 then .inr (.ok (w.totsz + n, w.out), s)
      else
        match s.nextBlock unset .wr (w.idx + 1) { b with roomKey := key } with
        | (.error e, s) => .inr (.error e, s)
        | (.ok false, s) => .inr (.ok (w.totsz + n, w.out), s)
        | (.ok true, s) => .inl
            { stream := { s with lastSeekIndex := w.idx + 1 }, idx := w.idx + 1, ofsBlock := 0,
              buf := w.buf.drop n, out := w.out, bufsz := w.bufsz - n, totsz := w.totsz + n } := by
  obtain ⟨hidx, hb'⟩ := List.getElem?_eq_some_iff.mp hb
  have hiosz : u32sub b.blockSize 0 = b.blockSize := u32sub_of_le (Nat.zero_le _)
  have hoffset : u32 (0 + kStreamHeaderSize) = kStreamHeaderSize := rfl
  unfold workBody
  simp only [getD_eq_getElem?_getD, hb, getD_some, hofs, hiosz, hoffset]
  have hdone : (if 0 < b.blockSize then
        w.stream.workRW w.idx b kStreamHeaderSize w.buf (min b.blockSize w.bufsz) .wr
      else .ok (0, [], w.stream)) =
      .ok (min b.blockSize w.bufsz, [],
        { w.stream with file := g, blockList := w.stream.blockList.set w.idx { b with roomKey := key } }) := by
    by_cases hpos : 0 < b.blockSize
    · simp only [if_pos hpos, workRW, hwrite, bind, Except.bind, pure, Except.pure]
    · -- no byte is written
      have hzero : b.blockSize = 0 := by omega
      rw [hzero, Nat.zero_min] at hwrite
      have hsame := write_zero hwrite
      rw [Prod.mk.injEq] at hsame
      obtain ⟨rfl, rfl⟩ := hsame
      have hset : w.stream.blockList.set w.idx { b with roomKey := b.roomKey } = w.stream.blockList := by
        rw [← hb', set_getElem_self]
      rw [if_neg hpos, hzero, Nat.zero_min, hset]
  rw [hdone]
  by_cases hend : w.bufsz - min b.blockSize w.bufsz = 0
  · simp only [append_nil, getElem?_set_self hidx, getD_some, if_pos hend]
  · simp only [append_nil, getElem?_set_self hidx, getD_some, if_neg hend]
    all_goals rcases nextBlock unset .wr _ _ _ with ⟨_ | _ | _, _⟩ <;> rfl

/-! ### The new rooms -/

/-- A new block without data, behind all there is. -/
structure Fresh (top : ℕ) (f : InnFile) (b : Block) : Prop where
  keyed : Keyed f b.roomKey
  top_le : top ≤ b.roomKey.roomPos
  dataSize : b.roomKey.dataSize = kStreamHeaderSize
  roomSize : kStreamHeaderSize ≤ b.roomKey.roomSize
  sPos_pos : 0 < b.sPos
  sPos_le : b.sPos + b.roomKey.roomSize ≤ f.fileSize

/-- A write has gone through all rooms there were, and is at the start of a new one. -/
structure Behind (top : ℕ) (cells cells' : List Room) (w : InnStream.Working) (init : List Block) (b : Block) : Prop where
  blocks : w.stream.blockList = init ++ [b]
  idx : w.idx = init.length
  overlaid : Overlaid top cells cells' w.stream.file init
  above : Above top w.stream.file
  fresh : Fresh top w.stream.file b
  ofsBlock : w.ofsBlock = 0
  lastSeekIndex : w.stream.lastSeekIndex = w.idx
  nextRoomPos : w.stream.nextRoomPos = 0
  buf : w.buf.length = w.bufsz

/-- The rooms hold `cells'`, and the block of the last seek is a new one. -/
structure Left (top : ℕ) (cells cells' : List Room) (s : InnStream) : Prop where
  overlaid : Overlaid top cells cells' s.file s.blockList
  seek : ∀ b, s.blockList[s.lastSeekIndex]? = some b → b.sPos ≠ 0

theorem Left.of_blocks {more : List Block} (hover : Overlaid top cells cells' s.file init)
    (hblocks : s.blockList = init ++ b :: more) (hlast : s.lastSeekIndex = init.length) (hpos : 0 < b.sPos) :
    Left top cells cells' s where
  overlaid := by
    rw [hblocks]
    exact hover.append _
  seek b' hb' := by
    rw [hblocks, hlast, getElem?_append_right (le_refl _), Nat.sub_self, getElem?_cons_zero,
      Option.some.injEq] at hb'
    subst hb'
    exact ne_of_gt hpos

theorem nextBlock_last (hidx : s.blockList.length ≤ w.idx + 1) (hnext : s.nextRoomPos = 0) (io : InnStream.IoHandler) :
    s.nextBlock unset io (w.idx + 1) b = s.addNewRoom unset io := by
  rw [nextBlock, if_neg (by omega), if_pos hnext]

theorem blockSize_of_le (hle : kStreamHeaderSize ≤ b.roomKey.roomSize) :
    b.blockSize = b.roomKey.roomSize - kStreamHeaderSize := u32sub_of_le hle

theorem payloadSize_of_le (hle : kStreamHeaderSize ≤ b.roomKey.dataSize) :
    b.payloadSize = b.roomKey.dataSize - kStreamHeaderSize := u32sub_of_le hle

namespace Behind

/-- A round in the new rooms ends the write, or goes on in one more. -/
theorem round (unset : ℕ) (h : Behind top cells cells' w init b) :
    (∃ r, workBody unset .wr w = .inr r ∧ Left top cells cells' r.2) ∨
      ∃ w' init' b', workBody unset .wr w = .inl w' ∧ Behind top cells cells' w' init' b' ∧
        w.stream.file.fileSize < w'.stream.file.fileSize := by
  have h8 : kStreamHeaderSize = 8 := rfl
  have h9 : kRoomHeaderSize = 9 := rfl
  have hdata := h.fresh.dataSize
  have hroom := h.fresh.roomSize
  have hlt := h.fresh.keyed.size_lt
  have hbuf := h.buf
  have hsize := blockSize_of_le hroom
  have hget : w.stream.blockList[w.idx]? = some b := by rw [h.blocks, h.idx, getElem?_concat_length]
  let n := min b.blockSize w.bufsz
  obtain ⟨g, hwrite, hfile, hgrow, hbelow⟩ := h.fresh.keyed.write kStreamHeaderSize n w.buf (le_of_eq hdata.symm)
    (by omega) (by omega)
  have hsame := hbelow top h.fresh.top_le (h.above.le.trans h.above.stored)
  have habove := h.above.congr hfile hgrow hsame
  have hover := h.overlaid.below hsame
  let key : RoomKey := { b.roomKey with dataSize := max b.roomKey.dataSize (kStreamHeaderSize + n) }
  let t : InnStream := { w.stream with
    file := g
    blockList := w.stream.blockList.set w.idx { b with roomKey := key } }
  have hblocks : t.blockList = init ++ [{ b with roomKey := key }] := by
    show w.stream.blockList.set w.idx _ = _
    rw [h.blocks, h.idx, set_append_right _ _ (le_refl _), Nat.sub_self]
    rfl
  have hlast : t.lastSeekIndex = init.length := h.lastSeekIndex.trans h.idx
  rw [workBody_wr hget h.ofsBlock hwrite]
  dsimp only
  by_cases hend : w.bufsz - n = 0
  · left
    rw [if_pos hend]
    exact ⟨_, rfl, Left.of_blocks hover hblocks hlast h.fresh.sPos_pos⟩
  have hcount : t.blockList.length = w.idx + 1 := by rw [hblocks, h.idx, length_append, length_singleton]
  have hnext : t.nextBlock unset .wr (w.idx + 1) { b with roomKey := key } = t.addNewRoom unset .wr :=
    nextBlock_last (le_of_eq hcount) h.nextRoomPos .wr
  rw [if_neg hend]
  by_cases hrefuses : t.Refuses t.blockList.length
  · left
    obtain ⟨e, g', more, heq, hsame'⟩ := addNewRoom_refused unset habove hrefuses hblocks
    rw [hnext, heq]
    have hmore : t.blockList ++ more = init ++ { b with roomKey := key } :: more := by
      rw [hblocks, append_assoc, singleton_append]
    exact ⟨_, rfl, Left.of_blocks (hover.below hsame') hmore hlast h.fresh.sPos_pos⟩
  · right
    obtain ⟨g₂, hsame₂, habove₂, hkeyed₂, hsize₂, heq⟩ := addNewRoom_eq unset habove hrefuses hblocks
    have hprv : Keyed g₂ key := h.fresh.keyed.congr (hsame₂.headerSize.trans hsame.headerSize)
      (hsame₂.blockSize.trans hsame.blockSize) rfl rfl h.fresh.keyed.pending
    obtain ⟨g₃, hlink, hfile₃, hgrow₃, hbelow₃⟩ := hprv.write 0 kStreamHeaderSize
      (BigEndian.bytes 8 t.file.fileSize) (Nat.zero_le _) (by rw [Nat.zero_add]; exact hroom) (by simp [h8])
    have hsame₃ := hbelow₃ top h.fresh.top_le (habove₂.le.trans habove₂.stored)
    have hpayload : (⟨key, b.sPos⟩ : Block).payloadSize = n := by
      rw [payloadSize_of_le (by show _ ≤ max _ _; omega)]
      show max _ _ - _ = _
      omega
    have hlarge : kStreamHeaderSize ≤ (newBlock t ⟨key, b.sPos⟩).roomKey.roomSize := by
      rw [InnStream.Refuses, not_or, not_lt] at hrefuses
      exact hrefuses.2
    have hsPos : (newBlock t ⟨key, b.sPos⟩).sPos = b.sPos + n := by
      have hle := h.fresh.sPos_le
      have hlt := h.above.lt
      show u64 (b.sPos + Block.payloadSize ⟨key, b.sPos⟩) = _
      rw [hpayload]
      exact Nat.mod_eq_of_lt (by omega)
    rw [hnext, heq, hlink]
    refine ⟨_, init ++ [⟨{ key with dataSize := max key.dataSize (0 + kStreamHeaderSize) }, b.sPos⟩],
      newBlock t ⟨key, b.sPos⟩, rfl, ?_, ?_⟩
    · refine
        { blocks := append_cons init _ _
          idx := by rw [h.idx, length_append, length_singleton]
          overlaid := ((hover.below hsame₂).below hsame₃).append _
          above := habove₂.congr hfile₃ hgrow₃ hsame₃
          fresh :=
            { keyed := hkeyed₂.congr hsame₃.headerSize hsame₃.blockSize rfl rfl hkeyed₂.pending
              top_le := habove.le
              dataSize := rfl
              roomSize := hlarge
              sPos_pos := ?_
              sPos_le := ?_ }
          ofsBlock := rfl
          lastSeekIndex := rfl
          nextRoomPos := h.nextRoomPos
          buf := ?_ }
      · have hpos := h.fresh.sPos_pos
        omega
      · have hle := h.fresh.sPos_le
        show _ ≤ g₃.fileSize
        rw [hfile₃, hsize₂, hsPos, show t.file.fileSize = w.stream.file.fileSize from hfile]
        omega
      · show (w.buf.drop n).length = w.bufsz - n
        rw [length_drop, hbuf]
    · show _ < g₃.fileSize
      rw [hfile₃, hsize₂, show t.file.fileSize = w.stream.file.fileSize from hfile]
      omega

/-- The new rooms end, as the file cannot grow for ever. -/
theorem ends (unset : ℕ) (h : Behind top cells cells' w init b) :
    ∃ n r, loop (workBody unset .wr) n w = some r ∧ Left top cells cells' r.2 := by
  let I : InnStream.Working → Prop := fun w => ∃ init b, Behind top cells cells' w init b
  have hI : I w := ⟨init, b, h⟩
  refine loop_total (fun w : InnStream.Working => 2 ^ 63 - w.stream.file.fileSize) ?_ ?_ hI
  · rintro w w' ⟨init, b, hw⟩ heq
    rcases hw.round unset with ⟨r, hr, -⟩ | ⟨w'', init', b', hgoes, hw', hlt⟩
    · rw [hr] at heq
      cases heq
    · rw [hgoes, Sum.inl.injEq] at heq
      subst heq
      have hend := hw'.above.lt
      have hfalls : 2 ^ 63 - w''.stream.file.fileSize < 2 ^ 63 - w.stream.file.fileSize := by omega
      exact ⟨⟨init', b', hw'⟩, hfalls⟩
  · rintro w r ⟨init, b, hw⟩ heq
    rcases hw.round unset with ⟨r', hr, hleft⟩ | ⟨w'', init', b', hgoes, -, -⟩
    · rw [hr] at heq
      cases heq
      exact hleft
    · rw [hgoes] at heq
      cases heq

end Behind

end Fon9.Inn
