import Fon9.Inn.WriteOver

/-! A write behind the end of a stream. It gets a new room, and then begins at the first room of all: the
data go over those that are there. -/

namespace Fon9.Inn

open Lib List InnStream Option Room

variable {f g : InnFile} {cells cells' front back : List Room} {c : Room} {s : InnStream}
  {blocks init : List Block} {b : Block} {top unset m : ℕ} {w : InnStream.Working} {buf : Bytes}

/-! ### Where a read begins -/

theorem getElem?_blocksFrom (p i : ℕ) : (blocksFrom p cells)[i]? =
    cells[i]?.map fun c => ⟨c.key, p + (content (cells.take i)).length⟩ := by
  induction cells generalizing p i with
  | nil => rfl
  | cons c cells ih =>
    cases i with
    | zero => rfl
    | succ i =>
      rw [blocksFrom, getElem?_cons_succ, getElem?_cons_succ, ih, take_succ_cons, content_cons,
        length_append, add_assoc]

theorem isInThisBlock_zero (b : Block) : b.isInThisBlock 0 = if b.sPos = 0 then some 0 else none := by
  rw [Block.isInThisBlock]
  by_cases hpos : b.sPos = 0
  · rw [if_neg (by omega), if_neg (by omega), if_pos hpos, Nat.zero_sub]
  · rw [if_pos (by omega), if_neg hpos]

namespace Overlaid

/-- The place of a block. -/
theorem sPos_eq (h : Overlaid top cells cells' f blocks) {i : ℕ} (hi : i < cells.length) (hb : blocks[i]? = some b) :
    b.sPos = (content (cells.take i)).length := by
  obtain ⟨more, hmore⟩ := h.places
  have hplace : (blocks.map Block.sPos)[i]? = some (content (cells.take i)).length := by
    rw [← hmore, getElem?_append_left (by simpa using hi), getElem?_map, getElem?_blocksFrom,
      getElem?_eq_getElem hi]
    simp
  rw [getElem?_map, hb, map_some, Option.some.injEq] at hplace
  exact hplace

theorem findBlock_zero (h : Overlaid top cells cells' f blocks) (hne : cells ≠ []) :
    findBlock 0 0 blocks = some (0, 0) := by
  have hpos : 0 < cells.length := length_pos_of_ne_nil hne
  obtain ⟨more, hmore⟩ := h.places
  cases blocks with
  | nil =>
    have hlen := congrArg List.length hmore
    simp only [length_append, length_map, length_blocksFrom, length_nil] at hlen
    omega
  | cons b blocks =>
    have hsPos := h.sPos_eq hpos rfl
    rw [findBlock, isInThisBlock_zero, if_pos (by rw [hsPos]; rfl)]

/-- A read from position zero begins where the last seek was, if no byte stood before that block. -/
theorem seekLoaded_zero (h : Overlaid top cells cells' s.file s.blockList) (hlast : s.lastSeekIndex < cells.length) :
    s.seekLoaded 0 = some (startRoom cells s.lastSeekIndex, 0) := by
  have hfind := h.findBlock_zero (ne_nil_of_length_pos (by omega))
  have hcount : cells.length ≤ s.blockList.length := by
    have hle := h.places.length_le
    rwa [length_map, length_map, length_blocksFrom] at hle
  obtain ⟨b, hb⟩ : ∃ b, s.blockList[s.lastSeekIndex]? = some b := ⟨_, getElem?_eq_getElem (by omega)⟩
  have hsPos := h.sPos_eq hlast hb
  rw [seekLoaded, hfind, hb, bind_some, isInThisBlock_zero, startRoom]
  by_cases hzero : content (cells.take s.lastSeekIndex) = []
  · rw [if_pos (by rw [hsPos, hzero]; rfl), if_pos ⟨hlast, hzero⟩]
  · rw [if_neg (by rw [hsPos]; exact fun hlen => hzero (eq_nil_of_length_eq_zero hlen)),
      if_neg (fun hboth => hzero hboth.2)]

end Overlaid

/-- What a write leaves: the rooms hold `parts`, and a read from position zero begins at the room `m`. -/
structure Holds (top : ℕ) (cells : List Room) (parts : List Bytes) (m : ℕ) (s : InnStream) : Prop where
  rooms : ∃ cells', Overlaid top cells cells' s.file s.blockList ∧ cells'.map Room.payload = parts
  seek : s.seekLoaded 0 = some (m, 0)

theorem Left.holds (h : Left top cells cells' s) (hne : cells ≠ []) :
    Holds top cells (cells'.map payload) 0 s where
  rooms := ⟨cells', h.overlaid, rfl⟩
  seek := by
    rw [seekLoaded, h.overlaid.findBlock_zero hne]
    cases hb : s.blockList[s.lastSeekIndex]? with
    | none => rfl
    | some b => rw [bind_some, isInThisBlock_zero, if_neg (h.seek b hb)]

/-! ### Through the rooms -/

/-- A write that began at the first room is at the start of another one; the rooms before have taken
their parts, and a new one is behind the last. -/
structure Within (top : ℕ) (cells front back : List Room) (w : InnStream.Working) (init : List Block) (b : Block) :
    Prop where
  blocks : w.stream.blockList = init ++ [b]
  length : init.length = cells.length
  idx : w.idx = front.length
  overlaid : Overlaid top cells (front ++ back) w.stream.file init
  above : Above top w.stream.file
  fresh : Fresh top w.stream.file b
  ofsBlock : w.ofsBlock = 0
  lastSeekIndex : w.stream.lastSeekIndex = front.length ∨ (front = [] ∧ w.stream.lastSeekIndex < cells.length)
  nextRoomPos : w.stream.nextRoomPos = 0
  buf : w.buf.length = w.bufsz

theorem Fresh.congr (h : Fresh top f b) (hfile : g.fileSize = f.fileSize) (hsame : SameBelow 0 f g) : Fresh top g b where
  keyed := h.keyed.congr hsame.headerSize hsame.blockSize rfl rfl h.keyed.pending
  top_le := h.top_le
  dataSize := h.dataSize
  roomSize := h.roomSize
  sPos_pos := h.sPos_pos
  sPos_le := hfile ▸ h.sPos_le

namespace Within

/-- A round in a room that was there before. -/
theorem round (unset : ℕ) (h : Within top cells front (c :: back) w init b) :
    ∃ c', c'.payload = w.buf.take c.blockSize ++ c.payload.drop (w.buf.take c.blockSize).length ∧
      ((w.bufsz ≤ c.blockSize ∧ ∃ r, workBody unset .wr w = .inr r ∧
          Overlaid top cells (front ++ c' :: back) r.2.file r.2.blockList ∧
          r.2.lastSeekIndex = w.stream.lastSeekIndex) ∨
        (c.blockSize < w.bufsz ∧ ∃ w' init', workBody unset .wr w = .inl w' ∧
          Within top cells (front ++ [c']) back w' init' b ∧ w'.buf = w.buf.drop c.blockSize)) := by
  have hbuf := h.buf
  have hdata := h.overlaid.size c (by simp)
  have hlen := h.overlaid.data_length (show c ∈ front ++ c :: back by simp)
  have hle := (h.overlaid.lies (show c ∈ front ++ c :: back by simp)).disk.data_le
  obtain ⟨blk, hget, hkey⟩ := h.overlaid.block
  have hsize : blk.blockSize = c.blockSize := by
    rw [blockSize_of_le (by rw [hkey]; omega), hkey]
    rfl
  have hroom : c.blockSize + kStreamHeaderSize = c.key.roomSize := Nat.sub_add_cancel (hdata.trans hle)
  let n := min blk.blockSize w.bufsz
  obtain ⟨c', g, hwrite, hfile, hgrow, hsame, hc', hover⟩ := h.overlaid.write kStreamHeaderSize n w.buf
    hget hdata (by omega) (by omega)
  have htake : w.buf.take n = w.buf.take c.blockSize := by
    rw [← hsize, take_eq_take_iff]
    omega
  refine ⟨c', ?_, ?_⟩
  · have hprefix : (c.data.take kStreamHeaderSize).length = kStreamHeaderSize := by
      rw [length_take]
      omega
    have hn : (w.buf.take c.blockSize).length = n := by
      rw [length_take]
      omega
    rw [hc', payload, append_assoc, drop_left' hprefix, htake, hn, payload, drop_drop]
  have hlt : w.idx < init.length := by
    have hcount := h.overlaid.length
    rw [length_append, length_cons] at hcount
    rw [h.idx, h.length]
    omega
  have hget' : w.stream.blockList[w.idx]? = some blk := by
    rw [h.blocks, getElem?_append_left hlt, h.idx, hget]
  have hset : w.stream.blockList.set w.idx { blk with roomKey := c'.key } =
      init.set front.length { blk with roomKey := c'.key } ++ [b] := by
    rw [h.blocks, set_append_left _ _ hlt, h.idx]
  rw [← hkey] at hwrite
  rw [workBody_wr hget' h.ofsBlock hwrite]
  dsimp only
  rw [hset]
  by_cases hend : w.bufsz ≤ c.blockSize
  · left
    have hzero : w.bufsz - min blk.blockSize w.bufsz = 0 := by omega
    rw [if_pos hzero]
    exact ⟨hend, _, rfl, hover.append [b], rfl⟩
  · right
    have hmore : ¬ w.bufsz - min blk.blockSize w.bufsz = 0 := by omega
    have hcount : w.idx + 1 < (init.set front.length { blk with roomKey := c'.key } ++ [b]).length := by
      rw [length_append, length_set, length_singleton]
      omega
    rw [if_neg hmore, nextBlock, if_pos hcount]
    have hmin : min blk.blockSize w.bufsz = c.blockSize := by omega
    refine ⟨by omega, _, init.set front.length { blk with roomKey := c'.key }, rfl, ?_, ?_⟩
    · exact
        { blocks := rfl
          length := by rw [length_set, h.length]
          idx := by rw [h.idx, length_append, length_singleton]
          overlaid := by rw [append_assoc]; exact hover
          above := h.above.congr hfile hgrow hsame
          fresh := h.fresh.congr hfile hsame
          ofsBlock := rfl
          lastSeekIndex := .inl (by rw [length_append, length_singleton, ← h.idx])
          nextRoomPos := h.nextRoomPos
          buf := by rw [length_drop, hbuf] }
    · rw [hmin]

/-- The write ends, and the rooms have taken the data. -/
theorem ends (unset : ℕ) (hne : cells ≠ []) (h : Within top cells front back w init b) :
    ∃ n r, loop (workBody unset .wr) n w = some r ∧
      Holds top cells (front.map payload ++ overlay w.buf back)
        (startRoom cells (lastReached w.stream.lastSeekIndex front.length w.bufsz back)) r.2 := by
  induction back generalizing front w init with
  | nil =>
    have hlen := h.overlaid.length
    rw [append_nil] at hlen
    have hseek : w.stream.lastSeekIndex = front.length := by
      rcases h.lastSeekIndex with hseek | ⟨rfl, hlt⟩
      · exact hseek
      · exact absurd (eq_nil_of_length_eq_zero hlen.symm) hne
    have hbehind : Behind top cells front w init b :=
      { blocks := h.blocks
        idx := by rw [h.idx, h.length, hlen]
        overlaid := by
          have hover := h.overlaid
          rwa [append_nil] at hover
        above := h.above
        fresh := h.fresh
        ofsBlock := h.ofsBlock
        lastSeekIndex := hseek.trans h.idx.symm
        nextRoomPos := h.nextRoomPos
        buf := h.buf }
    obtain ⟨n, r, hr, hleft⟩ := hbehind.ends unset
    refine ⟨n, r, hr, ?_⟩
    rw [overlay, append_nil, lastReached, hseek, startRoom, if_neg (by omega)]
    exact hleft.holds hne
  | cons c back ih =>
    obtain ⟨c', hpayload, hround⟩ := h.round unset
    rcases hround with ⟨hend, r, hr, hover, hseek⟩ | ⟨hmore, w', init', hgoes, hnext, hbuf⟩
    · have hrest : w.buf.drop c.blockSize = [] := drop_of_length_le (by rw [h.buf]; exact hend)
      refine ⟨1, r, loop_ends hr, ?_, ?_⟩
      · refine ⟨_, hover, ?_⟩
        rw [map_append, map_cons, hpayload, overlay, hrest, overlay_nil]
      · rw [lastReached, if_pos hend, ← hseek]
        apply hover.seekLoaded_zero
        have hlen := h.overlaid.length
        rw [length_append, length_cons] at hlen
        rw [hseek]
        rcases h.lastSeekIndex with heq | ⟨-, hlt⟩
        · omega
        · exact hlt
    · obtain ⟨n, r, hr, hholds⟩ := ih hnext
      refine ⟨n + 1, r, by rw [loop_goes hgoes, hr], ?_⟩
      have hseek : w'.stream.lastSeekIndex = front.length + 1 := by
        rcases hnext.lastSeekIndex with heq | ⟨hnil, -⟩
        · rw [heq, length_append, length_singleton]
        · simp at hnil
      have hsize : w'.bufsz = w.bufsz - c.blockSize := by rw [← hnext.buf, hbuf, length_drop, h.buf]
      rw [hseek, hsize, hbuf, length_append, length_singleton, map_append, map_singleton,
        hpayload, append_assoc, singleton_append] at hholds
      rw [overlay, lastReached, if_neg (by omega)]
      exact hholds

end Within

/-! ### The start of the write -/

namespace IsStream

variable {rooms : List Room} {pos : ℕ}

/-- The rooms before the write. -/
theorem overlaid (h : IsStream s rooms cells) :
    Overlaid s.file.fileSize cells cells s.file (blocksFrom 0 cells) where
  stores := ⟨rooms, h.stores, h.sub⟩
  apart := by
    refine h.nodup.map_on fun a ha b hb heq => ?_
    exact h.stores.unique (h.sub a ha) (h.sub b hb) heq
  size c hc := (h.room c hc).2
  length := rfl
  keys := by
    have hkeys : ∀ p, (blocksFrom p cells).map Block.roomKey = cells.map key := by
      clear h
      induction cells with
      | nil => exact fun _ => rfl
      | cons c cells ih => exact fun p => congrArg (c.key :: ·) (ih _)
    rw [hkeys]
  places := prefix_rfl

end IsStream

end Fon9.Inn
