import Fon9.Inn.Below
import Fon9.Inn.StreamRooms

/-! Data that are written over the rooms of a stream from the first room on. Each room takes as many bytes
as it has space for, and keeps what is behind them; the blocks keep the places they had. -/

namespace Fon9.Inn

open Lib List

variable {f g : InnFile} {key : RoomKey} {cells cells' front back : List Room} {c : Room} {s : InnStream}
  {blocks : List Block} {b : Block} {top : ℕ}

/-- The number of bytes of the stream that a room has space for. -/
def Room.blockSize (c : Room) : ℕ := c.key.roomSize - kStreamHeaderSize

/-- What the rooms hold with the data over them. -/
def overlay : Bytes → List Room → List Bytes
  | _, [] => []
  | buf, c :: cells =>
    (buf.take c.blockSize ++ c.payload.drop (buf.take c.blockSize).length) :: overlay (buf.drop c.blockSize) cells

@[simp] theorem overlay_nil (cells : List Room) : overlay [] cells = cells.map Room.payload := by
  induction cells with
  | nil => rfl
  | cons c cells ih => simp [overlay, ih]

/-- The room at which data of a size end, zero for the new rooms behind; `last` where it is the one they begin with. -/
def lastReached : ℕ → ℕ → ℕ → List Room → ℕ
  | last, _, _, [] => last
  | last, idx, size, c :: cells =>
    if size ≤ c.blockSize then last else lastReached (idx + 1) (idx + 1) (size - c.blockSize) cells

/-- The room at which a read from position zero begins. -/
def startRoom (cells : List Room) (last : ℕ) : ℕ :=
  if last < cells.length ∧ content (cells.take last) = [] then last else 0

/-- The file holds rooms below `top`, and they are the first of the blocks, at the places of the
rooms that were there before. -/
structure Overlaid (top : ℕ) (cells cells' : List Room) (f : InnFile) (blocks : List Block) : Prop where
  stores : ∃ rooms, Stores (f.upTo top) rooms ∧ ∀ c ∈ cells', c ∈ rooms
  apart : (cells'.map fun c => c.key.roomPos).Nodup
  size : ∀ c ∈ cells', kStreamHeaderSize ≤ c.key.dataSize
  length : cells'.length = cells.length
  keys : cells'.map Room.key <+: blocks.map Block.roomKey
  places : (blocksFrom 0 cells).map Block.sPos <+: blocks.map Block.sPos

/-- A block keeps its place under another key. -/
theorem map_sPos_set {i : ℕ} (hb : blocks[i]? = some b) (key : RoomKey) :
    (blocks.set i { b with roomKey := key }).map Block.sPos = blocks.map Block.sPos := by
  apply List.ext_getElem?
  intro j
  rw [getElem?_map, getElem?_map, getElem?_set]
  by_cases hij : i = j
  · subst hij
    obtain ⟨hlt, -⟩ := List.getElem?_eq_some_iff.mp hb
    rw [if_pos rfl, if_pos hlt, hb]
    rfl
  · rw [if_neg hij]

namespace Overlaid

theorem below (h : Overlaid top cells cells' f blocks) (hsame : SameBelow top f g) :
    Overlaid top cells cells' g blocks := by
  obtain ⟨rooms, hstores, hsub⟩ := h.stores
  exact { h with stores := ⟨rooms, hstores.below hsame, hsub⟩ }

theorem append (h : Overlaid top cells cells' f blocks) (more : List Block) :
    Overlaid top cells cells' f (blocks ++ more) where
  stores := h.stores
  apart := h.apart
  size := h.size
  length := h.length
  keys := by
    rw [map_append]
    exact h.keys.trans (prefix_append _ _)
  places := by
    rw [map_append]
    exact h.places.trans (prefix_append _ _)

/-- The block of a room. -/
theorem block (h : Overlaid top cells (front ++ c :: back) f blocks) :
    ∃ b, blocks[front.length]? = some b ∧ b.roomKey = c.key := by
  obtain ⟨more, hmore⟩ := h.keys
  have hkey : (blocks.map Block.roomKey)[front.length]? = some c.key := by
    rw [← hmore, map_append, append_assoc, getElem?_append_right (by simp)]
    simp
  rw [getElem?_map] at hkey
  cases hb : blocks[front.length]? with
  | none => simp [hb] at hkey
  | some b =>
    rw [hb, Option.map_some, Option.some.injEq] at hkey
    exact ⟨b, rfl, hkey⟩

theorem lies (h : Overlaid top cells cells' f blocks) (hc : c ∈ cells') : Lies (f.upTo top) c.key := by
  obtain ⟨rooms, hstores, hsub⟩ := h.stores
  exact hstores.lies (hsub c hc)

theorem data_length (h : Overlaid top cells cells' f blocks) (hc : c ∈ cells') : c.data.length = c.key.dataSize := by
  obtain ⟨rooms, hstores, hsub⟩ := h.stores
  exact hstores.data_length (hsub c hc)

/-- A write to a room of the stream. -/
theorem write (h : Overlaid top cells (front ++ c :: back) f blocks) (offset size : ℕ) (buf : Bytes)
    (hb : blocks[front.length]? = some b) (hoffset : offset ≤ c.key.dataSize)
    (hle : offset + size ≤ c.key.roomSize) (hbuf : size ≤ buf.length) :
    ∃ c' g, f.write c.key offset size buf = .ok (c'.key, g) ∧ g.fileSize = f.fileSize ∧
      f.storage.size ≤ g.storage.size ∧ SameBelow 0 f g ∧
      c' = ⟨{ c.key with dataSize := max c.key.dataSize (offset + size) },
        c.data.take offset ++ buf.take size ++ c.data.drop (offset + size)⟩ ∧
      Overlaid top cells (front ++ c' :: back) g (blocks.set front.length { b with roomKey := c'.key }) := by
  obtain ⟨rooms, hstores, hsub⟩ := h.stores
  have hc : c ∈ rooms := hsub c (by simp)
  have hlies := hstores.lies hc
  obtain ⟨view, hview, -, hput⟩ := hstores.write hc hoffset hle hbuf
  have hkeyed : Keyed f c.key := hlies.keyed.congr rfl rfl rfl rfl hlies.disk.pending
  obtain ⟨g, hg, hfile, hgrow, hbelow⟩ := hkeyed.write offset size buf hoffset hle hbuf
  rw [write_upTo, hg, Except.map, Except.ok.injEq, Prod.mk.injEq] at hview
  obtain ⟨-, rfl⟩ := hview
  let c' : Room := ⟨{ c.key with dataSize := max c.key.dataSize (offset + size) },
    c.data.take offset ++ buf.take size ++ c.data.drop (offset + size)⟩
  refine ⟨c', g, hg, hfile, hgrow, hbelow 0 (Nat.zero_le _) (Nat.zero_le _), rfl, ?_⟩
  have hapart := h.apart
  rw [map_append, map_cons] at hapart
  have hother : ∀ x ∈ front ++ back, x.key.roomPos ≠ c.key.roomPos := by
    intro x hx heq
    rw [nodup_middle, nodup_cons, ← map_append] at hapart
    exact hapart.1 (heq ▸ mem_map_of_mem hx)
  refine ⟨⟨putRoom rooms c', hput, ?_⟩, ?_, ?_, ?_, ?_, ?_⟩
  · intro x hx
    rcases mem_append.mp hx with hx | hx
    · exact mem_putRoom_of_ne (hsub x (by simp [hx])) (hother x (by simp [hx]))
    · rcases mem_cons.mp hx with rfl | hx
      · exact mem_putRoom_self hc rfl
      · exact mem_putRoom_of_ne (hsub x (by simp [hx])) (hother x (by simp [hx]))
  · rw [map_append, map_cons]
    exact hapart
  · intro x hx
    rcases mem_append.mp hx with hx | hx
    · exact h.size x (by simp [hx])
    · rcases mem_cons.mp hx with rfl | hx
      · exact (h.size c (by simp)).trans (Nat.le_max_left _ _)
      · exact h.size x (by simp [hx])
  · rw [← h.length, length_append, length_append, length_cons, length_cons]
  · obtain ⟨more, hmore⟩ := h.keys
    refine ⟨more, ?_⟩
    rw [map_set, ← hmore]
    simp
  · rw [map_sPos_set hb]
    exact h.places

end Overlaid

end Fon9.Inn
