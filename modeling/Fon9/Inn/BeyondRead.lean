import Fon9.Inn.Beyond

/-! What is read after a write behind the end. The bytes that were there before are read again
exactly if the write got no room, or if the data it laid over them are the same. -/

namespace Fon9.Inn

open Lib List InnStream Option

variable {f g : InnFile} {rooms cells cells' front back : List Room} {c : Room} {s : InnStream}
  {blocks : List Block} {b : Block} {top unset m pos : ℕ} {w : InnStream.Working} {buf : Bytes} {parts : List Bytes}

/-! ### Read -/

/-- A round of a read from the start of a block. -/
theorem workBody_rd {data : Bytes} (hb : w.stream.blockList[w.idx]? = some b) (hofs : w.ofsBlock = 0)
    (hread : w.stream.file.read b.roomKey kStreamHeaderSize (min b.blockSize w.bufsz) = .ok data) :
    workBody unset .rd w =
      if w.bufsz - data.length = 0 then .inr (.ok (w.totsz + data.length, w.out ++ data), w.stream)
      else
        match w.stream.nextBlock unset .rd (w.idx + 1) b with
        | (.error e, s) => .inr (.error e, s)
        | (.ok false, s) => .inr (.ok (w.totsz + data.length, w.out ++ data), s)
        | (.ok true, s) => .inl
            { stream := { s with lastSeekIndex := w.idx + 1 }, idx := w.idx + 1, ofsBlock := 0,
              buf := w.buf.drop data.length, out := w.out ++ data, bufsz := w.bufsz - data.length,
              totsz := w.totsz + data.length } := by
  have hiosz : u32sub b.blockSize 0 = b.blockSize := u32sub_of_le (Nat.zero_le _)
  have hoffset : u32 (0 + kStreamHeaderSize) = kStreamHeaderSize := rfl
  have hdone : (if 0 < b.blockSize then
        w.stream.workRW w.idx b kStreamHeaderSize w.buf (min b.blockSize w.bufsz) .rd
      else .ok (0, [], w.stream)) = .ok (data.length, data, w.stream) := by
    by_cases hpos : 0 < b.blockSize
    · simp only [if_pos hpos, workRW, hread, bind, Except.bind, pure, Except.pure]
    · -- no byte is read
      have hzero : b.blockSize = 0 := by omega
      have hnil : data = [] := by
        rw [hzero, Nat.zero_min] at hread
        unfold InnFile.read at hread
        simp only [bind, Except.bind, pure, Except.pure, or_true, if_true] at hread
        split at hread
        · cases hread
        · cases hread
          rfl
      rw [if_neg hpos, hnil]
      rfl
  unfold workBody
  simp only [getD_eq_getElem?_getD, hb, getD_some, hofs, hiosz, hoffset]
  rw [hdone]
  by_cases hend : w.bufsz - data.length = 0
  · simp only [hb, getD_some, if_pos hend]
  · simp only [hb, getD_some, if_neg hend]
    all_goals rcases nextBlock unset .rd _ _ _ with ⟨_ | _ | _, _⟩ <;> rfl

/-- A read from the start of a room takes what the rooms hold from there on. -/
theorem Overlaid.reads (unset : ℕ) (h : Overlaid top cells (front ++ back) w.stream.file w.stream.blockList)
    (hidx : w.idx = front.length) (hofs : w.ofsBlock = 0) (hpos : 0 < w.bufsz)
    (hle : w.bufsz ≤ (content back).length) :
    ∃ n t, loop (workBody unset .rd) n w =
      some (.ok (w.totsz + w.bufsz, w.out ++ (content back).take w.bufsz), t) := by
  induction back generalizing front w with
  | nil => simp only [content_nil, length_nil] at hle; omega
  | cons c back ih =>
    have hc : c ∈ front ++ c :: back := by simp
    have hlies := h.lies hc
    have hdata := h.size c hc
    have hdata_le := hlies.disk.data_le
    have hlt := hlies.size_lt
    have hlen := h.data_length hc
    obtain ⟨b, hb, hkey⟩ := h.block
    have hsize : b.blockSize = c.key.roomSize - kStreamHeaderSize := by
      rw [blockSize_of_le (by rw [hkey]; omega), hkey]
    have hpayload : c.payload.length = c.key.dataSize - kStreamHeaderSize := by
      rw [Room.payload, length_drop, hlen]
    have hread : w.stream.file.read b.roomKey kStreamHeaderSize (min b.blockSize w.bufsz) =
        .ok (c.payload.take w.bufsz) := by
      obtain ⟨rooms, hstores, hsub⟩ := h.stores
      have hread := hstores.read (hsub c hc) (show kStreamHeaderSize + min b.blockSize w.bufsz < 2 ^ 32 by omega)
      rw [read_upTo] at hread
      rw [hkey, hread, show c.data.drop kStreamHeaderSize = c.payload from rfl]
      congr 1
      rw [take_eq_take_iff]
      omega
    rw [← hidx] at hb
    have hbody : workBody unset .rd w = _ := workBody_rd hb hofs hread
    have hcount : (c.payload.take w.bufsz).length = min w.bufsz c.payload.length := length_take
    rw [hcount] at hbody
    rw [content_cons, length_append] at hle
    by_cases hend : w.bufsz ≤ c.payload.length
    · rw [if_pos (by omega), Nat.min_eq_left hend] at hbody
      refine ⟨1, w.stream, ?_⟩
      rw [loop_ends hbody, content_cons, take_append_of_le_length hend]
    · have hkeys := h.keys.length_le
      rw [length_map, length_map, length_append, length_cons] at hkeys
      have hback : 0 < back.length := by
        by_contra hnone
        rw [eq_nil_of_length_eq_zero (show back.length = 0 by omega), content_nil, length_nil] at hle
        omega
      have hnext : w.stream.nextBlock unset .rd (w.idx + 1) b = (.ok true, w.stream) := by
        rw [nextBlock, if_pos (by omega)]
      rw [if_neg (by omega), hnext, Nat.min_eq_right (by omega), take_of_length_le (by omega)] at hbody
      dsimp only at hbody
      let w' : InnStream.Working :=
        { stream := { w.stream with lastSeekIndex := w.idx + 1 }, idx := w.idx + 1, ofsBlock := 0,
          buf := w.buf.drop c.payload.length, out := w.out ++ c.payload, bufsz := w.bufsz - c.payload.length,
          totsz := w.totsz + c.payload.length }
      have hover : Overlaid top cells ((front ++ [c]) ++ back) w'.stream.file w'.stream.blockList := by
        rw [append_assoc]
        exact h
      have hidx' : w'.idx = (front ++ [c]).length := by rw [length_append, length_singleton, ← hidx]
      have hpos' : 0 < w'.bufsz := Nat.sub_pos_of_lt (Nat.lt_of_not_le hend)
      have hle' : w'.bufsz ≤ (content back).length := Nat.sub_le_iff_le_add'.mpr hle
      obtain ⟨n, t, hn⟩ := ih hover hidx' rfl hpos' hle'
      refine ⟨n + 1, t, ?_⟩
      have htotsz : w.totsz + c.payload.length + (w.bufsz - c.payload.length) = w.totsz + w.bufsz := by omega
      rw [loop_goes hbody, hn, content_cons, take_append,
        take_of_length_le (show c.payload.length ≤ w.bufsz by omega)]
      dsimp only [w']
      rw [htotsz, append_assoc]

/-- What a read from position zero gives. -/
theorem Holds.read (h : Holds top cells parts m s) (unset : ℕ) {n : ℕ} (hpos : 0 < n)
    (hle : n ≤ (parts.drop m).flatten.length) :
    ∃ fuel t, s.read unset fuel 0 n = some (.ok (n, (parts.drop m).flatten.take n), t) := by
  obtain ⟨cells', hover, rfl⟩ := h.rooms
  have hcontent : ((cells'.map Room.payload).drop m).flatten = content (cells'.drop m) := by
    rw [← map_drop, content, flatMap_def]
  rw [hcontent] at hle ⊢
  have hm : m < cells'.length := by
    by_contra hnone
    rw [drop_of_length_le (by omega), content_nil, length_nil] at hle
    omega
  have hsplit : cells'.take m ++ cells'.drop m = cells' := take_append_drop m cells'
  rw [← hsplit] at hover
  let w : InnStream.Working :=
    { stream := { s with lastSeekIndex := m }, idx := m, ofsBlock := 0, buf := [], bufsz := n }
  have hidx : w.idx = (cells'.take m).length := by
    rw [length_take]
    exact (Nat.min_eq_left hm.le).symm
  obtain ⟨fuel, t, ht⟩ := Overlaid.reads (w := w) unset hover hidx rfl hpos hle
  refine ⟨fuel, t, ?_⟩
  rw [InnStream.read, InnStream.work, seekNoFlush, h.seek]
  dsimp only [bind_some]
  rw [ht]
  dsimp only [w]
  rw [zero_add, nil_append]

/-! ### More rounds -/

namespace IsStream

variable (h : IsStream s rooms cells) (hne : content cells ≠ []) (hpos : (content cells).length < pos)
include h hne hpos

end IsStream

end Fon9.Inn
