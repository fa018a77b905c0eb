import Fon9.Rts.Recover

/-! The blocks that `OnTimer` reads, seen as packets: of a block of `m` bytes the packets
whose records are whole are handled, and the record that is cut off is read again. -/

namespace Fon9.Rts

open Lib Buffer Bitv List MdRtsPk

variable (args : RecoverArgs)

/-- The packets of a block, the first one at a position, with `m` bytes of the block to go.
It gives the position, the bytes to go and the packets at the end of the block. -/
def packetLoop : ℕ → ℕ → List MdRtsPk → RecoverWork → RecoverWork × Option (ℕ × ℕ × List MdRtsPk)
  | pos, m, [], w => (w, some (pos, m, []))
  | pos, m, pk :: pks, w =>
    if pk.recordSize ≤ m then
      match w.onPacket args pos pk.rtsKind pk.packed pk.data with
      | (w, true) => (w, none)
      | (w, false) => packetLoop (pos + pk.recordSize) (m - pk.recordSize) pks w
    else (w, some (pos, m, pk :: pks))

variable {args} {pos m fuel : ℕ} {pk : MdRtsPk} {pks pks' : List MdRtsPk} {w w' : RecoverWork}

/-- Where a record is whole, its packet is handled. -/
theorem recordLoop_whole {nextReadPos : ℕ} {rest : Bytes} (hsize : pk.recordSize ≤ rdbufSize)
    (hpos : nextReadPos = pos + (pk.recordSize + rest.length)) :
    recordLoop args nextReadPos (fuel + 1) (pk.record pos ++ rest) w =
      match w.onPacket args pos pk.rtsKind pk.packed pk.data with
      | (w, true) => (w, none)
      | (w, false) => recordLoop args nextReadPos fuel rest w := by
  have hlen : (pk.record pos ++ rest).length = pk.recordSize + rest.length := by
    rw [length_append, length_record]
  have hheader := pk.lt_recordSize
  have hmax : pk.recordSize ≤ kBitvMaxByteArraySize := le_trans hsize (by decide)
  have hchk : nextReadPos - (pk.record pos ++ rest).length = pos := by omega
  have htake : (pk.packed ++ rest).take ((pk.packed ++ rest).length - (pk.data ++ rest).length + pk.data.length) = pk.packed := by
    apply take_left'
    simp only [MdRtsPk.packed, length_append]
    omega
  rw [recordLoop, if_neg (by omega)]
  dsimp only
  rw [hchk, chkValue_append, if_neg (not_not.mpr rfl), drop_header_append, popSize_packed hmax]
  dsimp only
  rw [if_neg (ne_of_gt pk.data_ne_nil), chkKind_append, htake, take_left' rfl, drop_left' rfl]
  all_goals rcases w.onPacket args pos pk.rtsKind pk.packed pk.data with ⟨w', _ | _⟩ <;> rfl

/-- Where it is cut off, the block ends. -/
theorem recordLoop_cut {nextReadPos : ℕ} (hsize : pk.recordSize ≤ rdbufSize) (hm : m < pk.recordSize)
    (hpos : nextReadPos = pos + m) :
    recordLoop args nextReadPos fuel ((pk.record pos).take m) w = (w, some ((pk.record pos).take m)) := by
  cases fuel with
  | zero => rfl
  | succ fuel =>
    have hlen : ((pk.record pos).take m).length = m := by
      rw [length_take, length_record]
      omega
    have hmax : pk.recordSize ≤ kBitvMaxByteArraySize := le_trans hsize (by decide)
    rw [recordLoop]
    by_cases hshort : ((pk.record pos).take m).length ≤ kChkHeaderSize
    · rw [if_pos hshort]
    · have hchk : nextReadPos - ((pk.record pos).take m).length = pos := by omega
      rw [if_neg hshort]
      dsimp only
      rw [hchk, chkValue_record (List.take_prefix _ _) (Nat.lt_of_not_le hshort), if_neg (not_not.mpr rfl), popSize_cut hmax hm]

/-- A block of records is a block of packets. -/
theorem recordLoop_records (hsize : ∀ pk ∈ pks, pk.recordSize ≤ rdbufSize) (hm : m ≤ recordsSize pks) (hfuel : m ≤ fuel) :
    recordLoop args (pos + m) fuel ((records pos pks).take m) w =
      match packetLoop args pos m pks w with
      | (w, none) => (w, none)
      | (w, some (pos', m', pks')) => (w, some ((records pos' pks').take m')) := by
  induction pks generalizing pos m fuel w with
  | nil =>
    obtain rfl : m = 0 := Nat.le_zero.mp hm
    cases fuel <;> rfl
  | cons pk pks ih =>
    have hpk := hsize pk mem_cons_self
    have hheader := pk.lt_recordSize
    rw [recordsSize_cons] at hm
    rw [records, packetLoop]
    by_cases hwhole : pk.recordSize ≤ m
    · obtain ⟨fuel, rfl⟩ : ∃ n, fuel = n + 1 := ⟨fuel - 1, by omega⟩
      have htake : (pk.record pos ++ records (pos + pk.recordSize) pks).take m =
          pk.record pos ++ (records (pos + pk.recordSize) pks).take (m - pk.recordSize) := by
        rw [take_append, length_record, take_of_length_le (by rw [length_record]; exact hwhole)]
      have hlen : ((records (pos + pk.recordSize) pks).take (m - pk.recordSize)).length = m - pk.recordSize := by
        rw [length_take, length_records]
        omega
      rw [htake, if_pos hwhole, recordLoop_whole hpk (by rw [hlen]; omega)]
      rcases w.onPacket args pos pk.rtsKind pk.packed pk.data with ⟨w', _ | _⟩
      · have hrest := @ih (pos + pk.recordSize) (m - pk.recordSize) fuel w' (fun pk h => hsize pk (mem_cons_of_mem _ h))
          (by omega) (by omega)
        rw [show pos + m = pos + pk.recordSize + (m - pk.recordSize) by omega]
        exact hrest
      · rfl
    · have hcut : m < pk.recordSize := Nat.lt_of_not_le hwhole
      have htake : (pk.record pos ++ records (pos + pk.recordSize) pks).take m = (pk.record pos).take m :=
        take_append_of_le_length (by rw [length_record]; omega)
      rw [htake, if_neg hwhole, recordLoop_cut hpk hcut rfl]
      dsimp only
      rw [records, htake]

/-! ### The packets at the end of a block -/

/-- The packets from a position of the storage on. -/
def At (recs : List MdRtsPk) (pos : ℕ) (pks : List MdRtsPk) : Prop :=
  ∃ before, recs = before ++ pks ∧ pos = recordsSize before

variable {recs : List MdRtsPk}

theorem At.next (h : At recs pos (pk :: pks)) : At recs (pos + pk.recordSize) pks := by
  obtain ⟨before, hrecs, hpos⟩ := h
  refine ⟨before ++ [pk], by rw [hrecs, append_assoc]; rfl, ?_⟩
  rw [hpos, recordsSize_append, recordsSize_cons]
  rfl

theorem At.endPos (h : At recs pos pks) : pos + recordsSize pks = recordsSize recs := by
  obtain ⟨before, rfl, rfl⟩ := h
  exact (recordsSize_append before pks).symm

theorem At.sizes (hsize : ∀ pk ∈ recs, pk.recordSize ≤ rdbufSize) (h : At recs pos pks) :
    ∀ pk ∈ pks, pk.recordSize ≤ rdbufSize := by
  obtain ⟨before, rfl, -⟩ := h
  exact fun pk hpk => hsize pk (mem_append_right _ hpk)

/-- Positions of the same packets. -/
theorem At.drop {later : Bytes} (h : At recs pos pks) : (records 0 recs ++ later).drop pos = records pos pks ++ later := by
  obtain ⟨before, rfl, rfl⟩ := h
  rw [records_append, zero_add, append_assoc, drop_left' (length_records 0 before)]

/-- What a block leaves for the next one. -/
structure Left (recs pks : List MdRtsPk) (pos m pos' m' : ℕ) (pks' : List MdRtsPk) : Prop where
  here : At recs pos' pks'
  sum : pos' + m' = pos + m
  short : m' ≤ recordsSize pks'
  cut : ∀ pk ∈ pks'.head?, m' < pk.recordSize
  length : pks'.length ≤ pks.length
  progress : (∀ pk ∈ pks.head?, pk.recordSize ≤ m) → pks ≠ [] → pks'.length < pks.length

theorem packetLoop_left {pos' m' : ℕ} (hat : At recs pos pks) (hm : m ≤ recordsSize pks)
    (h : packetLoop args pos m pks w = (w', some (pos', m', pks'))) : Left recs pks pos m pos' m' pks' := by
  induction pks generalizing pos m w with
  | nil =>
    rw [packetLoop] at h
    cases h
    exact ⟨hat, rfl, hm, fun _ h => (nomatch h), le_rfl, fun _ hne => absurd rfl hne⟩
  | cons pk pks ih =>
    rw [recordsSize_cons] at hm
    rw [packetLoop] at h
    by_cases hwhole : pk.recordSize ≤ m
    · rw [if_pos hwhole] at h
      rcases hpacket : w.onPacket args pos pk.rtsKind pk.packed pk.data with ⟨w₁, _ | _⟩
      · rw [hpacket] at h
        have hrest := ih hat.next (by omega) h
        have hsum := hrest.sum
        have hlength := hrest.length
        refine ⟨hrest.here, by omega, hrest.short, hrest.cut, ?_, fun _ _ => ?_⟩
        · exact le_trans hlength (Nat.le_succ _)
        · exact Nat.lt_succ_of_le hlength
      · rw [hpacket] at h
        cases h
    · rw [if_neg hwhole] at h
      cases h
      refine ⟨hat, rfl, by rw [recordsSize_cons]; omega, ?_, le_rfl, fun hfirst _ => ?_⟩
      · rintro _ ⟨⟩
        exact Nat.lt_of_not_le hwhole
      · exact absurd (hfirst pk rfl) hwhole

/-- The storage holds the records up to the end that the subscription was given. -/
structure Stored (args : RecoverArgs) (recs : List MdRtsPk) : Prop where
  reader : ∃ later, args.reader = records 0 recs ++ later
  sizes : ∀ pk ∈ recs, pk.recordSize ≤ rdbufSize

/-- At the end there is nothing to be read. -/
theorem blockLoop_end {b : ℕ} (hat : At recs pos []) (hend : w.recover.endPos = recordsSize recs) (hb : b ≤ recordsSize []) :
    blockLoop args (fuel + 1) ((records pos []).take b) (pos + b) w = (w, some pos) := by
  obtain rfl : b = 0 := Nat.le_zero.mp hb
  have hpos : pos + 0 = recordsSize recs := hat.endPos
  rw [blockLoop]
  dsimp only
  rw [if_pos (by omega)]
  rfl

/-- One block, with `b` bytes of the record that was cut off before. -/
theorem blockLoop_block {b : ℕ} (hstored : Stored args recs) (hat : At recs pos pks) (hne : pks ≠ [])
    (hend : w.recover.endPos = recordsSize recs) (hcut : ∀ pk ∈ pks.head?, b < pk.recordSize) :
    blockLoop args (fuel + 1) ((records pos pks).take b) (pos + b) w =
      match packetLoop args pos (min rdbufSize (recordsSize pks)) pks w with
      | (w, none) => (w, none)
      | (w, some (pos', m', pks')) =>
        if w.recover.isStarted then ({ w with recover := w.recover.setLastPos pos' }, some pos')
        else blockLoop args fuel ((records pos' pks').take m') (pos' + m') w := by
  obtain ⟨later, hreader⟩ := hstored.reader
  have hsizes := hat.sizes hstored.sizes
  have hpos := hat.endPos
  obtain ⟨hb, hfirst⟩ : b < recordsSize pks ∧ b < rdbufSize := by
    cases pks with
    | nil => exact absurd rfl hne
    | cons pk pks =>
      have hlt := hcut pk rfl
      have hle := hsizes pk mem_cons_self
      rw [recordsSize_cons]
      omega
  have hrdbuf : ((records pos pks).take b).length = b := by
    rw [length_take, length_records]
    omega
  have hrd : (args.reader.drop (pos + b)).take (min (rdbufSize - ((records pos pks).take b).length) (w.recover.endPos - (pos + b))) =
      ((records pos pks).drop b).take (min rdbufSize (recordsSize pks) - b) := by
    rw [hreader, ← drop_drop, hat.drop, hrdbuf, drop_append_of_le_length (by rw [length_records]; omega),
      take_append_of_le_length (by rw [length_drop, length_records]; omega)]
    congr 1
    omega
  have hlen : (((records pos pks).drop b).take (min rdbufSize (recordsSize pks) - b)).length = min rdbufSize (recordsSize pks) - b := by
    rw [length_take, length_drop, length_records]
    omega
  have hrdne : ((records pos pks).drop b).take (min rdbufSize (recordsSize pks) - b) ≠ [] := by
    intro hnil
    rw [hnil, length_nil] at hlen
    omega
  have hbuf : (records pos pks).take b ++ ((records pos pks).drop b).take (min rdbufSize (recordsSize pks) - b) =
      (records pos pks).take (min rdbufSize (recordsSize pks)) := by
    rw [← take_add]
    congr 1
    omega
  have hbuflen : ((records pos pks).take (min rdbufSize (recordsSize pks))).length = min rdbufSize (recordsSize pks) := by
    rw [length_take, length_records]
    omega
  have hnext : pos + b + (min rdbufSize (recordsSize pks) - b) = pos + min rdbufSize (recordsSize pks) := by omega
  rw [blockLoop]
  dsimp only
  rw [if_neg (by omega), hrd, if_neg hrdne, hlen, hbuf, hbuflen, hnext,
    recordLoop_records hsizes (Nat.min_le_right _ _) le_rfl]
  rcases hloop : packetLoop args pos (min rdbufSize (recordsSize pks)) pks w with ⟨w', _ | ⟨pos', m', pks'⟩⟩
  · rfl
  · have hleft := packetLoop_left hat (Nat.min_le_right _ _) hloop
    have hsum := hleft.sum
    have hrest : ((records pos' pks').take m').length = m' := by
      rw [length_take, length_records]
      have := hleft.short
      omega
    have hback : pos + min rdbufSize (recordsSize pks) - m' = pos' := by omega
    dsimp only
    rw [hrest, hback, ← hsum]

end Fon9.Rts
