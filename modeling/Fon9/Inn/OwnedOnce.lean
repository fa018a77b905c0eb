import Fon9.Inn.Runs

/-! An InnDbf that is opened, on a new file or on one that an InnDbf left, and its runs from
there: no room has two owners, where no request is carried out before `LoadAll` or during a
load. -/

namespace Fon9.Inn

open Lib Bitv Buffer InnDbf List BigEndian InnFile Option

variable {s s' : InnDbf} {f : InnFile} {rooms : List Room} {r : Room}

/-! ### The tables of the file -/

/-- Nothing is counted yet. -/
def Uncounted (tables : List (Option InnDbfTableLink)) : Prop := ∀ t ∈ tables, ∀ table ∈ t, table.roomCount = 0

theorem addTable_uncounted {tables tables' : List (Option InnDbfTableLink)} {tableId : ℕ} {tableName : Bytes}
    (h : Uncounted tables) (hadd : addTable tables tableId tableName = some tables') : Uncounted tables' := by
  have hnew : ∀ table ∈ some ({ tableName := tableName } : InnDbfTableLink), table.roomCount = 0 := by
    rintro table ⟨⟩
    rfl
  unfold addTable at hadd
  split at hadd
  · cases hadd
  split at hadd
  · cases hadd
    intro t ht
    rcases mem_append.mp ht with ht | ht
    · rcases mem_append.mp ht with ht | ht
      · exact h t ht
      · rw [eq_of_mem_replicate ht]
        exact fun table htable => nomatch htable
    · rw [mem_singleton.mp ht]
      exact hnew
  split at hadd
  · cases hadd
  · cases hadd
    intro t ht
    rcases mem_or_eq_of_mem_set ht with ht | rfl
    · exact h t ht
    · exact hnew

variable {fuel : ℕ} {blockSize : ℕ}

theorem liftInn_ok {α : Type} {x : Except InnError α} {a : α} (h : liftInn x = .ok a) : x = .ok a := by
  cases x with
  | error e => cases h
  | ok b =>
    cases h
    rfl

theorem openTables_uncounted {buf : Bytes} {tables tables' : List (Option InnDbfTableLink)} (h : Uncounted tables)
    (hopen : openTables fuel buf tables = .ok tables') : Uncounted tables' := by
  induction fuel generalizing buf tables with
  | zero =>
    cases hopen
    exact h
  | succ fuel ih =>
    rw [openTables] at hopen
    split at hopen
    · cases hopen
      exact h
    obtain ⟨⟨tableId, buf'⟩, -, hopen⟩ := bind_ok hopen
    obtain ⟨⟨tableName, buf''⟩, -, hopen⟩ := bind_ok hopen
    dsimp only at hopen
    split at hopen
    · cases hopen
    cases hadd : addTable tables tableId.1.toNat tableName with
    | none =>
      simp only [hadd] at hopen
      cases hopen
    | some tables₁ =>
      simp only [hadd] at hopen
      exact ih (addTable_uncounted h hadd) hopen

theorem Uncounted.getTable (h : Uncounted s.tableList) {t : ℕ} {table : InnDbfTableLink}
    (htable : s.getTable t = some table) : table.roomCount = 0 := by
  unfold InnDbf.getTable at htable
  split at htable
  · cases htable
  · have hentry := join_eq_some_iff.mp htable
    exact h _ (mem_of_getElem? hentry) table rfl

/-! ### The rooms of the ExHeader -/

theorem openChain_ok (h : Content f rooms) {fuel next : ℕ} {buf data : Bytes} {key : RoomKey}
    (hnext : next = 0 ∨ ∃ x ∈ rooms, x.key.roomPos = next ∧ x.key.currentRoomType = kInnRoomType_ExFileHeader)
    (hok : openChain f fuel next buf = .ok (some (key, data))) :
    ∃ r ∈ rooms, r.key = key ∧ r.key.currentRoomType = kInnRoomType_ExFileHeader := by
  induction fuel generalizing next buf with
  | zero => cases hok
  | succ fuel ih =>
    -- the room that is read
    obtain ⟨r, hr, htype, hmake⟩ : ∃ r ∈ rooms, r.key.currentRoomType = kInnRoomType_ExFileHeader ∧
        f.makeRoomKey next 8 = f.makeRoomKey r.key.roomPos 8 := by
      rcases hnext with rfl | ⟨r, hr, rfl, htype⟩
      · obtain ⟨r, hr, hpos, htype⟩ := h.first
        exact ⟨r, hr, htype, by rw [makeRoomKey_zero h.stores.laid.header_pos, hpos]⟩
      · exact ⟨r, hr, htype, rfl⟩
    obtain ⟨next', hof⟩ := h.exHeaderOf hr htype
    obtain ⟨rest, hdata⟩ := hof.data
    rw [openChain, hmake] at hok
    cases hread : f.makeRoomKey r.key.roomPos 8 with
    | error e =>
      rw [hread] at hok
      cases hok
    | ok found =>
      obtain ⟨k, bytes⟩ := found
      obtain ⟨rfl, hbytes, hin⟩ := (h.stores.lies hr).makeRoomKey_ok (by decide) hread
      have hlen := h.stores.data_length hr
      rw [hdata, length_append, length_bytes] at hlen
      have hdisk := (h.stores.lies hr).disk.data_le
      have hto := (h.stores.lies hr).next_le
      have hstored := h.stores.laid.stored
      have hvalue : BigEndian.value bytes = next' := by
        have hpart := @ByteFile.read_part f.storage (r.key.roomPos + kRoomHeaderSize) r.key.dataSize 0 8
          (by omega) (by omega)
        rw [h.stores.data r hr, hdata, drop_zero, take_left' (length_bytes 8 _)] at hpart
        rw [hbytes, show r.key.roomPos + kRoomHeaderSize = r.key.roomPos + kRoomHeaderSize + 0 from rfl, hpart,
          value_bytes (lt_trans hof.next_lt (by decide : 2 ^ 63 < 256 ^ 8))]
      simp only [hread, liftInn, Except.mapError, bind, Except.bind, htype, ne_eq, not_true_eq_false, if_false,
        hvalue, pure, Except.pure] at hok
      split at hok
      · cases hok
      next data' _ =>
        split at hok
        · cases hok
          exact ⟨r, hr, rfl, htype⟩
        next hne => exact ih (.inr (h.next r hr next' hof hne)) hok

/-! ### Open -/

/-- Opened, nothing has a room but the ExHeader. -/
theorem opened (h : Content f rooms) (hex : ∃ r ∈ rooms, r.key = s.exHeaderLastRoomKey ∧
      r.key.currentRoomType = kInnRoomType_ExFileHeader) (hfile : s.file = f)
    (htables : Uncounted s.tableList)
    (hs : s = { file := s.file, exHeaderLastRoomKey := s.exHeaderLastRoomKey, tableList := s.tableList }) :
    Inv s rooms := by
  have hrooms : ∀ i, s.rooms i = {} := fun i => by rw [hs]
  have hdead : ∀ i, ¬ s.HasRoom i := by
    intro i hi
    rw [InnDbf.HasRoom, hrooms] at hi
    exact hi rfl
  have hfree : s.freedRoomsMap = [] := by rw [hs]
  refine ⟨⟨hfile ▸ h, hex, fun i hi => absurd hi (hdead i), fun i _ hi => absurd hi (hdead i), fun i _ => ?_, ?_, ?_⟩,
    fun i _ => hdead i, ?_, fun _ => ⟨hdead, hfree, by rw [hs], fun t table ht _ => htables.getTable ht⟩, ?_⟩
  · rw [hrooms]
  · rw [hfree]
    exact fun e he => by cases he
  · rw [hfree]
    exact nodup_nil
  · rw [hs]
    exact fun req hreq => by cases hreq
  · rw [hs]
    exact fun l hl => by cases hl

theorem Inv.reopen (h : Inv s rooms) (hopen : InnDbf.open s.file.storage 0 fuel = .ok s') :
    Inv s' rooms := by
  have hcontent := h.owns.content
  unfold InnDbf.open at hopen
  obtain ⟨⟨g, blockCount⟩, hfile, hopen⟩ := bind_ok hopen
  obtain ⟨rfl, -⟩ := hcontent.whole.open hcontent.stores.laid.block_lt (liftInn_ok hfile)
  obtain ⟨found, hchain, hopen⟩ := bind_ok hopen
  cases found with
  | none =>
    -- there is a first room, so this is no new file
    obtain ⟨r, hr, hpos, -⟩ := hcontent.first
    obtain ⟨⟨key, bytes⟩, hmake, hopen⟩ := bind_ok hopen
    have hmake := liftInn_ok hmake
    rw [makeRoomKey_zero hcontent.stores.laid.header_pos, ← hpos] at hmake
    obtain ⟨rfl, -, -⟩ := (hcontent.stores.lies hr).makeRoomKey_ok (by decide) hmake
    dsimp only at hopen
    rw [if_neg (hcontent.stores.roomPos_ne hr)] at hopen
    cases hopen
  | some found =>
    obtain ⟨key, buf⟩ := found
    have hex := openChain_ok hcontent (.inl rfl) hchain
    dsimp only at hopen
    split at hopen
    · cases hopen
    obtain ⟨⟨tableName, buf'⟩, -, hopen⟩ := bind_ok hopen
    obtain ⟨⟨v, buf''⟩, -, hopen⟩ := bind_ok hopen
    dsimp only at hopen
    split at hopen
    · cases hopen
    obtain ⟨tables, htables, hopen⟩ := bind_ok hopen
    cases hopen
    exact opened hcontent hex rfl (openTables_uncounted (fun t ht => absurd ht not_mem_nil) htables) rfl

section

variable (hpos : 0 < blockSize) (hlt : blockSize < 2 ^ 32)
include hpos hlt

theorem newFile_stores :
    Stores (newFile blockSize) [] ∧ Whole (newFile blockSize) := by
  have hlen : (newHeader blockSize).length = kInnHeaderSize := by
    simp only [newHeader, length_append, length_bytes, length_replicate]
    rfl
  have hne : newHeader blockSize ≠ [] := ne_nil_of_length_pos (hlen ▸ by decide)
  refine ⟨⟨(newFile_inv hpos hlt).laid, fun r hr => absurd hr not_mem_nil⟩, rfl, ?_, ?_⟩
  · show (ByteFile.empty.write 0 (newHeader blockSize)).size = kInnHeaderSize
    rw [ByteFile.write, if_neg hne, hlen]
    rfl
  · show (ByteFile.empty.write 0 (newHeader blockSize)).read 0 kInnHeaderSize = _
    rw [← hlen]
    exact ByteFile.read_write hne

/-- A room whose block count wraps has no place for the data. -/
theorem fits_of_rewrite {key : RoomKey} {g : InnFile}
    (hsize : key.roomSize = (newFile blockSize).calcRoomSize ((newFile blockSize).newBlockCount kInnDbfExHeaderSize))
    {made : RoomKey × InnFile} (hrewrite : g.rewrite key newExHeader = .ok made) :
    Fits blockSize kInnDbfExHeaderSize := by
  have h9 : kRoomHeaderSize = 9 := rfl
  have h256 : kInnDbfExHeaderSize = 256 := rfl
  refine ⟨?_, by rw [h256]; omega⟩
  by_contra hwrap
  have hcount : (newFile blockSize).newBlockCount kInnDbfExHeaderSize = 0 := by
    show u32 (kInnDbfExHeaderSize + kRoomHeaderSize + blockSize - 1) / blockSize = 0
    apply Nat.div_eq_of_lt
    unfold u32
    omega
  rw [hcount] at hsize
  have hzero : key.roomSize = 0 := hsize
  have hlong : newExHeader.length > key.roomSize := by
    rw [hzero]
    decide
  unfold InnFile.rewrite at hrewrite
  cases hcheck : g.checkRoomPos key.roomPos "InnFile.Rewrite: bad roomPos." with
  | error e =>
    rw [hcheck] at hrewrite
    cases hrewrite
  | ok _ =>
    simp only [hcheck, bind, Except.bind, if_pos hlong] at hrewrite
    cases hrewrite

/-- A new file has the first room of the ExHeader, and no other one. -/
theorem onNewInnFile_ok (hnew : onNewInnFile (newFile blockSize) = .ok s) :
    ∃ r : Room, r.data = newExHeader ∧ r.key.currentRoomType = kInnRoomType_ExFileHeader ∧ Stores s.file [r] ∧
      Whole s.file ∧ s.file.blockSize = blockSize ∧ s = { file := s.file, exHeaderLastRoomKey := r.key } := by
  unfold onNewInnFile at hnew
  cases hgrow : (newFile blockSize).cannotGrow kInnDbfExHeaderSize .none with
  | true =>
    unfold InnFile.makeNewRoom at hnew
    rw [if_neg (show (newFile blockSize).blockSize ≠ 0 from ne_of_gt hpos)] at hnew
    simp only [hgrow, if_true] at hnew
    cases hnew
  | false =>
    have hmade : ∃ key g, (newFile blockSize).makeNewRoom kInnRoomType_ExFileHeader kInnDbfExHeaderSize .none =
        (.ok key, g) ∧ key.roomSize = (newFile blockSize).calcRoomSize ((newFile blockSize).newBlockCount
          kInnDbfExHeaderSize) := by
      unfold InnFile.makeNewRoom
      rw [if_neg (show (newFile blockSize).blockSize ≠ 0 from ne_of_gt hpos)]
      simp only [hgrow, Bool.false_eq_true, if_false]
      exact ⟨_, _, rfl, rfl⟩
    obtain ⟨key, g, hmake, hsize⟩ := hmade
    simp only [hmake, liftInn, Except.mapError, bind, Except.bind] at hnew
    cases hrewrite : g.rewrite key newExHeader with
    | error e =>
      simp only [hrewrite] at hnew
      cases hnew
    | ok made =>
      have hfits := fits_of_rewrite hpos hlt hsize hrewrite
      obtain ⟨hstores, hwhole⟩ := newFile_stores hpos hlt
      obtain ⟨key', g', hmake', hle, htype, hstores', hwhole', hblock'⟩ :=
        @Whole.makeNewRoom _ _ kInnRoomType_ExFileHeader _ hwhole hstores hfits hgrow
      rw [hmake] at hmake'
      cases hmake'
      have hmem : (⟨key, []⟩ : Room) ∈ [⟨key, []⟩] := mem_singleton_self _
      obtain ⟨g₂, hrewrite', hsame, hstores₂⟩ := hstores'.rewrite hmem (hstores'.saved_key hmem)
        (le_trans (by decide) hle : newExHeader.length ≤ key.roomSize)
      rw [hrewrite] at hrewrite'
      cases hrewrite'
      simp only [hrewrite] at hnew
      cases hnew
      rw [nil_append, putRoom, map_singleton, if_pos rfl] at hstores₂
      exact ⟨_, rfl, (hstores'.lies hmem).disk.pending.trans htype, hstores₂,
        hwhole'.of_sameBut (hstores'.lies hmem) hsame le_rfl, hsame.blockSize.trans hblock', rfl⟩

end

/-- What opening an empty file does. -/
theorem open_new {blockSize : UInt32} (hopen : InnDbf.open ByteFile.empty blockSize.toNat fuel = .ok s) :
    0 < blockSize.toNat ∧ onNewInnFile (newFile blockSize.toNat) = .ok s := by
  unfold InnDbf.open at hopen
  rw [open_empty] at hopen
  simp only [liftInn, Except.mapError, bind, Except.bind] at hopen
  rcases Nat.eq_zero_or_pos blockSize.toNat with hzero | hpos
  · -- a position is taken modulo the size of the blocks
    have hmake : (newFile blockSize.toNat).makeRoomKey 0 8 = .error .divideByZero := by
      rw [hzero]
      rfl
    have hchain : openChain (newFile blockSize.toNat) fuel 0 [] = .ok none ∨
        openChain (newFile blockSize.toNat) fuel 0 [] = .error (.inn .divideByZero) := by
      cases fuel with
      | zero => exact .inl rfl
      | succ fuel =>
        rw [openChain, hmake]
        exact .inr rfl
    rcases hchain with hchain | hchain
    · simp only [hchain, hmake] at hopen
      cases hopen
    · simp only [hchain] at hopen
      cases hopen
  · have hmake : (newFile blockSize.toNat).makeRoomKey 0 8 = .ok ({}, []) := by
      rw [makeRoomKey_zero (show 0 < kInnHeaderSize by decide)]
      exact makeRoomKey_end hpos (show 0 < kInnHeaderSize by decide) le_rfl (by simp) le_rfl
    have hchain : openChain (newFile blockSize.toNat) fuel 0 [] = .ok none := by
      cases fuel with
      | zero => rfl
      | succ fuel =>
        rw [openChain, hmake]
        rfl
    simp only [hchain, hmake, if_true] at hopen
    exact ⟨hpos, hopen⟩

/-- What a step needs: a request is carried out after `LoadAll`, while nothing is loaded, and
its sizes are in their types. -/
def StepMeets (s : InnDbf) : Act → Prop
  | .doUpdateRequest => s.isLoadedAll = true ∧ s.loader = none ∧ ∀ req ∈ s.requests.head?, RequestFits s req
  | _ => True

instance (s : InnDbf) : (a : Act) → Decidable (StepMeets s a)
  | .doUpdateRequest => inferInstanceAs (Decidable (_ = _ ∧ _ = _ ∧ ∀ req ∈ s.requests.head?, RequestFits s req))
  | .linkTable .. | .loadAll | .loadStep | .updateRoom .. | .freeRoom .. | .reopen .. => isTrue trivial

theorem Inv.step {a : Act} (h : ∃ rooms, Inv s rooms) (hmeets : StepMeets s a) (hstep : InnDbf.step s a = some s') :
    ∃ rooms, Inv s' rooms := by
  obtain ⟨rooms, h⟩ := h
  cases a with
  | linkTable tableName minRoomSize =>
    obtain ⟨-, heq⟩ := ite_none_right_eq_some.mp hstep
    cases heq
    exact ⟨rooms, h.linkTable tableName minRoomSize.toNat⟩
  | loadAll =>
    obtain ⟨-, heq⟩ := ite_none_right_eq_some.mp hstep
    cases heq
    exact ⟨rooms, h.loadAll⟩
  | loadStep =>
    cases hstep
    exact ⟨rooms, h.loadStep⟩
  | updateRoom tableId room syncKey now localHostId roomType buf =>
    obtain ⟨⟨hlinked, hroom⟩, heq⟩ := ite_none_right_eq_some.mp hstep
    cases heq
    exact ⟨rooms, h.updateRoom syncKey now localHostId roomType buf hlinked hroom⟩
  | freeRoom tableId room =>
    obtain ⟨⟨hlinked, hroom⟩, heq⟩ := ite_none_right_eq_some.mp hstep
    cases heq
    exact ⟨rooms, h.freeRoom hlinked hroom⟩
  | doUpdateRequest =>
    cases hstep
    obtain ⟨hloaded, hidle, hfits⟩ := hmeets
    exact h.doUpdateRequest hloaded hidle hfits
  | reopen fuel =>
    obtain ⟨-, hopen⟩ := ite_none_right_eq_some.mp hstep
    cases hresult : InnDbf.open s.file.storage 0 fuel with
    | error e =>
      rw [hresult] at hopen
      cases hopen
    | ok t =>
      rw [hresult] at hopen
      cases hopen
      exact ⟨rooms, h.reopen hresult⟩

end Fon9.Inn
