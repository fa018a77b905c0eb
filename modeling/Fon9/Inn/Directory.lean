import Fon9.Bitv.Bytes
import Fon9.Inn.OwnedOnce
import Fon9.Inn.Reopen
import Fon9.Inn.StreamRooms

/-! The tables that are stored in the ExHeader of an InnDbf. The rooms of the ExHeader are read one after the other,
and give each table the id that it had. -/

namespace Fon9.Inn

open Lib Bitv Buffer InnDbf List BigEndian Option

/-! ### Linking tables -/

/-- A table is linked, a request is carried out, or the file is closed and opened again. -/
def InnDbf.Act.linksTables : Act → Bool
  | .linkTable .. | .doUpdateRequest | .reopen _ => true
  | .loadAll | .loadStep | .updateRoom .. | .freeRoom .. => false

/-- The name of each table, in the order of their ids. -/
def InnDbf.tableNames (s : InnDbf) : List (Option Bytes) := s.tableList.map (Option.map InnDbfTableLink.tableName)

/-- The id is in its type, and the entry can be stored: where the last room has no place for it, a new room can be made. -/
def EntryFits (s : InnDbf) (tableId : ℕ) (table : InnDbfTableLink) : Prop :=
  let size := (tableEntry tableId table.tableName).length
  tableId < 2 ^ 32 ∧ table.tableName.length ≤ kBitvMaxByteArraySize ∧ size < 2 ^ 32 ∧
    (s.exHeaderLastRoomKey.roomSize - s.exHeaderLastRoomKey.dataSize < size →
      Fits s.file.blockSize (size + kInnDbfExHeaderSize) ∧ s.file.cannotGrow (size + kInnDbfExHeaderSize) .none = false)

instance (s : InnDbf) (tableId : ℕ) (table : InnDbfTableLink) : Decidable (EntryFits s tableId table) :=
  inferInstanceAs (Decidable (_ ∧ _ ∧ _ ∧ (_ → Fits _ _ ∧ _ = _)))

/-- The table whose request is carried out can be stored. -/
def EntriesFit (s : InnDbf) : Act → Prop
  | .doUpdateRequest =>
    ∀ req ∈ s.requests.head?, ∀ tableId ∈ req.table, ∀ table ∈ s.getTable tableId, EntryFits s tableId table
  | _ => True

instance (s : InnDbf) : (a : Act) → Decidable (EntriesFit s a)
  | .doUpdateRequest => inferInstanceAs (Decidable
      (∀ req ∈ s.requests.head?, ∀ tableId ∈ req.table, ∀ table ∈ s.getTable tableId, EntryFits s tableId table))
  | .linkTable .. | .loadAll | .loadStep | .updateRoom .. | .freeRoom .. | .reopen .. => isTrue trivial

/-- The file is opened again with the same tables at the same ids, and they stay there when they are linked. -/
def InnDbf.Persists (s : InnDbf) : Prop :=
  ∃ n, ∀ fuel ≥ n, ∀ blockSize, ∃ s', InnDbf.open s.file.storage blockSize fuel = .ok s' ∧ s'.tableNames = s.tableNames ∧
    ∀ tableName minRoomSize, some tableName ∈ s.tableNames →
      (s'.linkTable tableName minRoomSize).tableNames = s.tableNames

/-! ### Entries -/

/-- The entries of tables, from an id on. -/
def tableEntries : ℕ → List Bytes → Bytes
  | _, [] => []
  | tableId, tableName :: names => tableEntry tableId tableName ++ tableEntries (tableId + 1) names

theorem tableEntries_concat (tableId : ℕ) (names : List Bytes) (tableName : Bytes) :
    tableEntries tableId (names ++ [tableName]) =
      tableEntries tableId names ++ tableEntry (tableId + names.length) tableName := by
  induction names generalizing tableId with
  | nil => exact append_nil _
  | cons name names ih =>
    rw [cons_append, tableEntries, tableEntries, ih, append_assoc, length_cons]
    congr 3
    omega

/-- The tables that are opened, without handlers. -/
def namedTables (names : List Bytes) : List (Option InnDbfTableLink) := names.map fun name => some { tableName := name }

variable {tableName : Bytes} {entry : Bytes}

theorem addTable_named {names : List Bytes} (hnew : tableName ∉ names) :
    addTable (namedTables names) (names.length + 1) tableName = some (namedTables (names ++ [tableName])) := by
  have hany : (namedTables names).any (fun t => t.any fun t => t.tableName = tableName) = false := by
    rw [List.any_eq_false]
    intro t ht
    obtain ⟨name, hname, rfl⟩ := mem_map.mp ht
    simp only [any_some, decide_eq_true_eq]
    rintro rfl
    exact hnew hname
  have hlen : (namedTables names).length = names.length := length_map _
  rw [addTable, hany, if_neg Bool.false_ne_true, hlen, if_pos (Nat.lt_succ_self _), Nat.add_sub_cancel, Nat.sub_self,
    replicate_zero, append_nil, namedTables, namedTables, map_append]
  rfl

theorem length_tableEntry_pos {tableId : ℕ} (hid : tableId < 2 ^ 32) (tableName : Bytes) :
    0 < (tableEntry tableId tableName).length := by
  have hpos := (uint32_length hid).1
  rw [tableEntry, length_append]
  omega

variable {fuel : ℕ} {next : ℕ}

/-- The entries give the tables back. -/
theorem openTables_entries {names stored : List Bytes} (hids : stored.length + names.length < 2 ^ 32)
    (hnames : ∀ name ∈ names, name.length ≤ kBitvMaxByteArraySize) (hnodup : (stored ++ names).Nodup)
    (hfuel : (tableEntries (stored.length + 1) names).length ≤ fuel) :
    openTables fuel (tableEntries (stored.length + 1) names) (namedTables stored) = .ok (namedTables (stored ++ names)) := by
  induction names generalizing stored fuel with
  | nil =>
    rw [append_nil]
    cases fuel with
    | zero => rfl
    | succ fuel => rfl
  | cons name names ih =>
    rw [length_cons] at hids
    have hid : stored.length + 1 < 2 ^ 32 := by omega
    have hentry := length_tableEntry_pos hid name
    rw [tableEntries] at hfuel ⊢
    rw [length_append] at hfuel
    obtain ⟨fuel, rfl⟩ : ∃ k, fuel = k + 1 := ⟨fuel - 1, by omega⟩
    have hne : tableEntry (stored.length + 1) name ++ tableEntries (stored.length + 1 + 1) names ≠ [] := by
      apply ne_nil_of_length_pos
      rw [length_append]
      omega
    obtain ⟨v, hv, hread⟩ := uint32_reads hid
      ((byteArrayToBitv name).text ++ tableEntries (stored.length + 1 + 1) names)
    obtain ⟨q, hstr, hq⟩ := str_reads (Q := Bytes) (hnames name mem_cons_self) _
      (tableEntries (stored.length + 1 + 1) names) rfl
    have hq' : q = tableEntries (stored.length + 1 + 1) names := hq
    rw [hq'] at hstr
    have hpos : ¬v.1 ≤ 0 := by omega
    have hnew : name ∉ stored := by
      intro hmem
      exact disjoint_of_nodup_append hnodup hmem mem_cons_self
    have hrest := @ih fuel (stored ++ [name]) (by rw [length_append, length_singleton]; omega)
      (fun n hn => hnames n (mem_cons_of_mem name hn)) (by rwa [append_assoc])
      (by rw [length_append, length_singleton]; omega)
    rw [length_append, length_singleton, append_assoc] at hrest
    rw [openTables, if_neg hne, tableEntry, append_assoc, hread]
    simp only [liftBitv, Except.mapError, bind, Except.bind, hstr, if_neg hpos, hv, addTable_named hnew]
    exact hrest

/-! ### The rooms of the ExHeader -/

variable {f g : InnFile} {rooms front back back' : List Room} {r r' : Room} {last : RoomKey} {s s' : InnDbf}
  {stored waiting : List Bytes}

/-- All rooms of the file are those of the ExHeader, each with the position of the next one. -/
structure ExHeaderRooms (f : InnFile) (last : RoomKey) (rooms : List Room) : Prop where
  stores : Stores f rooms
  whole : Whole f
  align : kBlockSizeAlign ≤ f.blockSize ∧ f.blockSize % kBlockSizeAlign = 0
  room : ∀ r ∈ rooms, r.key.currentRoomType = kInnRoomType_ExFileHeader ∧ kStreamHeaderSize ≤ r.key.dataSize
  linked : Linked rooms
  last_eq : ∃ front r, rooms = front ++ [r] ∧ last = r.key

theorem Linked.replace (h : Linked (front ++ r :: back)) (hpos : r'.key.roomPos = r.key.roomPos)
    (hback : Linked (r' :: back')) : Linked (front ++ r' :: back') := by
  induction front with
  | nil => exact hback
  | cons c front ih =>
    obtain ⟨hlink, hrest⟩ := h
    refine ⟨hlink.trans ?_, ih hrest⟩
    cases front with
    | nil => exact hpos.symm
    | cons c' front => rfl

theorem Linked.append_right (h : Linked (front ++ back)) : Linked back := by
  induction front with
  | nil => exact h
  | cons c front ih => exact ih h.2

theorem link_lt (r : Room) : r.link < 256 ^ 8 := by
  have hlt := BigEndian.value_lt (r.data.take kStreamHeaderSize)
  have hle : (r.data.take kStreamHeaderSize).length ≤ 8 := by
    rw [length_take]
    exact Nat.min_le_left _ _
  exact lt_of_lt_of_le hlt (Nat.pow_le_pow_right (by decide) hle)

theorem link_of_data {bytes : Bytes} (hdata : r.data = BigEndian.bytes 8 next ++ bytes) (hnext : next < 256 ^ 8) :
    r.link = next := by
  have htake : (BigEndian.bytes 8 next ++ bytes).take kStreamHeaderSize = BigEndian.bytes 8 next :=
    take_left' (length_bytes 8 next)
  rw [Room.link, hdata, htake, value_bytes hnext]

theorem payload_of_data {bytes : Bytes} (hdata : r.data = BigEndian.bytes 8 next ++ bytes) :
    r.payload = bytes := by
  rw [Room.payload, hdata]
  exact drop_left' (length_bytes 8 next)

/-- The first bytes of a room are its link. -/
theorem data_eq (h : Stores f rooms) (hr : r ∈ rooms) (hsize : kStreamHeaderSize ≤ r.key.dataSize) :
    r.data = BigEndian.bytes 8 r.link ++ r.payload := by
  have hlen : (r.data.take kStreamHeaderSize).length = 8 := by
    rw [length_take, h.data_length hr]
    exact Nat.min_eq_left hsize
  have hbytes := bytes_value (r.data.take kStreamHeaderSize)
  rw [hlen] at hbytes
  rw [Room.link, hbytes, Room.payload, take_append_drop]

/-- The rooms are read one after the other, with a turn for each. -/
theorem openChain_rooms (h : Stores f (front ++ back))
    (hroom : ∀ r ∈ back, r.key.currentRoomType = kInnRoomType_ExFileHeader ∧ kStreamHeaderSize ≤ r.key.dataSize)
    (hlinked : Linked back) (fuel : ℕ) (buf : Bytes) (hnext : next = firstPos back ∨ (front = [] ∧ next = 0))
    (hlast : back.getLast? = some r) :
    openChain f fuel next buf = .ok (if back.length ≤ fuel then some (r.key, buf ++ content back) else none) := by
  induction back generalizing front fuel next buf with
  | nil => cases hlast
  | cons c back ih =>
    have hc : c ∈ front ++ c :: back := mem_append_right front mem_cons_self
    obtain ⟨htype, hsize⟩ := hroom c mem_cons_self
    obtain ⟨hlink, hrest⟩ := hlinked
    cases fuel with
    | zero => rfl
    | succ fuel =>
    have hdataLt := (h.lies hc).disk.data_lt
    have h8 : kStreamHeaderSize = 8 := rfl
    have hmake : f.makeRoomKey next 8 = .ok (c.key, c.data.take kStreamHeaderSize) := by
      rcases hnext with rfl | ⟨rfl, rfl⟩
      · exact h.makeRoomKey_link hc hsize
      · rw [makeRoomKey_zero h.laid.header_pos, ← h.startPos_eq]
        exact h.makeRoomKey_link hc hsize
    have hsub : u32 (c.key.dataSize + 2 ^ 32 - 8) = c.key.dataSize - 8 := by
      unfold u32
      omega
    have hread : f.read c.key 8 (c.key.dataSize - 8) = .ok c.payload := by
      have hall : (c.data.drop 8).take (c.key.dataSize - 8) = c.data.drop 8 :=
        take_of_length_le (by rw [length_drop, h.data_length hc])
      rw [h.read hc (by omega), hall]
      rfl
    have hvalue : BigEndian.value (c.data.take kStreamHeaderSize) = firstPos back := hlink
    rw [openChain, hmake]
    simp only [liftInn, Except.mapError, bind, Except.bind, htype, ne_eq, not_true_eq_false, if_false, hsub, hread, hvalue,
      pure, Except.pure]
    cases back with
    | nil =>
      obtain rfl : c = r := some.inj hlast
      rw [if_pos (show firstPos [] = 0 from rfl), content_cons, content_nil, append_nil,
        if_pos (show [c].length ≤ fuel + 1 from Nat.le_add_left 1 fuel)]
    | cons c' back =>
      have hc' : c' ∈ front ++ c :: c' :: back :=
        mem_append_right front (mem_cons_of_mem c mem_cons_self)
      have hne : firstPos (c' :: back) ≠ 0 := h.roomPos_ne hc'
      have hstores : Stores f ((front ++ [c]) ++ c' :: back) := by rwa [append_assoc]
      rw [if_neg hne, content_cons, ← append_assoc]
      rw [ih hstores (fun r hr => hroom r (mem_cons_of_mem c hr)) hrest fuel _ (.inl rfl) hlast]
      exact congrArg Except.ok (if_congr Nat.succ_le_succ_iff.symm rfl rfl)

/-! ### Opening the file again -/

/-- The tables whose entries are stored, and those that wait to be. -/
structure Directory (s : InnDbf) (rooms : List Room) (stored waiting : List Bytes) : Prop where
  exHeader : ExHeaderRooms s.file s.exHeaderLastRoomKey rooms
  content_eq : content rooms = newExHeader.drop 8 ++ tableEntries 1 stored
  names : s.tableNames = (stored ++ waiting).map some
  nodup : (stored ++ waiting).Nodup
  ids : stored.length < 2 ^ 32
  sizes : ∀ name ∈ stored, name.length ≤ kBitvMaxByteArraySize
  requests : s.requests = (List.range' (stored.length + 1) waiting.length).map fun tableId => ⟨some tableId, none⟩
  uncounted : Uncounted s.tableList
  freed : s.freedRoomsMap = []

/-- The file is taken as it is. -/
theorem ExHeaderRooms.open (h : ExHeaderRooms f last rooms) (blockSize : ℕ) :
    ∃ count, InnFile.open f.storage blockSize = .ok (f, count) := by
  have hlaid := h.stores.laid
  have hheader := h.whole.headerSize
  have hsize := h.whole.size
  have hle := hlaid.tiles.le
  have hlt := hlaid.size_lt
  have hdvd := hlaid.tiles.dvd
  obtain ⟨halign, hmod⟩ := h.align
  have hsub : u64sub f.storage.size kInnHeaderSize = f.fileSize - f.headerSize := by
    rw [u64sub, hsize, hheader]
    rw [hheader] at hle
    omega
  rw [open_header hlaid.block_lt h.whole.header, if_neg (by omega), hsub, Nat.mod_eq_zero_of_dvd hdvd,
    if_neg (not_not_intro rfl)]
  refine ⟨_, congrArg (fun f => Except.ok (f, _)) ?_⟩
  obtain ⟨storage, headerSize, size, fileSize⟩ := f
  dsimp only at hheader hsize
  rw [hheader, hsize]

/-- What an InnDbf whose entries are all stored is opened as. -/
theorem Directory.open (h : Directory s rooms stored []) (hfuel : rooms.length ≤ fuel) (blockSize : ℕ) :
    InnDbf.open s.file.storage blockSize fuel =
      .ok { file := s.file, exHeaderLastRoomKey := s.exHeaderLastRoomKey, tableList := namedTables stored } := by
  have hex := h.exHeader
  obtain ⟨count, hfile⟩ := hex.open blockSize
  obtain ⟨front, r, rfl, hlast⟩ := hex.last_eq
  have hchain : openChain s.file fuel 0 [] = .ok (some (r.key, [] ++ content (front ++ [r]))) := by
    rw [openChain_rooms (show Stores s.file ([] ++ (front ++ [r])) from hex.stores) hex.room hex.linked fuel []
      (.inr ⟨rfl, rfl⟩) getLast?_concat, if_pos hfuel]
  obtain ⟨q, hname, hq⟩ := str_reads (Q := Bytes) (show kInnDbfExHeaderMsg.length ≤ kBitvMaxByteArraySize by decide) _
    ((intToBitv .uint32 kInnDbfExHeaderVer).text ++ tableEntries 1 stored) rfl
  have hq' : q = (intToBitv .uint32 kInnDbfExHeaderVer).text ++ tableEntries 1 stored := hq
  obtain ⟨ver, hver, hread⟩ := uint32_reads (show kInnDbfExHeaderVer < 2 ^ 32 by decide) (tableEntries 1 stored)
  have hcontent : content (front ++ [r]) = (byteArrayToBitv kInnDbfExHeaderMsg).text ++
      ((intToBitv .uint32 kInnDbfExHeaderVer).text ++ tableEntries 1 stored) := by
    rw [h.content_eq, ← append_assoc]
    rfl
  have htables : openTables (tableEntries 1 stored).length (tableEntries 1 stored) (namedTables []) =
      .ok (namedTables ([] ++ stored)) := by
    refine @openTables_entries _ stored [] ?_ h.sizes ?_ le_rfl
    · rw [length_nil, zero_add]
      exact h.ids
    · have hnodup := h.nodup
      rwa [append_nil] at hnodup
  have hne : (byteArrayToBitv kInnDbfExHeaderMsg).text ++
      ((intToBitv .uint32 kInnDbfExHeaderVer).text ++ tableEntries 1 stored) ≠ [] :=
    append_ne_nil_of_left_ne_nil (by decide) _
  rw [hq'] at hname
  unfold InnDbf.open
  rw [hfile]
  simp only [liftInn, liftBitv, Except.mapError, bind, Except.bind, hchain, nil_append, hcontent, if_neg hne, hname,
    hread, hver]
  rw [if_neg (by rw [not_or]; exact ⟨not_not_intro rfl, not_not_intro rfl⟩)]
  rw [show ([] : List (Option InnDbfTableLink)) = namedTables [] from rfl, htables, hlast]
  rfl

/-- Turns that do not reach the last room open nothing. -/
theorem Directory.open_short (h : Directory s rooms stored []) (hfuel : ¬ rooms.length ≤ fuel) (blockSize : ℕ) :
    InnDbf.open s.file.storage blockSize fuel = .error (.inn .badMessage) := by
  have hex := h.exHeader
  obtain ⟨count, hfile⟩ := hex.open blockSize
  obtain ⟨front, r, rfl, -⟩ := hex.last_eq
  have hchain : openChain s.file fuel 0 [] = .ok none := by
    rw [openChain_rooms (show Stores s.file ([] ++ (front ++ [r])) from hex.stores) hex.room hex.linked fuel []
      (.inr ⟨rfl, rfl⟩) getLast?_concat, if_neg hfuel]
  obtain ⟨first, hfirst, back, hback⟩ : ∃ first, first ∈ front ++ [r] ∧ ∃ back, front ++ [r] = first :: back := by
    cases front with
    | nil => exact ⟨r, mem_cons_self, [], rfl⟩
    | cons first front => exact ⟨first, mem_cons_self, front ++ [r], rfl⟩
  have hstores : Stores s.file (first :: back) := by rw [← hback]; exact hex.stores
  have hmake : s.file.makeRoomKey 0 8 = .ok (first.key, first.data.take kStreamHeaderSize) := by
    rw [makeRoomKey_zero hex.stores.laid.header_pos, ← hstores.startPos_eq]
    exact hex.stores.makeRoomKey_link hfirst (hex.room first hfirst).2
  unfold InnDbf.open
  rw [hfile]
  simp only [liftInn, Except.mapError, bind, Except.bind, hchain, hmake, if_neg (hex.stores.roomPos_ne hfirst)]
  rfl

theorem tableNames_named (names : List Bytes) :
    (namedTables names).map (Option.map InnDbfTableLink.tableName) = names.map some := by
  rw [namedTables, List.map_map]
  rfl

/-! ### Linking a table -/

/-- A table that there is gets a handler. -/
theorem linkTable_known (minRoomSize : ℕ) (h : some tableName ∈ s.tableNames) :
    ∃ index table, s.tableList[index]? = some (some table) ∧ (s.linkTable tableName minRoomSize = s ∨
      s.linkTable tableName minRoomSize =
        let t := s.setTable (index + 1) { table with hasHandler := true, minRoomSize := minRoomSize }
        if table.roomCount > 0 then t.loadTable (index + 1) else t) := by
  obtain ⟨entry, hentry, hname⟩ := mem_map.mp h
  obtain ⟨known, rfl, hknown⟩ := map_eq_some_iff.mp hname
  cases hfind : s.tableList.findIdx? fun t => t.any fun t => t.tableName = tableName with
  | none =>
    have hno := findIdx?_eq_none_iff.mp hfind _ hentry
    rw [any_some, decide_eq_false_iff_not] at hno
    exact absurd hknown hno
  | some index =>
    obtain ⟨hlt, hany, -⟩ := findIdx?_eq_some_iff_getElem.mp hfind
    obtain ⟨table, htable, -⟩ := (any_eq_true _ _).mp hany
    have hget : s.tableList[index]? = some (some table) := by rw [getElem?_eq_getElem hlt, htable]
    refine ⟨index, table, hget, ?_⟩
    rw [InnDbf.linkTable, hfind]
    dsimp only
    rw [hget]
    dsimp only [join_some]
    by_cases hhandler : table.hasHandler = true
    · rw [if_pos hhandler]
      exact .inl rfl
    · rw [if_neg hhandler]
      exact .inr rfl

theorem tableNames_setTable {index : ℕ} {table table' : InnDbfTableLink} (hget : s.tableList[index]? = some (some table))
    (hname : table'.tableName = table.tableName) : (s.setTable (index + 1) table').tableNames = s.tableNames := by
  show ((s.tableList.set index (some table')).map _) = s.tableList.map _
  rw [map_set]
  apply List.ext_getElem?
  intro i
  by_cases heq : index = i
  · subst heq
    have hlt : index < (s.tableList.map (Option.map InnDbfTableLink.tableName)).length := by
      rw [length_map]
      exact (List.getElem?_eq_some_iff.mp hget).1
    rw [List.getElem?_set_self hlt, List.getElem?_map, hget, map_some, map_some, map_some, hname]
  · rw [List.getElem?_set_ne heq]

theorem tableNames_loadTable (s : InnDbf) (tableId : ℕ) : (s.loadTable tableId).tableNames = s.tableNames := by
  rw [InnDbf.loadTable]
  split
  · rfl
  · split_ifs <;> rfl

/-- Linking a table that there is leaves the names. -/
theorem tableNames_linkTable (minRoomSize : ℕ) (h : some tableName ∈ s.tableNames) :
    (s.linkTable tableName minRoomSize).tableNames = s.tableNames := by
  obtain ⟨index, table, hget, hsame | hset⟩ := linkTable_known minRoomSize h
  · rw [hsame]
  · rw [hset]
    dsimp only
    split_ifs
    · rw [tableNames_loadTable]
      exact tableNames_setTable hget rfl
    · exact tableNames_setTable hget rfl

/-- A table that is new comes behind the others, and waits to be stored. -/
theorem linkTable_new (minRoomSize : ℕ) (h : some tableName ∉ s.tableNames)
    (hall : ∀ t ∈ s.tableList, t.isSome = true) :
    s.linkTable tableName minRoomSize =
      { s with
        tableList := s.tableList ++ [some { tableName := tableName, hasHandler := true, minRoomSize := minRoomSize }]
        requests := s.requests ++ [⟨some (s.tableList.length + 1), none⟩] } := by
  have hfind : s.tableList.findIdx? (fun t => t.any fun t => t.tableName = tableName) = none := by
    apply findIdx?_eq_none_iff.mpr
    intro t ht
    cases t with
    | none => rfl
    | some table =>
      rw [any_some, decide_eq_false_iff_not]
      rintro rfl
      exact h (mem_map_of_mem ht)
  have hindex : s.tableList.findIdx (·.isNone) = s.tableList.length := by
    apply findIdx_eq_length.mpr
    intro t ht
    rw [isNone_eq_false_iff]
    exact hall t ht
  rw [InnDbf.linkTable, hfind]
  dsimp only
  rw [hindex, if_neg (lt_irrefl _)]

theorem Directory.linkTable (h : Directory s rooms stored waiting) (tableName : Bytes) (minRoomSize : ℕ) :
    ∃ waiting', Directory (s.linkTable tableName minRoomSize) rooms stored waiting' := by
  by_cases hmem : some tableName ∈ s.tableNames
  · have hnames := tableNames_linkTable minRoomSize hmem
    obtain ⟨index, table, hget, hsame | hset⟩ := linkTable_known minRoomSize hmem
    · rw [hsame]
      exact ⟨waiting, h⟩
    · have hzero : table.roomCount = 0 := h.uncounted _ (mem_of_getElem? hget) table rfl
      have hstate : s.linkTable tableName minRoomSize =
          s.setTable (index + 1) { table with hasHandler := true, minRoomSize := minRoomSize } := by
        rw [hset, hzero]
        rfl
      rw [hstate] at hnames ⊢
      refine ⟨waiting, h.exHeader, h.content_eq, hnames.trans h.names, h.nodup, h.ids, h.sizes, h.requests, ?_, h.freed⟩
      intro t ht table' htable'
      rcases mem_or_eq_of_mem_set ht with hold | rfl
      · exact h.uncounted t hold table' htable'
      · obtain rfl := some.inj htable'
        exact hzero
  · have hall : ∀ t ∈ s.tableList, t.isSome = true := by
      intro t ht
      have hname : t.map InnDbfTableLink.tableName ∈ (stored ++ waiting).map some := by
        rw [← h.names]
        exact mem_map_of_mem ht
      obtain ⟨name, -, heq⟩ := mem_map.mp hname
      cases t with
      | none => cases heq
      | some table => rfl
    have hlen : s.tableList.length = stored.length + waiting.length := by
      have hlength := congrArg length h.names
      rw [InnDbf.tableNames, length_map, length_map, length_append] at hlength
      exact hlength
    rw [linkTable_new minRoomSize hmem hall]
    refine ⟨waiting ++ [tableName], h.exHeader, h.content_eq, ?_, ?_, h.ids, h.sizes, ?_, ?_, h.freed⟩
    · show (s.tableList ++ [some _]).map _ = _
      rw [map_append, ← append_assoc, map_append]
      exact congrArg (· ++ [some tableName]) h.names
    · rw [← append_assoc]
      have hnew : tableName ∉ stored ++ waiting := by
        intro hin
        rw [h.names] at hmem
        exact hmem (mem_map_of_mem hin)
      exact nodup_append.mpr ⟨h.nodup, nodup_singleton _, fun a ha b hb heq => by
        rw [mem_singleton.mp hb] at heq
        exact hnew (heq ▸ ha)⟩
    · show s.requests ++ [_] = _
      have hid : stored.length + waiting.length + 1 = stored.length + 1 + 1 * waiting.length := by omega
      rw [h.requests, hlen, length_append, length_singleton, range'_concat, map_append, hid]
      rfl
    · intro t ht table' htable'
      rcases mem_append.mp ht with hold | hnew
      · exact h.uncounted t hold table' htable'
      · rw [mem_singleton.mp hnew] at htable'
        obtain rfl := some.inj htable'
        rfl

/-! ### Storing a table -/

/-- A room that is written keeps its place. -/
theorem Stores.write_split {offset size : ℕ} {buf : Bytes} (h : Stores f (front ++ r :: back))
    (hoffset : offset ≤ r.key.dataSize) (hle : offset + size ≤ r.key.roomSize) (hbuf : size ≤ buf.length) :
    ∃ g, f.write r.key offset size buf = .ok ({ r.key with dataSize := max r.key.dataSize (offset + size) }, g) ∧
      SameBut f g r.key.roomPos r.key.nextRoomPos ∧
      Stores g (front ++ ⟨{ r.key with dataSize := max r.key.dataSize (offset + size) },
        r.data.take offset ++ buf.take size ++ r.data.drop (offset + size)⟩ :: back) := by
  have hr : r ∈ front ++ r :: back := mem_append_right front mem_cons_self
  obtain ⟨g, hwrite, hsame, hstores⟩ := h.write hr hoffset hle hbuf
  rw [h.putRoom_split] at hstores
  · exact ⟨g, hwrite, hsame, hstores⟩
  · rfl

/-- Bytes go behind what the room has. -/
theorem Stores.append_split (h : Stores f (front ++ r :: back))
    (hentry : r.key.dataSize + entry.length ≤ r.key.roomSize) :
    ∃ g, f.write r.key r.key.dataSize entry.length entry = .ok ({ r.key with dataSize := r.key.dataSize + entry.length }, g) ∧
      SameBut f g r.key.roomPos r.key.nextRoomPos ∧
      Stores g (front ++ ⟨{ r.key with dataSize := r.key.dataSize + entry.length }, r.data ++ entry⟩ :: back) := by
  have hr : r ∈ front ++ r :: back := mem_append_right front mem_cons_self
  have hlen := h.data_length hr
  obtain ⟨g, hwrite, hsame, hstores⟩ := h.write_split le_rfl hentry le_rfl
  rw [Nat.max_eq_right (Nat.le_add_right _ _)] at hwrite hstores
  rw [take_of_length_le hlen.le, take_length, drop_of_length_le (hlen.le.trans (Nat.le_add_right _ _)),
    append_nil] at hstores
  exact ⟨g, hwrite, hsame, hstores⟩

theorem ExHeaderRooms.append_room (h : ExHeaderRooms f last (front ++ [r]))
    (hentry : r.key.dataSize + entry.length ≤ r.key.roomSize) :
    ∃ g key, f.write r.key r.key.dataSize entry.length entry = .ok (key, g) ∧
      ∃ rooms', ExHeaderRooms g key rooms' ∧ content rooms' = content (front ++ [r]) ++ entry := by
  have hr : r ∈ front ++ [r] := mem_append_right front (mem_singleton_self r)
  obtain ⟨htype, hsize⟩ := h.room r hr
  obtain ⟨g, hwrite, hsame, hstores⟩ := h.stores.append_split hentry
  have hdata' : r.data ++ entry = BigEndian.bytes 8 r.link ++ (r.payload ++ entry) := by
    rw [← append_assoc, ← data_eq h.stores hr hsize]
  refine ⟨g, _, hwrite, _, ⟨hstores, h.whole.of_sameBut (h.stores.lies hr) hsame le_rfl, ?_, fun x hx => ?_, ?_,
    front, _, rfl, rfl⟩, ?_⟩
  · rw [hsame.blockSize]
    exact h.align
  · rcases mem_append.mp hx with hx | hx
    · exact h.room x (mem_append_left _ hx)
    · rw [mem_singleton.mp hx]
      exact ⟨htype, hsize.trans (Nat.le_add_right _ _)⟩
  · refine h.linked.replace rfl ⟨?_, trivial⟩
    rw [link_of_data hdata' (link_lt r)]
    exact h.linked.append_right.1
  · rw [content_append, content_append, content_cons, content_cons, content_nil, payload_of_data hdata', append_nil,
      append_nil, append_assoc]

/-- A new room behind the last one, which has its position from now on. -/
theorem ExHeaderRooms.new_room (h : ExHeaderRooms f last (front ++ [r])) {size : ℕ} (hfits : Fits f.blockSize size)
    (hgrow : f.cannotGrow size .none = false) (hsize : 8 + entry.length ≤ size) :
    ∃ rkey g₁ key₂ g₂ key g₃, f.makeNewRoom kInnRoomType_ExFileHeader size .none = (.ok rkey, g₁) ∧
      g₁.write r.key 0 8 (BigEndian.bytes 8 rkey.roomPos) = .ok (key₂, g₂) ∧
      g₂.write rkey rkey.dataSize (8 + entry.length) (replicate 8 0 ++ entry) = .ok (key, g₃) ∧
      ∃ rooms', ExHeaderRooms g₃ key rooms' ∧ content rooms' = content (front ++ [r]) ++ entry := by
  have hr : r ∈ front ++ [r] := mem_append_right front (mem_singleton_self r)
  obtain ⟨htype, hdata8⟩ := h.room r hr
  obtain ⟨rkey, g₁, hmake, hroom, hnewType, hstores₁, hwhole₁, hblock₁⟩ :=
    @Whole.makeNewRoom _ _ kInnRoomType_ExFileHeader _ h.whole h.stores hfits hgrow
  have hsplit₁ : Stores g₁ (front ++ r :: [⟨rkey, []⟩]) := by rwa [append_assoc] at hstores₁
  have hr₁ : r ∈ front ++ r :: [⟨rkey, []⟩] := mem_append_right front mem_cons_self
  have hnew : ∀ x, (⟨rkey, []⟩ : Room) ∈ front ++ x :: [⟨rkey, []⟩] := fun x =>
    mem_append_right front (mem_cons_of_mem x (mem_singleton_self _))
  have hempty : rkey.dataSize = 0 := (hsplit₁.data_length (hnew r)).symm
  have hlies := hsplit₁.lies (hnew r)
  have hpos : rkey.roomPos < 256 ^ 8 := by
    have hnext := hlies.next_le
    have hlt := hsplit₁.laid.size_lt
    dsimp only at hnext
    omega
  -- the link, over the one that is there
  have hbytes : (BigEndian.bytes 8 rkey.roomPos).length = 8 := length_bytes 8 _
  have hdisk : r.key.dataSize ≤ r.key.roomSize := (hsplit₁.lies hr₁).disk.data_le
  have h8 : kStreamHeaderSize = 8 := rfl
  obtain ⟨g₂, hwrite₂, hsame₂, hstores₂⟩ := hsplit₁.write_split (Nat.zero_le _)
    (show 0 + 8 ≤ r.key.roomSize by omega) hbytes.ge
  have hdata₂ : r.data.take 0 ++ (BigEndian.bytes 8 rkey.roomPos).take 8 ++ r.data.drop (0 + 8) =
      BigEndian.bytes 8 rkey.roomPos ++ r.payload := by
    rw [take_zero, nil_append, take_of_length_le hbytes.le]
    rfl
  rw [hdata₂] at hstores₂
  -- the entry, in the new room
  have hentry : (replicate 8 0 ++ entry).length = 8 + entry.length := by
    rw [length_append, length_replicate]
  have hstores₂' := hstores₂
  rw [append_cons] at hstores₂'
  obtain ⟨g₃, hwrite₃, hsame₃, hstores₃⟩ := hstores₂'.append_split
    (show rkey.dataSize + (replicate 8 0 ++ entry).length ≤ rkey.roomSize by rw [hentry]; omega)
  rw [← append_cons, nil_append] at hstores₃
  rw [hentry] at hwrite₃ hstores₃
  have hzero : replicate 8 (0 : UInt8) = BigEndian.bytes 8 0 := by decide
  refine ⟨rkey, g₁, _, g₂, _, g₃, hmake, hwrite₂, hwrite₃, _, ⟨hstores₃, ?_, ?_, fun x hx => ?_, ?_, ?_⟩, ?_⟩
  · exact (hwhole₁.of_sameBut (hsplit₁.lies hr₁) hsame₂ le_rfl).of_sameBut (hstores₂.lies (hnew _)) hsame₃ le_rfl
  · rw [hsame₃.blockSize, hsame₂.blockSize, hblock₁]
    exact h.align
  · rcases mem_append.mp hx with hx | hx
    · exact h.room x (mem_append_left _ hx)
    · rcases mem_cons.mp hx with rfl | hx
      · exact ⟨htype, hdata8.trans (Nat.le_max_left _ _)⟩
      · rw [mem_singleton.mp hx]
        exact ⟨hnewType, show 8 ≤ rkey.dataSize + (8 + entry.length) by omega⟩
  · refine h.linked.replace rfl ⟨?_, ?_, trivial⟩
    · exact link_of_data rfl hpos
    · exact link_of_data (congrArg (· ++ entry) hzero) (by decide)
  · exact ⟨_, _, append_cons _ _ _, rfl⟩
  · have hlinked : ∀ key : RoomKey, Room.payload ⟨key, BigEndian.bytes 8 rkey.roomPos ++ r.payload⟩ = r.payload :=
      fun key => payload_of_data rfl
    have hstored : ∀ key : RoomKey, Room.payload ⟨key, replicate 8 0 ++ entry⟩ = entry :=
      fun key => payload_of_data (congrArg (· ++ entry) hzero)
    rw [content_append, content_append, content_cons, content_cons, content_cons, content_nil, hlinked, hstored,
      append_nil, append_nil, append_assoc]

/-- The entry of a table is stored. -/
theorem writeExHeaderAddTable_stores (h : ExHeaderRooms s.file s.exHeaderLastRoomKey rooms) (hfreed : s.freedRoomsMap = [])
    {tableId : ℕ} {table : InnDbfTableLink} (hfits : EntryFits s tableId table) :
    ∃ g key rooms', s.writeExHeaderAddTable tableId table = { s with file := g, exHeaderLastRoomKey := key } ∧
      ExHeaderRooms g key rooms' ∧ content rooms' = content rooms ++ tableEntry tableId table.tableName := by
  obtain ⟨-, hname, hsize, hroom⟩ := hfits
  obtain ⟨front, r, rfl, hlast⟩ := h.last_eq
  have hr : r ∈ front ++ [r] := mem_append_right front (mem_singleton_self r)
  have hdisk : r.key.dataSize ≤ r.key.roomSize := (h.stores.lies hr).disk.data_le
  rw [InnDbf.writeExHeaderAddTable, if_neg (not_lt.mpr hname)]
  dsimp only
  rw [u32_of_lt hsize]
  by_cases hlack :
      s.exHeaderLastRoomKey.roomSize - s.exHeaderLastRoomKey.dataSize < (tableEntry tableId table.tableName).length
  · obtain ⟨hfit, hgrow⟩ := hroom hlack
    have hlt := hfit.1
    have h256 : kInnDbfExHeaderSize = 256 := rfl
    have h9 : kRoomHeaderSize = 9 := rfl
    obtain ⟨rkey, g₁, key₂, g₂, key, g₃, hmake, hwrite₂, hwrite₃, rooms', hex, hcontent⟩ :=
      h.new_room hfit hgrow (show 8 + (tableEntry tableId table.tableName).length ≤ _ by omega)
    have halloc : s.allocRoom none kInnRoomType_ExFileHeader
        ((tableEntry tableId table.tableName).length + kInnDbfExHeaderSize) = (.ok rkey, { s with file := g₁ }) := by
      have htake : ∀ size, FreedRoomsMap.take size s.freedRoomsMap = none := fun size => by
        rw [hfreed]
        rfl
      rw [InnDbf.allocRoom, htake]
      dsimp only [InnDbf.freeOld]
      rw [hmake]
    rw [if_pos hlack, u32_of_lt (by omega), halloc]
    dsimp only
    rw [hlast, hwrite₂]
    dsimp only
    rw [InnDbf.appendExHeader, u32_of_lt (by omega), add_comm _ 8]
    dsimp only
    rw [hwrite₃]
    exact ⟨g₃, key, rooms', rfl, hex, hcontent⟩
  · rw [hlast] at hlack
    obtain ⟨g, key, hwrite, rooms', hex, hcontent⟩ := h.append_room
      (show r.key.dataSize + (tableEntry tableId table.tableName).length ≤ r.key.roomSize by omega)
    rw [hlast, if_neg hlack, InnDbf.appendExHeader, hlast, hwrite]
    exact ⟨g, key, rooms', rfl, hex, hcontent⟩

/-- The first table that waits is stored, and waits no more. -/
theorem Directory.doUpdateRequest {waiting : List Bytes} (h : Directory s rooms stored waiting)
    (hok : EntriesFit s .doUpdateRequest) :
    ∃ rooms' stored' waiting', Directory s.doUpdateRequest rooms' stored' waiting' := by
  have hreq := h.requests
  cases waiting with
  | nil =>
    have hsame : s.doUpdateRequest = s := by
      rw [InnDbf.doUpdateRequest, hreq]
      rfl
    rw [hsame]
    exact ⟨rooms, stored, [], h⟩
  | cons name waiting =>
    rw [length_cons, range'_succ, map_cons] at hreq
    generalize hrest : List.map _ (range' (stored.length + 1 + 1) waiting.length) = rest at hreq
    -- the table of the request is the one behind those that are stored
    have hlt : stored.length < (stored ++ name :: waiting).length := by
      rw [length_append, length_cons]
      omega
    have hname : s.tableNames[stored.length]? = some (some name) := by
      rw [h.names, getElem?_map, getElem?_append_right le_rfl, Nat.sub_self]
      rfl
    obtain ⟨entry, hentry, hmap⟩ := map_eq_some_iff.mp ((getElem?_map ..).symm.trans hname)
    obtain ⟨table, rfl, htable⟩ := map_eq_some_iff.mp hmap
    have hget : s.getTable (stored.length + 1) = some table := by
      rw [InnDbf.getTable, if_neg (Nat.succ_ne_zero _), Nat.add_sub_cancel, hentry]
      rfl
    have hfits : EntryFits s (stored.length + 1) table := by
      refine hok ⟨some (stored.length + 1), none⟩ ?_ _ rfl table hget
      rw [hreq]
      rfl
    obtain ⟨g, key, rooms', hwrite, hex, hcontent⟩ :=
      @writeExHeaderAddTable_stores _ { s with requests := rest } h.exHeader h.freed _ _ hfits
    have hstate : s.doUpdateRequest = { s with requests := rest, file := g, exHeaderLastRoomKey := key } := by
      rw [InnDbf.doUpdateRequest, hreq]
      dsimp only
      rw [show InnDbf.getTable { s with requests := rest } (stored.length + 1) = some table from hget]
      exact hwrite
    rw [hstate]
    refine ⟨rooms', stored ++ [name], waiting, hex, ?_, ?_, ?_, ?_, ?_, ?_, h.uncounted, h.freed⟩
    · rw [hcontent, h.content_eq, tableEntries_concat, append_assoc, htable, add_comm 1]
    · rw [append_assoc]
      exact h.names
    · rw [append_assoc]
      exact h.nodup
    · rw [length_append, length_singleton]
      exact hfits.1
    · intro n hn
      rcases mem_append.mp hn with hn | hn
      · exact h.sizes n hn
      · rw [mem_singleton.mp hn, ← htable]
        exact hfits.2.1
    · rw [length_append, length_singleton]
      exact hrest.symm

/-! ### Runs -/

theorem Directory.reopen (h : Directory s rooms stored []) :
    Directory { file := s.file, exHeaderLastRoomKey := s.exHeaderLastRoomKey, tableList := namedTables stored }
      rooms stored [] := by
  refine ⟨h.exHeader, h.content_eq, ?_, h.nodup, h.ids, h.sizes, rfl, ?_, rfl⟩
  · rw [append_nil]
    exact tableNames_named stored
  · intro t ht table htable
    obtain ⟨name, -, rfl⟩ := mem_map.mp ht
    obtain rfl := some.inj htable
    rfl

theorem Directory.waiting_nil (h : Directory s rooms stored waiting) (hdone : s.requests = []) : waiting = [] := by
  have hreq := h.requests
  rw [hdone] at hreq
  have hlen := congrArg length hreq
  rw [length_nil, length_map, length_range'] at hlen
  exact eq_nil_of_length_eq_zero hlen.symm

/-- An action on a directory gives a directory. -/
theorem Directory.step {a : Act} (h : Directory s rooms stored waiting) (hact : a.linksTables = true) (hok : EntriesFit s a)
    (hstep : InnDbf.step s a = some s') : ∃ rooms' stored' waiting', Directory s' rooms' stored' waiting' := by
  cases a with
  | linkTable tableName minRoomSize =>
    rw [InnDbf.step] at hstep
    split_ifs at hstep
    cases hstep
    exact ⟨rooms, stored, h.linkTable tableName minRoomSize.toNat⟩
  | doUpdateRequest =>
    cases hstep
    exact h.doUpdateRequest hok
  | reopen fuel =>
    rw [InnDbf.step] at hstep
    split_ifs at hstep with hclosed
    obtain rfl := h.waiting_nil hclosed.1
    by_cases hfuel : rooms.length ≤ fuel
    · rw [h.open hfuel] at hstep
      cases hstep
      exact ⟨rooms, stored, [], h.reopen⟩
    · rw [h.open_short hfuel] at hstep
      cases hstep
  | loadAll => cases hact
  | loadStep => cases hact
  | updateRoom => cases hact
  | freeRoom => cases hact

theorem Directory.steps {acts : List Act} (h : Directory s rooms stored waiting) (hacts : ∀ a ∈ acts, a.linksTables = true)
    (hfits : StepsMeet InnDbf.step EntriesFit s acts) (hrun : steps InnDbf.step s acts = some s') :
    ∃ rooms' stored' waiting', Directory s' rooms' stored' waiting' := by
  induction acts generalizing s rooms stored waiting with
  | nil =>
    cases hrun
    exact ⟨rooms, stored, waiting, h⟩
  | cons a acts ih =>
    obtain ⟨s₁, hs₁, hrest⟩ := bind_eq_some_iff.mp hrun
    obtain ⟨rooms₁, stored₁, waiting₁, h₁⟩ := h.step (hacts a mem_cons_self) hfits.1 hs₁
    exact ih h₁ (fun a ha => hacts a (mem_cons_of_mem _ ha)) (hfits.2 s₁ hs₁) hrest

/-- A new file has no table. -/
theorem open_directory {blockSize : UInt32} (halign : Aligned blockSize)
    (hopen : InnDbf.open ByteFile.empty blockSize.toNat fuel = .ok s) : ∃ r, Directory s [r] [] [] := by
  obtain ⟨hpos, hnew⟩ := open_new hopen
  obtain ⟨r, hdata, htype, hstores, hwhole, hblock, hstate⟩ := onNewInnFile_ok hpos blockSize.toNat_lt hnew
  have hsize : r.key.dataSize = newExHeader.length := by rw [← hdata, hstores.data_length mem_cons_self]
  have hlink : newExHeader = BigEndian.bytes 8 0 ++ newExHeader.drop 8 := by decide
  have hlast : s.exHeaderLastRoomKey = r.key := by rw [hstate]
  have htables : s.tableList = [] := by rw [hstate]
  refine ⟨r, ⟨hstores, hwhole, ?_, ?_, ?_, [], r, rfl, hlast⟩, ?_, ?_, nodup_nil, by decide, ?_, ?_, ?_, ?_⟩
  · rw [hblock]
    exact halign
  · intro x hx
    rw [mem_singleton.mp hx, hsize]
    exact ⟨htype, by decide⟩
  · exact ⟨link_of_data (hdata.trans hlink) (by decide), trivial⟩
  · rw [content_cons, content_nil, payload_of_data (hdata.trans hlink)]
    rfl
  · rw [InnDbf.tableNames, htables]
    rfl
  · intro name hname
    cases hname
  · rw [hstate]
    rfl
  · intro t ht
    rw [htables] at ht
    cases ht
  · rw [hstate]

/-- Tables that are linked and stored in a new file, whose blocks are aligned, keep their ids. -/
theorem directory_persists {blockSize : UInt32} {fuel : ℕ} {s₀ s : InnDbf} {acts : List Act}
    (hopen : InnDbf.open ByteFile.empty blockSize.toNat fuel = .ok s₀) (halign : Aligned blockSize)
    (hacts : ∀ a ∈ acts, a.linksTables = true) (hfits : StepsMeet InnDbf.step EntriesFit s₀ acts)
    (hrun : Lib.steps InnDbf.step s₀ acts = some s) (hdone : s.requests = []) : s.Persists := by
  obtain ⟨r, hnew⟩ := open_directory halign hopen
  obtain ⟨rooms, stored, waiting, h⟩ := hnew.steps hacts hfits hrun
  obtain rfl := h.waiting_nil hdone
  have hsame := h.reopen.names.trans h.names.symm
  refine ⟨rooms.length, fun fuel hfuel blockSize => ⟨_, h.open hfuel blockSize, hsame, ?_⟩⟩
  intro tableName minRoomSize hmem
  rw [← hsame] at hmem ⊢
  exact tableNames_linkTable minRoomSize hmem

/-- Two tables are stored, the second one after the file was opened again. -/
def linkedTwice : List Act := [.linkTable [84] 0, .doUpdateRequest, .reopen 2, .linkTable [85] 0, .doUpdateRequest]

theorem directory_persists_linkedTwice : ∃ s₀ s,
    InnDbf.open ByteFile.empty (64 : UInt32).toNat 1 = .ok s₀ ∧ steps InnDbf.step s₀ linkedTwice = some s ∧
      s.tableNames = [some [84], some [85]] ∧ s.Persists := by
  have hok : (InnDbf.open ByteFile.empty (64 : UInt32).toNat 1).toOption.any (fun s₀ =>
      decide (StepsMeet InnDbf.step EntriesFit s₀ linkedTwice) &&
        (steps InnDbf.step s₀ linkedTwice).any fun s =>
          decide (s.tableNames = [some [84], some [85]] ∧ s.requests = [])) = true := by
    decide +kernel
  obtain ⟨s₀, hopen, hok⟩ := ok_of_any hok
  obtain ⟨hfits, hrun⟩ := (Bool.and_eq_true _ _).mp hok
  obtain ⟨s, hs, hdone⟩ := (Option.any_eq_true _ _).mp hrun
  obtain ⟨hnames, hrequests⟩ := of_decide_eq_true hdone
  have halign : Aligned 64 := ⟨by decide, by decide⟩
  have hacts : linkedTwice.all Act.linksTables = true := by decide
  exact ⟨s₀, s, hopen, hs, hnames, directory_persists hopen halign (List.all_eq_true.mp hacts) (of_decide_eq_true hfits) hs
    hrequests⟩

/-- A file with blocks that are not aligned is made, and then not opened again. -/
theorem not_directory_persists : ¬ ∀ (blockSize : UInt32) (fuel : ℕ) (s₀ s : InnDbf) (acts : List Act),
    InnDbf.open ByteFile.empty blockSize.toNat fuel = .ok s₀ → (∀ a ∈ acts, a.linksTables = true) →
      steps InnDbf.step s₀ acts = some s → s.requests = [] → s.Persists := by
  intro h
  have hok : (InnDbf.open ByteFile.empty (24 : UInt32).toNat 1).toOption.any (fun s₀ =>
      (steps InnDbf.step s₀ [.linkTable [84] 0, .doUpdateRequest]).any fun s => decide (s.requests = [] ∧
        (InnFile.open s.file.storage 24).toOption.isNone)) = true := by
    decide +kernel
  obtain ⟨s₀, hopen, hok⟩ := ok_of_any hok
  obtain ⟨s, hs, hdone⟩ := (Option.any_eq_true _ _).mp hok
  obtain ⟨hrequests, hfile⟩ := of_decide_eq_true hdone
  have hacts : List.all [Act.linkTable [84] 0, .doUpdateRequest] Act.linksTables = true := by decide
  obtain ⟨n, hn⟩ := h 24 1 s₀ s _ hopen (List.all_eq_true.mp hacts) hs hrequests
  obtain ⟨s', hs', -⟩ := hn n le_rfl 24
  unfold InnDbf.open at hs'
  cases hopened : InnFile.open s.file.storage 24 with
  | error e =>
    rw [hopened] at hs'
    cases hs'
  | ok opened =>
    rw [hopened] at hfile
    cases hfile

end Fon9.Inn
