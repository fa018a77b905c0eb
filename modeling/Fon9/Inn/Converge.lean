import Fon9.Inn.Table
import Mathlib.Data.List.Nodup

/-! Events of the syncer, and rooms that are loaded, give the same rows in whatever order
they come: for each key the version with the greatest InnSyncKey wins, in the main map or
among the deleted keys, and a loaded room that does not win is freed once. -/

namespace Fon9.Inn

open Lib LastWriter Function Function Version

variable {K P : Type*} [DecidableEq K] {w : K → Option (Version K P)} {e u : Version K P}
  {map same other : RowMap K P} {k : K}

/-! ### One map -/

omit [DecidableEq K] in
theorem innSyncCheck_none (h : map k = none) (syncKey : InnSyncKey) :
    innSyncCheck map k syncKey = .NotExists := by
  rw [innSyncCheck, h]

omit [DecidableEq K] in
theorem innSyncCheck_older (h : map k = some (some u)) {syncKey : InnSyncKey}
    (hle : syncKey ≤ u.syncKey) : innSyncCheck map k syncKey = .SyncIsOlder := by
  rw [innSyncCheck, h]
  exact if_pos (InnSyncKey.lessEq_iff.mpr hle)

omit [DecidableEq K] in
theorem innSyncCheck_newer (h : map k = some (some u)) {syncKey : InnSyncKey}
    (hlt : u.syncKey < syncKey) : innSyncCheck map k syncKey = .SyncIsNewer := by
  rw [innSyncCheck, h]
  exact if_neg (fun hle => absurd (InnSyncKey.lessEq_iff.mp hle) (not_le.mpr hlt))

/-! ### The map of the kind of the version, and the other one -/

/-- `OnInnDbfSync`: a row of the other kind goes, and one of this kind comes. -/
def syncInto (same other : RowMap K P) (e : Version K P) : RowMap K P × RowMap K P :=
  let r := onInnDbfSync_Erase other e
  if r.1 ≠ .SyncIsOlder then (onInnDbfSync_Update same e, r.2) else (same, r.2)

/-- `OnInnDbfLoad`, with the rooms that are freed. -/
def loadInto (same other : RowMap K P) (e : Version K P) :
    (RowMap K P × RowMap K P) × List (Version K P) :=
  let r := onInnDbfLoad_Erase other e { roomKey := some e }
  if r.1 ≠ .SyncIsOlder then
    let v := onInnDbfLoad_Update same e r.2.2
    ((v.1, r.2.1), v.2.pendingFreeRoomKey1.toList ++ v.2.pendingFreeRoomKey2.toList)
  else ((same, r.2.1), r.2.2.pendingFreeRoomKey1.toList ++ r.2.2.pendingFreeRoomKey2.toList)

theorem onInnDbfSync_eq (maps : Maps K P) (e : Version K P) : onInnDbfSync maps e =
    match e.roomType with
    | .RowData => ⟨(syncInto maps.main maps.deleted e).1, (syncInto maps.main maps.deleted e).2⟩
    | .RowDeleted => ⟨(syncInto maps.deleted maps.main e).2, (syncInto maps.deleted maps.main e).1⟩ := by
  unfold onInnDbfSync syncInto
  cases e.roomType with
  | RowData => dsimp only; split <;> rfl
  | RowDeleted => dsimp only; split <;> rfl

theorem onInnDbfLoad_eq (maps : Maps K P) (e : Version K P) : onInnDbfLoad maps e =
    match e.roomType with
    | .RowData => (⟨(loadInto maps.main maps.deleted e).1.1, (loadInto maps.main maps.deleted e).1.2⟩,
        (loadInto maps.main maps.deleted e).2)
    | .RowDeleted => (⟨(loadInto maps.deleted maps.main e).1.2, (loadInto maps.deleted maps.main e).1.1⟩,
        (loadInto maps.deleted maps.main e).2) := by
  unfold onInnDbfLoad loadInto
  cases e.roomType with
  | RowData => dsimp only; split <;> rfl
  | RowDeleted => dsimp only; split <;> rfl

/-- A key that has no row gets one. -/
theorem into_none (hs : same e.key = none) (ho : other e.key = none) :
    loadInto same other e = ((update same e.key (some (some e)), other), []) ∧
      syncInto same other e = (update same e.key (some (some e)), other) := by
  simp [loadInto, syncInto, onInnDbfLoad_Erase, onInnDbfLoad_Update, onInnDbfSync_Erase,
    onInnDbfSync_Update, innSyncCheck_none hs, innSyncCheck_none ho]

/-- A version that is not newer than the row of its kind changes nothing. -/
theorem into_same_old (hs : same e.key = some (some u)) (ho : other e.key = none)
    (hle : e.syncKey ≤ u.syncKey) :
    loadInto same other e = ((same, other), [e]) ∧ syncInto same other e = (same, other) := by
  simp [loadInto, syncInto, onInnDbfLoad_Erase, onInnDbfLoad_Update, onInnDbfSync_Erase,
    onInnDbfSync_Update, innSyncCheck_older hs hle, innSyncCheck_none ho]

theorem into_same_new (hs : same e.key = some (some u)) (ho : other e.key = none)
    (hlt : u.syncKey < e.syncKey) :
    loadInto same other e = ((update same e.key (some (some e)), other), [u]) ∧
      syncInto same other e = (update same e.key (some (some e)), other) := by
  simp [loadInto, syncInto, onInnDbfLoad_Erase, onInnDbfLoad_Update, onInnDbfSync_Erase,
    onInnDbfSync_Update, innSyncCheck_newer hs hlt, innSyncCheck_none ho, hs]

theorem into_other_old (ho : other e.key = some (some u)) (hle : e.syncKey ≤ u.syncKey) :
    loadInto same other e = ((same, other), [e]) ∧ syncInto same other e = (same, other) := by
  simp [loadInto, syncInto, onInnDbfLoad_Erase, onInnDbfSync_Erase, innSyncCheck_older ho hle]

/-- A newer version of the other kind takes the row away. -/
theorem into_other_new (hs : same e.key = none) (ho : other e.key = some (some u))
    (hlt : u.syncKey < e.syncKey) :
    loadInto same other e = ((update same e.key (some (some e)),
        update other e.key none), [u]) ∧
      syncInto same other e = (update same e.key (some (some e)),
        update other e.key none) := by
  simp [loadInto, syncInto, onInnDbfLoad_Erase, onInnDbfLoad_Update, onInnDbfSync_Erase,
    onInnDbfSync_Update, innSyncCheck_newer ho hlt, innSyncCheck_none hs, ho]

/-! ### The winners -/

omit [DecidableEq K] in
theorem rowsOf_none (hw : w k = none) (roomType : InnDbfRoomType) : rowsOf roomType w k = none := by
  simp [rowsOf, hw]

omit [DecidableEq K] in
theorem rowsOf_self (hw : w k = some u) : rowsOf u.roomType w k = some (some u) := by
  simp [rowsOf, hw]

omit [DecidableEq K] in
theorem rowsOf_other (hw : w k = some u) {roomType : InnDbfRoomType} (hne : u.roomType ≠ roomType) :
    rowsOf roomType w k = none := by
  simp [rowsOf, hw, hne]

theorem rowsOf_update_self : rowsOf e.roomType (update w e.key (some e)) =
    update (rowsOf e.roomType w) e.key (some (some e)) := by
  funext k
  by_cases hk : k = e.key
  · subst hk
    simp [rowsOf]
  · simp [rowsOf, update_of_ne hk]

theorem rowsOf_update_other {roomType : InnDbfRoomType} (hne : e.roomType ≠ roomType) :
    rowsOf roomType (update w e.key (some e)) =
      update (rowsOf roomType w) e.key none := by
  funext k
  by_cases hk : k = e.key
  · subst hk
    simp [rowsOf, hne]
  · simp [rowsOf, update_of_ne hk]

/-- A version that comes is put among the winners, and the one that loses is freed. -/
theorem into_eq (w : K → Option (Version K P)) (e : Version K P) (otherType : InnDbfRoomType)
    (hne : e.roomType ≠ otherType) (htypes : ∀ t, t = e.roomType ∨ t = otherType) :
    loadInto (rowsOf e.roomType w) (rowsOf otherType w) e =
      ((rowsOf e.roomType (put key syncKey w e).1,
        rowsOf otherType (put key syncKey w e).1),
        (put key syncKey w e).2.toList) ∧
    syncInto (rowsOf e.roomType w) (rowsOf otherType w) e =
      (rowsOf e.roomType (put key syncKey w e).1,
        rowsOf otherType (put key syncKey w e).1) := by
  cases hw : w e.key with
  | none =>
    have ho := rowsOf_none hw otherType
    have hkeep : update (rowsOf otherType w) e.key none = rowsOf otherType w :=
      update_eq_self_iff.mpr ho.symm
    rw [put_none hw, rowsOf_update_self, rowsOf_update_other hne, hkeep]
    exact into_none (rowsOf_none hw e.roomType) ho
  | some u =>
    rcases htypes u.roomType with hsame | hother
    · have hs : rowsOf e.roomType w e.key = some (some u) := hsame ▸ rowsOf_self hw
      have ho : rowsOf otherType w e.key = none := rowsOf_other hw (hsame ▸ hne)
      rcases le_or_gt e.syncKey u.syncKey with hle | hlt
      · rw [put_old hw hle]
        exact into_same_old hs ho hle
      · have hkeep : update (rowsOf otherType w) e.key none = rowsOf otherType w :=
          update_eq_self_iff.mpr ho.symm
        rw [put_new hw hlt, rowsOf_update_self, rowsOf_update_other hne, hkeep]
        exact into_same_new hs ho hlt
    · have ho : rowsOf otherType w e.key = some (some u) := hother ▸ rowsOf_self hw
      have hs : rowsOf e.roomType w e.key = none := rowsOf_other hw (hother ▸ hne.symm)
      rcases le_or_gt e.syncKey u.syncKey with hle | hlt
      · rw [put_old hw hle]
        exact into_other_old ho hle
      · rw [put_new hw hlt, rowsOf_update_self, rowsOf_update_other hne]
        exact into_other_new hs ho hlt

theorem data_or_deleted (t : InnDbfRoomType) : t = .RowData ∨ t = .RowDeleted := by
  cases t
  · exact .inl rfl
  · exact .inr rfl

theorem onInnDbfSync_ofWinners (w : K → Option (Version K P)) (e : Version K P) :
    onInnDbfSync (ofWinners w) e = ofWinners (put key syncKey w e).1 := by
  rw [onInnDbfSync_eq]
  cases ht : e.roomType with
  | RowData =>
    have hinto := (into_eq w e .RowDeleted (by simp [ht]) (by rw [ht]; exact data_or_deleted)).2
    rw [ht] at hinto
    simp only [ofWinners, hinto]
  | RowDeleted =>
    have hinto := (into_eq w e .RowData (by simp [ht])
      (by rw [ht]; exact fun t => (data_or_deleted t).symm)).2
    rw [ht] at hinto
    simp only [ofWinners, hinto]

theorem onInnDbfLoad_ofWinners (w : K → Option (Version K P)) (e : Version K P) :
    onInnDbfLoad (ofWinners w) e = (ofWinners (put key syncKey w e).1,
      (put key syncKey w e).2.toList) := by
  rw [onInnDbfLoad_eq]
  cases ht : e.roomType with
  | RowData =>
    have hinto := (into_eq w e .RowDeleted (by simp [ht]) (by rw [ht]; exact data_or_deleted)).1
    rw [ht] at hinto
    simp only [ofWinners, hinto]
  | RowDeleted =>
    have hinto := (into_eq w e .RowData (by simp [ht])
      (by rw [ht]; exact fun t => (data_or_deleted t).symm)).1
    rw [ht] at hinto
    simp only [ofWinners, hinto]

theorem syncAll_ofWinners (w : K → Option (Version K P)) (es : List (Version K P)) :
    syncAll (ofWinners w) es = ofWinners (putAll key syncKey w es).1 := by
  induction es generalizing w with
  | nil => rfl
  | cons e es ih =>
    rw [syncAll, List.foldl_cons, onInnDbfSync_ofWinners]
    exact ih _

theorem loadAll_ofWinners (w : K → Option (Version K P)) (es : List (Version K P)) :
    loadAll (ofWinners w) es = (ofWinners (putAll key syncKey w es).1,
      (putAll key syncKey w es).2) := by
  induction es generalizing w with
  | nil => rfl
  | cons e es ih => rw [loadAll, onInnDbfLoad_ofWinners, ih, putAll]

/-! ### Convergence -/

/-- The version that wins its key, among the rows there are at first and the versions
that come. -/
abbrev Wins (w : K → Option (Version K P)) (es : List (Version K P)) (e : Version K P) : Prop :=
  IsTop Version.key Version.syncKey w es e

/-- The rows are the versions that win, each in the map of its kind; no key is in both maps. -/
structure Converged (w : K → Option (Version K P)) (es : List (Version K P)) (maps : Maps K P) :
    Prop where
  main : ∀ k row, maps.main k = some row ↔
    ∃ e, row = some e ∧ e.key = k ∧ e.roomType = .RowData ∧ Wins w es e
  deleted : ∀ k row, maps.deleted k = some row ↔
    ∃ e, row = some e ∧ e.key = k ∧ e.roomType = .RowDeleted ∧ Wins w es e
  one : ∀ k, maps.main k = none ∨ maps.deleted k = none

variable {es : List (Version K P)}

theorem rowsOf_putAll (hkeyed : Keyed key w) (hranked : Ranked key syncKey w es)
    (roomType : InnDbfRoomType) (k : K) (row : Option (Version K P)) :
    rowsOf roomType (putAll key syncKey w es).1 k = some row ↔
      ∃ e, row = some e ∧ e.key = k ∧ e.roomType = roomType ∧ Wins w es e := by
  simp only [rowsOf, Option.map_eq_some_iff, Option.filter_eq_some_iff, decide_eq_true_iff,
    putAll_eq_some_iff hkeyed hranked]
  constructor
  · rintro ⟨e, ⟨⟨hkey, hwins⟩, htype⟩, rfl⟩
    exact ⟨e, rfl, hkey, htype, hwins⟩
  · rintro ⟨e, rfl, hkey, htype, hwins⟩
    exact ⟨e, ⟨⟨hkey, hwins⟩, htype⟩, rfl⟩

theorem converged_putAll (hkeyed : Keyed key w) (hranked : Ranked key syncKey w es) :
    Converged w es (ofWinners (putAll key syncKey w es).1) where
  main := rowsOf_putAll hkeyed hranked .RowData
  deleted := rowsOf_putAll hkeyed hranked .RowDeleted
  one k := by
    cases hk : (putAll key syncKey w es).1 k with
    | none => exact .inl (rowsOf_none hk _)
    | some u =>
      rcases data_or_deleted u.roomType with ht | ht
      · exact .inr (rowsOf_other hk (by simp [ht]))
      · exact .inl (rowsOf_other hk (by simp [ht]))

/-- Versions whose sync keys differ for each key. -/
def Distinct (es : List (Version K P)) : Prop :=
  es.Pairwise fun a b => a.key = b.key → a.syncKey ≠ b.syncKey

omit [DecidableEq K]

theorem Distinct.eq (h : Distinct es) {u v : Version K P} (hu : u ∈ es) (hv : v ∈ es) (hkey : u.key = v.key)
    (hrank : u.syncKey = v.syncKey) : u = v := by
  induction es with
  | nil => cases hu
  | cons e es ih =>
    obtain ⟨he, hes⟩ := List.pairwise_cons.mp h
    rcases List.mem_cons.mp hu with rfl | hu'
    · rcases List.mem_cons.mp hv with rfl | hv'
      · rfl
      · exact absurd hrank (he v hv' hkey)
    · rcases List.mem_cons.mp hv with rfl | hv'
      · exact absurd hrank.symm (he u hu' hkey.symm)
      · exact ih hes hu' hv'

theorem Distinct.ranked (h : Distinct es) :
    Ranked key syncKey (fun _ => none) es := by
  rintro u v (hu | hu) (hv | hv) hkey hrank
  · cases hu
  · cases hu
  · cases hv
  · exact h.eq hu hv hkey hrank

theorem Distinct.nodup (h : Distinct es) : es.Nodup :=
  h.imp fun hab heq => hab (congrArg key heq) (congrArg syncKey heq)

/-- Maps in which every row has a room key of its kind, and no key has two rows. -/
structure Maps.Consistent (maps : Maps K P) : Prop where
  main : ∀ k row, maps.main k = some row → ∃ e, row = some e ∧ e.key = k ∧ e.roomType = .RowData
  deleted : ∀ k row, maps.deleted k = some row →
    ∃ e, row = some e ∧ e.key = k ∧ e.roomType = .RowDeleted
  one : ∀ k, maps.main k = none ∨ maps.deleted k = none

/-- The versions the rows of the maps hold. -/
def Maps.winners (maps : Maps K P) (k : K) : Option (Version K P) :=
  (maps.main k).join.or (maps.deleted k).join

theorem Maps.Consistent.winners {maps : Maps K P} (h : maps.Consistent) :
    maps = ofWinners maps.winners ∧ Keyed key maps.winners := by
  have hcases : ∀ k, (maps.main k = none ∧ maps.deleted k = none) ∨
      (∃ e, maps.main k = some (some e) ∧ maps.deleted k = none ∧ e.key = k ∧ e.roomType = .RowData) ∨
      ∃ e, maps.deleted k = some (some e) ∧ maps.main k = none ∧ e.key = k ∧ e.roomType = .RowDeleted := by
    intro k
    cases hm : maps.main k with
    | some row =>
      obtain ⟨e, rfl, hkey, htype⟩ := h.main k row hm
      exact .inr (.inl ⟨e, rfl, (h.one k).resolve_left (by simp [hm]), hkey, htype⟩)
    | none =>
      cases hd : maps.deleted k with
      | none => exact .inl ⟨rfl, rfl⟩
      | some row =>
        obtain ⟨e, rfl, hkey, htype⟩ := h.deleted k row hd
        exact .inr (.inr ⟨e, rfl, rfl, hkey, htype⟩)
  have hrows : ∀ k, maps.main k = rowsOf .RowData maps.winners k ∧
      maps.deleted k = rowsOf .RowDeleted maps.winners k ∧
      ∀ v, maps.winners k = some v → v.key = k := by
    intro k
    rcases hcases k with ⟨hm, hd⟩ | ⟨e, hm, hd, hkey, htype⟩ | ⟨e, hd, hm, hkey, htype⟩
    · have hw : maps.winners k = none := by simp [Maps.winners, hm, hd]
      rw [hm, hd, rowsOf_none hw, rowsOf_none hw, hw]
      exact ⟨rfl, rfl, fun v hv => by cases hv⟩
    · have hw : maps.winners k = some e := by simp [Maps.winners, hm, hd]
      rw [hm, hd, hw, @rowsOf_other _ _ _ _ _ hw .RowDeleted (by simp [htype]), ← htype, rowsOf_self hw]
      exact ⟨rfl, rfl, fun v hv => Option.some.inj hv ▸ hkey⟩
    · have hw : maps.winners k = some e := by simp [Maps.winners, hm, hd]
      rw [hm, hd, hw, @rowsOf_other _ _ _ _ _ hw .RowData (by simp [htype]), ← htype, rowsOf_self hw]
      exact ⟨rfl, rfl, fun v hv => Option.some.inj hv ▸ hkey⟩
  constructor
  · cases maps with
    | mk main deleted =>
      exact congrArg₂ Maps.mk (funext fun k => (hrows k).1) (funext fun k => (hrows k).2.1)
  · exact fun k => (hrows k).2.2

variable [DecidableEq K] [DecidableEq P]

/-- Whatever the order of the events, the rows are the versions with the greatest sync keys;
whatever the order of the rooms, so are the rows that are loaded, and each room that loses
is freed once, and none that wins. -/
theorem rows_converge :
    (∀ (maps : Maps K P) (es : List (Version K P)), maps.Consistent →
      Ranked Version.key Version.syncKey maps.winners es →
      Converged maps.winners es (syncAll maps es) ∧
        ∀ es', es.Perm es' → syncAll maps es' = syncAll maps es) ∧
    ∀ rooms : List (Version K P), Distinct rooms →
      Converged (fun _ => none) rooms (loadAll (ofWinners fun _ => none) rooms).1 ∧
      (∀ room, (loadAll (ofWinners fun _ => none) rooms).2.count room ≤ rooms.count room) ∧
      (∀ room ∈ rooms, Wins (fun _ => none) rooms room →
        (loadAll (ofWinners fun _ => none) rooms).2.count room = 0) ∧
      (∀ room ∈ rooms, ¬ Wins (fun _ => none) rooms room →
        (loadAll (ofWinners fun _ => none) rooms).2.count room = 1) ∧
      ∀ rooms', rooms.Perm rooms' →
        (loadAll (ofWinners fun _ => none) rooms').1 = (loadAll (ofWinners fun _ => none) rooms).1 ∧
        (loadAll (ofWinners fun _ => none) rooms').2.Perm
          (loadAll (ofWinners fun _ => none) rooms).2 := by
  constructor
  · intro maps es hconsistent hranked
    obtain ⟨hmaps, hkeyed⟩ := hconsistent.winners
    have hrun : ∀ es, syncAll maps es =
        ofWinners (putAll Version.key Version.syncKey maps.winners es).1 := by
      intro es
      conv_lhs => rw [hmaps]
      exact syncAll_ofWinners _ es
    constructor
    · rw [hrun]
      exact converged_putAll hkeyed hranked
    · intro es' hperm
      rw [hrun, hrun, putAll_perm hkeyed hranked hperm]
  · intro rooms hdistinct
    have hkeyed : Keyed Version.key fun _ : K => (none : Option (Version K P)) := fun k v h => by cases h
    have hranked := hdistinct.ranked
    have hcount := fun rooms room => @putAll_count _ _ _ _ _ Version.key Version.syncKey
      (fun _ : K => (none : Option (Version K P))) _ hkeyed rooms room
    have hstart : ∀ room : Version K P, held Version.key (fun _ => none) room = 0 := fun room => rfl
    have hheld : ∀ room : Version K P, held Version.key
        (putAll Version.key Version.syncKey (fun _ => none) rooms).1 room =
        if (putAll Version.key Version.syncKey (fun _ => none) rooms).1 room.key = some room then 1 else 0 :=
      fun room => rfl
    have hiff : ∀ room : Version K P,
        (putAll Version.key Version.syncKey (fun _ => none) rooms).1 room.key = some room ↔
          Wins (fun _ => none) rooms room := by
      intro room
      rw [putAll_eq_some_iff hkeyed hranked, and_iff_right rfl]
    simp only [loadAll_ofWinners]
    refine ⟨converged_putAll hkeyed hranked, ?_, ?_, ?_, ?_⟩
    · intro room
      have := hcount rooms room
      rw [hstart] at this
      omega
    · intro room hroom hwins
      have := hcount rooms room
      rw [hstart, hheld, if_pos ((hiff room).mpr hwins), List.count_eq_one_of_mem hdistinct.nodup hroom]
        at this
      omega
    · intro room hroom hloses
      have := hcount rooms room
      rw [hstart, hheld, if_neg (fun h => hloses ((hiff room).mp h)),
        List.count_eq_one_of_mem hdistinct.nodup hroom] at this
      omega
    · intro rooms' hperm
      have hsame := putAll_perm hkeyed hranked hperm
      rw [hsame]
      refine ⟨rfl, List.perm_iff_count.mpr fun room => ?_⟩
      have h := hcount rooms room
      have h' := hcount rooms' room
      rw [hsame, ← hperm.count_eq] at h'
      omega

/-- A row with the key 0, that two events of its key come for, and a key that is new; then
a room that loses to the room that deletes its key. -/
theorem rows_converge_threeEvents :
    (
      let row : Version ℕ ℕ := ⟨0, .RowData, ⟨5, 0, 1⟩, 9⟩
      let maps : Maps ℕ ℕ := ⟨fun k => if k = 0 then some (some row) else none, fun _ => none⟩
      let es : List (Version ℕ ℕ) := [⟨0, .RowDeleted, ⟨7, 0, 2⟩, 1⟩, ⟨0, .RowData, ⟨6, 0, 1⟩, 2⟩,
        ⟨3, .RowData, ⟨6, 0, 1⟩, 3⟩]
      Converged maps.winners es (syncAll maps es)) ∧
    (
      let rooms : List (Version ℕ ℕ) := [⟨0, .RowDeleted, ⟨7, 0, 2⟩, 64⟩, ⟨0, .RowData, ⟨6, 0, 1⟩, 128⟩]
      Converged (fun _ => none) rooms (loadAll (ofWinners fun _ => none) rooms).1) := by
  constructor
  · intro row maps es
    refine (rows_converge.1 maps es ⟨?_, ?_, ?_⟩ ?_).1
    · intro k r hrow
      by_cases hk : k = 0
      · subst hk
        exact ⟨_, (Option.some.inj hrow).symm, rfl, rfl⟩
      · simp [maps, hk] at hrow
    · intro k r hrow
      cases hrow
    · exact fun k => Or.inr rfl
    · have hdistinct : Distinct (row :: es) := by
        unfold Distinct
        decide
      have hmem : ∀ v, Candidate Version.key maps.winners es v → v ∈ row :: es := by
        rintro v (hheld | hcome)
        · by_cases hk : v.key = 0
          · rw [hk] at hheld
            exact Option.some.inj hheld ▸ List.mem_cons_self
          · simp [Maps.winners, maps, hk] at hheld
        · exact List.mem_cons_of_mem _ hcome
      exact fun u v hu hv => hdistinct.eq (hmem u hu) (hmem v hv)
  · intro rooms
    have hdistinct : Distinct rooms := by
      unfold Distinct
      decide
    exact (rows_converge.2 rooms hdistinct).1

end Fon9.Inn
