import Fon9.Inn.Change

/-! Who has the rooms of an InnDbf: the last room of its ExHeader, the objects of the
handlers, and the map of the freed rooms. What an update does to that. -/

namespace Fon9.Inn

open Lib Bitv Buffer InnDbf List FreedRoomsMap Function RoomKey

namespace FreedRoomsMap

/-- The free rooms, with their sizes. -/
def entries (freed : FreedRoomsMap) : List (ℕ × ℕ) := freed.flatMap fun e => e.2.map (e.1, ·)

theorem entries_cons (size : ℕ) (list : List ℕ) (rest : FreedRoomsMap) :
    entries ((size, list) :: rest) = list.map (size, ·) ++ entries rest := flatMap_cons

theorem positions_eq (freed : FreedRoomsMap) : freed.positions = freed.entries.map Prod.snd := by
  induction freed with
  | nil => rfl
  | cons e rest ih =>
    obtain ⟨size, list⟩ := e
    rw [entries_cons, map_append, ← ih, map_map]
    show list ++ positions rest = list.map id ++ _
    rw [map_id]

theorem entries_push (size pos : ℕ) (freed : FreedRoomsMap) :
    (push size pos freed).entries.Perm ((size, pos) :: freed.entries) := by
  induction freed with
  | nil => exact List.Perm.refl _
  | cons e rest ih =>
    obtain ⟨size', list⟩ := e
    rw [push]
    split
    · rw [entries_cons, entries_cons]
      exact (ih.append_left _).trans perm_middle
    split
    · next _ heq =>
      subst heq
      rw [entries_cons, entries_cons, map_append, append_assoc]
      exact perm_middle
    · rw [entries_cons]
      exact List.Perm.refl _

/-- The room that is taken is large enough. -/
theorem entries_take {requiredSize pos : ℕ} {freed freed' : FreedRoomsMap}
    (h : take requiredSize freed = some (pos, freed')) :
    ∃ size, requiredSize ≤ size ∧ freed.entries.Perm ((size, pos) :: freed'.entries) := by
  induction freed generalizing pos freed' with
  | nil => cases h
  | cons e rest ih =>
    obtain ⟨size, list⟩ := e
    rw [take] at h
    split at h
    · obtain ⟨r, hr, heq⟩ := Option.map_eq_some_iff.mp h
      cases heq
      obtain ⟨size', hle, hperm⟩ := ih hr
      refine ⟨size', hle, ?_⟩
      rw [entries_cons, entries_cons]
      exact (hperm.append_left _).trans perm_middle
    next hlt =>
      cases hlast : list.getLast? with
      | none =>
        rw [hlast] at h
        cases h
      | some last =>
        rw [hlast] at h
        cases h
        refine ⟨size, not_lt.mp hlt, ?_⟩
        have hlist : list = list.dropLast ++ [pos] := (List.dropLast_append_getLast? _ hlast).symm
        rw [entries_cons]
        split
        · next hnil =>
          rw [hnil] at hlist
          rw [hlist]
          exact List.Perm.refl _
        · rw [entries_cons]
          conv_lhs => rw [hlist]
          rw [map_append, append_assoc]
          exact perm_middle

end FreedRoomsMap

variable {s : InnDbf} {rooms rooms' : List Room} {g : InnFile} {r : Room} {i : ℕ}

/-- The object has a room. -/
def InnDbf.HasRoom (s : InnDbf) (i : ℕ) : Prop := (s.rooms i).roomKey.roomPos ≠ 0

instance (s : InnDbf) (i : ℕ) : Decidable (s.HasRoom i) := inferInstanceAs (Decidable (_ ≠ _))

structure Owns (s : InnDbf) (rooms : List Room) : Prop where
  content : Content s.file rooms
  exHeader : ∃ r ∈ rooms, r.key = s.exHeaderLastRoomKey ∧ r.key.currentRoomType = kInnRoomType_ExFileHeader
  live : ∀ i, s.HasRoom i → ∃ r ∈ rooms, r.key = (s.rooms i).roomKey.saved ∧
    ∃ tableId syncKey payload, RowOf tableId syncKey payload r ∧ s.isLinked tableId = true
  inj : ∀ i j, s.HasRoom i → s.HasRoom j → (s.rooms i).roomKey.roomPos = (s.rooms j).roomKey.roomPos → i = j
  dead : ∀ i, ¬ s.HasRoom i → (s.rooms i).roomKey.roomSize = 0
  freed : ∀ e ∈ s.freedRoomsMap.entries, ∃ r ∈ rooms, r.key.roomPos = e.2 ∧ r.key.roomSize = e.1 ∧ Freed r
  nodup : s.freedRoomsMap.positions.Nodup

/-- Nobody has a room at the position. -/
structure Unowned (s : InnDbf) (rooms : List Room) (pos : ℕ) : Prop where
  objects : ∀ j, s.HasRoom j → (s.rooms j).roomKey.roomPos ≠ pos
  freed : pos ∉ s.freedRoomsMap.positions
  exHeader : ∀ x ∈ rooms, x.key.roomPos = pos → x.key.currentRoomType ≠ kInnRoomType_ExFileHeader

namespace Owns

/-- What the objects have in memory beside their keys does not count. -/
theorem congr {s' : InnDbf} (h : Owns s rooms) (hfile : s'.file = s.file)
    (hex : s'.exHeaderLastRoomKey = s.exHeaderLastRoomKey) (hfreed : s'.freedRoomsMap = s.freedRoomsMap)
    (hkeys : ∀ i, (s'.rooms i).roomKey.saved = (s.rooms i).roomKey.saved)
    (hlink : ∀ t, s.isLinked t = true → s'.isLinked t = true) : Owns s' rooms := by
  have hpos : ∀ i, (s'.rooms i).roomKey.roomPos = (s.rooms i).roomKey.roomPos := by
    intro i
    rw [← saved_roomPos, hkeys, saved_roomPos]
  have hsize : ∀ i, (s'.rooms i).roomKey.roomSize = (s.rooms i).roomKey.roomSize := by
    intro i
    rw [← saved_roomSize, hkeys, saved_roomSize]
  have hlive : ∀ i, s'.HasRoom i ↔ s.HasRoom i := by
    intro i
    rw [InnDbf.HasRoom, hpos]
    rfl
  refine ⟨hfile ▸ h.content, hex ▸ h.exHeader, ?_, ?_, ?_, hfreed ▸ h.freed, hfreed ▸ h.nodup⟩
  · intro i hi
    obtain ⟨r, hr, hkey, tableId, syncKey, payload, hrow, hlinked⟩ := h.live i ((hlive i).mp hi)
    exact ⟨r, hr, hkey.trans (hkeys i).symm, tableId, syncKey, payload, hrow, hlink _ hlinked⟩
  · intro i j hi hj heq
    rw [hpos, hpos] at heq
    exact h.inj i j ((hlive i).mp hi) ((hlive j).mp hj) heq
  · intro i hi
    rw [hsize]
    exact h.dead i fun hlive' => hi ((hlive i).mpr hlive')

theorem entry (h : Owns s rooms) {p : ℕ} (hp : p ∈ s.freedRoomsMap.positions) :
    ∃ r ∈ rooms, r.key.roomPos = p ∧ Freed r := by
  rw [positions_eq] at hp
  obtain ⟨e, he, rfl⟩ := mem_map.mp hp
  obtain ⟨r, hr, hpos, -, hfreed⟩ := h.freed e he
  exact ⟨r, hr, hpos, hfreed⟩

/-- No object and no freed room has a room that is new. -/
theorem unowned_new (h : Owns s rooms) {p : ℕ} (hp : ∀ r ∈ rooms, r.key.roomPos ≠ p) : Unowned s rooms p where
  objects j hj := by
    obtain ⟨r, hr, hkey, -⟩ := h.live j hj
    have hne := hp r hr
    rwa [hkey] at hne
  freed hin := by
    obtain ⟨r, hr, hpos, -⟩ := h.entry hin
    exact hp r hr hpos
  exHeader x hx hpos := absurd hpos (hp x hx)

/-! ### The key of one object -/

theorem hasRoom_setRoomKey {key : RoomKey} {j : ℕ} :
    (s.setRoomKey i key).HasRoom j ↔ if j = i then key.roomPos ≠ 0 else s.HasRoom j := by
  unfold InnDbf.HasRoom setRoomKey setRoom
  by_cases hj : j = i
  · subst hj
    simp only [update_self, if_true]
  · simp only [update_of_ne hj, if_neg hj]

theorem roomKey_setRoomKey (s : InnDbf) (i : ℕ) (key : RoomKey) (j : ℕ) :
    ((s.setRoomKey i key).rooms j).roomKey = if j = i then key else (s.rooms j).roomKey := by
  unfold setRoomKey setRoom
  by_cases hj : j = i
  · subst hj
    simp only [update_self, if_true]
  · simp only [update_of_ne hj, if_neg hj]

/-- The object has no room any more. -/
theorem forget (h : Owns s rooms) (i : ℕ) : Owns (s.setRoomKey i {}) rooms where
  content := h.content
  exHeader := h.exHeader
  live j hj := by
    rw [hasRoom_setRoomKey] at hj
    by_cases hji : j = i
    · rw [if_pos hji] at hj
      exact absurd rfl hj
    · rw [if_neg hji] at hj
      rw [roomKey_setRoomKey, if_neg hji]
      exact h.live j hj
  inj j k hj hk heq := by
    rw [hasRoom_setRoomKey] at hj hk
    by_cases hji : j = i
    · rw [if_pos hji] at hj
      exact absurd rfl hj
    · by_cases hki : k = i
      · rw [if_pos hki] at hk
        exact absurd rfl hk
      · rw [if_neg hji] at hj
        rw [if_neg hki] at hk
        rw [roomKey_setRoomKey, roomKey_setRoomKey, if_neg hji, if_neg hki] at heq
        exact h.inj j k hj hk heq
  dead j hj := by
    rw [hasRoom_setRoomKey] at hj
    rw [roomKey_setRoomKey]
    by_cases hji : j = i
    · rw [if_pos hji]
    · rw [if_neg hji] at hj ⊢
      exact h.dead j hj
  freed := h.freed
  nodup := h.nodup

/-- Its room is nobody's then. -/
theorem unowned_forget (h : Owns s rooms) (hi : s.HasRoom i) :
    Unowned (s.setRoomKey i {}) rooms (s.rooms i).roomKey.roomPos := by
  obtain ⟨r, hr, hkey, tableId, syncKey, payload, hrow, -⟩ := h.live i hi
  have hpos : r.key.roomPos = (s.rooms i).roomKey.roomPos := by rw [hkey, saved_roomPos]
  constructor
  · intro j hj heq
    rw [hasRoom_setRoomKey] at hj
    by_cases hji : j = i
    · rw [if_pos hji] at hj
      exact hj rfl
    · rw [if_neg hji] at hj
      rw [roomKey_setRoomKey, if_neg hji] at heq
      exact hji (h.inj j i hj hi heq)
  · intro hin
    obtain ⟨r', hr', hpos', hfreed⟩ := h.entry hin
    rw [h.content.stores.unique hr' hr (hpos'.trans hpos.symm)] at hfreed
    exact hrow.not_freed hfreed.type
  · intro x hx hxpos
    rw [h.content.stores.unique hx hr (hxpos.trans hpos.symm)]
    exact hrow.not_exHeader

theorem unowned_setRoomKey (i : ℕ) {p : ℕ} (hp : Unowned s rooms p) : Unowned (s.setRoomKey i {}) rooms p where
  objects j hj := by
    rw [hasRoom_setRoomKey] at hj
    rw [roomKey_setRoomKey]
    by_cases hji : j = i
    · rw [if_pos hji] at hj
      exact absurd rfl hj
    · rw [if_neg hji] at hj ⊢
      exact hp.objects j hj
  freed := hp.freed
  exHeader := hp.exHeader

/-! ### Rooms that are nobody's -/

/-- A room that is nobody's is changed. -/
theorem change (h : Owns s rooms) (hu : Unowned s rooms r.key.roomPos) (hc : Changed rooms g [r] rooms')
    (hkept : Kept r) (hnot : r.key.currentRoomType ≠ kInnRoomType_ExFileHeader) :
    Owns { s with file := g } rooms' where
  content := by
    apply h.content.changed hc
    · rw [forall_mem_singleton]
      exact hkept
    · rw [forall_mem_singleton]
      intro next hof
      exact absurd hof.type hnot
    · rw [forall_mem_singleton]
      intro x hx hpos htype
      exact absurd htype (hu.exHeader x hx hpos)
  exHeader := by
    obtain ⟨x, hx, hkey, htype⟩ := h.exHeader
    refine ⟨x, hc.mem_of_ne hx ?_, hkey, htype⟩
    rw [forall_mem_singleton]
    exact fun hpos => hu.exHeader x hx hpos htype
  live j hj := by
    obtain ⟨x, hx, hkey, hrow⟩ := h.live j hj
    refine ⟨x, hc.mem_of_ne hx ?_, hkey, hrow⟩
    rw [forall_mem_singleton, hkey]
    exact hu.objects j hj
  inj := h.inj
  dead := h.dead
  freed e he := by
    obtain ⟨x, hx, hpos, hsize, hfreed⟩ := h.freed e he
    refine ⟨x, hc.mem_of_ne hx ?_, hpos, hsize, hfreed⟩
    rw [forall_mem_singleton, hpos]
    intro heq
    apply hu.freed
    rw [positions_eq, ← heq]
    exact mem_map_of_mem he
  nodup := h.nodup

theorem unowned_change (hc : Changed rooms g [r] rooms')
    (hnot : r.key.currentRoomType ≠ kInnRoomType_ExFileHeader) {p : ℕ} (hp : Unowned s rooms p) :
    Unowned { s with file := g } rooms' p where
  objects := hp.objects
  freed := hp.freed
  exHeader x hx hpos := by
    rcases (hc.mem_iff x).mp hx with hx | ⟨hx, -⟩
    · rw [mem_singleton.mp hx]
      exact hnot
    · exact hp.exHeader x hx hpos

/-- An object gets a room that is nobody's. -/
theorem adopt (h : Owns s rooms) (hr : r ∈ rooms) (hu : Unowned s rooms r.key.roomPos)
    {tableId : ℕ} {syncKey : RoomSyncKey} {payload : Bytes} (hrow : RowOf tableId syncKey payload r)
    (hlink : s.isLinked tableId = true) : Owns (s.setRoomKey i r.key) rooms where
  content := h.content
  exHeader := h.exHeader
  live j hj := by
    rw [hasRoom_setRoomKey] at hj
    rw [roomKey_setRoomKey]
    by_cases hji : j = i
    · rw [if_pos hji]
      exact ⟨r, hr, (h.content.stores.saved_key hr).symm, tableId, syncKey, payload, hrow, hlink⟩
    · rw [if_neg hji] at hj ⊢
      exact h.live j hj
  inj j k hj hk heq := by
    rw [hasRoom_setRoomKey] at hj hk
    rw [roomKey_setRoomKey, roomKey_setRoomKey] at heq
    by_cases hji : j = i
    · by_cases hki : k = i
      · rw [hji, hki]
      · rw [if_neg hki] at hk
        rw [if_pos hji, if_neg hki] at heq
        exact absurd heq.symm (hu.objects k hk)
    · rw [if_neg hji] at hj
      by_cases hki : k = i
      · rw [if_neg hji, if_pos hki] at heq
        exact absurd heq (hu.objects j hj)
      · rw [if_neg hki] at hk
        rw [if_neg hji, if_neg hki] at heq
        exact h.inj j k hj hk heq
  dead j hj := by
    rw [hasRoom_setRoomKey] at hj
    rw [roomKey_setRoomKey]
    by_cases hji : j = i
    · rw [if_pos hji] at hj
      exact absurd (h.content.stores.roomPos_ne hr) hj
    · rw [if_neg hji] at hj ⊢
      exact h.dead j hj
  freed := h.freed
  nodup := h.nodup

/-- A free room that is nobody's goes into the map. -/
theorem push (h : Owns s rooms) (hr : r ∈ rooms) (hu : Unowned s rooms r.key.roomPos) (hfreed : Freed r) :
    Owns { s with freedRoomsMap := FreedRoomsMap.push r.key.roomSize r.key.roomPos s.freedRoomsMap } rooms where
  content := h.content
  exHeader := h.exHeader
  live := h.live
  inj := h.inj
  dead := h.dead
  freed e he := by
    rcases mem_cons.mp ((entries_push _ _ _).mem_iff.mp he) with rfl | he
    · exact ⟨r, hr, rfl, rfl, hfreed⟩
    · exact h.freed e he
  nodup := by
    have hperm := (entries_push r.key.roomSize r.key.roomPos s.freedRoomsMap).map Prod.snd
    rw [← positions_eq, map_cons, ← positions_eq] at hperm
    exact hperm.nodup_iff.mpr (nodup_cons.mpr ⟨hu.freed, h.nodup⟩)

/-- A room that is taken from the map is nobody's. -/
theorem take (h : Owns s rooms) {requiredSize p : ℕ} {freed : FreedRoomsMap}
    (htake : FreedRoomsMap.take requiredSize s.freedRoomsMap = some (p, freed)) :
    Owns { s with freedRoomsMap := freed } rooms ∧ Unowned { s with freedRoomsMap := freed } rooms p ∧
      ∃ r ∈ rooms, r.key.roomPos = p ∧ requiredSize ≤ r.key.roomSize ∧ Freed r := by
  obtain ⟨size, hle, hperm⟩ := entries_take htake
  have hpositions := hperm.map Prod.snd
  rw [← positions_eq, map_cons, ← positions_eq] at hpositions
  obtain ⟨hnot, hnodup⟩ := nodup_cons.mp (hpositions.nodup_iff.mp h.nodup)
  obtain ⟨r, hr, hpos, hsize, hfreed⟩ := h.freed _ (hperm.mem_iff.mpr mem_cons_self)
  have hpos : r.key.roomPos = p := hpos
  refine ⟨⟨h.content, h.exHeader, h.live, h.inj, h.dead, ?_, hnodup⟩, ⟨?_, hnot, ?_⟩, r, hr, hpos, ?_, hfreed⟩
  · intro e he
    exact h.freed e (hperm.mem_iff.mpr (mem_cons_of_mem _ he))
  · intro j hj heq
    obtain ⟨x, hx, hkey, tableId, syncKey, payload, hrow, -⟩ := h.live j hj
    have hxpos : x.key.roomPos = r.key.roomPos := by
      rw [hpos, hkey]
      exact heq
    rw [h.content.stores.unique hx hr hxpos] at hrow
    exact hrow.not_freed hfreed.type
  · intro x hx hxpos
    rw [h.content.stores.unique hx hr (hxpos.trans hpos.symm)]
    exact hfreed.not_exHeader
  · rw [hsize]
    exact hle

end Owns

end Fon9.Inn
