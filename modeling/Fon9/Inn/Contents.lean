import Fon9.Inn.OwnedOnce

/-! A file of rooms in use: each room holds what was last put there, whatever is done to the others. -/

namespace Fon9.Inn

open Lib List InnFile Relation

/-- A call on the file that returns. The rooms are as their user has them, each with what is
to be in it; a new one has the size that was asked for. -/
inductive FileCall : InnFile × List Room → InnFile × List Room → Prop
  | makeNewRoom {f g rooms roomType size key} (hfits : Fits f.blockSize size)
      (hcall : f.makeNewRoom roomType size .none = (.ok key, g)) : FileCall (f, rooms) (g, rooms ++ [⟨key, []⟩])
  | clearRoom {f g rooms r roomType size key} (hr : r ∈ rooms)
      (hcall : f.clearRoom { r.key with pendingRoomType := roomType } size = .ok (key, g)) :
      FileCall (f, rooms) (g, putRoom rooms ⟨key, []⟩)
  | rewrite {f g rooms r roomType buf key} (hr : r ∈ rooms)
      (hcall : f.rewrite { r.key with pendingRoomType := roomType } buf = .ok (key, g)) :
      FileCall (f, rooms) (g, putRoom rooms ⟨key, buf⟩)
  | write {f g rooms r offset size buf key} (hr : r ∈ rooms) (hcall : f.write r.key offset size buf = .ok (key, g)) :
      FileCall (f, rooms)
        (g, putRoom rooms ⟨key, r.data.take offset ++ buf.take size ++ r.data.drop (offset + size)⟩)
  | open {f g rooms n k} (hcall : InnFile.open f.storage n = .ok (g, k)) : FileCall (f, rooms) (g, rooms)

variable {s t : InnFile × List Room} {r : Room} {blockSize : ℕ}

/-- The rooms are in the file, and nothing else is. -/
structure Keeps (s : InnFile × List Room) : Prop where
  stores : Stores s.1 s.2
  whole : Whole s.1
  block : s.1.blockSize < 2 ^ 32

theorem Keeps.put {f g rooms key key' data} {res : Except InnError (RoomKey × InnFile)} (h : Keeps (f, rooms))
    (hr : r ∈ rooms) (hcall : res = .ok (key, g)) (hspec : ∃ g', res = .ok (key', g') ∧
      SameBut f g' r.key.roomPos r.key.nextRoomPos ∧ Stores g' (putRoom rooms ⟨key', data⟩)) :
    Keeps (g, putRoom rooms ⟨key, data⟩) := by
  obtain ⟨_, heq, hsame, hstores⟩ := hspec
  rw [hcall] at heq
  cases heq
  exact ⟨hstores, h.whole.of_sameBut (h.stores.lies hr) hsame le_rfl, hsame.blockSize.trans_lt h.block⟩

theorem Keeps.step (h : Keeps s) (hcall : FileCall s t) : Keeps t := by
  obtain ⟨hstores, hwhole, hblock⟩ := id h
  cases hcall with
  | @makeNewRoom f _ _ roomType size _ hfits hcall =>
    have hgrow : f.cannotGrow size .none = false := by
      by_contra hgrow
      rw [Bool.not_eq_false] at hgrow
      simp [InnFile.makeNewRoom, hgrow, ite_eq_iff] at hcall
    obtain ⟨_, _, heq, -, -, hstores', hwhole', hblock'⟩ := @Whole.makeNewRoom _ _ roomType _ hwhole hstores hfits hgrow
    rw [hcall] at heq
    cases heq
    exact ⟨hstores', hwhole', hblock'.trans_lt hblock⟩
  | @clearRoom _ _ _ r _ size _ hr hcall =>
    have hle : size ≤ r.key.roomSize := by
      by_contra hgt
      simp [InnFile.clearRoom, (hstores.lies hr).checkRoomPos, bind, Except.bind, not_le.mp hgt] at hcall
    refine h.put hr hcall (hstores.clearRoom hr ?_ hle)
    exact hstores.saved_key hr
  | @rewrite _ _ _ r _ buf _ hr hcall =>
    have hle : buf.length ≤ r.key.roomSize := by
      by_contra hgt
      simp [InnFile.rewrite, (hstores.lies hr).checkRoomPos, bind, Except.bind, not_le.mp hgt] at hcall
    refine h.put hr hcall (hstores.rewrite hr ?_ hle)
    exact hstores.saved_key hr
  | @write _ _ _ r offset size buf _ hr hcall =>
    have hin : offset ≤ r.key.dataSize ∧ offset + size ≤ r.key.roomSize ∧ size ≤ buf.length := by
      simp only [InnFile.write, (hstores.lies hr).checkRoomPos, bind, Except.bind, throw, throwThe,
        MonadExceptOf.throw, pure, Except.pure] at hcall
      split_ifs at hcall <;> omega
    exact h.put hr hcall (hstores.write hr hin.1 hin.2.1 hin.2.2)
  | «open» hcall =>
    rw [(hwhole.open hblock hcall).1]
    exact h

/-- Whatever was done to a file since it was new, each room is found under its key, and reads as
what was last put there. -/
theorem rooms_hold (hpos : 0 < blockSize) (hlt : blockSize < 2 ^ 32)
    (hrun : ReflTransGen FileCall (newFile blockSize, []) s) (hr : r ∈ s.2) :
    s.1.makeRoomKey r.key.roomPos 0 = .ok (r.key, []) ∧ s.1.readAll r.key = .ok r.data ∧
      ∀ offset size, offset + size < 2 ^ 32 →
        s.1.read r.key offset size = .ok ((r.data.drop offset).take size) := by
  have h : Keeps s := by
    clear hr
    induction hrun with
    | refl => exact ⟨(newFile_stores hpos hlt).1, (newFile_stores hpos hlt).2, hlt⟩
    | tail _ hcall ih => exact ih.step hcall
  have hlies := h.stores.lies hr
  have hnext := hlies.next_le
  have hstored := hlies.stored
  exact ⟨hlies.makeRoomKey (by decide) (by omega), h.stores.readAll hr, fun offset size hsize => h.stores.read hr hsize⟩

theorem rooms_hold_three : ∃ (f : InnFile) (r : Room), f.readAll r.key = .ok [1, 2, 3] :=
  ⟨_, _, (@rooms_hold _ _ 64 (by decide) (by decide)
    (.tail (.single (@FileCall.makeNewRoom _ _ _ 1 5 _ (by decide) rfl))
      (@FileCall.rewrite _ _ _ _ 2 [1, 2, 3] _ (mem_singleton_self _) rfl)) (mem_singleton_self _)).2.1⟩

end Fon9.Inn
