import Fon9.Inn.Dbf

/-! A local modification makes the sync key greater, whatever the clock says, except where
neither the sequence number nor the time has a greater value. -/

namespace Fon9.Inn

open Lib Bitv IntType

namespace InnSyncKey

/-- `operator==` -/
def equal (lhs rhs : InnSyncKey) : Bool :=
  lhs.modifyTime == rhs.modifyTime && lhs.modifySeq == rhs.modifySeq && lhs.origHostId == rhs.origHostId

theorem equal_iff {lhs rhs : InnSyncKey} : lhs.equal rhs = true ↔ lhs = rhs := by
  cases lhs
  cases rhs
  simp [equal, and_assoc]

/-- `operator<` is a strict total order, and of three keys two are equal or one is less. -/
structure StrictTotal : Prop where
  irrefl : ∀ a : InnSyncKey, a.less a = false
  trans : ∀ a b c : InnSyncKey, a.less b = true → b.less c = true → a.less c = true
  asymm : ∀ a b : InnSyncKey, a.less b = true → b.less a = false
  equal : ∀ a b : InnSyncKey, a.equal b = true ↔ a.less b = false ∧ b.less a = false

theorem strictTotal : StrictTotal where
  irrefl a := by
    rw [← Bool.not_eq_true, less_iff]
    exact lt_irrefl a
  trans a b c hab hbc := by
    rw [less_iff] at hab hbc ⊢
    exact hab.trans hbc
  asymm a b hab := by
    rw [less_iff] at hab
    rw [← Bool.not_eq_true, less_iff]
    exact hab.asymm
  equal a b := by
    rw [equal_iff, ← Bool.not_eq_true, ← Bool.not_eq_true, less_iff, less_iff, not_lt, not_lt]
    exact ⟨fun h => ⟨h.ge, h.le⟩, fun h => le_antisymm h.2 h.1⟩

end InnSyncKey

namespace RoomSyncKey

/-- A call of `SetLocalModified`: what the clock says, and the host. -/
structure Call where
  now : IntType.int64.Val
  localHostId : UInt32

variable (k : RoomSyncKey)

def modified (c : Call) : RoomSyncKey := k.setLocalModified c.now c.localHostId

/-- Each call of a run makes the key greater. -/
def Rises (k : RoomSyncKey) : List Call → Prop
  | [] => True
  | c :: calls => k.1.less (k.modified c).1 = true ∧ Rises (k.modified c) calls

/-- The greatest sequence number at the greatest time. -/
def IsLast : Prop := k.1.modifySeq = 2 ^ 32 - 1 ∧ k.1.modifyTime = IntType.int64.max

instance (k : RoomSyncKey) : Decidable k.IsLast := inferInstanceAs (Decidable (_ ∧ _))

/-- No call of a run finds the last key. -/
def NeverLast (k : RoomSyncKey) : List Call → Prop
  | [] => True
  | c :: calls => ¬ k.IsLast ∧ NeverLast (k.modified c) calls

/-- The time of the key after a call. -/
theorem modified_time (c : Call) :
    (k.modified c).1.modifyTime =
      if k.1.modifyTime < c.now.1 then c.now.1
      else if k.1.modifySeq = 2 ^ 32 - 1 then int64.wrap (k.1.modifyTime + 1) else k.1.modifyTime := by
  have hseq := k.2.2.1
  have hwrap : u32 (k.1.modifySeq + 1) ≤ 0 ↔ k.1.modifySeq = 2 ^ 32 - 1 := by
    show (k.1.modifySeq + 1) % 2 ^ 32 ≤ 0 ↔ _
    omega
  rw [modified, setLocalModified]
  dsimp only
  split
  · rfl
  · by_cases hlast : k.1.modifySeq = 2 ^ 32 - 1
    · rw [if_pos (hwrap.mpr hlast), if_pos hlast]
      rfl
    · rw [if_neg (hlast ∘ hwrap.mp), if_neg hlast]

/-- A later time, or a greater sequence number at the same time. -/
theorem less_of_time {a b : InnSyncKey} (h : a.modifyTime < b.modifyTime) : a.less b = true := if_pos h

theorem less_of_seq {a b : InnSyncKey} (h : a.modifyTime = b.modifyTime) (hseq : a.modifySeq < b.modifySeq) :
    a.less b = true := by
  rw [InnSyncKey.less, if_neg (by omega), if_neg (by omega), if_pos hseq]

theorem not_less_of_time {a b : InnSyncKey} (h : b.modifyTime < a.modifyTime) : a.less b = false := by
  rw [InnSyncKey.less, if_neg (by omega), if_pos h]

/-- The clock stands still, is behind or ahead: only the last key has none above it. -/
theorem less_modified_iff (c : Call) : k.1.less (k.modified c).1 = true ↔ ¬ k.IsLast := by
  have htime := modified_time k c
  have hseq := k.2.2.1
  have hmax := k.2.1.2
  have hnow := c.now.2.2
  by_cases hlt : k.1.modifyTime < c.now.1
  · rw [if_pos hlt] at htime
    refine iff_of_true (less_of_time (by omega)) fun hlast => ?_
    have hlast := hlast.2
    omega
  · rw [if_neg hlt] at htime
    by_cases hfull : k.1.modifySeq = 2 ^ 32 - 1
    · rw [if_pos hfull] at htime
      by_cases hend : k.1.modifyTime = int64.max
      · have hwrap : int64.wrap (k.1.modifyTime + 1) = int64.min := by
          rw [hend]
          decide
        have hmin : int64.min < int64.max := by decide
        have hless := not_less_of_time (show (k.modified c).1.modifyTime < k.1.modifyTime by omega)
        rw [hless]
        exact iff_of_false Bool.false_ne_true fun hlast => hlast ⟨hfull, hend⟩
      · have hwrap : int64.wrap (k.1.modifyTime + 1) = k.1.modifyTime + 1 := by
          have hmin := k.2.1.1
          exact wrap_of_mem (by omega)
        exact iff_of_true (less_of_time (by omega)) fun hlast => hend hlast.2
    · rw [if_neg hfull] at htime
      have hnext : (k.modified c).1.modifySeq = k.1.modifySeq + 1 := u32_of_lt (by omega)
      exact iff_of_true (less_of_seq htime.symm (by omega)) fun hlast => hfull hlast.1

/-- In a run every call makes the key greater where none finds the last one. -/
theorem rises_iff (calls : List Call) : Rises k calls ↔ NeverLast k calls := by
  induction calls generalizing k with
  | nil => exact Iff.rfl
  | cons c calls ih => exact and_congr (less_modified_iff k c) (ih _)

theorem local_modification_wins (k : RoomSyncKey) (calls : List Call) :
    InnSyncKey.StrictTotal ∧ (Rises k calls ↔ NeverLast k calls) :=
  ⟨InnSyncKey.strictTotal, rises_iff k calls⟩

/-- The last key, which goes back to the least time. -/
theorem last_goes_back : ¬ ∀ (k : RoomSyncKey) (calls : List Call), Rises k calls := by
  intro h
  have hlast := (h ⟨⟨2 ^ 63 - 1, 2 ^ 32 - 1, 1⟩, by decide, by decide, by decide⟩ [⟨⟨0, by decide⟩, 1⟩]).1
  exact absurd hlast (by decide)

end RoomSyncKey

end Fon9.Inn
