import Fon9.Inn.NewRoom
import Fon9.Inn.Stream
import Fon9.Lib.Chain

/-! Walks along the linked rooms of a file of any content: `SeekNoFlush` of an InnStream, and the rooms
of the ExHeader that `InnDbf::OpenImpl` reads. Neither remembers where it has been, so a walk ends
if and only if it does not come back to where it was. -/

namespace Fon9.Inn

open Lib Option

/-! ### Seek -/

namespace InnStream

variable (s : InnStream)

variable {s s' : InnStream} {pos : ℕ} {key : RoomKey} {curr : Block}

variable {f : InnFile} {roomType : InnRoomType} {k k' : Seeking} {at_ : ℕ × ℕ} {r : SeekResult}

end InnStream

/-! ### The rooms of the ExHeader -/

open InnStream

/-- A round of the loop of `OpenImpl`: the position of the next room, and the data read so far. -/
def exHeaderBody (file : InnFile) (k : ℕ × Bytes) : (ℕ × Bytes) ⊕ Except DbfError (Option (RoomKey × Bytes)) :=
  match liftInn (file.makeRoomKey k.1 kStreamHeaderSize) with
  | .error e => .inr (.error e)
  | .ok (key, ex) =>
    if key.currentRoomType ≠ kInnRoomType_ExFileHeader then
      if k.1 = 0 ∧ key.roomPos = 0 then .inr (.ok none) else .inr (.error (.inn .badMessage))
    else
      match liftInn (file.read key kStreamHeaderSize (u32 (key.dataSize + 2 ^ 32 - kStreamHeaderSize))) with
      | .error e => .inr (.error e)
      | .ok data =>
        if BigEndian.value ex = 0 then .inr (.ok (some (key, k.2 ++ data)))
        else .inl (BigEndian.value ex, k.2 ++ data)

variable {file : InnFile}

/-- The loop is the chain that `InnDbf.open` reads. -/
theorem openChain_eq_loop (fuel next : ℕ) (buf : Bytes) :
    InnDbf.openChain file fuel next buf = (loop (exHeaderBody file) fuel (next, buf)).getD (.ok none) := by
  induction fuel generalizing next buf with
  | zero => rfl
  | succ fuel ih =>
    rw [InnDbf.openChain, loop, exHeaderBody]
    show _ >>= _ = _
    cases hmake : liftInn (file.makeRoomKey next kStreamHeaderSize) with
    | error e => simp only [kStreamHeaderSize] at hmake; rw [hmake]; rfl
    | ok r =>
      obtain ⟨key, ex⟩ := r
      simp only [kStreamHeaderSize] at hmake ⊢
      simp only [hmake, bind, Except.bind]
      by_cases htype : key.currentRoomType ≠ kInnRoomType_ExFileHeader
      · by_cases hnone : next = 0 ∧ key.roomPos = 0
        · simp only [if_pos htype, if_pos hnone]
          rfl
        · simp only [if_pos htype, if_neg hnone]
          rfl
      · simp only [if_neg htype]
        cases liftInn (file.read key 8 (u32 (key.dataSize + 2 ^ 32 - 8))) with
        | error e => rfl
        | ok data =>
          by_cases hzero : BigEndian.value ex = 0
          · simp only [if_pos hzero]
            rfl
          · simp only [if_neg hzero]
            exact ih _ _

end Fon9.Inn
