import Fon9.Inn.HeaderSync
import Fon9.Inn.ReadRange

/-! Runs of calls on a key over a storage that fails. The key and the header stay the same exactly
if every call that gets to the header puts the bytes of it that change; a call whose arguments are
refused changes nothing, and no call touches other data than its own. -/

namespace Fon9.Inn

open Lib List InnFile

variable {f : InnFile} {s : KeyedFile} {c : KeyCall} {pos n : ℕ}

/-- The fault makes a write of `n` bytes fail. -/
def failsAt (n : ℕ) : Option WriteFault → Bool
  | none => false
  | some (.error _) => true
  | some (.short written) => written < n

/-- A fault makes one of the writes of `WriteRoom` fail. -/
def dataFails : ℕ → List (List UInt8) → List (Option WriteFault) → Bool
  | _, [], _ => false
  | wrsz, blk :: buf, faults =>
    let n := (blk.take wrsz).length
    failsAt n faults.head?.join || (wrsz - n ≠ 0 && dataFails (wrsz - n) buf faults.tail)

theorem checkedWrite_fails (f : InnFile) (fault : Option WriteFault) (pos : ℕ) (data : List UInt8) (ex ex' : String) :
    (f.checkedWrite fault pos data ex ex').1 = .ok () ↔ failsAt data.length fault = false := by
  cases fault with
  | none => exact iff_of_true rfl rfl
  | some fault =>
    cases fault with
    | error n => exact iff_of_false (by rintro ⟨⟩) (by rintro ⟨⟩)
    | short n =>
      unfold checkedWrite failsAt
      dsimp only
      by_cases hn : n < data.length
      · rw [if_pos hn]
        exact iff_of_false (by rintro ⟨⟩) (by simpa using hn)
      · rw [if_neg hn]
        exact iff_of_true rfl (by simpa using hn)

theorem writeRoom_fails (ex ex' : String) (buf : List (List UInt8)) (f : InnFile) (pos wrsz : ℕ)
    (faults : List (Option WriteFault)) :
    (f.writeRoom pos wrsz ex ex' buf faults).1 = .ok () ↔ dataFails wrsz buf faults = false := by
  induction buf generalizing f pos wrsz faults with
  | nil => exact iff_of_true rfl rfl
  | cons blk buf ih =>
    have hfirst := checkedWrite_fails f faults.head?.join pos (blk.take wrsz) ex ex'
    unfold writeRoom dataFails
    dsimp only
    generalize f.checkedWrite faults.head?.join pos (blk.take wrsz) ex ex' = r at hfirst ⊢
    obtain ⟨res, g⟩ := r
    cases res with
    | error e =>
      have hfails : failsAt (blk.take wrsz).length faults.head?.join = true := by
        by_contra hno
        cases hfirst.mpr (Bool.eq_false_of_not_eq_true hno)
      rw [hfails, Bool.true_or]
      exact iff_of_false (by rintro ⟨⟩) (by rintro ⟨⟩)
    | ok u =>
      rw [hfirst.mp rfl, Bool.false_or]
      dsimp only
      by_cases hend : wrsz - (blk.take wrsz).length = 0
      · have hstop : decide (wrsz - (blk.take wrsz).length ≠ 0) = false := decide_eq_false (not_not_intro hend)
        rw [if_pos hend, hstop, Bool.false_and]
        exact iff_of_true rfl rfl
      · have hgoes : decide (wrsz - (blk.take wrsz).length ≠ 0) = true := decide_eq_true hend
        rw [if_neg hend, hgoes, Bool.true_and, ih]

namespace KeyedFile

/-- Where the data of a call go in the room, and how many bytes. -/
def dataRange : KeyOp → ℕ × ℕ
  | .write offset size _ => (offset.toNat, size.toNat)
  | .rewrite buf => (0, calcSize buf)
  | .reduce _ exRoomHeader => (0, exRoomHeader.length)
  | .clearRoom _ => (0, 0)
  | .setPendingRoomType _ => (0, 0)

/-- The bytes that a call may write: the type and the size in the header, and a range of the data. -/
def Touched (pos offset size i : ℕ) : Prop :=
  (pos + 4 ≤ i ∧ i < pos + kRoomHeaderSize) ∨
    (pos + kRoomHeaderSize + offset ≤ i ∧ i < pos + kRoomHeaderSize + offset + size)

/-- The size that `Write` leaves. -/
def writtenSize (key : RoomKey) (offset size : ℕ) : ℕ :=
  if u32 (offset + size) < key.dataSize then key.dataSize else u32 (offset + size)

/-- A call that gets to the header puts all bytes of it that change. -/
def HeaderPut (s : KeyedFile) (c : KeyCall) : Prop :=
  s.check c.op = .ok () →
    match c.op with
    | .write offset size buf =>
      size.toNat ≠ 0 → dataFails size.toNat buf c.faults.data = false →
        Put s.key (writtenSize s.key offset.toNat size.toNat) (headerFrom s.key) c.faults.header
    | .rewrite buf => Put s.key (u32 (calcSize buf)) (headerFrom s.key) c.faults.header
    | .reduce newDataSize exRoomHeader =>
      Put s.key newDataSize.toNat (if exRoomHeader = [] then headerFrom s.key else 0) c.faults.header
    | .clearRoom _ => Put s.key 0 (headerFrom s.key) c.faults.header
    | .setPendingRoomType _ => True

/-- A call whose arguments are refused changes nothing. -/
theorem call_refused {e : InnError} (h : s.check c.op = .error e) : s.call c = (.error e, s) := by
  obtain ⟨op, faults⟩ := c
  cases op with
  | write offset size buf => simp only [call, write, show s.checkWrite _ _ _ = _ from h]
  | rewrite buf => simp only [call, rewrite, show s.checkRewrite _ = _ from h]
  | reduce newDataSize exRoomHeader => simp only [call, reduce, show s.checkReduce _ _ = _ from h]
  | clearRoom requiredSize => simp only [call, clearRoom, show s.checkClearRoom _ = _ from h]
  | setPendingRoomType roomType => cases h

/-- Data behind the header do not matter to it. -/
theorem coherent_congr {range : ℕ → Prop} {g : InnFile} (hin : s.Inside) (hkept : KeptBut range s.file g)
    (hout : ∀ i, range i → s.key.roomPos + kRoomHeaderSize ≤ i) :
    (⟨s.key, g⟩ : KeyedFile).Coherent ↔ s.Coherent := by
  have hin' : (⟨s.key, g⟩ : KeyedFile).Inside := le_trans hin hkept.size
  rw [coherent_iff hin', coherent_iff hin, hkept.header hin hout]

theorem reduceHeader_key (s : KeyedFile) (newDataSize : ℕ) (exRoomHeader : List UInt8) (fault : Option WriteFault) :
    (s.reduceHeader newDataSize exRoomHeader fault).2.1.key = s.key.headed newDataSize := by
  unfold reduceHeader
  by_cases hchange : s.key.currentRoomType ≠ s.key.pendingRoomType ∨ s.key.dataSize ≠ newDataSize
  · rw [if_pos hchange]
    rfl
  · rw [if_neg hchange]
    rw [not_or, not_not, not_not] at hchange
    exact (RoomKey.headed_self hchange.1 hchange.2).symm

theorem reduceHeader_kept (s : KeyedFile) (newDataSize : ℕ) (exRoomHeader : List UInt8) (fault : Option WriteFault) :
    KeptBut (fun i => s.key.roomPos + 4 ≤ i ∧ i < s.key.roomPos + kRoomHeaderSize + exRoomHeader.length) s.file
      (s.reduceHeader newDataSize exRoomHeader fault).2.1.file := by
  have h9 : kRoomHeaderSize = 9 := rfl
  have hbytes : (BigEndian.bytes 4 newDataSize).length = 4 := BigEndian.length_bytes 4 newDataSize
  unfold reduceHeader
  by_cases hchange : s.key.currentRoomType ≠ s.key.pendingRoomType ∨ s.key.dataSize ≠ newDataSize
  · rw [if_pos hchange]
    refine (keptBut_checkedWrite s.file fault _ _ _ _).mono fun i hi => ?_
    unfold kOffset_RoomType at hi
    by_cases hfits : exRoomHeader.length ≤ 128
    · simp only [if_pos hfits, length_append, length_singleton, hbytes] at hi
      omega
    · simp only [if_neg hfits, length_append, length_singleton, hbytes] at hi
      omega
  · rw [if_neg hchange]
    exact KeptBut.refl _ _

theorem reduceHeader_coherent {newDataSize : ℕ} (hin : s.Inside) (hc : s.Coherent) (hlt : newDataSize < 2 ^ 32)
    (exRoomHeader : List UInt8) (fault : Option WriteFault) :
    (s.reduceHeader newDataSize exRoomHeader fault).2.1.Coherent ↔ Put s.key newDataSize 0 fault := by
  have hkey := s.reduceHeader_key newDataSize exRoomHeader fault
  have hkept := s.reduceHeader_kept newDataSize exRoomHeader fault
  obtain ⟨hold, -⟩ := (coherent_iff hin).mp hc
  have hin' : (s.reduceHeader newDataSize exRoomHeader fault).2.1.Inside := by
    rw [Inside, hkey]
    exact le_trans hin hkept.size
  rw [coherent_iff hin', hkey, put_iff, and_iff_left (show (s.key.headed newDataSize).dataSize < 2 ^ 32 from hlt)]
  show InnFile.header _ s.key.roomPos = _ ↔ _
  have hnew := length_headerBytes (s.key.headed newDataSize)
  have hold5 := length_headerBytes s.key
  have hend : ∀ n, 5 ≤ n → (headerBytes s.key).drop n = (headerBytes (s.key.headed newDataSize)).drop n := by
    intro n hn
    rw [drop_of_length_le (by omega), drop_of_length_le (by omega)]
  unfold reduceHeader
  by_cases hchange : s.key.currentRoomType ≠ s.key.pendingRoomType ∨ s.key.dataSize ≠ newDataSize
  · rw [if_pos hchange]
    by_cases hfits : exRoomHeader.length ≤ 128
    · simp only [if_pos hfits]
      refine header_checkedWrite 0 (5 + exRoomHeader.length) exRoomHeader hin hold hnew ?_ rfl (hend _ (by omega)) fault _ _
      rw [drop_zero, take_of_length_le (by rw [length_append, hnew])]
      rfl
    · simp only [if_neg hfits]
      refine header_checkedWrite 0 5 [] hin hold hnew ?_ rfl (hend _ (le_refl 5)) fault _ _
      rw [drop_zero, append_nil, take_of_length_le (le_of_eq hnew)]
      rfl
  · rw [if_neg hchange]
    rw [not_or, not_not, not_not] at hchange
    rw [RoomKey.headed_self hchange.1 hchange.2]
    exact iff_of_true hold fun w _ => rfl

/-! ### One call -/

/-- What a call keeps: the place of its key, and the bytes that are not its own. -/
structure CallKept (offset size : ℕ) (s s' : KeyedFile) : Prop where
  roomPos : s'.key.roomPos = s.key.roomPos
  kept : KeptBut (Touched s.key.roomPos offset size) s.file s'.file

theorem CallKept.refl (offset size : ℕ) (s : KeyedFile) : CallKept offset size s s := ⟨rfl, KeptBut.refl _ _⟩

theorem updateRoomHeader_touched (s : KeyedFile) (newsz offset size : ℕ) (fault : Option WriteFault) (ex ex' : String) :
    CallKept offset size s (s.updateRoomHeader newsz fault ex ex').2 where
  roomPos := by rw [updateRoomHeader_key]; rfl
  kept := (s.updateRoomHeader_kept newsz fault ex ex').mono fun _ hi => .inl hi

theorem write_kept (s : KeyedFile) (offset size : ℕ) (buf : List (List UInt8)) (faults : CallFaults) :
    CallKept offset size s (s.write offset size buf faults).2 := by
  unfold write
  cases s.checkWrite offset size buf with
  | error e => exact CallKept.refl _ _ _
  | ok u =>
    dsimp only
    by_cases hzero : size = 0
    · rw [if_pos hzero]
      exact CallKept.refl _ _ _
    rw [if_neg hzero]
    have hdata := keptBut_writeRoom "InnFile.Write: write error." "InnFile.Write: write error size." buf s.file
      (s.key.roomPos + kRoomHeaderSize + offset) size faults.data
    generalize s.file.writeRoom _ _ _ _ _ _ = r at hdata ⊢
    obtain ⟨res, g⟩ := r
    have hkept : KeptBut (Touched s.key.roomPos offset size) s.file g := hdata.mono fun _ hi => .inr hi
    cases res with
    | error e => exact ⟨rfl, hkept⟩
    | ok u =>
      have hupdate := updateRoomHeader_touched ⟨s.key, g⟩ (writtenSize s.key offset size) offset size faults.header
        "InnFile.Write: update RoomHeader error." "InnFile.Write: update RoomHeader error size."
      exact ⟨hupdate.roomPos, hkept.trans hupdate.kept⟩

theorem write_coherent {offset size : ℕ} (hin : s.Inside) (hc : s.Coherent) (hlt : s.key.dataSize < 2 ^ 32)
    (buf : List (List UInt8)) (faults : CallFaults) (hcheck : s.checkWrite offset size buf = .ok ()) :
    (s.write offset size buf faults).2.Coherent ↔ (size ≠ 0 → dataFails size buf faults.data = false →
      Put s.key (writtenSize s.key offset size) (headerFrom s.key) faults.header) := by
  unfold write
  rw [hcheck]
  dsimp only
  by_cases hzero : size = 0
  · rw [if_pos hzero]
    exact iff_of_true hc fun hne => absurd hzero hne
  rw [if_neg hzero]
  have hdata := keptBut_writeRoom "InnFile.Write: write error." "InnFile.Write: write error size." buf s.file
    (s.key.roomPos + kRoomHeaderSize + offset) size faults.data
  have hfails := writeRoom_fails "InnFile.Write: write error." "InnFile.Write: write error size." buf s.file
    (s.key.roomPos + kRoomHeaderSize + offset) size faults.data
  generalize s.file.writeRoom _ _ _ _ _ _ = r at hdata hfails ⊢
  obtain ⟨res, g⟩ := r
  have hc' := (coherent_congr hin hdata fun i hi => by omega).mpr hc
  cases res with
  | error e =>
    have hfail : ¬ dataFails size buf faults.data = false := fun hno => by cases hfails.mpr hno
    exact iff_of_true hc' fun _ hno => absurd hno hfail
  | ok u =>
    have hin' : (⟨s.key, g⟩ : KeyedFile).Inside := le_trans hin hdata.size
    have hlt' : writtenSize s.key offset size < 2 ^ 32 := by
      unfold writtenSize
      split
      · exact hlt
      · exact Nat.mod_lt _ (Nat.two_pow_pos 32)
    have hupdate := updateRoomHeader_coherent hin' hc' hlt' faults.header "InnFile.Write: update RoomHeader error."
      "InnFile.Write: update RoomHeader error size."
    exact hupdate.trans ⟨fun h _ _ => h, fun h => h hzero (hfails.mp rfl)⟩

theorem rewrite_kept (s : KeyedFile) (buf : List (List UInt8)) (faults : CallFaults) :
    CallKept 0 (calcSize buf) s (s.rewrite buf faults).2 := by
  unfold rewrite
  cases s.checkRewrite buf with
  | error e => exact CallKept.refl _ _ _
  | ok u =>
    dsimp only
    have hheader := s.updateRoomHeader_touched (u32 (calcSize buf)) 0 (calcSize buf) faults.header
      "InnFile.Rewrite: update RoomHeader error." "InnFile.Rewrite: update RoomHeader error size."
    generalize s.updateRoomHeader _ _ _ _ = r at hheader ⊢
    obtain ⟨res, t⟩ := r
    cases res with
    | error e => exact hheader
    | ok u =>
      refine ⟨hheader.roomPos, hheader.kept.trans ?_⟩
      refine (keptBut_writeRoom _ _ buf t.file (t.key.roomPos + kRoomHeaderSize) (calcSize buf) faults.data).mono
        fun i hi => .inr ?_
      rwa [show t.key.roomPos = s.key.roomPos from hheader.roomPos] at hi

theorem rewrite_coherent (hin : s.Inside) (hc : s.Coherent) (buf : List (List UInt8)) (faults : CallFaults)
    (hcheck : s.checkRewrite buf = .ok ()) :
    (s.rewrite buf faults).2.Coherent ↔ Put s.key (u32 (calcSize buf)) (headerFrom s.key) faults.header := by
  have hupdate := updateRoomHeader_coherent hin hc (Nat.mod_lt (calcSize buf) (Nat.two_pow_pos 32)) faults.header
    "InnFile.Rewrite: update RoomHeader error." "InnFile.Rewrite: update RoomHeader error size."
  have hheader := s.updateRoomHeader_touched (u32 (calcSize buf)) 0 0 faults.header
    "InnFile.Rewrite: update RoomHeader error." "InnFile.Rewrite: update RoomHeader error size."
  unfold rewrite
  rw [hcheck]
  dsimp only
  rw [← hupdate]
  generalize s.updateRoomHeader _ _ _ _ = r at hheader ⊢
  obtain ⟨res, t⟩ := r
  cases res with
  | error e => exact Iff.rfl
  | ok u =>
    have hin' : t.Inside := by
      rw [Inside, show t.key.roomPos = s.key.roomPos from hheader.roomPos]
      exact le_trans hin hheader.kept.size
    exact coherent_congr hin' (keptBut_writeRoom _ _ buf t.file _ (calcSize buf) faults.data) fun i hi => hi.1

section

variable (s : KeyedFile) (newDataSize : ℕ) (exRoomHeader : List UInt8)

theorem reduceHeader_rest (fault : Option WriteFault) :
    (s.reduceHeader newDataSize exRoomHeader fault).2.2.length ≤ exRoomHeader.length := by
  unfold reduceHeader
  by_cases hchange : s.key.currentRoomType ≠ s.key.pendingRoomType ∨ s.key.dataSize ≠ newDataSize
  · rw [if_pos hchange]
    dsimp only
    split
    · exact Nat.zero_le _
    · exact Nat.le_refl _
  · rw [if_neg hchange]

theorem reduceHeader_touched (fault : Option WriteFault) :
    CallKept 0 exRoomHeader.length s (s.reduceHeader newDataSize exRoomHeader fault).2.1 where
  roomPos := by rw [reduceHeader_key]; rfl
  kept := (s.reduceHeader_kept newDataSize exRoomHeader fault).mono fun i hi => by unfold Touched; omega

theorem reduce_kept (faults : CallFaults) :
    CallKept 0 exRoomHeader.length s (s.reduce newDataSize exRoomHeader faults).2 := by
  unfold reduce
  cases s.checkReduce newDataSize exRoomHeader with
  | error e => exact CallKept.refl _ _ _
  | ok u =>
    dsimp only
    by_cases hnil : exRoomHeader = []
    · rw [if_pos hnil]
      exact s.updateRoomHeader_touched _ _ _ _ _ _
    rw [if_neg hnil]
    have hheader := s.reduceHeader_touched newDataSize exRoomHeader faults.header
    have hrest := s.reduceHeader_rest newDataSize exRoomHeader faults.header
    generalize s.reduceHeader newDataSize exRoomHeader faults.header = r at hheader hrest ⊢
    obtain ⟨_ | _, t, _ | ⟨b, rest⟩⟩ := r
    · exact hheader
    · exact hheader
    · exact hheader
    · refine ⟨hheader.roomPos, hheader.kept.trans ?_⟩
      refine (keptBut_checkedWrite t.file faults.data.head?.join (t.key.roomPos + kRoomHeaderSize) (b :: rest) _ _).mono
        fun i hi => .inr ?_
      rw [show t.key.roomPos = s.key.roomPos from hheader.roomPos] at hi
      dsimp only at hrest
      omega

end

theorem reduce_coherent {newDataSize : ℕ} (hin : s.Inside) (hc : s.Coherent) (hlt : newDataSize < 2 ^ 32)
    (exRoomHeader : List UInt8) (faults : CallFaults) (hcheck : s.checkReduce newDataSize exRoomHeader = .ok ()) :
    (s.reduce newDataSize exRoomHeader faults).2.Coherent ↔
      Put s.key newDataSize (if exRoomHeader = [] then headerFrom s.key else 0) faults.header := by
  unfold reduce
  rw [hcheck]
  dsimp only
  by_cases hnil : exRoomHeader = []
  · rw [if_pos hnil, if_pos hnil]
    exact updateRoomHeader_coherent hin hc hlt _ _ _
  rw [if_neg hnil, if_neg hnil, ← reduceHeader_coherent hin hc hlt exRoomHeader faults.header]
  have hheader := s.reduceHeader_touched newDataSize exRoomHeader faults.header
  generalize s.reduceHeader newDataSize exRoomHeader faults.header = r at hheader ⊢
  have hin' : r.2.1.Inside := by
    rw [Inside, hheader.roomPos]
    exact le_trans hin hheader.kept.size
  obtain ⟨_ | _, t, _ | ⟨b, rest⟩⟩ := r
  · exact Iff.rfl
  · exact Iff.rfl
  · exact Iff.rfl
  · exact coherent_congr hin' (keptBut_checkedWrite t.file _ _ _ _ _) fun i hi => hi.1

theorem clearRoom_kept (s : KeyedFile) (requiredSize : ℕ) (faults : CallFaults) :
    CallKept 0 0 s (s.clearRoom requiredSize faults).2 := by
  unfold clearRoom
  cases s.checkClearRoom requiredSize with
  | error e => exact CallKept.refl _ _ _
  | ok u => exact s.updateRoomHeader_touched _ _ _ _ _ _

theorem step_kept (s : KeyedFile) (c : KeyCall) :
    CallKept (dataRange c.op).1 (dataRange c.op).2 s (s.step c) := by
  obtain ⟨op, faults⟩ := c
  cases op with
  | write offset size buf => exact s.write_kept _ _ _ _
  | rewrite buf => exact s.rewrite_kept _ _
  | reduce newDataSize exRoomHeader => exact s.reduce_kept _ _ _
  | clearRoom requiredSize => exact s.clearRoom_kept _ _
  | setPendingRoomType roomType => exact ⟨rfl, KeptBut.refl _ _⟩

/-- After a call the key and the header say the same exactly if what the call changes of it was put. -/
theorem step_coherent_iff (hin : s.Inside) (hc : s.Coherent) (c : KeyCall) : (s.step c).Coherent ↔ s.HeaderPut c := by
  have hlt := ((coherent_iff hin).mp hc).2
  cases hcheck : s.check c.op with
  | error e =>
    rw [step, call_refused hcheck]
    exact iff_of_true hc fun hok => by rw [hcheck] at hok; cases hok
  | ok u =>
    have himp : ∀ P : Prop, (s.check c.op = .ok () → P) ↔ P := fun P => ⟨fun h => h hcheck, fun h _ => h⟩
    rw [HeaderPut, himp]
    obtain ⟨op, faults⟩ := c
    cases op with
    | write offset size buf => exact write_coherent hin hc hlt buf faults hcheck
    | rewrite buf => exact rewrite_coherent hin hc buf faults hcheck
    | reduce newDataSize exRoomHeader => exact reduce_coherent hin hc newDataSize.toNat_lt exRoomHeader faults hcheck
    | clearRoom requiredSize =>
      show (s.clearRoom requiredSize.toNat faults).2.Coherent ↔ _
      rw [clearRoom, show s.checkClearRoom requiredSize.toNat = _ from hcheck]
      exact updateRoomHeader_coherent hin hc (Nat.two_pow_pos 32) _ _ _
    | setPendingRoomType roomType => exact iff_of_true hc trivial

theorem step_inside (hin : s.Inside) (c : KeyCall) : (s.step c).Inside := by
  have hkept := s.step_kept c
  rw [Inside, hkept.roomPos]
  exact le_trans hin hkept.kept.size

/-- A call whose arguments are refused leaves the key and the file; another one leaves all bytes but the
type, the size and its own data. -/
def OthersKept (s : KeyedFile) (c : KeyCall) : Prop :=
  (∀ e, s.check c.op = .error e → s.call c = (.error e, s)) ∧
    CallKept (dataRange c.op).1 (dataRange c.op).2 s (s.step c)

theorem othersKept_along (s : KeyedFile) (calls : List KeyCall) : Along step OthersKept s calls := by
  induction calls generalizing s with
  | nil => trivial
  | cons c calls ih => exact ⟨⟨fun _ he => call_refused he, s.step_kept c⟩, ih _⟩

end KeyedFile

/-- Throughout a run of calls the type and the size of the key are those on disk exactly if every call that gets
to the header puts the bytes of it that change. In every run, refused arguments change nothing and other data stay. -/
theorem coherent_throughout_iff (hin : s.Inside) (hc : s.Coherent) (calls : List KeyCall) :
    (Throughout KeyedFile.step KeyedFile.Coherent s calls ↔ Along KeyedFile.step KeyedFile.HeaderPut s calls) ∧
      Along KeyedFile.step KeyedFile.OthersKept s calls := by
  refine ⟨?_, s.othersKept_along calls⟩
  let I : KeyedFile → Prop := fun s => s.Inside ∧ s.Coherent
  have hI : I s := ⟨hin, hc⟩
  refine throughout_iff_along (fun s h => h.2) (fun s c h hput => ?_) (fun s c h hcoherent => ?_) hI
  · exact ⟨KeyedFile.step_inside h.1 c, (KeyedFile.step_coherent_iff h.1 h.2 c).mpr hput⟩
  · exact (KeyedFile.step_coherent_iff h.1 h.2 c).mp hcoherent

/-- The key of the room of three bytes. -/
def threeBytesKeyed : KeyedFile := ⟨⟨64, 55, 3, 0x20, 0x20⟩, threeBytes⟩

theorem threeBytesKeyed_inside : threeBytesKeyed.Inside := by
  show 64 + 9 ≤ 128
  decide

/-- A `ClearRoom` whose write fails leaves a key that is empty and a header with three bytes. -/
theorem clearRoom_not_coherent : ¬ Throughout KeyedFile.step KeyedFile.Coherent threeBytesKeyed
    [⟨.clearRoom 0, ⟨some (.error 0), []⟩⟩] := by
  rintro ⟨-, h⟩
  have hstep : (threeBytesKeyed.step ⟨.clearRoom 0, ⟨some (.error 0), []⟩⟩).Coherent := h
  exact absurd hstep (by decide)

theorem coherent_throughout_iff_threeBytes :
    (Throughout KeyedFile.step KeyedFile.Coherent threeBytesKeyed [⟨.write 3 1 [[100]], {}⟩] ↔
      Along KeyedFile.step KeyedFile.HeaderPut threeBytesKeyed [⟨.write 3 1 [[100]], {}⟩]) ∧
      Along KeyedFile.step KeyedFile.OthersKept threeBytesKeyed [⟨.write 3 1 [[100]], {}⟩] :=
  coherent_throughout_iff threeBytesKeyed_inside (by decide) _

end Fon9.Inn
