import Mathlib.Algebra.Order.Group.Int
import Mathlib.Data.List.Pairwise
import Fon9.Lib.Run
import Fon9.Lib.Window

/-! The flow counter `FlowCounter`: so many uses in a unit of time. The times of the last
uses are kept in a ring, and only the slot that is written next is compared. Times and
intervals are counts of microseconds; no difference of times from zero on overflows. -/

namespace Fon9.Flow

open Lib List Option Nat

structure FlowCounter where
  sentTimes : List ℤ := []
  nextIndex : ℕ := 0
  timeUnit : ℤ := 0
  deriving DecidableEq

namespace FlowCounter

variable (fc : FlowCounter) (now : ℤ)

/-- Nothing where the slot is not one of the ring. -/
def internalCheck (maxc : ℕ) : Option (ℤ × FlowCounter) :=
  let fc := if maxc ≤ fc.nextIndex then { fc with nextIndex := 0 } else fc
  fc.sentTimes[fc.nextIndex]?.map fun sent =>
    let ti := fc.timeUnit - (now - sent)
    if ti ≤ 0 then (0, fc) else (ti, fc)

/-- `Resize`, and whether there is something to control. -/
def resize (count : ℕ) (timeUnit : ℤ) : Bool × FlowCounter :=
  if 0 < count ∧ 0 < timeUnit then (true, { fc with sentTimes := List.replicate count 0, timeUnit := timeUnit })
  else (false, { fc with sentTimes := [] })

def clearFlow : FlowCounter :=
  { fc with sentTimes := List.replicate fc.sentTimes.length 0 }

def check : Option (ℤ × FlowCounter) :=
  if fc.sentTimes.length ≠ 0 then fc.internalCheck now fc.sentTimes.length else some (0, fc)

/-- `SentTimes_[NextIndex_++] = now`. -/
def setNext : Option FlowCounter :=
  if fc.nextIndex < fc.sentTimes.length then
    some { fc with sentTimes := fc.sentTimes.set fc.nextIndex now, nextIndex := fc.nextIndex + 1 }
  else none

def fetch : Option (ℤ × FlowCounter) :=
  if fc.sentTimes.length ≠ 0 then
    (fc.internalCheck now fc.sentTimes.length).bind fun r =>
      if 0 < r.1 then some r else (r.2.setNext now).map fun fc => (0, fc)
  else some (0, fc)

def forceUsed : Option FlowCounter :=
  if fc.sentTimes = [] then some fc else fc.setNext now

/-- A counter that is made with its count and its unit. -/
def make (count : ℕ) (timeUnit : ℤ) : FlowCounter := (({} : FlowCounter).resize count timeUnit).2

end FlowCounter

/-- `checkUsed` is a `Check` with a `ForceUsed` where there is nothing to wait for. -/
inductive Act
  | fetch (now : ℤ)
  | check (now : ℤ)
  | checkUsed (now : ℤ)
  | clearFlow
  deriving DecidableEq

def Act.now : Act → Option ℤ
  | fetch now | check now | checkUsed now => some now
  | clearFlow => none

/-- A counter with the times of the uses that it admitted since the last `ClearFlow`. -/
structure Used where
  counter : FlowCounter
  uses : List ℤ := []
  deriving DecidableEq

def step (s : Used) : Act → Option Used
  | .fetch now => (s.counter.fetch now).map fun r => ⟨r.2, if 0 < r.1 then s.uses else s.uses ++ [now]⟩
  | .check now => (s.counter.check now).map fun r => ⟨r.2, s.uses⟩
  | .checkUsed now => (s.counter.check now).bind fun r =>
      if 0 < r.1 then some ⟨r.2, s.uses⟩ else (r.2.forceUsed now).map fun fc => ⟨fc, s.uses ++ [now]⟩
  | .clearFlow => some ⟨s.counter.clearFlow, []⟩

/-- The clock does not go back, and shows no time before `timeUnit`. -/
def Clocked (timeUnit : ℤ) (acts : List Act) : Prop :=
  (acts.filterMap Act.now).Pairwise (· ≤ ·) ∧ ∀ now ∈ acts.filterMap Act.now, timeUnit ≤ now

variable {count : ℕ} {timeUnit now : ℤ} {s s' : Used} {fc fc' : FlowCounter}

/-! ### A step -/

/-- The ring keeps the last times of use, which are `timeUnit` apart every `count`. -/
structure Inv (count : ℕ) (timeUnit : ℤ) (s : Used) : Prop where
  length : s.counter.sentTimes.length = count
  index : s.counter.nextIndex ≤ count
  unit : s.counter.timeUnit = timeUnit
  ring : s.counter.sentTimes.rotate s.counter.nextIndex = lastOf count 0 s.uses
  sorted : s.uses.Pairwise (· ≤ ·)
  spaced : Spaced count timeUnit s.uses

/-- The counter with its slot in the ring. -/
def FlowCounter.wrapped (fc : FlowCounter) (count : ℕ) : FlowCounter := { fc with nextIndex := fc.nextIndex % count }

theorem Inv.wrapped (h : Inv count timeUnit s) (hcount : 0 < count) :
    Inv count timeUnit { s with counter := s.counter.wrapped count } where
  length := h.length
  index := (mod_lt _ hcount).le
  unit := h.unit
  ring := by
    have hring := h.ring
    rw [← rotate_mod, h.length] at hring
    exact hring
  sorted := h.sorted
  spaced := h.spaced

/-- The slot that is compared has the oldest of the last times. -/
theorem Inv.internalCheck (h : Inv count timeUnit s) (hcount : 0 < count) (now : ℤ) :
    ∃ sent, (lastOf count 0 s.uses).head? = some sent ∧
      s.counter.internalCheck now count = some (if timeUnit - (now - sent) ≤ 0 then 0 else timeUnit - (now - sent),
        s.counter.wrapped count) := by
  have hwrap : (if count ≤ s.counter.nextIndex then { s.counter with nextIndex := 0 } else s.counter) =
      s.counter.wrapped count := by
    split
    · next hle =>
      rw [FlowCounter.wrapped, le_antisymm h.index hle, mod_self]
    · next hlt => rw [FlowCounter.wrapped, mod_eq_of_lt (not_le.mp hlt)]
  have hlt : s.counter.nextIndex % count < s.counter.sentTimes.length := by
    rw [h.length]
    exact mod_lt _ hcount
  have hhead := head?_rotate hlt
  have hring : s.counter.sentTimes.rotate (s.counter.nextIndex % count) = lastOf count 0 s.uses :=
    (h.wrapped hcount).ring
  rw [hring] at hhead
  refine ⟨s.counter.sentTimes[s.counter.nextIndex % count], ?_, ?_⟩
  · rw [hhead, getElem?_eq_getElem hlt]
  · rw [FlowCounter.internalCheck, hwrap]
    simp only [FlowCounter.wrapped, getElem?_eq_getElem hlt, map_some, h.unit]
    split <;> rfl

section

variable (h : Inv count timeUnit s) {sent : ℤ} (hcount : 0 < count)
  (hsent : (lastOf count 0 s.uses).head? = some sent)
include h hcount hsent

/-- What is behind the oldest one is not older. -/
theorem Inv.oldest_le {i : ℕ} {u : ℤ} (hu : s.uses[i]? = some u) (hle : count ≤ s.uses.length) :
    (i + count ≤ s.uses.length → u ≤ sent) ∧ (s.uses.length ≤ i + count → sent ≤ u) := by
  rw [head_lastOf hcount, dif_pos hle] at hsent
  obtain ⟨hi, rfl⟩ := List.getElem?_eq_some_iff.mp hu
  obtain rfl := Option.some.inj hsent
  have hsorted := pairwise_iff_getElem.mp h.sorted
  constructor
  · intro hi'
    rcases lt_or_ge i (s.uses.length - count) with hlt | hge
    · exact hsorted i _ hi (by omega) hlt
    · have heq : i = s.uses.length - count := by omega
      simp only [heq, le_refl]
  · intro hi'
    rcases lt_or_ge (s.uses.length - count) i with hlt | hge
    · exact hsorted _ i (by omega) hi hlt
    · have heq : i = s.uses.length - count := by omega
      simp only [heq, le_refl]

/-- A use that is admitted takes the slot of the oldest time. -/
theorem Inv.admit (hfree : timeUnit - (now - sent) ≤ 0) (hnow : ∀ u ∈ s.uses, u ≤ now) :
    ∃ fc, (s.counter.wrapped count).setNext now = some fc ∧ Inv count timeUnit ⟨fc, s.uses ++ [now]⟩ := by
  have hw := h.wrapped hcount
  have hlt : s.counter.nextIndex % count < s.counter.sentTimes.length := by
    rw [h.length]
    exact mod_lt _ hcount
  refine ⟨_, if_pos hlt, ?_⟩
  constructor
  · show (s.counter.sentTimes.set _ now).length = count
    rw [length_set, h.length]
  · exact mod_lt _ hcount
  · exact h.unit
  · show (s.counter.sentTimes.set (s.counter.nextIndex % count) now).rotate (s.counter.nextIndex % count + 1) = _
    have hring : s.counter.sentTimes.rotate (s.counter.nextIndex % count) = lastOf count 0 s.uses := hw.ring
    rw [rotate_set hlt, lastOf_concat hcount, hring]
  · rw [pairwise_append]
    refine ⟨h.sorted, pairwise_singleton _ _, fun u hu t ht => ?_⟩
    rw [mem_singleton.mp ht]
    exact hnow u hu
  · apply h.spaced.concat hcount
    intro i u hu hi
    have hle := (h.oldest_le hcount hsent hu (by omega)).1 hi
    omega

/-- A use is refused only after `count` uses within the last `timeUnit`. -/
theorem Inv.refuse (hwait : 0 < timeUnit - (now - sent)) (hnow : ∀ u ∈ s.uses, u ≤ now) (hunit : timeUnit ≤ now) :
    count ≤ s.uses.countP fun u => now - timeUnit < u ∧ u ≤ now := by
  have hle : count ≤ s.uses.length := by
    by_contra hlt
    rw [head_lastOf hcount, dif_neg hlt] at hsent
    obtain rfl := Option.some.inj hsent
    omega
  have hlast : (s.uses.drop (s.uses.length - count)).countP (fun u => decide (now - timeUnit < u ∧ u ≤ now)) = count := by
    have hlen : (s.uses.drop (s.uses.length - count)).length = count := by
      rw [length_drop]
      omega
    refine Eq.trans (countP_eq_length.mpr fun u hu => ?_) hlen
    obtain ⟨k, hk⟩ := List.mem_iff_getElem?.mp hu
    rw [getElem?_drop] at hk
    have hge := (h.oldest_le hcount hsent hk hle).2 (by omega)
    rw [decide_eq_true_iff]
    exact ⟨by omega, hnow u (mem_of_mem_drop hu)⟩
  calc count = _ := hlast.symm
    _ ≤ _ := (drop_sublist _ _).countP_le

end

theorem Inv.clearFlow (h : Inv count timeUnit s) : Inv count timeUnit ⟨s.counter.clearFlow, []⟩ where
  length := by
    show (replicate s.counter.sentTimes.length 0).length = count
    rw [length_replicate, h.length]
  index := h.index
  unit := h.unit
  ring := by
    show (replicate s.counter.sentTimes.length 0).rotate s.counter.nextIndex = _
    rw [lastOf_nil, rotate_replicate, h.length]
  sorted := .nil
  spaced := spaced_nil _ _

theorem inv_make (hcount : 0 < count) (hunit : 0 < timeUnit) : Inv count timeUnit ⟨.make count timeUnit, []⟩ := by
  have hmake : FlowCounter.make count timeUnit = ⟨replicate count 0, 0, timeUnit⟩ := by
    simp [FlowCounter.make, FlowCounter.resize, hcount, hunit]
  rw [hmake]
  exact ⟨length_replicate, Nat.zero_le _, rfl, by rw [lastOf_nil, rotate_zero], .nil, spaced_nil _ _⟩

/-- `Fetch`: a refusal leaves the ring as it is. -/
theorem Inv.fetch (h : Inv count timeUnit s) (hcount : 0 < count) (hunit : timeUnit ≤ now)
    (hnow : ∀ u ∈ s.uses, u ≤ now) :
    (∃ fc, s.counter.fetch now = some (0, fc) ∧ Inv count timeUnit ⟨fc, s.uses ++ [now]⟩) ∨
    (∃ ti, 0 < ti ∧ s.counter.fetch now = some (ti, s.counter.wrapped count) ∧
      count ≤ s.uses.countP fun u => now - timeUnit < u ∧ u ≤ now) := by
  have hne : s.counter.sentTimes.length ≠ 0 := by
    rw [h.length]
    exact hcount.ne'
  obtain ⟨sent, hsent, hcheck⟩ := h.internalCheck hcount now
  rw [FlowCounter.fetch, if_pos hne, h.length, hcheck, bind_some]
  by_cases hfree : timeUnit - (now - sent) ≤ 0
  · obtain ⟨fc, hset, hfc⟩ := h.admit hcount hsent hfree hnow
    rw [if_pos hfree, if_neg (lt_irrefl 0), hset]
    exact .inl ⟨fc, rfl, hfc⟩
  · have hwait := not_le.mp hfree
    rw [if_neg hfree, if_pos hwait]
    exact .inr ⟨_, hwait, rfl, h.refuse hcount hsent hwait hnow hunit⟩

/-- `Check`, after which the slot can be used where there is nothing to wait for. -/
theorem Inv.check (h : Inv count timeUnit s) (hcount : 0 < count) (hunit : timeUnit ≤ now)
    (hnow : ∀ u ∈ s.uses, u ≤ now) :
    (s.counter.check now = some (0, s.counter.wrapped count) ∧
      ∃ fc, (s.counter.wrapped count).forceUsed now = some fc ∧ Inv count timeUnit ⟨fc, s.uses ++ [now]⟩) ∨
    (∃ ti, 0 < ti ∧ s.counter.check now = some (ti, s.counter.wrapped count) ∧
      count ≤ s.uses.countP fun u => now - timeUnit < u ∧ u ≤ now) := by
  have hne : s.counter.sentTimes.length ≠ 0 := by
    rw [h.length]
    exact hcount.ne'
  have hnil : (s.counter.wrapped count).sentTimes ≠ [] := fun hnil => hne (congrArg List.length hnil)
  obtain ⟨sent, hsent, hcheck⟩ := h.internalCheck hcount now
  rw [FlowCounter.check, if_pos hne, h.length, hcheck, FlowCounter.forceUsed, if_neg hnil]
  by_cases hfree : timeUnit - (now - sent) ≤ 0
  · rw [if_pos hfree]
    exact .inl ⟨rfl, h.admit hcount hsent hfree hnow⟩
  · have hwait := not_le.mp hfree
    rw [if_neg hfree]
    exact .inr ⟨_, hwait, rfl, h.refuse hcount hsent hwait hnow hunit⟩

/-- A step keeps the invariant; the uses are those before and perhaps one at its time. -/
theorem Inv.step (h : Inv count timeUnit s) (hcount : 0 < count) {a : Act}
    (hnow : ∀ now ∈ a.now, timeUnit ≤ now ∧ ∀ u ∈ s.uses, u ≤ now) :
    ∃ s', step s a = some s' ∧ Inv count timeUnit s' ∧ ∀ u ∈ s'.uses, u ∈ s.uses ∨ u ∈ a.now := by
  have hkeep : ∀ u ∈ s.uses, u ∈ s.uses ∨ u ∈ a.now := fun u hu => .inl hu
  have hmore : ∀ now ∈ a.now, ∀ u ∈ s.uses ++ [now], u ∈ s.uses ∨ u ∈ a.now := by
    intro now hmem u hu
    rcases mem_append.mp hu with hu | hu
    · exact .inl hu
    · rw [mem_singleton.mp hu]
      exact .inr hmem
  cases a with
  | fetch now =>
    obtain ⟨hunit, huses⟩ := hnow now rfl
    rw [Flow.step]
    obtain ⟨fc, hfetch, hfc⟩ | ⟨ti, hwait, hfetch, -⟩ := h.fetch hcount hunit huses
    · rw [hfetch, map_some, if_neg (lt_irrefl 0)]
      exact ⟨_, rfl, hfc, hmore now rfl⟩
    · rw [hfetch, map_some, if_pos hwait]
      exact ⟨_, rfl, h.wrapped hcount, hkeep⟩
  | check now =>
    obtain ⟨hunit, huses⟩ := hnow now rfl
    rw [Flow.step]
    obtain ⟨hcheck, -⟩ | ⟨ti, -, hcheck, -⟩ := h.check hcount hunit huses
    · rw [hcheck]
      exact ⟨_, rfl, h.wrapped hcount, hkeep⟩
    · rw [hcheck]
      exact ⟨_, rfl, h.wrapped hcount, hkeep⟩
  | checkUsed now =>
    obtain ⟨hunit, huses⟩ := hnow now rfl
    rw [Flow.step]
    obtain ⟨hcheck, fc, hused, hfc⟩ | ⟨ti, hwait, hcheck, -⟩ := h.check hcount hunit huses
    · rw [hcheck, bind_some, if_neg (lt_irrefl 0), hused]
      exact ⟨_, rfl, hfc, hmore now rfl⟩
    · rw [hcheck, bind_some, if_pos hwait]
      exact ⟨_, rfl, h.wrapped hcount, hkeep⟩
  | clearFlow => exact ⟨_, rfl, h.clearFlow, fun u hu => (nomatch hu)⟩

/-! ### Runs -/

/-- The times of the next action, after those of a run. -/
theorem Clocked.concat {acts : List Act} {a : Act} (h : Clocked timeUnit (acts ++ [a])) :
    Clocked timeUnit acts ∧ ∀ now ∈ a.now, timeUnit ≤ now ∧ ∀ t ∈ acts.filterMap Act.now, t ≤ now := by
  obtain ⟨hsorted, hunit⟩ := h
  rw [filterMap_append] at hsorted hunit
  obtain ⟨hacts, -, hlast⟩ := pairwise_append.mp hsorted
  refine ⟨⟨hacts, fun t ht => hunit t (mem_append_left _ ht)⟩, fun now hnow => ?_⟩
  have hmem : now ∈ [a].filterMap Act.now := mem_filterMap.mpr ⟨a, mem_singleton_self a, hnow⟩
  exact ⟨hunit now (mem_append_right _ hmem), fun t ht => hlast t ht now hmem⟩

theorem run_inv (hcount : 0 < count) (hunit : 0 < timeUnit) {acts : List Act} (h : Clocked timeUnit acts) :
    ∃ s, steps step ⟨.make count timeUnit, []⟩ acts = some s ∧ Inv count timeUnit s ∧
      ∀ u ∈ s.uses, u ∈ acts.filterMap Act.now := by
  induction acts using reverseRecOn with
  | nil => exact ⟨_, rfl, inv_make hcount hunit, fun u hu => (nomatch hu)⟩
  | append_singleton acts a ih =>
    obtain ⟨hacts, ha⟩ := h.concat
    obtain ⟨s, hs, hinv, huses⟩ := ih hacts
    obtain ⟨s', hs', hinv', huses'⟩ :=
      hinv.step hcount fun now hnow => ⟨(ha now hnow).1, fun u hu => (ha now hnow).2 u (huses u hu)⟩
    refine ⟨s', ?_, hinv', fun u hu => ?_⟩
    · rw [steps_append, hs, bind_some, steps, hs']
      rfl
    · rw [filterMap_append]
      rcases huses' u hu with hu | hu
      · exact mem_append_left _ (huses u hu)
      · exact mem_append_right _ (mem_filterMap.mpr ⟨a, mem_singleton_self a, hu⟩)

/-- A check that shows an interval to wait for leaves the ring as it is, and the slot in it;
and there were `count` uses within the last `timeUnit`. -/
def Refuses (count : ℕ) (timeUnit : ℤ) (s : Used) (now : ℤ) (r : ℤ × FlowCounter) : Prop :=
  0 < r.1 → r.2 = s.counter.wrapped count ∧ count ≤ s.uses.countP fun u => now - timeUnit < u ∧ u ≤ now

/-- What holds after a run. -/
structure Limited (count : ℕ) (timeUnit : ℤ) (acts : List Act) (s : Used) : Prop where
  window : ∀ start, (s.uses.countP fun u => start ≤ u ∧ u < start + timeUnit) ≤ count
  windowEnd : ∀ last, (s.uses.countP fun u => last - timeUnit < u ∧ u ≤ last) ≤ count
  index : s.counter.nextIndex ≤ count
  fetch : ∀ now, Clocked timeUnit (acts ++ [.fetch now]) →
    ∃ r, s.counter.fetch now = some r ∧ Refuses count timeUnit s now r
  check : ∀ now, Clocked timeUnit (acts ++ [.check now]) →
    ∃ r, s.counter.check now = some r ∧ Refuses count timeUnit s now r

/-- A run never leaves the ring; in every state no window of length `timeUnit` holds more
than `count` uses, and a use is refused only where `count` uses lie within the last one. -/
theorem run_limited (hcount : 0 < count) (hunit : 0 < timeUnit) {acts : List Act} (h : Clocked timeUnit acts) :
    ∃ s, steps step ⟨.make count timeUnit, []⟩ acts = some s ∧ Limited count timeUnit acts s := by
  obtain ⟨s, hs, hinv, huses⟩ := run_inv hcount hunit h
  have hclock : ∀ a now, a.now = some now → Clocked timeUnit (acts ++ [a]) →
      timeUnit ≤ now ∧ ∀ u ∈ s.uses, u ≤ now := by
    intro a now hnow ha
    obtain ⟨hle, hlast⟩ := ha.concat.2 now hnow
    exact ⟨hle, fun u hu => hlast u (huses u hu)⟩
  refine ⟨s, hs, ?_, ?_, hinv.index, fun now ha => ?_, fun now ha => ?_⟩
  · intro start
    apply hinv.spaced.countP_le
    intro x y hx hy
    simp only [decide_eq_true_eq] at hx hy
    omega
  · intro last
    apply hinv.spaced.countP_le
    intro x y hx hy
    simp only [decide_eq_true_eq] at hx hy
    omega
  · obtain ⟨hle, hlast⟩ := hclock (.fetch now) now rfl ha
    obtain ⟨fc, hfetch, -⟩ | ⟨ti, -, hfetch, hfull⟩ := hinv.fetch hcount hle hlast
    · exact ⟨_, hfetch, fun hwait => absurd hwait (lt_irrefl 0)⟩
    · exact ⟨_, hfetch, fun _ => ⟨rfl, hfull⟩⟩
  · obtain ⟨hle, hlast⟩ := hclock (.check now) now rfl ha
    obtain ⟨hcheck, -⟩ | ⟨ti, -, hcheck, hfull⟩ := hinv.check hcount hle hlast
    · exact ⟨_, hcheck, fun hwait => absurd hwait (lt_irrefl 0)⟩
    · exact ⟨_, hcheck, fun _ => ⟨rfl, hfull⟩⟩

/-- Two uses a second: the third one waits. -/
def threeFetches : List Act := [.fetch 1000000, .fetch 1000001, .fetch 1500000, .clearFlow, .fetch 1500000]

theorem run_limited_threeFetches :
    Clocked 1000000 threeFetches ∧
      ∃ s, steps step ⟨.make 2 1000000, []⟩ threeFetches = some s ∧ Limited 2 1000000 threeFetches s :=
  have hclock : Clocked 1000000 threeFetches := by
    unfold Clocked
    decide
  ⟨hclock, run_limited (by decide) (by decide) hclock⟩

/-- A refused `Fetch` brings the index back from the end of the ring to its start. -/
theorem not_fetch_unchanged : ¬ ∀ (count : ℕ) (timeUnit : ℤ) (acts : List Act) (now : ℤ) (s : Used) (ti : ℤ)
    (fc : FlowCounter), 0 < count → 0 < timeUnit → Clocked timeUnit (acts ++ [.fetch now]) →
    steps step ⟨.make count timeUnit, []⟩ acts = some s → s.counter.fetch now = some (ti, fc) → 0 < ti →
      fc = s.counter := by
  intro h
  have hsame := h 1 5 [.fetch 5] 6 ⟨⟨[5], 1, 5⟩, [5]⟩ 4 ⟨[5], 0, 5⟩ (by decide) (by decide)
    (by unfold Clocked; decide) (by decide) (by decide) (by decide)
  exact absurd hsame (by decide)

end Fon9.Flow
