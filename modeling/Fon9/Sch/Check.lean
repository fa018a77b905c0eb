import Mathlib.Data.Fin.Basic
import Mathlib.Tactic.Ring

/-! The schedule check `SchConfig::Check`. A `TimeStamp` is a number of microseconds since the
epoch, a `DayTimeSec` a number of seconds since midnight. The search for the next start day takes
fuel.

The check against the windows of the schedule. A window opens at the start time of each allowed
weekday and closes, both ends included, at the end time of that day or of the day after. The check
agrees with the windows, and its result lasts until the next check, unless the end time is the
start time and the day that closes the window is not allowed. -/

namespace Fon9.Sch

inductive SchSt
  | unknown | restart | stopped | stopping | inSch | outSch | disposing
  deriving DecidableEq

def kNoEndTime : ℕ := 25 * 60 * 60

/-- The fields of `struct tm` that the check reads. -/
structure Tm where
  hour : ℤ
  min : ℤ
  sec : ℤ
  wday : Fin 7

/-- The day of the week of a day since the epoch, which was a Thursday. -/
def weekday (day : ℤ) : Fin 7 := Fin.ofNat 7 ((day + 4) % 7).toNat

def epochSecondsInfo (epochSeconds : ℤ) : Tm where
  hour := epochSeconds % 86400 / 3600
  min := epochSeconds % 3600 / 60
  sec := epochSeconds % 60
  wday := weekday (epochSeconds / 86400)

def toEpochSeconds (ts : ℤ) : ℤ := ts.tdiv 1000000

/-- The start of the day of `ts`. -/
def timeStampResetHHMMSS (ts : ℤ) : ℤ := toEpochSeconds ts / 86400 * 86400 * 1000000

def timeIntervalDay (days : ℤ) : ℤ := days * 86400 * 1000000

def timeIntervalSecond (secs : ℤ) : ℤ := secs * 1000000

def timeIntervalMinute (mins : ℤ) : ℤ := mins * 60 * 1000000

/-- The time zone is an offset in minutes. -/
structure SchConfig where
  weekdays : Fin 7 → Bool
  timeZoneAdj : ℤ
  startTime : ℕ
  endTime : ℕ

/-- `nextCheckTime` is zero where there is none. -/
structure CheckResult where
  nextCheckTime : ℤ
  schSt : SchSt
  isChanged : Bool
  deriving DecidableEq

namespace SchConfig

variable (cfg : SchConfig)

def any : Bool := (List.finRange 7).any cfg.weekdays

/-- Label `__CHECK_TODAY`: the same time of the first day, from today on, that may start. -/
def checkToday : ℕ → ℤ → Fin 7 → Option ℤ
  | 0, now, wday => if cfg.weekdays wday then some now else none
  | fuel + 1, now, wday =>
    if cfg.weekdays wday then some now else checkToday fuel (now + timeIntervalDay 1) (wday + 1)

/-- Label `__CHECK_TOMORROW`. -/
def checkTomorrow (fuel : ℕ) (now : ℤ) (wday : Fin 7) : Option ℤ :=
  cfg.checkToday fuel (now + timeIntervalDay 1) (wday + 1)

/-- The branch of `Check` for a schedule that ends on the day it starts: the state, and the
day and second of the next check. -/
def checkSameDay (fuel : ℕ) (now : ℤ) (dnow : ℕ) (wday : Fin 7) (beforeSt : SchSt) : Option (SchSt × ℤ × ℕ) :=
  let schSt :=
    if cfg.endTime = kNoEndTime ∧ beforeSt = .inSch then .inSch
    else if cfg.weekdays wday ∧ cfg.startTime ≤ dnow ∧ dnow ≤ cfg.endTime then .inSch else .outSch
  if schSt = .inSch then some (schSt, now, cfg.endTime + 1)
  else if cfg.any then
    (if cfg.endTime < dnow then cfg.checkTomorrow fuel now wday else cfg.checkToday fuel now wday).map
      fun now => (schSt, now, cfg.startTime)
  else some (schSt, now, kNoEndTime)

/-- The branch for a schedule that ends on the day after. -/
def checkNextDay (fuel : ℕ) (now : ℤ) (dnow : ℕ) (wday : Fin 7) : Option (SchSt × ℤ × ℕ) :=
  if cfg.startTime ≤ dnow then
    let schSt := if cfg.weekdays wday then SchSt.inSch else .outSch
    if schSt = .inSch then some (schSt, now + timeIntervalDay 1, cfg.endTime + 1)
    else if cfg.any then (cfg.checkTomorrow fuel now wday).map fun now => (schSt, now, cfg.startTime)
    else some (schSt, now, kNoEndTime)
  else
    let schSt :=
      if dnow ≤ cfg.endTime then
        if cfg.weekdays (if wday ≠ 0 then wday - 1 else 6) then SchSt.inSch else .outSch
      else .outSch
    if schSt = .inSch then some (schSt, now, cfg.endTime + 1)
    else if cfg.any then (cfg.checkToday fuel now wday).map fun now => (schSt, now, cfg.startTime)
    else some (schSt, now, kNoEndTime)

def check (fuel : ℕ) (now : ℤ) (beforeSt : SchSt) : Option CheckResult :=
  let now := now + timeIntervalMinute cfg.timeZoneAdj
  let tm := epochSecondsInfo (toEpochSeconds now)
  let dnow := ((tm.hour * 60 + tm.min) * 60 + tm.sec).toNat
  let branch :=
    if cfg.startTime < cfg.endTime then cfg.checkSameDay fuel now dnow tm.wday beforeSt
    else cfg.checkNextDay fuel now dnow tm.wday
  branch.map fun (schSt, now, next) =>
    let nextCheckTime := timeStampResetHHMMSS now + (timeIntervalSecond next - timeIntervalMinute cfg.timeZoneAdj)
    { nextCheckTime := if next < kNoEndTime then (if nextCheckTime = 0 then 1 else nextCheckTime) else 0
      schSt
      isChanged := decide (beforeSt = .inSch) != decide (schSt = .inSch) }

end SchConfig

end Fon9.Sch

namespace Fon9.Sch

open SchConfig Int

namespace SchConfig

variable (cfg : SchConfig)

/-- Start and end are seconds of a day, or there is no end. -/
structure Valid : Prop where
  start_lt : cfg.startTime < 86400
  end_lt : cfg.endTime < 86400 ∨ cfg.endTime = kNoEndTime

/-- The second at which the window of a day opens. -/
def opens (day : ℤ) : ℤ := day * 86400 + cfg.startTime

/-- The last second of the window of a day; one without end lasts until midnight. -/
def closes (day : ℤ) : ℤ :=
  if cfg.startTime < cfg.endTime then day * 86400 + min cfg.endTime 86399 else (day + 1) * 86400 + cfg.endTime

def Opened (day secs : ℤ) : Prop :=
  cfg.weekdays (weekday day) = true ∧ cfg.opens day ≤ secs ∧ secs ≤ cfg.closes day

/-- The second of `now` in the time zone of the schedule. -/
def localSec (now : ℤ) : ℤ := toEpochSeconds (now + timeIntervalMinute cfg.timeZoneAdj)

/-- The time stamp of a second in the time zone of the schedule. -/
def utc (secs : ℤ) : ℤ := timeIntervalSecond secs - timeIntervalMinute cfg.timeZoneAdj

/-- The day whose window is tested. -/
def lastDay (secs : ℤ) : ℤ :=
  if cfg.startTime < cfg.endTime ∨ cfg.startTime ≤ secs % 86400 then secs / 86400 else secs / 86400 - 1

/-- What the check tests where the state before does not matter. -/
def Inside (secs : ℤ) : Prop :=
  if cfg.startTime < cfg.endTime then
    cfg.weekdays (weekday (secs / 86400)) = true ∧ cfg.startTime ≤ secs % 86400 ∧ secs % 86400 ≤ cfg.endTime
  else if cfg.startTime ≤ secs % 86400 then cfg.weekdays (weekday (secs / 86400)) = true
  else secs % 86400 ≤ cfg.endTime ∧ cfg.weekdays (weekday (secs / 86400 - 1)) = true

/-- The check returns `res`: no search goes on for more than six days. -/
def Returns (now : ℤ) (beforeSt : SchSt) (res : CheckResult) : Prop :=
  ∀ fuel, 6 ≤ fuel → cfg.check fuel now beforeSt = some res

/-- The result of a check agrees with the windows and lasts until the next check. The state
before a later check does not matter, except that one without end time is in schedule before
it exactly where the result is. -/
structure Sound (now : ℤ) (res : CheckResult) : Prop where
  state : res.schSt = .inSch ∨ res.schSt = .outSch
  inSch : res.schSt = .inSch ↔ ∃ day, cfg.Opened day (cfg.localSec now)
  later : res.nextCheckTime ≠ 0 → now < res.nextCheckTime
  steady : ∀ t beforeSt res', now ≤ t → (res.nextCheckTime = 0 ∨ t < res.nextCheckTime) →
    (cfg.endTime = kNoEndTime → (beforeSt = .inSch ↔ res.schSt = .inSch)) → cfg.Returns t beforeSt res' →
      res'.schSt = res.schSt

/-- No window that contains `now` is closed on a day that is not allowed, at the second at
which that day would open. -/
def NoOpenEnd (now : ℤ) : Prop :=
  cfg.startTime = cfg.endTime → ∀ day, cfg.Opened day (cfg.localSec now) → cfg.weekdays (weekday (day + 1)) = true

end SchConfig

variable {cfg : SchConfig}

/-! ### Weekdays and windows -/

theorem weekday_succ (day : ℤ) : weekday (day + 1) = weekday day + 1 := by
  apply Fin.ext
  simp only [weekday, Fin.ofNat, Fin.val_add]
  omega

theorem weekday_pred (day : ℤ) :
    (if weekday day ≠ 0 then weekday day - 1 else 6) = weekday (day - 1) := by
  have hsucc := weekday_succ (day - 1)
  rw [Int.sub_add_cancel] at hsucc
  rw [hsucc]
  generalize weekday (day - 1) = w
  revert w
  decide

/-- Each weekday comes within a week. -/
theorem exists_weekday (day : ℤ) (w : Fin 7) : ∃ k : ℕ, k < 7 ∧ weekday (day + k) = w := by
  refine ⟨(((w.val : ℤ) - (day + 4)) % 7).toNat, ?_, ?_⟩
  · omega
  · apply Fin.ext
    have hw := w.isLt
    simp only [weekday, Fin.ofNat]
    omega

theorem any_eq_true : cfg.any = true ↔ ∃ w, cfg.weekdays w = true := by
  simp [SchConfig.any]

/-- A second in the window of a day passes the test, unless the window closes where the next
one would open. -/
theorem SchConfig.Opened.inside (hv : cfg.Valid) {day secs : ℤ} (h : cfg.Opened day secs)
    (hnext : cfg.startTime = cfg.endTime → cfg.weekdays (weekday (day + 1)) = true) : cfg.Inside secs := by
  obtain ⟨hallowed, hopen, hclose⟩ := h
  obtain ⟨hstart, hend⟩ := hv
  rw [opens] at hopen
  rw [closes] at hclose
  rw [Inside]
  split_ifs at hclose ⊢ with hsame hlate
  · have hday : secs / 86400 = day := by omega
    rw [hday]
    exact ⟨hallowed, by omega, by omega⟩
  · by_cases hday : secs / 86400 = day
    · rwa [hday]
    · have hday : secs / 86400 = day + 1 := by simp only [kNoEndTime] at hend; omega
      rw [hday]
      apply hnext
      simp only [kNoEndTime] at hend
      omega
  · have hday : secs / 86400 = day + 1 := by simp only [kNoEndTime] at hend; omega
    rw [hday, Int.add_sub_cancel]
    exact ⟨by omega, hallowed⟩

/-- A second that passes the test lies in the window tested, the last one opened before it. -/
theorem SchConfig.Inside.opened (hv : cfg.Valid) {secs : ℤ} (h : cfg.Inside secs) :
    cfg.Opened (cfg.lastDay secs) secs ∧ ∀ day', cfg.opens day' ≤ secs → day' ≤ cfg.lastDay secs := by
  obtain ⟨hstart, -⟩ := hv
  rw [Inside] at h
  rw [lastDay]
  constructor
  · rw [Opened, opens, closes]
    split_ifs at h ⊢ with hsame h2 h3 h4
    all_goals first | (exfalso; omega) | skip
    · exact ⟨h.1, by omega, by omega⟩
    · exact ⟨h, by omega, by omega⟩
    · exact ⟨h.2, by omega, by omega⟩
  · intro day' hopens
    rw [opens] at hopens
    split_ifs at h ⊢ <;> omega

/-! ### The search for the next start day -/

theorem timeIntervalDay_add (m n : ℤ) : timeIntervalDay m + timeIntervalDay n = timeIntervalDay (m + n) := by
  simp only [timeIntervalDay]
  ring

theorem checkToday_eq (fuel : ℕ) {k : ℕ} (hk : k ≤ fuel) (now day : ℤ) (hfound : cfg.weekdays (weekday (day + k)) = true)
    (hnone : ∀ j : ℕ, j < k → cfg.weekdays (weekday (day + j)) = false) :
    cfg.checkToday fuel now (weekday day) = some (now + timeIntervalDay k) := by
  induction k generalizing fuel now day with
  | zero =>
    have hday : cfg.weekdays (weekday day) = true := by simpa using hfound
    cases fuel <;> simp [checkToday, hday, timeIntervalDay]
  | succ k ih =>
    obtain ⟨fuel, rfl⟩ : ∃ f, fuel = f + 1 := ⟨fuel - 1, by omega⟩
    have hday : cfg.weekdays (weekday day) = false := by simpa using hnone 0 (Nat.succ_pos k)
    rw [checkToday, hday, if_neg (by decide), ← weekday_succ, ih fuel (by omega)]
    · simp only [timeIntervalDay]
      congr 1
      push_cast
      ring
    · rw [← hfound]
      congr 2
      push_cast
      ring
    · intro j hj
      rw [← hnone (j + 1) (by omega)]
      congr 2
      push_cast
      ring

/-- The first allowed day from `day` on. -/
theorem checkToday_spec (hany : cfg.any = true) (day : ℤ) :
    ∃ k : ℕ, (∀ fuel, 6 ≤ fuel → ∀ now, cfg.checkToday fuel now (weekday day) = some (now + timeIntervalDay k)) ∧
      cfg.weekdays (weekday (day + k)) = true ∧ ∀ day', day ≤ day' → day' < day + k → cfg.weekdays (weekday day') = false := by
  obtain ⟨w, hw⟩ := any_eq_true.mp hany
  obtain ⟨k₀, hk₀, rfl⟩ := exists_weekday day w
  have hex : ∃ k : ℕ, cfg.weekdays (weekday (day + k)) = true := ⟨k₀, hw⟩
  have hle : Nat.find hex ≤ k₀ := Nat.find_min' hex hw
  have hnone : ∀ j : ℕ, j < Nat.find hex → cfg.weekdays (weekday (day + j)) = false := by
    intro j hj
    simpa using Nat.find_min hex hj
  refine ⟨Nat.find hex, fun fuel hfuel now => checkToday_eq fuel (by omega) now day (Nat.find_spec hex) hnone,
    Nat.find_spec hex, ?_⟩
  intro day' hge hlt
  have h := hnone (day' - day).toNat (by omega)
  rwa [show day + ((day' - day).toNat : ℤ) = day' by omega] at h

/-! ### What a check can do -/

/-- The state that a check reports for a second, and the second of the next check: after the
window, at the next one to open, or none. -/
inductive Outcome (cfg : SchConfig) (secs : ℤ) (beforeSt : SchSt) : SchSt → Option ℤ → Prop
  | noEnd (hend : cfg.endTime = kNoEndTime) (hin : cfg.Inside secs ∨ beforeSt = .inSch) : Outcome cfg secs beforeSt .inSch none
  | inside (day : ℤ) (hend : cfg.endTime ≠ kNoEndTime) (hin : cfg.Inside secs) (hopened : cfg.Opened day secs)
      (hlast : ∀ day', cfg.opens day' ≤ secs → day' ≤ day) : Outcome cfg secs beforeSt .inSch (some (cfg.closes day + 1))
  | never (hout : ¬ cfg.Inside secs) (hbefore : ¬ (cfg.endTime = kNoEndTime ∧ beforeSt = .inSch))
      (hnone : ∀ w, cfg.weekdays w = false) : Outcome cfg secs beforeSt .outSch none
  | outside (day : ℤ) (hout : ¬ cfg.Inside secs) (hbefore : ¬ (cfg.endTime = kNoEndTime ∧ beforeSt = .inSch)) (hallowed : cfg.weekdays (weekday day) = true)
      (hlater : secs < cfg.opens day) (hfirst : ∀ day', day' < day → cfg.weekdays (weekday day') = true → cfg.opens day' ≤ secs) :
      Outcome cfg secs beforeSt .outSch (some (cfg.opens day))

/-- The second of the next check, from the days gone on and the second of that day. -/
def nextSec (secs days : ℤ) (next : ℕ) : Option ℤ :=
  if next < kNoEndTime then some ((secs / 86400 + days) * 86400 + next) else none

variable {next : Option ℤ}

section Outcome

variable {secs : ℤ} {beforeSt : SchSt}

theorem none_of_any (h : ¬ cfg.any = true) (w : Fin 7) : cfg.weekdays w = false := by
  by_contra hw
  exact h (any_eq_true.mpr ⟨w, by simpa using hw⟩)

theorem nextSec_of_lt {days : ℤ} {next : ℕ} (h : next < kNoEndTime) :
    nextSec secs days next = some ((secs / 86400 + days) * 86400 + next) := if_pos h

theorem nextSec_kNoEndTime (days : ℤ) : nextSec secs days kNoEndTime = none := if_neg (lt_irrefl _)

/-- The search finds the first window to open, where those of the days before have opened. -/
theorem search_outcome (hany : cfg.any = true) (hout : ¬ cfg.Inside secs)
    (hbefore' : ¬ (cfg.endTime = kNoEndTime ∧ beforeSt = .inSch)) (day : ℤ)
    (hbefore : ∀ day', day' < day → cfg.opens day' ≤ secs)
    (hafter : ∀ day', day ≤ day' → cfg.weekdays (weekday day') = true → secs < cfg.opens day') :
    ∃ k : ℤ, 0 ≤ k ∧ (∀ fuel, 6 ≤ fuel → ∀ now, cfg.checkToday fuel now (weekday day) = some (now + timeIntervalDay k)) ∧
      Outcome cfg secs beforeSt .outSch (some (cfg.opens (day + k))) := by
  obtain ⟨k, hrun, hfound, hnone⟩ := checkToday_spec hany day
  refine ⟨k, natCast_nonneg k, hrun, .outside _ hout hbefore' hfound (hafter _ (by omega) hfound) fun day' hlt hallowed => ?_⟩
  apply hbefore
  by_contra hge
  rw [hnone day' (not_lt.mp hge) hlt] at hallowed
  exact (nomatch hallowed)

theorem dnow_cast : ((secs % 86400).toNat : ℤ) = secs % 86400 := toNat_of_nonneg (emod_nonneg _ (by decide))

/-- The window that contains the second, where there is an end. -/
theorem SchConfig.Inside.outcome (hv : cfg.Valid) (hend : cfg.endTime ≠ kNoEndTime) (hin : cfg.Inside secs) {k : ℤ}
    (hk : ((secs / 86400 + k) * 86400 + cfg.endTime : ℤ) = cfg.closes (cfg.lastDay secs)) :
    Outcome cfg secs beforeSt .inSch (nextSec secs k (cfg.endTime + 1)) := by
  have hlt : cfg.endTime < 86400 := hv.end_lt.resolve_right hend
  obtain ⟨hopened, hlast⟩ := hin.opened hv
  have hnext : nextSec secs k (cfg.endTime + 1) = some (cfg.closes (cfg.lastDay secs) + 1) := by
    rw [nextSec_of_lt (by simp only [kNoEndTime]; omega), ← hk, Nat.cast_succ, ← add_assoc]
  rw [hnext]
  exact .inside _ hend hin hopened hlast

theorem checkSameDay_outcome (hv : cfg.Valid) (hsame : cfg.startTime < cfg.endTime) :
    ∃ st next, ∃ k : ℤ, 0 ≤ k ∧
      (∀ fuel, 6 ≤ fuel → ∀ now, cfg.checkSameDay fuel now (secs % 86400).toNat (weekday (secs / 86400)) beforeSt =
        some (st, now + timeIntervalDay k, next)) ∧
      Outcome cfg secs beforeSt st (nextSec secs k next) := by
  have hdnow := @dnow_cast secs
  have hinside : cfg.Inside secs ↔ cfg.weekdays (weekday (secs / 86400)) = true ∧
      cfg.startTime ≤ (secs % 86400).toNat ∧ (secs % 86400).toNat ≤ cfg.endTime := by
    rw [Inside, if_pos hsame, ← hdnow]
    norm_cast
  have hzero : ∀ now : ℤ, now = now + timeIntervalDay 0 := fun now => by simp [timeIntervalDay]
  by_cases hin : (cfg.endTime = kNoEndTime ∧ beforeSt = .inSch) ∨ cfg.Inside secs
  · have hrun : ∀ fuel now, cfg.checkSameDay fuel now (secs % 86400).toNat (weekday (secs / 86400)) beforeSt =
        some (.inSch, now + timeIntervalDay 0, cfg.endTime + 1) := by
      intro fuel now
      have hst : (if cfg.endTime = kNoEndTime ∧ beforeSt = .inSch then SchSt.inSch
          else if cfg.weekdays (weekday (secs / 86400)) ∧ cfg.startTime ≤ (secs % 86400).toNat ∧ (secs % 86400).toNat ≤ cfg.endTime
          then .inSch else .outSch) = .inSch := by
        split_ifs with hbefore hnow
        · rfl
        · rfl
        · exact absurd hin (not_or.mpr ⟨hbefore, hinside.not.mpr hnow⟩)
      simp only [checkSameDay, hst, if_pos, ← hzero]
    refine ⟨.inSch, cfg.endTime + 1, 0, le_rfl, fun fuel _ => hrun fuel, ?_⟩
    by_cases hend : cfg.endTime = kNoEndTime
    · have hnone : nextSec secs 0 (cfg.endTime + 1) = none := if_neg (by omega)
      rw [hnone]
      exact .noEnd hend (hin.symm.imp_right And.right)
    · have hin := hin.resolve_left fun h => hend h.1
      apply hin.outcome hv hend
      have hlt := hv.end_lt.resolve_right hend
      rw [lastDay, if_pos (.inl hsame), closes, if_pos hsame]
      omega
  · obtain ⟨hnoEnd, hout⟩ := not_or.mp hin
    have hst : ∀ fuel now, cfg.checkSameDay fuel now (secs % 86400).toNat (weekday (secs / 86400)) beforeSt =
        if cfg.any then
          (if cfg.endTime < (secs % 86400).toNat then cfg.checkTomorrow fuel now (weekday (secs / 86400))
            else cfg.checkToday fuel now (weekday (secs / 86400))).map fun now => (.outSch, now, cfg.startTime)
        else some (.outSch, now, kNoEndTime) := by
      intro fuel now
      simp only [checkSameDay, if_neg hnoEnd, if_neg (hinside.not.mp hout), reduceCtorEq, if_false]
    by_cases hany : cfg.any = true
    · have hstart := hv.start_lt
      have hnext : ∀ k : ℤ, nextSec secs k cfg.startTime = some (cfg.opens (secs / 86400 + k)) :=
        fun k => nextSec_of_lt (by simp only [kNoEndTime]; omega)
      by_cases hlate : cfg.endTime < (secs % 86400).toNat
      · obtain ⟨k, hk, hrun, houtcome⟩ := search_outcome hany hout hnoEnd (secs / 86400 + 1)
          (fun day' hlt => by rw [opens]; omega) (fun day' hle _ => by rw [opens]; omega)
        refine ⟨.outSch, cfg.startTime, 1 + k, by omega, fun fuel hfuel now => ?_, ?_⟩
        · rw [hst, if_pos hany, if_pos hlate, checkTomorrow, ← weekday_succ, hrun fuel hfuel, add_assoc, timeIntervalDay_add]
          rfl
        · rw [hnext, ← add_assoc]
          exact houtcome
      · obtain ⟨k, hk, hrun, houtcome⟩ := search_outcome hany hout hnoEnd (secs / 86400) (fun day' hlt => by rw [opens]; omega) (by
          intro day' hle hallowed
          rw [opens]
          by_contra hopen
          have hday : day' = secs / 86400 := by omega
          rw [hday] at hallowed hopen
          exact hout (hinside.mpr ⟨hallowed, by omega, by omega⟩))
        refine ⟨.outSch, cfg.startTime, k, hk, fun fuel hfuel now => ?_, ?_⟩
        · rw [hst, if_pos hany, if_neg hlate, hrun fuel hfuel]
          rfl
        · rw [hnext]
          exact houtcome
    · refine ⟨.outSch, kNoEndTime, 0, le_rfl, fun fuel _ now => ?_, ?_⟩
      · rw [hst, if_neg hany, ← hzero]
      · rw [nextSec_kNoEndTime]
        exact .never hout hnoEnd (none_of_any hany)

theorem checkNextDay_outcome (hv : cfg.Valid) (hcross : ¬ cfg.startTime < cfg.endTime) :
    ∃ st next, ∃ k : ℤ, 0 ≤ k ∧
      (∀ fuel, 6 ≤ fuel → ∀ now, cfg.checkNextDay fuel now (secs % 86400).toNat (weekday (secs / 86400)) =
        some (st, now + timeIntervalDay k, next)) ∧
      Outcome cfg secs beforeSt st (nextSec secs k next) := by
  have hdnow := @dnow_cast secs
  have hstart := hv.start_lt
  have hend : cfg.endTime ≠ kNoEndTime := by
    simp only [kNoEndTime]
    omega
  have hnoEnd : ¬ (cfg.endTime = kNoEndTime ∧ beforeSt = .inSch) := fun h => hend h.1
  have hzero : ∀ now : ℤ, now = now + timeIntervalDay 0 := fun now => by simp [timeIntervalDay]
  have hnext : ∀ k : ℤ, nextSec secs k cfg.startTime = some (cfg.opens (secs / 86400 + k)) :=
    fun k => nextSec_of_lt (by simp only [kNoEndTime]; omega)
  by_cases hopen : cfg.startTime ≤ (secs % 86400).toNat
  · have hinside : cfg.Inside secs ↔ cfg.weekdays (weekday (secs / 86400)) = true := by
      rw [Inside, if_neg hcross, if_pos (by omega)]
    by_cases hin : cfg.weekdays (weekday (secs / 86400)) = true
    · refine ⟨.inSch, cfg.endTime + 1, 1, by decide, fun fuel _ now => ?_, ?_⟩
      · simp only [checkNextDay, if_pos hopen, if_pos hin, if_true]
      · apply (hinside.mpr hin).outcome hv hend
        rw [lastDay, if_pos (.inr (by omega)), closes, if_neg hcross]
    · by_cases hany : cfg.any = true
      · obtain ⟨k, hk, hrun, houtcome⟩ := search_outcome hany (hinside.not.mpr hin) hnoEnd (secs / 86400 + 1)
          (fun day' hlt => by rw [opens]; omega) (fun day' hle _ => by rw [opens]; omega)
        refine ⟨.outSch, cfg.startTime, 1 + k, by omega, fun fuel hfuel now => ?_, ?_⟩
        · simp only [checkNextDay, if_pos hopen, if_neg hin, reduceCtorEq, if_false, if_pos hany]
          rw [checkTomorrow, ← weekday_succ, hrun fuel hfuel, add_assoc, timeIntervalDay_add]
          rfl
        · rw [hnext, ← add_assoc]
          exact houtcome
      · refine ⟨.outSch, kNoEndTime, 0, le_rfl, fun fuel _ now => ?_, ?_⟩
        · simp only [checkNextDay, if_pos hopen, if_neg hin, reduceCtorEq, if_false, if_neg hany, ← hzero]
        · rw [nextSec_kNoEndTime]
          exact .never (hinside.not.mpr hin) hnoEnd (none_of_any hany)
  · have hinside : cfg.Inside secs ↔ (secs % 86400).toNat ≤ cfg.endTime ∧ cfg.weekdays (weekday (secs / 86400 - 1)) = true := by
      rw [Inside, if_neg hcross, if_neg (by omega), ← hdnow]
      norm_cast
    by_cases hin : cfg.Inside secs
    · obtain ⟨hend', hallowed⟩ := hinside.mp hin
      refine ⟨.inSch, cfg.endTime + 1, 0, le_rfl, fun fuel _ now => ?_, ?_⟩
      · simp only [checkNextDay, if_neg hopen, if_pos hend', weekday_pred, if_pos hallowed, if_true, ← hzero]
      · apply hin.outcome hv hend
        rw [lastDay, if_neg (by omega), closes, if_neg hcross]
        omega
    · have hst : (if (secs % 86400).toNat ≤ cfg.endTime then
          if cfg.weekdays (weekday (secs / 86400 - 1)) then SchSt.inSch else .outSch else .outSch) = .outSch := by
        split_ifs with hend' hallowed
        · exact absurd (hinside.mpr ⟨hend', hallowed⟩) hin
        · rfl
        · rfl
      by_cases hany : cfg.any = true
      · obtain ⟨k, hk, hrun, houtcome⟩ := search_outcome hany hin hnoEnd (secs / 86400)
          (fun day' hlt => by rw [opens]; omega) (fun day' hle _ => by rw [opens]; omega)
        refine ⟨.outSch, cfg.startTime, k, hk, fun fuel hfuel now => ?_, ?_⟩
        · simp only [checkNextDay, if_neg hopen, weekday_pred, hst, reduceCtorEq, if_false, if_pos hany]
          rw [hrun fuel hfuel]
          rfl
        · rw [hnext]
          exact houtcome
      · refine ⟨.outSch, kNoEndTime, 0, le_rfl, fun fuel _ now => ?_, ?_⟩
        · simp only [checkNextDay, if_neg hopen, weekday_pred, hst, reduceCtorEq, if_false, if_neg hany, ← hzero]
        · rw [nextSec_kNoEndTime]
          exact .never hin hnoEnd (none_of_any hany)

variable {st : SchSt}

/-- The next check is after the second checked. -/
theorem Outcome.lt {n : ℤ} (h : Outcome cfg secs beforeSt st (some n)) : secs < n := by
  cases h with
  | inside day _ _ hopened _ => exact lt_add_one_of_le hopened.2.2
  | outside day _ _ _ hlater _ => exact hlater

theorem Outcome.state (h : Outcome cfg secs beforeSt st next) : st = .inSch ∨ st = .outSch := by
  cases h with
  | noEnd => exact .inl rfl
  | inside => exact .inl rfl
  | never => exact .inr rfl
  | outside => exact .inr rfl

theorem Outcome.next_of_inside (h : Outcome cfg secs beforeSt st next) (hin : cfg.Inside secs)
    (hend : cfg.endTime ≠ kNoEndTime) :
    ∃ day, next = some (cfg.closes day + 1) ∧ ∀ day', cfg.opens day' ≤ secs → day' ≤ day := by
  cases h with
  | noEnd hend' => exact absurd hend' hend
  | inside day _ _ _ hlast => exact ⟨day, rfl, hlast⟩
  | never hout => exact absurd hin hout
  | outside _ hout => exact absurd hin hout

theorem Outcome.inSch_iff (h : Outcome cfg secs beforeSt st next) :
    st = .inSch ↔ cfg.Inside secs ∨ cfg.endTime = kNoEndTime ∧ beforeSt = .inSch := by
  cases h with
  | noEnd hend hin => exact ⟨fun _ => hin.imp_right fun hb => ⟨hend, hb⟩, fun _ => rfl⟩
  | inside _ _ hin => exact ⟨fun _ => .inl hin, fun _ => rfl⟩
  | never hout hbefore => exact ⟨fun h => (nomatch h), fun h => absurd h (not_or.mpr ⟨hout, hbefore⟩)⟩
  | outside _ hout hbefore => exact ⟨fun h => (nomatch h), fun h => absurd h (not_or.mpr ⟨hout, hbefore⟩)⟩

end Outcome

theorem localSec_utc (secs : ℤ) : cfg.localSec (cfg.utc secs) = secs := by
  have hutc : cfg.utc secs + timeIntervalMinute cfg.timeZoneAdj = timeIntervalSecond secs := Int.sub_add_cancel _ _
  rw [localSec, toEpochSeconds, hutc, timeIntervalSecond]
  exact mul_tdiv_cancel _ (by decide)

section Time

variable {now : ℤ} (hlocal : 0 ≤ now + timeIntervalMinute cfg.timeZoneAdj)

include hlocal

theorem localSec_eq : cfg.localSec now = (now + timeIntervalMinute cfg.timeZoneAdj) / 1000000 :=
  tdiv_eq_ediv_of_nonneg hlocal

theorem lt_utc_iff (n : ℤ) : now < cfg.utc n ↔ cfg.localSec now < n := by
  rw [localSec_eq hlocal, utc, timeIntervalSecond]
  omega

theorem timeStampResetHHMMSS_add {k : ℤ} (hk : 0 ≤ k) :
    timeStampResetHHMMSS (now + timeIntervalMinute cfg.timeZoneAdj + timeIntervalDay k) =
      timeIntervalSecond ((cfg.localSec now / 86400 + k) * 86400) := by
  have hnonneg : 0 ≤ now + timeIntervalMinute cfg.timeZoneAdj + timeIntervalDay k := by
    simp only [timeIntervalDay]
    omega
  rw [timeStampResetHHMMSS, toEpochSeconds, tdiv_eq_ediv_of_nonneg hnonneg, localSec_eq hlocal]
  simp only [timeIntervalDay, timeIntervalSecond]
  omega

theorem check_outcome (hv : cfg.Valid) (hnow : 0 ≤ now) (beforeSt : SchSt) :
    ∃ res next, cfg.Returns now beforeSt res ∧
      Outcome cfg (cfg.localSec now) beforeSt res.schSt next ∧ res.nextCheckTime = next.elim 0 cfg.utc := by
  have hbranch : ∃ st next, ∃ k : ℤ, 0 ≤ k ∧ (∀ fuel, 6 ≤ fuel → ∀ now', (if cfg.startTime < cfg.endTime then
        cfg.checkSameDay fuel now' (cfg.localSec now % 86400).toNat (weekday (cfg.localSec now / 86400)) beforeSt
      else cfg.checkNextDay fuel now' (cfg.localSec now % 86400).toNat (weekday (cfg.localSec now / 86400))) =
        some (st, now' + timeIntervalDay k, next)) ∧
      Outcome cfg (cfg.localSec now) beforeSt st (nextSec (cfg.localSec now) k next) := by
    split_ifs with hsame
    · exact checkSameDay_outcome hv hsame
    · exact checkNextDay_outcome hv hsame
  obtain ⟨st, next, k, hk, hrun, houtcome⟩ := hbranch
  have hdnow : (((epochSecondsInfo (cfg.localSec now)).hour * 60 + (epochSecondsInfo (cfg.localSec now)).min) * 60 +
      (epochSecondsInfo (cfg.localSec now)).sec) = cfg.localSec now % 86400 := by
    simp only [epochSecondsInfo]
    omega
  have hwday : (epochSecondsInfo (cfg.localSec now)).wday = weekday (cfg.localSec now / 86400) := rfl
  refine ⟨⟨(nextSec (cfg.localSec now) k next).elim 0 cfg.utc, st, decide (beforeSt = .inSch) != decide (st = .inSch)⟩,
    nextSec (cfg.localSec now) k next, fun fuel hfuel => ?_, houtcome, rfl⟩
  simp only [check]
  rw [← localSec, hdnow, hwday, hrun fuel hfuel, Option.map_some, timeStampResetHHMMSS_add hlocal hk]
  by_cases hnext : next < kNoEndTime
  · rw [nextSec_of_lt hnext] at houtcome ⊢
    have hutc : timeIntervalSecond ((cfg.localSec now / 86400 + k) * 86400) +
        (timeIntervalSecond next - timeIntervalMinute cfg.timeZoneAdj) =
          cfg.utc ((cfg.localSec now / 86400 + k) * 86400 + next) := by
      simp only [utc, timeIntervalSecond]
      omega
    have hlater : now < cfg.utc ((cfg.localSec now / 86400 + k) * 86400 + next) := (lt_utc_iff hlocal _).mpr houtcome.lt
    rw [hutc, if_pos hnext, if_neg (by omega)]
    rfl
  · rw [if_neg hnext, nextSec, if_neg hnext]
    rfl

theorem SchConfig.Returns.outcome (hv : cfg.Valid) (hnow : 0 ≤ now) {beforeSt : SchSt} {res : CheckResult}
    (h : cfg.Returns now beforeSt res) :
    ∃ next, Outcome cfg (cfg.localSec now) beforeSt res.schSt next ∧ res.nextCheckTime = next.elim 0 cfg.utc := by
  obtain ⟨res', next, hres', houtcome, hnext⟩ := check_outcome hlocal hv hnow beforeSt
  obtain rfl : res' = res := Option.some.inj ((hres' 6 le_rfl).symm.trans (h 6 le_rfl))
  exact ⟨next, houtcome, hnext⟩

theorem localSec_mono {t : ℤ} (hle : now ≤ t) : cfg.localSec now ≤ cfg.localSec t := by
  rw [localSec_eq hlocal, localSec_eq (by omega)]
  omega

end Time

/-- Where windows do not end open the result lasts until the next check. -/
theorem Outcome.steady (hv : cfg.Valid) {now : ℤ} (hcond : cfg.NoOpenEnd now) {beforeSt before' st : SchSt}
    (h : Outcome cfg (cfg.localSec now) beforeSt st next) {secs : ℤ} (hle : cfg.localSec now ≤ secs)
    (hlt : ∀ n ∈ next, secs < n) (hbefore : cfg.endTime = kNoEndTime → (before' = .inSch ↔ st = .inSch)) :
    st = .inSch ↔ cfg.Inside secs ∨ cfg.endTime = kNoEndTime ∧ before' = .inSch := by
  cases h with
  | noEnd hend _ => exact ⟨fun _ => .inr ⟨hend, (hbefore hend).mpr rfl⟩, fun _ => rfl⟩
  | inside day hend _ hopened _ =>
    refine ⟨fun _ => .inl ?_, fun _ => rfl⟩
    have hn := hlt _ rfl
    have hopened' : cfg.Opened day secs := ⟨hopened.1, hopened.2.1.trans hle, lt_add_one_iff.mp hn⟩
    exact hopened'.inside hv fun heq => hcond heq day hopened
  | never _ _ hnone =>
    refine ⟨fun h => (nomatch h), fun h => ?_⟩
    obtain hin | ⟨hend, hb⟩ := h
    · have hallowed := (hin.opened hv).1.1
      rw [hnone] at hallowed
      exact (nomatch hallowed)
    · exact (hbefore hend).mp hb
  | outside day hout _ _ _ hfirst =>
    refine ⟨fun h => (nomatch h), fun h => ?_⟩
    obtain hin | ⟨hend, hb⟩ := h
    · obtain ⟨⟨hallowed, hopen, hclose⟩, -⟩ := hin.opened hv
      have hday : cfg.lastDay secs < day := by
        have hn := hlt _ rfl
        simp only [opens] at hn hopen
        omega
      have hopened : cfg.Opened (cfg.lastDay secs) (cfg.localSec now) := ⟨hallowed, hfirst _ hday hallowed, hle.trans hclose⟩
      exact absurd (hopened.inside hv fun heq => hcond heq _ hopened) hout
    · exact (hbefore hend).mp hb

/-- The second that closes a window is not inside where the next day is not allowed. -/
theorem not_inside_closes (hv : cfg.Valid) (heq : cfg.startTime = cfg.endTime) {day : ℤ}
    (hnot : cfg.weekdays (weekday (day + 1)) ≠ true) : ¬ cfg.Inside (cfg.closes day) := by
  have hstart := hv.start_lt
  have hcloses : cfg.closes day = (day + 1) * 86400 + cfg.startTime := by
    rw [closes, if_neg (by omega), heq]
  have hday : cfg.closes day / 86400 = day + 1 := by omega
  rw [Inside, if_neg (by omega), if_pos (by omega), hday]
  exact hnot

/-- A check returns, and its result is sound exactly where no window that contains `now` is
closed on a day that is not allowed, at the second at which that day would open. -/
theorem check_sound_iff (hv : cfg.Valid) (now : ℤ) (hnow : 0 ≤ now) (hlocal : 0 ≤ now + timeIntervalMinute cfg.timeZoneAdj)
    (beforeSt : SchSt) (hbefore : cfg.endTime = kNoEndTime → beforeSt ≠ .inSch) :
    ∃ res, cfg.Returns now beforeSt res ∧ (cfg.Sound now res ↔ cfg.NoOpenEnd now) := by
  obtain ⟨res, next, hret, houtcome, hnext⟩ := check_outcome hlocal hv hnow beforeSt
  have hin : res.schSt = .inSch ↔ cfg.Inside (cfg.localSec now) :=
    houtcome.inSch_iff.trans (or_iff_left fun h => hbefore h.1 h.2)
  refine ⟨res, hret, fun hsound heq day hopened => ?_, fun hcond => ⟨houtcome.state, ?_, fun hne => ?_, ?_⟩⟩
  · by_contra hnot
    have hclosed := not_inside_closes hv heq hnot
    have hinside := hin.mp (hsound.inSch.mpr ⟨day, hopened⟩)
    have hsecs : 0 ≤ cfg.localSec now := by
      rw [localSec_eq hlocal]
      omega
    rcases hopened.2.2.lt_or_eq with hlt | hlast
    · -- the state has changed at the closing second, before the next check
      have hlater : now < cfg.utc (cfg.closes day) := (lt_utc_iff hlocal _).mpr hlt
      have hlocal' : 0 ≤ cfg.utc (cfg.closes day) + timeIntervalMinute cfg.timeZoneAdj := by omega
      obtain ⟨res', next', hret', houtcome', -⟩ := check_outcome hlocal' hv (hnow.trans hlater.le) beforeSt
      have hnoEnd : cfg.endTime ≠ kNoEndTime := by
        have hstart := hv.start_lt
        simp only [kNoEndTime]
        omega
      have hbeforeNext : res.nextCheckTime = 0 ∨ cfg.utc (cfg.closes day) < res.nextCheckTime := by
        obtain ⟨day', rfl, hlast⟩ := houtcome.next_of_inside hinside hnoEnd
        have hday := hlast day hopened.2.1
        rw [hnext]
        refine .inr ((lt_utc_iff hlocal' _).mpr ?_)
        rw [localSec_utc]
        simp only [closes]
        split_ifs <;> omega
      have hsame := hsound.steady _ beforeSt res' hlater.le hbeforeNext (fun hend => absurd hend hnoEnd) hret'
      rw [hin.mpr hinside, houtcome'.inSch_iff, localSec_utc] at hsame
      exact hclosed (hsame.resolve_right fun h => hnoEnd h.1)
    · rw [hlast] at hinside
      exact hclosed hinside
  · rw [hin]
    constructor
    · exact fun h => ⟨_, (h.opened hv).1⟩
    · rintro ⟨day, hopened⟩
      exact hopened.inside hv fun heq => hcond heq day hopened
  · cases next with
    | none => exact absurd hnext hne
    | some n =>
      rw [hnext]
      exact (lt_utc_iff hlocal n).mpr houtcome.lt
  · intro t before' res' hle hlt hb hret'
    have hlocal' : 0 ≤ t + timeIntervalMinute cfg.timeZoneAdj := by omega
    obtain ⟨next', houtcome', -⟩ := hret'.outcome hlocal' hv (hnow.trans hle)
    have hlt' : ∀ n ∈ next, cfg.localSec t < n := by
      intro n hn
      rw [Option.mem_def.mp hn] at hnext houtcome
      have hpos : now < cfg.utc n := (lt_utc_iff hlocal n).mpr houtcome.lt
      rw [hnext] at hlt
      exact (lt_utc_iff hlocal' n).mp (hlt.resolve_left (by dsimp only [Option.elim]; omega))
    have hiff := houtcome'.inSch_iff.trans (houtcome.steady hv hcond (localSec_mono hlocal hle) hlt' hb).symm
    obtain h | h := houtcome.state
    · rw [h]
      exact hiff.mpr h
    · rw [h]
      exact houtcome'.state.resolve_left fun h' => by
        rw [hiff.mp h'] at h
        exact (nomatch h)

/-- Monday to Friday, from 08:45 to 05:30 of the next day, on a Saturday at 05:30. -/
theorem check_sound_crossDay :
    let cfg : SchConfig := ⟨fun w => decide (1 ≤ w ∧ w ≤ 5), 480, 31500, 19800⟩
    ∃ res, cfg.Returns 1483133400000000 .unknown res ∧ (cfg.Sound 1483133400000000 res ↔ cfg.NoOpenEnd 1483133400000000) :=
  check_sound_iff ⟨by decide, by decide⟩ _ (by decide) (by decide) _ (by decide)

/-- Mondays from 09:00 to 09:00 of the next day, on a Tuesday at 09:00: the check made on
Monday at 10:00 asks for the next one at 09:00:01, and at 09:00:00 the state is out of
schedule. -/
theorem not_check_sound :
    ¬ ∀ (cfg : SchConfig) (_ : cfg.Valid) (now : ℤ) (_ : 0 ≤ now) (_ : 0 ≤ now + timeIntervalMinute cfg.timeZoneAdj)
      (beforeSt : SchSt) (_ : cfg.endTime = kNoEndTime → beforeSt ≠ .inSch),
      ∃ res, cfg.Returns now beforeSt res ∧ cfg.Sound now res := by
  intro h
  obtain ⟨res, hret, hsound⟩ := h ⟨fun w => decide (w = 1), 0, 32400, 32400⟩ ⟨by decide, by decide⟩
    1482829200000000 (by decide) (by decide) .unknown (by decide)
  have hrun : SchConfig.check ⟨fun w => decide (w = 1), 0, 32400, 32400⟩ 6 1482829200000000 .unknown =
      some ⟨1483347600000000, .outSch, false⟩ := by decide
  have hout : res.schSt = .outSch := by
    rw [← Option.some.inj (hrun.symm.trans (hret 6 le_rfl))]
  have hin := hsound.inSch.mpr ⟨17161, by decide, by decide, by decide⟩
  rw [hout] at hin
  exact (nomatch hin)

end Fon9.Sch
