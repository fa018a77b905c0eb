import Fon9.Base.StrTo
import Mathlib.Data.List.GetD

/-! The thread-local cache of the conversions of a time stamp. It has the last second with its calendar time, and two
texts. A text is valid while its first byte is not NUL, and the digits of the fractions are kept beside it. -/

namespace Fon9.TimeStamp

open Lib

/-! ### Calendar -/

/-- `struct tm`, zeroed. -/
structure Tm where
  sec : ℤ := 0
  min : ℤ := 0
  hour : ℤ := 0
  mday : ℤ := 0
  mon : ℤ := 0
  year : ℤ := 0
  wday : ℤ := 0
  yday : ℤ := 0
  isdst : ℤ := 0
  deriving DecidableEq

/-- `gmtime_r` of a second that is not negative. -/
abbrev Calendar := ℕ → Option Tm

def Tm.toDateTime14 (tm : Tm) : ℤ :=
  (tm.year + 1900) * 10000000000 + (tm.mon + 1) * 100000000 + tm.mday * 1000000 + tm.hour * 10000 + tm.min * 100 + tm.sec

variable (cal : Calendar) (epochSeconds : ℕ)

def Calendar.tm : Tm := (cal epochSeconds).getD {}

def Calendar.dateTime14 : ℤ := (cal epochSeconds).elim 0 Tm.toDateTime14

/-! ### Digits -/

def put2Digs (value : ℕ) : Bytes := [digch (value / 10), digch (value % 10)]

/-- `Pic9ToStrRev`: a value that is too wide has a mark. -/
def pic9ToStr : ℕ → ℕ → Bytes
  | 0, _ => []
  | 1, value => [if value ≤ 9 then digch value else ch '#']
  | 2, value => if value ≤ 99 then put2Digs value else [ch '#', digch (value % 10)]
  | width + 3, value => pic9ToStr (width + 1) (value / 100) ++ put2Digs (value % 100)

/-- A field of `struct tm`, in `uint8_t`. -/
def tmDigs (value : ℤ) : Bytes := put2Digs (value % 256).toNat

def kDivHHMMSS : ℤ := 1000000

/-- The day of `YYYYMMDDHHMMSS_`, in `unsigned`. -/
def dayOf (dateTime : ℤ) : ℕ := (dateTime.tdiv kDivHHMMSS % 2 ^ 32).toNat

/-! ### Cache -/

/-- `TimeStampThreadLocalCache`, zeroed. Between the parts of the two buffers are separators that stay as they are. -/
structure Cache where
  tm : Tm := {}
  yyyymmddhhmmss : ℤ := 0
  epochSeconds : ℕ := 0
  partUS : ℕ := 0
  partFIXMS : ℕ := 0
  dateTimeStr : Bytes := List.replicate 14 0
  dateTimeUS : Bytes := List.replicate 6 0
  fixYMD : Bytes := List.replicate 8 0
  fixHour : Bytes := List.replicate 2 0
  fixMin : Bytes := List.replicate 2 0
  fixSec : Bytes := List.replicate 2 0
  fixMS : Bytes := List.replicate 3 0

namespace Cache

variable (cal : Calendar) (c : Cache)

/-- `BufferDateTimeStr_` up to its end. -/
def bufferDateTimeStr : Bytes := c.dateTimeStr ++ ch '.' :: c.dateTimeUS

def bufferFIX : Bytes := c.fixYMD ++ ch '-' :: (c.fixHour ++ ch ':' :: (c.fixMin ++ ch ':' :: c.fixSec))

def bufferFIXMS : Bytes := c.bufferFIX ++ ch '.' :: c.fixMS

def checkCachedTm (epochSeconds : ℕ) : Bool × Cache :=
  if c.epochSeconds = epochSeconds then (false, c)
  else (true, { c with
    epochSeconds := epochSeconds
    tm := cal.tm epochSeconds
    yyyymmddhhmmss := cal.dateTime14 epochSeconds
    dateTimeStr := c.dateTimeStr.set 0 0
    fixYMD := c.fixYMD.set 0 0 })

def toStr_FIX (epochSeconds : ℕ) : Cache :=
  let r := c.checkCachedTm cal epochSeconds
  if r.1 ∨ r.2.fixYMD.getD 0 0 = 0 then
    { r.2 with
      fixYMD := pic9ToStr 8 (dayOf r.2.yyyymmddhhmmss)
      fixHour := tmDigs r.2.tm.hour
      fixMin := tmDigs r.2.tm.min
      fixSec := tmDigs r.2.tm.sec }
  else r.2

/-- `SPic9ToStrRev` of the date and time: the sign goes in front of the buffer, where the highest byte of `PartFIXMS_` is. -/
def putDateTime : Cache :=
  { c with
    dateTimeStr := pic9ToStr 14 c.yyyymmddhhmmss.natAbs
    partFIXMS := c.partFIXMS % 2 ^ 24 + (if c.yyyymmddhhmmss < 0 then ch '-' else ch '+').toNat * 2 ^ 24 }

def putUS (us : ℕ) : Cache := { c with partUS := us, dateTimeUS := pic9ToStr 6 us }

end Cache

/-! ### Calls -/

def divisor : ℕ := 1000000

/-- Seconds, or microseconds that are a time stamp. -/
inductive Call
  | epochSecondsInfo (epochSeconds : ℕ)
  | epochSecondsToYYYYMMDDHHMMSS (epochSeconds : ℕ)
  | toStrRev_Full (ts : ℕ)
  | toStrRev_FIX (ts : ℕ)
  | toStrRev_FIXMS (ts : ℕ)

inductive Result
  | tm (tm : Tm)
  | dateTime (yyyymmddhhmmss : ℤ)
  | text (str : Bytes)
  deriving DecidableEq

def Call.seconds : Call → ℕ
  | epochSecondsInfo epochSeconds | epochSecondsToYYYYMMDDHHMMSS epochSeconds => epochSeconds
  | toStrRev_Full ts | toStrRev_FIX ts | toStrRev_FIXMS ts => ts / divisor

namespace Cache

variable (cal : Calendar) (c : Cache)

def toStrRev_Full (ts : ℕ) : Cache :=
  let us := ts % divisor
  let r := c.checkCachedTm cal (ts / divisor)
  if r.1 ∨ r.2.dateTimeStr.getD 0 0 = 0 then r.2.putDateTime.putUS us
  else if r.2.partUS ≠ us then r.2.putUS us
  else r.2

def toStrRev_FIXMS (ts : ℕ) : Cache :=
  let ms := ts % divisor / 1000
  let c := c.toStr_FIX cal (ts / divisor)
  if c.partFIXMS ≠ ms then { c with partFIXMS := ms, fixMS := pic9ToStr 3 ms } else c

def call : Call → Result × Cache
  | .epochSecondsInfo epochSeconds =>
    let c := (c.checkCachedTm cal epochSeconds).2
    (.tm c.tm, c)
  | .epochSecondsToYYYYMMDDHHMMSS epochSeconds =>
    let c := (c.checkCachedTm cal epochSeconds).2
    (.dateTime c.yyyymmddhhmmss, c)
  | .toStrRev_Full ts =>
    let c := c.toStrRev_Full cal ts
    (.text c.bufferDateTimeStr, c)
  | .toStrRev_FIX ts =>
    let c := c.toStr_FIX cal (ts / divisor)
    (.text c.bufferFIX, c)
  | .toStrRev_FIXMS ts =>
    let c := c.toStrRev_FIXMS cal ts
    (.text c.bufferFIXMS, c)

/-- The results of calls one after the other. -/
def run : Cache → List Call → List Result
  | _, [] => []
  | c, x :: xs => (c.call cal x).1 :: run (c.call cal x).2 xs

end Cache

/-! ### Without a cache -/

/-- "YYYYMMDD-HH:MM:SS" -/
def fixText : Bytes :=
  pic9ToStr 8 (dayOf (cal.dateTime14 epochSeconds)) ++ ch '-' :: (tmDigs (cal.tm epochSeconds).hour ++ ch ':' ::
    (tmDigs (cal.tm epochSeconds).min ++ ch ':' :: tmDigs (cal.tm epochSeconds).sec))

/-- A conversion of its argument alone. -/
def convert : Call → Result
  | .epochSecondsInfo epochSeconds => .tm (cal.tm epochSeconds)
  | .epochSecondsToYYYYMMDDHHMMSS epochSeconds => .dateTime (cal.dateTime14 epochSeconds)
  | .toStrRev_Full ts =>
    .text (pic9ToStr 14 (cal.dateTime14 (ts / divisor)).natAbs ++ ch '.' :: pic9ToStr 6 (ts % divisor))
  | .toStrRev_FIX ts => .text (fixText cal (ts / divisor))
  | .toStrRev_FIXMS ts => .text (fixText cal (ts / divisor) ++ ch '.' :: pic9ToStr 3 (ts % divisor / 1000))

/-! ### What a cache keeps -/

namespace Cache

variable {cal cal₀ : Calendar} {c : Cache} {epochSeconds ts : ℕ} {x : Call} {xs : List Call}

/-- The next milliseconds are written: the old ones have their text, or are not milliseconds. -/
def Warm (c : Cache) : Prop := c.fixMS = pic9ToStr 3 c.partFIXMS ∨ 1000 ≤ c.partFIXMS

/-- No milliseconds were written since the constructor. -/
def Cold (c : Cache) : Prop := c.partFIXMS = 0 ∧ c.fixMS = [0, 0, 0]

structure Valid (cal : Calendar) (c : Cache) : Prop where
  tm : c.tm = cal.tm c.epochSeconds
  dateTime : c.yyyymmddhhmmss = cal.dateTime14 c.epochSeconds
  dateTimeStr : c.dateTimeStr.getD 0 0 = 0 ∨
    c.dateTimeStr = pic9ToStr 14 (cal.dateTime14 c.epochSeconds).natAbs ∧ c.dateTimeUS = pic9ToStr 6 c.partUS ∧ c.Warm
  fix : c.fixYMD.getD 0 0 = 0 ∨ c.bufferFIX = fixText cal c.epochSeconds
  ms : c.Warm ∨ c.Cold

theorem Cold.not_warm (h : c.Cold) : ¬ c.Warm := by
  rintro (htext | hwide)
  · rw [h.1, h.2] at htext
    exact absurd htext (by decide)
  · rw [h.1] at hwide
    omega

/-- The constructor, for a calendar without any second. -/
theorem valid_fresh : Valid (fun _ => none) {} where
  tm := rfl
  dateTime := rfl
  dateTimeStr := .inl rfl
  fix := .inl rfl
  ms := .inr ⟨rfl, rfl⟩

theorem getD_set_zero (l : Bytes) : (l.set 0 0).getD 0 0 = 0 := by
  cases l <;> rfl

/-! ### One call -/

theorem checkCachedTm_marks (h : (c.checkCachedTm cal epochSeconds).1 = true) :
    (c.checkCachedTm cal epochSeconds).2.dateTimeStr.getD 0 0 = 0 ∧
      (c.checkCachedTm cal epochSeconds).2.fixYMD.getD 0 0 = 0 := by
  unfold checkCachedTm at h ⊢
  split_ifs at h ⊢ with hsame
  exact ⟨getD_set_zero _, getD_set_zero _⟩

@[simp] theorem checkCachedTm_epochSeconds : (c.checkCachedTm cal epochSeconds).2.epochSeconds = epochSeconds := by
  unfold checkCachedTm
  split_ifs with hsame
  · exact hsame
  · rfl

@[simp] theorem checkCachedTm_partFIXMS : (c.checkCachedTm cal epochSeconds).2.partFIXMS = c.partFIXMS := by
  unfold checkCachedTm
  split_ifs <;> rfl

@[simp] theorem checkCachedTm_fixMS : (c.checkCachedTm cal epochSeconds).2.fixMS = c.fixMS := by
  unfold checkCachedTm
  split_ifs <;> rfl

theorem checkCachedTm_valid (h : Valid cal₀ c) (hcal : c.epochSeconds = epochSeconds → cal₀ = cal) :
    Valid cal (c.checkCachedTm cal epochSeconds).2 := by
  unfold checkCachedTm
  split_ifs with hsame
  · rw [← hcal hsame]
    exact h
  · exact ⟨rfl, rfl, .inl (getD_set_zero _), .inl (getD_set_zero _), h.ms⟩

/-- A text is written again where its mark is NUL: a new second has set both marks. -/
theorem stale_iff_date : ((c.checkCachedTm cal epochSeconds).1 = true ∨
    (c.checkCachedTm cal epochSeconds).2.dateTimeStr.getD 0 0 = 0) ↔
      (c.checkCachedTm cal epochSeconds).2.dateTimeStr.getD 0 0 = 0 :=
  or_iff_right_of_imp fun hnew => (checkCachedTm_marks hnew).1

theorem stale_iff_fix : ((c.checkCachedTm cal epochSeconds).1 = true ∨
    (c.checkCachedTm cal epochSeconds).2.fixYMD.getD 0 0 = 0) ↔
      (c.checkCachedTm cal epochSeconds).2.fixYMD.getD 0 0 = 0 :=
  or_iff_right_of_imp fun hnew => (checkCachedTm_marks hnew).2

@[simp] theorem toStr_FIX_epochSeconds : (c.toStr_FIX cal epochSeconds).epochSeconds = epochSeconds := by
  unfold toStr_FIX
  dsimp only
  split_ifs
  · exact checkCachedTm_epochSeconds
  · exact checkCachedTm_epochSeconds

@[simp] theorem toStr_FIX_partFIXMS : (c.toStr_FIX cal epochSeconds).partFIXMS = c.partFIXMS := by
  unfold toStr_FIX
  dsimp only
  split_ifs
  · exact checkCachedTm_partFIXMS
  · exact checkCachedTm_partFIXMS

@[simp] theorem toStr_FIX_fixMS : (c.toStr_FIX cal epochSeconds).fixMS = c.fixMS := by
  unfold toStr_FIX
  dsimp only
  split_ifs
  · exact checkCachedTm_fixMS
  · exact checkCachedTm_fixMS

theorem toStr_FIX_valid (h : Valid cal₀ c) (hcal : c.epochSeconds = epochSeconds → cal₀ = cal) :
    Valid cal (c.toStr_FIX cal epochSeconds) ∧ (c.toStr_FIX cal epochSeconds).bufferFIX = fixText cal epochSeconds := by
  have hchecked := checkCachedTm_valid h hcal
  unfold toStr_FIX
  simp only [stale_iff_fix]
  generalize hr : (c.checkCachedTm cal epochSeconds).2 = r at hchecked ⊢
  have hes : r.epochSeconds = epochSeconds := hr ▸ checkCachedTm_epochSeconds
  subst hes
  split_ifs with hmark
  · have htext : { r with
        fixYMD := pic9ToStr 8 (dayOf r.yyyymmddhhmmss)
        fixHour := tmDigs r.tm.hour
        fixMin := tmDigs r.tm.min
        fixSec := tmDigs r.tm.sec }.bufferFIX = fixText cal r.epochSeconds := by
      rw [hchecked.tm, hchecked.dateTime]
      rfl
    exact ⟨⟨hchecked.tm, hchecked.dateTime, hchecked.dateTimeStr, .inr htext, hchecked.ms⟩, htext⟩
  · exact ⟨hchecked, hchecked.fix.resolve_left hmark⟩

/-- The sign is above all milliseconds. -/
theorem putDateTime_eq (c : Cache) : ∃ partFIXMS, 1000 ≤ partFIXMS ∧
    c.putDateTime = { c with dateTimeStr := pic9ToStr 14 c.yyyymmddhhmmss.natAbs, partFIXMS := partFIXMS } := by
  refine ⟨_, ?_, rfl⟩
  have hsign : (if c.yyyymmddhhmmss < 0 then ch '-' else ch '+').toNat = 45 ∨
      (if c.yyyymmddhhmmss < 0 then ch '-' else ch '+').toNat = 43 := by
    split_ifs
    · exact .inl rfl
    · exact .inr rfl
  omega

theorem toStrRev_Full_valid (h : Valid cal₀ c) (hcal : c.epochSeconds = ts / divisor → cal₀ = cal) :
    Valid cal (c.toStrRev_Full cal ts) ∧ (c.toStrRev_Full cal ts).epochSeconds = ts / divisor ∧
      (c.toStrRev_Full cal ts).Warm ∧ (c.toStrRev_Full cal ts).bufferDateTimeStr =
        pic9ToStr 14 (cal.dateTime14 (ts / divisor)).natAbs ++ ch '.' :: pic9ToStr 6 (ts % divisor) := by
  have hchecked := checkCachedTm_valid h hcal
  unfold toStrRev_Full
  simp only [stale_iff_date]
  generalize hr : (c.checkCachedTm cal (ts / divisor)).2 = r at hchecked ⊢
  have hes : r.epochSeconds = ts / divisor := hr ▸ checkCachedTm_epochSeconds
  rw [← hes]
  split_ifs with hmark hus
  · obtain ⟨partFIXMS, hwide, hput⟩ := putDateTime_eq r
    have hdate : pic9ToStr 14 r.yyyymmddhhmmss.natAbs = pic9ToStr 14 (cal.dateTime14 r.epochSeconds).natAbs := by
      rw [hchecked.dateTime]
    rw [hput, hdate]
    exact ⟨⟨hchecked.tm, hchecked.dateTime, .inr ⟨rfl, rfl, .inr hwide⟩, hchecked.fix, .inl (.inr hwide)⟩,
      rfl, .inr hwide, rfl⟩
  · obtain ⟨hdate, -, hwarm⟩ := hchecked.dateTimeStr.resolve_left hmark
    exact ⟨⟨hchecked.tm, hchecked.dateTime, .inr ⟨hdate, rfl, hwarm⟩, hchecked.fix, hchecked.ms⟩,
      rfl, hwarm, by rw [bufferDateTimeStr, putUS, hdate]⟩
  · obtain ⟨hdate, htextUS, hwarm⟩ := hchecked.dateTimeStr.resolve_left hmark
    rw [not_not.mp hus] at htextUS
    exact ⟨hchecked, rfl, hwarm, by rw [bufferDateTimeStr, hdate, htextUS]⟩

theorem toStrRev_FIXMS_valid (h : Valid cal₀ c) (hcal : c.epochSeconds = ts / divisor → cal₀ = cal) :
    Valid cal (c.toStrRev_FIXMS cal ts) ∧ (c.toStrRev_FIXMS cal ts).epochSeconds = ts / divisor ∧
      ((c.toStrRev_FIXMS cal ts).Warm ↔ c.Warm ∨ ts % divisor / 1000 ≠ 0) ∧
        ((c.toStrRev_FIXMS cal ts).bufferFIXMS = fixText cal (ts / divisor) ++ ch '.' :: pic9ToStr 3 (ts % divisor / 1000) ↔
          c.Warm ∨ ts % divisor / 1000 ≠ 0) := by
  obtain ⟨hvalid, htext⟩ := toStr_FIX_valid h hcal
  have hwarm₀ : (c.toStr_FIX cal (ts / divisor)).Warm ↔ c.Warm := by
    simp only [Warm, toStr_FIX_partFIXMS, toStr_FIX_fixMS]
  unfold toStrRev_FIXMS
  generalize hr : c.toStr_FIX cal (ts / divisor) = r at hvalid htext hwarm₀ ⊢
  have hes : r.epochSeconds = ts / divisor := hr ▸ toStr_FIX_epochSeconds
  dsimp only
  rw [← htext, ← hwarm₀]
  split_ifs with hms
  · -- The milliseconds and their text are written. In a cold cache they are not 0.
    have hwarm : { r with partFIXMS := ts % divisor / 1000, fixMS := pic9ToStr 3 (ts % divisor / 1000) }.Warm := .inl rfl
    have hwritten : r.Warm ∨ ts % divisor / 1000 ≠ 0 := by
      refine hvalid.ms.imp_right fun hcold hzero => ?_
      exact hms (hcold.1.trans hzero.symm)
    have hdate := hvalid.dateTimeStr.imp_right fun hdate => And.intro hdate.1 (And.intro hdate.2.1 hwarm)
    exact ⟨⟨hvalid.tm, hvalid.dateTime, hdate, hvalid.fix, .inl hwarm⟩, hes, iff_of_true hwarm hwritten,
      iff_of_true rfl hwritten⟩
  · have hms := not_not.mp hms
    have hsmall : ts % divisor / 1000 < 1000 := by
      rw [divisor]
      omega
    have hread : r.bufferFIXMS = r.bufferFIX ++ ch '.' :: pic9ToStr 3 (ts % divisor / 1000) ↔ r.Warm := by
      rw [← hms] at hsmall ⊢
      simp only [bufferFIXMS, Warm, List.append_cancel_left_eq, List.cons.injEq, true_and]
      exact (or_iff_left (not_le.mpr hsmall)).symm
    have hcold : r.Warm ↔ r.Warm ∨ ts % divisor / 1000 ≠ 0 := by
      refine (or_iff_left_of_imp fun hne => ?_).symm
      refine hvalid.ms.resolve_right fun hcold => hne ?_
      exact hms.symm.trans hcold.1
    exact ⟨hvalid, hes, hcold, hread.trans hcold⟩

/-! ### Runs -/

end Cache

/-- The calls that write a fraction of a second where `PartFIXMS_` is. -/
def Call.putsFraction : Call → Bool
  | toStrRev_Full _ | toStrRev_FIXMS _ => true
  | _ => false

def Call.isZeroMS : Call → Bool
  | toStrRev_FIXMS ts => ts % divisor / 1000 = 0
  | _ => false

/-- The first of the calls that write a fraction does not ask for the milliseconds "000". -/
def FractionKnown (calls : List Call) : Prop :=
  ∀ x ∈ calls.find? Call.putsFraction, x.isZeroMS = false

namespace Cache

variable {cal cal₀ : Calendar} {c : Cache} {epochSeconds ts : ℕ} {x : Call} {xs : List Call}

theorem call_valid (h : Valid cal₀ c) (hcal : c.epochSeconds = x.seconds → cal₀ = cal) : Valid cal (c.call cal x).2 := by
  cases x with
  | epochSecondsInfo | epochSecondsToYYYYMMDDHHMMSS => exact checkCachedTm_valid h hcal
  | toStrRev_Full => exact (toStrRev_Full_valid h hcal).1
  | toStrRev_FIX => exact (toStr_FIX_valid h hcal).1
  | toStrRev_FIXMS => exact (toStrRev_FIXMS_valid h hcal).1

/-- A call of a cache that is valid, and what the next calls find. -/
theorem call_spec (h : Valid cal₀ c) (hcal : c.epochSeconds = x.seconds → cal₀ = cal) :
    ((c.call cal x).1 = convert cal x ∧ ((c.call cal x).2.Warm ∨ FractionKnown xs)) ↔ (c.Warm ∨ FractionKnown (x :: xs)) := by
  cases x with
  | epochSecondsInfo es =>
    have htm : (c.checkCachedTm cal es).2.tm = cal.tm es := by
      have hchecked := (checkCachedTm_valid h hcal).tm
      rwa [checkCachedTm_epochSeconds] at hchecked
    simp only [call, convert, Warm, htm, checkCachedTm_partFIXMS, checkCachedTm_fixMS, true_and]
    rfl
  | epochSecondsToYYYYMMDDHHMMSS es =>
    have hdateTime : (c.checkCachedTm cal es).2.yyyymmddhhmmss = cal.dateTime14 es := by
      have hchecked := (checkCachedTm_valid h hcal).dateTime
      rwa [checkCachedTm_epochSeconds] at hchecked
    simp only [call, convert, Warm, hdateTime, checkCachedTm_partFIXMS, checkCachedTm_fixMS, true_and]
    rfl
  | toStrRev_Full ts =>
    obtain ⟨-, -, hwarm, htext⟩ := toStrRev_Full_valid h hcal
    have hknown : FractionKnown (.toStrRev_Full ts :: xs) := by
      rintro y ⟨⟩
      rfl
    exact iff_of_true ⟨congrArg Result.text htext, .inl hwarm⟩ (.inr hknown)
  | toStrRev_FIX ts =>
    obtain ⟨-, htext⟩ := toStr_FIX_valid h hcal
    simp only [call, convert, Warm, Call.seconds] at htext ⊢
    simp only [htext, toStr_FIX_partFIXMS, toStr_FIX_fixMS, true_and]
    rfl
  | toStrRev_FIXMS ts =>
    obtain ⟨-, -, hwarm, htext⟩ := toStrRev_FIXMS_valid h hcal
    have hknown : FractionKnown (.toStrRev_FIXMS ts :: xs) ↔ ts % divisor / 1000 ≠ 0 := by
      simp [FractionKnown, Call.putsFraction, Call.isZeroMS]
    simp only [call, convert, Result.text.injEq, htext, hwarm, hknown]
    exact and_iff_left_of_imp .inl

/-- By induction on the calls, for any valid cache. -/
theorem run_iff (h : Valid cal c) : c.run cal xs = xs.map (convert cal) ↔ c.Warm ∨ FractionKnown xs := by
  induction xs generalizing c with
  | nil =>
    refine iff_of_true rfl (.inr ?_)
    intro x hx
    cases hx
  | cons x xs ih =>
    rw [run, List.map_cons, List.cons.injEq, ih (call_valid h fun _ => rfl)]
    exact call_spec h fun _ => rfl

end Cache

/-- 1970-01-01 00:00:00, a Thursday. -/
def epochTm : Tm := { mday := 1, year := 70, wday := 4 }

/-- The first second of the calendar is the one a new cache has, and its texts are marked as old. -/
theorem call_fresh_zero {cal : Calendar} {x : Call} (hepoch : cal 0 = some epochTm) (hx : x.seconds = 0) :
    (Cache.call cal {} x).1 ≠ convert cal x := by
  have htm : cal.tm 0 = epochTm := by rw [Calendar.tm, hepoch, Option.getD_some]
  have hdate : cal.dateTime14 0 = 19700101000000 := by
    rw [Calendar.dateTime14, hepoch]
    rfl
  have hyear : ∀ {l l' r r' : Bytes}, l.length = l'.length → l ≠ l' → Result.text (l ++ r) ≠ Result.text (l' ++ r') := by
    intro l l' r r' hlen hne htext
    exact hne (List.append_inj (Result.text.inj htext) hlen).1
  cases x with
  | epochSecondsInfo es =>
    change es = 0 at hx
    rw [convert, hx, htm]
    change Result.tm {} ≠ Result.tm epochTm
    decide
  | epochSecondsToYYYYMMDDHHMMSS es =>
    change es = 0 at hx
    rw [convert, hx, hdate]
    change Result.dateTime 0 ≠ Result.dateTime 19700101000000
    decide
  | toStrRev_Full ts =>
    change ts / divisor = 0 at hx
    have htext : (Cache.toStrRev_Full cal {} ts).dateTimeStr = pic9ToStr 14 0 := by
      rw [Cache.toStrRev_Full, hx]
      rfl
    rw [Cache.call, convert, hx, hdate, Cache.bufferDateTimeStr, htext]
    exact hyear rfl (by decide)
  | toStrRev_FIX ts =>
    change ts / divisor = 0 at hx
    have htext : (Cache.toStr_FIX cal {} (ts / divisor)).fixYMD = pic9ToStr 8 0 := by
      rw [hx]
      rfl
    rw [Cache.call, convert, Cache.bufferFIX, htext, hx, fixText, hdate]
    exact hyear rfl (by decide)
  | toStrRev_FIXMS ts =>
    change ts / divisor = 0 at hx
    have htext : (Cache.toStrRev_FIXMS cal {} ts).fixYMD = pic9ToStr 8 0 := by
      rw [Cache.toStrRev_FIXMS, hx]
      split_ifs
      · rfl
      · rfl
    rw [Cache.call, convert, Cache.bufferFIXMS, Cache.bufferFIX, htext, hx, fixText, hdate, List.append_assoc,
      List.append_assoc]
    exact hyear rfl (by decide)

/-- A new thread has the second 0 without its calendar time, and milliseconds 0 without their text: the first call must not
take the one, and the first call that writes a fraction must not take the other. -/
theorem run_convert {cal : Calendar} (hepoch : cal 0 = some epochTm) (calls : List Call) :
    Cache.run cal {} calls = calls.map (convert cal) ↔ (∀ x ∈ calls.head?, x.seconds ≠ 0) ∧ FractionKnown calls := by
  have hcold : ¬ ({} : Cache).Warm := Cache.Cold.not_warm ⟨rfl, rfl⟩
  cases calls with
  | nil =>
    refine iff_of_true rfl ⟨?_, ?_⟩
    · intro x hx
      cases hx
    · intro x hx
      cases hx
  | cons x xs =>
    rw [Cache.run, List.map_cons, List.cons.injEq, List.head?_cons]
    simp only [Option.mem_some_iff, forall_eq']
    by_cases hx : x.seconds = 0
    · exact iff_of_false (fun h => call_fresh_zero hepoch hx h.1) (fun h => h.1 hx)
    · -- The second of the constructor is not asked for, so its calendar time does not matter.
      have hcal : ({} : Cache).epochSeconds = x.seconds → (fun _ => none) = cal := fun h => absurd h.symm hx
      rw [Cache.run_iff (Cache.call_valid Cache.valid_fresh hcal), Cache.call_spec Cache.valid_fresh hcal]
      rw [or_iff_right hcold, and_iff_right hx]

/-- The calendar of the first day. -/
def firstDay : Calendar := fun epochSeconds =>
  some { epochTm with hour := epochSeconds / 3600, min := epochSeconds / 60 % 60, sec := epochSeconds % 60 }

theorem run_convert_firstDay :
    Cache.run firstDay {} [.toStrRev_FIXMS 1001000, .toStrRev_Full 1000000, .epochSecondsInfo 0, .toStrRev_FIX 0] =
      [.toStrRev_FIXMS 1001000, .toStrRev_Full 1000000, .epochSecondsInfo 0, .toStrRev_FIX 0].map (convert firstDay) := by
  refine (run_convert rfl _).mpr ⟨?_, ?_⟩
  · rintro x ⟨⟩
    decide
  · rintro x ⟨⟩
    rfl

/-- The first text of a thread has three NUL bytes for the milliseconds of a whole second. -/
theorem not_run_convert : ¬ ∀ (cal : Calendar) (calls : List Call), cal 0 = some epochTm →
    Cache.run cal {} calls = calls.map (convert cal) := by
  intro h
  have htext := h firstDay [.toStrRev_FIXMS 1000000] rfl
  revert htext
  decide

end Fon9.TimeStamp
