import Fon9.Num.StrToTime

/-! The text of a `TimeInterval` and of a `DayTime`, and back with the parser of a `TimeInterval`.
Days, hours and minutes that are zero are left out of the first one, and below a second it is in
milliseconds or in microseconds. Its hours and minutes come from the seconds as `uint32_t`. -/

namespace Fon9.Num

open Bitv List IntType

/-- `ToStrRev_TimeInterval_HHMM`, of a `uint32_t`. -/
def toStrRevTimeIntervalHHMM (pout : Bytes) (daySeconds : ℕ) : Bytes :=
  let mm := daySeconds / 60 % 60
  let hh := daySeconds / (60 * 60) % 24
  if hh ≠ 0 ∨ mm ≠ 0 then
    let pout := pic9ToStr2 mm ++ ch ':' :: (if daySeconds % 60 < 10 then ch '0' :: pout else pout)
    if hh ≠ 0 then pic9ToStr2 hh ++ ch ':' :: pout else pout
  else pout

/-- What `ToStrRev` of a `TimeInterval` prints of one that is not negative. -/
def toStrRevTimeIntervalAbs (ti : ℕ) : Bytes :=
  let daySeconds := ti / 1000000
  if 0 < daySeconds then
    let pout := decimalToStrRev (fun v => -v) .int64 (ch '.') 6 [] (ti % 60000000 : ℕ)
    let days := daySeconds / 86400
    let pout := toStrRevTimeIntervalHHMM pout (daySeconds % 2 ^ 32)
    if 0 < days then uintToStr days ++ ch '-' :: pout else pout
  else if ti ≠ 0 then
    if 1000 ≤ ti then decimalToStrRev (fun v => -v) .uint32 (ch '.') 3 [] ti ++ [ch ' ', ch 'm', ch 's']
    else uintToStr ti ++ [ch ' ', ch 'u', ch 's']
  else [ch '0']

/-- `ToStrRev` of a `TimeInterval`. -/
def toStrRevTimeInterval (ti : ℤ) : Bytes :=
  if ti = origNull .int64 then [] else signText (ti < 0) ++ toStrRevTimeIntervalAbs ti.natAbs

/-- `ToStrRev` of a `DayTime`. -/
def toStrRevDayTime (value : ℤ) : Bytes :=
  if value = origNull .int64 then []
  else
    let secs := putAutoPrecision (ch '.') 6 [] value.natAbs
    signText (value < 0) ++ (toStrRevSecs secs.2 ++ secs.1)

/-- From the text the same value is read, and all of the text. -/
def TimeComesBack (text : Bytes) (value : ℤ) : Prop :=
  strToTimeInterval text = .ok (some value) ∧ strToTimeIntervalRest text = []

variable {n v res j days scale : ℕ} {neg : Bool} {c : UInt8} {ds frac fs text body : Bytes} {negative : Negative}
  {p : Parse TimeAux}

/-! ### What is printed -/

theorem fraction_putAutoPrecision (hscale : scale ≤ 6) (value : ℕ) :
    ∃ frac fs, putAutoPrecision (ch '.') scale [] value = (frac, value / 10 ^ scale) ∧ Fraction frac fs ∧ fs.length ≤ scale ∧
      digitsValue fs * 10 ^ (scale - fs.length) = value % 10 ^ scale := by
  rcases putAutoPrecision_eq (ch '.') scale [] value with ⟨hnone, htext⟩ | ⟨fs, htext, hfs, hlen, hvalue⟩
  · refine ⟨[], [], htext, .none, Nat.zero_le _, ?_⟩
    rw [hnone]
    exact Nat.zero_mul _
  · rw [append_nil] at htext
    exact ⟨_, fs, htext, .point hfs (by omega), hlen, hvalue⟩

theorem decimal_number {neg : ℤ → ℤ} (t : IntType) {scale : ℕ} (hscale : scale ≤ 6) (value : ℕ)
    (hnull : (value : ℤ) ≠ origNull t) (hfits : Fits t value) (hneg : Negates neg) (hmin : (value : ℤ) ≠ int64.min) :
    ∃ ds frac fs, decimalToStrRev neg t (ch '.') scale [] value = ds ++ frac ∧ Number ds (value / 10 ^ scale) ∧
      Fraction frac fs ∧ fs.length ≤ scale ∧ digitsValue fs * 10 ^ (scale - fs.length) = value % 10 ^ scale := by
  obtain ⟨frac, fs, hfracText, hfrac, hlen, hvalue⟩ := fraction_putAutoPrecision hscale value
  obtain ⟨ds, hdigits, hds, hne, hwhole⟩ := uIntToStrRev_eq frac (value / 10 ^ scale)
  refine ⟨ds, frac, fs, ?_, ⟨hds, hne, hwhole⟩, hfrac, hlen, hvalue⟩
  rw [decimalToStrRev, if_neg hnull, decToStrRev_eq hneg hfits (fun h => absurd h hmin), if_neg (by omega), uDecToStrRev,
    Int.natAbs_natCast, hfracText]
  exact hdigits

theorem number_zero_cons (h : Number ds n) : Number (ch '0' :: ds) n := by
  obtain ⟨hdigits, -, hvalue⟩ := h
  refine ⟨?_, cons_ne_nil _ _, ?_⟩
  · intro c hc
    rcases List.mem_cons.mp hc with rfl | hc
    · decide
    · exact hdigits c hc
  · have hzero : digitsValue (ch '0' :: ds) = moreDigits 0 ds := rfl
    rw [hzero]
    exact hvalue

/-- Hours and minutes in front of seconds. -/
theorem clock_toStrRevTimeIntervalHHMM (hds : Number ds n) (hn : n < 60) (frac : Bytes) (daySeconds : ℕ) :
    ∃ text, toStrRevTimeIntervalHHMM (ds ++ frac) daySeconds = text ++ frac ∧
      Clock text ((daySeconds / (60 * 60) % 24 * 100 + daySeconds / 60 % 60) * 100 + n) := by
  obtain ⟨ds', hds', hzero⟩ : ∃ ds', Number ds' n ∧
      (if daySeconds % 60 < 10 then ch '0' :: (ds ++ frac) else ds ++ frac) = ds' ++ frac := by
    split
    · exact ⟨ch '0' :: ds, number_zero_cons hds, rfl⟩
    · exact ⟨ds, hds, rfl⟩
  have hmm : daySeconds / 60 % 60 < 60 := Nat.mod_lt _ (by decide)
  have hhh : daySeconds / (60 * 60) % 24 < 24 := Nat.mod_lt _ (by decide)
  rw [toStrRevTimeIntervalHHMM]
  generalize daySeconds / 60 % 60 = mm at hmm ⊢
  generalize daySeconds / (60 * 60) % 24 = hh at hhh ⊢
  dsimp only
  rw [hzero]
  have hm : Number (pic9ToStr2 mm) mm := number_pic9ToStr2 (by omega)
  split
  · split
    · refine ⟨_, ?_, .hhmmss (number_pic9ToStr2 (by omega)) hm hds' (by omega) (by omega) (by omega)⟩
      simp
    next hzero =>
      have hhzero : hh = 0 := by omega
      rw [hhzero, Nat.zero_mul, Nat.zero_add]
      refine ⟨_, ?_, .mmss hm hds' (by omega) (by omega)⟩
      simp
  next hzero =>
    have hhzero : hh = 0 := by omega
    have hmzero : mm = 0 := by omega
    rw [hhzero, hmzero, Nat.zero_mul, Nat.zero_add]
    exact ⟨ds, rfl, .ss hds (by omega)⟩

/-! ### Milliseconds and microseconds -/

/-- A blank and "ms" or "us". -/
theorem timeSplitter_unit {k : ℤ} (hk : suffixScale c = some k) (hc : isspace c = false)
    (hrest : p.rest = [ch ' ', c, ch 's']) (hend : p.cur.expectEnd = p.cur.current + 3) :
    timeSplitter p = (false, { p with aux := { p.aux with dec := { p.aux.dec with
      scale := (if p.aux.dec.scale < 0 then 0 else p.aux.dec.scale) + k } } }.goTo []) := by
  have hblank : ([ch ' ', c, ch 's'] : Bytes).dropWhile isspace = [c, ch 's'] := by
    rw [dropWhile_cons_of_pos (by decide), dropWhile_cons_of_neg (by simp [hc])]
  rw [timeSplitter, hend, Nat.add_sub_cancel_left, hrest, take_of_length_le (by simp), hblank]
  dsimp only
  rw [List.head?_cons, if_pos rfl, hk]
  rfl

/-- Behind the digits of a fraction. -/
theorem timeParse_blank {k : ℕ} (fuel pointPos j : ℕ) (hk : suffixScale c = some (k : ℤ)) (hc : isspace c = false)
    (hrest : p.rest = [ch ' ', c, ch 's']) (hend : p.cur.expectEnd = p.cur.current + 3)
    (hpoint : p.aux.dec.pointPos = some pointPos) (hscale : p.aux.dec.scale = -1) (hsplitter : p.aux.hasSplitter = false)
    (hj : p.cur.current = pointPos + 1 + j) :
    Done p p.res (j + k) p.aux.dec.negative (numParse timeIsValidChar (fuel + 1) p) := by
  have hcount : ((pointPos + 1 + j : ℕ) : ℤ) - pointPos - 1 = j := by omega
  have hvalid : timeIsValidChar (ch ' ') p =
      timeSplitter { p with aux := { p.aux with dec := { p.aux.dec with scale := j } } } := by
    rw [← hcount, ← hj]
    obtain ⟨rest, cur, res, ⟨negative, point, scale⟩, hasSplitter⟩ := p
    dsimp only at hpoint hscale hsplitter
    subst hpoint hscale hsplitter
    rfl
  have hunit := timeSplitter_unit (p := { p with aux := { p.aux with dec := { p.aux.dec with scale := j } } }) hk hc hrest
    hend
  rw [numParse, hrest]
  dsimp only at hunit ⊢
  rw [if_pos (by omega), if_neg (by decide), hvalid, hunit, if_neg (by simp)]
  rw [if_neg (show ¬ (j : ℤ) < 0 by omega)]
  constructor <;> simp [Parse.goTo, hrest]
  rw [if_neg (by omega)]
  omega

/-- A number with at most three digits behind the point, in a unit of time. -/
theorem timeParse_unit {k : ℕ} (negative : Negative) (hds : Number ds n) (hfrac : Fraction frac fs) (hlen : fs.length ≤ 3)
    (hk : suffixScale c = some (k : ℤ)) (hc : isspace c = false) (hfits : moreDigits n fs ≤ tempMax .int64)
    (hbody : body = ds ++ (frac ++ [ch ' ', c, ch 's'])) :
    Done (timeStart negative body) (moreDigits n fs) (fs.length + k) negative
      (timeParse (body.length + 1) (timeStart negative body)) := by
  subst hbody
  rw [timeParse_eq]
  have hn : n ≤ tempMax .int64 := (le_moreDigits n fs).trans hfits
  rw [length_append, Nat.add_assoc]
  obtain ⟨p, hskip, hreads, hrest, hres, hneg, hback⟩ :=
    numParse_number timeIsValidChar negative hds hn (frac ++ [ch ' ', c, ch 's']) ((frac ++ [ch ' ', c, ch 's']).length + 1)
  obtain ⟨hend, hpoint, hscale, hsplitter⟩ := id hreads
  rw [hskip]
  cases hfrac with
  | none =>
    have hunit := timeSplitter_unit hk hc hrest (by rw [hend, hrest]; rfl)
    rw [nil_append, length_cons, numParse_stops hreads hrest (by decide),
      timeIsValidChar_splitter hreads (by decide), hunit, if_neg (by simp)]
    apply hback
    rw [hscale, if_pos (by decide)]
    constructor <;> simp [Parse.goTo, hres, hneg, moreDigits]
  | @point fs hfs hlen' =>
    rw [cons_append] at hrest ⊢
    have hexpect : p.cur.expectEnd = p.cur.current + (fs.length + 4) := by simp [hend, hrest]
    have hvalid : timeIsValidChar (ch '.') p = (true, { p with
        cur := { p.cur with expectEnd := min p.cur.expectEnd (p.cur.current + 6 + 1) }
        aux := { p.aux with dec := { p.aux.dec with pointPos := some p.cur.current } } }) := by
      rw [timeIsValidChar, StrToDecIntAux.isValidChar, hpoint]
      dsimp only
      rw [if_neg (not_not.mpr rfl)]
      rfl
    generalize hq : ({ p with
        cur := { p.cur with expectEnd := min p.cur.expectEnd (p.cur.current + 6 + 1) }
        aux := { p.aux with dec := { p.aux.dec with pointPos := some p.cur.current } } } : Parse TimeAux) = q at hvalid
    rw [length_cons, numParse_stops hreads hrest (by decide), hvalid, if_pos rfl, length_append, Nat.add_assoc,
      numParse_digits timeIsValidChar hfs _ (by rw [Parse.next, ← hq, hrest]; rfl) (by simp [Parse.next, ← hq]; omega)
        (by rwa [Parse.next, ← hq, hres])]
    have hdone := timeParse_blank (k := k) (p := { q.next with
        rest := [ch ' ', c, ch 's']
        cur := q.next.cur.forward fs.length
        res := moreDigits q.next.res fs }) 3 p.cur.current fs.length hk hc rfl (by simp [Parse.next, ← hq]; omega)
      (by simp [Parse.next, ← hq]) (by simpa [Parse.next, ← hq]) (by simpa [Parse.next, ← hq]) (by simp [Parse.next, ← hq])
    obtain ⟨hrest', hcurrent', hbegin', hres', hneg', hscale'⟩ := hdone
    apply hback
    subst hq
    refine ⟨hrest', ?_, hbegin', ?_, hneg'.trans hneg, hscale'⟩
    · refine hcurrent'.trans ?_
      simp [Parse.next, hrest]
      omega
    · refine hres'.trans ?_
      rw [← hres]
      rfl

/-- A number in a unit of time is read whole. -/
theorem strTo_unit {k ti : ℕ} (neg : Bool) (hds : Number ds n) (hfrac : Fraction frac fs) (hlen : fs.length ≤ 3)
    (hk : suffixScale c = some (k : ℤ)) (hc : isspace c = false) (hscale : fs.length + k ≤ 6)
    (hti : moreDigits n fs * 10 ^ (6 - (fs.length + k)) = ti) (hlt : ti < 1000000) :
    TimeComesBack (signText neg ++ (ds ++ (frac ++ [ch ' ', c, ch 's']))) (withSign neg (ti : ℤ)) := by
  obtain ⟨d, ds', hd, hdigit⟩ := hds.head
  have hmax : tempMax .int64 = 18446744073709551615 := by decide
  have hmin : IntType.min .int64 = -9223372036854775808 := by decide
  have hle : moreDigits n fs ≤ moreDigits n fs * 10 ^ (6 - (fs.length + k)) :=
    Nat.le_mul_of_pos_right _ (Nat.pow_pos (by decide))
  have hdone := timeParse_unit (signOf neg) hds hfrac hlen hk hc (by omega) rfl
  have hbody : ds ++ (frac ++ [ch ' ', c, ch 's']) = d :: (ds' ++ (frac ++ [ch ' ', c, ch 's'])) := by
    rw [hd]
    rfl
  have hlast : (ds ++ (frac ++ [ch ' ', c, ch 's']))[(ds ++ (frac ++ [ch ' ', c, ch 's'])).length - 1]? = some (ch 's') := by
    rw [← List.getLast?_eq_getElem?]
    simp
  apply strToTimeInterval_of_done hbody hdigit rfl hdone
  · rw [timeMakeResult, hdone.makeResult_eq hscale (by omega), hti]
    simp only [bind, Except.bind]
    rw [if_pos hlast]
    rfl
  · rw [hmin]
    cases neg <;> simp only [withSign, Bool.false_eq_true, if_false, if_true] <;> omega

/-! ### Back -/

/-- Where the hours and the minutes of a `TimeInterval` come from. -/
def printedSeconds (secs : ℕ) : ℕ :=
  ((secs / 86400 * 24 + secs % 2 ^ 32 / (60 * 60) % 24) * 60 + secs % 2 ^ 32 / 60 % 60) * 60 + secs % 60

/-- Less than 675 times 2^32 seconds are never close to whole days. -/
theorem no_whole_days {a b x y k : ℕ} (hx : x < 60) (hy : y < 60) (hk : k < 675)
    (h : 86400 * b + y = 4294967296 * k + 86400 * a + x) : k = 0 := by
  omega

theorem minuteOfDay_eq (t : ℕ) : t / (60 * 60) % 24 * 60 + t / 60 % 60 = t / 60 % 1440 := by
  rw [← Nat.div_div_eq_div_mul]
  omega

theorem seconds_parts (t : ℕ) : 86400 * (t / 86400) + 60 * (t / 60 % 1440) + t % 60 = t := by
  omega

theorem printedSeconds_eq_iff {secs : ℕ} (h : secs < 9000000 * 86400) : printedSeconds secs = secs ↔ secs < 2 ^ 32 := by
  rw [printedSeconds]
  constructor
  · intro heq
    have hparts : 4294967296 * (secs / 2 ^ 32) + secs % 2 ^ 32 = secs := Nat.div_add_mod _ _
    have hk : secs / 2 ^ 32 < 675 := by omega
    have hminutes := minuteOfDay_eq (secs % 2 ^ 32)
    have hseconds := seconds_parts (secs % 2 ^ 32)
    have hdays : 86400 * (secs / 86400) + secs % 60 =
        4294967296 * (secs / 2 ^ 32) + 86400 * (secs % 2 ^ 32 / 86400) + secs % 2 ^ 32 % 60 := by
      generalize secs % 2 ^ 32 = t at hparts hminutes hseconds heq ⊢
      generalize t / (60 * 60) % 24 = hh at hminutes heq
      generalize t / 60 % 60 = mm at hminutes heq
      linarith
    have hzero := no_whole_days (Nat.mod_lt _ (by decide)) (Nat.mod_lt _ (by decide)) hk hdays
    exact (Nat.div_eq_zero_iff_lt (by decide)).mp hzero
  · intro hlt
    rw [Nat.mod_eq_of_lt hlt]
    omega

/-- From a second on, what is read are the seconds as they were printed. -/
theorem strTo_toStrRevTimeIntervalAbs (ti : ℕ) (neg : Bool) (hsecs : 0 < ti / 1000000)
    (hlt : ti < 9000000 * 86400 * 1000000) :
    TimeComesBack (signText neg ++ toStrRevTimeIntervalAbs ti)
      (withSign neg ((printedSeconds (ti / 1000000) * 1000000 + ti % 1000000 : ℕ) : ℤ)) := by
  have hneg : Negates fun v => -v := fun v _ _ => rfl
  have hmin : int64.min = -9223372036854775808 := by decide
  have hmax : int64.max = 9223372036854775807 := by decide
  have hnull : origNull .int64 = -9223372036854775808 := by decide
  obtain ⟨ds, frac, fs, htext, hds, hfrac, -, hus⟩ := decimal_number .int64 (le_refl 6) (ti % 60000000)
    (by rw [hnull]; omega) (by rw [Fits, hmin, hmax]; omega) hneg (by rw [hmin]; omega)
  have hss : ti % 60000000 / 10 ^ 6 = ti / 1000000 % 60 := by omega
  have hmicro : ti % 60000000 % 10 ^ 6 = ti % 1000000 := by omega
  rw [hss] at hds
  rw [hmicro] at hus
  obtain ⟨text, hprinted, hclock⟩ := clock_toStrRevTimeIntervalHHMM hds (by omega) frac (ti / 1000000 % 2 ^ 32)
  have hbody : TimeText (toStrRevTimeIntervalAbs ti) (ti / 1000000 / 86400 * kDivHHMMSS +
      ((ti / 1000000 % 2 ^ 32 / (60 * 60) % 24 * 100 + ti / 1000000 % 2 ^ 32 / 60 % 60) * 100 + ti / 1000000 % 60)) fs := by
    rw [toStrRevTimeIntervalAbs]
    dsimp only
    rw [if_pos hsecs, htext, hprinted]
    split
    next hdays => exact .days (number_uintToStr _) hclock hfrac
    next hdays =>
      have hzero : ti / 1000000 / 86400 = 0 := by omega
      rw [hzero, Nat.zero_mul, Nat.zero_add]
      exact .clock hclock hfrac
  exact hbody.strTo_clock (ti % 1000000) neg (by omega) (by omega) (by omega) (by omega) (by omega) hus

/-- Below a second. -/
theorem strTo_toStrRevTimeIntervalAbs_unit (ti : ℕ) (neg : Bool) (hsecs : ti / 1000000 = 0) :
    TimeComesBack (signText neg ++ toStrRevTimeIntervalAbs ti) (withSign neg (ti : ℤ)) := by
  rw [toStrRevTimeIntervalAbs]
  dsimp only
  rw [if_neg (by omega)]
  split
  · split
    next hms =>
      have hneg : Negates fun v => -v := fun v _ _ => rfl
      have hmin : int64.min = -9223372036854775808 := by decide
      have hmin32 : uint32.min = 0 := by decide
      have hmax : uint32.max = 4294967295 := by decide
      have hnull : origNull .uint32 = 4294967295 := by decide
      obtain ⟨ds, frac, fs, htext, hds, hfrac, hlen, hus⟩ := decimal_number .uint32 (Nat.le_add_left 3 3) ti
        (by rw [hnull]; omega) (by rw [Fits, hmin32, hmax]; omega) hneg (by rw [hmin]; omega)
      have hvalue : moreDigits (ti / 10 ^ 3) fs * 10 ^ (6 - (fs.length + 3)) = ti := by
        have hexp : 6 - (fs.length + 3) = 3 - fs.length := by omega
        rw [hexp, moreDigits_eq, Nat.add_mul, Nat.mul_assoc, ← pow_add, Nat.add_sub_cancel' hlen, hus]
        omega
      have hscale : fs.length + 3 ≤ 6 := by omega
      rw [htext, append_assoc]
      exact strTo_unit neg hds hfrac hlen rfl (by decide) hscale hvalue (by omega)
    next hus =>
      have hvalue : moreDigits ti [] * 10 ^ (6 - (([] : Bytes).length + 6)) = ti := Nat.mul_one ti
      exact strTo_unit neg (number_uintToStr ti) .none (Nat.zero_le _) rfl (by decide) (Nat.le_refl _) hvalue (by omega)
  next hzero =>
    have hti : ti = 0 := by omega
    subst hti
    cases neg <;> exact ⟨rfl, rfl⟩

/-- A `TimeInterval` of less than nine million days comes back from its text exactly below 2^32 seconds, and
a `DayTime` always. -/
theorem comesBack_toStrRev (value : ℤ) (h : value.natAbs < 9000000 * 86400 * 1000000) :
    (TimeComesBack (toStrRevTimeInterval value) value ↔ value.natAbs / 1000000 < 2 ^ 32) ∧
      TimeComesBack (toStrRevDayTime value) value := by
  have hnull : origNull .int64 = -9223372036854775808 := by decide
  have hne : value ≠ origNull .int64 := by
    rw [hnull]
    omega
  have hsign := withSign_natAbs value
  constructor
  · rw [toStrRevTimeInterval, if_neg hne]
    by_cases hsecs : 0 < value.natAbs / 1000000
    · have hread := strTo_toStrRevTimeIntervalAbs value.natAbs (value < 0) hsecs h
      have hsecsLt : value.natAbs / 1000000 < 9000000 * 86400 := by omega
      rw [← printedSeconds_eq_iff hsecsLt]
      constructor
      · intro hback
        have hsame := hread.1.symm.trans hback.1
        simp only [Except.ok.injEq, Option.some.injEq] at hsame
        have habs := hsame.trans hsign.symm
        by_cases hneg : value < 0
        · simp only [hneg, decide_true, withSign, if_true] at habs
          omega
        · simp only [hneg, decide_false, withSign, Bool.false_eq_true, if_false] at habs
          omega
      · intro hprinted
        have hall : value.natAbs / 1000000 * 1000000 + value.natAbs % 1000000 = value.natAbs := by omega
        rwa [hprinted, hall, hsign] at hread
    · have hunit := strTo_toStrRevTimeIntervalAbs_unit value.natAbs (value < 0) (by omega)
      rw [hsign] at hunit
      exact iff_of_true hunit (by omega)
  · obtain ⟨frac, fs, hfracText, hfrac, -, hus⟩ := fraction_putAutoPrecision (le_refl 6) value.natAbs
    have hmicro : value.natAbs % 10 ^ 6 < 1000000 := by omega
    have hdays : value.natAbs / 10 ^ 6 / 60 / 60 / 24 < 9000000 := by omega
    have hsecs : (((value.natAbs / 10 ^ 6 / 60 / 60 / 24 * 24 + value.natAbs / 10 ^ 6 / 60 / 60 % 24) * 60 +
        value.natAbs / 10 ^ 6 / 60 % 60) * 60 + value.natAbs / 10 ^ 6 % 60) * 1000000 + value.natAbs % 10 ^ 6 =
        value.natAbs := by omega
    have htext := timeText_toStrRevSecs (value.natAbs / 10 ^ 6) hfrac
    have hback := htext.strTo_clock (value.natAbs % 10 ^ 6) (value < 0) (by omega) (by omega) (by omega) hmicro hdays hus
    rw [hsecs, hsign] at hback
    rw [toStrRevDayTime, if_neg hne, hfracText]
    exact hback

/-- "-1-02:03:04.56789" -/
theorem comesBack_toStrRev_negative :
    TimeComesBack (toStrRevTimeInterval (-93784567890)) (-93784567890) ∧
      TimeComesBack (toStrRevDayTime (-93784567890)) (-93784567890) :=
  ⟨(comesBack_toStrRev (-93784567890) (by norm_num)).1.mpr (by norm_num), (comesBack_toStrRev (-93784567890) (by norm_num)).2⟩

/-- 2^32 seconds are 49710 days, 6 hours, 28 minutes and 16 seconds; they are printed as "49710-16". -/
theorem not_comesBack_toStrRev :
    ¬ ∀ value : ℤ, value.natAbs < 9000000 * 86400 * 1000000 →
      TimeComesBack (toStrRevTimeInterval value) value ∧ TimeComesBack (toStrRevDayTime value) value := by
  intro h
  have hback := (h 4294967296000000 (by norm_num)).1.1
  have hread := (strTo_toStrRevTimeIntervalAbs 4294967296000000 false (by norm_num) (by norm_num)).1
  have hprinted : printedSeconds (4294967296000000 / 1000000) = 4294944016 := by norm_num [printedSeconds]
  have htext : toStrRevTimeInterval 4294967296000000 = signText false ++ toStrRevTimeIntervalAbs 4294967296000000 := by
    rw [toStrRevTimeInterval, if_neg (by decide)]
    rfl
  rw [htext, hread, hprinted] at hback
  simp only [Except.ok.injEq, Option.some.injEq, withSign] at hback
  norm_num at hback

end Fon9.Num
