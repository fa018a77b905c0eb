import Fon9.Lib.Effect
import Fon9.Num.ToStr

/-! `StrTo` of a `TimeInterval`, a `DayTimeSec` and a `TimeZoneOffset`, and the text of seconds. A time is a number of
digits "dddhhmmss", or days and "hh:mm:ss"; what is left of a text goes along with the cursor. `NumPunct_Current` is
never changed, so that the decimal point is a '.'. -/

namespace Fon9.Num

open Bitv Lib List

def kDivHHMMSS : ℕ := 1000000

/-- Arithmetic of `uint64_t`. -/
def u64 (n : ℕ) : ℕ := n % 2 ^ 64

/-- `NaiveStrToUInt`: the number, and what is behind its digits. -/
def naiveStrToUInt (s : Bytes) : ℕ × Bytes :=
  ((s.takeWhile isdigit).foldl (fun res c => u64 (res * 10 + digval c)) 0, s.dropWhile isdigit)

/-! ### `StrToTimeIntervalAux` -/

structure TimeAux where
  dec : DecIntAux
  hasSplitter : Bool

section Parse

variable {σ : Type}

/-- `Current_` moves on to where `rest` begins. -/
def Parse.goTo (p : Parse σ) (rest : Bytes) : Parse σ :=
  { p with rest := rest, cur := p.cur.forward (p.rest.length - rest.length) }

/-- `FormatErrorAtCurrent` -/
def Parse.formatError (p : Parse σ) : Parse σ := { p with cur := { p.cur with origBegin := p.cur.current } }

end Parse

/-- `ParseUInt100` -/
def parseUInt100 (s : Bytes) (res : ℕ) : Option (ℕ × Bytes) :=
  match s.dropWhile isspace with
  | [] => none
  | c :: cs =>
    if isdigit c then
      let r := naiveStrToUInt (c :: cs)
      some (u64 (res * 100 + r.1), r.2)
    else none

variable (p : Parse TimeAux) (localOffset : ℤ) (str : Bytes)

/-- `CheckDecPoint`, with `SetPointPos`. -/
def checkDecPoint : Bool × Parse TimeAux :=
  if p.rest.head? = some (ch '.') then
    (true, { p with
      cur := { p.cur with expectEnd := min p.cur.expectEnd (p.cur.current + 6 + 1) }
      aux := { p.aux with dec := { p.aux.dec with pointPos := some p.cur.current } } })
  else (false, p)

/-- The end of `ParseMMSS`: the text behind the last number is `s`. -/
def endMMSS (days res : ℕ) (p : Parse TimeAux) (s : Bytes) : Bool × Parse TimeAux :=
  let p := { p.goTo s with res := u64 (days * kDivHHMMSS + res) }
  match s.dropWhile isspace with
  | [] => (false, p)
  | c :: cs => checkDecPoint (p.goTo (c :: cs))

/-- `ParseMMSS`, where "nn:" is `res`. -/
def parseMMSS (days res : ℕ) (p : Parse TimeAux) : Bool × Parse TimeAux :=
  match parseUInt100 p.rest res with
  | none => (false, p.formatError)
  | some (res, s) =>
    match s.dropWhile isspace with
    | [] => endMMSS days res p s
    | c :: cs =>
      if c = ch ':' then
        match parseUInt100 cs res with
        | none => (false, (p.goTo cs).formatError)
        | some (res, s) => endMMSS days res p s
      else endMMSS days res p s

/-- `ParseHHMMSS`, where the days are `p.res`. -/
def parseHHMMSS : Bool × Parse TimeAux :=
  let hms := naiveStrToUInt p.rest
  let p' := p.goTo hms.2
  let res := u64 (p.res * kDivHHMMSS + hms.1)
  match hms.2.dropWhile isspace with
  | [] => (false, { p' with res := res })
  | c :: cs =>
    if c = ch ':' then parseMMSS p.res hms.1 (p'.goTo cs)
    else
      let r := checkDecPoint (p'.goTo (c :: cs))
      (r.1, { r.2 with res := res })

/-- What the digits of "ms", "us" and "ns" are behind the point. -/
def suffixScale (c : UInt8) : Option ℤ :=
  if c = ch 'm' then some 3 else if c = ch 'u' then some 6 else if c = ch 'n' then some 9 else none

/-- `StrToTimeIntervalAux::IsValidChar` behind the one of its base, where a splitter may follow. -/
def timeSplitter : Bool × Parse TimeAux :=
  match (p.rest.take (p.cur.expectEnd - p.cur.current)).dropWhile isspace with
  | [] => (false, p)
  | c :: cs =>
    let at_ := p.rest.dropWhile isspace
    if cs.head? = some (ch 's') then
      let scale := if p.aux.dec.scale < 0 then 0 else p.aux.dec.scale
      let p := { p with aux := { p.aux with dec := { p.aux.dec with scale := scale } } }
      match suffixScale c with
      | none => (false, p)
      | some more =>
        (false, { p with aux := { p.aux with dec := { p.aux.dec with scale := scale + more } } }.goTo (at_.drop 2))
    else if p.aux.dec.pointPos.isSome then (false, p)
    else
      let p := { p with aux := { p.aux with hasSplitter := true } }
      if c = ch ':' then parseMMSS 0 p.res (p.goTo cs)
      else
        let digits := if c = ch '-' then cs.dropWhile isspace else c :: cs
        if (digits.head?.map isdigit).getD false then parseHHMMSS (p.goTo digits) else (false, p)

/-- `StrToTimeIntervalAux::IsValidChar`, at the character `c`. -/
def timeIsValidChar (c : UInt8) (p : Parse TimeAux) : Bool × Parse TimeAux :=
  let r := StrToDecIntAux.isValidChar (ch '.') 6 c p.cur p.aux.dec
  let p := { p with cur := r.2.1, aux := { p.aux with dec := r.2.2 } }
  if r.1 then (true, p)
  else if p.aux.hasSplitter then (false, p)
  else timeSplitter p

/-- `++cur.Current_` -/
def Parse.next {σ : Type} (p : Parse σ) : Parse σ := { p with rest := p.rest.tail, cur := p.cur.forward 1 }

/-- The loop of `RemoveFollowDigit`, at the character behind. -/
def timeRemoveFollowDigit : ℕ → Parse TimeAux → Parse TimeAux
  | 0, p => p
  | fuel + 1, p =>
    match p.rest with
    | [] => p
    | c :: _ =>
      if isdigit c then timeRemoveFollowDigit fuel p.next
      else
        let r := timeIsValidChar c p
        if r.1 then timeRemoveFollowDigit fuel r.2.next else r.2

def timeParseEnd : Parse TimeAux :=
  let q := StrToDecIntAux.onParseNormalEnd .int64 ⟨p.rest, p.cur, p.res, p.aux.dec⟩
  ⟨q.rest, q.cur, q.res, { p.aux with dec := q.aux }⟩

/-- The main loop of `StrToNum`. Each turn takes a character at least. -/
def timeParse : ℕ → Parse TimeAux → Parse TimeAux
  | 0, p => p
  | fuel + 1, p =>
    match p.rest with
    | [] => timeParseEnd p
    | c :: _ =>
      if p.cur.current < p.cur.expectEnd then
        if isdigit c then
          if p.res < tempMax .int64 / 10 ∨ (p.res = tempMax .int64 / 10 ∧ digval c ≤ tempMax .int64 % 10) then
            timeParse fuel { p.next with res := p.res * 10 + digval c }
          else
            let r := StrToDecIntAux.onOverflow .int64 6 c p.cur p.res p.aux.dec
            timeRemoveFollowDigit fuel { p.next with res := r.2.1, aux := { p.aux with dec := r.2.2 } }
        else
          let r := timeIsValidChar c p
          if r.1 then timeParse fuel r.2.next else r.2
      else timeParseEnd p

section Loop

variable (isValidChar : UInt8 → Parse TimeAux → Bool × Parse TimeAux)

/-- `RemoveFollowDigit`, for any `IsValidChar`. -/
def numRemoveFollowDigit : ℕ → Parse TimeAux → Parse TimeAux
  | 0, p => p
  | fuel + 1, p =>
    match p.rest with
    | [] => p
    | c :: _ =>
      if isdigit c then numRemoveFollowDigit fuel p.next
      else
        let r := isValidChar c p
        if r.1 then numRemoveFollowDigit fuel r.2.next else r.2

/-- The main loop of `StrToNum`, for any `IsValidChar`. -/
def numParse : ℕ → Parse TimeAux → Parse TimeAux
  | 0, p => p
  | fuel + 1, p =>
    match p.rest with
    | [] => timeParseEnd p
    | c :: _ =>
      if p.cur.current < p.cur.expectEnd then
        if isdigit c then
          if p.res < tempMax .int64 / 10 ∨ (p.res = tempMax .int64 / 10 ∧ digval c ≤ tempMax .int64 % 10) then
            numParse fuel { p.next with res := p.res * 10 + digval c }
          else
            let r := StrToDecIntAux.onOverflow .int64 6 c p.cur p.res p.aux.dec
            numRemoveFollowDigit isValidChar fuel { p.next with res := r.2.1, aux := { p.aux with dec := r.2.2 } }
        else
          let r := isValidChar c p
          if r.1 then numParse fuel r.2.next else r.2
      else timeParseEnd p

end Loop

theorem timeRemoveFollowDigit_eq (fuel : ℕ) (p : Parse TimeAux) :
    timeRemoveFollowDigit fuel p = numRemoveFollowDigit timeIsValidChar fuel p := by
  induction fuel generalizing p with
  | zero => rfl
  | succ fuel ih => simp only [timeRemoveFollowDigit, numRemoveFollowDigit, ih]

theorem timeParse_eq (fuel : ℕ) (p : Parse TimeAux) : timeParse fuel p = numParse timeIsValidChar fuel p := by
  induction fuel generalizing p with
  | zero => rfl
  | succ fuel ih => simp only [timeParse, numParse, ih, timeRemoveFollowDigit_eq]

/-- The microseconds of "dddhhmmss" and a fraction. -/
def hhmmssToMicroseconds (v : ℕ) : ℕ :=
  let hhmmss := v / 1000000 % kDivHHMMSS
  let secs := v / 1000000 / kDivHHMMSS * 86400 + (hhmmss / 10000 * 60 + hhmmss / 100 % 100) * 60 + hhmmss % 100
  v % 1000000 + secs * 1000000

/-- `StrToTimeIntervalAux::MakeResult`; `last` is the character before `Current_`. The smallest value has no negative. -/
def timeMakeResult (last : Option UInt8) (res : ℕ) (dec : DecIntAux) : Except AdjustError ℤ := do
  let retval ← StrToDecIntAux.makeResult .int64 6 res dec
  if last = some (ch 's') then return retval
  else if retval = IntType.min .int64 then .error .undefined
  else if retval < 0 then return -hhmmssToMicroseconds retval.natAbs
  else return hhmmssToMicroseconds retval.natAbs

/-- `StrTo` of a `TimeInterval`; `none` is `Null()`. -/
def strToTimeInterval : Except AdjustError (Option ℤ) :=
  match str.dropWhile isspace with
  | [] => .ok none
  | c :: cs =>
    let sign := StrToDecIntAux.checkSign .int64 c
    let body := if sign.1 then cs.dropWhile isspace else c :: cs
    if body = [] then .ok none
    else
      let p := timeParse (body.length + 1) ⟨body, ⟨0, body.length, 0⟩, 0, ⟨sign.2, false⟩⟩
      if p.cur.current = p.cur.origBegin then .ok none
      else do
        let ti ← timeMakeResult (body[p.cur.current - 1]?) p.res p.aux.dec
        return if ti = IntType.min .int64 then none else some ti

/-- What the `endptr` of `StrTo` of a `TimeInterval` points to. -/
def strToTimeIntervalRest : Bytes :=
  match str.dropWhile isspace with
  | [] => []
  | c :: cs =>
    let sign := StrToDecIntAux.checkSign .int64 c
    let body := if sign.1 then cs.dropWhile isspace else c :: cs
    (timeParse (body.length + 1) ⟨body, ⟨0, body.length, 0⟩, 0, ⟨sign.2, false⟩⟩).rest

/-- `StrTo` of a `DayTimeSec`: the seconds, cast to `uint32_t`. -/
def strToDayTimeSec (nullValue : ℕ) : Except AdjustError ℕ := do
  match ← strToTimeInterval str with
  | none => return nullValue
  | some ti => return (ti.tdiv 1000000 % 2 ^ 32).toNat

/-! ### `TimeZoneOffset::StrToAux` -/

/-- `GetTimeZoneOffsetByName`, in minutes: "TW", or "L" for `GetLocalTimeZoneOffset`. -/
def getTimeZoneOffsetByName (tzName : Bytes) : ℤ :=
  if tzName = [ch 'T', ch 'W'] then 8 * 60
  else if tzName = [ch 'L'] then localOffset
  else 0

/-- The name of a time zone goes to the quotation mark, or to a blank. -/
def timeZoneName (c : UInt8) (cs : Bytes) : Bytes :=
  if c = ch '\'' then cs.takeWhile (· ≠ ch '\'') else c :: cs.takeWhile fun c => !isspace c

/-- The minutes of "hhmm". -/
def hhmmToMinutes (res : ℕ) : ℕ := res / 100 * 60 + res % 100

/-- `IsValidChar` at the character `c`, and `MakeResult`; `none` where the format is wrong. -/
def timeZoneEnd (p : Parse Negative) (c : UInt8) (cs : Bytes) : Option ℤ :=
  if p.cur.current = p.cur.origBegin then
    let tz := getTimeZoneOffsetByName localOffset (timeZoneName c cs)
    some (StrToSIntAux.makeResult .int32 tz.natAbs (if 0 ≤ tz then .isPositive else .isNegative))
  else if 3 ≤ p.cur.current - p.cur.origBegin then some (StrToSIntAux.makeResult .int32 (hhmmToMinutes p.res) p.aux)
  else
    match (c :: cs).dropWhile isspace with
    | [] => some (StrToSIntAux.makeResult .int32 (p.res * 60) p.aux)
    | c :: cs =>
      if c = ch ':' then
        let mins := cs.dropWhile isspace
        if (mins.head?.map isdigit).getD false then
          some (StrToSIntAux.makeResult .int32 ((p.res * 60 + (naiveStrToUInt mins).1) % 2 ^ 32) p.aux)
        else none
      else some (StrToSIntAux.makeResult .int32 (p.res * 60) p.aux)

/-- `StrTo` of a `TimeZoneOffset`, in minutes. -/
def strToTimeZoneOffset : ℤ :=
  match str.dropWhile isspace with
  | [] => 0
  | c :: cs =>
    let sign := StrToSIntAux.checkSign c
    let body := if sign.1 then cs.dropWhile isspace else c :: cs
    if body = [] then 0
    else
      let p := parse (strToIntAux .int32) body ⟨0, body.length, 0⟩ 0 sign.2
      match p.rest with
      | [] =>
        let res := if p.cur.current - p.cur.origBegin ≤ 2 then p.res * 60 else hhmmToMinutes p.res
        StrToSIntAux.makeResult .int32 res p.aux
      | c :: cs => (timeZoneEnd localOffset p c cs).getD 0

/-! ### The text of seconds -/

/-- `Pic9ToStrRev<2>` -/
def pic9ToStr2 (n : ℕ) : Bytes := [digch (n / 10 % 10), digch (n % 10)]

/-- `ToStrRevSecs`: "days-hh:mm:ss" -/
def toStrRevSecs (secs : ℕ) : Bytes :=
  let days := secs / 60 / 60 / 24
  (if 0 < days then uintToStr days ++ [ch '-'] else []) ++
    (pic9ToStr2 (secs / 60 / 60 % 24) ++ ch ':' :: (pic9ToStr2 (secs / 60 % 60) ++ ch ':' :: pic9ToStr2 (secs % 60)))

example : toStrRevSecs (26 * 3600) = [ch '1', ch '-', ch '0', ch '2', ch ':', ch '0', ch '0', ch ':', ch '0', ch '0'] := by
  decide

/-! ### Numbers, a clock and a fraction -/

section RoundTrip

variable {m n v res days fuel : ℕ} {c : UInt8} {ds x y frac fs rest text : Bytes} {p q : Parse TimeAux}
  {r : Bool × Parse TimeAux} {neg : Bool}

theorem digits_pic9ToStr2 (n : ℕ) : Digits (pic9ToStr2 n) := by
  intro c hc
  have h1 : n / 10 % 10 ≤ 9 := by omega
  have h2 : n % 10 ≤ 9 := by omega
  rw [isdigit_iff]
  simp only [pic9ToStr2, List.mem_cons, not_mem_nil, or_false] at hc
  rcases hc with rfl | rfl
  · rwa [digval_digch h1]
  · rwa [digval_digch h2]

theorem isspace_of_isdigit {c : UInt8} (h : isdigit c = true) : isspace c = false := (not_sign_of_isdigit c h).1

theorem u64_of_lt (h : n < 2 ^ 64) : u64 n = n := Nat.mod_eq_of_lt h

theorem moreDigits_numeral {ds : List ℕ} (h : ∀ d ∈ ds, d ≤ 9) (res : ℕ) :
    moreDigits res (ds.map digch) = Lib.Numeral.eval 10 res ds := by
  induction ds generalizing res with
  | nil => rfl
  | cons d ds ih =>
    rw [map_cons, moreDigits_cons, digval_digch (h d mem_cons_self)]
    exact ih (fun e he => h e (mem_cons_of_mem d he)) (res * 10 + d)

theorem digitsValue_uintToStr (n : ℕ) : digitsValue (uintToStr n) = n := by
  have hds : ∀ d ∈ Lib.Numeral.numeral 10 n, d ≤ 9 := fun d hd =>
    Nat.le_of_lt_succ (Lib.Numeral.lt_of_mem_numeral (by decide) hd)
  rw [← moreDigits_zero, uintToStr, moreDigits_numeral hds, Lib.Numeral.eval_numeral]

theorem digitsValue_pic9ToStr2 (h : n < 100) : digitsValue (pic9ToStr2 n) = n := by
  have hds : ∀ d ∈ [n / 10 % 10, n % 10], d ≤ 9 := by
    intro d hd
    simp only [List.mem_cons, not_mem_nil, or_false] at hd
    omega
  have hvalue : moreDigits 0 ([n / 10 % 10, n % 10].map digch) = (0 * 10 + n / 10 % 10) * 10 + n % 10 :=
    moreDigits_numeral hds 0
  show moreDigits 0 ([n / 10 % 10, n % 10].map digch) = n
  rw [hvalue]
  omega

/-- Digits, and the number that they are. -/
structure Number (ds : Bytes) (n : ℕ) : Prop where
  digits : Digits ds
  ne_nil : ds ≠ []
  value_eq : digitsValue ds = n

theorem number_pic9ToStr2 (h : n < 100) : Number (pic9ToStr2 n) n :=
  ⟨digits_pic9ToStr2 n, cons_ne_nil _ _, digitsValue_pic9ToStr2 h⟩

theorem number_uintToStr (n : ℕ) : Number (uintToStr n) n :=
  ⟨fun _ hc => isdigit_iff.mpr (digval_le_of_mem_uintToStr hc), uintToStr_ne_nil n, digitsValue_uintToStr n⟩

theorem Number.head (h : Number ds n) : ∃ d ds', ds = d :: ds' ∧ isdigit d = true := by
  obtain ⟨d, ds', rfl⟩ := exists_cons_of_ne_nil h.ne_nil
  exact ⟨d, ds', rfl, h.digits d mem_cons_self⟩

/-- A number has no blanks in front. -/
theorem Number.dropWhile_isspace (h : Number ds n) (rest : Bytes) : (ds ++ rest).dropWhile isspace = ds ++ rest := by
  obtain ⟨d, ds', rfl, hd⟩ := h.head
  rw [cons_append, dropWhile_cons_of_neg (by simp [isspace_of_isdigit hd])]

theorem foldl_u64 (h : moreDigits res ds < 2 ^ 64) :
    ds.foldl (fun res c => u64 (res * 10 + digval c)) res = moreDigits res ds := by
  induction ds generalizing res with
  | nil => rfl
  | cons c ds ih =>
    rw [moreDigits_cons] at h
    rw [foldl_cons, u64_of_lt ((le_moreDigits _ ds).trans_lt h), ih h, moreDigits_cons]

theorem naiveStrToUInt_number (h : Number ds n) (hn : n < 2 ^ 64) (hrest : StopsHere rest) :
    naiveStrToUInt (ds ++ rest) = (n, rest) := by
  have hvalue : moreDigits 0 ds = n := h.value_eq
  rw [naiveStrToUInt, takeWhile_digits h.digits hrest, dropWhile_digits h.digits hrest, foldl_u64 (by rwa [hvalue]), hvalue]

theorem parseUInt100_number (h : Number ds n) (hn : n < 2 ^ 64) (hrest : StopsHere rest) (res : ℕ) :
    parseUInt100 (ds ++ rest) res = some (u64 (res * 100 + n), rest) := by
  have hnumber := naiveStrToUInt_number h hn hrest
  have hblanks := h.dropWhile_isspace rest
  obtain ⟨d, ds', rfl, hd⟩ := h.head
  rw [parseUInt100, hblanks]
  rw [cons_append] at hnumber ⊢
  dsimp only
  rw [if_pos hd, hnumber]

theorem stopsHere_cons (h : isdigit c = false) (rest : Bytes) : StopsHere (c :: rest) := by
  intro c' hc
  cases hc
  exact h

/-- Behind the seconds: nothing, or a point and some digits. -/
inductive Fraction : Bytes → Bytes → Prop
  | none : Fraction [] []
  | point {fs : Bytes} (hfs : Digits fs) (hlen : fs.length ≤ 6) : Fraction (ch '.' :: fs) fs

theorem Fraction.stopsHere (h : Fraction frac fs) : StopsHere frac := by
  cases h with
  | none =>
    intro c hc
    cases hc
  | point => exact stopsHere_cons (by decide) _

theorem Fraction.length_le (h : Fraction frac fs) : fs.length ≤ frac.length := by
  cases h <;> simp

theorem Fraction.dropWhile_isspace (h : Fraction frac fs) : frac.dropWhile isspace = frac := by
  cases h with
  | none => rfl
  | point => exact dropWhile_cons_of_neg (by decide)

/-- "ss", "mm:ss" or "hh:mm:ss", as the number hhmmss. -/
inductive Clock : Bytes → ℕ → Prop
  | ss {z : Bytes} {ss : ℕ} (hz : Number z ss) (hss : ss < 100) : Clock z ss
  | mmss {y z : Bytes} {mm ss : ℕ} (hy : Number y mm) (hz : Number z ss) (hmm : mm < 100) (hss : ss < 100) :
      Clock (y ++ ch ':' :: z) (mm * 100 + ss)
  | hhmmss {x y z : Bytes} {hh mm ss : ℕ} (hx : Number x hh) (hy : Number y mm) (hz : Number z ss) (hhh : hh < 100)
      (hmm : mm < 100) (hss : ss < 100) : Clock (x ++ ch ':' :: (y ++ ch ':' :: z)) ((hh * 100 + mm) * 100 + ss)

theorem Clock.lt (h : Clock text v) : v < 1000000 := by
  cases h <;> omega

theorem Clock.head (h : Clock text v) : ∃ d text', text = d :: text' ∧ isdigit d = true := by
  cases h with
  | ss hz => exact hz.head
  | mmss hy =>
    obtain ⟨d, y', rfl, hd⟩ := hy.head
    exact ⟨d, _, rfl, hd⟩
  | hhmmss hx =>
    obtain ⟨d, x', rfl, hd⟩ := hx.head
    exact ⟨d, _, rfl, hd⟩

/-! ### The parse of a clock -/

theorem goTo_goTo {σ : Type} (p : Parse σ) {s t : Bytes} (hs : s.length ≤ p.rest.length) (ht : t.length ≤ s.length) :
    (p.goTo s).goTo t = p.goTo t := by
  simp only [Parse.goTo, forward_forward]
  congr 2
  omega

theorem endMMSS_goTo {s t : Bytes} (hs : s.length ≤ p.rest.length) (ht : t.length ≤ s.length) :
    endMMSS days res (p.goTo s) t = endMMSS days res p t := by
  rw [endMMSS, endMMSS, goTo_goTo p hs ht]

/-- "ss", where "nn:" is `res`. -/
theorem parseMMSS_ss (hx : Number x n) (hn : n < 100) (hfrac : Fraction frac fs) (h : p.rest = x ++ frac) :
    parseMMSS days res p = endMMSS days (u64 (res * 100 + n)) p frac := by
  rw [parseMMSS, h, parseUInt100_number hx (by omega) hfrac.stopsHere]
  dsimp only
  cases hfrac with
  | none => rfl
  | point =>
    rw [dropWhile_cons_of_neg (by decide)]
    dsimp only
    rw [if_neg (by decide)]

/-- "mm:ss" -/
theorem parseMMSS_mmss (hx : Number x m) (hy : Number y n) (hm : m < 100) (hn : n < 100) (hfrac : Fraction frac fs)
    (h : p.rest = x ++ ch ':' :: (y ++ frac)) :
    parseMMSS days res p = endMMSS days (u64 (u64 (res * 100 + m) * 100 + n)) p frac := by
  rw [parseMMSS, h, parseUInt100_number hx (by omega) (stopsHere_cons (by decide) _)]
  dsimp only
  rw [dropWhile_cons_of_neg (by decide)]
  dsimp only
  rw [if_pos rfl, parseUInt100_number hy (by omega) hfrac.stopsHere]

/-- What is behind the days. -/
theorem parseHHMMSS_clock (h : Clock text v) (hfrac : Fraction frac fs) (hrest : p.rest = text ++ frac) :
    parseHHMMSS p = endMMSS p.res v p frac := by
  cases h with
  | ss hz hss =>
    rw [parseHHMMSS, hrest, naiveStrToUInt_number hz (by omega) hfrac.stopsHere]
    dsimp only
    rw [endMMSS, hfrac.dropWhile_isspace]
    cases hfrac with
    | none => rfl
    | point =>
      dsimp only
      rw [if_neg (by decide)]
      simp [checkDecPoint, Parse.goTo]
  | @mmss y z mm ss hy hz hmm hss =>
    rw [append_assoc, cons_append] at hrest
    have hlen : (ch ':' :: (z ++ frac)).length ≤ p.rest.length := by
      rw [hrest, length_append]
      omega
    rw [parseHHMMSS, hrest, naiveStrToUInt_number hy (by omega) (stopsHere_cons (by decide) _)]
    dsimp only
    rw [dropWhile_cons_of_neg (by decide)]
    dsimp only
    rw [if_pos rfl, goTo_goTo p hlen (Nat.le_succ _), parseMMSS_ss hz hss hfrac rfl, endMMSS_goTo (by simp [hrest]; omega)
      (by simp), u64_of_lt (by omega)]
  | @hhmmss x y z hh mm ss hx hy hz hhh hmm hss =>
    rw [append_assoc, cons_append, append_assoc, cons_append] at hrest
    have hlen : (ch ':' :: (y ++ ch ':' :: (z ++ frac))).length ≤ p.rest.length := by
      rw [hrest, length_append]
      omega
    rw [parseHHMMSS, hrest, naiveStrToUInt_number hx (by omega) (stopsHere_cons (by decide) _)]
    dsimp only
    rw [dropWhile_cons_of_neg (by decide)]
    dsimp only
    rw [if_pos rfl, goTo_goTo p hlen (Nat.le_succ _), parseMMSS_mmss hy hz hmm hss hfrac rfl,
      endMMSS_goTo (by simp [hrest]; omega) (by simp; omega), u64_of_lt (n := hh * 100 + mm) (by omega), u64_of_lt (by omega)]

/-- The text is read to its end from here on. -/
structure Reads (p : Parse TimeAux) : Prop where
  expectEnd_eq : p.cur.expectEnd = p.cur.current + p.rest.length
  pointPos_eq : p.aux.dec.pointPos = none
  scale_eq : p.aux.dec.scale = -1
  hasSplitter_eq : p.aux.hasSplitter = false

theorem Reads.avail (h : Reads p) : p.rest.take (p.cur.expectEnd - p.cur.current) = p.rest := by
  rw [h.expectEnd_eq, Nat.add_sub_cancel_left, take_length]

/-- From `p`, the parse has come to the fraction with the number `res`. -/
structure Comes (p : Parse TimeAux) (frac : Bytes) (res : ℕ) (negative : Negative) (r : Bool × Parse TimeAux) : Prop where
  goes_eq : r.1 = !frac.isEmpty
  rest_eq : r.2.rest = frac
  current_eq : r.2.cur.current + frac.length = p.cur.current + p.rest.length
  origBegin_eq : r.2.cur.origBegin = p.cur.origBegin
  expectEnd_eq : r.2.cur.expectEnd = p.cur.current + p.rest.length
  res_eq : r.2.res = res
  negative_eq : r.2.aux.dec.negative = negative
  scale_eq : r.2.aux.dec.scale = -1
  pointPos_eq : frac ≠ [] → r.2.aux.dec.pointPos = some r.2.cur.current

/-- The end of the seconds, where the text is gone into up to `s`. -/
theorem endMMSS_comes (days res : ℕ) {s : Bytes} (hasSplitter : Bool) (h : Reads p) (hfrac : Fraction frac fs)
    (hs : frac.length ≤ s.length) (hsp : s.length ≤ p.rest.length) :
    Comes p frac (u64 (days * kDivHHMMSS + res)) p.aux.dec.negative
      (endMMSS days res (({ p with aux := { p.aux with hasSplitter := hasSplitter } }).goTo s) frac) := by
  obtain ⟨hend, hpoint, hscale, -⟩ := h
  have hback : endMMSS days res (({ p with aux := { p.aux with hasSplitter := hasSplitter } }).goTo s) frac =
      endMMSS days res { p with aux := { p.aux with hasSplitter := hasSplitter } } frac := endMMSS_goTo hsp hs
  rw [hback, endMMSS, hfrac.dropWhile_isspace]
  cases hfrac with
  | none =>
    dsimp only
    constructor <;> simp [Parse.goTo, hend, hscale]
  | @point fs hfs hlen =>
    rw [length_cons] at hs
    dsimp only
    simp only [checkDecPoint, Parse.goTo, List.head?_cons, if_true]
    constructor <;> simp [hscale, hend] <;> omega

theorem timeIsValidChar_splitter (h : Reads p) (hc : c ≠ ch '.') : timeIsValidChar c p = timeSplitter p := by
  obtain ⟨rest, cur, res, dec, hasSplitter⟩ := p
  obtain ⟨-, hpoint, -, hsplitter⟩ := h
  dsimp only at hpoint hsplitter
  rw [timeIsValidChar, StrToDecIntAux.isValidChar]
  dsimp only
  rw [hpoint]
  dsimp only
  rw [if_pos hc, hsplitter]
  rfl

variable {cs : Bytes} {d : UInt8}

/-- A time begins with a digit. -/
theorem head_ne_of_digit (hd : isdigit d = true) (hc : isdigit c = false) :
    (d :: cs).head? ≠ some c := by
  rintro heq
  cases heq
  rw [hd] at hc
  cases hc

/-- "." behind the seconds alone -/
theorem timeIsValidChar_point (h : Reads p) (hlen : fs.length ≤ 6) (hrest : p.rest = ch '.' :: fs) :
    Comes p (ch '.' :: fs) p.res p.aux.dec.negative (timeIsValidChar (ch '.') p) := by
  obtain ⟨hend, hpoint, hscale, hsplitter⟩ := h
  rw [hrest, length_cons] at hend
  rw [timeIsValidChar, StrToDecIntAux.isValidChar, hpoint]
  dsimp only
  rw [if_neg (not_not.mpr rfl)]
  simp only [if_true]
  constructor <;> simp [hrest, hscale, hend]
  omega

/-- ":", where the number in front is the hours or the minutes. -/
theorem timeIsValidChar_colon (h : Reads p) (hd : isdigit d = true) (hrest : p.rest = ch ':' :: d :: cs) :
    timeIsValidChar (ch ':') p =
      parseMMSS 0 p.res (({ p with aux := { p.aux with hasSplitter := true } }).goTo (d :: cs)) := by
  rw [timeIsValidChar_splitter h (by decide), timeSplitter, h.avail, hrest, dropWhile_cons_of_neg (by decide)]
  dsimp only
  rw [if_neg (head_ne_of_digit hd (by decide)), h.pointPos_eq, ← hrest]
  simp only [Option.isSome_none, Bool.false_eq_true, if_false, if_true]

/-- "-" and a clock, where the number in front is the days. -/
theorem timeIsValidChar_days (h : Reads p) (hclock : Clock text v) (hfrac : Fraction frac fs)
    (hrest : p.rest = ch '-' :: (text ++ frac)) :
    Comes p frac (u64 (p.res * kDivHHMMSS + v)) p.aux.dec.negative (timeIsValidChar (ch '-') p) := by
  obtain ⟨d, text', hhead, hd⟩ := hclock.head
  have hdigits : ((text ++ frac).head?.map isdigit).getD false = true := by
    rw [hhead]
    exact hd
  have hblanks : (text ++ frac).dropWhile isspace = text ++ frac := by
    rw [hhead, cons_append, dropWhile_cons_of_neg (by simp [isspace_of_isdigit hd])]
  have hs : (text ++ frac).head? ≠ some (ch 's') := by
    rw [hhead]
    exact head_ne_of_digit hd (by decide)
  rw [timeIsValidChar_splitter h (by decide), timeSplitter, h.avail, hrest, dropWhile_cons_of_neg (by decide)]
  dsimp only
  rw [if_neg hs, h.pointPos_eq]
  simp only [Option.isSome_none, Bool.false_eq_true, if_false, if_true]
  rw [if_neg (by decide), hblanks, if_pos hdigits, parseHHMMSS_clock hclock hfrac rfl, ← hrest]
  exact endMMSS_comes _ _ _ h hfrac (by simp) (by simp [hrest])

/-! ### The parse of a time -/

variable {valid : UInt8 → Parse TimeAux → Bool × Parse TimeAux} {negative : Negative} {body : Bytes} {j : ℕ}

theorem numParse_digits (valid : UInt8 → Parse TimeAux → Bool × Parse TimeAux) {p : Parse TimeAux} {ds rest : Bytes}
    (hds : Digits ds) (fuel : ℕ) (hrest : p.rest = ds ++ rest)
    (hend : p.cur.current + ds.length ≤ p.cur.expectEnd) (hfits : moreDigits p.res ds ≤ tempMax .int64) :
    numParse valid (ds.length + fuel) p =
      numParse valid fuel { p with rest := rest, cur := p.cur.forward ds.length, res := moreDigits p.res ds } := by
  induction ds generalizing p with
  | nil =>
    rw [nil_append] at hrest
    subst hrest
    rw [length_nil, Nat.zero_add]
    rfl
  | cons c ds ih =>
    have hc : isdigit c = true := hds c mem_cons_self
    have hfit : p.res * 10 + digval c ≤ tempMax .int64 := (le_moreDigits _ ds).trans hfits
    rw [length_cons] at hend ⊢
    rw [Nat.succ_add, numParse, hrest, cons_append]
    dsimp only
    rw [if_pos (by omega), if_pos hc, if_pos ((strToNum_fits_iff (isdigit_iff.mp hc)).mpr hfit),
      ih fun d hd => hds d (mem_cons_of_mem c hd)]
    · show numParse valid fuel _ = numParse valid fuel _
      congr 1
      simp only [Parse.next, forward_forward, Nat.add_comm 1, moreDigits_cons]
    · rw [Parse.next, hrest]
      rfl
    · show p.cur.current + 1 + ds.length ≤ p.cur.expectEnd
      omega
    · exact hfits

/-- From `p` all the text has been read, as the number `res` with `scale` digits behind the point. -/
structure Done (p : Parse TimeAux) (res scale : ℕ) (negative : Negative) (q : Parse TimeAux) : Prop where
  rest_eq : q.rest = []
  current_eq : q.cur.current = p.cur.current + p.rest.length
  origBegin_eq : q.cur.origBegin = p.cur.origBegin
  res_eq : q.res = res
  negative_eq : q.aux.dec.negative = negative
  scale_eq : (if q.aux.dec.scale < 0 then 0 else q.aux.dec.scale.toNat) = scale

/-- From the fraction on. -/
theorem Comes.done (h : Comes p frac res negative r) (hfrac : Fraction frac fs) (hfuel : fs.length < fuel)
    (hfits : moreDigits res fs ≤ tempMax .int64) (hq : (if r.1 then numParse valid fuel r.2.next else r.2) = q) :
    Done p (moreDigits res fs) fs.length negative q ∧ (frac ≠ [] → q.aux.dec.pointPos ≠ none) := by
  subst hq
  obtain ⟨goes, q⟩ := r
  obtain ⟨hgoes, hrest, hcurrent, hbegin, hend, hres, hneg, hscale, hpoint⟩ := h
  dsimp only at hgoes hrest hcurrent hbegin hend hres hneg hscale hpoint ⊢
  subst hgoes
  cases hfrac with
  | none =>
    refine ⟨?_, fun hne => absurd rfl hne⟩
    constructor <;> simp [hrest, hbegin, hres, hneg, hscale, moreDigits]
    simpa using hcurrent
  | @point fs hfs hlen =>
    obtain ⟨fuel, rfl⟩ := Nat.exists_eq_add_of_lt hfuel
    have hpoint := hpoint (cons_ne_nil _ _)
    rw [length_cons] at hcurrent
    have hnext : q.next.rest = fs ++ [] := by simp [Parse.next, hrest]
    have hskip := numParse_digits valid hfs (fuel + 1) hnext
      (by simp only [Parse.next, forward_current, forward_expectEnd]; omega) (by simpa [Parse.next, hres] using hfits)
    rw [isEmpty_cons, Bool.not_false, if_pos rfl, Nat.add_assoc, hskip, numParse]
    dsimp only
    rw [timeParseEnd, StrToDecIntAux.onParseNormalEnd]
    have hcount : ((q.cur.current + 1 + fs.length : ℕ) : ℤ) - q.cur.current - 1 = fs.length := by omega
    simp only [Parse.next, hpoint, forward_current, hcount]
    refine ⟨?_, fun _ => Option.some_ne_none _⟩
    constructor <;> simp [hbegin, hres, hneg]
    omega

/-- The parse of what is behind the sign. -/
def timeStart (negative : Negative) (body : Bytes) : Parse TimeAux :=
  ⟨body, ⟨0, body.length, 0⟩, 0, ⟨⟨negative, none, -1⟩, false⟩⟩

/-- A number in front, and where it is read. -/
theorem numParse_number (valid : UInt8 → Parse TimeAux → Bool × Parse TimeAux) (negative : Negative) (hds : Number ds n)
    (hn : n ≤ tempMax .int64) (tail : Bytes) (fuel : ℕ) :
    ∃ p, numParse valid (ds.length + fuel) (timeStart negative (ds ++ tail)) = numParse valid fuel p ∧ Reads p ∧ p.rest = tail ∧
      p.res = n ∧ p.aux.dec.negative = negative ∧ ∀ {res scale n' q}, Done p res scale n' q → Done (timeStart negative (ds ++ tail)) res scale n' q := by
  have hvalue : moreDigits 0 ds = n := hds.value_eq
  have hlen : (ds ++ tail).length = ds.length + tail.length := length_append
  have hskip := numParse_digits valid (p := timeStart negative (ds ++ tail)) hds.digits fuel rfl
    (by simp [timeStart]) (by rwa [show (timeStart negative (ds ++ tail)).res = 0 from rfl, hvalue])
  refine ⟨_, hskip, ⟨?_, rfl, rfl, rfl⟩, rfl, hvalue, rfl, ?_⟩
  · simp [timeStart]
  · intro res scale n' q hdone
    obtain ⟨hrest, hcurrent, hbegin, hres, hneg, hscale⟩ := hdone
    refine ⟨hrest, ?_, hbegin, hres, hneg, hscale⟩
    rw [hcurrent]
    simp [timeStart]

theorem numParse_stops (h : Reads p) (hrest : p.rest = c :: cs) (hc : isdigit c = false) :
    numParse valid (fuel + 1) p =
      if (valid c p).1 then numParse valid fuel (valid c p).2.next else (valid c p).2 := by
  have hlen : p.rest.length = cs.length + 1 := by rw [hrest, length_cons]
  have hend := h.expectEnd_eq
  rw [numParse, hrest]
  dsimp only
  rw [if_pos (by omega), hc]
  rfl

/-- A number, and a character from which the fraction is come to. -/
theorem numParse_splitter {neg' : Negative} (hds : Number ds n) (hn : n ≤ tempMax .int64) (hc : isdigit c = false)
    (hvalid : ∀ p : Parse TimeAux, Reads p → p.rest = c :: cs → p.res = n → p.aux.dec.negative = negative → Comes p frac res neg' (valid c p))
    (hfrac : Fraction frac fs) (hlen : fs.length ≤ cs.length) (hfits : moreDigits res fs ≤ tempMax .int64)
    (hq : numParse valid ((ds ++ c :: cs).length + 1) (timeStart negative (ds ++ c :: cs)) = q) :
    Done (timeStart negative (ds ++ c :: cs)) (moreDigits res fs) fs.length neg' q ∧
      (frac ≠ [] → q.aux.dec.pointPos ≠ none) := by
  obtain ⟨p, hskip, hreads, hrest, hres, hneg, hback⟩ :=
    numParse_number valid negative hds hn (c :: cs) (cs.length + 1 + 1)
  rw [length_append, length_cons, Nat.add_assoc, hskip, numParse_stops hreads hrest hc] at hq
  obtain ⟨hdone, hpoint⟩ := (hvalid p hreads hrest hres hneg).done hfrac (Nat.lt_succ_of_le hlen) hfits hq
  exact ⟨hback hdone, hpoint⟩

/-- A clock without days. -/
theorem timeParse_clock (h : Clock text v) (hfrac : Fraction frac fs) (hfits : moreDigits v fs ≤ tempMax .int64) :
    Done (timeStart negative (text ++ frac)) (moreDigits v fs) fs.length negative
      (numParse timeIsValidChar ((text ++ frac).length + 1) (timeStart negative (text ++ frac))) := by
  have hmax : tempMax .int64 = 18446744073709551615 := by decide
  have hle := le_moreDigits v fs
  have hfrac_le := hfrac.length_le
  cases h with
  | ss hz hss =>
    cases hfrac with
    | none =>
      obtain ⟨p, hskip, hreads, hrest, hres, hneg, hback⟩ := numParse_number timeIsValidChar negative hz (by omega) [] 1
      rw [append_nil] at hskip hback ⊢
      rw [hskip, numParse, hrest]
      dsimp only
      rw [timeParseEnd, StrToDecIntAux.onParseNormalEnd, hreads.pointPos_eq]
      exact hback ⟨hrest, by simp [hrest], rfl, hres, hneg, by simp [hreads.scale_eq]⟩
    | point hfs hlen =>
      refine (numParse_splitter hz (by omega) (by decide) ?_ (.point hfs hlen) le_rfl hfits rfl).1
      intro p hp hrest hres hneg
      rw [← hres, ← hneg]
      exact timeIsValidChar_point hp hlen hrest
  | @mmss y z mm ss hy hz hmm hss =>
    obtain ⟨d, z', rfl, hd⟩ := hz.head
    rw [append_assoc, cons_append, cons_append]
    have hpacked : u64 (0 * kDivHHMMSS + u64 (mm * 100 + ss)) = mm * 100 + ss := by
      rw [u64_of_lt (n := mm * 100 + ss) (by omega), Nat.zero_mul, Nat.zero_add, u64_of_lt (by omega)]
    refine (numParse_splitter hy (by omega) (by decide) ?_ hfrac (by simp; omega) hfits rfl).1
    intro p hp hrest hres hneg
    have hcomes := endMMSS_comes 0 (u64 (mm * 100 + ss)) (s := d :: z' ++ frac) true hp hfrac
      (by simp; omega) (by simp [hrest])
    rw [timeIsValidChar_colon hp hd hrest, parseMMSS_ss hz hss hfrac rfl, hres]
    rwa [hpacked, hneg] at hcomes
  | @hhmmss x y z hh mm ss hx hy hz hhh hmm hss =>
    obtain ⟨d, y', rfl, hd⟩ := hy.head
    rw [append_assoc, cons_append, append_assoc, cons_append, cons_append]
    have hpacked : u64 (0 * kDivHHMMSS + u64 (u64 (hh * 100 + mm) * 100 + ss)) = (hh * 100 + mm) * 100 + ss := by
      rw [u64_of_lt (n := hh * 100 + mm) (by omega), u64_of_lt (n := (hh * 100 + mm) * 100 + ss) (by omega), Nat.zero_mul,
        Nat.zero_add, u64_of_lt (by omega)]
    refine (numParse_splitter hx (by omega) (by decide) ?_ hfrac (by simp; omega) hfits rfl).1
    intro p hp hrest hres hneg
    have hcomes := endMMSS_comes 0 (u64 (u64 (hh * 100 + mm) * 100 + ss)) (s := d :: y' ++ ch ':' :: (z ++ frac)) true hp
      hfrac (by simp; omega) (by simp [hrest])
    rw [timeIsValidChar_colon hp hd hrest, parseMMSS_mmss hy hz hmm hss hfrac rfl, hres]
    rwa [hpacked, hneg] at hcomes

/-- Days and a clock. -/
theorem timeParse_days (hds : Number ds days) (h : Clock text v) (hfrac : Fraction frac fs)
    (hfits : moreDigits (days * kDivHHMMSS + v) fs ≤ tempMax .int64) :
    Done (timeStart negative (ds ++ ch '-' :: (text ++ frac))) (moreDigits (days * kDivHHMMSS + v) fs) fs.length negative
      (numParse timeIsValidChar ((ds ++ ch '-' :: (text ++ frac)).length + 1)
        (timeStart negative (ds ++ ch '-' :: (text ++ frac)))) := by
  have hmax : tempMax .int64 = 18446744073709551615 := by decide
  have hle : days * 1000000 + v ≤ moreDigits (days * kDivHHMMSS + v) fs := le_moreDigits _ fs
  have hlen := hfrac.length_le
  refine (numParse_splitter hds (by omega) (by decide) ?_ hfrac (by simp; omega) hfits rfl).1
  intro p hp hrest hres hneg
  have hcomes := timeIsValidChar_days hp h hfrac hrest
  have hpacked : u64 (days * kDivHHMMSS + v) = days * kDivHHMMSS + v := u64_of_lt (by rw [kDivHHMMSS]; omega)
  rwa [hres, hpacked, hneg] at hcomes

/-- A time: a clock, or days and a clock, and a fraction. -/
inductive TimeText : Bytes → ℕ → Bytes → Prop
  | clock {text frac fs : Bytes} {v : ℕ} (h : Clock text v) (hfrac : Fraction frac fs) : TimeText (text ++ frac) v fs
  | days {ds text frac fs : Bytes} {days v : ℕ} (hds : Number ds days) (h : Clock text v) (hfrac : Fraction frac fs) :
      TimeText (ds ++ ch '-' :: (text ++ frac)) (days * kDivHHMMSS + v) fs

theorem TimeText.done (h : TimeText body v fs) (negative : Negative) (hfits : moreDigits v fs ≤ tempMax .int64) :
    Done (timeStart negative body) (moreDigits v fs) fs.length negative
      (timeParse (body.length + 1) (timeStart negative body)) := by
  rw [timeParse_eq]
  cases h with
  | clock h hfrac => exact timeParse_clock h hfrac hfits
  | days hds h hfrac => exact timeParse_days hds h hfrac hfits

theorem TimeText.head (h : TimeText body v fs) : ∃ d cs, body = d :: cs ∧ isdigit d = true := by
  cases h with
  | clock h =>
    obtain ⟨d, text', rfl, hd⟩ := h.head
    exact ⟨d, _, rfl, hd⟩
  | days hds =>
    obtain ⟨d, ds', rfl, hd⟩ := hds.head
    exact ⟨d, _, rfl, hd⟩

theorem TimeText.length_le (h : TimeText body v fs) : fs.length ≤ 6 := by
  cases h with
  | clock h hfrac =>
    cases hfrac with
    | none => exact Nat.zero_le _
    | point hfs hlen => exact hlen
  | days hds h hfrac =>
    cases hfrac with
    | none => exact Nat.zero_le _
    | point hfs hlen => exact hlen

theorem TimeText.no_s (h : TimeText body v fs) : ch 's' ∉ body := by
  have hdigits {ds : Bytes} (h : Digits ds) : ch 's' ∉ ds := fun hc => absurd (h _ hc) (by decide)
  have hclock {text : Bytes} {v : ℕ} (h : Clock text v) : ch 's' ∉ text := by
    cases h with
    | ss hz => exact hdigits hz.digits
    | mmss hy hz => simpa [hdigits hy.digits, hdigits hz.digits] using (by decide : ¬ ch 's' = ch ':')
    | hhmmss hx hy hz =>
      simpa [hdigits hx.digits, hdigits hy.digits, hdigits hz.digits] using (by decide : ¬ ch 's' = ch ':')
  have hfraction {frac fs : Bytes} (h : Fraction frac fs) : ch 's' ∉ frac := by
    cases h with
    | none => simp
    | point hfs => simpa [hdigits hfs] using (by decide : ¬ ch 's' = ch '.')
  cases h with
  | clock h hfrac => simp [hclock h, hfraction hfrac]
  | days hds h hfrac =>
    simpa [hclock h, hfraction hfrac, hdigits hds.digits] using (by decide : ¬ ch 's' = ch '-')

/-! ### The value -/

/-- The sign in front of a text. -/
def signText (neg : Bool) : Bytes := if neg then [ch '-'] else []

/-- The number that has been read, before the days and the clock are taken from it. -/
theorem Done.makeResult_eq (h : Done p res j (signOf neg) q) (hj : j ≤ 6)
    (hfits : res * 10 ^ (6 - j) < 2 ^ 63) :
    StrToDecIntAux.makeResult .int64 6 q.res q.aux.dec = .ok (withSign neg ((res * 10 ^ (6 - j) : ℕ) : ℤ)) := by
  obtain ⟨-, -, -, hres, hneg, hscale⟩ := h
  have hmax : tempMax .int64 = 18446744073709551615 := by decide
  have hle : res ≤ res * 10 ^ (6 - j) := Nat.le_mul_of_pos_right _ (Nat.pow_pos (by decide))
  have hcounted : StrToDecIntAux.makeResult .int64 6 q.res q.aux.dec =
      StrToDecIntAux.makeResult .int64 6 res ⟨signOf neg, none, j⟩ := by
    have hnat : (if (j : ℤ) < 0 then 0 else (j : ℤ).toNat) = j := by
      rw [if_neg (by omega), Int.toNat_natCast]
    simp only [StrToDecIntAux.makeResult, hscale, hres, hneg, hnat]
  have hsign : StrToIntAux.makeResult .int64 res (signOf neg) = clamp .int64 (withSign neg (res : ℤ)) :=
    makeResult_sign (fun _ => rfl) (by omega)
  have hvalue : withSign neg (res : ℤ) * 10 ^ (6 - j) = withSign neg ((res * 10 ^ (6 - j) : ℕ) : ℤ) := by
    rw [withSign_mul]
    push_cast
    rfl
  have hin : Fits .int64 (withSign neg ((res * 10 ^ (6 - j) : ℕ) : ℤ)) := by
    have hmax : IntType.max .int64 = 9223372036854775807 := by decide
    have hmin : IntType.min .int64 = -9223372036854775808 := by decide
    rw [Fits, hmax, hmin]
    cases neg <;> simp only [withSign, Bool.false_eq_true, if_false, if_true] <;> omega
  rw [hcounted, Num.makeResult_eq (s := ⟨signOf neg, none, j⟩) rfl hj (by decide) hsign, hvalue, clamp_of_fits hin]

theorem checkSign_digit (hd : isdigit d = true) :
    StrToDecIntAux.checkSign .int64 d = (false, ⟨.isPositive, none, -1⟩) := by
  obtain ⟨-, hplus, hminus⟩ := not_sign_of_isdigit d hd
  have hint : StrToIntAux.checkSign .int64 d = (false, .isPositive) := by
    show StrToSIntAux.checkSign d = _
    rw [StrToSIntAux.checkSign, if_neg hplus, if_neg hminus]
  rw [StrToDecIntAux.checkSign, hint]

/-- All of a text is read, and the result is `ti`. -/
theorem strToTimeInterval_of_done {ti : ℤ} (hbody : body = d :: cs) (hd : isdigit d = true)
    (hq : timeParse (body.length + 1) (timeStart (signOf neg) body) = q)
    (h : Done (timeStart (signOf neg) body) res j (signOf neg) q)
    (hresult : timeMakeResult (body[body.length - 1]?) q.res q.aux.dec = .ok ti) (hmin : ti ≠ IntType.min .int64) :
    strToTimeInterval (signText neg ++ body) = .ok (some ti) ∧ strToTimeIntervalRest (signText neg ++ body) = [] := by
  have hblank : body.dropWhile isspace = body := by
    rw [hbody, dropWhile_cons_of_neg (by simp [isspace_of_isdigit hd])]
  obtain ⟨c, cs', hstr, hsign⟩ : ∃ c cs', (signText neg ++ body).dropWhile isspace = c :: cs' ∧
      (StrToDecIntAux.checkSign .int64 c).2 = ⟨signOf neg, none, -1⟩ ∧
      (if (StrToDecIntAux.checkSign .int64 c).1 then cs'.dropWhile isspace else c :: cs') = body := by
    cases neg with
    | true =>
      refine ⟨ch '-', body, rfl, rfl, ?_⟩
      rw [hblank]
      rfl
    | false =>
      have hcheck := checkSign_digit hd
      exact ⟨d, cs, hblank.trans hbody, by rw [hcheck]; rfl, by rw [hcheck, hbody]; rfl⟩
  have hcurrent : q.cur.current = body.length := by
    have hcur := h.current_eq
    simpa [timeStart] using hcur
  have hbegin : q.cur.origBegin = 0 := h.origBegin_eq
  have hlen : body.length ≠ 0 := by simp [hbody]
  rw [timeStart, ← hsign.1] at hq
  rw [strToTimeInterval, strToTimeIntervalRest, hstr]
  dsimp only
  rw [hsign.2, hq, if_neg (by simp [hbody]), if_neg (by rwa [hcurrent, hbegin]), hcurrent, hresult]
  simp only [bind, Except.bind]
  rw [if_neg hmin]
  exact ⟨rfl, h.rest_eq⟩

/-- A time is read whole. -/
theorem TimeText.strTo (h : TimeText body v fs) (neg : Bool) (hfits : moreDigits v fs * 10 ^ (6 - fs.length) < 2 ^ 63)
    (hvalue : hhmmssToMicroseconds (moreDigits v fs * 10 ^ (6 - fs.length)) < 2 ^ 63) :
    strToTimeInterval (signText neg ++ body) =
        .ok (some (withSign neg (hhmmssToMicroseconds (moreDigits v fs * 10 ^ (6 - fs.length)) : ℤ))) ∧
      strToTimeIntervalRest (signText neg ++ body) = [] := by
  obtain ⟨d, cs, hbody, hd⟩ := h.head
  have hmax : tempMax .int64 = 18446744073709551615 := by decide
  have hmin : IntType.min .int64 = -9223372036854775808 := by decide
  have hle : moreDigits v fs ≤ moreDigits v fs * 10 ^ (6 - fs.length) := Nat.le_mul_of_pos_right _ (Nat.pow_pos (by decide))
  have hdone := h.done (signOf neg) (by omega)
  have hlast : body[body.length - 1]? ≠ some (ch 's') := fun hs => h.no_s (List.mem_of_getElem? hs)
  apply strToTimeInterval_of_done hbody hd rfl hdone
  · rw [timeMakeResult, hdone.makeResult_eq h.length_le hfits]
    simp only [bind, Except.bind]
    generalize moreDigits v fs * 10 ^ (6 - fs.length) = V at hfits ⊢
    rw [if_neg hlast]
    cases neg with
    | true =>
      simp only [withSign, if_true]
      rw [if_neg (by omega), Int.natAbs_neg, Int.natAbs_natCast]
      split
      next => rfl
      next hV =>
        have hzero : V = 0 := by omega
        subst hzero
        rfl
    | false =>
      simp only [withSign, Bool.false_eq_true, if_false]
      rw [if_neg (by omega), if_neg (by omega), Int.natAbs_natCast]
      rfl
  · rw [hmin]
    cases neg <;> simp only [withSign, Bool.false_eq_true, if_false, if_true] <;> omega

theorem hhmmssToMicroseconds_add (v : ℕ) {us : ℕ} (hus : us < 1000000) :
    hhmmssToMicroseconds (v * 1000000 + us) =
      us + (v / kDivHHMMSS * 86400 + (v % kDivHHMMSS / 10000 * 60 + v % kDivHHMMSS / 100 % 100) * 60 +
        v % kDivHHMMSS % 100) * 1000000 := by
  have hsecs : (v * 1000000 + us) / 1000000 = v := by omega
  have hfraction : (v * 1000000 + us) % 1000000 = us := by omega
  rw [hhmmssToMicroseconds, hsecs, hfraction]

theorem hhmmssToMicroseconds_eq (days : ℕ) {hh mm ss us : ℕ} (hhh : hh < 24) (hmm : mm < 60) (hss : ss < 60)
    (hus : us < 1000000) :
    hhmmssToMicroseconds ((days * kDivHHMMSS + ((hh * 100 + mm) * 100 + ss)) * 1000000 + us) =
      (((days * 24 + hh) * 60 + mm) * 60 + ss) * 1000000 + us := by
  have hdays : (days * kDivHHMMSS + ((hh * 100 + mm) * 100 + ss)) / kDivHHMMSS = days := by
    rw [kDivHHMMSS]
    omega
  have hrest : (days * kDivHHMMSS + ((hh * 100 + mm) * 100 + ss)) % kDivHHMMSS = (hh * 100 + mm) * 100 + ss := by
    rw [kDivHHMMSS]
    omega
  have hh' : ((hh * 100 + mm) * 100 + ss) / 10000 = hh := by omega
  have hm' : ((hh * 100 + mm) * 100 + ss) / 100 % 100 = mm := by omega
  have hs' : ((hh * 100 + mm) * 100 + ss) % 100 = ss := by omega
  rw [hhmmssToMicroseconds_add _ hus, hdays, hrest, hh', hm', hs']
  omega

/-- Days, a clock and microseconds: the text and what it is. -/
theorem TimeText.strTo_clock {hh mm ss : ℕ} (us : ℕ) (h : TimeText body (days * kDivHHMMSS + ((hh * 100 + mm) * 100 + ss)) fs)
    (neg : Bool) (hhh : hh < 24) (hmm : mm < 60) (hss : ss < 60) (hus : us < 1000000) (hdays : days < 9000000)
    (hfs : digitsValue fs * 10 ^ (6 - fs.length) = us) :
    strToTimeInterval (signText neg ++ body) =
        .ok (some (withSign neg (((((days * 24 + hh) * 60 + mm) * 60 + ss) * 1000000 + us : ℕ) : ℤ))) ∧
      strToTimeIntervalRest (signText neg ++ body) = [] := by
  have hall : moreDigits (days * kDivHHMMSS + ((hh * 100 + mm) * 100 + ss)) fs * 10 ^ (6 - fs.length) =
      (days * kDivHHMMSS + ((hh * 100 + mm) * 100 + ss)) * 1000000 + us := by
    have hpow : 10 ^ fs.length * 10 ^ (6 - fs.length) = 1000000 := by
      rw [← pow_add, Nat.add_sub_cancel' h.length_le]
      rfl
    rw [moreDigits_eq, Nat.add_mul, Nat.mul_assoc, hpow, hfs]
  have hvalue := hhmmssToMicroseconds_eq days hhh hmm hss hus
  have hstr := h.strTo neg (by rw [hall, kDivHHMMSS]; omega) (by rw [hall, hvalue]; omega)
  rwa [hall, hvalue] at hstr

/-- `ToStrRevSecs` prints a time. -/
theorem timeText_toStrRevSecs (secs : ℕ) (hfrac : Fraction frac fs) :
    TimeText (toStrRevSecs secs ++ frac)
      (secs / 60 / 60 / 24 * kDivHHMMSS + ((secs / 60 / 60 % 24 * 100 + secs / 60 % 60) * 100 + secs % 60)) fs := by
  have hclock := Clock.hhmmss (number_pic9ToStr2 (n := secs / 60 / 60 % 24) (by omega))
    (number_pic9ToStr2 (n := secs / 60 % 60) (by omega)) (number_pic9ToStr2 (n := secs % 60) (by omega))
    (by omega) (by omega) (by omega)
  rw [toStrRevSecs]
  split
  next hdays =>
    rw [append_assoc, append_assoc, singleton_append]
    exact .days (number_uintToStr _) hclock hfrac
  next hdays =>
    have hzero : secs / 60 / 60 / 24 = 0 := by omega
    rw [hzero, Nat.zero_mul, Nat.zero_add, nil_append]
    exact .clock hclock hfrac

/-- Seconds are read from their text. -/
theorem strToDayTimeSec_toStrRevSecs {secs : ℕ} (h : secs < 2 ^ 32) (nullValue : ℕ) :
    strToDayTimeSec (toStrRevSecs secs) nullValue = .ok secs := by
  have htext := timeText_toStrRevSecs secs .none
  have hsecs : ((secs / 60 / 60 / 24 * 24 + secs / 60 / 60 % 24) * 60 + secs / 60 % 60) * 60 + secs % 60 = secs := by omega
  have hback : ((secs * 1000000 : ℕ) : ℤ).tdiv 1000000 % 2 ^ 32 = secs := by
    rw [Int.tdiv_eq_ediv_of_nonneg (Int.natCast_nonneg _)]
    omega
  have hnone : digitsValue [] * 10 ^ (6 - ([] : Bytes).length) = 0 := Nat.zero_mul _
  have hstr := htext.strTo_clock 0 false (by omega) (by omega) (by omega) (by norm_num) (by omega) hnone
  rw [append_nil, hsecs, Nat.add_zero] at hstr
  have hti : strToTimeInterval (toStrRevSecs secs) = .ok (some ((secs * 1000000 : ℕ) : ℤ)) := hstr.1
  rw [strToDayTimeSec, hti]
  simp only [bind, Except.bind]
  rw [hback]
  rfl

/-- `ToStrRevSecs` writes neither blanks nor bars. -/
theorem mem_toStrRevSecs {secs : ℕ} {c : UInt8} (h : c ∈ toStrRevSecs secs) :
    isdigit c = true ∨ c = ch '-' ∨ c = ch ':' := by
  have hpic : ∀ n, c ∈ pic9ToStr2 n → isdigit c = true := fun n hc => digits_pic9ToStr2 n c hc
  have hdays : ∀ days, c ∈ uintToStr days → isdigit c = true := fun _ hc =>
    isdigit_iff.mpr (digval_le_of_mem_uintToStr hc)
  simp only [toStrRevSecs, mem_append, List.mem_cons] at h
  rcases h with h | h | h | h | h | h
  · split_ifs at h with hpos
    · rw [mem_append, mem_singleton] at h
      exact h.elim (fun hc => Or.inl (hdays _ hc)) fun hc => Or.inr (Or.inl hc)
    · cases h
  · exact Or.inl (hpic _ h)
  · exact Or.inr (Or.inr h)
  · exact Or.inl (hpic _ h)
  · exact Or.inr (Or.inr h)
  · exact Or.inl (hpic _ h)

theorem strToDayTimeSec_lt {str : Bytes} {nullValue secs : ℕ} (hnull : nullValue < 2 ^ 32)
    (h : strToDayTimeSec str nullValue = .ok secs) : secs < 2 ^ 32 := by
  rw [strToDayTimeSec] at h
  obtain ⟨ti, -, h⟩ := bind_ok h
  cases ti with
  | none =>
    cases h
    exact hnull
  | some ti =>
    cases h
    omega

/-- The local time zone has a name. -/
theorem strToTimeZoneOffset_local {localOffset : ℤ} (h : Fits .int32 localOffset) :
    strToTimeZoneOffset localOffset [ch 'L'] = localOffset := by
  have hname : getTimeZoneOffsetByName localOffset [ch 'L'] = localOffset := rfl
  have hmax : IntType.max .int32 = 2147483647 := by decide
  have hmin : IntType.min .int32 = -2147483648 := by decide
  obtain ⟨hlow, hhigh⟩ := h
  have hend : strToTimeZoneOffset localOffset [ch 'L'] = StrToSIntAux.makeResult .int32
      (getTimeZoneOffsetByName localOffset [ch 'L']).natAbs
      (if 0 ≤ getTimeZoneOffsetByName localOffset [ch 'L'] then .isPositive else .isNegative) := rfl
  rw [hend, hname]
  split_ifs with hpos
  · rw [StrToSIntAux.makeResult, hmax]
    split_ifs <;> omega
  · rw [StrToSIntAux.makeResult, hmax]
    split_ifs <;> omega

end RoundTrip

end Fon9.Num
