import Fon9.Num.TimeText
import Fon9.Base.TimeStampCache

/-! The text of a `TimeStamp`, by `ToStrRev_Full` or with a format, and back. The digits of the date and time come from
the cache of the thread. `StrTo` takes the layout from the first character that is not a digit, and converts the date and
time to seconds where it comes to the decimal point. -/

namespace Fon9.Num.TimeStampText

open Bitv List
open TimeStamp (Cache Calendar Call Tm divisor pic9ToStr)

/-! ### `ToStrRev` -/

inductive TsFmtItem
  | YYYYMMDDHHMMSS
  | YYYYMMDD
  | YYYY_MM_DD
  | YYYYsMMsDD
  | Year4
  | Month02
  | Day02
  | HHMMSS
  | HH_MM_SS
  | Hour02
  | Minute02
  | Second02
  | char (c : UInt8)

/-- `precision` is `none` without `HasPrecision`; `timeZoneOffset` is in minutes. -/
structure FmtTS where
  items : List TsFmtItem
  precision : Option ℕ
  width : ℕ := 0
  timeZoneOffset : ℤ := 0
  hide0 : Bool := false
  leftJustify : Bool := false

/-- What is put for an item, of the digits `str`. -/
def TsFmtItem.text (str : Bytes) : TsFmtItem → Bytes
  | YYYYMMDDHHMMSS => str
  | YYYYMMDD => str.take 8
  | YYYY_MM_DD => str.take 4 ++ ch '-' :: ((str.drop 4).take 2 ++ ch '-' :: (str.drop 6).take 2)
  | YYYYsMMsDD => str.take 4 ++ ch '/' :: ((str.drop 4).take 2 ++ ch '/' :: (str.drop 6).take 2)
  | Year4 => str.take 4
  | Month02 => (str.drop 4).take 2
  | Day02 => (str.drop 6).take 2
  | HHMMSS => str.drop 8
  | HH_MM_SS => (str.drop 8).take 2 ++ ch ':' :: ((str.drop 10).take 2 ++ ch ':' :: str.drop 12)
  | Hour02 => (str.drop 8).take 2
  | Minute02 => (str.drop 10).take 2
  | Second02 => str.drop 12
  | char c => [c]

/-- `sizeof(NumOutBuf)` -/
def numOutBufSize : ℕ := 96

/-- The items from the last one on, while there is room in a `NumOutBuf`. -/
def putItems (str : Bytes) : List TsFmtItem → Bytes → Bytes
  | [], pout => pout
  | item :: items, pout =>
    let pout := item.text str ++ pout
    if numOutBufSize - 14 ≤ pout.length then pout else putItems str items pout

/-- `ToStrRev_DecScalePrecision`, where `fnRound` cuts the digits off. -/
def toStrRevDecScalePrecision (pout : Bytes) (value scale precision : ℕ) : Bytes × ℕ :=
  if scale ≤ precision then putDigits scale (List.replicate (precision - scale) (ch '0') ++ pout) value
  else putDigits precision pout (value / 10 ^ (scale - precision))

/-- `ToStrRev_TimeIntervalDec` -/
def toStrRevTimeIntervalDec (value : ℕ) : Option ℕ → Bytes × ℕ
  | none => ([], value / divisor)
  | some 0 => putAutoPrecision (ch '.') 6 [] value
  | some precision =>
    let r := toStrRevDecScalePrecision [] value 6 precision
    (ch '.' :: r.1, r.2)

/-- `ToStrRev_LastJustify` -/
def toStrRevLastJustify (fmt : FmtTS) (pout : Bytes) : Bytes :=
  let fill := List.replicate (fmt.width - pout.length) (ch ' ')
  if fmt.leftJustify then pout ++ fill else fill ++ pout

/-- `ToStrRev` with a format, of a time stamp that is not negative. -/
def toStrRev (cal : Calendar) (c : Cache) (ts : ℕ) (fmt : FmtTS) : Bytes :=
  if ts = 0 ∧ fmt.hide0 then List.replicate fmt.width (ch ' ')
  else
    let value := ((ts + fmt.timeZoneOffset * 60 * divisor) % 2 ^ 64).toNat
    let r := toStrRevTimeIntervalDec value fmt.precision
    let str := pic9ToStr 14 (c.checkCachedTm cal r.2).2.yyyymmddhhmmss.natAbs
    let items := if fmt.items = [] then [.YYYYMMDDHHMMSS] else fmt.items
    toStrRevLastJustify fmt (putItems str items.reverse r.1)

/-- `ToStrRev_Full` -/
def toStrRevFull (cal : Calendar) (c : Cache) (ts : ℕ) : Bytes := (c.toStrRev_Full cal ts).bufferDateTimeStr

/-! ### `StrToTimeStampAux` -/

/-- `ParseUInt` -/
def parseUInt (s : Bytes) : Option (ℕ × Bytes) :=
  match s.dropWhile isspace with
  | [] => none
  | c :: cs => if isdigit c then some (naiveStrToUInt (c :: cs)) else none

/-- `ParseUInt100` with bounds. -/
def parseUInt100In (min max : ℕ) (s : Bytes) (res : ℕ) : Option (ℕ × Bytes) :=
  match parseUInt s with
  | none => none
  | some (v, s) => if v < min ∨ max < v then none else some (u64 (res * 100 + v), s)

/-- `ParseHHMMSS`, where the date is `p.res` and `digits` are in front. -/
def parseHHMMSS (digits : Bytes) (p : Parse TimeAux) : Bool × Parse TimeAux :=
  let hms := naiveStrToUInt digits
  let p' := p.goTo hms.2
  let res := u64 (p.res * kDivHHMMSS + hms.1)
  match hms.2.dropWhile isspace with
  | [] => (false, { p' with res := res })
  | c :: cs => if c = ch ':' then parseMMSS p.res hms.1 (p'.goTo cs) else checkDecPoint { p' with res := res }

variable (p : Parse TimeAux)

/-- `CheckParseHHMMSS`, behind the day. -/
def checkParseHHMMSS : Bool × Parse TimeAux :=
  match p.rest.dropWhile isspace with
  | [] => (false, { p with res := u64 (p.res * kDivHHMMSS) })
  | c :: cs =>
    if c = ch '-' then
      let digits := cs.dropWhile isspace
      if (digits.head?.map isdigit).getD false then parseHHMMSS digits (p.goTo cs) else (false, (p.goTo cs).formatError)
    else if isdigit c then parseHHMMSS (c :: cs) p
    else (false, { p.goTo (c :: cs) with res := u64 (p.res * kDivHHMMSS) })

/-- From the day on, behind the second '/' or '-'. -/
def parseDay (cs : Bytes) : Bool × Parse TimeAux :=
  match parseUInt100In 1 31 cs p.res with
  | none => (false, (p.goTo cs).formatError)
  | some (res, s) => checkParseHHMMSS { p.goTo s with res := res }

/-- Behind the first '/'. -/
def parseSlash (cs : Bytes) : Bool × Parse TimeAux :=
  match parseUInt100In 1 12 cs p.res with
  | none => (false, (p.goTo cs).formatError)
  | some (res, s) =>
    let p := { p.goTo s with res := res }
    match s.dropWhile isspace with
    | [] => (false, p.formatError)
    | c :: cs => if c = ch '/' then parseDay p cs else (false, p.formatError)

/-- Behind the first '-', which is in front of the month or in front of the time. -/
def parseDash (cs : Bytes) : Bool × Parse TimeAux :=
  match parseUInt cs with
  | none => (false, (p.goTo cs).formatError)
  | some (hms, s) =>
    let p' := p.goTo s
    let res := u64 (p.res * kDivHHMMSS + hms)
    match s.dropWhile isspace with
    | [] => (false, { p' with res := res })
    | d :: ds =>
      if d = ch '-' then
        if hms < 1 ∨ 12 < hms then (false, (p.goTo cs).formatError)
        else parseDay { p' with res := u64 (p.res * 100 + hms) } ds
      else if d = ch ':' then parseMMSS p.res hms (p'.goTo ds)
      else checkDecPoint { p'.goTo (d :: ds) with res := res }

/-- The end of `CheckValidChar`: the layout. -/
def splitter : Bool × Parse TimeAux :=
  match p.rest.dropWhile isspace with
  | [] => (false, p)
  | c :: cs =>
    let p := { p with aux := { p.aux with hasSplitter := true } }
    if c = ch '/' then parseSlash p cs
    else if c = ch '-' then parseDash p cs
    else if isdigit c then parseHHMMSS (c :: cs) p
    else (false, if p.res < 10 ^ 8 then { p with res := u64 (p.res * kDivHHMMSS) } else p)

/-- `CheckValidChar`, which looks up to `ExpectEnd_`. -/
def checkValidChar (c : UInt8) (p : Parse TimeAux) : Bool × Parse TimeAux :=
  let r := StrToDecIntAux.isValidChar (ch '.') 6 c p.cur p.aux.dec
  let p := { p with cur := r.2.1, aux := { p.aux with dec := r.2.2 } }
  if r.1 then (true, p)
  else if p.aux.hasSplitter then (false, p)
  else
    let avail := p.cur.expectEnd - p.cur.current
    let r := splitter { p with rest := p.rest.take avail }
    (r.1, { r.2 with rest := r.2.rest ++ p.rest.drop avail })

section Parse

variable (toEpoch : Tm → ℤ)

/-- `YYYYMMDDHHMMSS_ToEpochSeconds`, where `toEpoch` is `timegm`: it does not look at the other fields. -/
def toEpochSeconds (yyyymmddhhmmss : ℤ) : ℤ :=
  let mins := yyyymmddhhmmss.tdiv 100
  let hours := mins.tdiv 100
  let days := hours.tdiv 100
  let months := days.tdiv 100
  toEpoch {
    sec := yyyymmddhhmmss.tmod 100, min := mins.tmod 100, hour := hours.tmod 100
    mday := days.tmod 100, mon := months.tmod 100 - 1, year := months.tdiv 100 - 1900 }

/-- `ResultYYYYMMDD_ToEpochSeconds` -/
def resultToEpochSeconds (p : Parse TimeAux) : Parse TimeAux :=
  let value := IntType.int64.wrap p.res
  let epochSeconds := toEpochSeconds toEpoch (if p.aux.dec.negative = .isPositive then value else -value)
  if 0 ≤ epochSeconds then { p with res := epochSeconds.toNat }
  else { p with res := (-epochSeconds).toNat, aux := { p.aux with dec := { p.aux.dec with negative := .isNegative } } }

/-- `IsValidChar`: at the first point the date and time become seconds. -/
def isValidChar (c : UInt8) (p : Parse TimeAux) : Bool × Parse TimeAux :=
  let r := checkValidChar c p
  if r.2.aux.dec.pointPos.isSome ∧ p.aux.dec.pointPos.isNone then (r.1, resultToEpochSeconds toEpoch r.2) else r

/-- `MakeResult` -/
def makeResult (p : Parse TimeAux) : Except AdjustError ℤ :=
  let p := if p.aux.dec.pointPos.isNone then resultToEpochSeconds toEpoch p else p
  StrToDecIntAux.makeResult .int64 6 p.res p.aux.dec

/-- `StrTo` of a `TimeStamp`, and what is left of the text. -/
def strTo (str : Bytes) (value : ℤ) : Except AdjustError ℤ × Bytes :=
  match str.dropWhile isspace with
  | [] => (.ok value, [])
  | c :: cs =>
    let sign := StrToDecIntAux.checkSign .int64 c
    let body := if sign.1 then cs.dropWhile isspace else c :: cs
    if body = [] then (.ok value, [])
    else
      let p := numParse (isValidChar toEpoch) (body.length + 1) ⟨body, ⟨0, body.length, 0⟩, 0, ⟨sign.2, false⟩⟩
      (if p.cur.current = p.cur.origBegin then .ok value else makeResult toEpoch p, p.rest)

end Parse

/-! ### Back from a text -/

section Parse

variable {toEpoch : Tm → ℤ} {p q : Parse TimeAux} {r : Bool × Parse TimeAux} {date v N m d : ℕ} {c : UInt8}
  {ds fs cs text mon day : Bytes}

theorem number_put2Digs {n : ℕ} (h : n < 100) : Number (TimeStamp.put2Digs n) n := by
  have hdigit : n / 10 % 10 = n / 10 := Nat.mod_eq_of_lt (by omega)
  have hpic := number_pic9ToStr2 h
  rwa [pic9ToStr2, hdigit] at hpic

theorem number_append {x y : Bytes} {k : ℕ} (hx : Number x m) (hy : Number y d) (hk : y.length = k) :
    Number (x ++ y) (m * 10 ^ k + d) := by
  refine ⟨hx.digits.append hy.digits, by simp [hx.ne_nil], ?_⟩
  rw [digitsValue_append, hx.value_eq, hy.value_eq, hk]

/-- "hhmmss" or "hh:mm:ss" -/
inductive TimeItem : Bytes → ℕ → Prop
  | hhmmss {text : Bytes} {v : ℕ} (h : Number text v) (hv : v < 1000000) : TimeItem text v
  | hh_mm_ss {x y z : Bytes} {hh mm ss : ℕ} (hx : Number x hh) (hy : Number y mm) (hz : Number z ss) (hhh : hh < 100)
      (hmm : mm < 100) (hss : ss < 100) : TimeItem (x ++ ch ':' :: (y ++ ch ':' :: z)) ((hh * 100 + mm) * 100 + ss)

theorem TimeItem.head (h : TimeItem text v) : ∃ d text', text = d :: text' ∧ isdigit d = true := by
  cases h with
  | hhmmss h => exact h.head
  | hh_mm_ss hx =>
    obtain ⟨d, x', rfl, hd⟩ := hx.head
    exact ⟨d, _, rfl, hd⟩

theorem TimeItem.lt (h : TimeItem text v) : v < 1000000 := by
  cases h <;> omega

/-- Behind the time is the point. -/
theorem endMMSS_point {s : Bytes} (hs : s = ch '.' :: fs) :
    endMMSS date v p s = checkDecPoint { p.goTo s with res := u64 (date * kDivHHMMSS + v) } := by
  subst hs
  rw [endMMSS, dropWhile_cons_of_neg (by decide)]
  simp [checkDecPoint, Parse.goTo]

theorem endMMSS_goTo_res {s t : Bytes} (hs : s.length ≤ p.rest.length) (ht : t.length ≤ s.length) :
    endMMSS date v { p.goTo s with res := N } t = endMMSS date v p t := by
  have hgo : endMMSS date v (p.goTo s) t = endMMSS date v p t := endMMSS_goTo hs ht
  exact hgo

theorem parseHHMMSS_item (h : TimeItem text v) (hfrac : Fraction (ch '.' :: fs) fs)
    (hlen : (text ++ ch '.' :: fs).length ≤ p.rest.length) :
    parseHHMMSS (text ++ ch '.' :: fs) p = endMMSS p.res v p (ch '.' :: fs) := by
  cases h with
  | hhmmss h hv =>
    rw [parseHHMMSS, naiveStrToUInt_number h (by omega) hfrac.stopsHere, endMMSS_point rfl]
    dsimp only
    rw [dropWhile_cons_of_neg (by decide)]
    dsimp only
    rw [if_neg (by decide)]
  | @hh_mm_ss x y z hh mm ss hx hy hz hhh hmm hss =>
    rw [append_assoc, cons_append, append_assoc, cons_append] at hlen ⊢
    simp only [length_append, length_cons] at hlen
    rw [parseHHMMSS, naiveStrToUInt_number hx (by omega) (stopsHere_cons (by decide) _)]
    dsimp only
    rw [dropWhile_cons_of_neg (by decide)]
    dsimp only
    rw [if_pos rfl, goTo_goTo p (by simp; omega) (Nat.le_succ _), parseMMSS_mmss hy hz hmm hss hfrac rfl,
      endMMSS_goTo (by simp; omega) (by simp; omega), u64_of_lt (n := hh * 100 + mm) (by omega), u64_of_lt (by omega)]

theorem parseUInt_number {rest : Bytes} (h : Number day d) (hd : d < 2 ^ 64) (hrest : StopsHere rest) :
    parseUInt (day ++ rest) = some (d, rest) := by
  have hnumber := naiveStrToUInt_number h hd hrest
  have hblanks := h.dropWhile_isspace rest
  obtain ⟨c, day', rfl, hc⟩ := h.head
  rw [parseUInt, hblanks]
  rw [cons_append] at hnumber ⊢
  dsimp only
  rw [if_pos hc, hnumber]

/-- The time behind "yyyymmdd-". -/
theorem parseDash_item (h : TimeItem text v) (hfrac : Fraction (ch '.' :: fs) fs)
    (hlen : (text ++ ch '.' :: fs).length ≤ p.rest.length) :
    parseDash p (text ++ ch '.' :: fs) = endMMSS p.res v p (ch '.' :: fs) := by
  rw [← parseHHMMSS_item h hfrac hlen, parseDash, parseHHMMSS]
  cases h with
  | hhmmss h hv =>
    rw [parseUInt_number h (by omega) hfrac.stopsHere, naiveStrToUInt_number h (by omega) hfrac.stopsHere]
    dsimp only
    rw [dropWhile_cons_of_neg (by decide)]
    dsimp only
    rw [if_neg (by decide), if_neg (by decide), if_neg (by decide), goTo_goTo p (by simp at hlen ⊢; omega) (Nat.le_refl _)]
  | @hh_mm_ss x y z hh mm ss hx hy hz hhh hmm hss =>
    rw [append_assoc, cons_append, parseUInt_number hx (by omega) (stopsHere_cons (by decide) _),
      naiveStrToUInt_number hx (by omega) (stopsHere_cons (by decide) _)]
    dsimp only
    rw [dropWhile_cons_of_neg (by decide)]
    dsimp only
    rw [if_neg (by decide), if_pos rfl, if_pos rfl]

theorem TimeItem.dropWhile_isspace (h : TimeItem text v) (rest : Bytes) :
    (text ++ rest).dropWhile isspace = text ++ rest := by
  obtain ⟨d, text', rfl, hd⟩ := h.head
  rw [cons_append, dropWhile_cons_of_neg (by simp [isspace_of_isdigit hd])]

/-- From the day on. -/
theorem parseDay_item (hday : Number day d) (hd : 1 ≤ d ∧ d ≤ 31) (hsep : c = ch '-' ∨ c = ch ' ') (h : TimeItem text v)
    (hfrac : Fraction (ch '.' :: fs) fs) (hlen : (c :: (text ++ ch '.' :: fs)).length ≤ p.rest.length) :
    parseDay p (day ++ c :: (text ++ ch '.' :: fs)) = endMMSS (u64 (p.res * 100 + d)) v p (ch '.' :: fs) := by
  have hblank := h.dropWhile_isspace (ch '.' :: fs)
  obtain ⟨e, text', hhead, he⟩ := h.head
  have hstop : isdigit c = false := by
    rcases hsep with rfl | rfl <;> decide
  rw [parseDay, parseUInt100In, parseUInt_number hday (by omega) (stopsHere_cons hstop _)]
  dsimp only
  rw [if_neg (by omega)]
  dsimp only
  generalize hp' : ({ p.goTo (c :: (text ++ ch '.' :: fs)) with res := u64 (p.res * 100 + d) } : Parse TimeAux) = p'
  have hrest : p'.rest = c :: (text ++ ch '.' :: fs) := hp' ▸ rfl
  have hitem : checkParseHHMMSS p' = endMMSS p'.res v p' (ch '.' :: fs) := by
    rw [checkParseHHMMSS, hrest]
    rcases hsep with rfl | rfl
    · rw [dropWhile_cons_of_neg (by decide)]
      dsimp only
      rw [if_pos rfl, hblank, if_pos (by rw [hhead]; exact he), parseHHMMSS_item h hfrac (Nat.le_refl _),
        endMMSS_goTo (by simp [hrest]) (by simp)]
      rfl
    · rw [dropWhile_cons_of_pos (by decide), hblank, hhead, cons_append]
      dsimp only
      rw [if_neg (by rintro rfl; exact absurd he (by decide)), if_pos he, ← cons_append, ← hhead,
        parseHHMMSS_item h hfrac (by simp [hrest])]
  rw [hitem, ← hp']
  exact endMMSS_goTo_res hlen (by simp; omega)

section

variable (hmon : Number mon m) (hm : 1 ≤ m ∧ m ≤ 12) (hday : Number day d) (hd : 1 ≤ d ∧ d ≤ 31)
  (hsep : c = ch '-' ∨ c = ch ' ') (h : TimeItem text v) (hfrac : Fraction (ch '.' :: fs) fs) (hres : p.res < 10000)
include hmon hm hday hd hsep h hfrac hres

/-- A date with '-'. -/
theorem parseDash_date (hlen : (mon ++ ch '-' :: (day ++ c :: (text ++ ch '.' :: fs))).length ≤ p.rest.length) :
    parseDash p (mon ++ ch '-' :: (day ++ c :: (text ++ ch '.' :: fs))) =
      endMMSS ((p.res * 100 + m) * 100 + d) v p (ch '.' :: fs) := by
  simp only [length_append, length_cons] at hlen
  rw [parseDash, parseUInt_number hmon (by omega) (stopsHere_cons (by decide) _)]
  dsimp only
  rw [dropWhile_cons_of_neg (by decide)]
  dsimp only
  rw [if_pos rfl, if_neg (by omega), parseDay_item hday hd hsep h hfrac (by simp [Parse.goTo]; omega)]
  dsimp only
  rw [u64_of_lt (n := p.res * 100 + m) (by omega), u64_of_lt (by omega)]
  exact endMMSS_goTo_res (by simp; omega) (by simp; omega)

/-- A date with '/'. -/
theorem parseSlash_date (hlen : (mon ++ ch '/' :: (day ++ c :: (text ++ ch '.' :: fs))).length ≤ p.rest.length) :
    parseSlash p (mon ++ ch '/' :: (day ++ c :: (text ++ ch '.' :: fs))) =
      endMMSS ((p.res * 100 + m) * 100 + d) v p (ch '.' :: fs) := by
  simp only [length_append, length_cons] at hlen
  rw [parseSlash, parseUInt100In, parseUInt_number hmon (by omega) (stopsHere_cons (by decide) _)]
  dsimp only
  rw [if_neg (by omega)]
  dsimp only
  rw [dropWhile_cons_of_neg (by decide)]
  dsimp only
  rw [if_pos rfl, parseDay_item hday hd hsep h hfrac (by simp [Parse.goTo]; omega)]
  dsimp only
  rw [u64_of_lt (n := p.res * 100 + m) (by omega), u64_of_lt (by omega)]
  exact endMMSS_goTo_res (by simp; omega) (by simp; omega)

end

/-- What is behind the number in front: the time, or the rest of the date and the time. -/
inductive Layout (n : ℕ) : Bytes → ℕ → ℕ → Prop
  | yyyymmdd {text : Bytes} {c : UInt8} {v : ℕ} (hsep : c = ch '-' ∨ c = ch ' ') (h : TimeItem text v) :
      Layout n (c :: text) n v
  | yyyy_mm_dd {mon day text : Bytes} {s c : UInt8} {m d v : ℕ} (hs : s = ch '-' ∨ s = ch '/') (hmon : Number mon m)
      (hm : 1 ≤ m ∧ m ≤ 12) (hday : Number day d) (hd : 1 ≤ d ∧ d ≤ 31) (hsep : c = ch '-' ∨ c = ch ' ')
      (h : TimeItem text v) : Layout n (s :: (mon ++ s :: (day ++ c :: text))) ((n * 100 + m) * 100 + d) v

theorem Layout.head (h : Layout N text date v) : ∃ c cs, text = c :: cs ∧ isdigit c = false ∧ c ≠ ch '.' := by
  cases h with
  | yyyymmdd hsep => exact ⟨_, _, rfl, by rcases hsep with rfl | rfl <;> decide, by rcases hsep with rfl | rfl <;> decide⟩
  | yyyy_mm_dd hs => exact ⟨_, _, rfl, by rcases hs with rfl | rfl <;> decide, by rcases hs with rfl | rfl <;> decide⟩

theorem Layout.time_lt (h : Layout N text date v) : v < 1000000 := by
  cases h with
  | yyyymmdd hsep h => exact h.lt
  | yyyy_mm_dd hs hmon hm hday hd hsep h => exact h.lt

theorem splitter_layout (h : Layout p.res text date v) (hdate : date < 100000000) (hfrac : Fraction (ch '.' :: fs) fs)
    (hrest : p.rest = text ++ ch '.' :: fs) :
    splitter p = endMMSS date v { p with aux := { p.aux with hasSplitter := true } } (ch '.' :: fs) := by
  obtain ⟨rest, cur, res, aux⟩ := p
  dsimp only at hrest h
  subst hrest
  rw [splitter]
  cases h with
  | yyyymmdd hsep h =>
    obtain ⟨e, text', hhead, he⟩ := h.head
    rcases hsep with rfl | rfl
    · rw [cons_append, dropWhile_cons_of_neg (by decide)]
      dsimp only
      rw [if_neg (by decide), if_pos rfl]
      exact parseDash_item h hfrac (Nat.le_succ _)
    · rw [cons_append, dropWhile_cons_of_pos (by decide), h.dropWhile_isspace, hhead, cons_append]
      dsimp only
      rw [if_neg (by rintro rfl; exact absurd he (by decide)), if_neg (by rintro rfl; exact absurd he (by decide)), if_pos he,
        ← cons_append, ← hhead]
      exact parseHHMMSS_item h hfrac (Nat.le_succ _)
  | yyyy_mm_dd hs hmon hm hday hd hsep h =>
    rw [cons_append, append_assoc, cons_append, append_assoc, cons_append]
    rcases hs with rfl | rfl
    · rw [dropWhile_cons_of_neg (by decide)]
      dsimp only
      rw [if_neg (by decide), if_pos rfl]
      exact parseDash_date hmon hm hday hd hsep h hfrac (by dsimp only; omega) (Nat.le_succ _)
    · rw [dropWhile_cons_of_neg (by decide)]
      dsimp only
      rw [if_pos rfl]
      exact parseSlash_date hmon hm hday hd hsep h hfrac (by dsimp only; omega) (Nat.le_succ _)

theorem checkValidChar_splitter (h : Reads p) (hc : c ≠ ch '.') : checkValidChar c p = splitter p := by
  obtain ⟨rest, cur, res, dec, hasSplitter⟩ := p
  obtain ⟨hend, hpoint, -, hsplitter⟩ := h
  dsimp only at hend hpoint hsplitter
  rw [checkValidChar, StrToDecIntAux.isValidChar]
  dsimp only
  rw [hpoint]
  dsimp only
  rw [if_pos hc, hsplitter]
  simp [hend]

/-- Behind the number in front the layout is read up to the point. -/
theorem checkValidChar_layout (hp : Reads p) (h : Layout p.res text date v) (hdate : date < 100000000)
    (hfrac : Fraction (ch '.' :: fs) fs) (hrest : p.rest = c :: cs) (htext : c :: cs = text ++ ch '.' :: fs) :
    Comes p (ch '.' :: fs) (date * kDivHHMMSS + v) p.aux.dec.negative (checkValidChar c p) := by
  obtain ⟨c', cs', rfl, -, hne⟩ := h.head
  obtain ⟨rfl, -⟩ := List.cons.inj htext
  have htime := h.time_lt
  have hpacked : u64 (date * kDivHHMMSS + v) = date * kDivHHMMSS + v := u64_of_lt (by rw [kDivHHMMSS]; omega)
  have hcomes := endMMSS_comes date v (s := p.rest) true hp hfrac (by simp [hrest, htext]; omega) (Nat.le_refl _)
  have hhere : ({ p with aux := { p.aux with hasSplitter := true } } : Parse TimeAux).goTo p.rest =
      { p with aux := { p.aux with hasSplitter := true } } := by simp [Parse.goTo, StrToNumCursor.forward]
  rw [checkValidChar_splitter hp hne, splitter_layout h hdate hfrac (hrest.trans htext)]
  rwa [hpacked, hhere] at hcomes

/-- At the point the date and time become seconds. -/
theorem isValidChar_comes (hp : Reads p) (h : Comes p (ch '.' :: fs) N .isPositive (checkValidChar c p)) (hN : N < 2 ^ 63) :
    Comes p (ch '.' :: fs) (toEpochSeconds toEpoch N).natAbs (signOf (decide (toEpochSeconds toEpoch N < 0)))
      (isValidChar toEpoch c p) := by
  obtain ⟨hgoes, hrest, hcurrent, hbegin, hend, hres, hneg, hscale, hpoint⟩ := h
  have hpoint := hpoint (cons_ne_nil _ _)
  have hwrap : IntType.int64.wrap N = N := by
    have hmin : IntType.min .int64 = -9223372036854775808 := by decide
    have hmax : IntType.max .int64 = 9223372036854775807 := by decide
    exact IntType.wrap_of_mem (by omega)
  rw [isValidChar, hpoint, hp.pointPos_eq, if_pos ⟨rfl, rfl⟩, resultToEpochSeconds]
  rw [hneg, if_pos rfl, hres, hwrap]
  generalize toEpochSeconds toEpoch N = es
  split
  next hes =>
    have hlt : ¬ es < 0 := by omega
    constructor <;> simp [hgoes, hrest, hbegin, hend, hneg, hscale, hpoint, hlt, signOf]
    all_goals omega
  next hes =>
    have hlt : es < 0 := by omega
    constructor <;> simp [hgoes, hrest, hbegin, hend, hscale, hpoint, hlt, signOf]
    all_goals omega

/-- A text that begins with a number has no sign. -/
theorem strTo_number {n : ℕ} (hds : Number ds n) (value : ℤ)
    (hq : numParse (isValidChar toEpoch) ((ds ++ c :: cs).length + 1) (timeStart .isPositive (ds ++ c :: cs)) = q) :
    strTo toEpoch (ds ++ c :: cs) value =
      (if q.cur.current = q.cur.origBegin then .ok value else makeResult toEpoch q, q.rest) := by
  have hblank := hds.dropWhile_isspace (c :: cs)
  obtain ⟨d, ds', rfl, hdigit⟩ := hds.head
  rw [strTo, hblank, cons_append]
  dsimp only
  rw [checkSign_digit hdigit, ← hq]
  rfl

/-- A date and time is read whole. -/
theorem strTo_comes {n : ℕ} (hds : Number ds n) (hn : n < 100000000000000) (hc : isdigit c = false)
    (hvalid : ∀ p : Parse TimeAux, Reads p → p.rest = c :: cs → p.res = n → p.aux.dec.negative = .isPositive →
      Comes p (ch '.' :: fs) N .isPositive (checkValidChar c p))
    (hfs : Digits fs) (hlen : fs.length = 6) (hcs : 6 ≤ cs.length) (hN : N < 100000000000000)
    (hes : (toEpochSeconds toEpoch N).natAbs < 1000000000000) (value : ℤ) :
    strTo toEpoch (ds ++ c :: cs) value =
      (.ok (withSign (decide (toEpochSeconds toEpoch N < 0))
        (((toEpochSeconds toEpoch N).natAbs * 1000000 + digitsValue fs : ℕ) : ℤ)), []) := by
  have hmax : tempMax .int64 = 18446744073709551615 := by decide
  have hus : digitsValue fs < 1000000 := by
    have hlt := digitsValue_lt hfs
    rwa [hlen] at hlt
  have hvalue : moreDigits (toEpochSeconds toEpoch N).natAbs fs =
      (toEpochSeconds toEpoch N).natAbs * 1000000 + digitsValue fs := by
    rw [moreDigits_eq, hlen]
    rfl
  generalize hq : numParse (isValidChar toEpoch) ((ds ++ c :: cs).length + 1) (timeStart .isPositive (ds ++ c :: cs)) = q
  obtain ⟨hdone, hpoint⟩ := numParse_splitter hds (by omega) hc
    (fun p hp hrest hres hneg => isValidChar_comes hp (hvalid p hp hrest hres hneg) (by omega)) (.point hfs (by omega))
    (by omega) (by rw [hvalue]; omega) hq
  have hpoint := hpoint (cons_ne_nil _ _)
  have hcurrent : q.cur.current = (ds ++ c :: cs).length := by simpa [timeStart] using hdone.current_eq
  have hbegin : q.cur.origBegin = 0 := hdone.origBegin_eq
  have hresult := hdone.makeResult_eq (by omega) (by rw [hlen, hvalue, Nat.sub_self, pow_zero, Nat.mul_one]; omega)
  rw [hlen, hvalue, Nat.sub_self, pow_zero, Nat.mul_one] at hresult
  rw [strTo_number hds value hq, hdone.rest_eq, if_neg (by rw [hcurrent, hbegin]; simp), makeResult,
    if_neg (by simpa using hpoint), hresult]

/-- The month of a date with '-' or '/' is checked, and the text is left there. -/
theorem strTo_month {n : ℕ} {s : UInt8} {rest : Bytes} (hds : Number ds n) (hn : n < 100000000000000)
    (hs : s = ch '-' ∨ s = ch '/') (hmon : Number mon 0) (value : ℤ) :
    (strTo toEpoch (ds ++ s :: (mon ++ s :: rest)) value).2 = mon ++ s :: rest := by
  have hc : isdigit s = false ∧ s ≠ ch '.' := by rcases hs with rfl | rfl <;> decide
  have hmax : tempMax .int64 = 18446744073709551615 := by decide
  obtain ⟨p, hskip, hreads, hrest, -, -, -⟩ := numParse_number (isValidChar toEpoch) .isPositive hds (by omega)
    (s :: (mon ++ s :: rest)) ((mon ++ s :: rest).length + 1 + 1)
  have hsplit : splitter p = (false,
      (({ p with aux := { p.aux with hasSplitter := true } } : Parse TimeAux).goTo (mon ++ s :: rest)).formatError) := by
    rw [splitter, hrest]
    rcases hs with rfl | rfl
    · rw [dropWhile_cons_of_neg (by decide)]
      dsimp only
      rw [if_neg (by decide), if_pos rfl, parseDash, parseUInt_number hmon (by omega) (stopsHere_cons (by decide) _)]
      dsimp only
      rw [dropWhile_cons_of_neg (by decide)]
      dsimp only
      rw [if_pos rfl, if_pos (by omega), ← hrest]
    · rw [dropWhile_cons_of_neg (by decide)]
      dsimp only
      rw [if_pos rfl, parseSlash, parseUInt100In, parseUInt_number hmon (by omega) (stopsHere_cons (by decide) _)]
      dsimp only
      rw [if_pos (by omega), ← hrest]
  have hvalid : isValidChar toEpoch s p = splitter p := by
    rw [isValidChar, checkValidChar_splitter hreads hc.2, hsplit]
    exact if_neg (by simp [Parse.formatError, Parse.goTo, hreads.pointPos_eq])
  rw [strTo_number hds value rfl, length_append, length_cons, Nat.add_assoc, hskip,
    numParse_stops hreads hrest hc.1, hvalid, hsplit]
  rfl

end Parse

/-! ### What is printed -/

/-- The six numbers of a date and time. -/
structure Stamp where
  year : ℕ
  mon : ℕ
  mday : ℕ
  hour : ℕ
  min : ℕ
  sec : ℕ
  year_lt : year < 10000
  mon_lt : mon < 100
  mday_lt : mday < 100
  hour_lt : hour < 100
  min_lt : min < 100
  sec_lt : sec < 100

namespace Stamp

variable (t : Stamp)

def date : ℕ := (t.year * 100 + t.mon) * 100 + t.mday

def time : ℕ := (t.hour * 100 + t.min) * 100 + t.sec

/-- What `timegm` is given. -/
def tm : Tm :=
  { sec := t.sec, min := t.min, hour := t.hour, mday := t.mday, mon := t.mon - 1, year := t.year - 1900 }

def InRange : Prop := (1 ≤ t.mon ∧ t.mon ≤ 12) ∧ 1 ≤ t.mday ∧ t.mday ≤ 31

/-- The digits of the year. -/
def yearText : Bytes := TimeStamp.put2Digs (t.year / 100) ++ TimeStamp.put2Digs (t.year % 100)

def dateText : Bytes := t.yearText ++ TimeStamp.put2Digs t.mon ++ TimeStamp.put2Digs t.mday

def timeText : Bytes := TimeStamp.put2Digs t.hour ++ TimeStamp.put2Digs t.min ++ TimeStamp.put2Digs t.sec

/-- A date with '-' or '/'. -/
def splitText (s : UInt8) : Bytes := t.yearText ++ s :: (TimeStamp.put2Digs t.mon ++ s :: TimeStamp.put2Digs t.mday)

/-- `YYYYMMDDHHMMSS_` of a new thread. -/
def zero : Stamp := ⟨0, 0, 0, 0, 0, 0, by decide, by decide, by decide, by decide, by decide, by decide⟩

theorem zero_tm : zero.tm = { mon := -1, year := -1900 } := rfl

theorem number_yearText : Number t.yearText t.year := by
  have hlt := t.year_lt
  have hnumber := number_append (number_put2Digs (n := t.year / 100) (by omega))
    (number_put2Digs (n := t.year % 100) (by omega)) (k := 2) rfl
  have hyear : t.year / 100 * 10 ^ 2 + t.year % 100 = t.year := by omega
  rwa [hyear] at hnumber

theorem number_dateText : Number t.dateText t.date :=
  number_append (number_append t.number_yearText (number_put2Digs t.mon_lt) rfl) (number_put2Digs t.mday_lt) rfl

theorem number_timeText : Number t.timeText t.time :=
  number_append (number_append (number_put2Digs t.hour_lt) (number_put2Digs t.min_lt) rfl) (number_put2Digs t.sec_lt) rfl

theorem number_text : Number (t.dateText ++ t.timeText) (t.date * 1000000 + t.time) := by
  have hnumber := number_append t.number_dateText t.number_timeText (k := 6) rfl
  norm_num at hnumber
  exact hnumber

theorem date_lt : t.date < 100000000 := by
  obtain ⟨_, _, _, _, _, _, hyear, hmon, hmday, -, -, -⟩ := t
  simp only [date]
  omega

theorem time_lt : t.time < 1000000 := by
  obtain ⟨_, _, _, _, _, _, -, -, -, hhour, hmin, hsec⟩ := t
  simp only [time]
  omega

theorem pic9ToStr_pair (w : ℕ) {v n : ℕ} (hn : n < 100) :
    pic9ToStr (w + 3) (v * 100 + n) = pic9ToStr (w + 1) v ++ TimeStamp.put2Digs n := by
  have hdiv : (v * 100 + n) / 100 = v := by omega
  have hmod : (v * 100 + n) % 100 = n := by omega
  rw [pic9ToStr, hdiv, hmod]

/-- The digits are those of the numbers. -/
theorem pic9ToStr_eq : pic9ToStr 14 (t.date * 1000000 + t.time) = t.dateText ++ t.timeText := by
  obtain ⟨year, mon, mday, hour, min, sec, hyear, hmon, hmday, hhour, hmin, hsec⟩ := t
  have hnumber : ((year * 100 + mon) * 100 + mday) * 1000000 + ((hour * 100 + min) * 100 + sec) =
      (((((year / 100 * 100 + year % 100) * 100 + mon) * 100 + mday) * 100 + hour) * 100 + min) * 100 + sec := by omega
  have hcentury : pic9ToStr 2 (year / 100) = TimeStamp.put2Digs (year / 100) := if_pos (by omega)
  simp only [date, time, dateText, timeText, yearText]
  rw [hnumber, pic9ToStr_pair 11 hsec, pic9ToStr_pair 9 hmin, pic9ToStr_pair 7 hhour, pic9ToStr_pair 5 hmday,
    pic9ToStr_pair 3 hmon, pic9ToStr_pair 1 (Nat.mod_lt _ (by decide)), hcentury]
  simp only [append_assoc]

theorem toEpochSeconds_eq (toEpoch : Tm → ℤ) :
    toEpochSeconds toEpoch ((t.date * 1000000 + t.time : ℕ) : ℤ) = toEpoch t.tm := by
  obtain ⟨year, mon, mday, hour, min, sec, hyear, hmon, hmday, hhour, hmin, hsec⟩ := t
  simp only [toEpochSeconds, tm, date, time]
  congr 1
  simp (disch := omega) only [Int.tdiv_eq_ediv_of_nonneg, Int.tmod_eq_emod_of_nonneg]
  simp only [Tm.mk.injEq, and_true]
  refine ⟨?_, ?_, ?_, ?_, ?_, ?_⟩ <;> omega

end Stamp

section Text

variable {toEpoch : Tm → ℤ} {t : Stamp} {n us : ℕ} {ds fs text : Bytes} {items : List TsFmtItem} {time : TsFmtItem}

/-- A date, '-' or a blank, and a time; or the item of both. -/
inductive DateTimeItems : List TsFmtItem → Prop
  | whole : DateTimeItems [.YYYYMMDDHHMMSS]
  | parts {date time : TsFmtItem} {sep : UInt8} (hdate : date ∈ [TsFmtItem.YYYYMMDD, .YYYY_MM_DD, .YYYYsMMsDD])
      (hsep : sep = ch '-' ∨ sep = ch ' ') (htime : time ∈ [TsFmtItem.HHMMSS, .HH_MM_SS]) :
      DateTimeItems [date, .char sep, time]

/-- All of the text is read, as the date and time `t` and microseconds. -/
def ReadsAs (toEpoch : Tm → ℤ) (t : Stamp) (us : ℕ) (text : Bytes) : Prop :=
  ∀ value, strTo toEpoch text value =
    (.ok (withSign (decide (toEpoch t.tm < 0)) (((toEpoch t.tm).natAbs * 1000000 + us : ℕ) : ℤ)), [])

/-- Six digits behind the point. -/
structure Micros (fs : Bytes) (us : ℕ) : Prop where
  number : Number fs us
  length_eq : fs.length = 6

theorem readsAs_whole (hfs : Micros fs us) (hes : (toEpoch t.tm).natAbs < 1000000000000) :
    ReadsAs toEpoch t us (t.dateText ++ t.timeText ++ ch '.' :: fs) := by
  intro value
  have hdate := t.date_lt
  have htime := t.time_lt
  have heq := t.toEpochSeconds_eq toEpoch
  have hvalid : ∀ p : Parse TimeAux, Reads p → p.rest = ch '.' :: fs → p.res = t.date * 1000000 + t.time →
      p.aux.dec.negative = .isPositive →
      Comes p (ch '.' :: fs) (t.date * 1000000 + t.time) .isPositive (checkValidChar (ch '.') p) := by
    intro p hp hrest hres hneg
    have hbase : checkValidChar (ch '.') p = timeIsValidChar (ch '.') p := by
      rw [checkValidChar, timeIsValidChar, StrToDecIntAux.isValidChar, hp.pointPos_eq]
      rfl
    rw [hbase, ← hres, ← hneg]
    exact timeIsValidChar_point hp hfs.length_eq.le hrest
  refine (strTo_comes t.number_text (by omega) (by decide) hvalid hfs.number.digits hfs.length_eq hfs.length_eq.ge (by omega)
    (by rwa [heq]) value).trans ?_
  rw [heq, hfs.number.value_eq]

theorem readsAs_layout (hds : Number ds n) (hn : n < 100000000) (h : Layout n text t.date t.time) (hfs : Micros fs us)
    (hes : (toEpoch t.tm).natAbs < 1000000000000) : ReadsAs toEpoch t us (ds ++ (text ++ ch '.' :: fs)) := by
  intro value
  have hdate := t.date_lt
  have htime := t.time_lt
  have heq := t.toEpochSeconds_eq toEpoch
  have hlen := hfs.length_eq
  obtain ⟨c, cs, rfl, hc, -⟩ := h.head
  have hvalid : ∀ p : Parse TimeAux, Reads p → p.rest = c :: (cs ++ ch '.' :: fs) → p.res = n →
      p.aux.dec.negative = .isPositive →
      Comes p (ch '.' :: fs) (t.date * 1000000 + t.time) .isPositive (checkValidChar c p) := by
    intro p hp hrest hres hneg
    subst hres
    rw [← hneg]
    exact checkValidChar_layout hp h hdate (.point hfs.number.digits hlen.le) hrest rfl
  refine (strTo_comes hds (by omega) hc hvalid hfs.number.digits hlen (by simp; omega) (by omega) (by rwa [heq]) value).trans ?_
  rw [heq, hfs.number.value_eq]

/-- With the month 0 the parser stops behind the first '-' or '/'. -/
theorem readsAs_split {s sep : UInt8} (hs : s = ch '-' ∨ s = ch '/') (hsep : sep = ch '-' ∨ sep = ch ' ')
    (hitem : TimeItem text t.time) (ht : t.InRange ∨ t.mon = 0) (hfs : Micros fs us)
    (hes : (toEpoch t.tm).natAbs < 1000000000000) :
    ReadsAs toEpoch t us (t.splitText s ++ (sep :: text ++ ch '.' :: fs)) ∨
      t.mon = 0 ∧ ∀ value, (strTo toEpoch (t.splitText s ++ (sep :: text ++ ch '.' :: fs)) value).2 ≠ [] := by
  have hyear := t.year_lt
  have hmon := number_put2Digs t.mon_lt
  rcases ht with hrange | hzero
  · have hread := readsAs_layout t.number_yearText (by omega)
      (.yyyy_mm_dd hs hmon hrange.1 (number_put2Digs t.mday_lt) hrange.2 hsep hitem) hfs hes
    left
    simpa [Stamp.splitText] using hread
  · refine .inr ⟨hzero, fun value => ?_⟩
    have hmon : Number (TimeStamp.put2Digs t.mon) 0 := by rwa [hzero] at hmon ⊢
    have htext : t.splitText s ++ (sep :: text ++ ch '.' :: fs) = t.yearText ++ s :: (TimeStamp.put2Digs t.mon ++
        s :: (TimeStamp.put2Digs t.mday ++ (sep :: text ++ ch '.' :: fs))) := by simp [Stamp.splitText]
    rw [htext, strTo_month t.number_yearText (by omega) hs hmon value]
    simp

/-- There is room for all items. -/
theorem putItems_parts (str : Bytes) (date : TsFmtItem) {sep : UInt8} {pout : Bytes}
    (hlen : (time.text str).length + pout.length < 80) :
    putItems str [date, .char sep, time].reverse pout = date.text str ++ (sep :: time.text str ++ pout) := by
  have hchar : (TsFmtItem.char sep).text str = [sep] := rfl
  simp only [reverse_cons, reverse_nil, nil_append, cons_append, putItems, numOutBufSize, hchar,
    length_append, length_cons]
  rw [if_neg (by omega), if_neg (by omega), ite_self]

theorem timeItem_text (htime : time ∈ [TsFmtItem.HHMMSS, .HH_MM_SS]) :
    TimeItem (time.text (t.dateText ++ t.timeText)) t.time ∧ (time.text (t.dateText ++ t.timeText)).length ≤ 8 := by
  simp only [List.mem_cons, not_mem_nil, or_false] at htime
  rcases htime with rfl | rfl
  · exact ⟨.hhmmss t.number_timeText t.time_lt, (by decide : 6 ≤ 8)⟩
  · exact ⟨.hh_mm_ss (number_put2Digs t.hour_lt) (number_put2Digs t.min_lt) (number_put2Digs t.sec_lt) t.hour_lt t.min_lt
      t.sec_lt, (by decide : 8 ≤ 8)⟩

theorem readsAs_items (h : DateTimeItems items) (ht : t.InRange ∨ t.mon = 0) (hfs : Micros fs us)
    (hes : (toEpoch t.tm).natAbs < 1000000000000) :
    ReadsAs toEpoch t us (putItems (t.dateText ++ t.timeText) items.reverse (ch '.' :: fs)) ∨
      t.mon = 0 ∧
        ∀ value, (strTo toEpoch (putItems (t.dateText ++ t.timeText) items.reverse (ch '.' :: fs)) value).2 ≠ [] := by
  cases h with
  | whole =>
    have hput : putItems (t.dateText ++ t.timeText) [TsFmtItem.YYYYMMDDHHMMSS].reverse (ch '.' :: fs) =
        t.dateText ++ t.timeText ++ ch '.' :: fs := by
      simp only [reverse_singleton, putItems, TsFmtItem.text]
      exact ite_self _
    rw [hput]
    exact .inl (readsAs_whole hfs hes)
  | @parts date time sep hdate hsep htime =>
    obtain ⟨hitem, hlen⟩ := timeItem_text (t := t) htime
    have hpout : (ch '.' :: fs).length = 7 := by rw [length_cons, hfs.length_eq]
    rw [putItems_parts _ _ (by omega)]
    simp only [List.mem_cons, not_mem_nil, or_false] at hdate
    rcases hdate with rfl | rfl | rfl
    · exact .inl (readsAs_layout t.number_dateText t.date_lt (.yyyymmdd hsep hitem) hfs hes)
    · exact readsAs_split (.inl rfl) hsep hitem ht hfs hes
    · exact readsAs_split (.inr rfl) hsep hitem ht hfs hes

end Text

/-! ### From the cache -/

section Calls

open TimeStamp.Cache

variable {cal : Calendar} {toEpoch : Tm → ℤ} {c : Cache} {calls : List Call} {ts secs : ℕ} {items : List TsFmtItem}

/-- The cache of a thread behind its calls. -/
def after (cal : Calendar) (calls : List Call) (c : Cache) : Cache := calls.foldl (fun c x => (c.call cal x).2) c

/-- A new thread takes the second 0 for the one it has, until it has another one. -/
def Known (calls : List Call) (secs : ℕ) : Prop := secs ≠ 0 ∨ ∃ x ∈ calls, x.seconds ≠ 0

theorem after_valid (h : Valid cal c) (calls : List Call) : Valid cal (after cal calls c) := by
  induction calls generalizing c with
  | nil => exact h
  | cons x xs ih => exact ih (call_valid h fun _ => rfl)

/-- The calendar is not asked for the second of the cache. -/
theorem checkCachedTm_same (cal' : Calendar) (h : c.epochSeconds = secs) :
    c.checkCachedTm cal secs = c.checkCachedTm cal' secs := by
  rw [checkCachedTm, checkCachedTm, if_pos h, if_pos h]

theorem call_same (cal' : Calendar) {x : Call} (h : c.epochSeconds = x.seconds) : c.call cal x = c.call cal' x := by
  have hcache : c.checkCachedTm cal x.seconds = c.checkCachedTm cal' x.seconds := checkCachedTm_same cal' h
  cases x <;> simp only [Call.seconds] at hcache <;> simp only [call, toStrRev_Full, toStrRev_FIXMS, toStr_FIX, hcache]

theorem call_epochSeconds (x : Call) : (c.call cal x).2.epochSeconds = x.seconds := by
  cases x with
  | epochSecondsInfo | epochSecondsToYYYYMMDDHHMMSS => exact checkCachedTm_epochSeconds
  | toStrRev_FIX => exact toStr_FIX_epochSeconds
  | toStrRev_Full ts =>
    simp only [call, toStrRev_Full, Call.seconds]
    split_ifs <;> simp [putDateTime, putUS]
  | toStrRev_FIXMS ts =>
    simp only [call, toStrRev_FIXMS, Call.seconds]
    split_ifs <;> simp

/-- By induction on the calls: while all are for the second 0, the calendar of the cache has no second. -/
theorem after_fresh (cal : Calendar) (h : Valid (fun _ => none) c) (hes : c.epochSeconds = 0) (calls : List Call) :
    (∃ x ∈ calls, x.seconds ≠ 0) ∧ Valid cal (after cal calls c) ∨
      (∀ x ∈ calls, x.seconds = 0) ∧ Valid (fun _ => none) (after cal calls c) ∧ (after cal calls c).epochSeconds = 0 := by
  induction calls generalizing c with
  | nil => exact .inr ⟨by simp, h, hes⟩
  | cons x xs ih =>
    by_cases hx : x.seconds = 0
    · have hsame : c.call cal x = c.call (fun _ => none) x := call_same _ (hes.trans hx.symm)
      have hnext := call_valid (x := x) h fun _ => rfl
      rw [← hsame] at hnext
      rcases ih hnext ((call_epochSeconds x).trans hx) with hseen | hzero
      · exact .inl ⟨by simp [hseen.1], hseen.2⟩
      · exact .inr ⟨forall_mem_cons.mpr ⟨hx, hzero.1⟩, hzero.2⟩
    · refine .inl ⟨⟨x, mem_cons_self, hx⟩, after_valid (call_valid h fun heq => ?_) xs⟩
      exact absurd (heq.symm.trans hes) hx

theorem after_shown (cal : Calendar) (calls : List Call) (secs : ℕ) :
    ∃ cal₀ cal', Valid cal₀ (after cal calls {}) ∧ ((after cal calls {}).epochSeconds = secs → cal₀ = cal') ∧
      (after cal calls {}).checkCachedTm cal secs = (after cal calls {}).checkCachedTm cal' secs ∧
        (Known calls secs ∧ cal' = cal ∨ ¬ Known calls secs ∧ cal' = fun _ => none) := by
  rcases after_fresh cal valid_fresh rfl calls with hseen | hzero
  · exact ⟨cal, cal, hseen.2, fun _ => rfl, rfl, .inl ⟨.inr hseen.1, rfl⟩⟩
  · by_cases hsecs : secs = 0
    · have hknown : ¬ Known calls secs := by
        rintro (hne | hne)
        · exact hne hsecs
        · obtain ⟨x, hx, hne⟩ := hne
          exact hne (hzero.1 x hx)
      exact ⟨_, _, hzero.2.1, fun _ => rfl, checkCachedTm_same _ (hzero.2.2.trans hsecs.symm), .inr ⟨hknown, rfl⟩⟩
    · exact ⟨_, cal, hzero.2.1, fun heq => absurd (heq.symm.trans hzero.2.2) hsecs, rfl, .inl ⟨.inl hsecs, rfl⟩⟩

/-- `gmtime_r` and `timegm` of the seconds up to the year 9999; `timegm` of a zeroed date is in the past. -/
structure Inverse (cal : Calendar) (toEpoch : Tm → ℤ) : Prop where
  back : ∀ secs < 253402300800, ∃ (t : Stamp) (tm : Tm), cal secs = some tm ∧ t.InRange ∧
    { tm with wday := 0, yday := 0, isdst := 0 } = t.tm ∧ toEpoch t.tm = secs
  zero : -100000000000 < toEpoch { mon := -1, year := -1900 } ∧ toEpoch { mon := -1, year := -1900 } < 0

/-- The text is read whole, and is the time stamp. -/
def ComesBack (toEpoch : Tm → ℤ) (text : Bytes) (ts : ℕ) : Prop := strTo toEpoch text (origNull .int64) = (.ok (ts : ℤ), [])

/-- What the texts of a second are made of. -/
theorem shown_stamp (hcal : Inverse cal toEpoch) (hsecs : secs < 253402300800) {cal' : Calendar}
    (h : Known calls secs ∧ cal' = cal ∨ ¬ Known calls secs ∧ cal' = fun _ => none) :
    ∃ t : Stamp, (cal'.dateTime14 secs).natAbs = t.date * 1000000 + t.time ∧ (toEpoch t.tm).natAbs < 1000000000000 ∧
      (Known calls secs ∧ t.InRange ∧ toEpoch t.tm = secs ∨ ¬ Known calls secs ∧ t.mon = 0 ∧ toEpoch t.tm < 0) := by
  rcases h with ⟨hknown, rfl⟩ | ⟨hknown, rfl⟩
  · obtain ⟨t, tm, hsome, hrange, htm, hback⟩ := hcal.back secs hsecs
    have hdate : cal'.dateTime14 secs = t.tm.toDateTime14 := by
      rw [Calendar.dateTime14, hsome, ← htm]
      rfl
    refine ⟨t, ?_, by omega, .inl ⟨hknown, hrange, hback⟩⟩
    rw [hdate]
    simp only [Tm.toDateTime14, Stamp.tm, Stamp.date, Stamp.time]
    omega
  · have hzero := hcal.zero
    have hdate : 0 = Stamp.zero.date * 1000000 + Stamp.zero.time := by decide
    rw [← Stamp.zero_tm] at hzero
    exact ⟨Stamp.zero, hdate, by omega, .inr ⟨hknown, rfl, hzero.2⟩⟩

theorem comesBack_iff_known {t : Stamp} {text : Bytes}
    (ht : Known calls (ts / divisor) ∧ t.InRange ∧ toEpoch t.tm = (ts / divisor : ℕ) ∨
      ¬ Known calls (ts / divisor) ∧ t.mon = 0 ∧ toEpoch t.tm < 0)
    (h : ReadsAs toEpoch t (ts % divisor) text ∨ t.mon = 0 ∧ ∀ value, (strTo toEpoch text value).2 ≠ []) :
    ComesBack toEpoch text ts ↔ Known calls (ts / divisor) := by
  rcases ht with ⟨hknown, hrange, hback⟩ | ⟨hknown, -, hpast⟩
  · have hread := h.resolve_right fun hzero => absurd hrange.1.1 (by omega)
    have hvalue : (ts / divisor : ℕ) * 1000000 + ts % divisor = ts := by
      rw [divisor]
      omega
    refine iff_of_true ?_ hknown
    rw [ComesBack, hread, hback, Int.natAbs_natCast, hvalue, decide_eq_false (by omega)]
    rfl
  · refine iff_of_false (fun hcomes => ?_) hknown
    rcases h with hread | ⟨-, hrest⟩
    · rw [ComesBack, hread, decide_eq_true hpast] at hcomes
      simp only [withSign, if_true, Prod.mk.injEq, Except.ok.injEq, and_true] at hcomes
      omega
    · exact hrest _ (congrArg Prod.snd hcomes)

theorem micros_pic9ToStr {us : ℕ} (h : us < 1000000) : Micros (pic9ToStr 6 us) us := by
  have hnumber : us = (us / 10000 * 100 + us / 100 % 100) * 100 + us % 100 := by omega
  have hfront : pic9ToStr 2 (us / 10000) = TimeStamp.put2Digs (us / 10000) := if_pos (by omega)
  have htext : pic9ToStr 6 us = TimeStamp.put2Digs (us / 10000) ++ TimeStamp.put2Digs (us / 100 % 100) ++
      TimeStamp.put2Digs (us % 100) := by
    conv_lhs => rw [hnumber]
    rw [Stamp.pic9ToStr_pair 3 (Nat.mod_lt _ (by decide)), Stamp.pic9ToStr_pair 1 (Nat.mod_lt _ (by decide)), hfront]
  have hds := number_append (number_append (number_put2Digs (n := us / 10000) (by omega))
    (number_put2Digs (n := us / 100 % 100) (Nat.mod_lt _ (by decide))) (k := 2) rfl)
    (number_put2Digs (n := us % 100) (Nat.mod_lt _ (by decide))) (k := 2) rfl
  rw [htext]
  refine ⟨?_, rfl⟩
  norm_num only at hds
  rwa [← hnumber] at hds

/-- Six digits of the microseconds, for a format. -/
theorem toStrRevTimeIntervalDec_six (ts : ℕ) :
    ∃ fs, toStrRevTimeIntervalDec ts (some 6) = (ch '.' :: fs, ts / divisor) ∧ Micros fs (ts % divisor) := by
  obtain ⟨fs, hput, hfs, hlen, hvalue⟩ := putDigits_eq 6 [] ts
  refine ⟨fs, ?_, ⟨hfs, ?_, hvalue⟩, hlen⟩
  · rw [toStrRevTimeIntervalDec, toStrRevDecScalePrecision, if_pos (Nat.le_refl _), Nat.sub_self, replicate_zero,
      nil_append, hput, append_nil]
    · rfl
    · decide
  · rintro rfl
    cases hlen

/-- A time stamp comes back from its text, in each format, exactly where the thread has had another second than the
first one of 1970 or the time stamp is in another one. -/
theorem comesBack_iff (hcal : Inverse cal toEpoch) (calls : List Call) (hts : ts / divisor < 253402300800)
    (hitems : DateTimeItems items) :
    (ComesBack toEpoch (toStrRevFull cal (after cal calls {}) ts) ts ↔ Known calls (ts / divisor)) ∧
      (ComesBack toEpoch (toStrRev cal (after cal calls {}) ts { items := items, precision := some 6 }) ts ↔
        Known calls (ts / divisor)) := by
  obtain ⟨cal₀, cal', hvalid, hsame, hcache, hshown⟩ := after_shown cal calls (ts / divisor)
  obtain ⟨t, hdate, hes, ht⟩ := shown_stamp hcal hts hshown
  have hus : ts % divisor < 1000000 := Nat.mod_lt _ (by decide)
  have hrange : t.InRange ∨ t.mon = 0 := ht.imp (fun h => h.2.1) fun h => h.2.1
  generalize after cal calls {} = c at hvalid hsame hcache ⊢
  constructor
  · have hfull : c.toStrRev_Full cal ts = c.toStrRev_Full cal' ts := by rw [Cache.toStrRev_Full, Cache.toStrRev_Full, hcache]
    obtain ⟨-, -, -, htext⟩ := toStrRev_Full_valid hvalid hsame
    rw [toStrRevFull, hfull, htext, hdate, t.pic9ToStr_eq]
    exact comesBack_iff_known ht (.inl (readsAs_whole (micros_pic9ToStr hus) hes))
  · obtain ⟨fs, hfs, hmicros⟩ := toStrRevTimeIntervalDec_six ts
    have hvalue : (((ts : ℤ) + 0 * 60 * (divisor : ℤ)) % 2 ^ 64).toNat = ts := by
      have hlt : ts < 253402300800 * 1000000 := (Nat.div_lt_iff_lt_mul (by decide)).mp hts
      omega
    have hstr : (c.checkCachedTm cal' (ts / divisor)).2.yyyymmddhhmmss = cal'.dateTime14 (ts / divisor) := by
      have hchecked := (checkCachedTm_valid hvalid hsame).dateTime
      rwa [checkCachedTm_epochSeconds] at hchecked
    have hne : items ≠ [] := by
      rintro rfl
      cases hitems
    have htext : toStrRev cal c ts { items := items, precision := some 6 } =
        putItems (t.dateText ++ t.timeText) items.reverse (ch '.' :: fs) := by
      rw [toStrRev, if_neg (by simp)]
      dsimp only
      rw [hvalue, hfs]
      dsimp only
      rw [if_neg hne, hcache, hstr, hdate, t.pic9ToStr_eq, toStrRevLastJustify]
      simp
    rw [htext]
    exact comesBack_iff_known ht (readsAs_items hitems hrange hmicros hes)

/-- A calendar with months of 31 days; January 1970 is as it was. -/
def monthsOf31 : Calendar := fun secs =>
  some {
    sec := secs % 60, min := secs / 60 % 60, hour := secs / 3600 % 24, mday := secs / 86400 % 31 + 1
    mon := secs / 86400 / 31 % 12, year := secs / 86400 / 372 + 70, wday := (secs / 86400 + 4) % 7, yday := secs / 86400 % 372 }

def ofMonthsOf31 (tm : Tm) : ℤ :=
  ((((tm.year - 70) * 12 + tm.mon) * 31 + (tm.mday - 1)) * 24 + tm.hour) * 3600 + tm.min * 60 + tm.sec

theorem inverse_monthsOf31 : Inverse monthsOf31 ofMonthsOf31 where
  back := by
    intro secs hsecs
    have hyear : secs / 86400 / 372 + 1970 < 10000 := by omega
    have hmon : secs / 86400 / 31 % 12 + 1 < 100 := by omega
    have hmday : secs / 86400 % 31 + 1 < 100 := by omega
    refine ⟨⟨secs / 86400 / 372 + 1970, secs / 86400 / 31 % 12 + 1, secs / 86400 % 31 + 1, secs / 3600 % 24, secs / 60 % 60,
      secs % 60, hyear, hmon, hmday, by omega, by omega, by omega⟩, _, rfl, ?_, ?_, ?_⟩
    · simp only [Stamp.InRange]
      omega
    · simp only [Stamp.tm, Tm.mk.injEq, and_true]
      refine ⟨?_, ?_, ?_, ?_, ?_, ?_⟩ <;> omega
    · simp only [Stamp.tm, ofMonthsOf31]
      omega
  zero := by decide

/-- A thread that has had another second. -/
theorem comesBack_iff_january :
    (ComesBack ofMonthsOf31 (toStrRevFull monthsOf31 (after monthsOf31 [.toStrRev_FIX 5000000] {}) 7) 7 ↔
        Known [.toStrRev_FIX 5000000] (7 / divisor)) ∧
      (ComesBack ofMonthsOf31 (toStrRev monthsOf31 (after monthsOf31 [.toStrRev_FIX 5000000] {}) 7
          { items := [.YYYY_MM_DD, .char (ch '-'), .HH_MM_SS], precision := some 6 }) 7 ↔
        Known [.toStrRev_FIX 5000000] (7 / divisor)) :=
  comesBack_iff inverse_monthsOf31 _ (by decide) (.parts (by simp) (.inl rfl) (by simp))

/-- The first text of a thread is "00000000000000.000000" for the first second of 1970. -/
theorem not_comesBack_first :
    ¬ ∀ (cal : Calendar) (toEpoch : Tm → ℤ), Inverse cal toEpoch → ∀ (calls : List Call) (ts : ℕ) (items : List TsFmtItem),
      ts / divisor < 253402300800 → DateTimeItems items →
        ComesBack toEpoch (toStrRevFull cal (after cal calls {}) ts) ts ∧
          ComesBack toEpoch (toStrRev cal (after cal calls {}) ts { items := items, precision := some 6 }) ts := by
  intro h
  have hback := (h monthsOf31 ofMonthsOf31 inverse_monthsOf31 [] 0 _ (by decide) .whole).1
  have hread : ReadsAs ofMonthsOf31 Stamp.zero 0 (Stamp.zero.dateText ++ Stamp.zero.timeText ++ ch '.' :: pic9ToStr 6 0) :=
    readsAs_whole (micros_pic9ToStr (by decide)) (by decide)
  have htext : toStrRevFull monthsOf31 (after monthsOf31 [] {}) 0 =
      Stamp.zero.dateText ++ Stamp.zero.timeText ++ ch '.' :: pic9ToStr 6 0 := rfl
  rw [ComesBack, htext, hread] at hback
  revert hback
  decide

end Calls

end Fon9.Num.TimeStampText
