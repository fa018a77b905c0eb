import Fon9.Num.DecimalValue

/-! `StrTo` of a fixed point number: the numeral at the start of the text, rounded to the scale
and clamped. The state of the loop is followed through the integer digits, the point and the
fraction. -/

namespace Fon9.Num

open Bitv List Int StrToDecIntAux

variable {t : IntType} {decPoint c : UInt8} {scale : ℕ} {negative : Bool} {cur start : StrToNumCursor} {N pointPos : ℕ}
  {ds rest : Bytes} {s : DecIntAux} {n : Negative} {v : ℤ}

theorem withSign_mul (negative : Bool) (v m : ℤ) : withSign negative v * m = withSign negative (v * m) := by
  cases negative with
  | false => rfl
  | true => exact neg_mul v m

/-- The parse has come to `rest`, past the start, and the result is the clamped value. -/
structure Ends (t : IntType) (scale : ℕ) (start : StrToNumCursor) (rest : Bytes) (v : ℤ) (p : Parse DecIntAux) : Prop where
  rest_eq : p.rest = rest
  origBegin_eq : p.cur.origBegin = start.origBegin
  current_lt : start.current < p.cur.current
  makeResult_eq : StrToDecIntAux.makeResult t scale p.res p.aux = .ok (clamp t v)

/-- A result with `j` digits of the fraction. -/
theorem makeResult_eq {j : ℕ} (hs : s.scale = j) (hj : j ≤ scale) (hscale : scale ≤ decScaleMax)
    (h : StrToIntAux.makeResult t N s.negative = clamp t v) :
    makeResult t scale N s = .ok (clamp t (v * 10 ^ (scale - j))) := by
  rw [makeResult, hs, if_neg (by omega), toNat_natCast, h,
    adjust_self (fits_clamp t v) hj (by omega), clamp_mul_clamp (ten_pow_pos _)]

theorem dec_isValidChar : (strToDecIntAux t decPoint scale).isValidChar = StrToDecIntAux.isValidChar decPoint scale := rfl

theorem dec_onOverflow : (strToDecIntAux t decPoint scale).onOverflow = onOverflow t scale := rfl

theorem dec_onParseNormalEnd : (strToDecIntAux t decPoint scale).onParseNormalEnd = onParseNormalEnd t := rfl

theorem takeWhile_digits (hds : Digits ds) (hrest : StopsHere rest) : (ds ++ rest).takeWhile isdigit = ds := by
  have hstop : rest.takeWhile isdigit = [] := by
    cases rest with
    | nil => rfl
    | cons c cs => exact takeWhile_cons_of_neg hrest.head
  rw [takeWhile_append_of_pos hds, hstop, append_nil]

theorem dropWhile_digits (hds : Digits ds) (hrest : StopsHere rest) : (ds ++ rest).dropWhile isdigit = rest := by
  have hstop : rest.dropWhile isdigit = rest := by
    cases rest with
    | nil => rfl
    | cons c cs => exact dropWhile_cons_of_neg hrest.head
  rw [dropWhile_append_of_pos hds, hstop]

/-! ### The fraction -/

theorem five_le_digval : ∀ c : UInt8, isdigit c = true → (ch '5' ≤ c ↔ 5 ≤ digval c) := by
  have h : ∀ m : Fin 256, isdigit (UInt8.ofFin m) = true → (ch '5' ≤ UInt8.ofFin m ↔ 5 ≤ digval (UInt8.ofFin m)) := by
    decide +kernel
  exact fun c => h c.toFin

/-- The digit behind rounds, in the loop as after it. -/
theorem makeResult_round (hneg : negative = true → t.isSigned = true) (hN : N ≤ tempMax t) (d : ℕ) :
    let r := if 5 ≤ d then StrToIntAux.onOverflowInc t N (signOf negative) else (N, signOf negative)
    StrToIntAux.makeResult t r.1 r.2 = clamp t (withSign negative ((N + if 5 ≤ d then 1 else 0 : ℕ) : ℤ)) := by
  by_cases hd : 5 ≤ d
  · simp only [if_pos hd]
    exact makeResult_onOverflowInc hneg hN
  · simp only [if_neg hd]
    exact makeResult_sign hneg hN

theorem removeFollowDigit_fraction_stops (hrest : StopsHere rest) (hpoint : s.pointPos = some pointPos) (hs : 0 ≤ s.scale) :
    removeFollowDigit (strToDecIntAux t decPoint scale) rest cur N s = ⟨rest, cur, N, s⟩ := by
  cases rest with
  | nil => rfl
  | cons c cs =>
    have hvalid : (strToDecIntAux t decPoint scale).isValidChar c cur s = (false, cur, s) := by
      rw [dec_isValidChar, StrToDecIntAux.isValidChar, hpoint]
      dsimp only
      rw [if_neg (Int.not_lt.mpr hs)]
    rw [removeFollowDigit, if_neg hrest.head, hvalid]

/-- A fraction that ends the number: its digits are counted. -/
theorem parse_fraction_stops {j : ℕ} (hrest : StopsHere rest) (hcur : cur.current = pointPos + 1 + j) :
    parse (strToDecIntAux t decPoint scale) rest cur N ⟨n, some pointPos, -1⟩ = ⟨rest, cur, N, ⟨n, some pointPos, j⟩⟩ := by
  have hcount : (cur.current : ℤ) - pointPos - 1 = j := by omega
  cases rest with
  | nil =>
    rw [parse, dec_onParseNormalEnd, onParseNormalEnd]
    dsimp only
    rw [hcount]
  | cons c cs =>
    rw [parse]
    by_cases hend : cur.current < cur.expectEnd
    · have hvalid : StrToDecIntAux.isValidChar decPoint scale c cur ⟨n, some pointPos, -1⟩ =
          (false, cur, ⟨n, some pointPos, j⟩) := by
        rw [StrToDecIntAux.isValidChar, ← hcount]
        rfl
      rw [if_pos hend, if_neg hrest.head, dec_isValidChar, hvalid]
    · have hnot : ¬ (5 ≤ digval c ∧ digval c ≤ 9) := fun h => hrest.head (isdigit_iff.mpr h.2)
      have htake : (c :: cs).takeWhile isdigit = [] := takeWhile_cons_of_neg hrest.head
      have hdrop : (c :: cs).dropWhile isdigit = c :: cs := dropWhile_cons_of_neg hrest.head
      rw [if_neg hend, dec_onParseNormalEnd, onParseNormalEnd]
      dsimp only
      rw [if_neg hnot, htake, hdrop, hcount]
      rfl

/-- The end of the digits that count: the next one rounds. -/
theorem parse_fraction_rounds (hds : Digits (c :: ds)) (hrest : StopsHere rest) (hcur : cur.current = pointPos + 1 + scale)
    (hend : cur.expectEnd ≤ cur.current) (m : ℤ) :
    parse (strToDecIntAux t decPoint scale) (c :: ds ++ rest) cur N ⟨n, some pointPos, m⟩ =
      let r := if 5 ≤ digval c then StrToIntAux.onOverflowInc t N n else (N, n)
      ⟨rest, cur.forward (c :: ds).length, r.1, ⟨r.2, some pointPos, scale⟩⟩ := by
  have hcount : (cur.current : ℤ) - pointPos - 1 = scale := by omega
  have hc : digval c ≤ 9 := isdigit_iff.mp (hds c (mem_cons_self ..))
  have htake := takeWhile_digits hds hrest
  have hdrop := dropWhile_digits hds hrest
  rw [cons_append] at htake hdrop ⊢
  rw [parse, if_neg (by omega), dec_onParseNormalEnd, onParseNormalEnd]
  dsimp only
  rw [htake, hdrop, hcount]
  by_cases hd : 5 ≤ digval c
  · rw [if_pos ⟨hd, hc⟩, if_pos hd]
  · rw [if_neg fun h => hd h.1, if_neg hd]

/-- A digit of the fraction that does not fit: what is dropped with it does not matter. -/
theorem clamp_overflow {a b : Bytes} (hover : tempMax t < moreDigits N a * 10 + digval c) (hc : digval c ≤ 9)
    (hlt : a.length < scale) :
    clamp t (withSign negative ((moreDigits N a + if 5 ≤ digval c then 1 else 0 : ℕ) : ℤ) * 10 ^ (scale - a.length)) =
      clamp t (withSign negative (scaled (moreDigits N (a ++ c :: b)) (a ++ c :: b).length scale)) := by
  obtain ⟨-, -, -, -, hmod⟩ := tempMax_bounds t
  obtain ⟨k, rfl⟩ := Nat.exists_eq_add_of_lt hlt
  have hlower : (((moreDigits N a * 10 + digval c) * 10 ^ k : ℕ) : ℤ) ≤
      scaled (moreDigits N (a ++ c :: b)) (a ++ c :: b).length (a.length + k + 1) := by
    have hprefix : (moreDigits N a * 10 + digval c) * 10 ^ ((a ++ c :: b).length - (a.length + 1)) ≤
        moreDigits N (a ++ c :: b) := by
      rw [moreDigits_append, moreDigits_cons, moreDigits_eq _ b, length_append, length_cons]
      have hrest : a.length + (b.length + 1) - (a.length + 1) = b.length := by omega
      rw [hrest]
      exact Nat.le_add_right _ _
    have hexp : a.length + k + 1 - (a.length + 1) = k := by omega
    have hle : (((moreDigits N a * 10 + digval c) * 10 ^ (a.length + k + 1 - (a.length + 1)) : ℕ) : ℤ) ≤
        scaled (moreDigits N (a ++ c :: b)) (a ++ c :: b).length (a.length + k + 1) :=
      le_scaled hprefix (by rw [length_append, length_cons]; omega) (by omega)
    rwa [hexp] at hle
  have hpow : 1 ≤ 10 ^ k := Nat.one_le_pow _ _ (by decide)
  obtain ⟨V, hV⟩ := eq_ofNat_of_zero_le ((natCast_nonneg _).trans hlower)
  rw [hV] at hlower ⊢
  have hlower' : (moreDigits N a * 10 + digval c) * 10 ^ k ≤ V := by exact_mod_cast hlower
  have hmul : withSign negative ((moreDigits N a + if 5 ≤ digval c then 1 else 0 : ℕ) : ℤ) * 10 ^ (a.length + k + 1 - a.length) =
      withSign negative (((moreDigits N a + if 5 ≤ digval c then 1 else 0) * 10 * 10 ^ k : ℕ) : ℤ) := by
    have hexp : a.length + k + 1 - a.length = k + 1 := by omega
    rw [withSign_mul, hexp, pow_succ]
    congr 1
    push_cast
    ring
  have hround : tempMax t < (moreDigits N a + if 5 ≤ digval c then 1 else 0) * 10 := by split_ifs <;> omega
  rw [hmul]
  exact clamp_large (hround.trans_le (Nat.le_mul_of_pos_right _ hpow))
    ((hover.trans_le (Nat.le_mul_of_pos_right _ hpow)).trans_le hlower')

/-- The fraction, from the character behind the point. -/
theorem parse_fraction (hscale : scale ≤ decScaleMax) (hneg : negative = true → t.isSigned = true) (hds : Digits ds)
    (hrest : StopsHere rest) (hN : N ≤ tempMax t) (hcur : cur.current = pointPos + 1)
    (hend : cur.expectEnd = min (cur.current + (ds ++ rest).length) (pointPos + scale + 1))
    (hstart : start.current ≤ pointPos) (horig : start.origBegin = cur.origBegin) :
    Ends t scale start rest (withSign negative (scaled (moreDigits N ds) ds.length scale))
      (parse (strToDecIntAux t decPoint scale) (ds ++ rest) cur N ⟨signOf negative, some pointPos, -1⟩) := by
  have hlen : (ds ++ rest).length = ds.length + rest.length := length_append
  have hsplit := take_append_drop scale ds
  have htake : (ds.take scale).length = min scale ds.length := length_take
  by_cases hfits : moreDigits N (ds.take scale) ≤ tempMax t
  · by_cases hshort : ds.length ≤ scale
    · -- every digit of the fraction counts
      rw [take_of_length_le hshort] at hfits
      have hfits' : moreDigits N ds ≤ (strToDecIntAux t decPoint scale).tempMax := hfits
      rw [parse_digits hds (by omega) hfits', parse_fraction_stops hrest (j := ds.length) (by rw [forward_current]; omega)]
      refine ⟨rfl, horig.symm, by show _ < cur.current + _; omega, ?_⟩
      rw [makeResult_eq rfl hshort hscale (makeResult_sign hneg hfits), withSign_mul]
      obtain ⟨k, rfl⟩ := Nat.exists_eq_add_of_le hshort
      rw [scaled_up, Nat.add_sub_cancel_left]
    · -- the digit behind those that count rounds
      obtain ⟨c, more, hdrop⟩ := exists_cons_of_length_pos (by rw [length_drop]; omega : 0 < (ds.drop scale).length)
      rw [hdrop] at hsplit
      have hmore : Digits (c :: more) := hdrop ▸ hds.drop scale
      have hc : digval c ≤ 9 := isdigit_iff.mp (hmore c (mem_cons_self ..))
      have hfits' : moreDigits N (ds.take scale) ≤ (strToDecIntAux t decPoint scale).tempMax := hfits
      have htext : ds ++ rest = ds.take scale ++ (c :: more ++ rest) := by rw [← append_assoc, hsplit]
      have htake' : (ds.take scale).length = scale := by omega
      have hlength : ds.length = scale + (more.length + 1) := by
        rw [← hsplit, length_append, htake', length_cons]
      rw [htext, parse_digits (hds.take scale) (by omega) hfits',
        parse_fraction_rounds hmore hrest (by rw [forward_current]; omega) (by rw [forward_current, forward_expectEnd]; omega)]
      refine ⟨rfl, horig.symm, by show _ < cur.current + _ + _; omega, ?_⟩
      have hround := makeResult_round hneg hfits (digval c)
      dsimp only at hround ⊢
      rw [makeResult_eq rfl le_rfl hscale hround, Nat.sub_self, pow_zero, mul_one, hlength]
      have hvalue : moreDigits N ds = moreDigits N (ds.take scale) * 10 ^ (more.length + 1) +
          (digval c * 10 ^ more.length + digitsValue more) := by
        have hcons : digitsValue (c :: more) = digval c * 10 ^ more.length + digitsValue more := by
          rw [← moreDigits_zero, moreDigits_cons, moreDigits_eq, zero_mul, zero_add]
        rw [← hcons, ← length_cons, ← moreDigits_eq, ← moreDigits_append, hsplit]
      rw [hvalue, scaled_round hc (digitsValue_lt fun c' hc' => hmore c' (mem_cons_of_mem c hc'))]
  · -- a digit that counts does not fit
    obtain ⟨a, c, b, htaken, hfits', hover⟩ := exists_overflow hN (not_le.mp hfits)
    have hltaken : a.length < (ds.take scale).length := by
      rw [htaken, length_append, length_cons]
      omega
    have hlt : a.length < scale := by omega
    have htext : ds ++ rest = a ++ c :: b ++ (ds.drop scale ++ rest) := by
      rw [← htaken, ← append_assoc, hsplit]
    have htaken' := hds.take scale
    rw [htaken] at htaken'
    have hc : isdigit c = true := htaken' c (by simp)
    have hcount : ((cur.forward a.length).current : ℤ) - pointPos - 1 = a.length := by rw [forward_current]; omega
    have hremove : (strToDecIntAux t decPoint scale).onOverflow c (cur.forward a.length) (moreDigits N a)
        ⟨signOf negative, some pointPos, -1⟩ =
        let r := if 5 ≤ digval c then StrToIntAux.onOverflowInc t (moreDigits N a) (signOf negative)
          else (moreDigits N a, signOf negative)
        (.removeFollowDigit, r.1, ⟨r.2, some pointPos, a.length⟩) := by
      rw [dec_onOverflow, onOverflow]
      dsimp only
      rw [hcount]
      simp only [five_le_digval c hc]
    rw [htext, parse_overflow (fun x hx => htaken' x (by simp [hx])) hc (fun x hx => htaken' x (by simp [hx]))
        (by omega) hfits' hover hremove,
      removeFollowDigit_digits (hds.drop scale), removeFollowDigit_fraction_stops hrest rfl (natCast_nonneg _)]
    refine ⟨rfl, horig.symm, by show _ < cur.current + _ + _; omega, ?_⟩
    have hround := makeResult_round hneg hfits' (digval c)
    dsimp only at hround ⊢
    rw [makeResult_eq rfl hlt.le hscale hround, clamp_overflow (b := b ++ ds.drop scale) hover (isdigit_iff.mp hc) hlt]
    have hds' : a ++ c :: (b ++ ds.drop scale) = ds := by
      have happ : a ++ c :: (b ++ ds.drop scale) = a ++ c :: b ++ ds.drop scale := by simp
      rw [happ, ← htaken, hsplit]
    rw [hds']

/-! ### The integer digits -/

/-- Neither a digit nor the point. -/
theorem parse_plain_stops (hrest : StopsHere rest) (hpoint : ∀ c ∈ rest.head?, c ≠ decPoint) (m : ℤ) :
    parse (strToDecIntAux t decPoint scale) rest cur N ⟨n, none, m⟩ = ⟨rest, cur, N, ⟨n, none, m⟩⟩ := by
  cases rest with
  | nil => rfl
  | cons c cs =>
    have hvalid : StrToDecIntAux.isValidChar decPoint scale c cur ⟨n, none, m⟩ = (false, cur, ⟨n, none, m⟩) :=
      if_pos (hpoint c rfl)
    rw [parse]
    split_ifs with hend hdigit
    · exact absurd hdigit hrest.head
    · exact absurd hdigit hrest.head
    · rw [dec_isValidChar, hvalid]
    · rfl

theorem removeFollowDigit_plain_stops (hrest : StopsHere rest) (hpoint : ∀ c ∈ rest.head?, c ≠ decPoint) (m : ℤ) :
    removeFollowDigit (strToDecIntAux t decPoint scale) rest cur N ⟨n, none, m⟩ = ⟨rest, cur, N, ⟨n, none, m⟩⟩ := by
  cases rest with
  | nil => rfl
  | cons c cs =>
    have hvalid : StrToDecIntAux.isValidChar decPoint scale c cur ⟨n, none, m⟩ = (false, cur, ⟨n, none, m⟩) :=
      if_pos (hpoint c rfl)
    rw [removeFollowDigit, if_neg hrest.head, dec_isValidChar, hvalid]

/-- Integer digits that do not fit: the rest of them is skipped, and the scale is the expected one. -/
theorem parse_integer_overflow (hds : Digits ds) (hend : cur.current + ds.length ≤ cur.expectEnd)
    (hover : tempMax t < digitsValue ds) (decPoint : UInt8) (scale : ℕ) (negative : Bool) (rest : Bytes) :
    ∃ a, let r := StrToIntAux.onOverflow t a (signOf negative)
      parse (strToDecIntAux t decPoint scale) (ds ++ rest) cur 0 ⟨signOf negative, none, -1⟩ =
        removeFollowDigit (strToDecIntAux t decPoint scale) rest (cur.forward ds.length) r.1 ⟨r.2, none, scale⟩ := by
  obtain ⟨a, c, b, rfl, hfits, hover'⟩ := exists_overflow (Nat.zero_le _) hover
  rw [length_append, length_cons] at hend
  exact ⟨_, parse_overflow (fun x hx => hds x (by simp [hx])) (hds c (by simp)) (fun x hx => hds x (by simp [hx]))
    (by omega) hfits hover' rfl⟩

/-- A number that is clamped for its integer digits. -/
theorem clamp_integer_overflow {fs : Bytes} (hover : tempMax t < digitsValue ds) :
    clamp t (withSign negative (digitsValue ds : ℤ)) =
      clamp t (withSign negative (scaled (digitsValue (ds ++ fs)) fs.length scale)) := by
  have hprefix : digitsValue ds * 10 ^ (fs.length - 0) ≤ digitsValue (ds ++ fs) := by
    rw [digitsValue_append]
    exact Nat.le_add_right _ _
  have hlower : ((digitsValue ds * 10 ^ (scale - 0) : ℕ) : ℤ) ≤ scaled (digitsValue (ds ++ fs)) fs.length scale :=
    le_scaled hprefix (Nat.zero_le _) (Nat.zero_le _)
  obtain ⟨V, hV⟩ := eq_ofNat_of_zero_le ((natCast_nonneg _).trans hlower)
  rw [hV] at hlower ⊢
  have hlower' : digitsValue ds * 10 ^ (scale - 0) ≤ V := by exact_mod_cast hlower
  exact clamp_large hover ((hover.trans_le (Nat.le_mul_of_pos_right _ (by positivity))).trans_le hlower')

theorem makeResult_integer_overflow (fs : Bytes) (pos : Option ℕ) (hscale : scale ≤ decScaleMax)
    (hneg : negative = true → t.isSigned = true) (hover : tempMax t < digitsValue ds) (a : ℕ) :
    let r := StrToIntAux.onOverflow t a (signOf negative)
    makeResult t scale r.1 ⟨r.2, pos, scale⟩ =
      .ok (clamp t (withSign negative (scaled (digitsValue (ds ++ fs)) fs.length scale))) := by
  have hresult := makeResult_onOverflow (N := a) hneg hover
  dsimp only at hresult ⊢
  rw [makeResult_eq rfl le_rfl hscale hresult, Nat.sub_self, pow_zero, mul_one, clamp_integer_overflow hover]

/-- A numeral without a fraction. -/
theorem parse_plain (hscale : scale ≤ decScaleMax) (hneg : negative = true → t.isSigned = true) (hds : Digits ds)
    (hrest : StopsHere rest) (hpoint : ∀ c ∈ rest.head?, c ≠ decPoint)
    (hend : cur.expectEnd = cur.current + (ds ++ rest).length) (hne : ds ≠ []) :
    Ends t scale cur rest (withSign negative (scaled (digitsValue ds) 0 scale))
      (parse (strToDecIntAux t decPoint scale) (ds ++ rest) cur 0 ⟨signOf negative, none, -1⟩) := by
  have hpos := length_pos_iff.mpr hne
  rw [length_append] at hend
  by_cases hfits : digitsValue ds ≤ tempMax t
  · have hfits' : moreDigits 0 ds ≤ (strToDecIntAux t decPoint scale).tempMax := hfits
    rw [parse_digits hds (by omega) hfits', parse_plain_stops hrest hpoint]
    refine ⟨rfl, rfl, by show _ < cur.current + _; omega, ?_⟩
    have hcounted : makeResult t scale (digitsValue ds) ⟨signOf negative, none, -1⟩ =
        makeResult t scale (digitsValue ds) ⟨signOf negative, none, (0 : ℕ)⟩ := rfl
    have hup := scaled_up (digitsValue ds) 0 scale
    rw [Nat.zero_add] at hup
    rw [moreDigits_zero, hcounted, makeResult_eq rfl (Nat.zero_le _) hscale (makeResult_sign hneg hfits), withSign_mul,
      Nat.sub_zero, hup]
  · have htaken : cur.current + ds.length ≤ cur.expectEnd := by omega
    obtain ⟨a, hparse⟩ := parse_integer_overflow hds htaken (not_le.mp hfits) decPoint scale negative rest
    dsimp only at hparse
    rw [hparse, removeFollowDigit_plain_stops hrest hpoint]
    refine ⟨rfl, rfl, by show _ < cur.current + _; omega, ?_⟩
    have hresult := makeResult_integer_overflow [] none hscale hneg (not_le.mp hfits) a
    rwa [append_nil] at hresult

/-- A numeral with a point. -/
theorem parse_point {fs : Bytes} (hscale : scale ≤ decScaleMax) (hneg : negative = true → t.isSigned = true)
    (hds : Digits ds) (hfs : Digits fs) (hrest : StopsHere rest) (hpoint : isdigit decPoint = false)
    (hend : cur.expectEnd = cur.current + (ds ++ decPoint :: (fs ++ rest)).length) :
    Ends t scale cur rest (withSign negative (scaled (digitsValue (ds ++ fs)) fs.length scale))
      (parse (strToDecIntAux t decPoint scale) (ds ++ decPoint :: (fs ++ rest)) cur 0 ⟨signOf negative, none, -1⟩) := by
  have hvalid (N : ℕ) (n : Negative) (m : ℤ) (cur : StrToNumCursor) :
      (strToDecIntAux t decPoint scale).isValidChar decPoint cur ⟨n, none, m⟩ =
        (true, { cur with expectEnd := min cur.expectEnd (cur.current + scale + 1) }, ⟨n, some cur.current, m⟩) :=
    if_neg (not_not.mpr rfl)
  rw [length_append, length_cons, length_append] at hend
  by_cases hfits : digitsValue ds ≤ tempMax t
  · have hfits' : moreDigits 0 ds ≤ (strToDecIntAux t decPoint scale).tempMax := hfits
    rw [parse_digits hds (by omega) hfits', parse, if_pos (by rw [forward_current, forward_expectEnd]; omega),
      if_neg (Bool.eq_false_iff.mp hpoint), hvalid 0]
    have hvalue : moreDigits 0 (ds ++ fs) = moreDigits (moreDigits 0 ds) fs := moreDigits_append 0 ds fs
    rw [← moreDigits_zero (ds ++ fs), hvalue]
    refine parse_fraction hscale hneg hfs hrest hfits rfl ?_ ?_ rfl
    · show min cur.expectEnd (cur.current + ds.length + scale + 1) =
        min (cur.current + ds.length + 1 + (fs ++ rest).length) (cur.current + ds.length + scale + 1)
      rw [length_append, hend]
      omega
    · show cur.current ≤ cur.current + ds.length
      omega
  · have htaken : cur.current + ds.length ≤ cur.expectEnd := by omega
    obtain ⟨a, hparse⟩ := parse_integer_overflow hds htaken (not_le.mp hfits) decPoint scale negative
      (decPoint :: (fs ++ rest))
    dsimp only at hparse
    rw [hparse, removeFollowDigit, if_neg (Bool.eq_false_iff.mp hpoint), hvalid 0]
    dsimp only
    rw [removeFollowDigit_digits hfs, removeFollowDigit_fraction_stops hrest rfl (natCast_nonneg _)]
    refine ⟨rfl, rfl, by show _ < cur.current + _ + _ + _; omega, ?_⟩
    exact makeResult_integer_overflow fs _ hscale hneg (not_le.mp hfits) a

/-! ### The conversion -/

theorem strToNum_ends {str : Bytes} {out : ℤ} {pbeg : ℕ} {p : Parse DecIntAux} (hp : Ends t scale ⟨pbeg, str.length, pbeg⟩ rest v p)
    (hmoves : p.cur.current ≠ p.cur.origBegin →
      strToNum (strToDecIntAux t decPoint scale) str out =
        ((strToDecIntAux t decPoint scale).makeResult p.res p.aux).map fun v => (v, p.rest)) :
    strToNum (strToDecIntAux t decPoint scale) str out = .ok (clamp t v, rest) := by
  have hlt : pbeg < p.cur.current := hp.current_lt
  have horig : p.cur.origBegin = pbeg := hp.origBegin_eq
  have hmake : (strToDecIntAux t decPoint scale).makeResult p.res p.aux = .ok (clamp t v) := hp.makeResult_eq
  rw [hmoves (by omega), hmake, ← hp.rest_eq]
  rfl

/-- The numeral of a text, by what stands behind its integer digits. -/
theorem decNumeral_plain {str : Bytes} (hpoint : ∀ c ∈ ((signedText t str).2.dropWhile isdigit).head?, c ≠ decPoint) :
    decNumeral t decPoint str =
      (if (signedText t str).2.takeWhile isdigit = [] then none
        else some (withSign (signedText t str).1 (digitsValue ((signedText t str).2.takeWhile isdigit) : ℚ)),
        (signedText t str).2.dropWhile isdigit) := by
  rw [decNumeral]
  generalize signedText t str = signed at hpoint
  obtain ⟨negative, text⟩ := signed
  dsimp only at hpoint ⊢
  generalize text.dropWhile isdigit = rest at hpoint
  cases rest with
  | nil => rfl
  | cons c cs =>
    dsimp only
    rw [if_neg (hpoint c rfl)]

theorem decNumeral_point {str cs : Bytes} (hrest : (signedText t str).2.dropWhile isdigit = decPoint :: cs) :
    decNumeral t decPoint str =
      (some (withSign (signedText t str).1 ((digitsValue ((signedText t str).2.takeWhile isdigit) : ℚ) +
        digitsValue (cs.takeWhile isdigit) / 10 ^ (cs.takeWhile isdigit).length)), cs.dropWhile isdigit) := by
  rw [decNumeral]
  generalize signedText t str = signed at hrest
  obtain ⟨negative, text⟩ := signed
  dsimp only at hrest ⊢
  rw [hrest]
  dsimp only
  rw [if_pos rfl]

theorem strToDec_eq (t : IntType) (decPoint : UInt8) (hscale : scale ≤ decScaleMax) (str : Bytes) (value : ℤ) :
    strToDec t decPoint scale str value =
      .ok ((decNumeral t decPoint str).1.elim value fun q => clamp t (roundAway (q * 10 ^ scale)), (decNumeral t decPoint str).2) := by
  have hsign (c : UInt8) : ((strToDecIntAux t decPoint scale).checkSign c).1 = (StrToIntAux.checkSign t c).1 := rfl
  rw [strToDec]
  by_cases htext : (signedText t str).2 = []
  · have hplain : decNumeral t decPoint str = _ := decNumeral_plain (by rw [htext]; exact fun c hc => nomatch hc)
    rw [strToNum_nil hsign htext, hplain, htext]
    rfl
  · obtain ⟨c, hneg, pbeg, hlen, hparse⟩ := strToNum_cons hsign htext value
    have hstate : ((strToDecIntAux t decPoint scale).checkSign c).2 = ⟨signOf (signedText t str).1, none, -1⟩ := by
      rw [← hneg]
      rfl
    rw [hstate] at hparse
    have hsplit := takeWhile_append_dropWhile (p := isdigit) (l := (signedText t str).2)
    have hsigned : (signedText t str).1 = true → t.isSigned = true := signedText_signed
    have hdigits := digits_takeWhile (signedText t str).2
    have hstops := stopsHere_dropWhile (signedText t str).2
    let cur : StrToNumCursor := ⟨pbeg, str.length, pbeg⟩
    by_cases hpoint : ∀ c ∈ ((signedText t str).2.dropWhile isdigit).head?, c ≠ decPoint
    · rw [decNumeral_plain hpoint]
      have hend : cur.expectEnd = cur.current +
          ((signedText t str).2.takeWhile isdigit ++ (signedText t str).2.dropWhile isdigit).length := by
        rw [hsplit]
        exact hlen
      by_cases hnone : (signedText t str).2.takeWhile isdigit = []
      · have hrest : (signedText t str).2.dropWhile isdigit = (signedText t str).2 := by
          rw [hnone] at hsplit
          exact hsplit
        rw [hrest] at hstops hpoint
        rw [if_pos hnone, (hparse _ (parse_plain_stops hstops hpoint (-1))).1 rfl, hrest]
        rfl
      · have hends := parse_plain hscale hsigned hdigits hstops hpoint hend hnone
        rw [hsplit] at hends
        rw [if_neg hnone, strToNum_ends hends (hparse _ rfl).2, ← roundAway_digits]
        rfl
    · push Not at hpoint
      obtain ⟨c, hc, rfl⟩ := hpoint
      obtain ⟨cs, hrest⟩ : ∃ cs, (signedText t str).2.dropWhile isdigit = c :: cs := head?_eq_some_iff.mp hc
      rw [decNumeral_point hrest]
      have hsplit' := takeWhile_append_dropWhile (p := isdigit) (l := cs)
      have hnotdigit : isdigit c = false := hstops c hc
      have hbody : (signedText t str).2 =
          (signedText t str).2.takeWhile isdigit ++ c :: (cs.takeWhile isdigit ++ cs.dropWhile isdigit) := by
        rw [hsplit', ← hrest, hsplit]
      have hend : cur.expectEnd = cur.current +
          ((signedText t str).2.takeWhile isdigit ++ c :: (cs.takeWhile isdigit ++ cs.dropWhile isdigit)).length := by
        rw [← hbody]
        exact hlen
      have hends := parse_point hscale hsigned hdigits (digits_takeWhile cs) (stopsHere_dropWhile cs) hnotdigit hend
      rw [← hbody] at hends
      rw [strToNum_ends hends (hparse _ rfl).2, ← roundAway_numeral]
      rfl

/-- The numeral at the start of a text, clamped; for a fixed point number of a supported scale
rounded first. -/
theorem strTo_saturates :
    (∀ (t : IntType) (str : Bytes) (value : ℤ),
      strTo t str value = .ok ((intNumeral t str).1.elim value (clamp t), (intNumeral t str).2)) ∧
    ∀ (t : IntType) (decPoint : UInt8) (decScale : ℕ) (str : Bytes) (value : ℤ), decScale ≤ decScaleMax →
      strToDec t decPoint decScale str value =
        .ok ((decNumeral t decPoint str).1.elim value fun q => clamp t (roundAway (q * 10 ^ decScale)),
          (decNumeral t decPoint str).2) :=
  ⟨strTo_eq, fun t decPoint _ str value hscale => strToDec_eq t decPoint hscale str value⟩

/-- `-1.25` to one digit. -/
theorem strTo_saturates_quarter :
    1 ≤ decScaleMax ∧
      strToDec .int16 (ch '.') 1 [ch '-', ch '1', ch '.', ch '2', ch '5'] 0 =
        .ok ((decNumeral .int16 (ch '.') [ch '-', ch '1', ch '.', ch '2', ch '5']).1.elim 0 fun q =>
          clamp .int16 (roundAway (q * 10 ^ 1)), (decNumeral .int16 (ch '.') [ch '-', ch '1', ch '.', ch '2', ch '5']).2) :=
  ⟨by decide, strTo_saturates.2 .int16 (ch '.') 1 _ 0 (by decide)⟩

/-- With the 19 digits that the divisor of `uint64_t` has room for, there is no divisor for `1`. -/
theorem no_divisor_of_19 :
    Fits .uint64 (10 ^ 19) ∧ strToDec .uint64 (ch '.') 19 [ch '1'] 0 ≠
      .ok ((decNumeral .uint64 (ch '.') [ch '1']).1.elim 0 fun q => clamp .uint64 (roundAway (q * 10 ^ 19)),
        (decNumeral .uint64 (ch '.') [ch '1']).2) := by
  have hraises : strToDec .uint64 (ch '.') 19 [ch '1'] 0 = .error .range := rfl
  exact ⟨by decide, fun h => nomatch hraises.symm.trans h⟩

end Fon9.Num
