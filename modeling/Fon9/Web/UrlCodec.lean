import Fon9.StrTools.Normalize

/-! `UrlCodec`: text as a part of an URL. A byte is kept or written as "%XX"; reading goes
through the text with a cursor, and a read where the text has no byte is one past its end. -/

namespace Fon9.Web

open Lib StrTools List UInt8

/-- `isalnum`, that no byte from 0x80 on is. -/
def isalnum (c : UInt8) : Bool :=
  (ch '0' ≤ c && c ≤ ch '9') || (ch 'A' ≤ c && c ≤ ch 'Z') || (ch 'a' ≤ c && c ≤ ch 'z')

/-- The bytes that `UrlEncodeAppend` keeps. A '-' is asked for twice, a '.' never. -/
def isPlain (c : UInt8) : Bool := isalnum c || c == ch '-' || c == ch '-' || c == ch '_'

/-- `cstrHEX` -/
def cstrHEX (n : UInt8) : UInt8 := if n < 10 then ch '0' + n else ch 'A' + (n - 10)

def urlEncodeChar (c : UInt8) : Bytes :=
  if isPlain c then [c] else [ch '%', cstrHEX (c >>> 4), cstrHEX (c &&& 0x0f)]

def urlEncodeAppend (dst src : Bytes) : Bytes := src.foldl (fun dst c => dst ++ urlEncodeChar c) dst

def urlEncodeTo (src : Bytes) : Bytes := urlEncodeAppend [] src

/-- `UrlDecodeTo`, which calls the function that encodes. -/
def urlDecodeTo (src : Bytes) : Bytes := urlEncodeAppend [] src

/-- The loop of `UrlDecodeAppend`: the position of `pcur`, and what `dst` has. -/
structure UrlDecoder where
  pcur : ℕ
  dst : Bytes

/-- One round; it ends the loop with `dst`, or with nothing at a read past the end. -/
def urlDecodeRound (src : Bytes) (s : UrlDecoder) : UrlDecoder ⊕ Option Bytes :=
  if s.pcur = src.length then .inr (some s.dst)
  else
    match src[s.pcur]? with
    | none => .inr none
    | some c =>
      let pcur := s.pcur + 1
      if c = ch '+' then .inl ⟨pcur, s.dst ++ [ch ' ']⟩
      else if c = ch '%' ∧ pcur + 2 ≤ src.length then
        match src[pcur]? with
        | none => .inr none
        | some h =>
          -- the second digit is looked at only behind a first one
          if 0x7f < alpha2Hex h then .inl ⟨pcur, s.dst ++ [c]⟩
          else
            match src[pcur + 1]? with
            | none => .inr none
            | some l =>
              if 0x7f < alpha2Hex l then .inl ⟨pcur, s.dst ++ [c]⟩
              else .inl ⟨pcur + 2, s.dst ++ [alpha2Hex h <<< 4 ||| alpha2Hex l]⟩
      else .inl ⟨pcur, s.dst ++ [c]⟩

/-- `UrlDecodeAppend`, in at most `fuel` rounds. -/
def urlDecodeAppend (fuel : ℕ) (dst src : Bytes) : Option (Option Bytes) :=
  loop (urlDecodeRound src) fuel ⟨0, dst⟩

variable {src s pre rest dst text : Bytes} {c : UInt8} {n : ℕ}

/-! ### The encoded text -/

theorem urlEncodeAppend_eq (dst src : Bytes) :
    urlEncodeAppend dst src = dst ++ src.flatMap urlEncodeChar := by
  unfold urlEncodeAppend
  induction src generalizing dst with
  | nil => simp
  | cons c src ih => simp [ih]

theorem urlEncodeTo_eq (src : Bytes) : urlEncodeTo src = src.flatMap urlEncodeChar := by
  simp [urlEncodeTo, urlEncodeAppend_eq]

@[simp] theorem isPlain_percent : isPlain (ch '%') = false := by decide

@[simp] theorem isPlain_plus : isPlain (ch '+') = false := by decide

theorem alpha2Hex_cstrHEX (h : n < 16) : alpha2Hex (cstrHEX n.toUInt8) = n.toUInt8 := by
  interval_cases n <;> decide

theorem toUInt8_hi (c : UInt8) : c >>> 4 = (c.toNat / 16).toUInt8 := by
  apply UInt8.toNat_inj.1
  have hc := c.toNat_lt
  simp [UInt8.toNat_shiftRight, Nat.shiftRight_eq_div_pow]
  omega

theorem toUInt8_lo (c : UInt8) : c &&& 0x0f = (c.toNat % 16).toUInt8 := by
  apply UInt8.toNat_inj.1
  have hand : c.toNat &&& 15 = c.toNat % 16 := Nat.and_two_pow_sub_one_eq_mod c.toNat 4
  have hc := c.toNat_lt
  simp [UInt8.toNat_and, hand]
  omega

theorem alpha2Hex_hi (c : UInt8) : alpha2Hex (cstrHEX (c >>> 4)) = c >>> 4 := by
  have hc := c.toNat_lt
  rw [toUInt8_hi, alpha2Hex_cstrHEX (by omega)]

theorem alpha2Hex_lo (c : UInt8) : alpha2Hex (cstrHEX (c &&& 0x0f)) = c &&& 0x0f := by
  rw [toUInt8_lo, alpha2Hex_cstrHEX (by omega)]

/-- The two digits of a byte make it again. -/
theorem hi_or_lo (c : UInt8) : (c >>> 4) <<< 4 ||| (c &&& 0x0f) = c := by
  apply UInt8.toBitVec_inj.1
  ext i hi
  interval_cases i <;> simp

/-- The digits of a byte are less than 16, so that their values are not above 0x7f. -/
theorem hi_le (c : UInt8) : c >>> 4 ≤ 0x0f := by
  have hc := c.toNat_lt
  simp [le_iff_toNat_le, UInt8.toNat_shiftRight, Nat.shiftRight_eq_div_pow]
  omega

theorem lo_le (c : UInt8) : c &&& 0x0f ≤ 0x0f := by
  simpa [le_iff_toNat_le] using Nat.and_le_right

theorem not_above (h : c ≤ 0x0f) : ¬ 0x7f < c := by
  simp only [le_iff_toNat_le, lt_iff_toNat_lt] at h ⊢
  have h7f : (0x7f : UInt8).toNat = 127 := rfl
  have h0f : (0x0f : UInt8).toNat = 15 := rfl
  omega

/-- Text of letters, digits, '-', '_', '.' and "%XX". -/
inductive UrlText : Bytes → Prop
  | nil : UrlText []
  | plain {c : UInt8} {s : Bytes} (hc : isalnum c ∨ c = ch '-' ∨ c = ch '_' ∨ c = ch '.') (hs : UrlText s) :
      UrlText (c :: s)
  | escape {h l : UInt8} {s : Bytes} (hh : alpha2Hex h ≤ 0x0f) (hl : alpha2Hex l ≤ 0x0f) (hs : UrlText s) :
      UrlText (ch '%' :: h :: l :: s)

theorem isPlain_cases (h : isPlain c) : isalnum c ∨ c = ch '-' ∨ c = ch '_' ∨ c = ch '.' := by
  simp only [isPlain, Bool.or_eq_true, beq_iff_eq] at h
  tauto

theorem urlText_urlEncodeTo (s : Bytes) : UrlText (urlEncodeTo s) := by
  rw [urlEncodeTo_eq]
  induction s with
  | nil => exact .nil
  | cons c s ih =>
    rw [flatMap_cons, urlEncodeChar]
    split
    next hc => exact .plain (isPlain_cases hc) ih
    next =>
      apply UrlText.escape _ _ ih
      · rw [alpha2Hex_hi]
        exact hi_le c
      · rw [alpha2Hex_lo]
        exact lo_le c

/-! ### Encoding twice -/

theorem length_urlEncodeChar (c : UInt8) : (urlEncodeChar c).length = if isPlain c then 1 else 3 := by
  unfold urlEncodeChar
  split <;> rfl

theorem length_le_urlEncodeTo (s : Bytes) : s.length ≤ (urlEncodeTo s).length := by
  rw [urlEncodeTo_eq]
  induction s with
  | nil => simp
  | cons c s ih =>
    rw [flatMap_cons, length_append, length_urlEncodeChar, length_cons]
    split <;> omega

theorem urlEncodeTo_of_plain (h : s.all isPlain) : urlEncodeTo s = s := by
  rw [urlEncodeTo_eq]
  induction s with
  | nil => rfl
  | cons c s ih =>
    simp only [all_cons, Bool.and_eq_true] at h
    rw [flatMap_cons, ih h.2, urlEncodeChar, if_pos h.1, singleton_append]

theorem plain_of_length (h : (urlEncodeTo s).length = s.length) : s.all isPlain := by
  induction s with
  | nil => rfl
  | cons c s ih =>
    have hle := length_le_urlEncodeTo s
    simp only [urlEncodeTo_eq, flatMap_cons, length_append, length_urlEncodeChar, length_cons] at h hle ih
    split at h
    next hc =>
      have hs := ih (by omega)
      simp [hc, hs]
    next => omega

/-- What is encoded twice never comes back, but where nothing is to encode. -/
theorem urlDecodeTo_urlEncodeTo (s : Bytes) : urlDecodeTo (urlEncodeTo s) = s ↔ s.all isPlain := by
  change urlEncodeTo (urlEncodeTo s) = s ↔ _
  constructor
  · intro h
    have hle := length_le_urlEncodeTo s
    have hle' := length_le_urlEncodeTo (urlEncodeTo s)
    rw [h] at hle'
    exact plain_of_length (le_antisymm hle' hle)
  · intro h
    rw [urlEncodeTo_of_plain h, urlEncodeTo_of_plain h]

/-! ### Decoding -/

theorem round_end : urlDecodeRound src ⟨src.length, dst⟩ = .inr (some dst) := by
  simp [urlDecodeRound]

/-- One round reads what a byte was encoded to. -/
theorem round_urlEncodeChar (pre rest dst : Bytes) (c : UInt8) :
    urlDecodeRound (pre ++ urlEncodeChar c ++ rest) ⟨pre.length, dst⟩ =
      .inl ⟨(pre ++ urlEncodeChar c).length, dst ++ [c]⟩ := by
  unfold urlEncodeChar
  split
  next hc =>
    have hplus : c ≠ ch '+' := by
      rintro rfl
      simp at hc
    have hpercent : c ≠ ch '%' := by
      rintro rfl
      simp at hc
    simp [urlDecodeRound, hplus, hpercent]
  next hc =>
    have hplus : ch '%' ≠ ch '+' := by decide
    have hhi := not_above (hi_le c)
    have hlo := not_above (lo_le c)
    have hroom : pre.length + 1 + 2 ≤ pre.length + (rest.length + 1 + 1 + 1) := by omega
    have hlast (a b : UInt8) : (pre ++ ch '%' :: a :: b :: rest)[pre.length + 1 + 1]? = some b := by
      simp [add_assoc]
    simp [urlDecodeRound, hplus, hroom, hlast, alpha2Hex_hi, alpha2Hex_lo, hhi, hlo, hi_or_lo]

/-- From where the encoded text of `s` begins, the loop takes one round for each of its bytes. -/
theorem loop_urlEncode (pre s dst : Bytes) :
    loop (urlDecodeRound (pre ++ s.flatMap urlEncodeChar)) (s.length + 1) ⟨pre.length, dst⟩ =
      some (some (dst ++ s)) := by
  induction s generalizing pre dst with
  | nil => simpa using loop_ends round_end
  | cons c s ih =>
    have hround := round_urlEncodeChar pre (s.flatMap urlEncodeChar) dst c
    rw [flatMap_cons, ← append_assoc, length_cons, loop_goes hround, ih]
    simp

theorem urlDecodeAppend_urlEncodeTo (s dst : Bytes) :
    urlDecodeAppend (s.length + 1) dst (urlEncodeTo s) = some (some (dst ++ s)) := by
  rw [urlEncodeTo_eq]
  exact loop_urlEncode [] s dst

/-- A round goes on further in the text and not past its end. -/
theorem round_goes {s s' : UrlDecoder} (h : s.pcur ≤ src.length) (hr : urlDecodeRound src s = .inl s') :
    s.pcur < s'.pcur ∧ s'.pcur ≤ src.length := by
  unfold urlDecodeRound at hr
  split at hr
  next => cases hr
  next hne =>
    split at hr
    next => cases hr
    next c hc =>
      dsimp only at hr
      split_ifs at hr with hplus hroom
      · cases hr
        constructor <;> dsimp only <;> omega
      · have hroom := hroom.2
        split at hr
        next => cases hr
        next =>
          split at hr
          · cases hr
            constructor <;> dsimp only <;> omega
          · split at hr
            next => cases hr
            next =>
              split at hr <;> cases hr <;> constructor <;> dsimp only <;> omega
      · cases hr
        constructor <;> dsimp only <;> omega

/-- A round that ends the loop ends it at the end of the text. -/
theorem round_ends {s : UrlDecoder} {r : Option Bytes} (h : s.pcur ≤ src.length)
    (hr : urlDecodeRound src s = .inr r) : r.isSome := by
  unfold urlDecodeRound at hr
  split at hr
  next =>
    cases hr
    rfl
  next hne =>
    split at hr
    next hnone =>
      rw [getElem?_eq_none_iff] at hnone
      omega
    next c hc =>
      dsimp only at hr
      split_ifs at hr with hplus hroom
      have hroom := hroom.2
      split at hr
      next hnone =>
        rw [getElem?_eq_none_iff] at hnone
        omega
      next =>
        split at hr
        next => cases hr
        next =>
          split at hr
          next hnone =>
            rw [getElem?_eq_none_iff] at hnone
            omega
          next => split at hr <;> cases hr

theorem urlDecodeAppend_ends (text dst : Bytes) : ∃ fuel out, urlDecodeAppend fuel dst text = some (some out) := by
  have hgoes (s s' : UrlDecoder) (hI : s.pcur ≤ text.length) (hs : urlDecodeRound text s = .inl s') :
      s'.pcur ≤ text.length ∧ text.length - s'.pcur < text.length - s.pcur := by
    obtain ⟨hlt, hle⟩ := round_goes hI hs
    exact ⟨hle, by omega⟩
  have hends (s : UrlDecoder) (r : Option Bytes) (hI : s.pcur ≤ text.length) (hs : urlDecodeRound text s = .inr r) :
      r.isSome := round_ends hI hs
  obtain ⟨fuel, r, hr, hsome⟩ := loop_total (fun s => text.length - s.pcur) hgoes hends (s := ⟨0, dst⟩) (Nat.zero_le _)
  obtain ⟨out, rfl⟩ := Option.isSome_iff_exists.1 hsome
  exact ⟨fuel, out, hr⟩

/-- What the codec is for: text comes back through either way of decoding, what was encoded is
text of an URL, and every text can be decoded. -/
structure Codes (s : Bytes) : Prop where
  decodeTo : urlDecodeTo (urlEncodeTo s) = s
  encodeAppend : ∀ dst, urlEncodeAppend dst s = dst ++ urlEncodeTo s
  decodeAppend : ∀ dst, ∃ fuel, urlDecodeAppend fuel dst (urlEncodeTo s) = some (some (dst ++ s))
  urlText : UrlText (urlEncodeTo s)
  ends : ∀ text dst, ∃ fuel out, urlDecodeAppend fuel dst text = some (some out)

/-- Only text that is not changed by encoding comes back from `UrlDecodeTo`; the rest holds of all text. -/
theorem codes_iff (s : Bytes) : Codes s ↔ s.all isPlain := by
  constructor
  · intro h
    exact (urlDecodeTo_urlEncodeTo s).1 h.decodeTo
  · intro h
    constructor
    · exact (urlDecodeTo_urlEncodeTo s).2 h
    · intro dst
      rw [urlEncodeAppend_eq, urlEncodeTo_eq]
    · intro dst
      exact ⟨s.length + 1, urlDecodeAppend_urlEncodeTo s dst⟩
    · exact urlText_urlEncodeTo s
    · exact urlDecodeAppend_ends

/-- A blank becomes "%20", and that "%2520". -/
theorem not_codes_blank : ¬ ∀ s, Codes s := by
  intro h
  have hblank := (h [ch ' ']).decodeTo
  exact absurd hblank (by decide)

end Fon9.Web
