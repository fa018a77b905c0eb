import Fon9.StrTools.Normalize

/-! `StrView_ToEscapeStr`: special characters become escapes. An escape in hexadecimal always has
two digits, so `StrView_ToNormalizeStr` gives the text back, whatever stands behind it. -/

namespace Fon9.StrTools

open Lib List

/-- The letter of a control character that has one. -/
def escapeLetter (c : UInt8) : Option UInt8 := (escapeLetters.map Prod.swap).lookup c

/-- `"0123456789abcdef"[n]`. -/
def hexDigit (n : UInt8) : UInt8 := if n < 10 then ch '0' + n else ch 'a' + (n - 10)

/-- What is put out for a character. -/
def escapeChar (chSpecials : Bytes) (c : UInt8) : Bytes :=
  if c = ch '\\' ∨ c = ch '\'' ∨ c = ch '"' then [ch '\\', c]
  else
    match escapeLetter c with
    | some letter => [ch '\\', letter]
    | none =>
      if c ≤ 0x1f then
        [ch '\\', ch 'x', if c &&& 0xf0 ≠ 0 then ch '1' else ch '0', hexDigit (c &&& 0x0f)]
      else if c ∈ chSpecials then [ch '\\', c]
      else [c]

/-- `StrView_ToEscapeStr`. -/
def toEscapeStr (dst : Bytes) (chSpecials : Bytes) : Bytes → Bytes
  | [] => dst
  | c :: src => toEscapeStr (dst ++ escapeChar chSpecials c) chSpecials src

/-- A special character that may be one: no letter of an escape and no digit. -/
def MayBeSpecial (c : UInt8) : Prop :=
  c ≠ ch 'a' ∧ c ≠ ch 'b' ∧ c ≠ ch 'f' ∧ c ≠ ch 'n' ∧ c ≠ ch 'r' ∧ c ≠ ch 't' ∧ c ≠ ch 'v' ∧ c ≠ ch 'x' ∧
    isdigit c = false

instance (c : UInt8) : Decidable (MayBeSpecial c) := inferInstanceAs (Decidable (_ ∧ _))

variable {chSpecials : Bytes} {c e b : UInt8} {rest : Bytes}

theorem toEscapeStr_eq (dst src : Bytes) :
    toEscapeStr dst chSpecials src = dst ++ src.flatMap (escapeChar chSpecials) := by
  induction src generalizing dst with
  | nil => simp [toEscapeStr]
  | cons c src ih => rw [toEscapeStr, ih, flatMap_cons, append_assoc]

/-! ### One character -/

/-- The backslash and what is put out behind it stand for `c`, in front of any text. -/
def IsEscapeOf (c : UInt8) (out : Bytes) : Prop :=
  ∃ e more, out = ch '\\' :: e :: more ∧ ∀ rest, normalizeEscape e (more ++ rest) = some (c, rest)

theorem normalizeEscape_self (hletter : escapeLetters.lookup c = none) (hx : c ≠ ch 'x')
    (hoct : ¬ c - ch '0' < 8) : normalizeEscape c rest = some (c, rest) := by
  rw [normalizeEscape, hletter]
  dsimp only
  rw [if_neg hx, if_neg hoct]

theorem isEscapeOf_quote (h : c = ch '\\' ∨ c = ch '\'' ∨ c = ch '"') : IsEscapeOf c [ch '\\', c] := by
  refine ⟨c, [], rfl, fun rest => ?_⟩
  rcases h with rfl | rfl | rfl
  · exact normalizeEscape_self (by decide) (by decide) (by decide)
  · exact normalizeEscape_self (by decide) (by decide) (by decide)
  · exact normalizeEscape_self (by decide) (by decide) (by decide)

theorem isEscapeOf_letter (h : escapeLetter c = some e) : IsEscapeOf c [ch '\\', e] := by
  have hall : ∀ p ∈ escapeLetters, escapeLetters.lookup p.1 = some p.2 := by
    simp only [escapeLetters, forall_mem_cons, not_mem_nil, false_implies, implies_true, and_true]
    decide
  obtain ⟨l₁, l₂, heq, -⟩ := lookup_eq_some_iff.mp h
  have hmem : (c, e) ∈ escapeLetters.map Prod.swap := by simp [heq]
  obtain ⟨p, hp, hswap⟩ := mem_map.mp hmem
  cases hswap
  refine ⟨_, [], rfl, fun rest => ?_⟩
  rw [normalizeEscape, hall p hp]
  rfl

/-- The two digits of a control character. -/
theorem hex_control (h : c ≤ 0x1f) : alpha2Hex (if c &&& 0xf0 ≠ 0 then ch '1' else ch '0') ≤ 0x0f ∧
    alpha2Hex (hexDigit (c &&& 0x0f)) ≤ 0x0f ∧
    alpha2Hex (if c &&& 0xf0 ≠ 0 then ch '1' else ch '0') <<< 4 ||| alpha2Hex (hexDigit (c &&& 0x0f)) = c := by
  have hall : ∀ n < 0x20, let c := UInt8.ofNat n
      alpha2Hex (if c &&& 0xf0 ≠ 0 then ch '1' else ch '0') ≤ 0x0f ∧
      alpha2Hex (hexDigit (c &&& 0x0f)) ≤ 0x0f ∧
      alpha2Hex (if c &&& 0xf0 ≠ 0 then ch '1' else ch '0') <<< 4 ||| alpha2Hex (hexDigit (c &&& 0x0f)) = c := by
    decide
  have hc := hall c.toNat (Nat.lt_succ_of_le (UInt8.le_iff_toNat_le.mp h))
  rwa [UInt8.ofNat_toNat] at hc

theorem isEscapeOf_hex (h : c ≤ 0x1f) : IsEscapeOf c
    [ch '\\', ch 'x', if c &&& 0xf0 ≠ 0 then ch '1' else ch '0', hexDigit (c &&& 0x0f)] := by
  obtain ⟨h1, h2, hc⟩ := hex_control h
  refine ⟨ch 'x', _, rfl, fun rest => ?_⟩
  have hletter : escapeLetters.lookup (ch 'x') = none := by decide
  rw [normalizeEscape, hletter]
  dsimp only
  rw [if_pos rfl, cons_append, cons_append, nil_append, normalizeHex]
  dsimp only
  rw [if_pos h1, if_pos h2, hc]

theorem isEscapeOf_special (h : MayBeSpecial c) : IsEscapeOf c [ch '\\', c] := by
  obtain ⟨ha, hb, hf, hn, hr, ht, hv, hx, hdigit⟩ := h
  refine ⟨c, [], rfl, fun rest => normalizeEscape_self ?_ hx ?_⟩
  · simp [escapeLetters, lookup_eq_none_iff, ha, hb, hf, hn, hr, ht, hv]
  · intro hoct
    have hle : digval c ≤ 9 := by
      have hlt := UInt8.lt_iff_toNat_lt.mp hoct
      have h8 : (8 : UInt8).toNat = 8 := rfl
      rw [digval]
      omega
    simp [isdigit, hle] at hdigit

/-- A character is put out as it is, or as an escape. -/
theorem escapeChar_cases (hspecials : ∀ c ∈ chSpecials, MayBeSpecial c) (c : UInt8) :
    (escapeChar chSpecials c = [c] ∧ c ≠ ch '\\') ∨ IsEscapeOf c (escapeChar chSpecials c) := by
  rw [escapeChar]
  by_cases hquote : c = ch '\\' ∨ c = ch '\'' ∨ c = ch '"'
  · rw [if_pos hquote]
    exact .inr (isEscapeOf_quote hquote)
  · rw [if_neg hquote]
    cases hletter : escapeLetter c with
    | some e => exact .inr (isEscapeOf_letter hletter)
    | none =>
      dsimp only
      by_cases hcontrol : c ≤ 0x1f
      · rw [if_pos hcontrol]
        exact .inr (isEscapeOf_hex hcontrol)
      · rw [if_neg hcontrol]
        split_ifs with hspecial
        · exact .inr (isEscapeOf_special (hspecials c hspecial))
        · exact .inl ⟨rfl, fun h => hquote (.inl h)⟩

/-! ### The whole text -/

/-- The text that is put out has no backslash, or its first one begins an escape. -/
theorem escape_split (hspecials : ∀ c ∈ chSpecials, MayBeSpecial c) (src : Bytes) :
    (src.flatMap (escapeChar chSpecials) = src ∧ ch '\\' ∉ src) ∨
      ∃ front c src', src = front ++ c :: src' ∧ ch '\\' ∉ front ∧ IsEscapeOf c (escapeChar chSpecials c) ∧
        src.flatMap (escapeChar chSpecials) =
          front ++ (escapeChar chSpecials c ++ src'.flatMap (escapeChar chSpecials)) := by
  induction src with
  | nil => exact .inl ⟨rfl, by simp⟩
  | cons a src ih =>
    rcases escapeChar_cases hspecials a with ⟨hplain, hne⟩ | hesc
    · rcases ih with ⟨heq, hnot⟩ | ⟨front, c, src', rfl, hfront, hc, heq⟩
      · refine .inl ⟨?_, ?_⟩
        · rw [flatMap_cons, hplain, heq]
          rfl
        · simp [hnot, Ne.symm hne]
      · refine .inr ⟨a :: front, c, src', rfl, ?_, hc, ?_⟩
        · simp [hfront, Ne.symm hne]
        · rw [flatMap_cons, hplain, heq]
          rfl
    · exact .inr ⟨[], a, src, rfl, by simp, hesc, by simp⟩

/-- What is left to be read is the escaped form of what is not yet put out. -/
def Restores (chSpecials src : Bytes) (v : Normalizing) : Prop :=
  ∃ left, v.rest = left.flatMap (escapeChar chSpecials) ∧ v.dst ++ left = src

theorem normalizeBody_restores (hspecials : ∀ c ∈ chSpecials, MayBeSpecial c) {src : Bytes} {v : Normalizing}
    (h : Restores chSpecials src v) :
    normalizeBody v = .inr (.str src) ∨
      ∃ v', normalizeBody v = .inl v' ∧ Restores chSpecials src v' ∧ v'.rest.length < v.rest.length := by
  obtain ⟨left, hrest, hsrc⟩ := h
  rcases escape_split hspecials left with ⟨heq, hnot⟩ | ⟨front, c, left', hleft, hfront, ⟨e, more, hout, hesc⟩, heq⟩
  · left
    rw [heq] at hrest
    rw [normalizeBody, hrest, strFind_none.mpr hnot, ← hsrc]
  · right
    rw [hout] at heq
    have hbody : normalizeBody v =
        .inl { dst := v.dst ++ front ++ [c], rest := left'.flatMap (escapeChar chSpecials) } := by
      rw [normalizeBody, hrest, heq, cons_append, strFind_append hfront, cons_append]
      simp only [hesc]
    refine ⟨_, hbody, ⟨left', rfl, ?_⟩, ?_⟩
    · rw [← hsrc, hleft]
      simp
    · rw [hrest, heq]
      simp only [length_append, length_cons]
      omega

/-- Escape, then normalise, is the identity. -/
theorem toNormalizeStr_toEscapeStr (src chSpecials : Bytes) (hspecials : ∀ c ∈ chSpecials, MayBeSpecial c) :
    ∃ n, ∀ fuel ≥ n, toNormalizeStr fuel [] (toEscapeStr [] chSpecials src) = some (.str src) := by
  have hstart : Restores chSpecials src { dst := [], rest := toEscapeStr [] chSpecials src } :=
    ⟨src, toEscapeStr_eq [] src, rfl⟩
  have hgoes : ∀ v v', Restores chSpecials src v → normalizeBody v = .inl v' →
      Restores chSpecials src v' ∧ v'.rest.length < v.rest.length := by
    intro v v' hv h
    rcases normalizeBody_restores hspecials hv with hend | ⟨v₁, hgo, hv₁, hlt⟩
    · simp [hend] at h
    · rw [hgo] at h
      cases h
      exact ⟨hv₁, hlt⟩
  have hends : ∀ v r, Restores chSpecials src v → normalizeBody v = .inr r → r = .str src := by
    intro v r hv h
    rcases normalizeBody_restores hspecials hv with hend | ⟨v₁, hgo, -, -⟩
    · rw [hend] at h
      cases h
      rfl
    · simp [hgo] at h
  obtain ⟨n, r, hr, rfl⟩ := loop_total (fun v : Normalizing => v.rest.length) hgoes hends hstart
  refine ⟨n, fun fuel hfuel => ?_⟩
  rw [toNormalizeStr]
  split_ifs with hnil
  · have hempty : src = [] := by
      rcases escape_split hspecials src with ⟨heq, -⟩ | ⟨front, c, src', -, -, ⟨e, more, hout, -⟩, heq⟩
      · rw [toEscapeStr_eq, heq] at hnil
        exact hnil
      · rw [toEscapeStr_eq, heq, hout] at hnil
        simp at hnil
    rw [hempty]
  · exact loop_mono hr hfuel

/-- A control character in front of a hexadecimal digit, with "|" as a special character. -/
theorem toNormalizeStr_toEscapeStr_control :
    ∃ n, ∀ fuel ≥ n, toNormalizeStr fuel [] (toEscapeStr [] [ch '|'] [0x01, ch 'f', ch '|', 0xff]) =
      some (.str [0x01, ch 'f', ch '|', 0xff]) :=
  toNormalizeStr_toEscapeStr _ _ (by decide +kernel)

end Fon9.StrTools
