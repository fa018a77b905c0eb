import Fon9.Base.StrTo
import Fon9.Lib.Loop

/-! `StrView_ToNormalizeStr`: the escapes of a text become the characters that they stand for. A
pointer into the text is the part of the text from it on. A read where nothing is left is
one outside of the text; it comes exactly where the text ends within a hexadecimal or an octal
escape. -/

namespace Fon9.StrTools

open Lib List

/-- The value of a hexadecimal digit; -1, as an unsigned byte, for every other character. -/
def alpha2Hex (c : UInt8) : UInt8 :=
  if ch '0' ≤ c ∧ c ≤ ch '9' then c - ch '0'
  else if ch 'A' ≤ c ∧ c ≤ ch 'F' then c - ch 'A' + 10
  else if ch 'a' ≤ c ∧ c ≤ ch 'f' then c - ch 'a' + 10
  else 0xff

/-- The letters of the escapes of one character, and what they stand for. -/
def escapeLetters : List (UInt8 × UInt8) :=
  [(ch 'a', 0x07), (ch 'b', 0x08), (ch 'f', 0x0c), (ch 'n', 0x0a), (ch 'r', 0x0d), (ch 't', 0x09), (ch 'v', 0x0b)]

/-- `traits_type::find`: the text before the first `c` and behind it. -/
def strFind (c : UInt8) : Bytes → Option (Bytes × Bytes)
  | [] => none
  | a :: s => if a = c then some ([], s) else (strFind c s).map fun r => (a :: r.1, r.2)

/-- Behind "\x": up to two hexadecimal digits. -/
def normalizeHex : Bytes → Option (UInt8 × Bytes)
  | [] => none
  | h1 :: rest1 =>
    let ch := alpha2Hex h1
    if ch ≤ 0x0f then
      match rest1 with
      | [] => none
      | h2 :: rest2 =>
        let uch2 := alpha2Hex h2
        if uch2 ≤ 0x0f then some (ch <<< 4 ||| uch2, rest2) else some (ch, h2 :: rest2)
    else some (ch, h1 :: rest1)

/-- Behind a first octal digit, which stays a character: up to two more. -/
def normalizeOct (c : UInt8) : Bytes → Option (UInt8 × Bytes)
  | [] => none
  | d1 :: rest1 =>
    let uch2 := d1 - ch '0'
    if uch2 < 8 then
      let c := c <<< 3 ||| uch2
      match rest1 with
      | [] => none
      | d2 :: rest2 =>
        let uch2 := d2 - ch '0'
        if uch2 < 8 then some (c <<< 3 ||| uch2, rest2) else some (c, d2 :: rest2)
    else some (c, d1 :: rest1)

/-- The character of the escape `c`, and the text behind it. -/
def normalizeEscape (c : UInt8) (rest : Bytes) : Option (UInt8 × Bytes) :=
  match escapeLetters.lookup c with
  | some b => some (b, rest)
  | none =>
    if c = ch 'x' then normalizeHex rest
    else if c - ch '0' < 8 then normalizeOct c rest
    else some (c, rest)

inductive Normalized
  | str (dst : Bytes)
  | outOfRange
  deriving DecidableEq

/-- `dst` and the text from `pbeg` on. -/
structure Normalizing where
  dst : Bytes
  rest : Bytes

/-- A round of the loop. Where the backslash is the last character the text from `pbeg` on is
put out once more, with the backslash. -/
def normalizeBody (c : Normalizing) : Normalizing ⊕ Normalized :=
  match strFind (ch '\\') c.rest with
  | none => .inr (.str (c.dst ++ c.rest))
  | some (front, []) => .inr (.str (c.dst ++ front ++ c.rest))
  | some (front, e :: next) =>
    match normalizeEscape e next with
    | none => .inr .outOfRange
    | some (b, rest) => .inl { dst := c.dst ++ front ++ [b], rest := rest }

/-- `StrView_ToNormalizeStr`, with at most `fuel` rounds of the loop. -/
def toNormalizeStr (fuel : ℕ) (dst src : Bytes) : Option Normalized :=
  if src = [] then some (.str dst) else loop normalizeBody fuel { dst := dst, rest := src }

variable {c b e d : UInt8} {s t front next rest dst src : Bytes} {v v' : Normalizing} {r : Normalized}

theorem strFind_none : strFind c s = none ↔ c ∉ s := by
  induction s with
  | nil => simp [strFind]
  | cons a s ih =>
    rw [strFind]
    split_ifs with ha
    · simp [ha]
    · rw [Option.map_eq_none_iff, ih, mem_cons, not_or]
      exact ⟨fun h => ⟨Ne.symm ha, h⟩, fun h => h.2⟩

theorem strFind_some (h : strFind c s = some (front, t)) : s = front ++ c :: t ∧ c ∉ front := by
  induction s generalizing front with
  | nil => simp [strFind] at h
  | cons a s ih =>
    rw [strFind] at h
    split_ifs at h with ha
    · cases h
      exact ⟨by rw [ha]; rfl, by simp⟩
    · obtain ⟨⟨f, t'⟩, hf, heq⟩ := Option.map_eq_some_iff.mp h
      cases heq
      obtain ⟨rfl, hc⟩ := ih hf
      refine ⟨rfl, ?_⟩
      rw [mem_cons, not_or]
      exact ⟨Ne.symm ha, hc⟩

theorem strFind_append (h : c ∉ front) : strFind c (front ++ c :: t) = some (front, t) := by
  induction front with
  | nil => simp [strFind]
  | cons a front ih =>
    rw [mem_cons, not_or] at h
    rw [cons_append, strFind, if_neg (Ne.symm h.1), ih h.2]
    rfl

/-! ### Texts that end within an escape -/

/-- Whether a text ends behind a backslash that does not belong to an escape before it. -/
def inEscape (p : Bytes) : Bool := p.foldl (fun esc c => c == ch '\\' && !esc) false

/-- The escapes that are cut off: "\x" with less than two hexadecimal digits and an octal escape
with less than three digits. -/
inductive CutEscape : Bytes → Prop
  | hex : CutEscape [ch '\\', ch 'x']
  | hexDigit {h : UInt8} (hh : alpha2Hex h ≤ 0x0f) : CutEscape [ch '\\', ch 'x', h]
  | oct {d : UInt8} (hd : d - ch '0' < 8) : CutEscape [ch '\\', d]
  | octDigit {d d' : UInt8} (hd : d - ch '0' < 8) (hd' : d' - ch '0' < 8) : CutEscape [ch '\\', d, d']

/-- The text ends with an escape that is cut off. -/
def EndsInEscape (s : Bytes) : Prop := ∃ p t, s = p ++ t ∧ inEscape p = false ∧ CutEscape t

theorem CutEscape.starts (h : CutEscape t) : ∃ e next, t = ch '\\' :: e :: next := by
  cases h with
  | hex => exact ⟨_, _, rfl⟩
  | hexDigit hh => exact ⟨_, _, rfl⟩
  | oct hd => exact ⟨_, _, rfl⟩
  | octDigit hd hd' => exact ⟨_, _, rfl⟩

@[simp] theorem not_endsInEscape_nil : ¬ EndsInEscape [] := by
  rintro ⟨p, t, heq, -, ht⟩
  obtain ⟨e, next, rfl⟩ := ht.starts
  simp at heq

theorem inEscape_plain (h : c ≠ ch '\\') : inEscape (c :: s) = inEscape s := by
  have hc : (c == ch '\\') = false := beq_false_of_ne h
  simp [inEscape, hc]

theorem inEscape_escape : inEscape (ch '\\' :: e :: s) = inEscape s := by
  simp [inEscape]

theorem endsInEscape_plain (h : c ≠ ch '\\') : EndsInEscape (c :: s) ↔ EndsInEscape s := by
  constructor
  · rintro ⟨p, t, heq, hp, ht⟩
    cases p with
    | nil =>
      obtain ⟨e, next, rfl⟩ := ht.starts
      cases heq
      exact absurd rfl h
    | cons a p =>
      cases heq
      exact ⟨p, t, rfl, by rwa [inEscape_plain h] at hp, ht⟩
  · rintro ⟨p, t, rfl, hp, ht⟩
    exact ⟨c :: p, t, rfl, by rwa [inEscape_plain h], ht⟩

theorem endsInEscape_append (h : ch '\\' ∉ front) : EndsInEscape (front ++ s) ↔ EndsInEscape s := by
  induction front with
  | nil => rfl
  | cons a front ih =>
    rw [mem_cons, not_or] at h
    rw [cons_append, endsInEscape_plain (Ne.symm h.1), ih h.2]

theorem not_endsInEscape_slash : ¬ EndsInEscape [ch '\\'] := by
  rintro ⟨p, t, heq, -, ht⟩
  obtain ⟨e, next, rfl⟩ := ht.starts
  have hlen := congrArg length heq
  simp only [length_append, length_cons, length_nil] at hlen
  omega

theorem endsInEscape_escape :
    EndsInEscape (ch '\\' :: e :: next) ↔ CutEscape (ch '\\' :: e :: next) ∨ EndsInEscape next := by
  constructor
  · rintro ⟨p, t, heq, hp, ht⟩
    rcases p with - | ⟨a, - | ⟨a', p⟩⟩
    · cases heq
      exact .inl ht
    · cases heq
      simp [inEscape] at hp
    · cases heq
      exact .inr ⟨p, t, rfl, by rwa [inEscape_escape] at hp, ht⟩
  · rintro (h | ⟨p, t, rfl, hp, ht⟩)
    · exact ⟨[], _, rfl, rfl, h⟩
    · exact ⟨ch '\\' :: e :: p, t, rfl, by rwa [inEscape_escape], ht⟩

theorem hex_ne_slash (h : alpha2Hex c ≤ 0x0f) : c ≠ ch '\\' := by
  rintro rfl
  exact absurd h (by decide)

theorem oct_ne_slash (h : c - ch '0' < 8) : c ≠ ch '\\' := by
  rintro rfl
  exact absurd h (by decide)

/-! ### One escape -/

/-- What a part of an escape takes: it reads outside where the escape is cut off, else it
leaves a shorter text that ends in the same way. -/
structure Takes (taken : Option (UInt8 × Bytes)) (isCut : Prop) (next : Bytes) : Prop where
  none_iff : taken = none ↔ isCut
  some_rest : ∀ b rest, taken = some (b, rest) →
    rest.length ≤ next.length ∧ (EndsInEscape rest ↔ EndsInEscape next)

theorem Takes.of_some {isCut : Prop} (hcut : ¬ isCut) (hlen : rest.length ≤ next.length)
    (hrest : EndsInEscape rest ↔ EndsInEscape next) : Takes (some (b, rest)) isCut next := by
  constructor
  · exact iff_of_false (by simp) hcut
  · rintro b' rest' h
    cases h
    exact ⟨hlen, hrest⟩

theorem Takes.of_none {isCut : Prop} (hcut : isCut) : Takes none isCut next := by
  constructor
  · exact iff_of_true rfl hcut
  · rintro b rest h
    cases h

theorem cutEscape_hex_iff : CutEscape (ch '\\' :: ch 'x' :: next) ↔
    next = [] ∨ ∃ h, next = [h] ∧ alpha2Hex h ≤ 0x0f := by
  have hx : ¬ (ch 'x' - ch '0' < 8) := by decide
  constructor
  · intro h
    cases h with
    | hex => exact .inl rfl
    | hexDigit hh => exact .inr ⟨_, rfl, hh⟩
    | oct hd => exact absurd hd hx
    | octDigit hd hd' => exact absurd hd hx
  · rintro (rfl | ⟨h, rfl, hh⟩)
    · exact .hex
    · exact .hexDigit hh

theorem cutEscape_oct_iff (h : e - ch '0' < 8) : CutEscape (ch '\\' :: e :: next) ↔
    next = [] ∨ ∃ d, next = [d] ∧ d - ch '0' < 8 := by
  have hx : ¬ (ch 'x' - ch '0' < 8) := by decide
  constructor
  · intro hcut
    cases hcut with
    | hex => exact absurd h hx
    | hexDigit hh => exact absurd h hx
    | oct hd => exact .inl rfl
    | octDigit hd hd' => exact .inr ⟨_, rfl, hd'⟩
  · rintro (rfl | ⟨d, rfl, hd⟩)
    · exact .oct h
    · exact .octDigit h hd

theorem not_cutEscape (hx : e ≠ ch 'x') (h : ¬ e - ch '0' < 8) : ¬ CutEscape (ch '\\' :: e :: next) := by
  intro hcut
  cases hcut with
  | hex => exact hx rfl
  | hexDigit hh => exact hx rfl
  | oct hd => exact h hd
  | octDigit hd hd' => exact h hd

theorem normalizeHex_takes : Takes (normalizeHex next) (CutEscape (ch '\\' :: ch 'x' :: next)) next := by
  rw [cutEscape_hex_iff]
  rcases next with - | ⟨h1, - | ⟨h2, rest⟩⟩
  · exact .of_none (.inl rfl)
  · by_cases hh1 : alpha2Hex h1 ≤ 0x0f
    · simp only [normalizeHex, if_pos hh1]
      exact .of_none (.inr ⟨h1, rfl, hh1⟩)
    · simp only [normalizeHex, if_neg hh1]
      exact .of_some (by simp [hh1]) (le_refl _) Iff.rfl
  · by_cases hh1 : alpha2Hex h1 ≤ 0x0f
    · by_cases hh2 : alpha2Hex h2 ≤ 0x0f
      · simp only [normalizeHex, if_pos hh1, if_pos hh2]
        refine .of_some (by simp) (by simp only [length_cons]; omega) ?_
        rw [endsInEscape_plain (hex_ne_slash hh1), endsInEscape_plain (hex_ne_slash hh2)]
      · simp only [normalizeHex, if_pos hh1, if_neg hh2]
        refine .of_some (by simp) (by simp only [length_cons]; omega) ?_
        rw [endsInEscape_plain (hex_ne_slash hh1)]
    · simp only [normalizeHex, if_neg hh1]
      exact .of_some (by simp) (le_refl _) Iff.rfl

theorem normalizeOct_takes (h : e - ch '0' < 8) :
    Takes (normalizeOct e next) (CutEscape (ch '\\' :: e :: next)) next := by
  rw [cutEscape_oct_iff h]
  rcases next with - | ⟨d1, - | ⟨d2, rest⟩⟩
  · exact .of_none (.inl rfl)
  · by_cases hd1 : d1 - ch '0' < 8
    · simp only [normalizeOct, if_pos hd1]
      exact .of_none (.inr ⟨d1, rfl, hd1⟩)
    · simp only [normalizeOct, if_neg hd1]
      exact .of_some (by simp [hd1]) (le_refl _) Iff.rfl
  · by_cases hd1 : d1 - ch '0' < 8
    · by_cases hd2 : d2 - ch '0' < 8
      · simp only [normalizeOct, if_pos hd1, if_pos hd2]
        refine .of_some (by simp) (by simp only [length_cons]; omega) ?_
        rw [endsInEscape_plain (oct_ne_slash hd1), endsInEscape_plain (oct_ne_slash hd2)]
      · simp only [normalizeOct, if_pos hd1, if_neg hd2]
        refine .of_some (by simp) (by simp only [length_cons]; omega) ?_
        rw [endsInEscape_plain (oct_ne_slash hd1)]
    · simp only [normalizeOct, if_neg hd1]
      exact .of_some (by simp) (le_refl _) Iff.rfl

theorem escapeLetters_not_cut (h : escapeLetters.lookup e = some b) : e ≠ ch 'x' ∧ ¬ e - ch '0' < 8 := by
  have hall : ∀ p ∈ escapeLetters, p.1 ≠ ch 'x' ∧ ¬ p.1 - ch '0' < 8 := by
    simp only [escapeLetters, forall_mem_cons, not_mem_nil, false_implies, implies_true, and_true]
    decide
  obtain ⟨l₁, l₂, heq, -⟩ := lookup_eq_some_iff.mp h
  exact hall (e, b) (by simp [heq])

theorem normalizeEscape_takes (e : UInt8) (next : Bytes) :
    Takes (normalizeEscape e next) (CutEscape (ch '\\' :: e :: next)) next := by
  rw [normalizeEscape]
  cases hl : escapeLetters.lookup e with
  | some b =>
    obtain ⟨hx, hoct⟩ := escapeLetters_not_cut hl
    exact .of_some (not_cutEscape hx hoct) (le_refl _) Iff.rfl
  | none =>
    dsimp only
    split_ifs with hx hoct
    · rw [hx]
      exact normalizeHex_takes
    · exact normalizeOct_takes hoct
    · exact .of_some (not_cutEscape hx hoct) (le_refl _) Iff.rfl

/-! ### The loop -/

theorem normalizeBody_goes (h : normalizeBody v = .inl v') :
    (EndsInEscape v'.rest ↔ EndsInEscape v.rest) ∧ v'.rest.length < v.rest.length := by
  rw [normalizeBody] at h
  cases hf : strFind (ch '\\') v.rest with
  | none => simp [hf] at h
  | some found =>
    obtain ⟨front, - | ⟨e, next⟩⟩ := found
    · simp [hf] at h
    · obtain ⟨heq, hfront⟩ := strFind_some hf
      have htakes := normalizeEscape_takes e next
      cases hn : normalizeEscape e next with
      | none => simp [hf, hn] at h
      | some r =>
        obtain ⟨b, rest⟩ := r
        simp only [hf, hn, Sum.inl.injEq] at h
        subst h
        obtain ⟨hlen, hrest⟩ := htakes.some_rest b rest hn
        have hcut : ¬ CutEscape (ch '\\' :: e :: next) := by
          rw [← htakes.none_iff, hn]
          simp
        rw [heq, endsInEscape_append hfront, endsInEscape_escape, or_iff_right hcut]
        refine ⟨hrest, ?_⟩
        simp only [length_append, length_cons]
        omega

theorem normalizeBody_ends (h : normalizeBody v = .inr r) : (∃ out, r = .str out) ↔ ¬ EndsInEscape v.rest := by
  rw [normalizeBody] at h
  cases hf : strFind (ch '\\') v.rest with
  | none =>
    simp only [hf, Sum.inr.injEq] at h
    subst h
    have hplain := endsInEscape_append (s := []) (strFind_none.mp hf)
    rw [append_nil] at hplain
    exact iff_of_true ⟨_, rfl⟩ (by simp [hplain])
  | some found =>
    obtain ⟨front, - | ⟨e, next⟩⟩ := found
    · simp only [hf, Sum.inr.injEq] at h
      subst h
      obtain ⟨heq, hfront⟩ := strFind_some hf
      rw [heq, endsInEscape_append hfront]
      exact iff_of_true ⟨_, rfl⟩ not_endsInEscape_slash
    · obtain ⟨heq, hfront⟩ := strFind_some hf
      cases hn : normalizeEscape e next with
      | some r => simp [hf, hn] at h
      | none =>
        simp only [hf, hn, Sum.inr.injEq] at h
        subst h
        rw [heq, endsInEscape_append hfront, endsInEscape_escape]
        have hcut := (normalizeEscape_takes e next).none_iff.mp hn
        exact iff_of_false (by simp) (not_not.mpr (.inl hcut))

/-- The function ends, and its reads all stay within the text. -/
def NormalizesInRange (dst src : Bytes) : Prop :=
  ∃ n out, ∀ fuel ≥ n, toNormalizeStr fuel dst src = some (.str out)

/-- `StrView_ToNormalizeStr` always ends or reads outside. -/
theorem toNormalizeStr_ends (dst src : Bytes) : ∃ n r,
    (∀ fuel ≥ n, toNormalizeStr fuel dst src = some r) ∧ ((∃ out, r = .str out) ↔ ¬ EndsInEscape src) := by
  by_cases hsrc : src = []
  · subst hsrc
    exact ⟨0, .str dst, fun fuel _ => rfl, iff_of_true ⟨_, rfl⟩ not_endsInEscape_nil⟩
  · obtain ⟨n, r, hr, hiff⟩ := loop_total (fun v : Normalizing => v.rest.length)
      (I := fun v => EndsInEscape v.rest ↔ EndsInEscape src)
      (Q := fun r : Normalized => (∃ out, r = .str out) ↔ ¬ EndsInEscape src)
      (fun v v' hv h => by
        obtain ⟨hiff, hlt⟩ := normalizeBody_goes h
        exact ⟨hiff.trans hv, hlt⟩)
      (fun v r hv h => by rw [normalizeBody_ends h, hv])
      (show (fun v : Normalizing => EndsInEscape v.rest ↔ EndsInEscape src) { dst := dst, rest := src } from Iff.rfl)
    refine ⟨n, r, fun fuel hfuel => ?_, hiff⟩
    rw [toNormalizeStr, if_neg hsrc]
    exact loop_mono hr hfuel

/-- The reads stay within the text exactly where it does not end with an escape that is cut off. -/
theorem normalizesInRange_iff (dst src : Bytes) : NormalizesInRange dst src ↔ ¬ EndsInEscape src := by
  obtain ⟨n, r, hr, hiff⟩ := toNormalizeStr_ends dst src
  rw [← hiff]
  constructor
  · rintro ⟨m, out, hout⟩
    have h₁ := hr (max n m) (Nat.le_max_left n m)
    have h₂ := hout (max n m) (Nat.le_max_right n m)
    exact ⟨out, Option.some.inj (h₁.symm.trans h₂)⟩
  · rintro ⟨out, rfl⟩
    exact ⟨n, out, hr⟩

/-- "\x" at the end of a text: the character behind the text is read. -/
theorem not_normalizesInRange : ¬ ∀ dst src, NormalizesInRange dst src := by
  intro h
  obtain ⟨n, out, hout⟩ := h [] [ch '\\', ch 'x']
  have hlast := hout (n + 1) (Nat.le_succ n)
  have hfault : normalizeBody { dst := [], rest := [ch '\\', ch 'x'] } = .inr .outOfRange := rfl
  rw [toNormalizeStr, if_neg (by simp), loop_ends hfault] at hlast
  cases hlast

end Fon9.StrTools
