import Fon9.Lib.Numeral

/-! Text as the fon9 string tools read and print it: bytes, the conversion of an
unsigned number from text (`StrTo`) and to text (`UIntToStrRev`), three-digit
pictures, and the split of a text at a delimiter. -/

namespace Fon9

open Lib List Numeral

abbrev Bytes := List UInt8

/-- The byte of an ASCII character. -/
def ch (c : Char) : UInt8 := c.toNat.toUInt8

def isspace (c : UInt8) : Bool := c == 0x20 || (0x9 ≤ c && c ≤ 0xd)

/-- The value of a digit; above 9 for every other byte. -/
def digval (c : UInt8) : ℕ := (c - ch '0').toNat

def isdigit (c : UInt8) : Bool := digval c ≤ 9

/-- The byte of a digit. -/
def digch (d : ℕ) : UInt8 := ch '0' + d.toUInt8

/-- The digit loop of `StrToNum` with `StrToUIntAux`, for an unsigned type with the
largest value `max`. A number that is too large becomes `max`, and the digits after
it are skipped. -/
def strToNumLoop (max : ℕ) : ℕ → Bytes → ℕ × Bytes
  | res, [] => (res, [])
  | res, c :: cs =>
    if digval c ≤ 9 then
      if res < max / 10 ∨ (res = max / 10 ∧ digval c ≤ max % 10) then
        strToNumLoop max (res * 10 + digval c) cs
      else (max, cs.dropWhile isdigit)
    else (res, c :: cs)

/-- `StrTo` for an unsigned type: the number and the text after it. Blanks and one
plus sign in front are skipped; without a digit the result is `null`. -/
def strToUInt (max : ℕ) (str : Bytes) (null : ℕ) : ℕ × Bytes :=
  match str.dropWhile isspace with
  | [] => (null, [])
  | c :: cs =>
    let body := if c = ch '+' then cs.dropWhile isspace else c :: cs
    let r := strToNumLoop max 0 body
    if r.2.length = body.length then (null, body) else r

/-- `UIntToStrRev`: the decimal digits of a number. -/
def uintToStr (n : ℕ) : Bytes := (Numeral.numeral 10 n).map digch

/-- `Pic9ToStrRev<3>`: three digits of a byte. -/
def pic9ToStr3 (n : UInt8) : Bytes :=
  [digch (n.toNat / 100), digch (n.toNat / 10 % 10), digch (n.toNat % 10)]

/-- `Pic9StrTo<3, byte>`: the digits are not checked. -/
def pic9StrTo3 : Bytes → UInt8
  | a :: b :: c :: _ => ((a - ch '0') * 10 + (b - ch '0')) * 10 + (c - ch '0')
  | _ => 0

/-- `StrFetchNoTrim`: the text before the delimiter and the text after it. -/
def strFetchNoTrim (src : Bytes) (delim : UInt8) : Bytes × Bytes :=
  match src with
  | [] => ([], [])
  | c :: cs =>
    if c = delim then ([], cs)
    else
      let r := strFetchNoTrim cs delim
      (c :: r.1, r.2)

theorem digval_digch {d : ℕ} (h : d ≤ 9) : digval (digch d) = d := by
  interval_cases d <;> decide

theorem isspace_digch {d : ℕ} (h : d ≤ 9) : isspace (digch d) = false := by
  interval_cases d <;> decide

theorem digch_ne_plus {d : ℕ} (h : d ≤ 9) : digch d ≠ ch '+' := by
  interval_cases d <;> decide

theorem pic9StrTo3_pic9ToStr3 (n : UInt8) (rest : Bytes) :
    pic9StrTo3 (pic9ToStr3 n ++ rest) = n := by
  have h : ∀ m : Fin 256, pic9StrTo3 (pic9ToStr3 (UInt8.ofFin m)) = UInt8.ofFin m := by decide +kernel
  exact h n.toFin

@[simp] theorem length_pic9ToStr3 (n : UInt8) : (pic9ToStr3 n).length = 3 := rfl

/-- The overflow test of `StrToNum` is exact. -/
theorem strToNum_fits_iff {max res d : ℕ} (hd : d ≤ 9) :
    (res < max / 10 ∨ (res = max / 10 ∧ d ≤ max % 10)) ↔ res * 10 + d ≤ max := by
  omega

theorem strToNumLoop_digits {max : ℕ} (ds : List ℕ) (rest : Bytes) (res : ℕ)
    (hds : ∀ d ∈ ds, d ≤ 9) (hmax : eval 10 res ds ≤ max)
    (hrest : ∀ c ∈ rest.head?, ¬ digval c ≤ 9) :
    strToNumLoop max res (ds.map digch ++ rest) = (eval 10 res ds, rest) := by
  induction ds generalizing res with
  | nil =>
    cases rest with
    | nil => rfl
    | cons c cs =>
      have hc : ¬ digval c ≤ 9 := hrest c (by simp)
      simp only [map_nil, nil_append, strToNumLoop, if_neg hc, eval, foldl_nil]
  | cons d ds ih =>
    have hd : d ≤ 9 := hds d (by simp)
    have hfit : res * 10 + d ≤ max :=
      (le_eval (by decide) ds (res * 10 + d)).trans hmax
    rw [map_cons, cons_append, strToNumLoop, digval_digch hd, if_pos hd,
      if_pos ((strToNum_fits_iff hd).mpr hfit)]
    exact ih _ (fun e he => hds e (by simp [he])) hmax

/-- Reading a printed number gives the number and the text after it. -/
theorem strToUInt_uintToStr {max n : ℕ} (hn : n ≤ max) (rest : Bytes) (null : ℕ)
    (hrest : ∀ c ∈ rest.head?, ¬ digval c ≤ 9) :
    strToUInt max (uintToStr n ++ rest) null = (n, rest) := by
  have hds : ∀ d ∈ numeral 10 n, d ≤ 9 := fun d hd =>
    Nat.le_of_lt_succ (lt_of_mem_numeral (by decide) hd)
  have hloop : strToNumLoop max 0 ((numeral 10 n).map digch ++ rest) = (n, rest) := by
    rw [strToNumLoop_digits _ rest 0 hds (by rwa [eval_numeral]) hrest, eval_numeral]
  obtain ⟨d, ds, hnum⟩ := exists_cons_of_ne_nil (numeral_ne_nil 10 n)
  have hd : d ≤ 9 := hds d (by simp [hnum])
  have hstr : uintToStr n ++ rest = digch d :: (ds.map digch ++ rest) := by
    simp [uintToStr, hnum]
  have hskip : (uintToStr n ++ rest).dropWhile isspace = digch d :: (ds.map digch ++ rest) := by
    rw [hstr, dropWhile_cons_of_neg (by simp [isspace_digch hd])]
  simp only [strToUInt, hskip, if_neg (digch_ne_plus hd)]
  rw [← hstr, uintToStr, hloop, if_neg]
  simp only [length_append, length_map, hnum, length_cons]
  omega

theorem uintToStr_ne_nil (n : ℕ) : uintToStr n ≠ [] := by
  simpa [uintToStr] using numeral_ne_nil 10 n

theorem digval_le_of_mem_uintToStr {n : ℕ} {c : UInt8} (h : c ∈ uintToStr n) : digval c ≤ 9 := by
  obtain ⟨d, hd, rfl⟩ := mem_map.mp h
  have : d ≤ 9 := Nat.le_of_lt_succ (lt_of_mem_numeral (by decide) hd)
  rwa [digval_digch this]

theorem length_uintToStr_le {n k : ℕ} (hk : 0 < k) (h : n < 10 ^ k) : (uintToStr n).length ≤ k := by
  simpa [uintToStr] using length_numeral_le (by decide) hk h

theorem length_uintToStr_mono {m n : ℕ} (h : m ≤ n) : (uintToStr m).length ≤ (uintToStr n).length := by
  simpa [uintToStr] using length_numeral_mono h

theorem strFetchNoTrim_append {delim : UInt8} (text rest : Bytes) (h : delim ∉ text) :
    strFetchNoTrim (text ++ delim :: rest) delim = (text, rest) := by
  induction text with
  | nil => simp [strFetchNoTrim]
  | cons c cs ih =>
    rw [mem_cons, not_or] at h
    rw [cons_append, strFetchNoTrim, if_neg (Ne.symm h.1), ih h.2]

theorem strFetchNoTrim_all {delim : UInt8} (text : Bytes) (h : delim ∉ text) :
    strFetchNoTrim text delim = (text, []) := by
  induction text with
  | nil => rfl
  | cons c cs ih =>
    rw [mem_cons, not_or] at h
    rw [strFetchNoTrim, if_neg (Ne.symm h.1), ih h.2]

end Fon9
