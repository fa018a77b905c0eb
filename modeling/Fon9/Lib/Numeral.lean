import Mathlib.Data.Nat.Digits.Lemmas

/-! Unsigned machine words as natural numbers: results of arithmetic are reduced modulo the word
size; a value is in range when the reduction leaves it alone.

Numerals: the digits of a number from the most significant one on, with a single zero for zero,
and the Horner evaluation that reads them back; and numbers as big endian bytes of a fixed width. -/

namespace Fon9.Lib

/-- Reduction to a 64-bit word. -/
abbrev u64 (n : ℕ) : ℕ := n % 2 ^ 64

/-- Subtraction of 64-bit words. -/
abbrev u64sub (a b : ℕ) : ℕ := (a + (2 ^ 64 - b)) % 2 ^ 64

/-- Reduction to a 32-bit word. -/
abbrev u32 (n : ℕ) : ℕ := n % 2 ^ 32

/-- Subtraction of 32-bit words. -/
def u32sub (a b : ℕ) : ℕ := if b ≤ a then a - b else a + 2 ^ 32 - b

/-- Reduction to a 16-bit word. -/
abbrev u16 (n : ℕ) : ℕ := n % 2 ^ 16

theorem u16_of_lt {n : ℕ} (h : n < 2 ^ 16) : u16 n = n := Nat.mod_eq_of_lt h

theorem u32_of_lt {n : ℕ} (h : n < 2 ^ 32) : u32 n = n := Nat.mod_eq_of_lt h

theorem u32sub_of_le {a b : ℕ} (hb : b ≤ a) : u32sub a b = a - b := if_pos hb

theorem u16_le (n : ℕ) : u16 n ≤ n := Nat.mod_le n _

end Fon9.Lib

namespace Fon9.Lib.Numeral

open Nat

variable {b n : ℕ}

def numeral (b n : ℕ) : List ℕ := if n = 0 then [0] else (Nat.digits b n).reverse

/-- Horner evaluation of further digits. -/
def eval (b : ℕ) : ℕ → List ℕ → ℕ := List.foldl fun res d => res * b + d

theorem numeral_ne_nil (b n : ℕ) : numeral b n ≠ [] := by
  unfold numeral
  split
  case isTrue => simp
  case isFalse h => simpa [digits_eq_nil_iff_eq_zero] using h

theorem lt_of_mem_numeral (hb : 1 < b) {d : ℕ} (h : d ∈ numeral b n) : d < b := by
  unfold numeral at h
  split at h
  case isTrue => rw [List.mem_singleton.mp h]; omega
  case isFalse => exact digits_lt_base hb (List.mem_reverse.mp h)

theorem eval_numeral (b n : ℕ) : eval b 0 (numeral b n) = n := by
  unfold numeral
  split
  case isTrue h => simp [eval, h]
  case isFalse =>
    have hhorner : (fun x y : ℕ => y * b + x) = fun x y => x + b * y := by
      funext x y
      rw [mul_comm, add_comm]
    rw [eval, List.foldl_reverse, hhorner]
    simpa using (ofDigits_eq_foldr b (Nat.digits b n)).symm.trans (ofDigits_digits b n)

theorem le_eval (hb : 0 < b) (ds : List ℕ) (res : ℕ) : res ≤ eval b res ds := by
  induction ds generalizing res with
  | nil => exact le_refl res
  | cons d ds ih =>
    have hstep : res ≤ res * b + d := by nlinarith
    exact hstep.trans (ih _)

theorem length_numeral_le {k : ℕ} (hb : 1 < b) (hk : 0 < k) (h : n < b ^ k) :
    (numeral b n).length ≤ k := by
  unfold numeral
  split
  case isTrue => exact hk
  case isFalse => simpa using (digits_length_le_iff hb n).mpr h

/-- A larger number has no fewer digits. -/
theorem length_numeral_mono {m : ℕ} (h : m ≤ n) : (numeral b m).length ≤ (numeral b n).length := by
  by_cases hm : m = 0
  · rw [numeral, if_pos hm]
    exact List.length_pos_iff.mpr (numeral_ne_nil b n)
  · rw [numeral, if_neg hm, numeral, if_neg (by omega), List.length_reverse, List.length_reverse]
    exact le_length_digits_le b m n h

end Fon9.Lib.Numeral

namespace Fon9.Lib.BigEndian

open List

/-- The last `width` bytes of a number, the most significant first. -/
def bytes : ℕ → ℕ → List UInt8
  | 0, _ => []
  | width + 1, n => bytes width (n / 256) ++ [UInt8.ofNat (n % 256)]

/-- The most significant byte and the others. -/
theorem bytes_succ (width n : ℕ) :
    bytes (width + 1) n = UInt8.ofNat (n / 256 ^ width % 256) :: bytes width n := by
  induction width generalizing n with
  | zero =>
    rw [pow_zero, Nat.div_one]
    rfl
  | succ width ih =>
    rw [bytes, ih, Nat.div_div_eq_div_mul, ← pow_succ']
    rfl

variable (bs : List UInt8)

/-- The number that bytes stand for. -/
def value : ℕ := bs.foldl (fun n b => n * 256 + b.toNat) 0

@[simp] theorem length_bytes (width n : ℕ) : (bytes width n).length = width := by
  induction width generalizing n with
  | zero => rfl
  | succ width ih => rw [bytes, length_append, ih]; rfl

theorem value_concat (b : UInt8) : value (bs ++ [b]) = value bs * 256 + b.toNat := by
  rw [value, foldl_append]
  rfl

theorem value_bytes {width n : ℕ} (h : n < 256 ^ width) : value (bytes width n) = n := by
  induction width generalizing n with
  | zero =>
    have : n = 0 := by simpa using h
    rw [this]
    rfl
  | succ width ih =>
    have hlt : n / 256 < 256 ^ width := by
      rw [Nat.div_lt_iff_lt_mul (by decide)]
      rw [pow_succ] at h
      exact h
    rw [bytes, value_concat, ih hlt, UInt8.toNat_ofNat']
    omega

theorem value_lt : value bs < 256 ^ bs.length := by
  induction bs using reverseRecOn with
  | nil => decide
  | append_singleton bs b ih =>
    have hb := b.toNat_lt
    rw [value_concat, length_append, length_singleton, pow_succ]
    omega

theorem bytes_value : bytes bs.length (value bs) = bs := by
  induction bs using reverseRecOn with
  | nil => rfl
  | append_singleton bs b ih =>
    have hb := b.toNat_lt
    have hdiv : (value bs * 256 + b.toNat) / 256 = value bs := by omega
    have hmod : (value bs * 256 + b.toNat) % 256 = b.toNat := by omega
    rw [value_concat, length_append, length_singleton, bytes, hdiv, hmod, ih, UInt8.ofNat_toNat]

theorem value_append (bs bs' : List UInt8) : value (bs ++ bs') = value bs * 256 ^ bs'.length + value bs' := by
  induction bs' using reverseRecOn with
  | nil =>
    show value (bs ++ []) = value bs * 1 + 0
    rw [append_nil, mul_one, add_zero]
  | append_singleton bs' b ih =>
    rw [← append_assoc, value_concat, value_concat, ih, length_append, length_singleton, pow_succ]
    ring

theorem value_cons (b : UInt8) (bs : List UInt8) : value (b :: bs) = b.toNat * 256 ^ bs.length + value bs := by
  have hone : value [b] = b.toNat := Nat.zero_add _
  rw [← singleton_append, value_append, hone]

theorem value_inj {bs bs' : List UInt8} (hlen : bs.length = bs'.length) (h : value bs = value bs') : bs = bs' := by
  rw [← bytes_value bs, ← bytes_value bs', hlen, h]

/-- Bytes of a number cut in two. -/
theorem drop_bytes (width width' n : ℕ) : (bytes (width + width') n).drop width = bytes width' n := by
  induction width with
  | zero => rw [zero_add, drop_zero]
  | succ width ih => rw [add_right_comm, bytes_succ, drop_succ_cons, ih]

theorem value_bytes_mod (width n : ℕ) : value (bytes width n) = n % 256 ^ width := by
  induction width generalizing n with
  | zero => rw [pow_zero, Nat.mod_one]; rfl
  | succ width ih =>
    have hmod : n % (256 * 256 ^ width) = n % 256 + 256 * (n / 256 % 256 ^ width) := Nat.mod_mul
    rw [bytes, value_concat, ih, UInt8.toNat_ofNat', pow_succ' 256 width, hmod]
    omega

end Fon9.Lib.BigEndian
