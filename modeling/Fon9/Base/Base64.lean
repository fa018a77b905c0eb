import Fon9.Base.StrTo

/-! Base64: three bytes are four characters of six bits each. What has been encoded is decoded
again where there is room for it. -/

namespace Fon9

/-- "A" to "Z", "a" to "z", "0" to "9", "+" and "/". -/
def chB64Enc : Bytes :=
  (List.range 26).map (fun i => ch 'A' + i.toUInt8) ++ (List.range 26).map (fun i => ch 'a' + i.toUInt8) ++
    (List.range 10).map (fun i => ch '0' + i.toUInt8) ++ [ch '+', ch '/']

/-- The character of six bits. -/
def base64Char (n : ℕ) : UInt8 := chB64Enc.getD (n % 64) 0

def base64EncodeLengthNoEOS (srcSize : ℕ) : ℕ := (srcSize / 3 + if srcSize % 3 ≠ 0 then 1 else 0) * 4

/-- `Base64Encode`. -/
def base64Encode : Bytes → Bytes
  | [] => []
  | [c1] => [base64Char (c1.toNat / 4), base64Char (c1.toNat % 4 * 16), ch '=', ch '=']
  | [c1, c2] => [base64Char (c1.toNat / 4), base64Char (c1.toNat % 4 * 16 + c2.toNat / 16),
      base64Char (c2.toNat % 16 * 4), ch '=']
  | c1 :: c2 :: c3 :: src =>
    base64Char (c1.toNat / 4) :: base64Char (c1.toNat % 4 * 16 + c2.toNat / 16) ::
      base64Char (c2.toNat % 16 * 4 + c3.toNat / 64) :: base64Char c3.toNat :: base64Encode src

/-- `chB64Dec`: the six bits of a character, 64 for "=". -/
def chB64Dec (c : UInt8) : Option ℕ := if c = ch '=' then some 64 else chB64Enc.findIdx? (· == c)

inductive Base64Error
  | badMessage
  | noBufferSpace
  deriving DecidableEq, Repr

/-- The rounds of `Base64Decode`: `tails` is the number of bytes that the characters of a group make,
`value` a 32 bit number into which six bits are shifted each time. -/
def base64DecodeLoop (dstSize : ℕ) : ℕ → ℕ → ℕ → Bytes → Bytes → Except Base64Error Bytes
  | _, _, count, out, [] => if count = 0 then .ok out else .error .badMessage
  | tails, value, count, out, c :: src =>
    if isspace c then base64DecodeLoop dstSize tails value count out src
    else
      match chB64Dec c with
      | none => .error .badMessage
      | some bits =>
        if bits < 64 ∧ tails ≠ 3 then .error .badMessage
        else if ¬ bits < 64 ∧ tails - 1 = 0 then .error .badMessage
        else
          let tails := if bits < 64 then tails else tails - 1
          let value := value * 64 % 2 ^ 32 + if bits < 64 then bits else 0
          if count + 1 = 4 then
            if dstSize < out.length + tails then .error .noBufferSpace
            else
              let bytes := [(value / 2 ^ 16).toUInt8, (value / 2 ^ 8).toUInt8, value.toUInt8]
              base64DecodeLoop dstSize tails value 0 (out ++ bytes.take tails) src
          else base64DecodeLoop dstSize tails value (count + 1) out src

def base64Decode (dstSize : ℕ) (src : Bytes) : Except Base64Error Bytes := base64DecodeLoop dstSize 3 0 0 [] src

/-! ### What is encoded is decoded -/

theorem chB64Dec_char (n : ℕ) : chB64Dec (base64Char n) = some (n % 64) := by
  have hall : ∀ i < 64, chB64Dec (base64Char i) = some i := by decide
  have hn := hall (n % 64) (Nat.mod_lt _ (by decide))
  rwa [base64Char, Nat.mod_mod] at hn

theorem isspace_char (n : ℕ) : isspace (base64Char n) = false := by
  have hall : ∀ i < 64, isspace (base64Char i) = false := by decide
  have hn := hall (n % 64) (Nat.mod_lt _ (by decide))
  rwa [base64Char, Nat.mod_mod] at hn

theorem ch_ne_char {c : Char} (h : ∀ i < 64, base64Char i ≠ ch c) (n : ℕ) : base64Char n ≠ ch c := by
  have hn := h (n % 64) (Nat.mod_lt _ (by decide))
  rwa [base64Char, Nat.mod_mod] at hn

variable {dstSize value : ℕ} {out src : Bytes}

/-- A character within a group. -/
theorem base64DecodeLoop_char (n : ℕ) {count : ℕ} (h : count < 3) :
    base64DecodeLoop dstSize 3 value count out (base64Char n :: src) =
      base64DecodeLoop dstSize 3 (value * 64 % 2 ^ 32 + n % 64) (count + 1) out src := by
  have hlt : n % 64 < 64 := Nat.mod_lt _ (by decide)
  rw [base64DecodeLoop, isspace_char, if_neg Bool.false_ne_true, chB64Dec_char]
  dsimp only
  rw [if_neg (fun h => h.2 rfl), if_neg (fun h => h.1 hlt), if_pos hlt, if_pos hlt, if_neg (by omega)]

/-- The last character of a group. -/
theorem base64DecodeLoop_last (n : ℕ) :
    base64DecodeLoop dstSize 3 value 3 out (base64Char n :: src) =
      if dstSize < out.length + 3 then .error .noBufferSpace
      else
        let value := value * 64 % 2 ^ 32 + n % 64
        base64DecodeLoop dstSize 3 value 0
          (out ++ [(value / 2 ^ 16).toUInt8, (value / 2 ^ 8).toUInt8, value.toUInt8]) src := by
  have hlt : n % 64 < 64 := Nat.mod_lt _ (by decide)
  rw [base64DecodeLoop, isspace_char, if_neg Bool.false_ne_true, chB64Dec_char]
  dsimp only
  rw [if_neg (fun h => h.2 rfl), if_neg (fun h => h.1 hlt), if_pos hlt, if_pos hlt, if_pos rfl]
  rfl

theorem toUInt8_eq {n : ℕ} {c : UInt8} (h : n % 256 = c.toNat) : n.toUInt8 = c := by
  apply UInt8.toNat.inj
  rw [← h]
  exact UInt8.toNat_ofNat'

/-- A group of three bytes. -/
theorem base64DecodeLoop_group (c1 c2 c3 : UInt8) :
    ∃ value', base64DecodeLoop dstSize 3 value 0 out
      (base64Char (c1.toNat / 4) :: base64Char (c1.toNat % 4 * 16 + c2.toNat / 16) ::
        base64Char (c2.toNat % 16 * 4 + c3.toNat / 64) :: base64Char c3.toNat :: src) =
      if dstSize < out.length + 3 then .error .noBufferSpace
      else base64DecodeLoop dstSize 3 value' 0 (out ++ [c1, c2, c3]) src := by
  rw [base64DecodeLoop_char _ (by decide), base64DecodeLoop_char _ (by decide), base64DecodeLoop_char _ (by decide),
    base64DecodeLoop_last]
  have h1 := c1.toNat_lt
  have h2 := c2.toNat_lt
  have h3 := c3.toNat_lt
  generalize hv : ((value * 64 % 2 ^ 32 + c1.toNat / 4 % 64) * 64 % 2 ^ 32 +
    (c1.toNat % 4 * 16 + c2.toNat / 16) % 64) * 64 % 2 ^ 32 + (c2.toNat % 16 * 4 + c3.toNat / 64) % 64 = v
  dsimp only
  rw [toUInt8_eq (by omega : (v * 64 % 2 ^ 32 + c3.toNat % 64) / 2 ^ 16 % 256 = c1.toNat),
    toUInt8_eq (by omega : (v * 64 % 2 ^ 32 + c3.toNat % 64) / 2 ^ 8 % 256 = c2.toNat),
    toUInt8_eq (by omega : (v * 64 % 2 ^ 32 + c3.toNat % 64) % 256 = c3.toNat)]
  exact ⟨_, rfl⟩

/-- A "=" within a group, and at its end. -/
theorem base64DecodeLoop_tail {tails : ℕ} (htails : tails - 1 ≠ 0) :
    base64DecodeLoop dstSize tails value 2 out (ch '=' :: src) =
      base64DecodeLoop dstSize (tails - 1) (value * 64 % 2 ^ 32) 3 out src := by
  have hspace : isspace (ch '=') = false := by decide
  have hdec : chB64Dec (ch '=') = some 64 := by decide
  rw [base64DecodeLoop, hspace, if_neg Bool.false_ne_true, hdec]
  dsimp only
  rw [if_neg (fun h => absurd h.1 (by decide)), if_neg (fun h => htails h.2), if_neg (by decide), if_neg (by decide),
    if_neg (by decide)]
  rfl

theorem base64DecodeLoop_end {tails : ℕ} (htails : tails - 1 ≠ 0) :
    base64DecodeLoop dstSize tails value 3 out [ch '='] =
      if dstSize < out.length + (tails - 1) then .error .noBufferSpace
      else
        let value := value * 64 % 2 ^ 32
        .ok (out ++ [(value / 2 ^ 16).toUInt8, (value / 2 ^ 8).toUInt8, value.toUInt8].take (tails - 1)) := by
  have hspace : isspace (ch '=') = false := by decide
  have hdec : chB64Dec (ch '=') = some 64 := by decide
  rw [base64DecodeLoop, hspace, if_neg Bool.false_ne_true, hdec]
  dsimp only
  rw [if_neg (fun h => absurd h.1 (by decide)), if_neg (fun h => htails h.2), if_neg (by decide : ¬ 64 < 64),
    if_neg (by decide : ¬ 64 < 64), if_pos rfl, base64DecodeLoop, if_pos rfl]
  rfl

/-- What is encoded is decoded where there is room for it. -/
theorem base64Decode_encode (dstSize : ℕ) (data : Bytes) :
    base64Decode dstSize (base64Encode data) = if dstSize < data.length then .error .noBufferSpace else .ok data := by
  have hloop : ∀ (value : ℕ) (out : Bytes), out.length ≤ dstSize →
      base64DecodeLoop dstSize 3 value 0 out (base64Encode data) =
        if dstSize < out.length + data.length then .error .noBufferSpace else .ok (out ++ data) := by
    induction data using base64Encode.induct with
    | case1 =>
      intro value out hout
      rw [base64Encode, base64DecodeLoop, if_pos rfl, List.append_nil, List.length_nil, Nat.add_zero,
        if_neg (Nat.not_lt.mpr hout)]
    | case2 c1 =>
      intro value out hout
      have h1 := c1.toNat_lt
      rw [base64Encode, base64DecodeLoop_char _ (by decide), base64DecodeLoop_char _ (by decide),
        base64DecodeLoop_tail (by decide), base64DecodeLoop_end (by decide)]
      generalize hv : (value * 64 % 2 ^ 32 + c1.toNat / 4 % 64) * 64 % 2 ^ 32 + c1.toNat % 4 * 16 % 64 = v
      dsimp only
      rw [toUInt8_eq (by omega : v * 64 % 2 ^ 32 * 64 % 2 ^ 32 / 2 ^ 16 % 256 = c1.toNat)]
      rfl
    | case3 c1 c2 =>
      intro value out hout
      have h1 := c1.toNat_lt
      have h2 := c2.toNat_lt
      rw [base64Encode, base64DecodeLoop_char _ (by decide), base64DecodeLoop_char _ (by decide),
        base64DecodeLoop_char _ (by decide), base64DecodeLoop_end (by decide)]
      generalize hv : ((value * 64 % 2 ^ 32 + c1.toNat / 4 % 64) * 64 % 2 ^ 32 +
        (c1.toNat % 4 * 16 + c2.toNat / 16) % 64) * 64 % 2 ^ 32 + c2.toNat % 16 * 4 % 64 = v
      dsimp only
      rw [toUInt8_eq (by omega : v * 64 % 2 ^ 32 / 2 ^ 16 % 256 = c1.toNat),
        toUInt8_eq (by omega : v * 64 % 2 ^ 32 / 2 ^ 8 % 256 = c2.toNat)]
      rfl
    | case4 c1 c2 c3 data ih =>
      intro value out hout
      obtain ⟨value', hgroup⟩ := @base64DecodeLoop_group dstSize value out (base64Encode data) c1 c2 c3
      have hlen : out.length + (c1 :: c2 :: c3 :: data).length = (out ++ [c1, c2, c3]).length + data.length := by
        rw [List.length_append, Nat.add_assoc]
        exact congrArg (out.length + ·) (Nat.add_comm data.length 3)
      have hfull : out ++ c1 :: c2 :: c3 :: data = out ++ [c1, c2, c3] ++ data := by
        rw [List.append_assoc]
        rfl
      rw [base64Encode, hgroup, hlen, hfull]
      split
      · next hshort =>
        rw [if_pos]
        rw [List.length_append]
        exact hshort.trans_le (Nat.le_add_right _ _)
      · next hroom =>
        refine ih value' _ ?_
        rw [List.length_append]
        exact Nat.not_lt.mp hroom
  exact (hloop 0 [] (Nat.zero_le _)).trans (by rw [List.length_nil, Nat.zero_add, List.nil_append])

theorem base64Encode_length (data : Bytes) : (base64Encode data).length = base64EncodeLengthNoEOS data.length := by
  induction data using base64Encode.induct with
  | case1 => rfl
  | case2 c1 => simp [base64Encode, base64EncodeLengthNoEOS]
  | case3 c1 c2 => simp [base64Encode, base64EncodeLengthNoEOS]
  | case4 c1 c2 c3 data ih =>
    have hlen : (c1 :: c2 :: c3 :: data).length = data.length + 3 := rfl
    rw [base64Encode, List.length_cons, List.length_cons, List.length_cons, List.length_cons, ih, hlen,
      base64EncodeLengthNoEOS, base64EncodeLengthNoEOS, Nat.add_mod_right, Nat.add_div_right _ (by decide)]
    omega

/-- A character that is not in the table is not in what is encoded. -/
theorem not_mem_base64Encode {c : Char} (h : ∀ i < 64, base64Char i ≠ ch c) (heq : ch '=' ≠ ch c) (data : Bytes) :
    ch c ∉ base64Encode data := by
  have hchar : ∀ n, ch c ≠ base64Char n := fun n => (ch_ne_char h n).symm
  induction data using base64Encode.induct with
  | case1 => exact List.not_mem_nil
  | case2 c1 => simp [base64Encode, hchar, heq.symm]
  | case3 c1 c2 => simp [base64Encode, hchar, heq.symm]
  | case4 c1 c2 c3 data ih => simp [base64Encode, hchar, ih]

theorem comma_not_mem_base64Encode (data : Bytes) : ch ',' ∉ base64Encode data :=
  not_mem_base64Encode (by decide) (by decide) data

end Fon9
