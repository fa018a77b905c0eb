import Mathlib.Data.List.GetD

/-! A file of bytes: reads and writes at a position, and a size that can be set. -/

namespace Fon9.Lib

open List

/-- The bytes past the size do not count. -/
structure ByteFile where
  size : ℕ
  byte : ℕ → UInt8

namespace ByteFile

def empty : ByteFile := ⟨0, fun _ => 0⟩

/-- The bytes from `pos` on, as many as there are, at most `n`. -/
def read (f : ByteFile) (pos n : ℕ) : List UInt8 :=
  (List.range (min n (f.size - pos))).map fun i => f.byte (pos + i)

/-- Bytes between the old end and `pos` are zero. -/
def write (f : ByteFile) (pos : ℕ) (data : List UInt8) : ByteFile where
  size := if data = [] then f.size else max f.size (pos + data.length)
  byte i :=
    if pos ≤ i ∧ i < pos + data.length then data.getD (i - pos) 0
    else if i < f.size then f.byte i else 0

/-- A file that grows is filled with zeros. -/
def setSize (f : ByteFile) (n : ℕ) : ByteFile where
  size := n
  byte i := if i < f.size ∧ i < n then f.byte i else 0

variable {f g : ByteFile} {pos n : ℕ} {data : List UInt8}

theorem byte_write (f : ByteFile) (pos : ℕ) (data : List UInt8) (i : ℕ) : (f.write pos data).byte i =
    if pos ≤ i ∧ i < pos + data.length then data.getD (i - pos) 0
    else if i < f.size then f.byte i else 0 := rfl

theorem length_read (h : pos + n ≤ f.size) : (f.read pos n).length = n := by
  rw [read, length_map, length_range]
  omega

/-- A read depends on the bytes it covers only. -/
theorem read_congr (hf : pos + n ≤ f.size) (hg : pos + n ≤ g.size)
    (h : ∀ i, pos ≤ i → i < pos + n → f.byte i = g.byte i) : f.read pos n = g.read pos n := by
  unfold read
  rw [Nat.min_eq_left (by omega), Nat.min_eq_left (by omega)]
  apply map_congr_left
  intro i hi
  rw [mem_range] at hi
  exact h _ (by omega) (by omega)

theorem read_add (a b : ℕ) (h : pos + a + b ≤ f.size) :
    f.read pos (a + b) = f.read pos a ++ f.read (pos + a) b := by
  unfold read
  rw [Nat.min_eq_left (by omega), Nat.min_eq_left (by omega), Nat.min_eq_left (by omega),
    range_add, map_append, map_map]
  congr 1
  apply map_congr_left
  intro i _
  rw [Function.comp_apply, Nat.add_assoc]

theorem read_write (hne : data ≠ []) : (f.write pos data).read pos data.length = data := by
  have hsize : pos + data.length ≤ (f.write pos data).size := by
    rw [write, if_neg hne]
    exact Nat.le_max_right _ _
  apply ext_getElem
  · exact length_read hsize
  · intro i hi hi'
    simp only [read, getElem_map, getElem_range]
    rw [byte_write, if_pos ⟨by omega, by omega⟩, Nat.add_sub_cancel_left, getD_eq_getElem _ _ hi']

theorem byte_write_of_lt {i : ℕ} (hi : i < pos) (hsize : i < f.size) :
    (f.write pos data).byte i = f.byte i := by
  rw [byte_write, if_neg (by omega), if_pos hsize]

theorem byte_write_of_ge {i : ℕ} (hi : pos + data.length ≤ i) (hsize : i < f.size) :
    (f.write pos data).byte i = f.byte i := by
  rw [byte_write, if_neg (by omega), if_pos hsize]

theorem byte_setSize {i : ℕ} (hi : i < n) (hsize : i < f.size) :
    (f.setSize n).byte i = f.byte i := by
  exact if_pos ⟨hsize, hi⟩

theorem le_size_write (f : ByteFile) (pos : ℕ) (data : List UInt8) :
    f.size ≤ (f.write pos data).size := by
  unfold write
  split
  · exact Nat.le_refl _
  · exact Nat.le_max_left _ _

theorem size_write (h : pos + data.length ≤ f.size) : (f.write pos data).size = f.size := by
  unfold write
  split
  · rfl
  · exact Nat.max_eq_left h

theorem getElem_read {i : ℕ} (h : i < (f.read pos n).length) : (f.read pos n)[i] = f.byte (pos + i) := by
  simp only [read, getElem_map, getElem_range]

/-- A part of what is read. -/
theorem read_part {a b : ℕ} (hab : a + b ≤ n) (h : pos + n ≤ f.size) :
    f.read (pos + a) b = ((f.read pos n).drop a).take b := by
  have hlen := length_read h
  have hlen' := @length_read f (pos + a) b (by omega)
  apply ext_getElem
  · rw [hlen', length_take, length_drop, hlen]
    omega
  · intro i hi hi'
    rw [getElem_read, getElem_take, getElem_drop, getElem_read, Nat.add_assoc]

/-- What is read is changed in the place of the write. -/
theorem read_write_part {a : ℕ} (ha : a + data.length ≤ n) (h : pos + n ≤ f.size) :
    (f.write (pos + a) data).read pos n =
      (f.read pos n).take a ++ data ++ (f.read pos n).drop (a + data.length) := by
  have hlen := length_read h
  have hsize : (f.write (pos + a) data).size = f.size := size_write (by omega)
  have hlen' := @length_read (f.write (pos + a) data) pos n (by rw [hsize]; exact h)
  apply ext_getElem
  · rw [hlen', length_append, length_append, length_take, length_drop, hlen]
    omega
  · intro i hi hi'
    rw [hlen'] at hi
    rw [getElem_read, byte_write]
    simp only [getElem_append, length_append, length_take, hlen, Nat.min_eq_left (show a ≤ n by omega)]
    by_cases hbefore : i < a
    · rw [if_neg (by omega), if_pos (by omega), dif_pos (by omega), dif_pos hbefore, getElem_take,
        getElem_read]
    · by_cases hin : i < a + data.length
      · rw [if_pos (by omega), dif_pos hin, dif_neg hbefore, getD_eq_getElem _ _ (by omega)]
        congr 1
        omega
      · rw [if_neg (by omega), if_pos (by omega), dif_neg hin, getElem_drop, getElem_read]
        congr 1
        omega

end ByteFile

end Fon9.Lib
