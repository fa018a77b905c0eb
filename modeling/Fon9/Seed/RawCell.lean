import Fon9.Bitv.Decode
import Fon9.Lib.Segment

/-! The fields of a tab, and their cells in the memory of a seed. A field knows the offset of
its cell, and not of which tab the memory is that it is given. -/

namespace Fon9.Seed

open Lib Bitv Buffer List Int

/-! ### The classes of fields -/

/-- The bytes of a cell. -/
abbrev Cell (size : ℕ) := {bs : Bytes // bs.length = size}

/-- What the class of a field makes of a number, and of the bytes of a cell. -/
structure FieldClass where
  size : ℕ
  null : Cell size
  /-- Of a number and its `decScale`. -/
  putNumber : ℤ → ℕ → Except BitvError (Cell size)
  /-- With `outDecScale` and `nullValue`. -/
  getNumber : ℕ → ℤ → Cell size → Except BitvError ℤ
  bitvToCell : Bytes → Except BitvError (Cell size × Bytes)

variable (t : IntType)

/-- An integer in the memory, with the low byte first. -/
def intCell (v : t.Val) : Cell t.size :=
  ⟨(BigEndian.bytes t.size (v.1 % 2 ^ (8 * t.size)).toNat).reverse, by rw [List.length_reverse, BigEndian.length_bytes]⟩

def cellInt (c : Cell t.size) : t.Val := t.cast (BigEndian.value c.1.reverse)

theorem wrap_emod (v : ℤ) : t.wrap (v % 2 ^ (8 * t.size)) = t.wrap v := by
  simp only [IntType.wrap, emod_emod_of_dvd, dvd_refl]

@[simp] theorem cellInt_intCell (v : t.Val) : cellInt t (intCell t v) = v := by
  have hnonneg : 0 ≤ v.1 % 2 ^ (8 * t.size) := emod_nonneg _ (by positivity)
  have hlt : v.1 % 2 ^ (8 * t.size) < 2 ^ (8 * t.size) := emod_lt_of_pos _ (by positivity)
  have hvalue : ((BigEndian.value (BigEndian.bytes t.size (v.1 % 2 ^ (8 * t.size)).toNat) : ℕ) : ℤ) =
      v.1 % 2 ^ (8 * t.size) := by
    have hnat : (v.1 % 2 ^ (8 * t.size)).toNat < 256 ^ t.size := by
      rw [show (256 : ℕ) = 2 ^ 8 from rfl, ← pow_mul]
      zify
      rw [toNat_of_nonneg hnonneg]
      exact hlt
    rw [BigEndian.value_bytes hnat, toNat_of_nonneg hnonneg]
  rw [cellInt, intCell, reverse_reverse, hvalue]
  apply Subtype.ext
  show t.wrap (v.1 % 2 ^ (8 * t.size)) = v.1
  rw [wrap_emod, IntType.wrap_of_mem v.2]

/-- The widest type of the same sign. -/
def imaxType : IntType := if t.isSigned then .int64 else .uint64

/-- `FieldInt`; null is zero. -/
def fieldInt : FieldClass where
  size := t.size
  null := intCell t (t.cast 0)
  putNumber num decScale := do
    let value ← adjustDecScale .int64 num decScale 0
    return intCell t (t.cast value)
  getNumber outDecScale _ c := do
    let value ← adjustDecScale (imaxType t) (cellInt t c).1 0 outDecScale
    return IntType.wrap .int64 value
  bitvToCell buf := do
    let (val, buf) ← bitvToInt t buf (t.cast 0)
    return (intCell t val, buf)

/-- `FieldDecimalDyScale` -/
def fieldDecimal (scale : ℕ) : FieldClass where
  size := t.size
  null := intCell t (t.cast (origNull t))
  putNumber num decScale := do
    let value ← adjustDecScale .int64 num decScale scale
    return intCell t (t.cast value)
  getNumber outDecScale nullValue c :=
    if (cellInt t c).1 = origNull t then return nullValue
    else do
      let value ← adjustDecScale (imaxType t) (cellInt t c).1 scale outDecScale
      return IntType.wrap .int64 value
  bitvToCell buf :=
    match bitvToDec t scale buf with
    | .ok (val, buf) => .ok (intCell t val, buf)
    | .error (.signedError _) => .error (.signedError "FieldDecimalDyScale.BitvToCell: cannot load BitvNeg to unsigned")
    | .error e => .error e

/-- `FieldDayTime`: the microseconds of the day. -/
def fieldDayTime : FieldClass := fieldDecimal .int64 6

theorem bitvToCell_fieldInt {t : IntType} {buf rest : Bytes} {v : t.Val} (h : bitvToInt t buf (t.cast 0) = .ok (v, rest)) :
    (fieldInt t).bitvToCell buf = .ok (intCell t v, rest) := by
  simp only [fieldInt, h]
  rfl

theorem bitvToCell_fieldDecimal {t : IntType} {scale : ℕ} {buf rest : Bytes} {v : t.Val}
    (h : bitvToDec t scale buf = .ok (v, rest)) : (fieldDecimal t scale).bitvToCell buf = .ok (intCell t v, rest) := by
  simp only [fieldDecimal, h]

/-! ### The memory of a seed -/

structure Field where
  cls : FieldClass
  offset : ℕ

namespace Field

variable (f g : Field)

/-- The end of the cell. -/
def stop : ℕ := f.offset + f.cls.size

/-- The cells do not meet. -/
def Apart : Prop := f.stop ≤ g.offset ∨ g.stop ≤ f.offset

instance : Decidable (f.Apart g) := inferInstanceAs (Decidable (_ ∨ _))

theorem Apart.symm {f g : Field} (h : f.Apart g) : g.Apart f := Or.symm h

/-- The bytes at the place of the cell. -/
def bytesAt (mem : Bytes) : Bytes := segment mem f.offset f.cls.size

/-- The cell, where the memory reaches so far. -/
def cell (mem : Bytes) : Option (Cell f.cls.size) :=
  if h : f.stop ≤ mem.length then some ⟨f.bytesAt mem, length_segment h⟩ else none

def store (c : Cell f.cls.size) (mem : Bytes) : Bytes := overwrite mem f.offset c.1

variable {f g} {mem : Bytes} {c : Cell f.cls.size}

theorem stop_eq (c : Cell f.cls.size) : f.stop = f.offset + c.1.length := by rw [c.2, stop]

theorem length_store (h : f.stop ≤ mem.length) : (f.store c mem).length = mem.length :=
  length_overwrite (by rw [← stop_eq]; exact h)

theorem cell_of_le (h : f.stop ≤ mem.length) : f.cell mem = some ⟨f.bytesAt mem, length_segment h⟩ := dif_pos h

theorem bytesAt_store (h : f.stop ≤ mem.length) : f.bytesAt (f.store c mem) = c.1 := by
  have hlen : segment (f.store c mem) f.offset c.1.length = c.1 := segment_overwrite (by rw [← stop_eq]; exact h)
  rw [c.2] at hlen
  exact hlen

theorem bytesAt_store_apart (h : f.stop ≤ mem.length) (hapart : f.Apart g) : g.bytesAt (f.store c mem) = g.bytesAt mem := by
  apply segment_overwrite_apart
  · rw [← stop_eq]
    exact h
  · rw [← stop_eq]
    exact hapart

end Field

/-! ### Tabs -/

/-- The fields of a tab by their names, with cells of their own in a memory of `dyMemSize`. -/
structure Tab where
  fields : List (Bytes × Field)
  dyMemSize : ℕ
  names : (fields.map Prod.fst).Nodup
  apart : fields.Pairwise fun f g => f.2.Apart g.2
  inside : ∀ f ∈ fields, f.2.stop ≤ dyMemSize

namespace Tab

variable {tab : Tab} {name name' : Bytes} {f g : Field}

/-- `Fields_.Get` -/
def get (tab : Tab) (name : Bytes) : Option Field := tab.fields.lookup name

theorem mem_of_get (h : tab.get name = some f) : (name, f) ∈ tab.fields := by
  obtain ⟨as, bs, hfields, -⟩ := lookup_eq_some_iff.mp h
  rw [hfields]
  simp

theorem stop_le (h : tab.get name = some f) : f.stop ≤ tab.dyMemSize := tab.inside _ (mem_of_get h)

/-- Fields of different names have cells apart. -/
theorem apart_of_ne (hf : tab.get name = some f) (hg : tab.get name' = some g) (hne : name ≠ name') : f.Apart g := by
  have hsymm : Std.Symm fun f g : Bytes × Field => f.2.Apart g.2 := ⟨fun _ _ => Field.Apart.symm⟩
  have hpair : (name, f) ≠ (name', g) := fun h => hne (congrArg Prod.fst h)
  exact tab.apart.forall (mem_of_get hf) (mem_of_get hg) hpair

end Tab

section CalcDyMemSize

variable {K : Type} {flds : List (K × FieldClass)} {size : ℕ}

/-- `CalcDyMemSize`: the cells come one behind the other. -/
def calcDyMemSize (size : ℕ) : List (K × FieldClass) → ℕ
  | [] => size
  | (_, cls) :: flds => calcDyMemSize (size + cls.size) flds

/-- The fields with the offsets that `CalcDyMemSize` gives them. -/
def adjustFields (size : ℕ) : List (K × FieldClass) → List (K × Field)
  | [] => []
  | (key, cls) :: flds => (key, ⟨cls, size⟩) :: adjustFields (size + cls.size) flds

theorem map_adjustFields {K' : Type} (name : K → K') :
    adjustFields size (flds.map (Prod.map name id)) = (adjustFields size flds).map (Prod.map name id) := by
  induction flds generalizing size with
  | nil => rfl
  | cons fld flds ih =>
    rw [map_cons, adjustFields, adjustFields, map_cons, ← ih]
    rfl

theorem keys_adjustFields : (adjustFields size flds).map Prod.fst = flds.map Prod.fst := by
  induction flds generalizing size with
  | nil => rfl
  | cons fld flds ih => rw [adjustFields, map_cons, map_cons, ih]

theorem le_calcDyMemSize : size ≤ calcDyMemSize size flds := by
  induction flds generalizing size with
  | nil => exact le_rfl
  | cons fld flds ih => exact le_trans (Nat.le_add_right _ _) ih

theorem between_adjustFields {f : K × Field} (h : f ∈ adjustFields size flds) :
    size ≤ f.2.offset ∧ f.2.stop ≤ calcDyMemSize size flds := by
  induction flds generalizing size with
  | nil => cases h
  | cons fld flds ih =>
    rw [adjustFields, mem_cons] at h
    rcases h with rfl | h
    · exact ⟨le_rfl, le_calcDyMemSize⟩
    · obtain ⟨hoffset, hstop⟩ := ih h
      exact ⟨le_trans (Nat.le_add_right _ _) hoffset, hstop⟩

theorem mem_of_adjustFields {f : K × Field} (h : f ∈ adjustFields size flds) : (f.1, f.2.cls) ∈ flds := by
  induction flds generalizing size with
  | nil => cases h
  | cons fld flds ih =>
    rw [adjustFields, mem_cons] at h
    rcases h with rfl | h
    · exact mem_cons_self
    · exact mem_cons_of_mem _ (ih h)

theorem pairwise_adjustFields : (adjustFields size flds).Pairwise fun f g => f.2.Apart g.2 := by
  induction flds generalizing size with
  | nil => exact List.Pairwise.nil
  | cons fld flds ih =>
    rw [adjustFields, pairwise_cons]
    exact ⟨fun g hg => .inl (between_adjustFields hg).1, ih⟩

/-- A tab of fields in dynamic memory. -/
def Tab.ofFields (flds : List (Bytes × FieldClass)) (hnames : (flds.map Prod.fst).Nodup) : Tab where
  fields := adjustFields 0 flds
  dyMemSize := calcDyMemSize 0 flds
  names := by
    rw [keys_adjustFields]
    exact hnames
  apart := pairwise_adjustFields
  inside _ h := (between_adjustFields h).2

end CalcDyMemSize

end Fon9.Seed
