import Fon9.Fix.Builder

/-! What the parser stores. After a number of fields the field list holds their
tags, and a tag holds its values in order: the first in the field itself, the others
in a block of four slots that no other tag uses. -/

namespace Fon9.Fix

open Lib List Function Function

/-- The values of a tag among the fields, in order. -/
def valuesOf (tag : ℕ) (fields : List (ℕ × Bytes)) : List Bytes :=
  (fields.filter fun f => f.1 = tag).map Prod.snd

/-- The tags that occur more than once. -/
def dupTags (fields : List (ℕ × Bytes)) : List ℕ :=
  (fields.map Prod.fst).dedup.filter fun tag => 2 ≤ (valuesOf tag fields).length

/-- The number of blocks of slots that fit in the 16-bit slot counter. -/
def kMaxDupTags : ℕ := 2 ^ 14

theorem valuesOf_append (tag : ℕ) (a b : List (ℕ × Bytes)) :
    valuesOf tag (a ++ b) = valuesOf tag a ++ valuesOf tag b := by
  simp [valuesOf]

theorem valuesOf_append_self (done : List (ℕ × Bytes)) (tag : ℕ) (value : Bytes) :
    valuesOf tag (done ++ [(tag, value)]) = valuesOf tag done ++ [value] := by
  simp [valuesOf]

theorem valuesOf_append_of_ne (done : List (ℕ × Bytes)) {tag t : ℕ} (value : Bytes) (h : t ≠ tag) :
    valuesOf t (done ++ [(tag, value)]) = valuesOf t done := by
  simp [valuesOf, h.symm]

theorem mem_dupTags {tag : ℕ} {fields : List (ℕ × Bytes)} :
    tag ∈ dupTags fields ↔ 2 ≤ (valuesOf tag fields).length := by
  unfold dupTags
  rw [mem_filter, mem_dedup, decide_eq_true_iff]
  refine ⟨fun h => h.2, fun h => ⟨?_, h⟩⟩
  obtain ⟨v, hv⟩ := exists_mem_of_length_pos (show 0 < (valuesOf tag fields).length by omega)
  obtain ⟨f, hf, rfl⟩ := mem_map.mp hv
  rw [mem_filter, decide_eq_true_iff] at hf
  exact mem_map.mpr ⟨f, hf.1, hf.2⟩

theorem nodup_dupTags (fields : List (ℕ × Bytes)) : (dupTags fields).Nodup :=
  (nodup_dedup _).filter _

namespace FixParser

/-- The parser counts the values of exactly the tags in its field list. -/
def Counted (p : FixParser) : Prop := ∀ tag ∉ p.fieldList, (p.fieldArray tag).valueCount = 0

/-- The values of a tag, as `GetField` and `GetValue` give them. -/
def values (p : FixParser) (tag : ℕ) : List Bytes :=
  match p.getField tag with
  | none => []
  | some fld => (List.range fld.valueCount).map (p.getValue fld)

/-- The parsed fields are the given ones: the same tags in the same order, and for
each tag the same values in the same order. -/
structure Yields (p : FixParser) (fields : List (ℕ × Bytes)) : Prop where
  tags : p.fieldList.map (fun tag => (p.fieldArray tag).tag) = fields.map Prod.fst
  values : ∀ tag, p.values tag = valuesOf tag fields

/-- The blocks of slots: `dups` lists the repeated tags in the order in which their
blocks were given out. -/
structure Slots (p : FixParser) (dups : List ℕ) : Prop where
  nodup : dups.Nodup
  mem : ∀ tag, tag ∈ dups ↔ 2 ≤ (p.fieldArray tag).valueCount
  next : p.mIndexNext = u16 (4 * dups.length)
  block : ∀ k (h : k < dups.length), (p.fieldArray dups[k]).mIndex = u16 (4 * k)

/-- The state after the fields `fields`. -/
structure Stored (p : FixParser) (fields : List (ℕ × Bytes)) : Prop where
  list : p.fieldList = fields.map Prod.fst
  count : ∀ tag, (p.fieldArray tag).valueCount = (valuesOf tag fields).length
  tag : ∀ tag ∈ p.fieldList, (p.fieldArray tag).tag = tag
  value : ∀ tag i (h : i < (valuesOf tag fields).length),
    p.getValue (p.fieldArray tag) i = (valuesOf tag fields)[i]
  slots : ∃ dups, p.Slots dups

variable {p : FixParser} {fields : List (ℕ × Bytes)}

theorem clear_stored (hp : p.Counted) : p.clear.Stored [] := by
  have hcount : ∀ tag, (p.clear.fieldArray tag).valueCount = 0 := by
    intro tag
    simp only [clear]
    split
    case isTrue => rfl
    case isFalse h => exact hp tag h
  refine ⟨rfl, hcount, by simp [clear], by simp [valuesOf], [], by simp, ?_, rfl, by simp⟩
  intro tag
  simp [hcount]

theorem Stored.counted (h : p.Stored fields) : p.Counted := by
  intro tag htag
  rw [h.list] at htag
  rw [h.count, length_eq_zero_iff, valuesOf, map_eq_nil_iff, filter_eq_nil_iff]
  intro f hf heq
  exact htag (mem_map.mpr ⟨f, hf, by simpa using heq⟩)

theorem Stored.values_eq (h : p.Stored fields) (tag : ℕ) : p.values tag = valuesOf tag fields := by
  unfold values getField
  by_cases hc : (p.fieldArray tag).valueCount > 0
  · rw [if_pos hc]
    apply ext_getElem
    · simp [h.count]
    · intro i h1 h2
      rw [getElem_map, getElem_range]
      exact h.value tag i h2
  · rw [if_neg hc]
    have hzero := h.count tag
    symm
    apply length_eq_zero_iff.mp
    omega

theorem Stored.yields (h : p.Stored fields) : p.Yields fields := by
  refine ⟨?_, h.values_eq⟩
  rw [← h.list]
  exact map_congr_left (fun tag ht => h.tag tag ht) |>.trans (map_id _)

/-- The first value of a tag, as `GetField` gives it. -/
theorem Stored.getField (h : p.Stored fields) (tag : ℕ) :
    (p.getField tag).map FixField.value = (valuesOf tag fields).head? := by
  unfold FixParser.getField
  by_cases hc : (p.fieldArray tag).valueCount > 0
  · have hlen : 0 < (valuesOf tag fields).length := by rw [← h.count]; exact hc
    have hv := h.value tag 0 hlen
    rw [getValue, if_neg (by omega), if_pos rfl] at hv
    rw [if_pos hc, Option.map_some, hv, head?_eq_getElem?, getElem?_eq_getElem hlen]
  · have hzero : valuesOf tag fields = [] := by
      apply length_eq_zero_iff.mp
      have := h.count tag
      omega
    rw [if_neg hc, hzero]
    rfl

section Store

variable {tag : ℕ} {value : Bytes}

theorem nextSlot_getField (t : ℕ) :
    ((p.nextSlot tag).getField t).map FixField.value = (p.getField t).map FixField.value := by
  unfold FixParser.getField nextSlot
  by_cases ht : t = tag
  · subst ht
    by_cases hc : (p.fieldArray t).valueCount = 1
    · simp [hc]
    · by_cases h0 : (p.fieldArray t).valueCount > 0 <;> simp [hc, h0]
  · by_cases hc : (p.fieldArray tag).valueCount = 1 <;> simp [hc, ht]

/-- The first slot of the block a next value of `tag` goes to. -/
def slotOf (p : FixParser) (tag : ℕ) : ℕ :=
  if (p.fieldArray tag).valueCount = 1 then p.mIndexNext else (p.fieldArray tag).mIndex

/-- A value of `tag` is stored: slots for it are taken, then the value is put there. -/
def store (p : FixParser) (tag : ℕ) (value : Bytes) : FixParser := (p.nextSlot tag).putValue tag value

theorem store_eq : p.store tag value =
    { p with
      fieldArray := update p.fieldArray tag
        { tag := tag
          mIndex := p.slotOf tag
          valueCount := (p.fieldArray tag).valueCount + 1
          value := if (p.fieldArray tag).valueCount = 0 then value else (p.fieldArray tag).value }
      mFields := if (p.fieldArray tag).valueCount = 0 then p.mFields else
        update p.mFields (p.slotOf tag + ((p.fieldArray tag).valueCount - 1)) value
      mIndexNext := if (p.fieldArray tag).valueCount = 1 then
        u16 (p.mIndexNext + kMaxDupFieldCount) else p.mIndexNext
      fieldList := p.fieldList ++ [tag] } := by
  unfold store nextSlot putValue slotOf
  by_cases h1 : (p.fieldArray tag).valueCount = 1
  · simp [h1]
  · by_cases h0 : (p.fieldArray tag).valueCount = 0 <;> simp [h0, h1]

theorem store_fieldArray :
    (p.store tag value).fieldArray = update p.fieldArray tag
      { tag := tag
        mIndex := p.slotOf tag
        valueCount := (p.fieldArray tag).valueCount + 1
        value := if (p.fieldArray tag).valueCount = 0 then value else (p.fieldArray tag).value } := by
  rw [store_eq]

theorem store_mFields :
    (p.store tag value).mFields = if (p.fieldArray tag).valueCount = 0 then p.mFields else
      update p.mFields (p.slotOf tag + ((p.fieldArray tag).valueCount - 1)) value := by
  rw [store_eq]

theorem store_mIndexNext :
    (p.store tag value).mIndexNext = if (p.fieldArray tag).valueCount = 1 then
      u16 (p.mIndexNext + kMaxDupFieldCount) else p.mIndexNext := by
  rw [store_eq]

theorem store_fieldList : (p.store tag value).fieldList = p.fieldList ++ [tag] := by rw [store_eq]

theorem store_expectHeader : (p.store tag value).expectHeader = p.expectHeader := by rw [store_eq]

theorem store_expectSize : (p.store tag value).expectSize = p.expectSize := by rw [store_eq]

theorem store_fieldArray_of_ne {t : ℕ} (ht : t ≠ tag) :
    (p.store tag value).fieldArray t = p.fieldArray t := by
  rw [store_fieldArray, update_of_ne ht]

/-- A second value opens a block; every repeated tag keeps the block it has. -/
theorem Slots.store {dups : List ℕ} (hs : p.Slots dups) (tag : ℕ) (value : Bytes) :
    ∃ dups', (p.store tag value).Slots dups' ∧
      (0 < (p.fieldArray tag).valueCount → tag ∈ dups') ∧ ∀ t ∈ dups, t ∈ dups' := by
  by_cases h1 : (p.fieldArray tag).valueCount = 1
  · have hnot : tag ∉ dups := by
      rw [hs.mem, h1]
      decide
    refine ⟨dups ++ [tag], ⟨?_, fun t => ?_, ?_, fun k hk => ?_⟩, by simp, by simp +contextual⟩
    · rw [nodup_append_comm]
      exact nodup_cons.mpr ⟨hnot, hs.nodup⟩
    · by_cases ht : t = tag
      · simp [ht, store_fieldArray, h1]
      · rw [mem_append, mem_singleton, store_fieldArray_of_ne ht, hs.mem]
        simp [ht]
    · rw [store_mIndexNext, if_pos h1, hs.next, length_append, length_singleton]
      simp only [u16, kMaxDupFieldCount]
      omega
    · rw [length_append, length_singleton] at hk
      by_cases hlast : k = dups.length
      · subst hlast
        simp [store_fieldArray, slotOf, h1, hs.next]
      · have hk' : k < dups.length := by omega
        have hne : dups[k] ≠ tag := fun h => hnot (h ▸ getElem_mem hk')
        rw [getElem_append_left hk', store_fieldArray_of_ne hne, hs.block k hk']
  · have hsame : ∀ t, ((p.store tag value).fieldArray t).mIndex = (p.fieldArray t).mIndex := by
      intro t
      by_cases ht : t = tag
      · simp [ht, store_fieldArray, slotOf, h1]
      · rw [store_fieldArray_of_ne ht]
    refine ⟨dups, ⟨hs.nodup, fun t => ?_, ?_, fun k hk => ?_⟩, fun h0 => ?_, fun t ht => ht⟩
    · by_cases ht : t = tag
      · simp only [ht, hs.mem, store_fieldArray, update_self]
        omega
      · rw [store_fieldArray_of_ne ht, hs.mem]
    · rw [store_mIndexNext, if_neg h1, hs.next]
    · rw [hsame, hs.block k hk]
    · rw [hs.mem]
      omega

/-- Values in the blocks of two tags do not share a slot. -/
theorem Slots.disjoint {dups : List ℕ} (hs : p.Slots dups) (hlen : dups.length ≤ kMaxDupTags)
    {s t i j : ℕ} (hst : s ≠ t) (h1 : s ∈ dups) (h2 : t ∈ dups) (hi : i < kMaxDupFieldCount)
    (hj : j < kMaxDupFieldCount) :
    (p.fieldArray s).mIndex + i ≠ (p.fieldArray t).mIndex + j := by
  obtain ⟨k, hk, rfl⟩ := mem_iff_getElem.mp h1
  obtain ⟨l, hl, rfl⟩ := mem_iff_getElem.mp h2
  have hkl : k ≠ l := fun h => hst (by subst h; rfl)
  rw [hs.block k hk, hs.block l hl]
  simp only [kMaxDupTags, kMaxDupFieldCount, u16] at *
  omega

theorem Stored.value_store_self (h : p.Stored fields) {i : ℕ}
    (hi : i < (valuesOf tag (fields ++ [(tag, value)])).length) :
    (p.store tag value).getValue ((p.store tag value).fieldArray tag) i =
      (valuesOf tag (fields ++ [(tag, value)]))[i] := by
  have hc := h.count tag
  simp only [valuesOf_append_self] at hi ⊢
  rw [length_append, length_singleton] at hi
  rw [store_fieldArray, update_self, getValue, if_neg (by simp only; omega), store_mFields]
  by_cases hlast : i = (valuesOf tag fields).length
  · -- the new value
    subst hlast
    rw [getElem_concat_length rfl, hc]
    by_cases h0 : (valuesOf tag fields).length = 0 <;> simp [h0]
  · have hi' : i < (valuesOf tag fields).length := by omega
    have hge : ¬ i ≥ (p.fieldArray tag).valueCount := by omega
    have hc0 : ¬ (p.fieldArray tag).valueCount = 0 := by omega
    rw [getElem_append_left hi', ← h.value tag i hi', getValue, if_neg hge, if_neg hc0, if_neg hc0]
    by_cases h0 : i = 0
    · simp [h0]
    · have hc1 : ¬ (p.fieldArray tag).valueCount = 1 := by omega
      rw [if_neg h0, if_neg h0, slotOf, if_neg hc1, update_of_ne (by simp only; omega)]

/-- Storing a value appends it to the values of its tag and keeps all others. -/
theorem Stored.store (h : p.Stored fields)
    (hdup : ∀ t, (valuesOf t (fields ++ [(tag, value)])).length ≤ kMaxDupFieldCount + 1)
    (hblocks : (dupTags (fields ++ [(tag, value)])).length ≤ kMaxDupTags) :
    (p.store tag value).Stored (fields ++ [(tag, value)]) := by
  have hcount : ∀ t, ((p.store tag value).fieldArray t).valueCount =
      (valuesOf t (fields ++ [(tag, value)])).length := by
    intro t
    by_cases ht : t = tag
    · subst ht
      simp [store_fieldArray, valuesOf_append_self, h.count]
    · rw [store_fieldArray_of_ne ht, valuesOf_append_of_ne _ _ ht, h.count]
  obtain ⟨dups, hs⟩ := h.slots
  obtain ⟨dups', hs', htag, hsub⟩ := hs.store tag value
  refine ⟨by simp [store_fieldList, h.list], hcount, fun t ht => ?_, fun t i hi => ?_, dups', hs'⟩
  · by_cases heq : t = tag
    · simp [heq, store_fieldArray]
    · rw [store_fieldArray_of_ne heq]
      apply h.tag
      simpa [store_fieldList, heq] using ht
  have hlen : dups'.length ≤ kMaxDupTags := by
    apply le_trans _ hblocks
    apply List.Subperm.length_le
    apply hs'.nodup.subperm
    intro s hmem
    rw [mem_dupTags, ← hcount]
    exact (hs'.mem s).mp hmem
  by_cases ht : t = tag
  · subst ht
    exact h.value_store_self hi
  · have hi' : i < (valuesOf t fields).length := by rwa [valuesOf_append_of_ne _ _ ht] at hi
    have hold := h.value t i hi'
    have hmax := hdup t
    simp only [valuesOf_append_of_ne _ _ ht] at hmax ⊢
    rw [← hold, store_fieldArray_of_ne ht, getValue, getValue, store_mFields]
    by_cases h0 : i = 0
    · simp [h0]
    · rw [if_neg h0, if_neg h0]
      by_cases hc : (p.fieldArray tag).valueCount = 0
      · rw [if_pos hc]
      · -- the slot written lies in the block of another tag
        have hmem : t ∈ dups' := hsub t ((hs.mem t).mpr (by rw [h.count]; omega))
        have hctag := hdup tag
        rw [← hcount, store_fieldArray, update_self] at hctag
        have hne := hs'.disjoint hlen ht hmem (htag (by omega))
          (show i - 1 < kMaxDupFieldCount by omega)
          (show (p.fieldArray tag).valueCount - 1 < kMaxDupFieldCount by simp only at hctag; omega)
        rw [store_fieldArray_of_ne ht, store_fieldArray, update_self] at hne
        rw [if_neg hc, update_of_ne hne]

end Store

end FixParser

end Fon9.Fix
