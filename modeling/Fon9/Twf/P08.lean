import Fon9.Base.StrTo
import Fon9.Lib.Pieces

/-! The table of the products, loaded from the file P08 with the short ids and from PA8 with the long ones. A file with
another id for a number takes back the id of the other file, so that the order of the two files may matter. -/

namespace Fon9.Twf

open Lib List

/-! ### Lines -/

def kSizeofExgProdIdS : ℕ := 10
def kSizeofExgProdIdL : ℕ := 20
def kSizeofTmpP08Fields : ℕ := 63
def kSizeofTmpP08Base : ℕ := 150

/-- Where `pseq_` is in `TmpP08Fields`. -/
def kOffsetofPseq : ℕ := 44
def kSizeofPseq : ℕ := 5

/-- `Pic9StrTo<unsigned>`: the digits are not checked. -/
def pic9StrTo (str : Bytes) : UInt32 :=
  str.foldl (fun res c => UInt32.ofInt (c.toInt8.toInt - 48) + res * 10) 0

/-- A number of the table. -/
def pseqOf (p08flds : Bytes) : ℕ := (pic9StrTo ((p08flds.drop kOffsetofPseq).take kSizeofPseq)).toNat

/-- The times are null or microseconds. -/
structure P08Rec where
  shortId : Bytes := []
  longId : Bytes := []
  fields : Bytes := List.replicate kSizeofTmpP08Fields 0
  updatedTime : Option ℤ := none
  deriving DecidableEq

structure P08Recs where
  recs : List P08Rec := []
  updatedTimeL : Option ℤ := none
  updatedTimeS : Option ℤ := none
  deriving DecidableEq

def P08Rec.id (prec : P08Rec) (isLong : Bool) : Bytes := if isLong then prec.longId else prec.shortId

def P08Rec.setId (prec : P08Rec) (isLong : Bool) (id : Bytes) : P08Rec :=
  if isLong then { prec with longId := id } else { prec with shortId := id }

/-- A table gets more records, that are empty. -/
def resize (recs : List P08Rec) (size : ℕ) : List P08Rec := recs ++ List.replicate (size - recs.length) ({} : P08Rec)

/-- `ImpSeedP08::Loader`, of the file that its size of the ids stands for. -/
structure Loader where
  isLong : Bool
  updatedTime : Option ℤ

namespace Loader

variable (l : Loader)

/-- The file is told by its name, "0_PA8_XY" or "0_P08_XY". -/
def ofSeed (name : Bytes) (lastFileTime : Option ℤ) : Loader := ⟨name.getD (name.length - 5) 0 = ch 'A', lastFileTime⟩

def idSize : ℕ := if l.isLong then kSizeofExgProdIdL else kSizeofExgProdIdS

/-- The id without the blanks behind it. -/
def idOf (pbuf : Bytes) : Bytes := (pbuf.take l.idSize).rdropWhile isspace

def fieldsOf (pbuf : Bytes) : Bytes := (pbuf.drop l.idSize).take kSizeofTmpP08Fields

/-- The number of a line. -/
def numberOf (pbuf : Bytes) : ℕ := pseqOf (l.fieldsOf pbuf)

/-- The record of a number with what a line says. -/
def setRec (isNew : Bool) (id p08flds : Bytes) (prec : P08Rec) : P08Rec :=
  if ¬isNew ∧ id = prec.id l.isLong ∧ prec.fields = p08flds then prec
  else
    let prec := if ¬isNew ∧ id ≠ prec.id l.isLong ∧ prec.id l.isLong ≠ [] then
      { prec with longId := [], shortId := [] } else prec
    { prec.setId l.isLong id with fields := p08flds, updatedTime := l.updatedTime }

def onLoadLine (recs : P08Recs) (pbuf : Bytes) : P08Recs :=
  let pseq := l.numberOf pbuf
  let isNew := decide (recs.recs.length ≤ pseq)
  if isNew ∧ 10 ^ kSizeofPseq ≤ pseq then recs
  else
    let all := if isNew then resize recs.recs (pseq + 1) else recs.recs
    { recs with recs := all.modify pseq (l.setRec isNew (l.idOf pbuf) (l.fieldsOf pbuf)) }

/-- `OnLoadBlock` of a whole file. -/
def lines (file : Bytes) : List Bytes := pieces (l.idSize + kSizeofTmpP08Base) file

def start (recs : P08Recs) : P08Recs :=
  if l.isLong then { recs with updatedTimeL := l.updatedTime } else { recs with updatedTimeS := l.updatedTime }

def load (recs : P08Recs) (file : Bytes) : P08Recs := (l.lines file).foldl l.onLoadLine (l.start recs)

end Loader

open Loader P08Rec P08Recs

/-! ### One line -/

variable {l l' : Loader} {recs : P08Recs} {prec prec' : P08Rec} {pbuf id other p08flds : Bytes} {n : ℕ}

/-- The record of a number. -/
def P08Recs.recOf (recs : P08Recs) (n : ℕ) : P08Rec := recs.recs[n]?.getD {}

/-- The number has a place in the table, or can get one. -/
def P08Recs.Takes (recs : P08Recs) (n : ℕ) : Prop := n < 10 ^ kSizeofPseq ∨ n < recs.recs.length

instance : Decidable (recs.Takes n) := inferInstanceAs (Decidable (_ ∨ _))

/-- The record without its time. -/
def P08Rec.content (prec : P08Rec) : Bytes × Bytes × Bytes := (prec.shortId, prec.longId, prec.fields)

theorem content_eq (isLong : Bool) (hid : prec.id isLong = prec'.id isLong) (hother : prec.id (!isLong) = prec'.id (!isLong))
    (hfields : prec.fields = prec'.fields) : prec.content = prec'.content := by
  cases isLong with
  | false => exact congrArg₂ Prod.mk hid (congrArg₂ Prod.mk hother hfields)
  | true => exact congrArg₂ Prod.mk hother (congrArg₂ Prod.mk hid hfields)

theorem id_of_content (h : prec.content = prec'.content) (isLong : Bool) : prec.id isLong = prec'.id isLong := by
  cases isLong with
  | false => exact congrArg Prod.fst h
  | true => exact congrArg (fun c => c.2.1) h

@[simp] theorem P08Rec.id_setId (prec : P08Rec) (isLong : Bool) (id : Bytes) : (prec.setId isLong id).id isLong = id := by
  cases isLong <;> rfl

@[simp] theorem P08Rec.id_setId_not (prec : P08Rec) (isLong : Bool) (id : Bytes) :
    (prec.setId isLong id).id (!isLong) = prec.id (!isLong) := by
  cases isLong <;> rfl

/-- The ids and the fields of a record that a line is put in. -/
theorem setRec_id (l : Loader) (id p08flds : Bytes) (prec : P08Rec) :
    (l.setRec false id p08flds prec).id l.isLong = id ∧ (l.setRec false id p08flds prec).fields = p08flds ∧
      (l.setRec false id p08flds prec).id (!l.isLong) =
        if id = prec.id l.isLong ∨ prec.id l.isLong = [] then prec.id (!l.isLong) else [] := by
  rw [setRec]
  by_cases hsame : ¬false = true ∧ id = prec.id l.isLong ∧ prec.fields = p08flds
  · rw [if_pos hsame, if_pos (.inl hsame.2.1)]
    exact ⟨hsame.2.1.symm, hsame.2.2, rfl⟩
  · rw [if_neg hsame]
    by_cases hkeep : id = prec.id l.isLong ∨ prec.id l.isLong = []
    · have hclear : ¬(¬false = true ∧ id ≠ prec.id l.isLong ∧ prec.id l.isLong ≠ []) := by
        rintro ⟨-, hne, hnil⟩
        rcases hkeep with h | h
        · exact hne h
        · exact hnil h
      rw [if_neg hclear, if_pos hkeep]
      exact ⟨id_setId _ _ _, rfl, id_setId_not _ _ _⟩
    · have hclear : ¬false = true ∧ id ≠ prec.id l.isLong ∧ prec.id l.isLong ≠ [] :=
        ⟨Bool.false_ne_true, fun h => hkeep (.inl h), fun h => hkeep (.inr h)⟩
      rw [if_pos hclear, if_neg hkeep]
      refine ⟨id_setId _ _ _, rfl, (id_setId_not _ _ _).trans ?_⟩
      cases l.isLong <;> rfl

/-- A record that is new is put in as an empty one. -/
theorem content_setRec_new (l : Loader) (id p08flds : Bytes) :
    (l.setRec true id p08flds {}).content = (l.setRec false id p08flds {}).content := by
  obtain ⟨hid, hfields, hother⟩ := setRec_id l id p08flds {}
  have hempty : ∀ isLong, ({} : P08Rec).id isLong = [] := fun isLong => by cases isLong <;> rfl
  rw [if_pos (.inr (hempty _)), hempty] at hother
  refine content_eq l.isLong ?_ ?_ hfields.symm
  · rw [hid]
    exact id_setId _ _ _
  · rw [hother]
    exact (id_setId_not _ _ _).trans (hempty _)

/-- The time of a record does not matter to what a line makes of it. -/
theorem content_setRec_congr (h : prec.content = prec'.content) (l : Loader) (id p08flds : Bytes) :
    (l.setRec false id p08flds prec).content = (l.setRec false id p08flds prec').content := by
  have hid := id_of_content h
  obtain ⟨hid₁, hfields₁, hother₁⟩ := setRec_id l id p08flds prec
  obtain ⟨hid₂, hfields₂, hother₂⟩ := setRec_id l id p08flds prec'
  rw [hid, hid, ← hother₂] at hother₁
  exact content_eq l.isLong (hid₁.trans hid₂.symm) hother₁ (hfields₁.trans hfields₂.symm)

/-! ### A file -/

namespace Loader

theorem getElem?_resize (recs : List P08Rec) (size n : ℕ) :
    ((resize recs size)[n]?).getD {} = (recs[n]?).getD {} := by
  rw [resize]
  by_cases hlt : n < recs.length
  · rw [getElem?_append_left hlt]
  · have hge := not_lt.mp hlt
    rw [getElem?_append_right hge, getElem?_eq_none hge]
    by_cases hlt' : n - recs.length < size - recs.length
    · rw [getElem?_replicate_of_lt hlt']
      rfl
    · rw [getElem?_eq_none (by rw [length_replicate]; exact not_lt.mp hlt')]

/-- A number that the table does not take is passed over. -/
theorem onLoadLine_skip (h : ¬ recs.Takes (l.numberOf pbuf)) : l.onLoadLine recs pbuf = recs := by
  obtain ⟨hle, hnew⟩ := not_or.mp h
  rw [onLoadLine]
  exact if_pos ⟨decide_eq_true (not_lt.mp hnew), not_lt.mp hle⟩

theorem onLoadLine_new (h : recs.Takes (l.numberOf pbuf)) (hnew : recs.recs.length ≤ l.numberOf pbuf) :
    l.onLoadLine recs pbuf = { recs with
      recs := (resize recs.recs (l.numberOf pbuf + 1)).modify (l.numberOf pbuf)
        (l.setRec true (l.idOf pbuf) (l.fieldsOf pbuf)) } := by
  have htrue : decide (recs.recs.length ≤ l.numberOf pbuf) = true := decide_eq_true hnew
  have hlt : ¬10 ^ kSizeofPseq ≤ l.numberOf pbuf := not_le.mpr (h.resolve_right (not_lt.mpr hnew))
  rw [onLoadLine]
  dsimp only
  rw [htrue, if_neg (fun h => hlt h.2), if_pos rfl]

theorem onLoadLine_old (hold : l.numberOf pbuf < recs.recs.length) :
    l.onLoadLine recs pbuf = { recs with
      recs := recs.recs.modify (l.numberOf pbuf) (l.setRec false (l.idOf pbuf) (l.fieldsOf pbuf)) } := by
  have hfalse : decide (recs.recs.length ≤ l.numberOf pbuf) = false := decide_eq_false (not_le.mpr hold)
  rw [onLoadLine]
  dsimp only
  rw [hfalse, if_neg (fun h => Bool.false_ne_true h.1), if_neg Bool.false_ne_true]

theorem length_onLoadLine (h : recs.Takes (l.numberOf pbuf)) :
    (l.onLoadLine recs pbuf).recs.length = max recs.recs.length (l.numberOf pbuf + 1) := by
  by_cases hnew : recs.recs.length ≤ l.numberOf pbuf
  · rw [onLoadLine_new h hnew]
    dsimp only
    rw [length_modify, resize, length_append, length_replicate]
    omega
  · rw [onLoadLine_old (not_le.mp hnew)]
    dsimp only
    rw [length_modify]
    omega

/-- A line takes no other number in or out. -/
theorem takes_onLoadLine (l : Loader) (recs : P08Recs) (pbuf : Bytes) (n : ℕ) :
    (l.onLoadLine recs pbuf).Takes n ↔ recs.Takes n := by
  by_cases h : recs.Takes (l.numberOf pbuf)
  · rw [P08Recs.Takes, P08Recs.Takes, length_onLoadLine h]
    rw [P08Recs.Takes] at h
    omega
  · rw [onLoadLine_skip h]

theorem recOf_onLoadLine_ne (hne : n ≠ l.numberOf pbuf) : (l.onLoadLine recs pbuf).recOf n = recs.recOf n := by
  by_cases h : recs.Takes (l.numberOf pbuf)
  · by_cases hnew : recs.recs.length ≤ l.numberOf pbuf
    · rw [onLoadLine_new h hnew, recOf, getElem?_modify_ne _ _ (Ne.symm hne), getElem?_resize]
      rfl
    · rw [onLoadLine_old (not_le.mp hnew), recOf, getElem?_modify_ne _ _ (Ne.symm hne)]
      rfl
  · rw [onLoadLine_skip h]

/-- The record of the number of a line. -/
theorem content_onLoadLine (h : recs.Takes (l.numberOf pbuf)) :
    ((l.onLoadLine recs pbuf).recOf (l.numberOf pbuf)).content =
      (l.setRec false (l.idOf pbuf) (l.fieldsOf pbuf) (recs.recOf (l.numberOf pbuf))).content := by
  by_cases hnew : recs.recs.length ≤ l.numberOf pbuf
  · have hempty : recs.recOf (l.numberOf pbuf) = {} := by
      rw [recOf, getElem?_eq_none hnew]
      rfl
    have hget : (resize recs.recs (l.numberOf pbuf + 1))[l.numberOf pbuf]? = some {} := by
      rw [resize, getElem?_append_right hnew, getElem?_replicate_of_lt]
      omega
    rw [onLoadLine_new h hnew, hempty, ← content_setRec_new, recOf, getElem?_modify_eq, hget]
    rfl
  · have hlt := not_le.mp hnew
    rw [onLoadLine_old hlt, recOf, recOf, getElem?_modify_eq, getElem?_eq_getElem hlt]
    rfl

/-- Lines with other numbers leave a record. -/
theorem recOf_foldl_ne (lines : List Bytes) (hne : n ∉ lines.map l.numberOf) :
    (lines.foldl l.onLoadLine recs).recOf n = recs.recOf n := by
  induction lines generalizing recs with
  | nil => rfl
  | cons line lines ih =>
    rw [map_cons, mem_cons, not_or] at hne
    obtain ⟨hline, hlines⟩ := hne
    rw [foldl_cons, ih hlines, recOf_onLoadLine_ne hline]

theorem takes_foldl (lines : List Bytes) (n : ℕ) : (lines.foldl l.onLoadLine recs).Takes n ↔ recs.Takes n := by
  induction lines generalizing recs with
  | nil => rfl
  | cons line lines ih => rw [foldl_cons, ih, takes_onLoadLine]

/-- The record of a number that is once in the lines. -/
theorem content_foldl {lines : List Bytes} (hnodup : (lines.map l.numberOf).Nodup) (hmem : pbuf ∈ lines)
    (h : recs.Takes (l.numberOf pbuf)) :
    ((lines.foldl l.onLoadLine recs).recOf (l.numberOf pbuf)).content =
      (l.setRec false (l.idOf pbuf) (l.fieldsOf pbuf) (recs.recOf (l.numberOf pbuf))).content := by
  induction lines generalizing recs with
  | nil => cases hmem
  | cons line lines ih =>
    rw [map_cons, nodup_cons] at hnodup
    rw [foldl_cons]
    rcases mem_cons.mp hmem with rfl | hmem
    · rw [recOf_foldl_ne lines hnodup.1, content_onLoadLine h]
    · have hne : l.numberOf pbuf ≠ l.numberOf line := fun heq =>
        hnodup.1 (heq ▸ mem_map_of_mem hmem)
      rw [ih hnodup.2 hmem ((takes_onLoadLine _ _ _ _).mpr h), recOf_onLoadLine_ne hne]

/-- The numbers of a file. -/
def numbers (l : Loader) (file : Bytes) : List ℕ := (l.lines file).map l.numberOf

theorem takes_load (l : Loader) (recs : P08Recs) (file : Bytes) (n : ℕ) : (l.load recs file).Takes n ↔ recs.Takes n := by
  rw [load, takes_foldl, start]
  split_ifs <;> rfl

theorem content_load {file : Bytes} (hnodup : (l.numbers file).Nodup) (hmem : pbuf ∈ l.lines file)
    (h : recs.Takes (l.numberOf pbuf)) : ((l.load recs file).recOf (l.numberOf pbuf)).content =
      (l.setRec false (l.idOf pbuf) (l.fieldsOf pbuf) (recs.recOf (l.numberOf pbuf))).content := by
  have hstart : (l.start recs).recOf (l.numberOf pbuf) = recs.recOf (l.numberOf pbuf) := by
    rw [start]
    split_ifs <;> rfl
  have htakes : (l.start recs).Takes (l.numberOf pbuf) := by
    rw [start]
    split_ifs <;> exact h
  rw [load, content_foldl hnodup hmem htakes, hstart]

/-- A number that is in the table, or was put there. -/
theorem length_load {file : Bytes} (hmem : pbuf ∈ l.lines file) (h : recs.Takes (l.numberOf pbuf)) :
    l.numberOf pbuf < (l.load recs file).recs.length := by
  have hlines : ∀ (lines : List Bytes) (recs : P08Recs), recs.Takes (l.numberOf pbuf) →
      (pbuf ∈ lines ∨ l.numberOf pbuf < recs.recs.length) →
        l.numberOf pbuf < (lines.foldl l.onLoadLine recs).recs.length := by
    intro lines
    induction lines with
    | nil => exact fun recs _ hor => hor.resolve_left not_mem_nil
    | cons line lines ih =>
      intro recs htakes hor
      rw [foldl_cons]
      apply ih _ ((takes_onLoadLine _ _ _ _).mpr htakes)
      have hgrow : recs.recs.length ≤ (l.onLoadLine recs line).recs.length := by
        by_cases hline : recs.Takes (l.numberOf line)
        · rw [length_onLoadLine hline]
          exact Nat.le_max_left _ _
        · rw [onLoadLine_skip hline]
      rcases hor with hmem | hlt
      · rcases mem_cons.mp hmem with rfl | hmem
        · rw [length_onLoadLine htakes]
          exact .inr (lt_of_lt_of_le (Nat.lt_succ_self _) (Nat.le_max_right _ _))
        · exact .inl hmem
      · exact .inr (lt_of_lt_of_le hlt hgrow)
  refine hlines _ _ ?_ (.inl hmem)
  rw [start]
  split_ifs <;> exact h

end Loader

/-! ### Two files -/

/-- The ids of a number are put in one after the other, and the second one takes the first one back. -/
def P08Rec.Loses (prec : P08Rec) (isLong : Bool) (first second : Bytes) : Prop :=
  (first = prec.id isLong ∨ prec.id isLong = []) ∧ second ≠ prec.id !isLong ∧ prec.id (!isLong) ≠ [] ∧ first ≠ []

instance (prec : P08Rec) (isLong : Bool) (first second : Bytes) : Decidable (prec.Loses isLong first second) :=
  inferInstanceAs (Decidable (_ ∧ _ ∧ _ ∧ _))

/-- A line of each of two files, the second one for the other ids. -/
theorem setRec_twice (hkind : l'.isLong = !l.isLong) (id other p08flds : Bytes) (prec : P08Rec) :
    ((l'.setRec false other p08flds (l.setRec false id p08flds prec)).id l.isLong = id ∧
      (l'.setRec false other p08flds (l.setRec false id p08flds prec)).id (!l.isLong) = other ∧
      (l'.setRec false other p08flds (l.setRec false id p08flds prec)).fields = p08flds) ↔
    ¬ prec.Loses l.isLong id other := by
  obtain ⟨hid₁, -, hother₁⟩ := setRec_id l id p08flds prec
  obtain ⟨hid₂, hfields₂, hother₂⟩ := setRec_id l' other p08flds (l.setRec false id p08flds prec)
  rw [hkind] at hid₂ hother₂
  rw [Bool.not_not, hother₁, hid₁] at hother₂
  rw [hid₂, hfields₂, hother₂, P08Rec.Loses]
  by_cases hkeep : id = prec.id l.isLong ∨ prec.id l.isLong = []
  · rw [if_pos hkeep]
    by_cases hother : other = prec.id (!l.isLong) ∨ prec.id (!l.isLong) = []
    · rw [if_pos hother]
      refine iff_of_true ⟨rfl, rfl, rfl⟩ ?_
      rintro ⟨-, hne, hnil, -⟩
      rcases hother with h | h
      · exact hne h
      · exact hnil h
    · rw [if_neg hother]
      obtain ⟨hne, hnil⟩ := not_or.mp hother
      constructor
      · rintro ⟨hid, -⟩ ⟨-, -, -, hid'⟩
        exact hid' hid.symm
      · intro h
        have hid : id = [] := by_contra fun hid => h ⟨hkeep, hne, hnil, hid⟩
        exact ⟨hid.symm, rfl, rfl⟩
  · rw [if_neg hkeep, if_pos (.inr rfl)]
    exact iff_of_true ⟨rfl, rfl, rfl⟩ fun h => hkeep h.1

/-- After two files a number has the ids and the fields of its lines. -/
def Shows (recs : P08Recs) (n : ℕ) (shortId longId p08flds : Bytes) : Prop :=
  ∃ prec, recs.recs[n]? = some prec ∧ prec.shortId = shortId ∧ prec.longId = longId ∧ prec.fields = p08flds

instance (recs : P08Recs) (n : ℕ) (shortId longId p08flds : Bytes) : Decidable (Shows recs n shortId longId p08flds) :=
  decidable_of_iff (recs.recs[n]?.any fun prec => prec.shortId = shortId ∧ prec.longId = longId ∧ prec.fields = p08flds) (by
    rw [Option.any_eq_true]
    exact exists_congr fun prec => and_congr Iff.rfl decide_eq_true_iff)

theorem load_twice {file other : Bytes} (hkind : l'.isLong = !l.isLong) (hnodup : (l.numbers file).Nodup)
    (hnodup' : (l'.numbers other).Nodup) {pbuf pbuf' : Bytes} (hmem : pbuf ∈ l.lines file) (hmem' : pbuf' ∈ l'.lines other)
    (hsame : l'.fieldsOf pbuf' = l.fieldsOf pbuf) :
    (∃ prec, (l'.load (l.load recs file) other).recs[l.numberOf pbuf]? = some prec ∧ prec.id l.isLong = l.idOf pbuf ∧
      prec.id (!l.isLong) = l'.idOf pbuf' ∧ prec.fields = l.fieldsOf pbuf) ↔
    recs.Takes (l.numberOf pbuf) ∧ ¬ (recs.recOf (l.numberOf pbuf)).Loses l.isLong (l.idOf pbuf) (l'.idOf pbuf') := by
  have hnumber : l'.numberOf pbuf' = l.numberOf pbuf := congrArg pseqOf hsame
  by_cases h : recs.Takes (l.numberOf pbuf)
  · have h' : (l.load recs file).Takes (l'.numberOf pbuf') := by
      rw [hnumber]
      exact (takes_load _ _ _ _).mpr h
    have hlt := length_load hmem' h'
    have hcontent := content_load hnodup' hmem' h'
    rw [hnumber] at hlt hcontent
    rw [hsame, content_setRec_congr (content_load hnodup hmem h)] at hcontent
    have hrec : (l'.load (l.load recs file) other).recs[l.numberOf pbuf]? =
        some ((l'.load (l.load recs file) other).recOf (l.numberOf pbuf)) := by
      rw [recOf, getElem?_eq_getElem hlt]
      rfl
    have hid := id_of_content hcontent
    have hfields := congrArg (fun c => c.2.2) hcontent
    dsimp only [P08Rec.content] at hfields
    rw [and_iff_right h, ← setRec_twice hkind, ← hid, ← hid, ← hfields]
    constructor
    · rintro ⟨prec, hprec, hall⟩
      obtain rfl := Option.some.inj (hrec.symm.trans hprec)
      exact hall
    · exact fun hall => ⟨_, hrec, hall⟩
  · refine iff_of_false ?_ fun hall => h hall.1
    rintro ⟨prec, hprec, -⟩
    have hlt := (List.getElem?_eq_some_iff.mp hprec).1
    have htakes : (l'.load (l.load recs file) other).Takes (l.numberOf pbuf) := .inr hlt
    rw [takes_load, takes_load] at htakes
    exact h htakes

/-- The loaders of the two files. -/
def p08Loader (updatedTime : Option ℤ) : Loader := ⟨false, updatedTime⟩
def pa8Loader (updatedTime : Option ℤ) : Loader := ⟨true, updatedTime⟩

/-- Both files list the same numbers with the same fields, and each number once. -/
structure SameListing (p08 pa8 : Bytes) : Prop where
  once : ((p08Loader none).numbers p08).Nodup
  onceLong : ((pa8Loader none).numbers pa8).Nodup
  fields : ∀ p08flds, p08flds ∈ ((p08Loader none).lines p08).map (p08Loader none).fieldsOf ↔
    p08flds ∈ ((pa8Loader none).lines pa8).map (pa8Loader none).fieldsOf

/-- In either order each number gets the ids and the fields of the two files. -/
def OrderFree (recs : P08Recs) (timeS timeL : Option ℤ) (p08 pa8 : Bytes) : Prop :=
  ∀ s ∈ (p08Loader timeS).lines p08, ∀ l ∈ (pa8Loader timeL).lines pa8,
    (pa8Loader timeL).numberOf l = (p08Loader timeS).numberOf s →
      Shows ((pa8Loader timeL).load ((p08Loader timeS).load recs p08) pa8) ((p08Loader timeS).numberOf s)
          ((p08Loader timeS).idOf s) ((pa8Loader timeL).idOf l) ((p08Loader timeS).fieldsOf s) ∧
        Shows ((p08Loader timeS).load ((pa8Loader timeL).load recs pa8) p08) ((p08Loader timeS).numberOf s)
          ((p08Loader timeS).idOf s) ((pa8Loader timeL).idOf l) ((p08Loader timeS).fieldsOf s)

instance (recs : P08Recs) (timeS timeL : Option ℤ) (p08 pa8 : Bytes) : Decidable (OrderFree recs timeS timeL p08 pa8) :=
  inferInstanceAs (Decidable (∀ s ∈ _, ∀ l ∈ _, _ → _ ∧ _))

/-- The table takes the number, and neither file takes back the id of the other one. -/
def KeepsBoth (recs : P08Recs) (n : ℕ) (shortId longId : Bytes) : Prop :=
  recs.Takes n ∧ ¬ (recs.recOf n).Loses false shortId longId ∧ ¬ (recs.recOf n).Loses true longId shortId

instance (recs : P08Recs) (n : ℕ) (shortId longId : Bytes) : Decidable (KeepsBoth recs n shortId longId) :=
  inferInstanceAs (Decidable (_ ∧ _ ∧ _))

theorem load_orderFree {recs : P08Recs} {timeS timeL : Option ℤ} {p08 pa8 : Bytes} (h : SameListing p08 pa8) :
    OrderFree recs timeS timeL p08 pa8 ↔ ∀ s ∈ (p08Loader timeS).lines p08, ∀ l ∈ (pa8Loader timeL).lines pa8,
      (pa8Loader timeL).numberOf l = (p08Loader timeS).numberOf s →
        KeepsBoth recs ((p08Loader timeS).numberOf s) ((p08Loader timeS).idOf s) ((pa8Loader timeL).idOf l) := by
  refine forall₂_congr fun s hs => forall₂_congr fun l hl => imp_congr_right fun hnumber => ?_
  have hfields : (pa8Loader timeL).fieldsOf l = (p08Loader timeS).fieldsOf s := by
    obtain ⟨l', hl', heq⟩ := List.mem_map.mp ((h.fields _).mp (List.mem_map_of_mem hs))
    have hnumber' : (pa8Loader none).numberOf l' = (pa8Loader none).numberOf l :=
      (congrArg pseqOf heq).trans hnumber.symm
    obtain rfl := List.inj_on_of_nodup_map h.onceLong hl' hl hnumber'
    exact heq
  have hshort := @load_twice (p08Loader timeS) (pa8Loader timeL) recs p08 pa8 rfl h.once h.onceLong s l hs hl hfields
  have hlong := @load_twice (pa8Loader timeL) (p08Loader timeS) recs pa8 p08 rfl h.onceLong h.once l s hl hs hfields.symm
  rw [hnumber, hfields] at hlong
  have hswap : ∀ prec : P08Rec, (prec.longId = (pa8Loader timeL).idOf l ∧ prec.shortId = (p08Loader timeS).idOf s ∧
      prec.fields = (p08Loader timeS).fieldsOf s) ↔ (prec.shortId = (p08Loader timeS).idOf s ∧
        prec.longId = (pa8Loader timeL).idOf l ∧ prec.fields = (p08Loader timeS).fieldsOf s) :=
    fun prec => and_left_comm
  have hlong' : Shows _ _ _ _ _ ↔ _ := (exists_congr fun prec => and_congr_right fun _ => (hswap prec).symm).trans hlong
  rw [show Shows ((pa8Loader timeL).load ((p08Loader timeS).load recs p08) pa8) _ _ _ _ ↔ _ from hshort, hlong', KeepsBoth]
  tauto

/-- A line with an id and the number 1. -/
def lineOfOne (idSize : ℕ) (id : Bytes) : Bytes :=
  id ++ List.replicate (idSize - id.length) 32 ++ List.replicate 48 48 ++ [49] ++ List.replicate 101 32

theorem sameListing_lineOfOne : SameListing (lineOfOne 10 [65]) (lineOfOne 20 [76, 65]) where
  once := by decide +kernel
  onceLong := by decide +kernel
  fields := by
    have hsame : ((p08Loader none).lines (lineOfOne 10 [65])).map (p08Loader none).fieldsOf =
        ((pa8Loader none).lines (lineOfOne 20 [76, 65])).map (pa8Loader none).fieldsOf := by decide +kernel
    intro p08flds
    rw [hsame]

theorem load_orderFree_empty : OrderFree {} none none (lineOfOne 10 [65]) (lineOfOne 20 [76, 65]) := by
  have hkeeps : ∀ s ∈ (p08Loader none).lines (lineOfOne 10 [65]), ∀ l ∈ (pa8Loader none).lines (lineOfOne 20 [76, 65]),
      (pa8Loader none).numberOf l = (p08Loader none).numberOf s →
        KeepsBoth {} ((p08Loader none).numberOf s) ((p08Loader none).idOf s) ((pa8Loader none).idOf l) := by
    decide +kernel
  exact (load_orderFree sameListing_lineOfOne).mpr hkeeps

/-- The long id of a number changes and its short id does not: PA8 takes the short id back where it comes last. -/
theorem not_load_orderFree : ¬ ∀ (recs : P08Recs) (timeS timeL : Option ℤ) (p08 pa8 : Bytes),
    SameListing p08 pa8 → OrderFree recs timeS timeL p08 pa8 := by
  intro h
  have hfree := h { recs := [{}, { shortId := [65], longId := [76, 66] }] } none none _ _ sameListing_lineOfOne
  revert hfree
  decide +kernel

end Fon9.Twf
