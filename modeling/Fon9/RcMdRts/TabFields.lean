import Fon9.Num.ToStr
import Fon9.Rts.UpdateBS
import Fon9.Seed.RawCell

/-! The fields of the client's tabs that the decoder of the market data writes. It finds them
by their names. The levels of a list of the order book are those whose fields are there one
after the other, from the first level on. -/

namespace Fon9.RcMdRts

open Num Seed Rts List

def fieldName (s : String) : Bytes := s.toList.map ch

/-! ### The names -/

/-- The fields of the tab of the deals. -/
inductive DealFld
  | infoTime | dealTime | dealPri | dealQty | totalQty | dealBuyCnt | dealSellCnt | flags | lmtFlags | mktSeq | channelSeq
  deriving DecidableEq

namespace DealFld

instance : Fintype DealFld where
  elems := {infoTime, dealTime, dealPri, dealQty, totalQty, dealBuyCnt, dealSellCnt, flags, lmtFlags, mktSeq, channelSeq}
  complete x := by cases x <;> decide

def name : DealFld → Bytes
  | infoTime => fieldName "InfoTime"
  | dealTime => fieldName "DealTime"
  | dealPri => fieldName "DealPri"
  | dealQty => fieldName "DealQty"
  | totalQty => fieldName "TotalQty"
  | dealBuyCnt => fieldName "DealBuyCnt"
  | dealSellCnt => fieldName "DealSellCnt"
  | flags => fieldName "Flags"
  | lmtFlags => fieldName "LmtFlags"
  | mktSeq => fieldName "MktSeq"
  | channelSeq => fieldName "ChannelSeq"

theorem name_injective : Function.Injective name := by
  have h : ∀ x y : DealFld, x.name = y.name → x = y := by decide
  exact fun x y => h x y

end DealFld

/-- The fields of the tab of the order book that are not of a level. -/
inductive BSFld
  | infoTime | flags | lmtFlags | mktSeq | channelSeq
  deriving DecidableEq

namespace BSFld

instance : Fintype BSFld where
  elems := {infoTime, flags, lmtFlags, mktSeq, channelSeq}
  complete x := by cases x <;> decide

def name : BSFld → Bytes
  | infoTime => fieldName "InfoTime"
  | flags => fieldName "Flags"
  | lmtFlags => fieldName "LmtFlags"
  | mktSeq => fieldName "MktSeq"
  | channelSeq => fieldName "ChannelSeq"

theorem name_injective : Function.Injective name := by
  have h : ∀ x y : BSFld, x.name = y.name → x = y := by decide
  exact fun x y => h x y

end BSFld

/-- The letters in front of the number of a level. -/
def levelLetters : RtBSType → Bytes
  | .orderBuy => [ch 'B']
  | .orderSell => [ch 'S']
  | .derivedBuy => [ch 'D', ch 'B']
  | .derivedSell => [ch 'D', ch 'S']

/-- The name of the price or the quantity of a level; the best level is level 0, and has
number 1. -/
def levelName (t : RtBSType) (lv : ℕ) (letter : UInt8) : Bytes := levelLetters t ++ uIntToStrRev [letter] (lv + 1)

section LevelName

variable {t t' : RtBSType} {lv lv' : ℕ} {letter letter' : UInt8}

theorem getLast?_levelName : (levelName t lv letter).getLast? = some letter := by
  obtain ⟨ds, hds, -⟩ := uIntToStrRev_eq [letter] (lv + 1)
  rw [levelName, hds, ← append_assoc, getLast?_concat]

theorem uIntToStrRev_inj {n n' : ℕ} (h : uIntToStrRev [letter] n = uIntToStrRev [letter] n') : n = n' := by
  obtain ⟨ds, hds, -, -, hn⟩ := uIntToStrRev_eq [letter] n
  obtain ⟨ds', hds', -, -, hn'⟩ := uIntToStrRev_eq [letter] n'
  rw [hds, hds'] at h
  rw [← hn, ← hn', append_cancel_right h]

theorem levelName_inj (h : levelName t lv letter = levelName t' lv' letter') : t = t' ∧ lv = lv' ∧ letter = letter' := by
  have hletter : letter = letter' := by
    have hlast := congrArg getLast? h
    rw [getLast?_levelName, getLast?_levelName] at hlast
    exact Option.some.inj hlast
  subst hletter
  have ht : t = t' := by
    cases t <;> cases t' <;> simp [levelName, levelLetters, ch] at h ⊢
  subst ht
  have hlv := uIntToStrRev_inj (append_cancel_left h)
  exact ⟨rfl, by omega, rfl⟩

end LevelName

/-- All the fields of the tab of the order book. -/
inductive BSCell
  | fld (x : BSFld)
  | pri (t : RtBSType) (lv : ℕ)
  | qty (t : RtBSType) (lv : ℕ)
  deriving DecidableEq

namespace BSCell

def name : BSCell → Bytes
  | fld x => x.name
  | pri t lv => levelName t lv (ch 'P')
  | qty t lv => levelName t lv (ch 'Q')

/-- A name that is not of a level ends with another letter. -/
theorem fld_ne_levelName (x : BSFld) (t : RtBSType) (lv : ℕ) {letter : UInt8} (h : letter = ch 'P' ∨ letter = ch 'Q') :
    x.name ≠ levelName t lv letter := by
  have hends : ∀ x : BSFld, x.name.getLast? ≠ some (ch 'P') ∧ x.name.getLast? ≠ some (ch 'Q') := by decide
  intro heq
  have hlast := congrArg getLast? heq
  rw [getLast?_levelName] at hlast
  rcases h with rfl | rfl
  · exact (hends x).1 hlast
  · exact (hends x).2 hlast

theorem name_injective : Function.Injective name := by
  intro x y h
  cases x with
  | fld x =>
    cases y with
    | fld y => rw [BSFld.name_injective h]
    | pri t lv => exact absurd h (fld_ne_levelName x t lv (.inl rfl))
    | qty t lv => exact absurd h (fld_ne_levelName x t lv (.inr rfl))
  | pri t lv =>
    cases y with
    | fld y => exact absurd h.symm (fld_ne_levelName y t lv (.inl rfl))
    | pri t' lv' =>
      obtain ⟨rfl, rfl, -⟩ := levelName_inj h
      rfl
    | qty t' lv' => exact absurd (levelName_inj h).2.2 (by decide)
  | qty t lv =>
    cases y with
    | fld y => exact absurd h.symm (fld_ne_levelName y t lv (.inr rfl))
    | pri t' lv' => exact absurd (levelName_inj h).2.2 (by decide)
    | qty t' lv' =>
      obtain ⟨rfl, rfl, -⟩ := levelName_inj h
      rfl

end BSCell

/-! ### The fields -/

structure FieldPQ where
  fldPri : Field
  fldQty : Field

/-- `SetBSFields`, from a level on. -/
def setBSFields (flds : Tab) (t : RtBSType) : ℕ → ℕ → List FieldPQ
  | 0, _ => []
  | fuel + 1, lv =>
    match flds.get (BSCell.pri t lv).name, flds.get (BSCell.qty t lv).name with
    | some fldPri, some fldQty => ⟨fldPri, fldQty⟩ :: setBSFields flds t fuel (lv + 1)
    | _, _ => []

section SetBSFields

variable {flds : Tab} {t : RtBSType}

/-- The fields of a level have its names. -/
theorem get_of_setBSFields {fuel lv i : ℕ} {pq : FieldPQ} (h : (setBSFields flds t fuel lv)[i]? = some pq) :
    flds.get (BSCell.pri t (lv + i)).name = some pq.fldPri ∧ flds.get (BSCell.qty t (lv + i)).name = some pq.fldQty := by
  induction fuel generalizing lv i with
  | zero => simp [setBSFields] at h
  | succ fuel ih =>
    rw [setBSFields] at h
    split at h
    · rename_i fldPri fldQty hpri hqty
      cases i with
      | zero =>
        obtain rfl : (⟨fldPri, fldQty⟩ : FieldPQ) = pq := by simpa using h
        exact ⟨hpri, hqty⟩
      | succ i =>
        rw [getElem?_cons_succ] at h
        have hrest := ih h
        rwa [add_assoc, add_comm 1 i] at hrest
    · simp at h

/-- The names of the prices of the levels that are found. -/
theorem names_of_setBSFields {fuel lv i : ℕ} (h : i < (setBSFields flds t fuel lv).length) :
    (BSCell.pri t (lv + i)).name ∈ flds.fields.map Prod.fst := by
  have hget := (get_of_setBSFields (getElem?_eq_getElem h)).1
  exact mem_map.mpr ⟨_, Tab.mem_of_get hget, rfl⟩

/-- There are no more levels than fields. -/
theorem length_setBSFields_le (fuel lv : ℕ) : (setBSFields flds t fuel lv).length ≤ flds.fields.length := by
  have hnames : ((List.range (setBSFields flds t fuel lv).length).map fun i => (BSCell.pri t (lv + i)).name).Nodup := by
    refine List.Nodup.map (fun i j h => ?_) nodup_range
    have hcell := BSCell.name_injective h
    have hlv : lv + i = lv + j := by
      injection hcell
    omega
  have hsub : ((List.range (setBSFields flds t fuel lv).length).map fun i => (BSCell.pri t (lv + i)).name) ⊆
      flds.fields.map Prod.fst := by
    intro name hname
    obtain ⟨i, hi, rfl⟩ := mem_map.mp hname
    exact names_of_setBSFields (mem_range.mp hi)
  have hle := (subperm_of_subset hnames hsub).length_le
  rwa [length_map, length_range, length_map] at hle

/-- The loop ends at a name that is not there, unless the fuel ends it. -/
theorem setBSFields_stops (fuel lv : ℕ) (h : (setBSFields flds t fuel lv).length < fuel) :
    flds.get (BSCell.pri t (lv + (setBSFields flds t fuel lv).length)).name = none ∨
      flds.get (BSCell.qty t (lv + (setBSFields flds t fuel lv).length)).name = none := by
  induction fuel generalizing lv with
  | zero => simp at h
  | succ fuel ih =>
    rw [setBSFields] at h ⊢
    split at h
    · rename_i fldPri fldQty hpri hqty
      rw [length_cons] at h ⊢
      have hrest := ih (lv + 1) (by omega)
      rwa [add_assoc, add_comm 1] at hrest
    · rename_i hnone
      rw [length_nil, add_zero]
      cases hpri : flds.get (BSCell.pri t lv).name with
      | none => exact .inl rfl
      | some fldPri =>
        cases hqty : flds.get (BSCell.qty t lv).name with
        | none => exact .inr rfl
        | some fldQty => exact absurd hqty (hnone fldPri fldQty hpri)

end SetBSFields

/-- `RcMdRtsDecoder_TabFields`, of a layout that has both tabs. Without these four fields the
constructor raises. -/
structure TabFields where
  deal : Tab
  bs : Tab
  deal_isSome : ∀ x ∈ [DealFld.dealTime, .dealPri], (deal.get x.name).isSome
  bs_isSome : ∀ x ∈ [BSFld.infoTime, .flags], (bs.get x.name).isSome

namespace TabFields

variable (tf : TabFields)

def fldDeal (x : DealFld) : Option Field := tf.deal.get x.name

def fldBS (x : BSFld) : Option Field := tf.bs.get x.name

/-- `FldOrderBuys_`, `FldOrderSells_`, `FldDerivedBuys_` and `FldDerivedSells_` -/
def fldPQs (t : RtBSType) : List FieldPQ := setBSFields tf.bs t (tf.bs.fields.length + 1) 0

/-- The fields of the tab of the order book; of a level only where the list has the level. -/
def fldCell : BSCell → Option Field
  | .fld x => tf.fldBS x
  | .pri t lv => ((tf.fldPQs t)[lv]?).map FieldPQ.fldPri
  | .qty t lv => ((tf.fldPQs t)[lv]?).map FieldPQ.fldQty

variable {tf}

theorem get_of_fldCell {x : BSCell} {f : Field} (h : tf.fldCell x = some f) : tf.bs.get x.name = some f := by
  cases x with
  | fld x => exact h
  | pri t lv =>
    obtain ⟨pq, hpq, rfl⟩ := Option.map_eq_some_iff.mp h
    have hget := (get_of_setBSFields hpq).1
    rwa [zero_add] at hget
  | qty t lv =>
    obtain ⟨pq, hpq, rfl⟩ := Option.map_eq_some_iff.mp h
    have hget := (get_of_setBSFields hpq).2
    rwa [zero_add] at hget

/-- The levels of a list go on as long as the tab has fields for them. -/
theorem fldPQs_stops (t : RtBSType) :
    tf.bs.get (BSCell.pri t (tf.fldPQs t).length).name = none ∨ tf.bs.get (BSCell.qty t (tf.fldPQs t).length).name = none := by
  have hle : (tf.fldPQs t).length ≤ tf.bs.fields.length := length_setBSFields_le _ _
  have hstop := setBSFields_stops (tf.bs.fields.length + 1) 0 (Nat.lt_succ_of_le hle)
  rwa [zero_add] at hstop

theorem fldDeal_apart {x y : DealFld} {f g : Field} (hf : tf.fldDeal x = some f) (hg : tf.fldDeal y = some g) (hne : x ≠ y) :
    f.Apart g := Tab.apart_of_ne hf hg fun h => hne (DealFld.name_injective h)

theorem fldCell_apart {x y : BSCell} {f g : Field} (hf : tf.fldCell x = some f) (hg : tf.fldCell y = some g) (hne : x ≠ y) :
    f.Apart g := Tab.apart_of_ne (get_of_fldCell hf) (get_of_fldCell hg) fun h => hne (BSCell.name_injective h)

end TabFields

end Fon9.RcMdRts
