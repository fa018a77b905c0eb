import Fon9.Lib.Effect
import Fon9.RcMdRts.TabFields
import Fon9.Rts.InfoTime

/-! The two tabs of a symbol of the futures exchange, as the server makes them and the client
makes them again. -/

namespace Fon9.RcMdRts

open Bitv Seed Rts Prod

def fieldPri : FieldClass := fieldDecimal .int64 priScale

def fieldQty : FieldClass := fieldInt .uint64

/-- A field that is there under a condition. -/
def addIf {K : Type} (isAdd : Bool) (fld : K × FieldClass) : List (K × FieldClass) := if isAdd then [fld] else []

/-- `SymbDeal_MakeFields` -/
def symbDealMakeFields (isAddLmtFlags isAddMarketSeq isAddChannelSeq : Bool) : List (DealFld × FieldClass) :=
  (.infoTime, fieldDayTime) ::
  addIf isAddMarketSeq (.mktSeq, fieldInt .uint32) ++
  addIf isAddChannelSeq (.channelSeq, fieldInt .uint64) ++
  [(.dealTime, fieldDayTime), (.dealPri, fieldPri), (.dealQty, fieldQty), (.totalQty, fieldQty), (.dealBuyCnt, fieldQty),
    (.dealSellCnt, fieldQty), (.flags, fieldInt .uint8)] ++
  addIf isAddLmtFlags (.lmtFlags, fieldInt .uint8)

/-- The price and the quantity of a level. -/
def levelFields (t : RtBSType) (lv : ℕ) : List (BSCell × FieldClass) := [(.pri t lv, fieldPri), (.qty t lv, fieldQty)]

/-- `SymbTwfBS_MakeFields` -/
def symbTwfBSMakeFields (isAddMarketSeq isAddChannelSeq : Bool) : List (BSCell × FieldClass) :=
  (.fld .infoTime, fieldDayTime) ::
  addIf isAddMarketSeq (.fld .mktSeq, fieldInt .uint32) ++
  [4, 3, 2, 1, 0].flatMap (levelFields .orderSell) ++
  [0, 1, 2, 3, 4].flatMap (levelFields .orderBuy) ++
  [(.fld .flags, fieldInt .uint8)] ++
  levelFields .derivedSell 0 ++ levelFields .derivedBuy 0 ++
  addIf isAddChannelSeq (.fld .channelSeq, fieldInt .uint64)

/-! ### The tabs -/

section TabOf

variable {K : Type} {name : K → Bytes} {hname : Function.Injective name} {flds : List (K × FieldClass)}
  {h : (flds.map Prod.fst).Nodup}

/-- A tab of fields that have keys of their own. -/
def tabOf (name : K → Bytes) (hname : Function.Injective name) (flds : List (K × FieldClass)) (h : (flds.map Prod.fst).Nodup) :
    Tab :=
  Tab.ofFields (flds.map (Prod.map name id)) (by
    have hmap : (flds.map (Prod.map name id)).map Prod.fst = (flds.map Prod.fst).map name := by
      rw [List.map_map, List.map_map]
      rfl
    rw [hmap]
    exact h.map hname)

/-- A field is found by its key. -/
theorem get_tabOf [DecidableEq K] (x : K) : (tabOf name hname flds h).get (name x) = (adjustFields 0 flds).lookup x := by
  show (adjustFields 0 (flds.map (Prod.map name id))).lookup (name x) = _
  rw [map_adjustFields]
  induction adjustFields 0 flds with
  | nil => rfl
  | cons fld flds ih =>
    rw [List.map_cons, List.lookup_cons, List.lookup_cons, ih, map_fst, map_snd, id_eq]
    by_cases hx : x = fld.1
    · subst hx
      simp
    · have hne : name x ≠ name fld.1 := fun heq => hx (hname heq)
      rw [beq_false_of_ne hx, beq_false_of_ne hne]

/-- A field of the tab has one of the names, and the class that goes with it. -/
theorem exists_key {g : Field} {n : Bytes} (hget : (tabOf name hname flds h).get n = some g) :
    ∃ x, name x = n ∧ (x, g.cls) ∈ flds := by
  have hmem : (n, g) ∈ adjustFields 0 (flds.map (Prod.map name id)) := Tab.mem_of_get hget
  rw [map_adjustFields] at hmem
  obtain ⟨fld, hfld, heq⟩ := List.mem_map.mp hmem
  obtain ⟨rfl, rfl⟩ := Prod.ext_iff.mp heq
  exact ⟨fld.1, rfl, mem_of_adjustFields hfld⟩

end TabOf

theorem nodup_symbDealMakeFields : ∀ isAddLmtFlags isAddMarketSeq isAddChannelSeq,
    ((symbDealMakeFields isAddLmtFlags isAddMarketSeq isAddChannelSeq).map fst).Nodup := by decide

theorem nodup_symbTwfBSMakeFields : ∀ isAddMarketSeq isAddChannelSeq,
    ((symbTwfBSMakeFields isAddMarketSeq isAddChannelSeq).map fst).Nodup := by decide

section Twf

variable (isAddMarketSeq isAddChannelSeq : Bool)

def twfDealTab : Tab :=
  tabOf DealFld.name DealFld.name_injective _ (nodup_symbDealMakeFields false isAddMarketSeq isAddChannelSeq)

def twfBSTab : Tab :=
  tabOf BSCell.name BSCell.name_injective _ (nodup_symbTwfBSMakeFields isAddMarketSeq isAddChannelSeq)

/-- The fields that the decoder finds in the two tabs. -/
def twfTabFields : TabFields where
  deal := twfDealTab isAddMarketSeq isAddChannelSeq
  bs := twfBSTab isAddMarketSeq isAddChannelSeq
  deal_isSome x hx := by
    rw [twfDealTab, get_tabOf]
    revert x
    revert isAddMarketSeq isAddChannelSeq
    decide
  bs_isSome x hx := by
    show ((twfBSTab isAddMarketSeq isAddChannelSeq).get (BSCell.fld x).name).isSome
    rw [twfBSTab, get_tabOf]
    revert x
    revert isAddMarketSeq isAddChannelSeq
    decide

theorem fldDeal_twf (x : DealFld) : (twfTabFields isAddMarketSeq isAddChannelSeq).fldDeal x =
    (adjustFields 0 (symbDealMakeFields false isAddMarketSeq isAddChannelSeq)).lookup x := by
  show (twfDealTab isAddMarketSeq isAddChannelSeq).get x.name = _
  rw [twfDealTab, get_tabOf]

theorem fldBS_twf (x : BSFld) : (twfTabFields isAddMarketSeq isAddChannelSeq).fldBS x =
    (adjustFields 0 (symbTwfBSMakeFields isAddMarketSeq isAddChannelSeq)).lookup (.fld x) := by
  show (twfBSTab isAddMarketSeq isAddChannelSeq).get (BSCell.fld x).name = _
  rw [twfBSTab, get_tabOf]

/-- The levels by the keys of the fields. -/
def levelsByKey (flds : List (BSCell × Field)) (t : RtBSType) : ℕ → ℕ → List FieldPQ
  | 0, _ => []
  | fuel + 1, lv =>
    match flds.lookup (.pri t lv), flds.lookup (.qty t lv) with
    | some fldPri, some fldQty => ⟨fldPri, fldQty⟩ :: levelsByKey flds t fuel (lv + 1)
    | _, _ => []

theorem setBSFields_twf (t : RtBSType) (fuel lv : ℕ) :
    setBSFields (twfBSTab isAddMarketSeq isAddChannelSeq) t fuel lv =
      levelsByKey (adjustFields 0 (symbTwfBSMakeFields isAddMarketSeq isAddChannelSeq)) t fuel lv := by
  induction fuel generalizing lv with
  | zero => rfl
  | succ fuel ih =>
    rw [setBSFields, levelsByKey, twfBSTab, get_tabOf, get_tabOf, ← twfBSTab, ih]
    all_goals rfl

theorem length_fields_tabOf {K : Type} {name : K → Bytes} {hname : Function.Injective name} {flds : List (K × FieldClass)}
    {h : (flds.map fst).Nodup} : (tabOf name hname flds h).fields.length = flds.length := by
  show (adjustFields 0 (flds.map (Prod.map name id))).length = _
  rw [map_adjustFields, List.length_map, ← List.length_map fst, keys_adjustFields, List.length_map]

/-- The client finds the levels that the server has. -/
theorem length_fldPQs_twf (t : RtBSType) : ((twfTabFields isAddMarketSeq isAddChannelSeq).fldPQs t).length = t.count := by
  show (setBSFields (twfBSTab isAddMarketSeq isAddChannelSeq) t _ 0).length = _
  rw [setBSFields_twf]
  show (levelsByKey _ t ((twfBSTab isAddMarketSeq isAddChannelSeq).fields.length + 1) 0).length = _
  rw [twfBSTab, length_fields_tabOf]
  revert t isAddMarketSeq isAddChannelSeq
  decide

end Twf

end Fon9.RcMdRts

/-! What the decoder of the market data works on: the bytes that are left, the note of the
subscription and the memory of the seeds. A writer is built on one of the seeds, and writes
the cell of a field at the field's offset in that seed. -/

namespace Fon9.RcMdRts

open Lib Bitv Buffer Seed Rts Field

/-- The seeds of the two tabs. -/
inductive RtsTab
  | deal | bs
  deriving DecidableEq

/-- How a decoder ends where it does not return. Behind the end of the levels of a tab, and
behind a field that the tab does not have, nothing is defined. -/
inductive RxError
  | bitv (e : BitvError)
  | opRaw
  | nullField
  | noSuchLevel
  deriving DecidableEq

/-- The reports show the memory that the handler sees. -/
structure RxState where
  rxbuf : Bytes
  note : StreamDecoderNote
  rtMktSeq : IntType.uint64.Val
  seeds : RtsTab → Bytes
  reports : List (RtsTab × Bytes)

abbrev Decoder := EStateM RxError RxState

namespace RxState

variable (s : RxState) {wr wr' : RtsTab} {f g : Field} {c : Cell f.cls.size}

/-- A cell of a seed is written. -/
def put (wr : RtsTab) (f : Field) (c : Cell f.cls.size) : RxState :=
  { s with seeds := Function.update s.seeds wr (f.store c (s.seeds wr)) }

/-- The memory of the seed reaches the end of the cell. -/
def Reaches (wr : RtsTab) (f : Field) : Prop := f.stop ≤ (s.seeds wr).length

instance : Decidable (s.Reaches wr f) := inferInstanceAs (Decidable (_ ≤ _))

/-- The bytes of a cell of a seed. -/
def bytesAt (wr : RtsTab) (f : Field) : Bytes := f.bytesAt (s.seeds wr)

theorem put_seeds_self : (s.put wr f c).seeds wr = f.store c (s.seeds wr) := Function.update_self ..

theorem put_seeds_of_ne (h : wr' ≠ wr) : (s.put wr f c).seeds wr' = s.seeds wr' := Function.update_of_ne h ..

variable {s}

theorem length_put (h : s.Reaches wr f) : ((s.put wr f c).seeds wr').length = (s.seeds wr').length := by
  by_cases hwr : wr' = wr
  · subst hwr
    rw [put_seeds_self, length_store h]
  · rw [put_seeds_of_ne _ hwr]

@[simp] theorem reaches_put (h : s.Reaches wr f) : (s.put wr f c).Reaches wr' g ↔ s.Reaches wr' g := by
  rw [Reaches, Reaches, length_put h]

theorem bytesAt_put (h : s.Reaches wr f) : (s.put wr f c).bytesAt wr f = c.1 := by
  rw [bytesAt, put_seeds_self, bytesAt_store h]

theorem bytesAt_put_apart (h : s.Reaches wr f) (hapart : wr' = wr → f.Apart g) :
    (s.put wr f c).bytesAt wr' g = s.bytesAt wr' g := by
  by_cases hwr : wr' = wr
  · subst hwr
    rw [bytesAt, put_seeds_self, bytesAt_store_apart h (hapart rfl), bytesAt]
  · rw [bytesAt, put_seeds_of_ne _ hwr, bytesAt]

end RxState

/-! ### What a decoder does -/

/-- `BitvTo` and `ReadOrRaise`: a value is taken from the front of the bytes. -/
def popBitv {α : Type} (bitvTo : Bytes → Except BitvError (α × Bytes)) : Decoder α := fun s =>
  match bitvTo s.rxbuf with
  | .ok (val, rxbuf) => .ok val { s with rxbuf := rxbuf }
  | .error e => .error (.bitv e) s

theorem popBitv_of_ok {α : Type} {bitvTo : Bytes → Except BitvError (α × Bytes)} {s : RxState} {val : α} {rest : Bytes}
    (h : bitvTo s.rxbuf = .ok (val, rest)) : popBitv bitvTo s = .ok val { s with rxbuf := rest } := by
  rw [popBitv, h]

/-- A computation that may raise. -/
def computed {α : Type} : Except BitvError α → Decoder α
  | .ok val => pure val
  | .error e => throw (.bitv e)

/-- `PutCellValue` -/
def putCell (wr : RtsTab) (f : Field) (c : Cell f.cls.size) : Decoder Unit := fun s =>
  if s.Reaches wr f then .ok () (s.put wr f c) else .error .opRaw s

theorem putCell_of_reaches {wr : RtsTab} {f : Field} {c : Cell f.cls.size} {s : RxState} (h : s.Reaches wr f) :
    putCell wr f c s = .ok () (s.put wr f c) := if_pos h

/-- `GetCellValue` -/
def getCell (wr : RtsTab) (f : Field) : Decoder (Cell f.cls.size) := fun s =>
  match f.cell (s.seeds wr) with
  | some c => .ok c s
  | none => .error .opRaw s

/-- A field that the tab may not have. -/
def onField {α : Type} (fld : Option Field) (use : Field → Decoder α) : Decoder α :=
  match fld with
  | some f => use f
  | none => throw .nullField

def putNumber (wr : RtsTab) (fld : Option Field) (num : ℤ) (decScale : ℕ) : Decoder Unit :=
  onField fld fun f => do
    let c ← computed (f.cls.putNumber num decScale)
    putCell wr f c

section PutNumber

variable {wr : RtsTab} {f : Field} {num : ℤ} {decScale : ℕ} {c : Cell f.cls.size} {s : RxState}

theorem putNumber_of_ok (h : f.cls.putNumber num decScale = .ok c) : putNumber wr (some f) num decScale s = putCell wr f c s := by
  rw [putNumber, onField, h]
  exact bind_of_ok rfl

theorem putNumber_of_error {e : BitvError} (h : f.cls.putNumber num decScale = .error e) :
    putNumber wr (some f) num decScale s = .error (.bitv e) s := by
  rw [putNumber, onField, h]
  exact bind_of_error rfl

end PutNumber

def getNumber (wr : RtsTab) (fld : Option Field) (outDecScale : ℕ) (nullValue : ℤ) : Decoder ℤ :=
  onField fld fun f => do
    let c ← getCell wr f
    computed (f.cls.getNumber outDecScale nullValue c)

def bitvToCell (wr : RtsTab) (fld : Option Field) : Decoder Unit :=
  onField fld fun f => do
    let c ← popBitv f.cls.bitvToCell
    putCell wr f c

theorem bitvToCell_of_ok {wr : RtsTab} {f : Field} {c : Cell f.cls.size} {s : RxState} {rest : Bytes}
    (h : f.cls.bitvToCell s.rxbuf = .ok (c, rest)) (hreach : s.Reaches wr f) :
    bitvToCell wr (some f) s = .ok () (RxState.put { s with rxbuf := rest } wr f c) := by
  rw [bitvToCell, onField, bind_of_ok (popBitv_of_ok h)]
  exact putCell_of_reaches hreach

def setNull (wr : RtsTab) (f : Field) : Decoder Unit := putCell wr f f.cls.null

/-- The handler is called. -/
def report (wr : RtsTab) : Decoder Unit := modify fun s => { s with reports := s.reports ++ [(wr, s.seeds wr)] }

end Fon9.RcMdRts
