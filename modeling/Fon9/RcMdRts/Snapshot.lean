import Fon9.RcMdRts.Levels

/-! A snapshot of the order book, from the server's book to the client's tab. The server packs,
of the lists whose flags are set, the levels in front of the first one without a quantity; the
client shows these, and clears the others. -/

namespace Fon9.RcMdRts

open Lib Bitv Buffer Seed Rts List TabFields UInt8

/-! ### The server -/

def mdRtsPackSingleBS (rbuf : Bytes) (bsType : UInt8) (pq : PriQty) : Bytes :=
  if pq.qty.1 = 0 then rbuf else bsType :: (priQtyBytes pq ++ rbuf)

/-- The loop over the levels, with their count. -/
def packLevels : List PriQty → ℕ → Bytes → ℕ × Bytes
  | [], bsCount, rbuf => (bsCount, rbuf)
  | pq :: pqs, bsCount, rbuf =>
    if pq.qty.1 = 0 then (bsCount, rbuf) else packLevels pqs (bsCount + 1) (priQtyBytes pq ++ rbuf)

def mdRtsPackOrderBS (rbuf : Bytes) (bsType : UInt8) (pqs : List PriQty) : Bytes :=
  let (bsCount, rbuf) := packLevels pqs 0 rbuf
  if bsCount = 0 then rbuf else (bsType ||| UInt8.ofNat (bsCount - 1)) :: rbuf

variable (symbBS : SymbBSData) (t : RtBSType)

def derivedSell : PriQty := symbBS.levels .derivedSell ⟨0, Nat.one_pos⟩

def derivedBuy : PriQty := symbBS.levels .derivedBuy ⟨0, Nat.one_pos⟩

/-- `MdRtsPackSnapshotBS`; each list goes in front of what is there. -/
def mdRtsPackSnapshotBS (rbuf : Bytes) (symbBS : SymbBSData) : Bytes :=
  let rbuf := if symbBS.flags .derivedSell then
    mdRtsPackSingleBS rbuf RtBSType.derivedSell.code (derivedSell symbBS) else rbuf
  let rbuf := if symbBS.flags .derivedBuy then
    mdRtsPackSingleBS rbuf RtBSType.derivedBuy.code (derivedBuy symbBS) else rbuf
  let rbuf := if symbBS.flags .orderSell then
    mdRtsPackOrderBS rbuf RtBSType.orderSell.code (List.ofFn (symbBS.levels .orderSell)) else rbuf
  if symbBS.flags .orderBuy then
    mdRtsPackOrderBS rbuf RtBSType.orderBuy.code (List.ofFn (symbBS.levels .orderBuy)) else rbuf

/-! ### What is packed -/

/-- The levels in front of the first one without a quantity. -/
def leading (pqs : List PriQty) : List PriQty := pqs.takeWhile fun pq => pq.qty.1 ≠ 0

/-- The levels of a list that are packed. -/
def packed : List PriQty :=
  if symbBS.flags t then leading (List.ofFn (symbBS.levels t)) else []

/-- The record of a list; none for no levels. -/
def listRecord : List PriQty → Bytes
  | [] => []
  | pq :: pqs => (t.code ||| UInt8.ofNat pqs.length) :: (pq :: pqs).reverse.flatMap priQtyBytes

theorem packLevels_eq (pqs : List PriQty) (bsCount : ℕ) (rbuf : Bytes) :
    packLevels pqs bsCount rbuf = (bsCount + (leading pqs).length, (leading pqs).reverse.flatMap priQtyBytes ++ rbuf) := by
  induction pqs generalizing bsCount rbuf with
  | nil => rfl
  | cons pq pqs ih =>
    rw [packLevels, leading, takeWhile_cons]
    by_cases hqty : pq.qty.1 = 0
    · simp [hqty]
    · simp only [hqty, ↓reduceIte, ne_eq, not_false_eq_true, decide_true, length_cons, reverse_cons,
        flatMap_append, flatMap_singleton, append_assoc, ih, leading]
      congr 1
      omega

theorem mdRtsPackOrderBS_eq (pqs : List PriQty) (rbuf : Bytes) :
    mdRtsPackOrderBS rbuf t.code pqs = listRecord t (leading pqs) ++ rbuf := by
  rw [mdRtsPackOrderBS, packLevels_eq]
  cases hlead : leading pqs with
  | nil => rfl
  | cons pq lead =>
    simp only [length_cons, zero_add, Nat.add_one_ne_zero, ↓reduceIte, Nat.add_sub_cancel, listRecord, cons_append]

theorem mdRtsPackSingleBS_eq (pq : PriQty) (rbuf : Bytes) :
    mdRtsPackSingleBS rbuf t.code pq = listRecord t (leading [pq]) ++ rbuf := by
  rw [mdRtsPackSingleBS, leading, takeWhile_cons]
  by_cases hqty : pq.qty.1 = 0
  · simp [hqty, listRecord]
  · cases t <;> simp [hqty, listRecord, RtBSType.code]

/-- The order of the lists in the bytes. -/
def allTypes : List RtBSType := [.orderBuy, .orderSell, .derivedBuy, .derivedSell]

theorem mdRtsPackSnapshotBS_eq :
    mdRtsPackSnapshotBS [] symbBS = allTypes.flatMap fun t => listRecord t (packed symbBS t) := by
  have hderivedSell : ofFn (symbBS.levels .derivedSell) = [derivedSell symbBS] := rfl
  have hderivedBuy : ofFn (symbBS.levels .derivedBuy) = [derivedBuy symbBS] := rfl
  simp only [mdRtsPackSnapshotBS, mdRtsPackSingleBS_eq, mdRtsPackOrderBS_eq, allTypes, flatMap_cons, flatMap_nil,
    packed, hderivedSell, hderivedBuy, append_nil]
  split_ifs <;> simp [listRecord]

theorem length_packed_le : (packed symbBS t).length ≤ t.count := by
  rw [packed]
  split_ifs
  · have hle := (takeWhile_sublist (fun pq : PriQty => decide (pq.qty.1 ≠ 0)) (l := ofFn (symbBS.levels t))).length_le
    rwa [length_ofFn] at hle
  · exact Nat.zero_le _

variable {tf : TabFields} {rx : RxNotify} {s : RxState} {t t' : RtBSType} {rest : Bytes}

/-- The fields of the order book have the classes of the server's. -/
structure TabFields.IsBookOfServer (tf : TabFields) : Prop where
  infoTime : ∀ f, tf.fldBS .infoTime = some f → f.cls = fieldDayTime
  flags : ∀ f, tf.fldBS .flags = some f → f.cls = fieldInt .uint8
  pri : ∀ t, ∀ fld ∈ tf.fldPQs t, fld.fldPri.cls = fieldPri
  qty : ∀ t, ∀ fld ∈ tf.fldPQs t, fld.fldQty.cls = fieldQty

/-- The seed of the book has the memory of its tab. -/
def Sized (tf : TabFields) (s : RxState) : Prop := (s.seeds .bs).length = tf.bs.dyMemSize

theorem Sized.of_keeps {α : Type} {x : Decoder α} {s' : RxState} {a : α} (h : Sized tf s) (hx : Keeps (seeing sizeView) x)
    (hrun : x s = .ok a s') : Sized tf s' := (size_of_keeps hx hrun).trans h

theorem isLevel_of_mem (htab : tf.IsBookOfServer) {fld : FieldPQ} (h : fld ∈ tf.fldPQs t) : fld.IsLevel tf.bs.dyMemSize := by
  obtain ⟨lv, hpri, hqty⟩ := fldCell_of_mem h
  exact {
    pri := htab.pri t fld h
    qty := htab.qty t fld h
    apart := fldCell_apart hpri hqty nofun
    pri_le := Tab.stop_le (get_of_fldCell hpri)
    qty_le := Tab.stop_le (get_of_fldCell hqty) }

theorem apart_of_ne {fld fld' : FieldPQ} {lv lv' : ℕ} (h : (tf.fldPQs t)[lv]? = some fld) (h' : (tf.fldPQs t')[lv']? = some fld')
    (hne : t ≠ t' ∨ lv ≠ lv') : fld.Apart fld' := by
  have hcell : ∀ {t : RtBSType} {lv : ℕ} {fld : FieldPQ}, (tf.fldPQs t)[lv]? = some fld →
      tf.fldCell (.pri t lv) = some fld.fldPri ∧ tf.fldCell (.qty t lv) = some fld.fldQty := by
    intro t lv fld hfld
    rw [fldCell, fldCell, hfld]
    exact ⟨rfl, rfl⟩
  obtain ⟨hpri, hqty⟩ := hcell h
  obtain ⟨hpri', hqty'⟩ := hcell h'
  have hne' : ¬ (t = t' ∧ lv = lv') := fun heq => hne.elim (fun h => h heq.1) fun h => h heq.2
  exact {
    pri_pri := fldCell_apart hpri hpri' fun heq => hne' (by injection heq with ht hlv; exact ⟨ht, hlv⟩)
    pri_qty := fldCell_apart hpri hqty' (fun h => by cases h)
    qty_pri := fldCell_apart hqty hpri' (fun h => by cases h)
    qty_qty := fldCell_apart hqty hqty' fun heq => hne' (by injection heq with ht hlv; exact ⟨ht, hlv⟩) }

theorem pairwise_fldPQs (tf : TabFields) (t : RtBSType) : (tf.fldPQs t).Pairwise FieldPQ.Apart := by
  apply pairwise_iff_getElem.mpr
  intro i j hi hj hij
  exact apart_of_ne (getElem?_eq_getElem hi) (getElem?_eq_getElem hj) (.inr (by omega))

/-- Whatever the decoder does to one list, it leaves another. -/
theorem ShowsList.of_keeps {α : Type} {x : Decoder α} {s' : RxState} {a : α} {flds : List FieldPQ} {pqs : List PriQty}
    (h : ShowsList s flds pqs) (hx : ∀ fld ∈ flds, Keeps (seeing (levelView fld)) x) (hrun : x s = .ok a s') :
    ShowsList s' flds pqs :=
  fun lv fld hfld => (h lv fld hfld).of_keeps (hx fld (mem_of_getElem? hfld)) hrun

theorem sparesPQ_of_ne (hne : t ≠ t') {fld fld' : FieldPQ} (h : fld ∈ tf.fldPQs t) (h' : fld' ∈ tf.fldPQs t') :
    SparesPQ (levelView fld') .bs fld := by
  obtain ⟨lv, hlv⟩ := getElem?_of_mem h
  obtain ⟨lv', hlv'⟩ := getElem?_of_mem h'
  exact sparesPQ_levelView (apart_of_ne hlv hlv' (.inl hne))

/-- A field that is not of a level is apart from the levels. -/
theorem spares_fld {x : BSFld} {f : Field} (hf : tf.fldBS x = some f) {fld : FieldPQ} (h : fld ∈ tf.fldPQs t) :
    Spares (levelView fld) .bs f := by
  obtain ⟨lv, hpri, hqty⟩ := fldCell_of_mem h
  exact spares_levelView (fldCell_apart (x := .fld x) hf hpri nofun) (fldCell_apart (x := .fld x) hf hqty nofun)

/-! ### Records -/

theorem levelByte (t : RtBSType) {n : ℕ} (h : n < 16) :
    (t.code ||| ofNat n) &&& 0x80 = 0 ∧ rtBSType (t.code ||| ofNat n) = t ∧
      ((t.code ||| ofNat n) &&& 0x0f).toNat = n := by
  have hall : ∀ t : RtBSType, ∀ n : Fin 16, (t.code ||| ofNat n) &&& 0x80 = 0 ∧
      rtBSType (t.code ||| ofNat n) = t ∧ ((t.code ||| ofNat n) &&& 0x0f).toNat = n := by decide
  exact hall t ⟨n, h⟩

theorem readByte_cons {b : UInt8} (h : s.rxbuf = b :: rest) : readByte s = .ok b { s with rxbuf := rest } := by
  apply popBitv_of_ok
  rw [h]
  rfl

/-- The levels of a list come from a record. -/
theorem decodeSnapshotRecord_runs (htab : tf.IsBookOfServer) (hsized : Sized tf s) (bsFlags : UInt8) {pqs : List PriQty}
    (hne : pqs ≠ []) (hlen : pqs.length ≤ 16) (hcount : pqs.length ≤ (tf.fldPQs t).length)
    (hbuf : s.rxbuf = listRecord t pqs ++ rest) :
    ∃ s', decodeSnapshotRecord tf bsFlags s = .ok (bsFlags ||| bsFlag t) s' ∧ s'.rxbuf = rest ∧ Sized tf s' ∧
      ShowsList s' (tf.fldPQs t) pqs ∧
      ∀ t', t' ≠ t → ∀ pqs', ShowsList s (tf.fldPQs t') pqs' → ShowsList s' (tf.fldPQs t') pqs' := by
  obtain ⟨pq, lead, rfl⟩ := exists_cons_of_ne_nil hne
  obtain ⟨hbit, htype, hnum⟩ := levelByte t (n := lead.length) (by rw [length_cons] at hlen; omega)
  let s₁ : RxState := { s with rxbuf := (pq :: lead).reverse.flatMap priQtyBytes ++ rest }
  have hread : readByte s = .ok (t.code ||| ofNat lead.length) s₁ := readByte_cons hbuf
  obtain ⟨s₂, hrun, hrest, hshow⟩ := decodeLevels_runs (s := s₁) (fun fld hfld => isLevel_of_mem htab hfld) (pairwise_fldPQs tf t)
    hsized hcount rfl
  refine ⟨s₂, ?_, hrest, ?_, hshow, fun t' ht' pqs' hshow' => ?_⟩
  · rw [decodeSnapshotRecord, bind_of_ok hread, if_pos hbit, htype, hnum]
    exact bind_of_ok hrun
  · exact Sized.of_keeps (s := s₁) hsized (keeps_decodeLevels (fun fld _ => sparesPQ_sizeView .bs fld) _) hrun
  · refine ShowsList.of_keeps (s := s₁) hshow' (fun fld' hfld' => ?_) hrun
    exact keeps_decodeLevels (fun fld hfld => sparesPQ_of_ne ht'.symm hfld hfld') _

/-- A list is there with its own flag only. -/
theorem isEnumContains_or (bsFlags : UInt8) (t t' : RtBSType) :
    isEnumContains (bsFlags ||| bsFlag t) (bsFlag t') = (isEnumContains bsFlags (bsFlag t') || decide (t = t')) := by
  have hall : ∀ n : Fin 256, ∀ t t' : RtBSType, isEnumContains (ofFin n ||| bsFlag t) (bsFlag t') =
      (isEnumContains (ofFin n) (bsFlag t') || decide (t = t')) := by decide +kernel
  exact hall bsFlags.toFin t t'

variable {sent : RtBSType → List PriQty}

/-- The loop over the records of lists. -/
theorem decodeSnapshotRecords_runs (htab : tf.IsBookOfServer) {ts : List RtBSType} (hts : ts.Nodup)
    (hlen : ∀ t, (sent t).length ≤ 16) (hcount : ∀ t, (sent t).length ≤ (tf.fldPQs t).length) (hsized : Sized tf s)
    (bsFlags : UInt8) {fuel : ℕ} (hfuel : s.rxbuf.length ≤ fuel)
    (hbuf : s.rxbuf = ts.flatMap fun t => listRecord t (sent t)) :
    ∃ s' bsFlags', decodeSnapshotRecords tf fuel bsFlags s = .ok bsFlags' s' ∧ Sized tf s' ∧
      (∀ t, isEnumContains bsFlags' (bsFlag t) = (isEnumContains bsFlags (bsFlag t) || decide (t ∈ ts ∧ sent t ≠ []))) ∧
      (∀ t ∈ ts, sent t ≠ [] → ShowsList s' (tf.fldPQs t) (sent t)) ∧
      ∀ t, t ∉ ts → ∀ pqs, ShowsList s (tf.fldPQs t) pqs → ShowsList s' (tf.fldPQs t) pqs := by
  induction ts generalizing s bsFlags fuel with
  | nil =>
    have hrun : decodeSnapshotRecords tf fuel bsFlags s = .ok bsFlags s := by
      cases fuel with
      | zero => rfl
      | succ fuel =>
        rw [decodeSnapshotRecords]
        exact if_pos hbuf
    exact ⟨s, bsFlags, hrun, hsized, fun t => by simp, by simp, fun t _ pqs h => h⟩
  | cons t ts ih =>
    obtain ⟨htts, hts⟩ := nodup_cons.mp hts
    rw [flatMap_cons] at hbuf
    by_cases hempty : sent t = []
    · rw [hempty, listRecord, nil_append] at hbuf
      obtain ⟨s', bsFlags', hrun, hsized', hflags, hshow, hkept⟩ := ih hts hsized bsFlags hfuel hbuf
      refine ⟨s', bsFlags', hrun, hsized', fun t' => ?_, fun t' ht' hne => ?_, fun t' ht' => hkept t' fun h => ht' (.tail t h)⟩
      · rw [hflags t']
        congr 2
        rw [mem_cons]
        apply propext
        constructor
        · exact fun h => ⟨.inr h.1, h.2⟩
        · rintro ⟨rfl | h, hne⟩
          · exact absurd hempty hne
          · exact ⟨h, hne⟩
      · rcases mem_cons.mp ht' with rfl | ht'
        · exact absurd hempty hne
        · exact hshow t' ht' hne
    · obtain ⟨s₁, hrun₁, hbuf₁, hsized₁, hshow₁, hkept₁⟩ :=
        decodeSnapshotRecord_runs htab hsized bsFlags hempty (hlen t) (hcount t) hbuf
      have hlt : s₁.rxbuf.length < s.rxbuf.length := by
        obtain ⟨pq, lead, hpqs⟩ := exists_cons_of_ne_nil hempty
        rw [hbuf, hbuf₁, hpqs, listRecord, length_append, length_cons]
        omega
      obtain ⟨fuel, rfl⟩ : ∃ n, fuel = n + 1 := ⟨fuel - 1, by omega⟩
      have hfuel₁ : s₁.rxbuf.length ≤ fuel := by omega
      obtain ⟨s', bsFlags', hrun, hsized', hflags, hshow, hkept⟩ := ih hts hsized₁ (bsFlags ||| bsFlag t) hfuel₁ hbuf₁
      have hnonempty : s.rxbuf ≠ [] := fun h => by
        rw [h] at hlt
        exact absurd hlt (Nat.not_lt_zero _)
      refine ⟨s', bsFlags', ?_, hsized', fun t' => ?_, fun t' ht' hne => ?_, fun t' ht' pqs hpqs => ?_⟩
      · rw [decodeSnapshotRecords]
        dsimp only
        rw [if_neg hnonempty, bind_of_ok hrun₁, hrun]
      · rw [hflags t', isEnumContains_or, Bool.or_assoc]
        congr 1
        by_cases ht' : t = t'
        · subst ht'
          simp [hempty]
        · simp [ht', Ne.symm ht']
      · rcases mem_cons.mp ht' with rfl | ht'
        · exact hkept t' htts _ hshow₁
        · exact hshow t' ht' hne
      · rw [mem_cons, not_or] at ht'
        exact hkept t' ht'.2 pqs (hkept₁ t' ht'.1 pqs hpqs)

/-! ### The whole snapshot -/

/-- The lists that were not in the bytes are cleared. -/
theorem checkClearFieldPQs_runs (htab : tf.IsBookOfServer) (hsized : Sized tf s) {bsFlags : UInt8}
    (hflags : ∀ t, isEnumContains bsFlags (bsFlag t) = decide (sent t ≠ [])) {ready : List RtBSType}
    (hready : ∀ t, sent t ≠ [] ∨ t ∈ ready → ShowsList s (tf.fldPQs t) (sent t)) (t : RtBSType) :
    ∃ s', checkClearFieldPQs tf bsFlags t s = .ok () s' ∧ Sized tf s' ∧
      ∀ t', sent t' ≠ [] ∨ t' ∈ t :: ready → ShowsList s' (tf.fldPQs t') (sent t') := by
  rw [checkClearFieldPQs, hflags t]
  by_cases hempty : sent t = []
  · obtain ⟨s', hrun, -, hshow⟩ := clearFieldPQs_runs (fun fld hfld => isLevel_of_mem htab hfld) (pairwise_fldPQs tf t) hsized
    refine ⟨s', ?_, hsized.of_keeps (keeps_clearFieldPQs fun fld _ => sparesPQ_sizeView .bs fld) hrun, fun t' ht' => ?_⟩
    · simp only [hempty, ne_eq, not_true_eq_false, decide_false, Bool.false_eq_true, ↓reduceIte, hrun]
    · by_cases hne : t' = t
      · subst hne
        rw [hempty]
        intro lv fld hfld
        exact hshow fld (mem_of_getElem? hfld)
      · have hold : ShowsList s (tf.fldPQs t') (sent t') :=
          hready t' (ht'.imp_right fun h => (mem_cons.mp h).resolve_left hne)
        refine hold.of_keeps (fun fld' hfld' => ?_) hrun
        exact keeps_clearFieldPQs fun fld hfld => sparesPQ_of_ne (Ne.symm hne) hfld hfld'
  · refine ⟨s, ?_, hsized, fun t' ht' => hready t' ?_⟩
    · simp only [hempty, ne_eq, not_false_eq_true, decide_true, ↓reduceIte]
      rfl
    · rcases ht' with h | h
      · exact .inl h
      · rcases mem_cons.mp h with rfl | h
        · exact .inl hempty
        · exact .inr h

/-- A number for a field that is not of a level. -/
theorem putNumber_runs {x : BSFld} {f : Field} (hf : tf.fldBS x = some f) (hsized : Sized tf s) {num : ℤ} {decScale : ℕ}
    (hnum : ∃ c, f.cls.putNumber num decScale = .ok c) :
    ∃ s', putNumber .bs (tf.fldBS x) num decScale s = .ok () s' ∧ s'.rxbuf = s.rxbuf ∧ Sized tf s' ∧
      ∀ t pqs, ShowsList s (tf.fldPQs t) pqs → ShowsList s' (tf.fldPQs t) pqs := by
  obtain ⟨c, hc⟩ := hnum
  have hreach : s.Reaches .bs f := by
    rw [RxState.Reaches, hsized]
    exact Tab.stop_le hf
  have hrun : putNumber .bs (tf.fldBS x) num decScale s = .ok () (s.put .bs f c) := by
    rw [hf, putNumber_of_ok hc, putCell_of_reaches hreach]
  refine ⟨_, hrun, rfl, hsized.of_keeps (keeps_putNumber (fun g _ => spares_sizeView .bs g) _ _) hrun, fun t pqs hshow => ?_⟩
  refine hshow.of_keeps (fun fld hfld => keeps_putNumber (fun g hg => ?_) _ _) hrun
  exact spares_fld hg hfld

/-- The tab shows the levels that were packed, and null everywhere else. -/
theorem decodeSnapshotBS_runs (htab : tf.IsBookOfServer) (hsized : Sized tf s) (hlen : ∀ t, (sent t).length ≤ 16)
    (hcount : ∀ t, (sent t).length ≤ (tf.fldPQs t).length) {bsFlags : UInt8}
    (hflags : ∀ t, isEnumContains bsFlags (bsFlag t) = false)
    (hbuf : s.rxbuf = allTypes.flatMap fun t => listRecord t (sent t)) :
    ∃ s', decodeSnapshotBS tf rx bsFlags s = .ok () s' ∧ ∀ t, ShowsList s' (tf.fldPQs t) (sent t) := by
  obtain ⟨fInfoTime, hfInfoTime⟩ : ∃ f, tf.fldBS .infoTime = some f :=
    Option.isSome_iff_exists.mp (tf.bs_isSome .infoTime (by decide))
  obtain ⟨fFlags, hfFlags⟩ : ∃ f, tf.fldBS .flags = some f := Option.isSome_iff_exists.mp (tf.bs_isSome .flags (by decide))
  have htime : seInfoTime rx s = .ok (s.note.selectInfoTime rx.isStreamData) s := rfl
  have hinfo : ∃ c, fInfoTime.cls.putNumber (s.note.selectInfoTime rx.isStreamData).1 dayTimeScale = .ok c := by
    rw [htab.infoTime fInfoTime hfInfoTime]
    exact ⟨_, rfl⟩
  obtain ⟨s₁, hrun₁, hbuf₁, hsized₁, -⟩ := putNumber_runs hfInfoTime hsized hinfo
  obtain ⟨s₂, bsFlags₂, hrun₂, hsized₂, hflags₂, hshow₂, -⟩ :=
    decodeSnapshotRecords_runs (s := s₁) htab (by decide : allTypes.Nodup) hlen hcount hsized₁ bsFlags le_rfl (hbuf₁.trans hbuf)
  have hrecords : decodeAllRecords tf bsFlags s₁ = .ok bsFlags₂ s₂ := hrun₂
  have hall : ∀ t : RtBSType, t ∈ allTypes := by decide
  have hcontains : ∀ t, isEnumContains bsFlags₂ (bsFlag t) = decide (sent t ≠ []) := by
    intro t
    rw [hflags₂ t, hflags t, Bool.false_or]
    simp only [hall t, true_and]
  have hready : ∀ t, sent t ≠ [] ∨ t ∈ ([] : List RtBSType) → ShowsList s₂ (tf.fldPQs t) (sent t) := by
    rintro t (h | h)
    · exact hshow₂ t (hall t) h
    · exact absurd h not_mem_nil
  obtain ⟨s₃, hrun₃, hsized₃, hready₃⟩ := checkClearFieldPQs_runs htab hsized₂ hcontains hready .orderBuy
  obtain ⟨s₄, hrun₄, hsized₄, hready₄⟩ := checkClearFieldPQs_runs htab hsized₃ hcontains hready₃ .orderSell
  obtain ⟨s₅, hrun₅, hsized₅, hready₅⟩ := checkClearFieldPQs_runs htab hsized₄ hcontains hready₄ .derivedBuy
  obtain ⟨s₆, hrun₆, hsized₆, hready₆⟩ := checkClearFieldPQs_runs htab hsized₅ hcontains hready₅ .derivedSell
  have hput : ∃ c, fFlags.cls.putNumber bsFlags₂.toNat 0 = .ok c := by
    rw [htab.flags fFlags hfFlags]
    exact ⟨_, rfl⟩
  obtain ⟨s₇, hrun₇, -, -, hkept₇⟩ := putNumber_runs hfFlags hsized₆ hput
  refine ⟨{ s₇ with reports := s₇.reports ++ [(.bs, s₇.seeds .bs)] }, ?_, fun t => ?_⟩
  · rw [decodeSnapshotBS, bind_of_ok htime, bind_of_ok hrun₁, bind_of_ok hrecords, bind_of_ok hrun₃, bind_of_ok hrun₄, bind_of_ok hrun₅,
      bind_of_ok hrun₆, reportBS, bind_of_ok hrun₇]
    rfl
  · have hmem : t ∈ [RtBSType.derivedSell, .derivedBuy, .orderSell, .orderBuy] := by
      revert t
      decide
    exact hkept₇ t _ (hready₆ t (.inr hmem))

end Fon9.RcMdRts
