import Fon9.RcMdRts.Snapshot

/-! Any bytes as a snapshot. The decoder takes the count of a record as it comes; where the list
of the tab has fewer levels, it goes on behind the end of the list. Bytes whose records fit the
tab's lists touch nothing but the fields that a snapshot has. -/

namespace Fon9.RcMdRts

open Lib Bitv Buffer Seed Rts Avoids

variable {tf : TabFields} {rx : RxNotify} {s : RxState} {wr : RtsTab} {f : Field} {fld : Option Field}

/-! ### What stays within the tab -/

theorem avoids_popBitv {α : Type} (bitvTo : Bytes → Except BitvError (α × Bytes)) : Avoids .noSuchLevel (popBitv bitvTo) := by
  intro s s'
  rw [popBitv]
  cases bitvTo s.rxbuf <;> exact fun h => by cases h

theorem avoids_putCell (c : Cell f.cls.size) : Avoids .noSuchLevel (putCell wr f c) := by
  intro s s'
  rw [putCell]
  split_ifs <;> exact fun h => by cases h

theorem avoids_onField {α : Type} {use : Field → Decoder α} (h : ∀ f, Avoids .noSuchLevel (use f)) :
    Avoids .noSuchLevel (onField fld use) := by
  cases fld with
  | none => exact throw nofun
  | some f => exact h f

theorem avoids_putNumber (num : ℤ) (decScale : ℕ) : Avoids .noSuchLevel (putNumber wr fld num decScale) := by
  refine avoids_onField fun f => bind ?_ fun c => avoids_putCell c
  cases f.cls.putNumber num decScale with
  | ok c => exact pure c
  | error e => exact throw nofun

theorem avoids_bitvToCell : Avoids .noSuchLevel (bitvToCell wr fld) :=
  avoids_onField fun _ => bind (avoids_popBitv _) fun c => avoids_putCell c

theorem avoids_clearFieldPQs (flds : List FieldPQ) : Avoids .noSuchLevel (clearFieldPQs wr flds) := by
  induction flds with
  | nil => exact pure _
  | cons pq flds ih => exact bind (bind (avoids_putCell _) fun _ => avoids_putCell _) fun _ => ih

theorem avoids_bitvToFieldPQs (flds : List FieldPQ) : Avoids .noSuchLevel (bitvToFieldPQs wr flds) := by
  induction flds with
  | nil => exact pure _
  | cons pq flds ih => exact bind (bind avoids_bitvToCell fun _ => avoids_bitvToCell) fun _ => ih

variable {flds : List FieldPQ} {s' : RxState}

theorem avoids_decodeLevels {count : ℕ} (h : count ≤ flds.length) :
    Avoids .noSuchLevel (decodeLevels flds count) := by
  rw [decodeLevels, if_pos h]
  exact bind (avoids_clearFieldPQs _) fun _ => avoids_bitvToFieldPQs _

theorem avoids_checkClearFieldPQs (bsFlags : UInt8) (t : RtBSType) : Avoids .noSuchLevel (checkClearFieldPQs tf bsFlags t) :=
  Avoids.ite (pure _) (avoids_clearFieldPQs _)

/-! ### The records of the bytes -/

/-- `(bstype & 0x0f) + 1` -/
def recordCount (bstype : UInt8) : ℕ := (bstype &&& 0x0f).toNat + 1

/-- The bytes behind the prices and quantities of levels. -/
def skipFieldPQs : List FieldPQ → Bytes → Except BitvError Bytes
  | [], rxbuf => .ok rxbuf
  | pq :: flds, rxbuf => do
    let (_, rxbuf) ← pq.fldPri.cls.bitvToCell rxbuf
    let (_, rxbuf) ← pq.fldQty.cls.bitvToCell rxbuf
    skipFieldPQs flds rxbuf

/-- From the bytes of a record to those of the next. -/
inductive NextRecord (tf : TabFields) : Bytes → Bytes → Prop
  | levels {bstype : UInt8} {rxbuf rest : Bytes} (h : bstype &&& 0x80 = 0)
      (hskip : skipFieldPQs ((tf.fldPQs (rtBSType bstype)).take (recordCount bstype)).reverse rxbuf = .ok rest) :
      NextRecord tf (bstype :: rxbuf) rest
  | lmtFlags {lmtFlags : UInt8} {rest : Bytes} : NextRecord tf (bsSnapshotSpc_LmtFlags :: lmtFlags :: rest) rest
  | other {bstype : UInt8} {rest : Bytes} (h : bstype &&& 0x80 ≠ 0) (hne : bstype ≠ bsSnapshotSpc_LmtFlags) :
      NextRecord tf (bstype :: rest) rest

/-- No record of a list, from the first one on, has more levels than the list of the tab. -/
def CountsFit (tf : TabFields) (rxbuf : Bytes) : Prop :=
  ∀ bstype rest, Relation.ReflTransGen (NextRecord tf) rxbuf (bstype :: rest) → bstype &&& 0x80 = 0 →
    recordCount bstype ≤ (tf.fldPQs (rtBSType bstype)).length

theorem CountsFit.next {rxbuf rest : Bytes} (h : CountsFit tf rxbuf) (hnext : NextRecord tf rxbuf rest) : CountsFit tf rest :=
  fun bstype rest' hreach => h bstype rest' (.head hnext hreach)

section Runs

variable {α β : Type}

/-- A program that returns has been through a state between its parts. -/
theorem ok_of_bind {x : Decoder α} {k : α → Decoder β} {b : β} (h : (x >>= k) s = .ok b s') :
    ∃ a s₁, x s = .ok a s₁ ∧ k a s₁ = .ok b s' := by
  change EStateM.bind x k s = _ at h
  rw [EStateM.bind] at h
  cases hx : x s with
  | ok a s₁ =>
    rw [hx] at h
    exact ⟨a, s₁, rfl, h⟩
  | error e s₁ =>
    rw [hx] at h
    exact nomatch h

theorem ok_of_popBitv {bitvTo : Bytes → Except BitvError (α × Bytes)} {val : α} (h : popBitv bitvTo s = .ok val s')
    : bitvTo s.rxbuf = .ok (val, s'.rxbuf) := by
  rw [popBitv] at h
  cases hread : bitvTo s.rxbuf with
  | ok r =>
    rw [hread] at h
    cases h
    rfl
  | error e =>
    rw [hread] at h
    cases h

end Runs

theorem rxbuf_of_putCell {c : Cell f.cls.size} (h : putCell wr f c s = .ok () s') : s'.rxbuf = s.rxbuf := by
  rw [putCell] at h
  split_ifs at h
  · cases h
    rfl

theorem rxbuf_of_putNumber {num : ℤ} {decScale : ℕ} (h : putNumber wr fld num decScale s = .ok () s') :
    s'.rxbuf = s.rxbuf := by
  cases fld with
  | none => exact nomatch h
  | some f =>
    cases hc : f.cls.putNumber num decScale with
    | ok c => exact rxbuf_of_putCell ((putNumber_of_ok hc).symm.trans h)
    | error e =>
      rw [putNumber_of_error hc] at h
      exact nomatch h

theorem rxbuf_of_bitvToCell (h : bitvToCell wr (some f) s = .ok () s') :
    ∃ c, f.cls.bitvToCell s.rxbuf = .ok (c, s'.rxbuf) := by
  obtain ⟨c, s₁, hpop, hput⟩ := ok_of_bind h
  rw [rxbuf_of_putCell hput]
  exact ⟨c, ok_of_popBitv hpop⟩

theorem rxbuf_of_clearFieldPQs (h : clearFieldPQs wr flds s = .ok () s') :
    s'.rxbuf = s.rxbuf := by
  induction flds generalizing s with
  | nil =>
    cases h
    rfl
  | cons pq flds ih =>
    obtain ⟨_, s₁, hclear, hrest⟩ := ok_of_bind h
    obtain ⟨_, s₂, hpri, hqty⟩ := ok_of_bind hclear
    rw [ih hrest, rxbuf_of_putCell hqty, rxbuf_of_putCell hpri]

theorem rxbuf_of_bitvToFieldPQs (h : bitvToFieldPQs wr flds s = .ok () s') :
    skipFieldPQs flds s.rxbuf = .ok s'.rxbuf := by
  induction flds generalizing s with
  | nil =>
    cases h
    rfl
  | cons pq flds ih =>
    obtain ⟨_, s₁, hlevel, hrest⟩ := ok_of_bind h
    obtain ⟨_, s₂, hpri, hqty⟩ := ok_of_bind hlevel
    obtain ⟨c, hc⟩ := rxbuf_of_bitvToCell hpri
    obtain ⟨d, hd⟩ := rxbuf_of_bitvToCell hqty
    rw [skipFieldPQs, hc]
    show (pq.fldQty.cls.bitvToCell s₂.rxbuf >>= fun r => skipFieldPQs flds r.2) = _
    rw [hd]
    exact ih hrest

theorem rxbuf_of_readByte {b : UInt8} (h : readByte s = .ok b s') : s.rxbuf = b :: s'.rxbuf := by
  have hpop := ok_of_popBitv h
  cases hrx : s.rxbuf with
  | nil =>
    rw [hrx] at hpop
    exact nomatch hpop
  | cons b' rest =>
    rw [hrx] at hpop
    cases hpop
    rfl

/-- A record that is decoded leaves the bytes of the next one. -/
theorem next_of_decodeSnapshotRecord {bsFlags bsFlags' : UInt8}
    (h : decodeSnapshotRecord tf bsFlags s = .ok bsFlags' s') : NextRecord tf s.rxbuf s'.rxbuf := by
  obtain ⟨bstype, s₁, hread, hrest⟩ := ok_of_bind h
  rw [rxbuf_of_readByte hread]
  by_cases hbit : bstype &&& 0x80 = 0
  · rw [if_pos hbit] at hrest
    obtain ⟨_, s₂, hlevels, hpure⟩ := ok_of_bind hrest
    cases hpure
    rw [decodeLevels] at hlevels
    split_ifs at hlevels with hcount
    · obtain ⟨_, s₃, hclear, hlevels⟩ := ok_of_bind hlevels
      apply NextRecord.levels hbit
      rw [← rxbuf_of_clearFieldPQs hclear]
      exact rxbuf_of_bitvToFieldPQs hlevels
    · cases hlevels
  · rw [if_neg hbit] at hrest
    by_cases hlmt : bstype = bsSnapshotSpc_LmtFlags
    · subst hlmt
      rw [if_pos rfl] at hrest
      obtain ⟨lmtFlags, s₂, hlmtFlags, hrest⟩ := ok_of_bind hrest
      obtain ⟨_, s₃, hput, hpure⟩ := ok_of_bind hrest
      cases hpure
      rw [rxbuf_of_readByte hlmtFlags, rxbuf_of_putNumber hput]
      exact .lmtFlags
    · rw [if_neg hlmt] at hrest
      cases hrest
      exact .other hbit hlmt

/-! ### The decoder stays within the tab -/

theorem decodeSnapshotRecord_within (h : CountsFit tf s.rxbuf) (bsFlags : UInt8) (s' : RxState) :
    decodeSnapshotRecord tf bsFlags s ≠ .error .noSuchLevel s' := by
  refine bind_of (avoids_popBitv _) fun bstype s₁ hread => ?_
  rw [rxbuf_of_readByte hread] at h
  by_cases hbit : bstype &&& 0x80 = 0
  · have hcount := h bstype s₁.rxbuf .refl hbit
    rw [if_pos hbit]
    exact bind (avoids_decodeLevels hcount) (fun _ => pure _) s₁ s'
  · rw [if_neg hbit]
    refine Avoids.ite (bind (avoids_popBitv _) fun _ => ?_) (pure _) s₁ s'
    exact bind (avoids_putNumber _ _) fun _ => pure _

theorem decodeSnapshotRecords_within (fuel : ℕ) (h : CountsFit tf s.rxbuf) (bsFlags : UInt8) (s' : RxState) :
    decodeSnapshotRecords tf fuel bsFlags s ≠ .error .noSuchLevel s' := by
  induction fuel generalizing s bsFlags with
  | zero => exact fun h => by cases h
  | succ fuel ih =>
    rw [decodeSnapshotRecords]
    dsimp only
    split_ifs
    · exact fun h => by cases h
    · cases hrun : decodeSnapshotRecord tf bsFlags s with
      | ok bsFlags₁ s₁ =>
        rw [bind_of_ok hrun]
        exact ih (h.next (next_of_decodeSnapshotRecord hrun)) bsFlags₁
      | error e s₁ =>
        rw [bind_of_error hrun]
        rintro ⟨⟩
        exact decodeSnapshotRecord_within h bsFlags s' hrun

theorem decodeSnapshotBS_within (h : CountsFit tf s.rxbuf) (bsFlags : UInt8) (s' : RxState) :
    decodeSnapshotBS tf rx bsFlags s ≠ .error .noSuchLevel s' := by
  rw [decodeSnapshotBS, bind_of_ok (show seInfoTime rx s = .ok (s.note.selectInfoTime rx.isStreamData) s from rfl)]
  refine bind_of (avoids_putNumber _ _) fun _ s₁ hput => ?_
  rw [← rxbuf_of_putNumber hput] at h
  cases hrun : decodeAllRecords tf bsFlags s₁ with
  | error e s₂ =>
    rw [bind_of_error hrun]
    rintro ⟨⟩
    exact decodeSnapshotRecords_within _ h bsFlags s' hrun
  | ok bsFlags₂ s₂ =>
    rw [bind_of_ok hrun]
    refine bind (avoids_checkClearFieldPQs _ _) (fun _ => ?_) s₂ s'
    refine bind (avoids_checkClearFieldPQs _ _) fun _ => bind (avoids_checkClearFieldPQs _ _) fun _ => ?_
    refine bind (avoids_checkClearFieldPQs _ _) fun _ => bind (avoids_putNumber _ _) fun _ => ?_
    exact fun _ _ => (fun h => by cases h)

/-! ### The tab of a symbol of the futures exchange -/

/-- The class of a field that the server makes. -/
def classOf : BSCell → FieldClass
  | .fld .infoTime => fieldDayTime
  | .fld .flags | .fld .lmtFlags => fieldInt .uint8
  | .fld .mktSeq => fieldInt .uint32
  | .fld .channelSeq => fieldInt .uint64
  | .pri _ _ => fieldPri
  | .qty _ _ => fieldQty

section Twf

variable (isAddMarketSeq isAddChannelSeq : Bool)

theorem class_symbTwfBSMakeFields : ∀ fld ∈ symbTwfBSMakeFields isAddMarketSeq isAddChannelSeq, fld.2 = classOf fld.1 := by
  cases isAddMarketSeq <;> cases isAddChannelSeq <;> simp [symbTwfBSMakeFields, levelFields, addIf, classOf]

theorem class_fldCell {x : BSCell} {f : Field} (h : (twfTabFields isAddMarketSeq isAddChannelSeq).fldCell x = some f) :
    f.cls = classOf x := by
  have hget : (tabOf BSCell.name BSCell.name_injective _
      (nodup_symbTwfBSMakeFields isAddMarketSeq isAddChannelSeq)).get x.name = some f := TabFields.get_of_fldCell h
  obtain ⟨y, hname, hmem⟩ := exists_key hget
  rw [← BSCell.name_injective hname]
  exact class_symbTwfBSMakeFields _ _ _ hmem

theorem isBookOfServer_twf : (twfTabFields isAddMarketSeq isAddChannelSeq).IsBookOfServer where
  infoTime f h := class_fldCell _ _ (x := .fld .infoTime) h
  flags f h := class_fldCell _ _ (x := .fld .flags) h
  pri t fld h := by
    obtain ⟨lv, hpri, -⟩ := fldCell_of_mem h
    exact class_fldCell _ _ hpri
  qty t fld h := by
    obtain ⟨lv, -, hqty⟩ := fldCell_of_mem h
    exact class_fldCell _ _ hqty

end Twf

/-! ### Every snapshot -/

/-- A field of the tab that no snapshot writes. -/
def IsNotOfSnapshot (tf : TabFields) (g : Field) : Prop :=
  ∃ name, tf.bs.get name = some g ∧ ∀ x : BSCell, x.IsOfSnapshot → (tf.fldCell x).isSome → x.name ≠ name

/-- A snapshot writes the fields of its own in the tab of the book, and nothing else. -/
theorem decodeSnapshotBS_frame (tf : TabFields) (rx : RxNotify) (bsFlags : UInt8) (s : RxState) :
    (∀ g, IsNotOfSnapshot tf g →
      g.bytesAt ((leaves (decodeSnapshotBS tf rx bsFlags s)).seeds .bs) = g.bytesAt (s.seeds .bs)) ∧
    (leaves (decodeSnapshotBS tf rx bsFlags s)).seeds .deal = s.seeds .deal := by
  constructor
  · rintro g ⟨name, hget, hname⟩
    have hkeeps : Keeps (seeing fun seeds _ => g.bytesAt (seeds .bs)) (decodeSnapshotBS tf rx bsFlags) := by
      refine keeps_decodeSnapshotBS (fun x hx f hf s' c hreach => ?_) bsFlags
      have hne := hname x hx (Option.isSome_of_eq_some hf)
      exact RxState.bytesAt_put_apart hreach fun _ => Tab.apart_of_ne (TabFields.get_of_fldCell hf) hget hne
    exact hkeeps s
  · have hkeeps : Keeps (seeing fun seeds _ => seeds .deal) (decodeSnapshotBS tf rx bsFlags) := by
      refine keeps_decodeSnapshotBS (fun x hx f hf s' c hreach => ?_) bsFlags
      show (s'.put .bs f c).seeds .deal = s'.seeds .deal
      exact RxState.put_seeds_of_ne _ (by decide)
    exact hkeeps s

/-- The book that was packed shows in the tab, level by level, where the lists of the tab are long
enough for it; and bytes whose records fit the lists write no more than the fields of the tab
that a snapshot has. -/
theorem decodeSnapshotBS_shows (tf : TabFields) (rx : RxNotify) (s : RxState) :
    (∀ (symbBS : SymbBSData) (bsFlags : UInt8), tf.IsBookOfServer → Sized tf s → bsFlags = 0 ∨ bsFlags = bsFlag_Calculated →
      (∀ t, (packed symbBS t).length ≤ (tf.fldPQs t).length) → s.rxbuf = mdRtsPackSnapshotBS [] symbBS →
      ∃ s', decodeSnapshotBS tf rx bsFlags s = .ok () s' ∧ ∀ t, ShowsList s' (tf.fldPQs t) (packed symbBS t)) ∧
    (∀ bsFlags : UInt8, CountsFit tf s.rxbuf →
      (∀ s', decodeSnapshotBS tf rx bsFlags s ≠ .error .noSuchLevel s') ∧
      (∀ g, IsNotOfSnapshot tf g →
        g.bytesAt ((leaves (decodeSnapshotBS tf rx bsFlags s)).seeds .bs) = g.bytesAt (s.seeds .bs)) ∧
      (leaves (decodeSnapshotBS tf rx bsFlags s)).seeds .deal = s.seeds .deal) := by
  constructor
  · intro symbBS bsFlags htab hsized hcalc hcount hbuf
    have hlen : ∀ t, (packed symbBS t).length ≤ 16 := by
      intro t
      have hmost : ∀ t : RtBSType, t.count ≤ 16 := by decide
      exact (length_packed_le symbBS t).trans (hmost t)
    have hflags : ∀ t, isEnumContains bsFlags (bsFlag t) = false := by
      rcases hcalc with rfl | rfl <;> decide
    rw [mdRtsPackSnapshotBS_eq] at hbuf
    exact decodeSnapshotBS_runs htab hsized hlen hcount hflags hbuf
  · intro bsFlags hfit
    exact ⟨decodeSnapshotBS_within hfit bsFlags, decodeSnapshotBS_frame tf rx bsFlags s⟩

/-! ### A gap in a list, and a list that is too long -/

/-- A record with more levels than the list of the tab has. -/
theorem decodeSnapshotBS_overruns {tf : TabFields} {rx : RxNotify} {s : RxState} (htab : tf.IsBookOfServer) (hsized : Sized tf s)
    {bstype : UInt8} {rest : Bytes} (hbuf : s.rxbuf = bstype :: rest) (hbit : bstype &&& 0x80 = 0)
    (hcount : (tf.fldPQs (rtBSType bstype)).length < recordCount bstype) (bsFlags : UInt8) :
    ∃ s', decodeSnapshotBS tf rx bsFlags s = .error .noSuchLevel s' := by
  obtain ⟨f, hf⟩ : ∃ f, tf.fldBS .infoTime = some f := Option.isSome_iff_exists.mp (tf.bs_isSome .infoTime (by decide))
  have hinfo : ∃ c, f.cls.putNumber (s.note.selectInfoTime rx.isStreamData).1 dayTimeScale = .ok c := by
    rw [htab.infoTime f hf]
    exact ⟨_, rfl⟩
  obtain ⟨s₁, hrun₁, hbuf₁, -⟩ := putNumber_runs hf hsized hinfo
  rw [hbuf] at hbuf₁
  have hrecord : decodeSnapshotRecord tf bsFlags s₁ = .error .noSuchLevel { s₁ with rxbuf := rest } := by
    rw [decodeSnapshotRecord, bind_of_ok (readByte_cons hbuf₁), if_pos hbit]
    apply bind_of_error
    exact congrFun (if_neg (not_le.mpr hcount)) _
  have hrecords : decodeAllRecords tf bsFlags s₁ = .error .noSuchLevel { s₁ with rxbuf := rest } := by
    rw [decodeAllRecords, hbuf₁, List.length_cons, decodeSnapshotRecords]
    dsimp only
    rw [if_neg (by rw [hbuf₁]; exact List.cons_ne_nil _ _)]
    exact bind_of_error hrecord
  refine ⟨{ s₁ with rxbuf := rest }, ?_⟩
  rw [decodeSnapshotBS, bind_of_ok (show seInfoTime rx s = .ok (s.note.selectInfoTime rx.isStreamData) s from rfl),
    bind_of_ok hrun₁]
  exact bind_of_error hrecords

/-- A book with bids on the first and on the third level, and none between them. -/
def gapBook : SymbBSData where
  infoTime := 0
  levels t lv := if t = .orderBuy ∧ lv.1 ≠ 1 then ⟨IntType.int64.cast 10, IntType.uint64.cast 3⟩ else {}
  flags _ := true
  marketSeq := IntType.uint32.cast 0
  channelSeq := IntType.uint64.cast 0

/-- The tabs of a symbol, still empty, and bytes to decode. -/
def emptyTabs (rxbuf : Bytes) : RxState where
  rxbuf := rxbuf
  note := {}
  rtMktSeq := IntType.uint64.cast 0
  seeds _ := List.replicate (twfBSTab false false).dyMemSize 0
  reports := []

theorem sized_emptyTabs (rxbuf : Bytes) : Sized (twfTabFields false false) (emptyTabs rxbuf) := List.length_replicate

theorem packed_gapBook :
    ∀ t, packed gapBook t = if t = .orderBuy then [⟨IntType.int64.cast 10, IntType.uint64.cast 3⟩] else [] := by decide

theorem fits_gapBook (t : RtBSType) : (packed gapBook t).length ≤ ((twfTabFields false false).fldPQs t).length :=
  (length_packed_le gapBook t).trans (length_fldPQs_twf false false t).ge

/-- The snapshot of that book, for the tabs of a symbol. -/
theorem decodeSnapshotBS_shows_gapBook :
    ∃ s', decodeSnapshotBS (twfTabFields false false) ⟨true, false⟩ 0 (emptyTabs (mdRtsPackSnapshotBS [] gapBook)) = .ok () s' ∧
      ∀ t, ShowsList s' ((twfTabFields false false).fldPQs t) (packed gapBook t) :=
  (decodeSnapshotBS_shows (twfTabFields false false) ⟨true, false⟩ (emptyTabs (mdRtsPackSnapshotBS [] gapBook))).1 gapBook 0
    (isBookOfServer_twf _ _) (sized_emptyTabs _) (.inl rfl) fits_gapBook rfl

/-- The bids behind the gap do not show; and six levels for a list of five go behind its end. -/
theorem gapBook_wrong :
    (¬ ∀ (tf : TabFields) (rx : RxNotify) (s : RxState) (symbBS : SymbBSData), tf.IsBookOfServer → Sized tf s →
      (∀ t, t.count ≤ (tf.fldPQs t).length) → s.rxbuf = mdRtsPackSnapshotBS [] symbBS →
      ∃ s', decodeSnapshotBS tf rx 0 s = .ok () s' ∧ ∀ t (lv : Fin t.count) fld, (tf.fldPQs t)[lv.1]? = some fld →
        Shows s' fld (if (symbBS.levels t lv).qty.1 = 0 then nullPQ else symbBS.levels t lv)) ∧
    ¬ ∀ (tf : TabFields) (rx : RxNotify) (s : RxState) (s' : RxState), tf.IsBookOfServer → Sized tf s →
      (∀ t, t.count ≤ (tf.fldPQs t).length) → decodeSnapshotBS tf rx 0 s ≠ .error .noSuchLevel s' := by
  have hcount : ∀ t, t.count ≤ ((twfTabFields false false).fldPQs t).length := fun t => (length_fldPQs_twf false false t).ge
  constructor
  · intro h
    obtain ⟨s', hrun, hshow⟩ := h (twfTabFields false false) ⟨true, false⟩ (emptyTabs (mdRtsPackSnapshotBS [] gapBook)) gapBook
      (isBookOfServer_twf _ _) (sized_emptyTabs _) hcount rfl
    have hmost : ∀ t : RtBSType, t.count ≤ 16 := by decide
    have hpacked : ∃ s'', decodeSnapshotBS (twfTabFields false false) ⟨true, false⟩ 0 (emptyTabs (mdRtsPackSnapshotBS [] gapBook)) =
        .ok () s'' ∧ ∀ t, ShowsList s'' ((twfTabFields false false).fldPQs t) (packed gapBook t) :=
      decodeSnapshotBS_runs (isBookOfServer_twf false false) (sized_emptyTabs _)
        (fun t => (length_packed_le gapBook t).trans (hmost t)) fits_gapBook (by decide) (mdRtsPackSnapshotBS_eq gapBook)
    obtain ⟨s'', hrun', hnull⟩ := hpacked
    obtain rfl : s'' = s' := (EStateM.Result.ok.inj (hrun'.symm.trans hrun)).2
    have hlevel : 2 < ((twfTabFields false false).fldPQs .orderBuy).length := by
      rw [length_fldPQs_twf]
      decide
    have hthree := hshow .orderBuy ⟨2, by decide⟩ _ (List.getElem?_eq_getElem hlevel)
    have hempty := hnull .orderBuy 2 _ (List.getElem?_eq_getElem hlevel)
    rw [packed_gapBook] at hempty
    exact absurd (congrArg Prod.snd (hthree.symm.trans hempty)) (by decide)
  · intro h
    have hoverrun : ∃ s', decodeSnapshotBS (twfTabFields false false) ⟨true, false⟩ 0 (emptyTabs [0x05]) = .error .noSuchLevel s' :=
      decodeSnapshotBS_overruns (isBookOfServer_twf false false) (sized_emptyTabs _) rfl (by decide)
        (by rw [length_fldPQs_twf]; decide) 0
    obtain ⟨s', hrun⟩ := hoverrun
    exact h _ _ _ s' (isBookOfServer_twf false false) (sized_emptyTabs _) hcount hrun

end Fon9.RcMdRts
