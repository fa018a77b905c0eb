import Fon9.Bitv.Scalar
import Fon9.Rts.UpdateBS

/-! The client's levels follow the server's book. A level of the server that holds a
quantity is the client's level, and one without is one without; an empty level has price
zero on the server and null on the client. A record that changes a level keeps this, except
the short one: it leaves out the price, and the client may not have the server's price of an
empty level. -/

namespace Fon9.Rts

open Lib Buffer Bitv List IntType Function Option

def PriQty.Agrees (server client : PriQty) : Prop :=
  (server.qty.1 ≠ 0 → client = server) ∧ (server.qty.1 = 0 → client.qty.1 = 0)

instance (server client : PriQty) : Decidable (server.Agrees client) := inferInstanceAs (Decidable (_ ∧ _))

def Levels.Agree (server client : Levels) : Prop := ∀ t lv, (server t lv).Agrees (client t lv)

/-- The levels of the client behind the record of an entry. -/
def followEntry (origDiv : ℕ) (server client : Levels) (e : ExgMcI081Entry) : Levels :=
  match entryBSType e.entryType with
  | none => client
  | some t =>
    if h : e.lv < t.count then
      let pq : PriQty := ⟨e.price.assignTo origDiv, e.qty32⟩
      if e.updateAction = '2' then deletePQ client t e.lv
      else if e.updateAction = '0' then (insertPQ client t e.lv).change t e.lv pq
      else if e.updateAction = '1' ∨ e.updateAction = '5' then
        if pq.pri = (server t ⟨e.lv, h⟩).pri then client.change t e.lv { client t ⟨e.lv, h⟩ with qty := e.qty32 }
        else client.change t e.lv pq
      else client
    else client

/-- Where a change leaves the price of the server as it is, the client has it too, or the
quantity is zero. -/
def EntryOk (origDiv : ℕ) (server client : Levels) (e : ExgMcI081Entry) : Prop :=
  ∀ t, entryBSType e.entryType = some t → ∀ h : e.lv < t.count, e.updateAction = '1' ∨ e.updateAction = '5' →
    e.price.assignTo origDiv = (server t ⟨e.lv, h⟩).pri →
      (client t ⟨e.lv, h⟩).pri = (server t ⟨e.lv, h⟩).pri ∨ e.qty32.1 = 0

instance (origDiv : ℕ) (server client : Levels) (e : ExgMcI081Entry) : Decidable (EntryOk origDiv server client e) :=
  inferInstanceAs (Decidable (∀ t, entryBSType e.entryType = some t → ∀ h : e.lv < t.count,
    e.updateAction = '1' ∨ e.updateAction = '5' → e.price.assignTo origDiv = (server t ⟨e.lv, h⟩).pri →
      (client t ⟨e.lv, h⟩).pri = (server t ⟨e.lv, h⟩).pri ∨ e.qty32.1 = 0))

section Levels

variable {server client : Levels} {t : RtBSType} {lv : ℕ} {pq : PriQty}

theorem Levels.modify_same (levels : Levels) (t : RtBSType) (f : (Fin t.count → PriQty) → Fin t.count → PriQty) :
    levels.modify t f t = f (levels t) := update_self _ _ _

theorem Levels.modify_of_ne (levels : Levels) {t t' : RtBSType} (h : t' ≠ t)
    (f : (Fin t.count → PriQty) → Fin t.count → PriQty) : levels.modify t f t' = levels t' :=
  update_of_ne h _ _

/-- Two edits of one list agree where the edited lists do. -/
theorem Levels.Agree.modify (h : server.Agree client) {f g : (Fin t.count → PriQty) → Fin t.count → PriQty}
    (hedit : ∀ lv, (f (server t) lv).Agrees (g (client t) lv)) : (server.modify t f).Agree (client.modify t g) := by
  intro t' lv
  by_cases ht : t' = t
  · subst ht
    rw [modify_same, modify_same]
    exact hedit lv
  · rw [modify_of_ne _ ht, modify_of_ne _ ht]
    exact h t' lv

theorem PriQty.agrees_refl (pq : PriQty) : pq.Agrees pq := ⟨fun _ => rfl, fun h => h⟩

/-- The level that a deletion leaves free. -/
theorem PriQty.zero_agrees_null : ({} : PriQty).Agrees nullPQ := by decide

theorem Levels.Agree.delete (h : server.Agree client) (hlv : lv < t.count) :
    (server.delete t lv).Agree (deletePQ client t lv) := by
  apply h.modify
  intro lv'
  rw [setAt_memmove_delete _ _ _ hlv, setAt_copyForward _ _ _ hlv]
  exact deleteAt_rel (h t) PriQty.zero_agrees_null lv'

theorem change_insertPQ (levels : Levels) (hlv : lv < t.count) (pq : PriQty) :
    (insertPQ levels t lv).change t lv pq = levels.modify t fun flds => insertAt flds lv pq := by
  rw [Levels.change, insertPQ, Levels.modify, Levels.modify_same, Levels.modify, Levels.modify, update_idem,
    setAt_copyBack _ _ _ hlv]

theorem Levels.Agree.insert (h : server.Agree client) (hlv : lv < t.count) (pq : PriQty) :
    (server.insert t lv pq).Agree ((insertPQ client t lv).change t lv pq) := by
  rw [change_insertPQ _ hlv]
  apply h.modify
  intro lv'
  rw [setAt_memmove _ _ _ hlv]
  exact insertAt_rel (h t) pq.agrees_refl lv'

theorem Levels.Agree.change (h : server.Agree client) {pq' : PriQty} (hpq : pq.Agrees pq') :
    (server.change t lv pq).Agree (client.change t lv pq') :=
  h.modify (setAt_rel (h t) hpq)

end Levels

/-! ### One entry -/

section Entry

variable {origDiv : ℕ} {book : SymbBSData} {client : Levels} {e : ExgMcI081Entry}

theorem entryOk_iff {t : RtBSType} (ht : entryBSType e.entryType = some t) (hlv : e.lv < t.count) {server : Levels} :
    EntryOk origDiv server client e ↔ (e.updateAction = '1' ∨ e.updateAction = '5' →
      e.price.assignTo origDiv = (server t ⟨e.lv, hlv⟩).pri →
        (client t ⟨e.lv, hlv⟩).pri = (server t ⟨e.lv, hlv⟩).pri ∨ e.qty32.1 = 0) := by
  constructor
  · exact fun h => h t ht hlv
  · intro h t' ht' hlv'
    obtain rfl : t = t' := some.inj (ht.symm.trans ht')
    exact h

/-- The short form on both sides: the client's price counts where there is a quantity. -/
theorem changeQty_agree_iff {server : Levels} {t : RtBSType} {lv : Fin t.count} (h : server.Agree client) (qty : Qty) :
    (server.change t lv ⟨(server t lv).pri, qty⟩).Agree (client.change t lv ⟨(client t lv).pri, qty⟩) ↔
      ((client t lv).pri = (server t lv).pri ∨ qty.1 = 0) := by
  constructor
  · intro hagree
    obtain ⟨hsame, -⟩ := hagree t lv
    simp only [Levels.change, Levels.modify_same, setAt, if_true] at hsame
    by_cases hqty : qty.1 = 0
    · exact .inr hqty
    · exact .inl (PriQty.mk.inj (hsame hqty)).1
  · intro hpri
    apply h.change
    refine ⟨fun hqty => ?_, fun hqty => hqty⟩
    rw [hpri.resolve_right hqty]

/-- An entry keeps the agreement exactly where the short form is right. -/
theorem followEntry_agree_iff (h : book.levels.Agree client) :
    (updateEntry origDiv book e).levels.Agree (followEntry origDiv book.levels client e) ↔
      EntryOk origDiv book.levels client e := by
  rw [updateEntry, followEntry]
  cases ht : entryBSType e.entryType with
  | none =>
    refine ⟨fun _ t ht' => ?_, fun _ => h⟩
    rw [ht] at ht'
    cases ht'
  | some t =>
    dsimp only
    by_cases hlv : e.lv < t.count
    · rw [if_neg (not_le.mpr hlv), dif_pos hlv, entryOk_iff ht hlv]
      by_cases hdelete : e.updateAction = '2'
      · rw [if_pos hdelete, if_pos hdelete, hdelete]
        exact iff_of_true (h.delete hlv) fun hchange => absurd hchange (by decide)
      rw [if_neg hdelete, if_neg hdelete]
      by_cases hnew : e.updateAction = '0'
      · rw [if_pos hnew, if_pos hnew, hnew]
        exact iff_of_true (h.insert hlv _) fun hchange => absurd hchange (by decide)
      rw [if_neg hnew, if_neg hnew]
      by_cases hchange : e.updateAction = '1' ∨ e.updateAction = '5'
      · rw [if_pos hchange, if_pos hchange]
        by_cases hpri : e.price.assignTo origDiv = (book.levels t ⟨e.lv, hlv⟩).pri
        · rw [if_pos hpri, hpri]
          have hiff := @changeQty_agree_iff client book.levels t ⟨e.lv, hlv⟩ h e.qty32
          exact hiff.trans ⟨fun hor _ _ => hor, fun hor => hor hchange rfl⟩
        · rw [if_neg hpri]
          exact iff_of_true (h.change (PriQty.agrees_refl _)) fun _ hsame => absurd hsame hpri
      · rw [if_neg hchange, if_neg hchange]
        exact iff_of_true h fun hchange' => absurd hchange' hchange
    · rw [if_pos (not_lt.mp hlv), dif_neg hlv]
      refine iff_of_true h fun t' ht' hlv' => ?_
      obtain rfl : t = t' := some.inj (ht.symm.trans ht')
      exact absurd hlv' hlv

end Entry

/-! ### The records -/

section Records

variable {Q : Type} [LawfulDcQueue Q] {q : Q} {rest : Bytes} {client : Levels} {origDiv : ℕ} {book : SymbBSData}

theorem bsTypeByte : ∀ (t : RtBSType) (a : RtBSAction) (lv : Fin 16),
    rtBSType (t.code ||| UInt8.ofNat lv.val ||| a.code) = t ∧ rtBSAction (t.code ||| UInt8.ofNat lv.val ||| a.code) = a ∧
      ((t.code ||| UInt8.ofNat lv.val ||| a.code) &&& 0x0f).toNat = lv.val := by
  intro t a
  cases t <;> cases a <;> decide

theorem readOrRaise_reads (b : UInt8) (h : Holds q (b :: rest)) :
    ∃ q', readOrRaise q = .ok (b, q') ∧ Holds q' rest := by
  have hpop : Holds (DcQueue.popConsumed q [b].length) rest := popConsumed_append h
  refine ⟨_, ?_, hpop⟩
  rw [readOrRaise, peek1_cons h]
  rfl

theorem priQtyToCells_reads (t : RtBSType) (lv : ℕ) (pq : PriQty) (h : Holds q (priQtyBytes pq ++ rest)) :
    ∃ q', priQtyToCells client t lv q = .ok (client.change t lv pq, q') ∧ Holds q' rest := by
  rw [priQtyBytes, append_assoc] at h
  obtain ⟨q₁, hpri, h₁⟩ := decimal_reads (Q := Q) (t := .int64) ⟨priScale, by decide⟩ pq.pri q _ h
  obtain ⟨q₂, hqty, h₂⟩ := int_reads (Q := Q) pq.qty (uint64.cast 0) q₁ rest h₁
  refine ⟨q₂, ?_, h₂⟩
  change bitvToDec .int64 priScale q = _ at hpri
  change bitvToInt .uint64 q₁ _ = _ at hqty
  simp only [priQtyToCells, hpri, hqty, bind, Except.bind, pure, Except.pure]

/-- The client takes a record for the action, the list and the level that it was made for. -/
theorem decodeRecord_of_action {t : RtBSType} {lv : ℕ} (hlv : lv < t.count) (a : RtBSAction) {levels : Levels} {bytes : Bytes}
    (haction : ∀ q : Q, Holds q (bytes ++ rest) → ∃ q', decodeAction client t ⟨lv, hlv⟩ q a = .ok (levels, q') ∧ Holds q' rest)
    (h : Holds q ((t.code ||| UInt8.ofNat lv ||| a.code) :: bytes ++ rest)) :
    ∃ q', decodeRecord client q = .ok (levels, q', true) ∧ Holds q' rest := by
  have hlv16 : lv < 16 := lt_of_lt_of_le hlv (by cases t <;> decide)
  obtain ⟨ht, ha, hl⟩ := bsTypeByte t a ⟨lv, hlv16⟩
  obtain ⟨q₁, hread, h₁⟩ := readOrRaise_reads _ h
  obtain ⟨q', hrun, h'⟩ := haction q₁ h₁
  refine ⟨q', ?_, h'⟩
  rw [decodeRecord, hread]
  dsimp only at ht ha hl hread
  generalize t.code ||| UInt8.ofNat lv ||| a.code = b at *
  subst ht ha hl
  simp only [bind, Except.bind, dif_pos hlv, hrun, pure, Except.pure]

/-- The client reads the record of an entry as the entry. -/
theorem decodeRecord_reads {e : ExgMcI081Entry} {record : Bytes} (hrecord : (i081Entry origDiv book e).2 = some record)
    (h : Holds q (record ++ rest)) :
    ∃ q', decodeRecord client q = .ok (followEntry origDiv book.levels client e, q', true) ∧ Holds q' rest := by
  rw [i081Entry] at hrecord
  rw [followEntry]
  cases ht : entryBSType e.entryType with
  | none =>
    rw [ht] at hrecord
    cases hrecord
  | some t =>
    rw [ht] at hrecord
    dsimp only at hrecord ⊢
    by_cases hlv : e.lv < t.count
    · rw [dif_pos hlv] at hrecord ⊢
      by_cases hdelete : e.updateAction = '2'
      · rw [if_pos hdelete] at hrecord ⊢
        obtain rfl := some.inj hrecord
        exact decodeRecord_of_action hlv .delete (fun q₁ h₁ => ⟨q₁, rfl, h₁⟩) h
      rw [if_neg hdelete] at hrecord ⊢
      by_cases hnew : e.updateAction = '0'
      · rw [if_pos hnew] at hrecord ⊢
        obtain rfl := some.inj hrecord
        exact decodeRecord_of_action hlv .new (fun q₁ h₁ => priQtyToCells_reads t e.lv _ h₁) h
      rw [if_neg hnew] at hrecord ⊢
      by_cases hchange : e.updateAction = '1' ∨ e.updateAction = '5'
      · rw [if_pos hchange] at hrecord ⊢
        by_cases hpri : e.price.assignTo origDiv = (book.levels t ⟨e.lv, hlv⟩).pri
        · rw [if_pos hpri] at hrecord ⊢
          obtain rfl := some.inj hrecord
          refine decodeRecord_of_action hlv .changeQty (fun q₁ h₁ => ?_) h
          obtain ⟨q₂, hqty, h₂⟩ := int_reads (Q := Q) e.qty32 (uint64.cast 0) q₁ rest h₁
          refine ⟨q₂, ?_, h₂⟩
          change bitvToInt .uint64 q₁ _ = _ at hqty
          simp only [decodeAction, hqty, bind, Except.bind, pure, Except.pure]
        · rw [if_neg hpri] at hrecord ⊢
          obtain rfl := some.inj hrecord
          exact decodeRecord_of_action hlv .changePQ (fun q₁ h₁ => priQtyToCells_reads t e.lv _ h₁) h
      · rw [if_neg hchange] at hrecord
        cases hrecord
    · rw [dif_neg hlv] at hrecord
      cases hrecord

/-- An entry without a record leaves the client's levels. -/
theorem followEntry_of_none {e : ExgMcI081Entry} (hrecord : (i081Entry origDiv book e).2 = none) :
    followEntry origDiv book.levels client e = client := by
  rw [i081Entry] at hrecord
  rw [followEntry]
  cases ht : entryBSType e.entryType with
  | none => rfl
  | some t =>
    rw [ht] at hrecord
    dsimp only at hrecord ⊢
    split_ifs at hrecord ⊢
    · rfl
    · rfl

/-- One entry on both sides. -/
def entryStep (origDiv : ℕ) (s : SymbBSData × Levels) (e : ExgMcI081Entry) : SymbBSData × Levels :=
  (updateEntry origDiv s.1 e, followEntry origDiv s.1.levels s.2 e)

/-- The server's levels do not depend on the client's. -/
theorem foldl_entryStep_fst (s : SymbBSData × Levels) (mdEntry : List ExgMcI081Entry) :
    (mdEntry.foldl (entryStep origDiv) s).1 = mdEntry.foldl (updateEntry origDiv) s.1 := by
  induction mdEntry generalizing s with
  | nil => rfl
  | cons e mdEntry ih => exact ih _

theorem foldl_entryStep_of_nil (mdEntry : List ExgMcI081Entry) (h : (i081Entries origDiv book mdEntry).2 = []) :
    (mdEntry.foldl (entryStep origDiv) (book, client)).2 = client := by
  induction mdEntry generalizing book client with
  | nil => rfl
  | cons e mdEntry ih =>
    rw [i081Entries] at h
    obtain ⟨hfirst, hrest⟩ := append_eq_nil_iff.mp h
    have hnone : (i081Entry origDiv book e).2 = none := toList_eq_nil_iff.mp hfirst
    rw [i081Entry_book] at hrest
    rw [foldl_cons, entryStep, followEntry_of_none hnone]
    exact ih hrest

/-- The loop over the records reads the entries. -/
theorem decodeRecords_reads (mdEntry : List ExgMcI081Entry) {n : ℕ} (hn : (i081Entries origDiv book mdEntry).2.length = n + 1)
    (h : Holds q ((i081Entries origDiv book mdEntry).2.flatten ++ rest)) :
    decodeRecords n client q = .ok (mdEntry.foldl (entryStep origDiv) (book, client)).2 := by
  induction mdEntry generalizing book client n q with
  | nil => exact (nomatch hn)
  | cons e mdEntry ih =>
    rw [i081Entries] at hn h
    dsimp only at hn h
    rw [i081Entry_book] at hn h
    rw [foldl_cons, entryStep]
    cases hrecord : (i081Entry origDiv book e).2 with
    | none =>
      rw [hrecord] at hn h
      rw [followEntry_of_none hrecord]
      exact ih hn h
    | some record =>
      rw [hrecord] at hn h
      rw [toList_some, singleton_append] at hn h
      rw [flatten_cons, append_assoc] at h
      obtain ⟨q', hread, h'⟩ : ∃ q', decodeRecord client q = .ok (followEntry origDiv book.levels client e, q', true) ∧
          Holds q' _ := decodeRecord_reads hrecord h
      cases n with
      | zero =>
        have hnil := length_eq_zero_iff.mp (Nat.succ.inj hn)
        rw [foldl_entryStep_of_nil _ hnil]
        simp only [decodeRecords, hread, bind, Except.bind, pure, Except.pure]
      | succ n =>
        simp only [decodeRecords, hread, bind, Except.bind, if_true]
        exact ih (Nat.succ.inj hn) h'

end Records

/-! ### Messages -/

/-- How a message is sent, and its packet received: the number of the market is newer than
the last one of the client, where it is compared. -/
def IsNewer (ctrlFlags : MdSymbsCtrlFlag) (rx : RxSubrData) (tab : BSTab) (pk : ExgMcI081) : Prop :=
  ctrlFlags.hasMarketDataSeq = true → rx.isStreamData = true → rx.isSubrTree = false →
    tab.rtMktSeq.1 < pk.prodMsgSeq.1 ∨ pk.prodMsgSeq.1 = 0

instance (ctrlFlags : MdSymbsCtrlFlag) (rx : RxSubrData) (tab : BSTab) (pk : ExgMcI081) :
    Decidable (IsNewer ctrlFlags rx tab pk) := inferInstanceAs (Decidable (_ → _ → _ → _))

/-- The message is newer, and the short form is right for each of its entries. -/
def MessageOk (ctrlFlags : MdSymbsCtrlFlag) (origDiv : ℕ) (s : SymbBSData × BSTab) (op : RxSubrData × ExgMcI081) : Prop :=
  IsNewer ctrlFlags op.1 s.2 op.2 ∧
    Along (entryStep origDiv) (fun s e => EntryOk origDiv s.1.levels s.2 e)
      ({ s.1 with infoTime := op.2.informationTime, flags := fun _ => false }, s.2.levels) op.2.mdEntry

instance (ctrlFlags : MdSymbsCtrlFlag) (origDiv : ℕ) (s : SymbBSData × BSTab) (op : RxSubrData × ExgMcI081) :
    Decidable (MessageOk ctrlFlags origDiv s op) := inferInstanceAs (Decidable (_ ∧ _))

section Messages

variable {Q : Type} [LawfulDcQueue Q]

/-- A message on the server, and its packet, if there is one, on the client. -/
def messageStep (ctrlFlags : MdSymbsCtrlFlag) (origDiv : ℕ) (rxbuf : Bytes → Q) (s : SymbBSData × BSTab)
    (op : RxSubrData × ExgMcI081) : Except BitvError (SymbBSData × BSTab) :=
  match i081BSParserToRts ctrlFlags origDiv s.1 op.2 with
  | (symbBS, none) => .ok (symbBS, s.2)
  | (symbBS, some rts) => (decodeUpdateBS ctrlFlags op.1 s.2 (rxbuf rts)).map fun tab => (symbBS, tab)

/-- Each message is in order in the state that it comes to. -/
def MessagesOk (ctrlFlags : MdSymbsCtrlFlag) (origDiv : ℕ) (rxbuf : Bytes → Q) :
    SymbBSData × BSTab → List (RxSubrData × ExgMcI081) → Prop
  | _, [] => True
  | s, op :: ops => MessageOk ctrlFlags origDiv s op ∧
      ∀ s', messageStep ctrlFlags origDiv rxbuf s op = .ok s' → MessagesOk ctrlFlags origDiv rxbuf s' ops

variable {q : Q} {ctrlFlags : MdSymbsCtrlFlag} {origDiv : ℕ} {rx : RxSubrData} {tab : BSTab} {symbBS : SymbBSData} {pk : ExgMcI081}
  {rest : Bytes}

theorem isBSMktSeqNewer_reads (hnewer : IsNewer ctrlFlags rx tab pk) (h : Holds q (packMktSeq ctrlFlags pk.prodMsgSeq rest)) :
    ∃ tab' q', isBSMktSeqNewer ctrlFlags rx tab q = .ok (true, tab', q') ∧ tab'.levels = tab.levels ∧ Holds q' rest := by
  rw [packMktSeq] at h
  rw [isBSMktSeqNewer]
  by_cases hseq : ctrlFlags.hasMarketDataSeq = true
  · rw [if_pos hseq, intToBitv_uint32] at h
    obtain ⟨hmin, hmax⟩ := pk.prodMsgSeq.2
    let seq : uint64.Val := ⟨pk.prodMsgSeq.1, hmin, le_trans hmax (by decide)⟩
    obtain ⟨q', hread, h'⟩ := int_reads (Q := Q) seq (uint64.cast 0) q rest h
    change bitvToInt .uint64 q _ = _ at hread
    rw [if_pos hseq]
    by_cases hcompare : rx.isStreamData = true ∧ ¬ rx.isSubrTree = true
    · have hlt := hnewer hseq hcompare.1 (by simpa using hcompare.2)
      refine ⟨{ tab with rtMktSeq := seq, mktSeq := seq.1 }, q', ?_, rfl, h'⟩
      simp only [hread, bind, Except.bind, if_pos hcompare, pure, Except.pure]
      exact if_pos hlt
    · refine ⟨{ tab with mktSeq := seq.1 }, q', ?_, rfl, h'⟩
      simp only [hread, bind, Except.bind, if_neg hcompare, pure, Except.pure]
  · rw [if_neg hseq] at h
    rw [if_neg hseq]
    exact ⟨tab, q, rfl, rfl, h⟩

theorem readChannelSeq_reads {channelSeq : uint64.Val}
    (h : Holds q ((if ctrlFlags.hasChannelSeq then (intToBitv .uint64 channelSeq.1).text else []) ++ rest)) :
    ∃ tab' q', readChannelSeq ctrlFlags tab q = .ok (tab', q') ∧ tab'.levels = tab.levels ∧ Holds q' rest := by
  rw [readChannelSeq]
  by_cases hseq : ctrlFlags.hasChannelSeq = true
  · rw [if_pos hseq] at h
    obtain ⟨q', hread, h'⟩ := int_reads (Q := Q) channelSeq (uint64.cast 0) q rest h
    change bitvToInt .uint64 q _ = _ at hread
    rw [if_pos hseq]
    refine ⟨{ tab with channelSeq := channelSeq.1 }, q', ?_, rfl, h'⟩
    simp only [hread, bind, Except.bind, pure, Except.pure]
  · rw [if_neg hseq] at h
    rw [if_neg hseq]
    exact ⟨tab, q, rfl, rfl, h⟩

/-- What the parser makes of a message: the book of `ExgMdToUpdateBS`, but for the number of
the channel and, without a record, that of the market; and the packet. -/
theorem i081BSParserToRts_cases (ctrlFlags : MdSymbsCtrlFlag) (origDiv : ℕ) (symbBS : SymbBSData) (pk : ExgMcI081) :
    let book := { symbBS with infoTime := pk.informationTime, flags := fun _ => false }
    let updated := exgMdToUpdateBS pk.informationTime pk.mdEntry symbBS origDiv pk.prodMsgSeq
    let records := (i081Entries origDiv book pk.mdEntry).2
    (records = [] ∧ i081BSParserToRts ctrlFlags origDiv symbBS pk = ({ updated with marketSeq := symbBS.marketSeq }, none)) ∨
    (records ≠ [] ∧ ∃ channelSeq, i081BSParserToRts ctrlFlags origDiv symbBS pk = ({ updated with channelSeq := channelSeq },
      some (packMktSeq ctrlFlags pk.prodMsgSeq ((if ctrlFlags.hasChannelSeq then (intToBitv .uint64 pk.channelSeq.1).text else []) ++
        (UInt8.ofNat (records.length - 1) :: records.flatten))))) := by
  dsimp only
  have hbook := i081Entries_book origDiv { symbBS with infoTime := pk.informationTime, flags := fun _ => false } pk.mdEntry
  have hupdated : exgMdToUpdateBS pk.informationTime pk.mdEntry symbBS origDiv pk.prodMsgSeq =
      { pk.mdEntry.foldl (updateEntry origDiv) { symbBS with infoTime := pk.informationTime, flags := fun _ => false } with
        marketSeq := pk.prodMsgSeq } :=
    foldl_updateEntry_marketSeq origDiv { symbBS with infoTime := pk.informationTime, flags := fun _ => false } _ _
  rw [hupdated, ← hbook, i081BSParserToRts]
  dsimp only
  cases hrecords : (i081Entries origDiv { symbBS with infoTime := pk.informationTime, flags := fun _ => false } pk.mdEntry).2 with
  | nil =>
    refine .inl ⟨rfl, ?_⟩
    rw [length_nil, if_pos rfl, hbook]
    exact congrArg (·, none) (foldl_updateEntry_marketSeq origDiv
      { symbBS with infoTime := pk.informationTime, flags := fun _ => false } symbBS.marketSeq pk.mdEntry)
  | cons record records =>
    refine .inr ⟨cons_ne_nil _ _, ?_⟩
    rw [if_neg (by rw [length_cons]; omega)]
    by_cases hseq : ctrlFlags.hasChannelSeq = true
    · rw [if_pos hseq, if_pos hseq]
      exact ⟨pk.channelSeq, rfl⟩
    · rw [if_neg hseq, if_neg hseq]
      exact ⟨_, rfl⟩

/-- The bit of the calculated flag stays clear. -/
theorem countByte : ∀ n : Fin 128, (UInt8.ofNat n.val &&& 0x7f).toNat = n.val := by decide

/-- The client reads a published packet as the message. -/
theorem decodeUpdateBS_reads (hnewer : IsNewer ctrlFlags rx tab pk) {book : SymbBSData} {records : List Bytes}
    (hrecords : (i081Entries origDiv book pk.mdEntry).2 = records) (hne : records ≠ [])
    (h : Holds q (packMktSeq ctrlFlags pk.prodMsgSeq ((if ctrlFlags.hasChannelSeq then (intToBitv .uint64 pk.channelSeq.1).text
      else []) ++ (UInt8.ofNat (records.length - 1) :: records.flatten)))) :
    ∃ tab', decodeUpdateBS ctrlFlags rx tab q = .ok tab' ∧
      tab'.levels = (pk.mdEntry.foldl (entryStep origDiv) (book, tab.levels)).2 := by
  obtain ⟨tab₁, q₁, hread₁, hlevels₁, h₁⟩ := isBSMktSeqNewer_reads hnewer h
  obtain ⟨tab₂, q₂, hread₂, hlevels₂, h₂⟩ := @readChannelSeq_reads Q _ q₁ ctrlFlags tab₁ _ pk.channelSeq h₁
  obtain ⟨q₃, hread₃, h₃⟩ := readOrRaise_reads _ h₂
  have hcount : records.length ≤ 99 := hrecords ▸ (length_i081Entries_le origDiv book pk.mdEntry).trans pk.noMdEntries_le
  have hmask : (UInt8.ofNat (records.length - 1) &&& 0x7f).toNat = records.length - 1 :=
    countByte ⟨records.length - 1, by omega⟩
  have hpos : records.length = records.length - 1 + 1 := by
    have := length_pos_iff.mpr hne
    omega
  subst hrecords
  have hrun := @decodeRecords_reads Q _ q₃ [] tab.levels origDiv book pk.mdEntry _ hpos (by rwa [append_nil])
  refine ⟨{ tab₂ with
    infoTime := rx.seInfoTime
    levels := (pk.mdEntry.foldl (entryStep origDiv) (book, tab.levels)).2 }, ?_, rfl⟩
  simp only [decodeUpdateBS, hread₁, bind, Except.bind, if_true, hread₂, hread₃, hmask, hlevels₂, hlevels₁, hrun, pure, Except.pure]

section

variable {rxbuf : Bytes → Q} (hrx : ∀ bytes, Holds (rxbuf bytes) bytes) {s : SymbBSData × BSTab}
  (h : s.1.levels.Agree s.2.levels)
include hrx h

/-- A message in order keeps the agreement. -/
theorem messageStep_agrees {op : RxSubrData × ExgMcI081} (hok : MessageOk ctrlFlags origDiv s op) :
    ∃ s', messageStep ctrlFlags origDiv rxbuf s op = .ok s' ∧ s'.1.levels.Agree s'.2.levels := by
  obtain ⟨symbBS, tab⟩ := s
  obtain ⟨rx, pk⟩ := op
  obtain ⟨hnewer, hentries⟩ := hok
  let book := { symbBS with infoTime := pk.informationTime, flags := fun _ => false }
  have hagree : (pk.mdEntry.foldl (entryStep origDiv) (book, tab.levels)).1.levels.Agree
      (pk.mdEntry.foldl (entryStep origDiv) (book, tab.levels)).2 :=
    Along.foldl (P := fun s => s.1.levels.Agree s.2) (fun _ _ h hok => (followEntry_agree_iff h).mpr hok) h hentries
  rw [foldl_entryStep_fst] at hagree
  have hlevels := congrArg SymbBSData.levels (foldl_updateEntry_marketSeq origDiv book pk.prodMsgSeq pk.mdEntry)
  rw [messageStep]
  obtain ⟨hnil, hrun⟩ | ⟨hne, channelSeq, hrun⟩ := i081BSParserToRts_cases ctrlFlags origDiv symbBS pk
  · rw [hrun]
    refine ⟨_, rfl, ?_⟩
    rw [foldl_entryStep_of_nil _ hnil, ← hlevels] at hagree
    exact hagree
  · rw [hrun]
    obtain ⟨tab', hread, htab⟩ := decodeUpdateBS_reads hnewer rfl hne (hrx _)
    dsimp only at hread ⊢
    rw [hread]
    refine ⟨_, rfl, ?_⟩
    rw [← htab, ← hlevels] at hagree
    exact hagree

theorem messages_agree (ops : List (RxSubrData × ExgMcI081)) (hok : MessagesOk ctrlFlags origDiv rxbuf s ops) :
    ∃ s', ops.foldlM (messageStep ctrlFlags origDiv rxbuf) s = .ok s' ∧ s'.1.levels.Agree s'.2.levels := by
  induction ops generalizing s with
  | nil => exact ⟨s, rfl, h⟩
  | cons op ops ih =>
    obtain ⟨s₁, hstep, h₁⟩ := messageStep_agrees hrx h hok.1
    obtain ⟨s', hrun, h'⟩ := ih h₁ (hok.2 s₁ hstep)
    refine ⟨s', ?_, h'⟩
    rw [foldlM_cons, hstep]
    exact hrun

end

end Messages

/-- The two routines of the server make the same book; and where the messages are newer, and
no change without a price meets an empty level whose price the client does not have, the
client's levels agree with it after each of them. -/
theorem orderBook_replicated {Q : Type} [LawfulDcQueue Q] (ctrlFlags : MdSymbsCtrlFlag) (origDiv : ℕ) (rxbuf : Bytes → Q)
    (hrx : ∀ bytes, Holds (rxbuf bytes) bytes) :
    (∀ (symbBS : SymbBSData) (pk : ExgMcI081),
      let after := i081BSParserToRts ctrlFlags origDiv symbBS pk
      let updated := exgMdToUpdateBS pk.informationTime pk.mdEntry symbBS origDiv pk.prodMsgSeq
      after.1.levels = updated.levels ∧ after.1.infoTime = updated.infoTime ∧ after.1.flags = updated.flags ∧
        (after.2 ≠ none → after.1.marketSeq = updated.marketSeq)) ∧
    ∀ (symbBS : SymbBSData) (tab : BSTab) (ops : List (RxSubrData × ExgMcI081)), symbBS.levels.Agree tab.levels →
      MessagesOk ctrlFlags origDiv rxbuf (symbBS, tab) ops →
        ∃ s', ops.foldlM (messageStep ctrlFlags origDiv rxbuf) (symbBS, tab) = .ok s' ∧ s'.1.levels.Agree s'.2.levels := by
  constructor
  · intro symbBS pk
    obtain ⟨-, hrun⟩ | ⟨-, channelSeq, hrun⟩ := i081BSParserToRts_cases ctrlFlags origDiv symbBS pk
    · rw [hrun]
      exact ⟨rfl, rfl, rfl, fun hne => absurd rfl hne⟩
    · rw [hrun]
      exact ⟨rfl, rfl, rfl, fun _ => rfl⟩
  · intro symbBS tab ops h hok
    exact messages_agree hrx h ops hok

/-- The book and the tab of a symbol before the first message. -/
def emptyBook : SymbBSData := ⟨0, fun _ _ => {}, fun _ => false, IntType.uint32.cast 0, IntType.uint64.cast 0⟩

def emptyTab : BSTab := ⟨0, 0, 0, IntType.uint64.cast 0, fun _ _ => nullPQ⟩

/-- Two new buys, the second behind its first place changed in its quantity, the first
deleted, and a derived sell at a negative price. -/
theorem orderBook_replicated_fiveEntries :
    ∃ s', [(⟨true, false, 1⟩, ⟨1, IntType.uint64.cast 8, IntType.uint32.cast 3,
        [⟨'0', '0', ⟨'0', 100⟩, 5, 1⟩, ⟨'0', '0', ⟨'0', 101⟩, 2, 1⟩, ⟨'1', '0', ⟨'0', 100⟩, 4, 2⟩, ⟨'2', '0', ⟨'0', 0⟩, 0, 1⟩,
          ⟨'5', 'F', ⟨'-', 7⟩, 1, 1⟩], by decide⟩)].foldlM
          (messageStep ⟨true, true⟩ 10000 (id : Bytes → Bytes)) (emptyBook, emptyTab) = .ok s' ∧
      s'.1.levels.Agree s'.2.levels :=
  (orderBook_replicated ⟨true, true⟩ 10000 id fun _ => rfl).2 emptyBook emptyTab _ (fun _ _ => PriQty.zero_agrees_null)
    ⟨by decide, fun _ _ => trivial⟩

/-- The derived buy is overlaid with price zero and quantity 7: the server finds the price
unchanged, and the client's price stays null. -/
theorem not_orderBook_replicated :
    ¬ ∀ (ctrlFlags : MdSymbsCtrlFlag) (origDiv : ℕ) (symbBS : SymbBSData) (tab : BSTab) (rx : RxSubrData) (pk : ExgMcI081),
      symbBS.levels.Agree tab.levels → IsNewer ctrlFlags rx tab pk →
        ∃ s', messageStep ctrlFlags origDiv (id : Bytes → Bytes) (symbBS, tab) (rx, pk) = .ok s' ∧
          s'.1.levels.Agree s'.2.levels := by
  intro h
  obtain ⟨s', hrun, hagree⟩ := h ⟨true, true⟩ 10000 emptyBook emptyTab ⟨true, false, 1⟩
    ⟨1, IntType.uint64.cast 8, IntType.uint32.cast 3, [⟨'5', 'E', ⟨'0', 0⟩, 7, 1⟩], by decide⟩
    (fun _ _ => PriQty.zero_agrees_null) (by decide)
  have hlevels : (messageStep ⟨true, true⟩ 10000 (id : Bytes → Bytes) (emptyBook, emptyTab)
      (⟨true, false, 1⟩, ⟨1, IntType.uint64.cast 8, IntType.uint32.cast 3, [⟨'5', 'E', ⟨'0', 0⟩, 7, 1⟩], by decide⟩)).toOption.map
        (fun s => (s.1.levels .derivedBuy ⟨0, by decide⟩, s.2.levels .derivedBuy ⟨0, by decide⟩)) =
      some (⟨IntType.int64.cast 0, IntType.uint64.cast 7⟩, ⟨IntType.int64.cast (origNull .int64), IntType.uint64.cast 7⟩) := by
    decide
  rw [hrun] at hlevels
  obtain ⟨hserver, hclient⟩ := Prod.mk.inj (Option.some.inj hlevels)
  have hlevel := hagree .derivedBuy ⟨0, by decide⟩
  rw [hserver, hclient] at hlevel
  revert hlevel
  decide

end Fon9.Rts
