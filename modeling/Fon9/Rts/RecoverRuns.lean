import Fon9.Rts.RecoverPackets

/-! The firings of the recover timer, from the subscription to the end of the recovery. -/

namespace Fon9.Rts

open Lib Buffer Bitv List TimeInterval Bool Nat

variable {args : RecoverArgs} {recs whole pks pks' b : List MdRtsPk} {bs : List (List MdRtsPk)} {w w' : RecoverWork}
  {pk : MdRtsPk} {pos m n calls fuel : ℕ} {tm : DayTime}

/-! ### Blocks -/

/-- The rest of a block passes. -/
theorem BatchesPass.shorten (hpass : BatchesPass args calls m b pks) :
    BatchesPass args calls (min m (recordsSize pks)) b pks := by
  induction pks generalizing calls m b with
  | nil => trivial
  | cons pk pks ih =>
    rw [BatchesPass] at hpass ⊢
    have hsub : min m (recordsSize (pk :: pks)) - pk.recordSize = min (m - pk.recordSize) (recordsSize pks) := by
      rw [recordsSize_cons]
      omega
    rw [hsub]
    by_cases hwhole : pk.recordSize ≤ m
    · rw [if_pos hwhole] at hpass
      rw [if_pos (by rw [recordsSize_cons]; omega)]
      split at hpass
      · next hsel =>
        rw [if_pos hsel]
        split at hpass
        · next hmany =>
          rw [if_pos hmany]
          exact ⟨hpass.1, fun hanswer => ih (hpass.2 hanswer)⟩
        · next hfew =>
          rw [if_neg hfew]
          exact ih hpass
      · next hsel =>
        rw [if_neg hsel]
        exact ih hpass
    · rw [if_neg hwhole] at hpass
      rw [if_neg (by omega)]
      exact hpass

theorem StartPasses.shorten (hpass : StartPasses args tm calls m pks) : StartPasses args tm calls (min m (recordsSize pks)) pks := by
  induction pks generalizing m with
  | nil => trivial
  | cons pk pks ih =>
    rw [StartPasses] at hpass ⊢
    by_cases hwhole : pk.recordSize ≤ m
    · have hsub : min m (recordsSize (pk :: pks)) - pk.recordSize = min (m - pk.recordSize) (recordsSize pks) := by
        rw [recordsSize_cons]
        omega
      have hwhole' : pk.recordSize ≤ min m (recordsSize (pk :: pks)) := by
        rw [recordsSize_cons]
        omega
      rw [if_pos hwhole] at hpass
      rw [if_pos hwhole']
      split at hpass
      · next hstarts =>
        rw [if_pos hstarts]
        exact hpass.shorten
      · next hstarts =>
        rw [if_neg hstarts, hsub]
        exact ih hpass
    · have hwhole' : ¬ pk.recordSize ≤ min m (recordsSize (pk :: pks)) := by omega
      rw [if_neg hwhole] at hpass
      rw [if_neg hwhole']
      exact hpass

/-- What is gathered at the end of a block is sent through, or the storage is at its end. -/
def EndPasses (args : RecoverArgs) (pks b : List MdRtsPk) : Prop := pks = [] ∨ b = [] ∨ Passes args b

/-- A call was refused, and what it had is to be read again. -/
def WentBack (args : RecoverArgs) (recs whole : List MdRtsPk) (n calls : ℕ) (w : RecoverWork) : Prop :=
  (∃ back, Resting args recs whole w.recover w.subr back ∧ back.length ≤ n) ∧ Refused args calls w.subr

/-- A block from a packet on that is to be recovered. -/
theorem packetLoop_batching (h : Batching args recs whole n pks w bs b) (hat : At recs pos pks) (hn : pks.length ≤ n)
    (hpass : BatchesPass args w.subr.calls m b pks) :
    (∃ w', packetLoop args pos m pks w = (w', none) ∧ WentBack args recs whole n w.subr.calls w') ∨
    (∃ w' pos' m' pks' bs' b', packetLoop args pos m pks w = (w', some (pos', m', pks')) ∧
      Batching args recs whole n pks' w' bs' b' ∧ EndPasses args pks' b' ∧ w.subr.calls ≤ w'.subr.calls) := by
  induction pks generalizing pos m w bs b with
  | nil => exact .inr ⟨w, pos, m, [], bs, b, rfl, h, .inl rfl, le_rfl⟩
  | cons pk pks ih =>
    rw [BatchesPass] at hpass
    rw [packetLoop]
    have hn' : pks.length ≤ n := le_trans (le_succ _) hn
    by_cases hwhole : pk.recordSize ≤ m
    · rw [if_pos hwhole] at hpass ⊢
      split at hpass
      · next hsel =>
        split at hpass
        · next hmany =>
          rcases h.send hat hn hsel hmany hpass.1 with
            ⟨hanswer, w₁, hpacket, h₁, hcalls⟩ | ⟨hanswer, w₁, back, hpacket, hresting, hback, hcalls⟩
          · rw [hpacket]
            rcases ih h₁ hat.next hn' (by rw [hcalls]; exact hpass.2 hanswer) with
              ⟨w', hloop, hback, c, hc, hc', hforced⟩ | ⟨w', pos', m', pks', bs', b', hloop, h', hend, hle⟩
            · exact .inl ⟨w', hloop, hback, c, by omega, hc', hforced⟩
            · exact .inr ⟨w', pos', m', pks', bs', b', hloop, h', hend, by omega⟩
          · rw [hpacket]
            exact .inl ⟨w₁, rfl, ⟨back, hresting, hback⟩, w.subr.calls, le_rfl, by omega, hanswer⟩
        · next hfew =>
          obtain ⟨w₁, hpacket, h₁, hsubr⟩ := h.join hat hn hsel hfew
          rw [hpacket, ← hsubr]
          exact ih h₁ hat.next hn' (by rw [hsubr]; exact hpass)
      · next hsel =>
        obtain ⟨w₁, hpacket, h₁, hsubr⟩ := @Batching.skip _ _ _ _ _ _ _ _ pos _ h hsel
        rw [hpacket, ← hsubr]
        exact ih h₁ hat.next hn' (by rw [hsubr]; exact hpass)
    · rw [if_neg hwhole] at hpass ⊢
      exact .inr ⟨w, pos, m, pk :: pks, bs, b, rfl, h, .inr hpass, le_rfl⟩

/-- The first packet to be recovered. -/
theorem Scanning.start (h : Scanning args recs whole tm (pk :: pks) w) (hstarts : starts args tm pk = true) :
    w.onPacket args pos pk.rtsKind pk.packed pk.data =
      RecoverWork.onPacket args { w with recover := { w.recover with isStarted := true } } pos pk.rtsKind pk.packed pk.data ∧
    Batching args recs whole n (pk :: pks) { w with recover := { w.recover with isStarted := true } } [] [] := by
  have hall := h.all
  rw [dropWhile_cons_of_neg (by simp [hstarts])] at hall
  constructor
  · have hcheck : w.recover.check args pk = MdRtRecover.check args { w.recover with isStarted := true } pk := by
      simp [MdRtRecover.check, h.startInfoTime, hstarts]
    rw [onPacket_data, onPacket_data]
    dsimp only
    rw [hcheck]
  · exact ⟨rfl, h.endPos, h.notifyKind, h.cacheGV, h.streamDataKind, h.taken, hall, fun hne => absurd rfl hne⟩

/-- A packet before it. -/
theorem Scanning.skip (h : Scanning args recs whole tm (pk :: pks) w) (hstarts : ¬ starts args tm pk = true) :
    ∃ w', w.onPacket args pos pk.rtsKind pk.packed pk.data = (w', false) ∧ Scanning args recs whole tm pks w' ∧
      w'.subr = w.subr := by
  have hfalse : (w.recover.check args pk).isStarted = false := by
    simp [MdRtRecover.check, h.isStarted, h.startInfoTime, hstarts]
  have hall := h.all
  have hrest := h.rest
  rw [dropWhile_cons_of_pos (by simp [hstarts])] at hall hrest
  refine ⟨{ w with recover := w.recover.check args pk }, ?_, ?_, rfl⟩
  · rw [onPacket_data, if_neg (by rw [hfalse]; simp)]
  · exact ⟨hfalse, h.startInfoTime, h.endPos, h.notifyKind, h.cacheGV, h.streamDataKind, h.taken, hrest, hall⟩

/-- A block, before the first packet to be recovered. -/
theorem packetLoop_scanning (h : Scanning args recs whole tm pks w) (hat : At recs pos pks) (hn : pks.length ≤ n)
    (hsize : ∀ pk ∈ pks, pk.recordSize ≤ rdbufSize) (hpass : StartPasses args tm w.subr.calls m pks) :
    (∃ w', packetLoop args pos m pks w = (w', none) ∧ WentBack args recs whole n w.subr.calls w') ∨
    (∃ w' pos' m' pks' bs' b', packetLoop args pos m pks w = (w', some (pos', m', pks')) ∧
      Batching args recs whole n pks' w' bs' b' ∧ EndPasses args pks' b' ∧ w.subr.calls ≤ w'.subr.calls) ∨
    (∃ w' pos' m' pks', packetLoop args pos m pks w = (w', some (pos', m', pks')) ∧
      Scanning args recs whole tm pks' w' ∧ StartPasses args tm w.subr.calls rdbufSize pks' ∧ w'.subr = w.subr) := by
  induction pks generalizing pos m w with
  | nil => exact .inr (.inr ⟨w, pos, m, [], rfl, h, trivial, rfl⟩)
  | cons pk pks ih =>
    rw [StartPasses] at hpass
    by_cases hwhole : pk.recordSize ≤ m
    · rw [if_pos hwhole] at hpass
      split at hpass
      · next hstarts =>
        obtain ⟨hpacket, hbatching⟩ := @Scanning.start _ _ _ _ _ _ pos n _ h hstarts
        have hsame : packetLoop args pos m (pk :: pks) w =
            packetLoop args pos m (pk :: pks) { w with recover := { w.recover with isStarted := true } } := by
          rw [packetLoop, packetLoop, if_pos hwhole, if_pos hwhole, hpacket]
        rw [hsame]
        rcases packetLoop_batching hbatching hat hn hpass with hrefused | hdone
        · exact .inl hrefused
        · exact .inr (.inl hdone)
      · next hstarts =>
        obtain ⟨w₁, hpacket, h₁, hsubr⟩ := @Scanning.skip _ _ _ _ _ _ pos _ h hstarts
        rw [packetLoop, if_pos hwhole, hpacket, ← hsubr]
        exact ih h₁ hat.next (le_trans (le_succ _) hn) (fun pk hpk => hsize pk (mem_cons_of_mem _ hpk))
          (by rw [hsubr]; exact hpass)
    · rw [packetLoop, if_neg hwhole]
      refine .inr (.inr ⟨w, pos, m, pk :: pks, rfl, h, ?_, rfl⟩)
      rw [if_neg hwhole] at hpass
      rw [StartPasses, if_pos (hsize pk mem_cons_self)]
      exact hpass

theorem length_le_recordsSize (pks : List MdRtsPk) : pks.length ≤ recordsSize pks := by
  induction pks with
  | nil => exact le_rfl
  | cons pk pks ih =>
    have := pk.lt_recordSize
    rw [length_cons, recordsSize_cons]
    omega

/-- What a firing has before its last notification. -/
inductive BlocksEnd (args : RecoverArgs) (recs whole : List MdRtsPk) (tm : DayTime) (n calls : ℕ) : RecoverWork × Option ℕ → Prop
  | back {w : RecoverWork} (h : WentBack args recs whole n calls w) : BlocksEnd args recs whole tm n calls (w, none)
  | here {w : RecoverWork} {pos : ℕ} {pks : List MdRtsPk} {bs : List (List MdRtsPk)} {b : List MdRtsPk}
      (h : Batching args recs whole n pks w bs b) (hpos : At recs pos pks) (hlast : w.recover.lastPos = pos)
      (hend : EndPasses args pks b) (hcalls : calls ≤ w.subr.calls) (hless : pks = [] ∨ pks.length < n) :
      BlocksEnd args recs whole tm n calls (w, some pos)
  | none {w : RecoverWork} {pos : ℕ} (h : Scanning args recs whole tm [] w) (hpos : At recs pos [])
      (hcalls : calls ≤ w.subr.calls) (hanswer : TimeInterval.isForced (args.answer w.subr.calls) = false) :
      BlocksEnd args recs whole tm n calls (w, some pos)

variable (hstored : Stored args recs)
include hstored

/-- The first record of a block is whole. -/
theorem first_whole (hat : At recs pos pks) : ∀ pk ∈ pks.head?, pk.recordSize ≤ min rdbufSize (recordsSize pks) := by
  intro pk hpk
  cases pks with
  | nil => cases hpk
  | cons pk' pks =>
    cases hpk
    have := hat.sizes hstored.sizes pk mem_cons_self
    rw [recordsSize_cons]
    omega

/-- A block goes on from where the block before it ended. -/
theorem blockLoop_batching (h : Batching args recs whole pks.length pks w bs []) (hat : At recs pos pks)
    (hlast : w.recover.lastPos = pos) (hpass : BatchesPass args w.subr.calls rdbufSize [] pks) :
    BlocksEnd args recs whole tm pks.length w.subr.calls (blockLoop args (fuel + 1) [] pos w) := by
  by_cases hne : pks = []
  · subst hne
    have hend : blockLoop args (fuel + 1) [] pos w = (w, some pos) := @blockLoop_end args pos fuel w recs 0 hat h.endPos le_rfl
    rw [hend]
    exact .here h hat hlast (Or.inl rfl) le_rfl (Or.inl rfl)
  show BlocksEnd args recs whole tm pks.length w.subr.calls (blockLoop args (fuel + 1) ((records pos pks).take 0) (pos + 0) w)
  rw [blockLoop_block hstored hat hne h.endPos fun pk _ => lt_of_le_of_lt (Nat.zero_le _) pk.lt_recordSize]
  rcases packetLoop_batching h hat le_rfl hpass.shorten with
    ⟨w', hloop, hback⟩ | ⟨w', pos', m', pks', bs', b', hloop, h', hend, hcalls⟩
  · rw [hloop]
    exact .back hback
  · have hleft := packetLoop_left hat (Nat.min_le_right _ _) hloop
    have hless := hleft.progress (first_whole hstored hat) hne
    rw [hloop]
    dsimp only
    rw [if_pos h'.isStarted]
    refine .here ⟨h'.isStarted, h'.endPos, h'.notifyKind, h'.cacheGV, h'.streamDataKind, h'.taken, h'.all, h'.back⟩
      hleft.here rfl hend hcalls (Or.inr hless)

/-- Blocks, until the one with the first packet to be recovered. -/
theorem blockLoop_scanning {c : ℕ} (hfuel : pks.length < fuel) (hn : pks.length < n) (h : Scanning args recs whole tm pks w)
    (hat : At recs pos pks) (hcut : ∀ pk ∈ pks.head?, c < pk.recordSize) (hc : c ≤ recordsSize pks)
    (hpass : StartPasses args tm w.subr.calls rdbufSize pks)
    (hnone : (recs.dropWhile fun pk => !starts args tm pk) = [] → isForced (args.answer w.subr.calls) = false) :
    BlocksEnd args recs whole tm n w.subr.calls (blockLoop args fuel ((records pos pks).take c) (pos + c) w) := by
  induction fuel generalizing pks pos c w with
  | zero => exact absurd hfuel (Nat.not_lt_zero _)
  | succ fuel ih =>
    by_cases hne : pks = []
    · subst hne
      rw [blockLoop_end hat h.endPos hc]
      exact .none h hat le_rfl (hnone h.rest.symm)
    rw [blockLoop_block hstored hat hne h.endPos hcut]
    rcases packetLoop_scanning h hat le_rfl (hat.sizes hstored.sizes) hpass.shorten with
      ⟨w', hloop, ⟨back, hresting, hback⟩, hrefused⟩ | ⟨w', pos', m', pks', bs', b', hloop, h', hend, hcalls⟩ |
      ⟨w', pos', m', pks', hloop, h', hpass', hsubr⟩
    · rw [hloop]
      exact .back ⟨⟨back, hresting, by omega⟩, hrefused⟩
    · have hleft := packetLoop_left hat (Nat.min_le_right _ _) hloop
      have hlength := hleft.length
      rw [hloop]
      dsimp only
      rw [if_pos h'.isStarted]
      refine .here ⟨h'.isStarted, h'.endPos, h'.notifyKind, h'.cacheGV, h'.streamDataKind, h'.taken, h'.all, fun hne => ?_⟩
        hleft.here rfl hend hcalls (.inr (by omega))
      obtain ⟨back, hhere, hsame, hback⟩ := h'.back hne
      exact ⟨back, hhere, hsame, by omega⟩
    · have hleft := packetLoop_left hat (Nat.min_le_right _ _) hloop
      have hless := hleft.progress (first_whole hstored hat) hne
      rw [hloop]
      dsimp only
      rw [if_neg (by rw [h'.isStarted]; exact Bool.false_ne_true), ← hsubr]
      exact ih (by omega) (by omega) h' hleft.here hleft.cut hleft.short (by rw [hsubr]; exact hpass') (by rw [hsubr]; exact hnone)

omit hstored

/-! ### One firing -/

/-- The recovery has come to its end: all has been taken, the last of it with the end. -/
def Ended (whole : List MdRtsPk) (subr : MdRtSubr) : Prop :=
  ∃ (bs : List (List MdRtsPk)) (b : List MdRtsPk),
    subr.taken = (bs.map fun b => (NotifyKind.streamRecover, packAll b)) ++ [(.streamRecoverEnd, packAll b)] ∧
      bs.flatten ++ b = whole

/-- What a firing comes to: the timer runs again, with less to be recovered or after a
refusal, or the recovery is at its end. -/
inductive Fired (args : RecoverArgs) (recs whole : List MdRtsPk) (n calls : ℕ) : RecoverWork × Bool → Prop
  | again {w : RecoverWork} {back : List MdRtsPk} (h : Resting args recs whole w.recover w.subr back) (hcalls : calls ≤ w.subr.calls)
      (hless : back.length < n ∨ back.length ≤ n ∧ Refused args calls w.subr) : Fired args recs whole n calls (w, true)
  | done {w : RecoverWork} (h : Ended whole w.subr) : Fired args recs whole n calls (w, false)

theorem finish_of_not_forced (h : isForced w.nargs.flowControlWait = false) :
    w.finish = (w, decide (w.nargs.notifyKind ≠ .streamRecoverEnd)) := by
  rw [RecoverWork.finish]
  by_cases hnull : isNullOrZero w.nargs.flowControlWait = true
  · rw [if_pos hnull]
  · have hpositive : ¬ w.nargs.flowControlWait.1 < 0 := by
      simpa [isForced, hnull] using h
    rw [if_neg hnull, if_neg hpositive]

/-- Where what was sent is refused, the next firing begins with the first packet of it. -/
theorem finish_of_forced (h : isForced w.nargs.flowControlWait = true)
    (hback : ¬ (w.nargs.notifyKind = .streamRecoverEnd ∧ w.nargs.cacheGV = [])) :
    w.finish = ({ w with recover := w.recover.setLastPos w.nargs.pos }, true) := by
  rw [isForced, and_eq_true, not_eq_true', decide_eq_true_iff] at h
  rw [RecoverWork.finish, if_neg (by rw [h.1]; exact Bool.false_ne_true), if_pos h.2]
  dsimp only
  rw [if_neg hback]

/-- Where that is the end alone, it begins with the end. -/
theorem finish_of_forced_end (h : isForced w.nargs.flowControlWait = true)
    (hend : w.nargs.notifyKind = .streamRecoverEnd ∧ w.nargs.cacheGV = []) :
    w.finish = ({ w with recover := w.recover.setLastPos w.recover.endPos }, true) := by
  rw [isForced, and_eq_true, not_eq_true', decide_eq_true_iff] at h
  rw [RecoverWork.finish, if_neg (by rw [h.1]; exact Bool.false_ne_true), if_pos h.2]
  dsimp only
  rw [if_pos hend]

theorem strToMdRtsKind_passes_full (kinds : MdRtsKind) : isEnumContainsAny (strToMdRtsKind kinds) mdRtsKind_Full = true := by
  have hall : strToMdRtsKind kinds &&& mdRtsKind_Full = strToMdRtsKind kinds := BitVec.and_allOnes
  rw [isEnumContainsAny, hall, strToMdRtsKind]
  split
  · decide
  · next hne => simpa using hne

/-- The last notification is the end. -/
def RecoverWork.setEnd (w : RecoverWork) : RecoverWork :=
  { w with nargs := { w.nargs with notifyKind := .streamRecoverEnd, streamDataKind := mdRtsKind_Full } }

theorem notify_setEnd (w : RecoverWork) :
    w.setEnd.notify args =
      { w.setEnd with
        nargs := { w.setEnd.nargs with flowControlWait := args.answer w.subr.calls }
        subr := {
          calls := w.subr.calls + 1
          taken := if isForced (args.answer w.subr.calls) = true then w.subr.taken
            else w.subr.taken ++ [(.streamRecoverEnd, w.nargs.cacheGV)] } } :=
  notify_passes (strToMdRtsKind_passes_full args.rtArgs)

/-- The end of the storage is reached. -/
theorem finish_end (h : Batching args recs whole n [] w bs b) (hle : calls ≤ w.subr.calls) :
    Fired args recs whole n calls (w.setEnd.notify args).finish := by
  have hall := h.all
  rw [show selected args [] = [] from rfl, append_nil] at hall
  cases hforced : isForced (args.answer w.subr.calls) with
  | false =>
    rw [finish_of_not_forced (by rw [notify_setEnd]; exact hforced), notify_setEnd, hforced]
    refine .done ⟨bs, b, ?_, hall⟩
    dsimp only
    rw [if_neg Bool.false_ne_true, h.taken, h.cacheGV]
  | true =>
    have hanswer : isForced (w.setEnd.notify args).nargs.flowControlWait = true := by
      rw [notify_setEnd]
      exact hforced
    have hrefused : Refused args calls ⟨w.subr.calls + 1, w.subr.taken⟩ := ⟨w.subr.calls, hle, lt_succ_self _, hforced⟩
    by_cases hb : b = []
    · have hend : At recs (recordsSize recs) [] := ⟨recs, (append_nil _).symm, rfl⟩
      have hnil : w.nargs.cacheGV = [] := by
        rw [h.cacheGV, hb]
        rfl
      rw [finish_of_forced_end hanswer (by rw [notify_setEnd]; exact ⟨rfl, hnil⟩), notify_setEnd, hforced]
      rw [hb, append_nil] at hall
      rw [← h.endPos] at hend
      refine @Fired.again _ _ _ _ _ _ [] ⟨h.isStarted, h.endPos, hend, bs, h.taken, ?_⟩ (le_succ_of_le hle)
        (Or.inr ⟨Nat.zero_le _, hrefused⟩)
      rw [show selected args [] = [] from rfl, append_nil]
      exact hall
    · obtain ⟨back, hhere, hsame, hback⟩ := h.back hb
      have hne : w.nargs.cacheGV ≠ [] := by
        rw [h.cacheGV]
        exact fun hnil => hb (packAll_eq_nil.mp hnil)
      rw [finish_of_forced hanswer (by rw [notify_setEnd]; exact fun hand => hne hand.2), notify_setEnd, hforced]
      refine @Fired.again _ _ _ _ _ _ back ⟨h.isStarted, h.endPos, hhere, bs, h.taken, ?_⟩ (le_succ_of_le hle)
        (.inr ⟨hback, hrefused⟩)
      rw [hsame, ← append_assoc]
      exact h.all

/-- There is more in the storage. -/
theorem finish_more (h : Batching args recs whole n pks w bs b) (hlast : At recs w.recover.lastPos pks) (hb : b ≠ [])
    (hpass : Passes args b) (hle : calls ≤ w.subr.calls) (hless : pks.length < n) :
    Fired args recs whole n calls (w.notify args).finish := by
  have hkinds := (kindsOf_passes b).mpr hpass
  rw [← h.streamDataKind] at hkinds
  have hkind : w.nargs.notifyKind ≠ .streamRecoverEnd := by
    rw [h.notifyKind]
    decide
  cases hforced : isForced (args.answer w.subr.calls) with
  | false =>
    rw [finish_of_not_forced (by rw [notify_passes hkinds]; exact hforced), notify_passes hkinds, hforced]
    dsimp only
    rw [decide_eq_true hkind]
    refine @Fired.again _ _ _ _ _ _ pks ⟨h.isStarted, h.endPos, hlast, bs ++ [b], ?_, ?_⟩ (le_succ_of_le hle) (.inl hless)
    · rw [if_neg Bool.false_ne_true, h.notifyKind, h.cacheGV]
      exact h.taken.concat _ _
    · rw [flatten_append, flatten_singleton]
      exact h.all
  | true =>
    obtain ⟨back, hhere, hsame, hback⟩ := h.back hb
    rw [finish_of_forced (by rw [notify_passes hkinds]; exact hforced)
      (by rw [notify_passes hkinds]; exact fun hand => hkind hand.1), notify_passes hkinds, hforced]
    refine @Fired.again _ _ _ _ _ _ back ⟨h.isStarted, h.endPos, hhere, bs, h.taken, ?_⟩ (le_succ_of_le hle)
      (.inr ⟨hback, w.subr.calls, hle, lt_succ_self _, hforced⟩)
    rw [hsame, ← append_assoc]
    exact h.all

/-- The notification at the end of a firing. -/
theorem fired_of_blocksEnd {recover : MdRtRecover} {subr : MdRtSubr}
    (h : BlocksEnd args recs whole tm n subr.calls (blockLoop args (recover.endPos + 1) []
      (if recover.isStarted then recover.lastPos else 0)
      ⟨recover, { pos := if recover.isStarted then recover.lastPos else 0 }, subr⟩)) :
    Fired args recs whole n subr.calls (onTimer args recover subr) := by
  rw [onTimer]
  dsimp only
  generalize blockLoop args (recover.endPos + 1) [] (if recover.isStarted then recover.lastPos else 0)
    ⟨recover, { pos := if recover.isStarted then recover.lastPos else 0 }, subr⟩ = r at h ⊢
  cases h with
  | @back w hback =>
    obtain ⟨⟨back, hresting, hlen⟩, c, hc, hc', hforced⟩ := hback
    exact .again hresting (by omega) (.inr ⟨hlen, c, hc, hc', hforced⟩)
  | @here w pos pks bs b hb hpos hlast hend hcalls hless =>
    have hposEnd := hpos.endPos
    dsimp only
    by_cases hnil : pks = []
    · subst hnil
      have hreach : pos ≥ w.recover.endPos := by
        rw [hb.endPos, ← hposEnd]
        exact le_rfl
      rw [if_pos hreach]
      exact finish_end hb hcalls
    · have hlen := length_le_recordsSize pks
      have hne : 0 < pks.length := length_pos_iff.mpr hnil
      rw [if_neg (by rw [hb.endPos]; omega)]
      have hless' := hless.resolve_left hnil
      by_cases hgv : w.nargs.cacheGV = []
      · rw [if_pos hgv]
        have hbnil : b = [] := packAll_eq_nil.mp (by rw [← hb.cacheGV]; exact hgv)
        have hall := hb.all
        rw [hbnil, append_nil] at hall
        exact .again ⟨hb.isStarted, hb.endPos, by rw [hlast]; exact hpos, bs, hb.taken, hall⟩ hcalls (.inl hless')
      · rw [if_neg hgv]
        have hbne : b ≠ [] := by
          rintro rfl
          exact hgv hb.cacheGV
        exact finish_more hb (by rw [hlast]; exact hpos) hbne ((hend.resolve_left hnil).resolve_left hbne) hcalls hless'
  | @none w pos hscan hpos hcalls hanswer =>
    have hposEnd := hpos.endPos
    have hall := hscan.all
    have hreach : pos ≥ w.recover.endPos := by
      rw [hscan.endPos, ← hposEnd]
      exact le_rfl
    dsimp only
    rw [if_pos hreach]
    show Fired args recs whole n subr.calls (w.setEnd.notify args).finish
    rw [finish_of_not_forced (by rw [notify_setEnd]; exact hanswer), notify_setEnd, hanswer]
    refine .done ⟨[], [], ?_, hall⟩
    dsimp only
    rw [if_neg Bool.false_ne_true, hscan.taken, hscan.cacheGV]
    rfl

end Fon9.Rts
