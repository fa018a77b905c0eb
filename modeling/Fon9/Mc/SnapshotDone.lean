import Fon9.Mc.SeqReset

/-! The snapshot of a market is done when the basic information has come round and a round of
snapshots is complete, whichever is last. It is told once, and the real time channel waits until then:
the messages that come before are held back. -/

namespace Fon9.PkCont.Derived

variable {D Pk : Type*} {on : OnReceived D Pk} {P : D → Prop} (hon : ∀ d f pk seq, P d → P (on d f pk seq).1)
  (cfg : Config) {s : D × PkContFeeder Pk}

include hon

/-! What each call of `PkContOnReceived` keeps, the feeder keeps. -/

theorem keeps_drain {pks : List (PkRec Pk)} (h : P s.1) : P (drain on cfg s pks).1 := by
  induction pks generalizing s with
  | nil => exact h
  | cons i rest ih =>
    rw [drain]
    dsimp only
    split_ifs
    · exact h
    · exact ih (hon _ _ _ _ h)

theorem keeps_feedPacket (pk : Pk) (seq : ℕ) (h : P s.1) : P (feedPacket on cfg s pk seq).1 := by
  have hreceived : P (pkReceived on cfg s pk seq).1 := keeps_drain hon cfg (hon _ _ _ _ h)
  rw [feedPacket]
  split_ifs <;> assumption

theorem keeps_pkContOnTimer (h : P s.1) : P (pkContOnTimer on cfg s).1 := by
  exact List.foldlRecOn (motive := fun s : D × PkContFeeder Pk => P s.1) _ _ h fun s h i _ => hon _ _ _ _ h

theorem keeps_recoverLoop (endSeq : ℕ) (again : Bool) {pks : List (PkRec Pk)} (h : P s.1) :
    P (recoverLoop on cfg endSeq again s pks).1.1 := by
  induction pks generalizing again s with
  | nil => exact h
  | cons i rest ih =>
    rw [recoverLoop]
    split_ifs
    · exact ih true (hon _ _ _ _ h)
    · exact ih true (hon _ _ _ _ h)
    · exact h

theorem keeps_onRecoverErr (isNoRecover : Bool) (endSeq : ℕ) (h : P s.1) : P (onRecoverErr on cfg isNoRecover endSeq s).1 := by
  have hloop : P (recoverLoop on cfg endSeq false s s.2.pkPendings).1.1 := keeps_recoverLoop hon cfg endSeq false h
  rw [onRecoverErr]
  split_ifs
  · exact h
  · exact keeps_pkContOnTimer hon cfg h
  · split
    · next r heq => rwa [heq] at hloop
    · next r pks _ heq => rwa [heq] at hloop

end Fon9.PkCont.Derived

namespace Fon9.Mc

open Lib Buffer PkCont ExgMcChannelStyle ExgMcChannelMgr List McSystem

/-! ### A market -/

/-- What two events have to be joined for: the basic information has come round, a round of
snapshots is closed; what waits for both, where it has a log, and whether it has passed on a message
while it waits; and how often both were told. -/
structure Market where
  cycled : Bool
  closed : Bool
  waiting : Bool
  logged : Bool
  leaked : Bool
  dones : ℕ

namespace Market

/-- What waits goes on, with the packets of its log. -/
def reload (x : Market) : Market := { x with waiting := x.waiting && !x.logged, leaked := x.leaked && !x.logged }

def done (x : Market) : Market := { x with dones := x.dones + 1 }.reload

/-- Both are told once, when the second of them comes, and until then it is waited and held back. -/
structure Joined (x : Market) : Prop where
  dones : x.dones = if x.cycled ∧ x.closed then 1 else 0
  waiting : x.waiting = !(x.logged && x.cycled && x.closed)
  held : x.leaked = false

variable {x : Market}

theorem Joined.cycle (h : x.Joined) (hnot : x.cycled = false) :
    (if x.closed then { x with cycled := true }.done else { x with cycled := true }).Joined := by
  obtain ⟨cycled, closed, waiting, logged, leaked, dones⟩ := x
  obtain ⟨hdones, hwaiting, hheld⟩ := h
  cases hnot
  cases closed <;> cases logged <;> constructor <;> simp_all [done, reload]

theorem Joined.close (h : x.Joined) (hnot : x.closed = false) :
    (if x.cycled then { x with closed := true }.done else { x with closed := true }).Joined := by
  obtain ⟨cycled, closed, waiting, logged, leaked, dones⟩ := x
  obtain ⟨hdones, hwaiting, hheld⟩ := h
  cases hnot
  cases cycled <;> cases logged <;> constructor <;> simp_all [done, reload]

end Market

variable {k : Fin 2} {m m' : ExgMcChannelMgr} {c : ℕ}

/-- The channels of basic information and of snapshots, of the market of a real time channel. -/
abbrev basicInfoOf (k : Fin 2) : ℕ := getBasicInfoChannel (realtimeChannel k)

abbrev snapshotOf (k : Fin 2) : ℕ := getSnapshotChannel (realtimeChannel k)

/-- `OnSnapshotDone` for the market of a real time channel. -/
def McEvent.isDoneOf (k : Fin 2) : McEvent → Bool
  | .snapshotDone src _ => src = snapshotOf k
  | _ => false

/-- A message of a real time channel is passed on, and no heartbeat and no reset of its sequence. -/
def McEvent.isMessageOf (k : Fin 2) : McEvent → Bool
  | .dispatched c pk => c = realtimeChannel k ∧
      ¬ (ExgMcHead.transmissionCode pk = 48 ∧ (ExgMcHead.messageKind pk = 49 ∨ ExgMcHead.messageKind pk = 50))
  | _ => false

def market (k : Fin 2) (m : ExgMcChannelMgr) : Market where
  cycled := (m.channels (basicInfoOf k)).state.isCycled
  closed := (m.channels (snapshotOf k)).state = .canBeClosed
  waiting := (m.channels (realtimeChannel k)).state = .waiting
  logged := (m.channels (realtimeChannel k)).pkLog.isSome
  leaked := (m.channels (realtimeChannel k)).state = .waiting ∧ m.events.any (McEvent.isMessageOf k)
  dones := m.events.countP (McEvent.isDoneOf k)

abbrev JoinedAt (k : Fin 2) (m : ExgMcChannelMgr) : Prop := (market k m).Joined

/-! ### What leaves a market as it is -/

theorem market_record {e : McEvent} (h : e.isDoneOf k = false) (hpassed : e.isMessageOf k = false) :
    market k (m.record e) = market k m := by
  simp only [market, record, countP_append, countP_singleton, h, Bool.false_eq_true, if_false, Nat.add_zero, any_append, any_cons,
    any_nil, hpassed, Bool.or_false]
  rfl

theorem modify_channels (f : ExgMcChannel → ExgMcChannel) (c' : ℕ) :
    (m.modify c f).channels c' = if c' = c then f (m.channels c) else m.channels c' := Function.update_apply _ _ _ _

theorem market_modify {f : ExgMcChannel → ExgMcChannel} (h : (f (m.channels c)).state = (m.channels c).state)
    (hlog : (f (m.channels c)).pkLog.isSome = (m.channels c).pkLog.isSome) : market k (m.modify c f) = market k m := by
  have hsame : ∀ c', ((m.modify c f).channels c').state = (m.channels c').state ∧
      ((m.modify c f).channels c').pkLog.isSome = (m.channels c').pkLog.isSome := by
    intro c'
    rw [modify_channels]
    split_ifs with hc
    · rw [hc]
      exact ⟨h, hlog⟩
    · exact ⟨rfl, rfl⟩
  simp only [market, (hsame _).1, (hsame _).2]
  rfl

/-- A state that a channel comes to. -/
theorem market_setState (state : ExgMcChannelState) :
    market k (m.modify c fun ch => { ch with state := state }) = { market k m with
      cycled := if basicInfoOf k = c then state.isCycled else (market k m).cycled
      closed := if snapshotOf k = c then state = .canBeClosed else (market k m).closed
      waiting := if realtimeChannel k = c then state = .waiting else (market k m).waiting
      leaked := if realtimeChannel k = c then state = .waiting ∧ m.events.any (McEvent.isMessageOf k) else (market k m).leaked } := by
  simp only [market, modify_channels, Market.mk.injEq]
  refine ⟨?_, ?_, ?_, ?_, ?_, rfl⟩
  · split_ifs <;> rfl
  · split_ifs <;> rfl
  · split_ifs <;> rfl
  · split_ifs with hc
    · rw [hc]
    · rfl
  · split_ifs <;> rfl

theorem market_dispatch {pk : Bytes} (h : (McEvent.dispatched c pk).isMessageOf k = false ∨ (market k m).waiting = false) :
    market k (m.dispatchMcMessage c pk) = market k m := by
  obtain h | h := h
  · exact market_record rfl h
  · simp_all [market, dispatchMcMessage, record, McEvent.isDoneOf]
    rfl

theorem not_isMessageOf (h : c ≠ realtimeChannel k) (pk : Bytes) : (McEvent.dispatched c pk).isMessageOf k = false :=
  decide_eq_false fun hmessage => h hmessage.1

/-- What does not wait passes its messages on. -/
theorem market_dispatch_running (h : (m.channels c).state ≠ .waiting) (pk : Bytes) :
    market k (m.dispatchMcMessage c pk) = market k m := by
  refine market_dispatch ?_
  by_cases hc : c = realtimeChannel k
  · exact .inr (decide_eq_false (hc ▸ h))
  · exact .inl (not_isMessageOf hc pk)

theorem market_pkLogAppend (utcNow : ℕ → ℕ) (pk : ExgMcPk) (seq : ℕ) : market k (m.pkLogAppend utcNow c pk seq) = market k m := by
  rw [pkLogAppend]
  split
  · next log _ hlog =>
    refine market_modify (m := m) (f := fun ch => { ch with
      pk1stSeq := if ch.pk1stSeq = 0 then seq else ch.pk1stSeq
      pkLog := some (log.tsAppend ⟨utcNow m.ticks, pk⟩) }) rfl ?_
    rw [hlog]
    rfl
  · rfl

theorem snapshot_market (h : isSnapshot c = true) (k : Fin 2) :
    ((realtimeChannel k ∈ List.range kChannelCount ∧ channelId (realtimeChannel k) % 2 = c % 2) ↔
      c = snapshotOf k) ∧
    (c = snapshotOf k → getBasicInfoChannel c = basicInfoOf k) ∧
      c ≠ basicInfoOf k ∧ c ≠ realtimeChannel k := by
  rw [isSnapshot, decide_eq_true_eq] at h
  rcases h with rfl | rfl
  · revert k
    decide
  · revert k
    decide

theorem basicInfo_market (h : isBasicInfo c = true) (k : Fin 2) :
    (c = basicInfoOf k ↔ getSnapshotChannel c = snapshotOf k) ∧
      isSnapshot (getSnapshotChannel c) = true ∧ c ≠ snapshotOf k ∧ c ≠ realtimeChannel k ∧
        isEnumContains (channelStyle c) cycledClose = false := by
  rw [isBasicInfo, decide_eq_true_eq] at h
  rcases h with rfl | rfl
  · revert k
    decide
  · revert k
    decide

/-- A channel that is not cycled goes on running. -/
theorem market_run (hcycled : (m.channels c).state.isCycled = false) :
    market k (m.modify c fun ch => { ch with state := .running }) =
      if c = realtimeChannel k then { market k m with waiting := false, leaked := false } else market k m := by
  have hclosed : (m.channels c).state ≠ .canBeClosed := fun h => by rw [h] at hcycled; cases hcycled
  have hbasic : (if basicInfoOf k = c then ExgMcChannelState.running.isCycled else (market k m).cycled) =
      (market k m).cycled := by
    split_ifs with hc
    · rw [← hc] at hcycled
      exact hcycled.symm
    · rfl
  have hsnapshot : (if snapshotOf k = c then
      decide (ExgMcChannelState.running = .canBeClosed) else (market k m).closed) = (market k m).closed := by
    split_ifs with hc
    · simp [market, hc, hclosed]
    · rfl
  rw [market_setState, hbasic, hsnapshot]
  simp only [eq_comm (a := realtimeChannel k)]
  split_ifs <;> rfl

/-- Only the real time channel of the market waits for its snapshot. -/
theorem market_reloadDispatch (fromSeq : ℕ) : market k (m.reloadDispatch c fromSeq) =
    if c = realtimeChannel k then (market k m).reload else market k m := by
  rw [reloadDispatch]
  have hfold : ∀ pks : List Bytes, (pks.foldl (reloadPk c fromSeq) m).channels = m.channels ∧
      ∃ leaked, market k (pks.foldl (reloadPk c fromSeq) m) = { market k m with leaked := leaked } ∧
        (c ≠ realtimeChannel k → leaked = (market k m).leaked) := by
    intro pks
    refine foldlRecOn (motive := fun m' => m'.channels = m.channels ∧ ∃ leaked, market k m' = { market k m with leaked := leaked } ∧
      (c ≠ realtimeChannel k → leaked = (market k m).leaked)) _ _ ⟨rfl, _, rfl, fun _ => rfl⟩ fun m' h pk _ => ?_
    rw [reloadPk]
    split_ifs
    · obtain ⟨hchannels, leaked, hmarket, hleaked⟩ := h
      by_cases hc : c = realtimeChannel k
      · refine ⟨hchannels, (market k (m'.dispatchMcMessage c pk)).leaked, ?_, fun hnot => absurd hc hnot⟩
        simp_all [market, dispatchMcMessage, record, McEvent.isDoneOf]
      · exact ⟨hchannels, leaked, (market_dispatch (.inl (not_isMessageOf hc pk))).trans hmarket, hleaked⟩
    · exact h
  split
  · next hnone =>
    split_ifs with hc
    · simp [market, Market.reload, ← hc, hnone]
    · rfl
  · next log hlog =>
    obtain ⟨hchannels, leaked, hmarket, hleaked⟩ := hfold (log.readAll (m.channels c).pk1stPos)
    generalize foldl (reloadPk c fromSeq) m (log.readAll (m.channels c).pk1stPos) = m' at hchannels hmarket ⊢
    dsimp only
    have hrun : market k (if (m'.channels c).state.isCycled then m' else m'.modify c fun ch => { ch with state := .running }) =
        if c = realtimeChannel k then { market k m with waiting := false, leaked := false } else market k m' := by
      cases hcycled : (m'.channels c).state.isCycled with
      | false =>
        rw [if_neg Bool.false_ne_true, market_run hcycled, hmarket]
      | true =>
        rw [if_pos rfl]
        split_ifs with hc
        · have hwaiting : (m'.channels c).state ≠ .waiting := fun h => by rw [h] at hcycled; cases hcycled
          simp_all [market]
        · rfl
    rw [hrun]
    split_ifs with hc
    · simp [market, Market.reload, ← hc, hlog]
    · rw [hmarket, hleaked hc]

/-! ### The two events -/

theorem market_onBasicInfoCycled : market k (m.onBasicInfoCycled c) = market k m := by
  rw [onBasicInfoCycled]
  split_ifs with hstyle
  · rw [market_reloadDispatch, if_neg]
    rintro rfl
    revert hstyle k
    decide
  · rfl

theorem market_channelOnSnapshotDone (lastRtSeq : ℕ) : market k (m.channelOnSnapshotDone lastRtSeq c) =
    if c = realtimeChannel k then (market k m).reload else market k m := by
  rw [channelOnSnapshotDone]
  by_cases hwaits : isEnumContains (channelStyle c) waitSnapshot ∧ (m.channels c).state = .waiting
  · rw [if_pos hwaits, market_reloadDispatch]
  · rw [if_neg hwaits]
    split_ifs with hc
    · have hnot : (m.channels c).state ≠ .waiting := fun h => hwaits ⟨hc ▸ (realtime_style k).2.2.2.2.1, h⟩
      simp [market, Market.reload, ← hc, hnot]
    · rfl

theorem market_forMarket {f : ExgMcChannelMgr → ℕ → ExgMcChannelMgr} (src : ℕ) (h : ∀ m c, market k (f m c) = market k m) :
    market k (m.forMarket src f) = market k m := by
  rw [forMarket]
  refine foldlRecOn (motive := fun m' => market k m' = market k m) _ _ rfl fun m' hm c _ => ?_
  split_ifs
  · exact (h m' c).trans hm
  · exact hm

theorem market_onSnapshotDone (hsrc : isSnapshot c = true) (lastRtSeq : ℕ) : market k (m.onSnapshotDone c lastRtSeq) =
    if c = snapshotOf k then (market k m).done else market k m := by
  -- the real time channel is among the channels, and more than one reload of it does nothing
  have hfold : ∀ (cs : List ℕ) (m : ExgMcChannelMgr), market k (cs.foldl (fun m c' =>
      if channelId c' % 2 = c % 2 then m.channelOnSnapshotDone lastRtSeq c' else m) m) =
        if realtimeChannel k ∈ cs ∧ channelId (realtimeChannel k) % 2 = c % 2 then (market k m).reload else market k m := by
    intro cs
    induction cs with
    | nil => exact fun m => rfl
    | cons c' cs ih =>
      intro m
      rw [foldl_cons, ih]
      by_cases hodd : channelId c' % 2 = c % 2
      · rw [if_pos hodd, market_channelOnSnapshotDone]
        by_cases hc : c' = realtimeChannel k
        · rw [hc] at hodd
          simp [hc, hodd, Market.reload]
        · simp [hc, Ne.symm hc]
      · rw [if_neg hodd]
        by_cases hc : c' = realtimeChannel k
        · simp [← hc, hodd]
        · simp [Ne.symm hc]
  rw [onSnapshotDone, forMarket, hfold]
  simp only [(snapshot_market hsrc k).1]
  split_ifs with hc
  · rw [Market.done]
    congr 1
    simp [market, record, McEvent.isDoneOf, McEvent.isMessageOf, hc]
  · exact market_record (decide_eq_false hc) rfl

/-- The market that a snapshot is of is told, where it is to be told. -/
theorem joined_told {p : Prop} [Decidable p] {x : Market} (hsnapshot : isSnapshot c = true) (hmarket : market k m = x)
    (hother : c ≠ snapshotOf k → x.Joined)
    (hown : c = snapshotOf k → (if p then x.done else x).Joined) (lastRtSeq : ℕ) :
    JoinedAt k (if p then m.onSnapshotDone c lastRtSeq else m) := by
  have htold := @market_onSnapshotDone k m c hsnapshot lastRtSeq
  rw [hmarket] at htold
  by_cases hc : c = snapshotOf k
  · have h := hown hc
    split_ifs at h ⊢
    · rwa [JoinedAt, htold, if_pos hc]
    · rwa [JoinedAt, hmarket]
  · have h := hother hc
    split_ifs
    · rwa [JoinedAt, htold, if_neg hc]
    · rwa [JoinedAt, hmarket]

/-- The basic information comes round. -/
theorem joined_cycle (hbasic : isBasicInfo c = true) (hjoined : JoinedAt k m) (hcycled : (m.channels c).state.isCycled = false) :
    JoinedAt k ((m.modify c fun ch => { ch with state := .cycled }).channelCycled c) := by
  obtain ⟨hmarket, hsnapshot, hnot, hrt, -⟩ := basicInfo_market hbasic k
  have hset := @market_setState k m c .cycled
  rw [if_neg hnot.symm, if_neg hrt.symm, if_neg hrt.symm] at hset
  generalize m.modify c (fun ch => { ch with state := .cycled }) = m' at hset ⊢
  have hfor : market k ((m'.record (.channelCycled c)).forMarket c onBasicInfoCycled) = market k m' :=
    (market_forMarket c fun _ _ => market_onBasicInfoCycled).trans (market_record rfl rfl)
  rw [channelCycled]
  dsimp only
  rw [if_pos hbasic]
  generalize (m'.record (.channelCycled c)).forMarket c onBasicInfoCycled = m'' at hfor ⊢
  rw [hset] at hfor
  refine joined_told hsnapshot hfor (fun hc => ?_) (fun hc => ?_) _
  · rwa [if_neg fun h => hc (hmarket.mp h.symm)]
  · have hclosed : ((m''.channels (getSnapshotChannel c)).state = .canBeClosed) ↔ (market k m).closed = true := by
      rw [hc, ← congrArg Market.closed hfor]
      exact decide_eq_true_iff.symm
    simp only [hclosed, if_pos (hmarket.mpr hc).symm]
    exact hjoined.cycle (by rw [← hcycled, hmarket.mpr hc]; rfl)

/-- A round of snapshots is complete. -/
theorem joined_closeRound (hsnapshot : isSnapshot c = true) (hjoined : JoinedAt k m)
    (hclosed : (m.channels c).state ≠ .canBeClosed) (lastRtSeq : ℕ) : JoinedAt k (m.closeRound c lastRtSeq) := by
  obtain ⟨-, hbasic, hnot, hrt⟩ := snapshot_market hsnapshot k
  have hset := (market_record (k := k) (m := m.modify c fun ch => { ch with state := .canBeClosed }) (e := .closed c) rfl rfl).trans
    (market_setState _)
  rw [if_neg hnot.symm, if_neg hrt.symm, if_neg hrt.symm] at hset
  rw [closeRound]
  generalize (m.modify c fun ch => { ch with state := .canBeClosed }).record (.closed c) = m' at hset ⊢
  refine joined_told hsnapshot hset (fun hc => ?_) (fun hc => ?_) _
  · rwa [if_neg (Ne.symm hc)]
  · have hcycled : (m'.channels (getBasicInfoChannel c)).state.isCycled = (market k m).cycled := by
      rw [hbasic hc, ← congrArg Market.cycled hset]
      rfl
    rw [hcycled, if_pos hc.symm]
    exact hjoined.close (decide_eq_false (by rwa [← hc]))

/-! ### Packets -/

theorem joined_onPkContSnapshot (hsnapshot : isSnapshot c = true) (hjoined : JoinedAt k m) (lostCount : ℕ)
    (pk : Bytes) (afterNextSeq : ℕ) : JoinedAt k (m.onPkContSnapshot c lostCount pk afterNextSeq).1 := by
  have hbegin : JoinedAt k (m.refreshBegin c lostCount pk).1 := by
    rw [refreshBegin]
    split_ifs
    · exact hjoined
    · rwa [JoinedAt, market_modify rfl rfl]
    · rw [JoinedAt, market_modify]
      · exact hjoined
      · rw [ExgMcChannel.beginAgain]
        split <;> rfl
      · rw [ExgMcChannel.beginAgain]
        split <;> rfl
  have hcomplete : (m.channels c).state ≠ .canBeClosed → JoinedAt k (m.refreshComplete c lostCount pk) := by
    intro hclosed
    rw [refreshComplete]
    split_ifs
    · exact joined_closeRound hsnapshot hjoined hclosed _
    · exact hjoined
  rw [onPkContSnapshot]
  dsimp only
  split_ifs with hclosed
  all_goals first | exact hjoined | exact hbegin | exact hcomplete hclosed

theorem joined_pkContOnReceived (utcNow : ℕ → ℕ) (f : PkContFeeder ExgMcPk) (pk : ExgMcPk) (seq : ℕ)
    (hjoined : JoinedAt k m) : JoinedAt k (pkContOnReceived utcNow c m f pk seq).1 := by
  rw [JoinedAt, ← market_record (e := .received c pk) rfl rfl] at hjoined
  rw [pkContOnReceived]
  generalize m.record (.received c pk) = m at hjoined ⊢
  have htaken : ∀ r : ExgMcChannelMgr × ℕ × Bool, JoinedAt k r.1 → JoinedAt k (if r.2.2 then
      ((if (r.1.channels c).state = .waiting then r.1 else r.1.dispatchMcMessage c pk.data).pkLogAppend utcNow c pk seq, r.2.1)
      else (r.1, r.2.1)).1 := by
    intro r h
    split_ifs with _ hwaits
    · rwa [JoinedAt, market_pkLogAppend]
    · rwa [JoinedAt, market_pkLogAppend, market_dispatch_running hwaits]
    · exact h
  by_cases hany : isEnumContains (channelStyle c) anySeq
  · rw [if_pos hany, JoinedAt, market_pkLogAppend]
    exact hjoined
  · rw [if_neg hany]
    refine htaken (if isSnapshot c then m.onPkContSnapshot c f.lostCount pk.data (u64 (seq + 1)) else (m, u64 (seq + 1), true)) ?_
    split_ifs with hsnapshot
    · exact joined_onPkContSnapshot hsnapshot hjoined _ _ _
    · exact hjoined

variable {args : McArgs} {sys : McSystem} {pk : ExgMcPk}

theorem joined_withFeeder {f} (hjoined : JoinedAt k sys.mgr)
    (hf : ∀ on cfg s, (∀ d g pk seq, JoinedAt k d → JoinedAt k (on d g pk seq).1) →
      JoinedAt k s.1 → JoinedAt k (f on cfg s).1) :
    JoinedAt k (sys.withFeeder args c f).mgr :=
  hf _ _ _ (fun _ g pk seq h => joined_pkContOnReceived _ g pk seq h) hjoined

theorem cycling_basicInfo (hsnapshot : isSnapshot c = false)
    (h : isEnumContainsAny (channelStyle c) (cycledClose ||| cycledNotify) = true) : isBasicInfo c = true := by
  rw [isSnapshot, decide_eq_false_iff_not, not_or] at hsnapshot
  rw [isBasicInfo, decide_eq_true_eq]
  by_contra hnot
  have hstyle : channelStyle c ∈ [pkLog ||| waitSnapshot, anySeq ||| pkLogChangeable, pkLogChangeable, 0] := by
    rw [channelStyle]
    split_ifs <;> first | decide | omega
  revert h
  revert hstyle
  generalize channelStyle c = style
  revert style
  decide

theorem joined_onPkHb (hpk : (McEvent.dispatched c pk.data).isMessageOf k = false) (hjoined : JoinedAt k sys.mgr) : JoinedAt k (sys.onPkHb args c pk).mgr := by
  rw [onPkHb]
  cases hsnapshot : isSnapshot c with
  | true =>
    rw [if_pos rfl]
    exact hjoined
  | false =>
    rw [if_neg Bool.false_ne_true]
    dsimp only
    have hheard : JoinedAt k (if (sys.mgr.channels c).isSetupReloading then sys.mgr
        else (sys.mgr.pkLogAppend args.utcNow c pk (ExgMcHead.getChannelSeq pk.data)).dispatchMcMessage c pk.data) := by
      split_ifs
      · exact hjoined
      · rwa [JoinedAt, market_dispatch (.inl hpk), market_pkLogAppend]
    generalize (if (sys.mgr.channels c).isSetupReloading then sys.mgr
      else (sys.mgr.pkLogAppend args.utcNow c pk (ExgMcHead.getChannelSeq pk.data)).dispatchMcMessage c pk.data) = m at hheard ⊢
    have hstart : ∀ {m : ExgMcChannelMgr} (lostCount seq : ℕ), JoinedAt k m →
        JoinedAt k (m.modify c (ExgMcChannel.onCycleStart lostCount seq)) := by
      intro m lostCount seq h
      rwa [JoinedAt, market_modify rfl rfl]
    by_cases hcycle : isEnumContainsAny (channelStyle c) (cycledClose ||| cycledNotify) ∧ (m.channels c).cycleStartSeq ≠ 0 ∧
        (m.channels c).state.isCycled = false ∧
          u64sub (sys.feeders c).lostCount (m.channels c).cycleBeforeLostCount = 0
    · have hbasic := cycling_basicInfo hsnapshot hcycle.1
      simp only [if_pos hcycle, (basicInfo_market hbasic k).2.2.2.2, Bool.false_eq_true, if_false]
      split_ifs
      · exact hheard
      · exact hheard
      · exact hstart _ _ (joined_cycle hbasic hheard hcycle.2.2.1)
    · simp only [if_neg hcycle]
      split_ifs
      · exact hheard
      · exact hheard
      · exact hstart _ _ hheard

theorem joined_onPkSeqReset (hpk : (McEvent.dispatched c pk.data).isMessageOf k = false) (hjoined : JoinedAt k sys.mgr) : JoinedAt k (sys.onPkSeqReset args c pk).mgr := by
  rw [onPkSeqReset]
  dsimp only
  split_ifs
  · show JoinedAt k (sys.mgr.pkLogAppend _ _ _ _)
    rwa [JoinedAt, market_pkLogAppend]
  · show JoinedAt k ((sys.mgr.pkLogAppend _ _ _ _).dispatchMcMessage _ _)
    rwa [JoinedAt, market_dispatch (.inl hpk), market_pkLogAppend]

theorem joined_channelOnPkReceived (hjoined : JoinedAt k sys.mgr) :
    JoinedAt k (sys.channelOnPkReceived args c pk).mgr := by
  have hfeed : ∀ sys : McSystem, JoinedAt k sys.mgr → JoinedAt k (sys.feedPacket args c pk).mgr := fun sys h =>
    joined_withFeeder h fun on cfg s hon => Derived.keeps_feedPacket (P := JoinedAt k) hon cfg pk _
  have hdispatch : (sys.mgr.channels c).state ≠ .waiting → JoinedAt k (sys.mgr.dispatchMcMessage c pk.data) := by
    intro hwaits
    rwa [JoinedAt, market_dispatch_running hwaits]
  rw [channelOnPkReceived]
  dsimp only
  split_ifs with hhb hreset
  · exact joined_onPkHb (decide_eq_false fun h => h.2 ⟨hhb.1, .inl hhb.2⟩) hjoined
  · exact joined_onPkSeqReset (decide_eq_false fun h => h.2 ⟨hreset.1, .inr hreset.2⟩) hjoined
  all_goals first | exact hfeed _ (hdispatch ‹_ ∧ _›.2) | exact hfeed _ hjoined | exact hdispatch ‹_ ∧ _›.2 | exact hjoined

theorem joined_channelsStep (op : ChannelsOp) (hjoined : JoinedAt k sys.mgr) :
    JoinedAt k (channelsStep args sys op).mgr := by
  cases op with
  | op op =>
    cases op with
    | onPkReceived pk =>
      rw [channelsStep, step]
      split_ifs
      · exact joined_channelOnPkReceived hjoined
      · exact hjoined
    | pkContOnTimer c answer =>
      cases answer with
      | requesting => exact hjoined
      | busy => exact hjoined
      | none =>
        rw [channelsStep, step, McSystem.pkContOnTimer]
        split_ifs
        · exact hjoined
        · exact joined_withFeeder hjoined fun on cfg s hon =>
            Derived.keeps_pkContOnTimer (P := JoinedAt k) hon cfg
  | onRecoverErr c beginSeqNo recoverNum st recovers =>
    exact joined_withFeeder hjoined fun on cfg s hon =>
      Derived.keeps_onRecoverErr (P := JoinedAt k) hon cfg _ _

theorem startup_styles (k : Fin 2) :
    isEnumContainsAny (channelStyle (basicInfoOf k)) (waitBasic ||| waitSnapshot) = false ∧
      isEnumContainsAny (channelStyle (realtimeChannel k)) (waitBasic ||| waitSnapshot) = true := by
  revert k
  decide

theorem joined_startup (args : McArgs) (opened : ℕ → Option Bytes) (pks : ℕ → List ExgMcPk) :
    JoinedAt k (McSystem.startup args opened pks).mgr := by
  have hset : ∀ (b : Bool) (c : ℕ) (sys : McSystem), JoinedAt k sys.mgr → JoinedAt k (sys.mgr.modify c fun ch =>
      { ch with isSkipPkLog := b, isSetupReloading := b }) := fun b c sys h => by rwa [JoinedAt, market_modify rfl rfl]
  have hstate : ∀ c opened, (ExgMcChannel.startup c opened).state =
      if isEnumContainsAny (channelStyle c) (waitBasic ||| waitSnapshot) then .waiting else .running := fun c opened => rfl
  obtain ⟨hbasic, hrealtime⟩ := startup_styles k
  refine foldlRecOn (motive := fun sys : McSystem => JoinedAt k sys.mgr) _ _ ⟨?_, ?_, decide_eq_false fun h => Bool.false_ne_true h.2⟩ fun sys h c _ => ?_
  · simp [market, hstate, hbasic, ExgMcChannelState.isCycled]
  · simp [market, hstate, hbasic, hrealtime, ExgMcChannelState.isCycled]
  · rw [setupReload]
    split_ifs
    · exact h
    · exact hset false c _ (foldlRecOn (motive := fun sys : McSystem => JoinedAt k sys.mgr) _ _ (hset true c _ h) fun _ h _ _ =>
        joined_channelOnPkReceived h)

/-- The snapshot of a market is told as done once, when the basic information has come round and a round of
snapshots is closed, and the real time channel waits until then. -/
theorem snapshotDone_once (args : McArgs) (opened : ℕ → Option Bytes) (pks : ℕ → List ExgMcPk) (ops : List ChannelsOp) (k : Fin 2) :
    JoinedAt k (channelsRun args (McSystem.startup args opened pks) ops).mgr :=
  foldlRecOn (motive := fun sys : McSystem => JoinedAt k sys.mgr) _ _ (joined_startup args opened pks) fun _ h op _ => joined_channelsStep op h

end Fon9.Mc
