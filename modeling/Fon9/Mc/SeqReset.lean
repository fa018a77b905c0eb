import Fon9.PkCont.Draw
import Fon9.PkCont.Accounting
import Fon9.Mc.Recover

/-! The sequence of a real time channel begins again. The reset forgets the pending packets and
the expected number, but not that packets have been received, so that packet 1 is taken for one
behind a gap where the channel waits for gaps. -/

namespace Fon9.Mc

open Lib Buffer PkCont ExgMcChannelStyle List ExgMcHead Derived ExgMcChannelMgr ExgMcChannel

/-! ### The real time channels -/

/-- The real time channel of a market. -/
def realtimeChannel (k : Fin 2) : ℕ := 2 - k

theorem realtime_style (k : Fin 2) :
    isSnapshot (realtimeChannel k) = false ∧ isRealtime (realtimeChannel k) = true ∧ isBasicInfo (realtimeChannel k) = false ∧
      isEnumContains (channelStyle (realtimeChannel k)) anySeq = false ∧
      isEnumContains (channelStyle (realtimeChannel k)) waitSnapshot = true ∧
      isEnumContainsAny (channelStyle (realtimeChannel k)) (cycledClose ||| cycledNotify) = false ∧
      channelStyle (realtimeChannel k) &&& ~~~ anySeq ≠ 0 := by
  revert k
  decide

/-! ### Packets in order -/

def isHbOrSeqReset (pk : ExgMcPk) : Bool :=
  ExgMcHead.transmissionCode pk.data = 48 ∧ (ExgMcHead.messageKind pk.data = 49 ∨ ExgMcHead.messageKind pk.data = 50)

/-- The packets with the numbers from `n` on, each of ten decimal digits. -/
structure NumberedFrom (n : ℕ) (pks : List ExgMcPk) : Prop where
  seqs : pks.map (fun pk => ExgMcHead.getChannelSeq pk.data) = List.range' n pks.length
  messages : ∀ pk ∈ pks, isHbOrSeqReset pk = false
  digits : ∀ pk ∈ pks, ∀ c ∈ ExgMcHead.field pk.data 11 5, bcdDigits c < 100

theorem packBcdTo_lt_of_digits {bs : Bytes} (h : ∀ c ∈ bs, bcdDigits c < 100) : packBcdTo bs < 100 ^ bs.length := by
  have hfold : ∀ (bs : Bytes) (n : ℕ), (∀ c ∈ bs, bcdDigits c < 100) →
      bs.foldl (fun n c => n * 100 + bcdDigits c) n < (n + 1) * 100 ^ bs.length := by
    intro bs
    induction bs with
    | nil => exact fun n _ => by simp
    | cons c bs ih =>
      intro n h
      have hc := h c mem_cons_self
      rw [foldl_cons, length_cons, pow_succ', ← mul_assoc]
      refine (ih _ fun c' hc' => h c' (mem_cons_of_mem _ hc')).trans_le (Nat.mul_le_mul_right _ ?_)
      omega
  have hlt := hfold bs 0 h
  rw [zero_add, one_mul] at hlt
  exact hlt

namespace NumberedFrom

variable {n : ℕ} {pk : ExgMcPk} {pks : List ExgMcPk}

theorem head (h : NumberedFrom n (pk :: pks)) :
    getChannelSeq pk.data = n ∧ isHbOrSeqReset pk = false ∧ n ≤ 9999999999 := by
  have hseqs := h.seqs
  rw [map_cons, length_cons, range'_succ] at hseqs
  obtain ⟨hseq, -⟩ := List.cons.inj hseqs
  have hlt := packBcdTo_lt_of_digits (h.digits pk mem_cons_self)
  have hlen : (field pk.data 11 5).length ≤ 5 := by
    rw [field, length_take]
    exact Nat.min_le_left _ _
  have hpow : 100 ^ (field pk.data 11 5).length ≤ 100 ^ 5 := Nat.pow_le_pow_right (by decide) hlen
  refine ⟨hseq, h.messages pk mem_cons_self, ?_⟩
  rw [← hseq, getChannelSeq]
  omega

theorem tail (h : NumberedFrom n (pk :: pks)) : NumberedFrom (n + 1) pks := by
  have hseqs := h.seqs
  rw [map_cons, length_cons, range'_succ] at hseqs
  exact ⟨(List.cons.inj hseqs).2, fun pk' hpk' => h.messages pk' (mem_cons_of_mem _ hpk'),
    fun pk' hpk' => h.digits pk' (mem_cons_of_mem _ hpk')⟩

theorem left {pks' : List ExgMcPk} (h : NumberedFrom n (pks ++ pks')) : NumberedFrom n pks := by
  have hseqs := congrArg (List.take pks.length) h.seqs
  rw [map_append, take_left' (length_map _), length_append,
    take_range'_of_length_ge (Nat.le_add_right _ _)] at hseqs
  exact ⟨hseqs, fun pk hpk => h.messages pk (mem_append_left _ hpk), fun pk hpk => h.digits pk (mem_append_left _ hpk)⟩

end NumberedFrom

/-! ### What the channel does with them -/

def McSystem.receiveAll (args : McArgs) (sys : McSystem) (c : ℕ) (pks : List ExgMcPk) : McSystem :=
  pks.foldl (fun sys pk => sys.channelOnPkReceived args c pk) sys

/-- Each packet has been handed over in its turn, nothing else has been done, and nothing is
pending. -/
structure DeliversAtOnce (s s' : PkContFeeder ExgMcPk) (pks : List ExgMcPk) : Prop where
  delivered : ∃ news : List (Received ExgMcPk), s'.log = s.log ++ news.map .received ∧ news.map Received.pk = pks
  lost : s'.lostCount = s.lostCount
  pending : s'.pkPendings = []

theorem DeliversAtOnce.trans {s s' s'' : PkContFeeder ExgMcPk} {pks pks' : List ExgMcPk} (h : DeliversAtOnce s s' pks)
    (h' : DeliversAtOnce s' s'' pks') : DeliversAtOnce s s'' (pks ++ pks') := by
  obtain ⟨news, hlog, hnews⟩ := h.delivered
  obtain ⟨news', hlog', hnews'⟩ := h'.delivered
  refine ⟨⟨news ++ news', ?_, ?_⟩, h'.lost.trans h.lost, h'.pending⟩
  · rw [hlog', hlog, map_append, append_assoc]
  · rw [map_append, hnews, hnews']

section Realtime

variable (args : McArgs) (sys : McSystem) (k : Fin 2) {pk : ExgMcPk}

/-- A message goes to the feeder. -/
theorem channelOnPkReceived_message (h : isHbOrSeqReset pk = false) :
    sys.channelOnPkReceived args (realtimeChannel k) pk = sys.feedPacket args (realtimeChannel k) pk := by
  obtain ⟨hsnapshot, -, -, hany, -, -, hstyle⟩ := realtime_style k
  have hno : ∀ kind : UInt8, kind = 49 ∨ kind = 50 →
      ¬ (transmissionCode pk.data = 48 ∧ messageKind pk.data = kind) := by
    rintro kind hkind ⟨hcode, rfl⟩
    exact of_decide_eq_false h ⟨hcode, hkind⟩
  rw [McSystem.channelOnPkReceived, if_neg (hno 49 (.inl rfl)), if_neg (hno 50 (.inr rfl))]
  have hfirst : ¬ (getChannelSeq pk.data = 1 ∧ isSnapshot (realtimeChannel k) = true) := by
    rw [hsnapshot]
    exact fun h => Bool.false_ne_true h.2
  rw [if_neg hfirst]
  dsimp only
  have hwait : ¬ (isEnumContains (channelStyle (realtimeChannel k)) anySeq = true ∧
      (sys.mgr.channels (realtimeChannel k)).state ≠ .waiting) := by
    rw [hany]
    exact fun h => Bool.false_ne_true h.1
  rw [if_neg hwait, if_pos (.inl hstyle)]

theorem kMaxGapAllow_config (c : ℕ) : PkContFeeder.kMaxGapAllow (args.config c) = 4999999999 := by
  have hmax : (args.config c).maxSeqNo = 9999999999 := rfl
  rw [PkContFeeder.kMaxGapAllow, hmax]

theorem waitInterval_config (c : ℕ) : (args.config c).waitInterval = args.waitInterval c := rfl

/-- Nothing is pending, and the packet is the next one, the first of all, or one behind a gap
that is not waited for. -/
theorem feedPacket_delivers (hpend : (sys.feeders (realtimeChannel k)).pkPendings = [])
    (hnext : getChannelSeq pk.data = (sys.feeders (realtimeChannel k)).nextSeq ∨
      (sys.feeders (realtimeChannel k)).nextSeq = 0 ∧ getChannelSeq pk.data = 1 ∧
        ((sys.feeders (realtimeChannel k)).receivedCount = 0 ∨ args.waitInterval (realtimeChannel k) = 0)) :
    DeliversAtOnce (sys.feeders (realtimeChannel k)) ((sys.feedPacket args (realtimeChannel k) pk).feeders (realtimeChannel k)) [pk] ∧
      ((sys.feedPacket args (realtimeChannel k) pk).feeders (realtimeChannel k)).nextSeq =
        PkContFeeder.afterReceived (args.config (realtimeChannel k)) (getChannelSeq pk.data) := by
  generalize hc : realtimeChannel k = c at *
  generalize hseq : getChannelSeq pk.data = seq at *
  have hplain : isSnapshot c = false := hc ▸ (realtime_style k).1
  have hgap := kMaxGapAllow_config args c
  have hfeeder : (sys.feedPacket args c pk).feeders c =
      (pkReceived (pkContOnReceived args.utcNow c) (args.config c) (sys.mgr, sys.feeders c) pk seq).2 := by
    have hself : (sys.feedPacket args c pk).feeders c = (feedPacket (pkContOnReceived args.utcNow c)
        (args.config c) (sys.mgr, sys.feeders c) pk seq).2 := by
      rw [← hseq]
      exact Function.update_self _ _ _
    rw [hself, feedPacket]
    dsimp only
    obtain heq | ⟨hzero, hone, hfirst⟩ := hnext
    · rw [if_pos heq]
    · rw [if_neg (by omega), if_neg (by omega)]
      by_cases hcount : (sys.feeders c).receivedCount = 0
      · rw [if_pos ⟨hzero, hcount⟩]
      · rw [if_neg (fun h => hcount h.2), if_neg (by omega), waitInterval_config,
          if_pos (hfirst.resolve_left hcount)]
  rw [hfeeder, pkReceived]
  dsimp only
  rw [hpend, drain]
  exact ⟨⟨⟨[_], rfl, rfl⟩, rfl, rfl⟩,
    nextSeq_plain (fun d f pk seq => pkContOnReceived_plain args.utcNow c d f pk seq hplain) _ pk seq⟩

/-- Packet 1 is taken for one behind a gap. -/
theorem feedPacket_waits (hseq : getChannelSeq pk.data = 1) (hzero : (sys.feeders (realtimeChannel k)).nextSeq = 0)
    (hcount : (sys.feeders (realtimeChannel k)).receivedCount ≠ 0) (hwait : args.waitInterval (realtimeChannel k) ≠ 0) :
    (sys.feedPacket args (realtimeChannel k) pk).feeders (realtimeChannel k) =
      (sys.feeders (realtimeChannel k)).insertPending pk 1 := by
  generalize realtimeChannel k = c at *
  have hself : (sys.feedPacket args c pk).feeders c = (feedPacket (pkContOnReceived args.utcNow c)
      (args.config c) (sys.mgr, sys.feeders c) pk 1).2 := by
    rw [← hseq]
    exact Function.update_self _ _ _
  have hgap := kMaxGapAllow_config args c
  rw [hself, feedPacket]
  dsimp only
  rw [if_neg (by omega), if_neg (by omega), if_neg (fun h => hcount h.2), if_neg (by omega), waitInterval_config,
    if_neg hwait]

theorem receiveAll_cons (pks : List ExgMcPk) (c : ℕ) :
    sys.receiveAll args c (pk :: pks) = (sys.channelOnPkReceived args c pk).receiveAll args c pks := rfl

/-- From the expected number on all packets are handed over. -/
theorem receiveAll_delivers {n : ℕ} {pks : List ExgMcPk} (hpks : NumberedFrom n pks)
    (hpend : (sys.feeders (realtimeChannel k)).pkPendings = [])
    (hnext : pks ≠ [] → (sys.feeders (realtimeChannel k)).nextSeq = n) :
    DeliversAtOnce (sys.feeders (realtimeChannel k))
      ((sys.receiveAll args (realtimeChannel k) pks).feeders (realtimeChannel k)) pks := by
  induction pks generalizing sys n with
  | nil => exact ⟨⟨[], (append_nil _).symm, rfl⟩, rfl, hpend⟩
  | cons pk pks ih =>
    obtain ⟨hseq, hmessage, hle⟩ := hpks.head
    have hn := hnext (cons_ne_nil _ _)
    obtain ⟨hone, hafter⟩ := feedPacket_delivers args sys k hpend (.inl (hseq.trans hn.symm))
    rw [receiveAll_cons, channelOnPkReceived_message args sys k hmessage]
    refine hone.trans (ih _ hpks.tail hone.pending fun hne => ?_)
    obtain ⟨pk', pks', rfl⟩ := exists_cons_of_ne_nil hne
    obtain ⟨-, -, hle'⟩ := hpks.tail.head
    rw [hafter, hseq]
    have hmax : (args.config (realtimeChannel k)).maxSeqNo = 9999999999 := rfl
    exact afterReceived_of_lt (by omega) (by omega)

end Realtime

/-! ### Runs behind the reset -/

/-- What happens to the channels, with the failures of their recover sessions. -/
inductive ChannelsOp
  | op (op : McOp)
  | onRecoverErr (c beginSeqNo recoverNum : ℕ) (st : UInt8) (recovers : List ExgMcRecoverRole)

def channelsStep (args : McArgs) (sys : McSystem) : ChannelsOp → McSystem
  | .op op => step args sys op
  | .onRecoverErr c beginSeqNo recoverNum st recovers => sys.onRecoverErr args c beginSeqNo recoverNum st recovers

def channelsRun (args : McArgs) (sys : McSystem) (ops : List ChannelsOp) : McSystem := ops.foldl (channelsStep args) sys

/-- The packet that comes to a channel. -/
def ChannelsOp.packetOf (c : ℕ) : ChannelsOp → List ExgMcPk
  | .op (.onPkReceived pk) => if ExgMcHead.getChannelId pk.data = c then [pk] else []
  | .op (.pkContOnTimer ..) => []
  | .onRecoverErr .. => []

section Runs

variable (args : McArgs) (sys : McSystem) (c : ℕ)

theorem withFeeder_of_ne {c' : ℕ} (h : c ≠ c') (f) : (sys.withFeeder args c' f).feeders c = sys.feeders c :=
  Function.update_of_ne h _ _

theorem onPkHb_feeders (c' : ℕ) (pk : ExgMcPk) : (sys.onPkHb args c' pk).feeders = sys.feeders := by
  rw [McSystem.onPkHb]
  dsimp only
  split_ifs <;> rfl

theorem onPkSeqReset_feeder (pk : ExgMcPk) :
    (sys.onPkSeqReset args c pk).feeders c = { sys.feeders c with pkPendings := [], nextSeq := 0 } := by
  rw [McSystem.onPkSeqReset]
  dsimp only
  split_ifs
  · exact Function.update_self _ _ _
  · exact Function.update_self _ _ _

theorem onPkSeqReset_of_ne {c' : ℕ} (h : c ≠ c') (pk : ExgMcPk) :
    (sys.onPkSeqReset args c' pk).feeders c = sys.feeders c := by
  rw [McSystem.onPkSeqReset]
  dsimp only
  split_ifs
  · exact Function.update_of_ne h _ _
  · exact Function.update_of_ne h _ _

/-- A channel that another one's packet comes to. -/
theorem channelOnPkReceived_of_ne {c' : ℕ} (h : c ≠ c') (pk : ExgMcPk) :
    (sys.channelOnPkReceived args c' pk).feeders c = sys.feeders c := by
  have hset : ∀ sys : McSystem, ∀ feeder, (sys.setFeeder c' feeder).feeders c = sys.feeders c :=
    fun sys feeder => Function.update_of_ne h _ _
  rw [McSystem.channelOnPkReceived]
  dsimp only
  split_ifs
  · rw [onPkHb_feeders]
  · exact onPkSeqReset_of_ne args sys c h pk
  all_goals
    first
    | exact (withFeeder_of_ne args _ c h _).trans (hset sys _)
    | exact withFeeder_of_ne args _ c h _
    | exact hset sys _
    | rfl

theorem channelOnPkReceived_draws (pk : ExgMcPk) :
    Draws (sys.feeders c) ((sys.channelOnPkReceived args c pk).feeders c) ({pk} + packets (sys.feeders c).pkPendings)
      (packets ((sys.channelOnPkReceived args c pk).feeders c).pkPendings) := by
  have hsame : ∀ feeder : PkContFeeder ExgMcPk, feeder.log = (sys.feeders c).log →
      feeder.pkPendings = (sys.feeders c).pkPendings →
        Draws (sys.feeders c) feeder ({pk} + packets (sys.feeders c).pkPendings) (packets feeder.pkPendings) := by
    intro feeder hlog hpend
    rw [hpend]
    exact .quiet (received_log hlog) (Multiset.le_add_left _ _)
  have hfeed : ∀ sys' : McSystem, (sys'.feeders c).log = (sys.feeders c).log →
      (sys'.feeders c).pkPendings = (sys.feeders c).pkPendings →
        Draws (sys.feeders c) ((sys'.feedPacket args c pk).feeders c) ({pk} + packets (sys.feeders c).pkPendings)
          (packets ((sys'.feedPacket args c pk).feeders c).pkPendings) := by
    intro sys' hlog hpend
    have hself : (sys'.feedPacket args c pk).feeders c = (feedPacket (pkContOnReceived args.utcNow c)
        (args.config c) (sys'.mgr, sys'.feeders c) pk (getChannelSeq pk.data)).2 := Function.update_self _ _ _
    have hdraws := feedPacket_draws (pkContOnReceived args.utcNow c) (args.config c)
      (sys'.mgr, sys'.feeders c) pk (getChannelSeq pk.data)
    dsimp only at hdraws
    rw [← hself, hpend] at hdraws
    exact (Draws.quiet (received_log hlog) (le_refl _)).trans hdraws
  have hlog : (Function.update sys.feeders c { sys.feeders c with nextSeq := 1 } c).log = (sys.feeders c).log := by
    rw [Function.update_self]
  have hpend : (Function.update sys.feeders c { sys.feeders c with nextSeq := 1 } c).pkPendings = (sys.feeders c).pkPendings := by
    rw [Function.update_self]
  rw [McSystem.channelOnPkReceived]
  dsimp only
  split_ifs
  · exact hsame _ (by rw [onPkHb_feeders]) (by rw [onPkHb_feeders])
  · rw [onPkSeqReset_feeder]
    exact .quiet (received_log rfl) (Multiset.zero_le _)
  all_goals
    first
    | exact hfeed _ hlog hpend
    | exact hfeed _ rfl rfl
    | exact hsame _ hlog hpend
    | exact hsame _ rfl rfl

/-- What a step hands over was pending or has just come. -/
theorem channelsStep_draws (op : ChannelsOp) :
    Draws (sys.feeders c) ((channelsStep args sys op).feeders c)
      ((op.packetOf c : Multiset ExgMcPk) + packets (sys.feeders c).pkPendings)
      (packets ((channelsStep args sys op).feeders c).pkPendings) := by
  have hsame : ∀ sys' : McSystem, sys'.feeders c = sys.feeders c → ∀ came : Multiset ExgMcPk,
      Draws (sys.feeders c) (sys'.feeders c) (came + packets (sys.feeders c).pkPendings) (packets (sys'.feeders c).pkPendings) := by
    intro sys' h came
    rw [h]
    exact .quiet rfl (Multiset.le_add_left _ _)
  have hdraws : ∀ f, (∀ on cfg s, Draws s.2 (f on cfg s).2 (packets s.2.pkPendings) (packets (f on cfg s).2.pkPendings)) →
      Draws (sys.feeders c) ((sys.withFeeder args c f).feeders c) (([] : List ExgMcPk) + packets (sys.feeders c).pkPendings)
        (packets ((sys.withFeeder args c f).feeders c).pkPendings) := by
    intro f hf
    have hself : (sys.withFeeder args c f).feeders c =
        (f (pkContOnReceived args.utcNow c) (args.config c) (sys.mgr, sys.feeders c)).2 :=
      Function.update_self _ _ _
    rw [hself, Multiset.coe_nil, zero_add]
    exact hf _ _ _
  cases op with
  | op op =>
    cases op with
    | onPkReceived pk =>
      rw [channelsStep, step, ChannelsOp.packetOf]
      by_cases hc : getChannelId pk.data = c
      · rw [if_pos hc, hc]
        split_ifs
        · exact channelOnPkReceived_draws args sys c pk
        · exact hsame sys rfl _
      · rw [if_neg hc]
        split_ifs
        · exact hsame _ (channelOnPkReceived_of_ne args sys c (Ne.symm hc) pk) _
        · exact hsame sys rfl _
    | pkContOnTimer c' answer =>
      have hwith : Draws (sys.feeders c) ((sys.withFeeder args c' pkContOnTimer).feeders c)
          (([] : List ExgMcPk) + packets (sys.feeders c).pkPendings)
          (packets ((sys.withFeeder args c' pkContOnTimer).feeders c).pkPendings) := by
        by_cases hc : c = c'
        · subst hc
          exact hdraws _ pkContOnTimer_draws
        · exact hsame _ (withFeeder_of_ne args sys c hc _) _
      rw [channelsStep, step, ChannelsOp.packetOf, McSystem.pkContOnTimer.eq_def]
      cases answer with
      | requesting => exact hsame sys rfl _
      | busy => exact hsame sys rfl _
      | none =>
        dsimp only
        split_ifs
        · exact hsame sys rfl _
        · exact hwith
  | onRecoverErr c' beginSeqNo recoverNum st recovers =>
    rw [channelsStep, McSystem.onRecoverErr, ChannelsOp.packetOf]
    by_cases hc : c = c'
    · subst hc
      exact hdraws _ fun on cfg s => onRecoverErr_draws on cfg _ _ s
    · exact hsame _ (withFeeder_of_ne args sys c hc _) _

theorem channelsRun_draws (ops : List ChannelsOp) :
    Draws (sys.feeders c) ((channelsRun args sys ops).feeders c)
      ((ops.flatMap (ChannelsOp.packetOf c) : Multiset ExgMcPk) + packets (sys.feeders c).pkPendings)
      (packets ((channelsRun args sys ops).feeders c).pkPendings) := by
  induction ops generalizing sys with
  | nil => exact .quiet rfl (Multiset.le_add_left _ _)
  | cons op ops ih =>
    have hrun := ((channelsStep_draws args sys c op).frame (ops.flatMap (ChannelsOp.packetOf c))).trans (ih _)
    rw [add_left_comm, ← add_assoc, Multiset.coe_add] at hrun
    exact hrun

theorem setupReload_draws (pks : ℕ → List ExgMcPk) (h : packets (sys.feeders c).pkPendings = 0) :
    Draws (sys.feeders c) ((sys.setupReload args pks c).feeders c) (pks c) (packets ((sys.setupReload args pks c).feeders c).pkPendings) := by
  have hfold : ∀ (pks : List ExgMcPk) (sys : McSystem), Draws (sys.feeders c)
      ((pks.foldl (fun sys pk => sys.channelOnPkReceived args c pk) sys).feeders c) (pks + packets (sys.feeders c).pkPendings)
      (packets ((pks.foldl (fun sys pk => sys.channelOnPkReceived args c pk) sys).feeders c).pkPendings) := by
    intro pks
    induction pks with
    | nil => exact fun sys => .quiet rfl (Multiset.le_add_left _ _)
    | cons pk pks ih =>
      intro sys
      have hrun := ((channelOnPkReceived_draws args sys c pk).frame pks).trans (ih _)
      rwa [← add_assoc, add_comm (pks : Multiset ExgMcPk), Multiset.singleton_add, Multiset.cons_coe] at hrun
  rw [McSystem.setupReload]
  split_ifs
  · exact .quiet rfl (h ▸ Multiset.zero_le _)
  · have hreload := hfold (pks c) { sys with mgr := sys.mgr.modify c fun ch => { ch with isSkipPkLog := true, isSetupReloading := true } }
    rwa [h, add_zero] at hreload

theorem setupReload_of_ne {c' : ℕ} (h : c ≠ c') (pks : ℕ → List ExgMcPk) : (sys.setupReload args pks c').feeders c = sys.feeders c := by
  rw [McSystem.setupReload]
  split_ifs
  · rfl
  · exact foldlRecOn (motive := fun sys' : McSystem => sys'.feeders c = sys.feeders c) _ _ rfl fun sys' hsame pk _ =>
      (channelOnPkReceived_of_ne args sys' c h pk).trans hsame

theorem startup_draws (opened : ℕ → Option Bytes) (pks : ℕ → List ExgMcPk) :
    Draws {} ((McSystem.startup args opened pks).feeders c) (pks c) (packets ((McSystem.startup args opened pks).feeders c).pkPendings) := by
  have hothers : ∀ (cs : List ℕ) (sys : McSystem), c ∉ cs → (cs.foldl (McSystem.setupReload args pks) sys).feeders c = sys.feeders c := by
    intro cs sys hc
    exact foldlRecOn (motive := fun sys' : McSystem => sys'.feeders c = sys.feeders c) _ _ rfl fun sys' hsame c' hc' =>
      (setupReload_of_ne args sys' c (fun heq => hc (heq ▸ hc')) pks).trans hsame
  rw [McSystem.startup]
  by_cases hc : c ∈ range kChannelCount
  · obtain ⟨pre, post, hrange⟩ := append_of_mem hc
    have hnodup := hrange ▸ nodup_range (n := kChannelCount)
    obtain ⟨hpre, hpost⟩ := nodup_middle.mp hnodup |> nodup_cons.mp |> And.left |> mem_append.not.mp |> not_or.mp
    rw [hrange, foldl_append, foldl_cons, hothers post _ hpost]
    have hsame := hothers pre ⟨{ channels := fun c => startup c (opened c) }, fun _ => {}⟩ hpre
    have hdraws := setupReload_draws args (pre.foldl (McSystem.setupReload args pks)
      ⟨{ channels := fun c => startup c (opened c) }, fun _ => {}⟩) c pks (by rw [hsame]; rfl)
    rwa [hsame] at hdraws
  · rw [hothers _ _ hc]
    exact .quiet rfl (Multiset.zero_le _)

/-- From the start on a channel hands over what was in its log or has come to it, none of it more often than it
was there, and what waits behind a gap is not handed over. -/
theorem channel_conserves (opened : ℕ → Option Bytes) (pks : ℕ → List ExgMcPk) (ops : List ChannelsOp) :
    let feeder := (channelsRun args (McSystem.startup args opened pks) ops).feeders c
    (feeder.received.map Received.pk : Multiset ExgMcPk) + packets feeder.pkPendings ≤ pks c + ops.flatMap (ChannelsOp.packetOf c) := by
  intro feeder
  have hrun := ((startup_draws args c opened pks).frame (ops.flatMap (ChannelsOp.packetOf c))).trans
    (channelsRun_draws args (McSystem.startup args opened pks) c ops)
  obtain ⟨news, hnews, hle⟩ := hrun
  have hnews : feeder.received = news := hnews
  rw [hnews, add_comm (pks c : Multiset ExgMcPk)]
  exact hle

end Runs

/-! ### The reset -/

/-- Only packets of `pks` are handed over, none more often than it is there. -/
def DeliversOf (s s' : PkContFeeder ExgMcPk) (pks : List ExgMcPk) : Prop :=
  ∃ news : List (Received ExgMcPk), s'.received = s.received ++ news ∧ List.Subperm (news.map Received.pk) pks

theorem onPkSeqReset_restarts_iff (args : McArgs) (sys : McSystem) (k : Fin 2) (reset : ExgMcPk) :
    (∀ pks : List ExgMcPk, NumberedFrom 1 pks →
      ((∀ pre, pre <+: pks → DeliversAtOnce (sys.feeders (realtimeChannel k))
        (((sys.onPkSeqReset args (realtimeChannel k) reset).receiveAll args (realtimeChannel k) pre).feeders (realtimeChannel k))
        pre) ↔
      pks = [] ∨ (sys.feeders (realtimeChannel k)).receivedCount = 0 ∨ args.waitInterval (realtimeChannel k) = 0)) ∧
    ∀ ops : List ChannelsOp, DeliversOf (sys.feeders (realtimeChannel k))
      ((channelsRun args (sys.onPkSeqReset args (realtimeChannel k) reset) ops).feeders (realtimeChannel k))
      (ops.flatMap (ChannelsOp.packetOf (realtimeChannel k))) := by
  have hreset := onPkSeqReset_feeder args sys (realtimeChannel k) reset
  have hclear : DeliversAtOnce (sys.feeders (realtimeChannel k))
      ((sys.onPkSeqReset args (realtimeChannel k) reset).feeders (realtimeChannel k)) [] := by
    rw [hreset]
    exact ⟨⟨[], (List.append_nil _).symm, rfl⟩, rfl, rfl⟩
  have hzero : ((sys.onPkSeqReset args (realtimeChannel k) reset).feeders (realtimeChannel k)).nextSeq = 0 := by
    rw [hreset]
  have hcount : ((sys.onPkSeqReset args (realtimeChannel k) reset).feeders (realtimeChannel k)).receivedCount =
      (sys.feeders (realtimeChannel k)).receivedCount := by
    rw [hreset]
  have hpend := hclear.pending
  generalize sys.onPkSeqReset args (realtimeChannel k) reset = sys' at *
  refine ⟨fun pks hpks => ⟨fun h => ?_, fun h pre hpre => ?_⟩, fun ops => ?_⟩
  · cases pks with
    | nil => exact .inl rfl
    | cons pk pks =>
      obtain ⟨hseq, hmessage, -⟩ := hpks.head
      refine .inr ?_
      by_contra hcond
      obtain ⟨hcount', hwait⟩ := not_or.mp hcond
      have hpending := (h [pk] ⟨pks, rfl⟩).pending
      rw [receiveAll_cons, channelOnPkReceived_message args sys' k hmessage] at hpending
      have hwaits := feedPacket_waits args sys' k hseq hzero (hcount ▸ hcount') hwait
      have hlast : (sys'.feedPacket args (realtimeChannel k) pk).feeders (realtimeChannel k) =
          ((sys'.feedPacket args (realtimeChannel k) pk).receiveAll args (realtimeChannel k) []).feeders (realtimeChannel k) := rfl
      rw [← hlast, hwaits, PkContFeeder.insertPending, hpend] at hpending
      cases hpending
  · cases pre with
    | nil => exact hclear
    | cons pk pre =>
      obtain ⟨post, rfl⟩ := hpre
      have hpks : NumberedFrom 1 (pk :: (pre ++ post)) := hpks
      obtain ⟨hseq, hmessage, -⟩ := hpks.head
      obtain ⟨hone, hafter⟩ := feedPacket_delivers args sys' k hpend
        (.inr ⟨hzero, hseq, by rw [hcount]; exact h.resolve_left (List.cons_ne_nil _ _)⟩)
      rw [receiveAll_cons, channelOnPkReceived_message args sys' k hmessage]
      have hfirst := hclear.trans hone
      refine hfirst.trans (receiveAll_delivers args _ k (n := 2) hpks.tail.left hone.pending fun _ => ?_)
      rw [hafter, hseq]
      exact afterReceived_of_lt (by show 9999999999 < 2 ^ 64; decide) (by show 1 < 9999999999; decide)
  · obtain ⟨news, hnews, hle⟩ := channelsRun_draws args sys' (realtimeChannel k) ops
    rw [hpend, packets_nil, add_zero] at hle
    obtain ⟨none, hnone, hnil⟩ := hclear.delivered
    rw [List.map_eq_nil_iff.mp hnil, List.map_nil, List.append_nil] at hnone
    refine ⟨news, ?_, Multiset.coe_le.mp ((Multiset.le_add_right _ _).trans hle)⟩
    rw [hnews, received_log hnone]

/-! ### Packet 1 again -/

/-- Packet 1 of channel 1. -/
def packet1 : ExgMcPk where
  data := [27, 0x32, 0x41, 0, 0, 0, 0, 0, 0, 0, 1, 0, 0, 0, 0, 1, 0, 0, 0, 0x73, 0x0d, 0x0a]
  leader := rfl
  size := by decide
  crLf := by decide
  checkSum := by decide

/-- The reset of channel 1. -/
def seqReset1 : ExgMcPk where
  data := [27, 0x30, 0x32, 0, 0, 0, 0, 0, 0, 0, 1, 0, 0, 0, 0, 0, 0, 0, 0, 0x03, 0x0d, 0x0a]
  leader := rfl
  size := by decide
  crLf := by decide
  checkSum := by decide

theorem packet1_numbered : NumberedFrom 1 [packet1] := ⟨by decide +kernel, by decide +kernel, by decide +kernel⟩

/-- Without logs nothing is reloaded. -/
theorem startup_none (args : McArgs) (logged : ℕ → List ExgMcPk) :
    McSystem.startup args (fun _ => none) logged =
      ⟨{ channels := fun c => startup c none }, fun _ => {}⟩ := by
  rw [McSystem.startup]
  apply foldl_fixed'
  intro c
  have hnone : (startup c none).pkLog = none := by
    rw [startup]
    dsimp only
    split_ifs <;> rfl
  rw [McSystem.setupReload]
  dsimp only
  rw [hnone]
  exact if_pos (.inl rfl)

/-- Before the first packet. -/
theorem onPkSeqReset_restarts_iff_new :
    ∀ pre, pre <+: [packet1] → DeliversAtOnce {}
      (((McSystem.mk ⟨fun _ => {}, 0, []⟩ fun _ => {}).onPkSeqReset ⟨fun _ => 0, fun _ => 5000⟩ 1 seqReset1).receiveAll
        ⟨fun _ => 0, fun _ => 5000⟩ 1 pre |>.feeders 1) pre :=
  ((onPkSeqReset_restarts_iff ⟨fun _ => 0, fun _ => 5000⟩ ⟨⟨fun _ => {}, 0, []⟩, fun _ => {}⟩ 1 seqReset1).1
    [packet1] packet1_numbered).mpr (.inr (.inl rfl))

/-- Behind packet 1 comes the reset, and packet 1 again, which stays pending. -/
theorem packet1_waits :
    ¬ ∀ (args : McArgs) (opened : ℕ → Option Bytes) (logged : ℕ → List ExgMcPk) (ops : List ChannelsOp) (k : Fin 2)
      (reset : ExgMcPk) (pks : List ExgMcPk), NumberedFrom 1 pks →
        ∀ pre, pre <+: pks → DeliversAtOnce
          ((channelsRun args (McSystem.startup args opened logged) ops).feeders (realtimeChannel k))
          ((((channelsRun args (McSystem.startup args opened logged) ops).onPkSeqReset args (realtimeChannel k) reset).receiveAll
            args (realtimeChannel k) pre).feeders (realtimeChannel k)) pre := by
  intro h
  have hpend := (h ⟨fun _ => 0, fun _ => 5000⟩ (fun _ => none) (fun _ => []) [.op (.onPkReceived packet1)] 1 seqReset1
    [packet1] packet1_numbered [packet1] (List.prefix_refl _)).pending
  rw [startup_none] at hpend
  exact List.cons_ne_nil (⟨packet1, 1⟩ : PkRec ExgMcPk) [] hpend

end Fon9.Mc
