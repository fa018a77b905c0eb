import Fon9.Auth.DupLogon

/-! Runs of logins and closes. Each record that a client points at is in the table of its policy, or is still to be told of; the
table has the records in the order of the logins, and its length is the count. -/

namespace Fon9.Auth.DupLogon

open Lib Sch UserTree SortedVector List Function Option Event MasterItem

variable {Client : Type}

/-! ### Tables -/

variable {r : PoDupLogonOnline Client} {policyId : Bytes} {cli : Client} {master : MasterItem Client}
  {before after : List (PoDupLogonOnline Client)}

namespace Agent

variable (a : Agent Client) (policyId q : Bytes) (master : MasterItem Client)

def table : List (PoDupLogonOnline Client) := ((a.itemMap policyId).map MasterItem.sapling).getD []

def count : UInt16 := ((a.itemMap policyId).map MasterItem.onlineCount).getD 0

def lastSeqNo : UInt64 := ((a.itemMap policyId).map MasterItem.nextSeqNo).getD 0

variable {a policyId master}

theorem table_of_some (h : a.itemMap policyId = some master) : a.table policyId = master.sapling := by
  rw [table, h]
  rfl

theorem count_of_some (h : a.itemMap policyId = some master) : a.count policyId = master.onlineCount := by
  rw [count, h]
  rfl

theorem lastSeqNo_of_some (h : a.itemMap policyId = some master) : a.lastSeqNo policyId = master.nextSeqNo := by
  rw [lastSeqNo, h]
  rfl

theorem some_of_mem_table (h : r ∈ a.table policyId) :
    ∃ master, a.itemMap policyId = some master ∧ r ∈ master.sapling := by
  rw [table] at h
  cases hm : a.itemMap policyId with
  | none =>
    rw [hm] at h
    cases h
  | some master =>
    rw [hm] at h
    exact ⟨master, rfl, h⟩

variable (a policyId master)

theorem itemMap_setMaster : (a.setMaster policyId master).itemMap q = if q = policyId then some master else a.itemMap q :=
  update_apply _ _ _ _

theorem itemMap_setMaster_self : (a.setMaster policyId master).itemMap policyId = some master :=
  update_self _ _ _

theorem isSome_setMaster (h : (a.itemMap policyId).isSome = true) :
    ((a.setMaster policyId master).itemMap q).isSome = (a.itemMap q).isSome := by
  rw [itemMap_setMaster]
  split_ifs with hq
  · rw [hq, h]
    rfl
  · rfl

theorem table_setMaster : (a.setMaster policyId master).table q = if q = policyId then master.sapling else a.table q := by
  rw [table, itemMap_setMaster]
  split_ifs <;> rfl

theorem count_setMaster : (a.setMaster policyId master).count q = if q = policyId then master.onlineCount else a.count q := by
  rw [count, itemMap_setMaster]
  split_ifs <;> rfl

theorem lastSeqNo_setMaster :
    (a.setMaster policyId master).lastSeqNo q = if q = policyId then master.nextSeqNo else a.lastSeqNo q := by
  rw [lastSeqNo, itemMap_setMaster]
  split_ifs <;> rfl

theorem findMaster_some {a : Agent Client} {logonId protocolId : Bytes} {found : Bytes × MasterItem Client}
    (h : a.findMaster logonId protocolId = some found) : a.itemMap found.1 = some found.2 := by
  have huser : ((a.itemMap logonId).map fun master => (logonId, master)) = some found → a.itemMap found.1 = some found.2 := by
    intro hmap
    obtain ⟨master, hmaster, rfl⟩ := map_eq_some_iff.mp hmap
    exact hmaster
  rw [findMaster] at h
  split_ifs at h with hprotocol
  · exact huser h
  · dsimp only at h
    split at h
    · next master hmaster =>
      cases h
      exact hmaster
    · exact huser h

/-! ### The invariant -/

variable [DecidableEq Client]

theorem releaseOnline_of_none {a : Agent Client} (h : a.online r.client = none) :
    a.releaseOnline r = some a := by
  rw [releaseOnline, h]
  rfl

/-- What holds between the calls. -/
structure Inv (a : Agent Client) (history : List (Event Client)) : Prop where
  counted : ∀ p, (a.count p).toNat = (a.table p).length
  sorted : ∀ p, Sorted bySeqNo (a.table p)
  mine : ∀ p, ∀ r ∈ a.table p, a.online r.client = some r ∧ r.owner = p ∧ r.seqNo ≤ a.lastSeqNo p
  waiting : ∀ r ∈ a.waiting, a.online r.client = some r ∧ (a.itemMap r.owner).isSome = true ∧
    r.seqNo ≤ a.lastSeqNo r.owner ∧ ∀ x ∈ a.table r.owner, x.seqNo ≠ r.seqNo
  waitingOnce : a.waiting.Nodup
  there : ∀ cli r, a.online cli = some r → r.client = cli ∧ (r ∈ a.table r.owner ∨ r ∈ a.waiting)
  onlineAccepted : ∀ cli r, a.online cli = some r → ∃ p, .accepted p cli ∈ history
  listed : ∀ p cli, cli ∈ (a.table p).map (·.client) ↔ Standing p cli history
  inOrder : ∀ p, ((a.table p).map (·.client)).Sublist (acceptedBy p history)
  once : ∀ p, (acceptedBy p history).Nodup
  told : ∀ cli, (a.forceLogouts.map Prod.fst).count cli + (a.waiting.map (·.client)).count cli =
    if Event.kicked cli ∈ history then 1 else 0
  kickedGone : ∀ cli, .kicked cli ∈ history → ∀ p, cli ∉ (a.table p).map (·.client)
  kickedAccepted : ∀ cli, .kicked cli ∈ history → ∃ p, .accepted p cli ∈ history

variable {a policyId master} {history : List (Event Client)}

theorem Fresh.inv (h : a.Fresh) : a.Inv [] := by
  have htable : ∀ p, a.table p = [] := by
    intro p
    rw [table]
    cases hm : a.itemMap p with
    | none => rfl
    | some m => exact (h.master p m hm).2.2
  have hcount : ∀ p, a.count p = 0 := by
    intro p
    rw [count]
    cases hm : a.itemMap p with
    | none => rfl
    | some m => exact (h.master p m hm).1
  have hwaiting : a.waiting = [] := by rw [Agent.waiting, h.autoDupLogouts, flatMap_nil]
  constructor
  · intro p
    rw [hcount, htable]
    rfl
  · intro p
    rw [htable]
    exact List.Pairwise.nil
  · intro p r hr
    rw [htable] at hr
    cases hr
  · intro r hr
    rw [hwaiting] at hr
    cases hr
  · rw [hwaiting]
    exact nodup_nil
  · intro cli r hr
    rw [h.online] at hr
    cases hr
  · intro cli r hr
    rw [h.online] at hr
    cases hr
  · intro p cli
    rw [htable]
    constructor
    · intro hcli
      cases hcli
    · intro hst
      cases hst.accepted
  · intro p
    rw [htable]
    exact nil_sublist _
  · intro p
    exact nodup_nil
  · intro cli
    rw [hwaiting, h.forceLogouts]
    rfl
  · intro cli hcli
    cases hcli
  · intro cli hcli
    cases hcli

/-- Between the calls a client that was kicked can close. -/
theorem Inv.close_absent (h : a.Inv history) (habsent : ∀ p, cli ∉ (a.table p).map (·.client)) :
    a.onLogonClientClosed cli = some a := by
  rw [onLogonClientClosed]
  cases honline : a.online cli with
  | none => rfl
  | some r =>
    obtain ⟨rfl, hin | hin⟩ := h.there cli r honline
    · exact absurd (mem_map_of_mem hin) (habsent _)
    · obtain ⟨-, hsome, -, hothers⟩ := h.waiting r hin
      obtain ⟨master, hm⟩ := isSome_iff_exists.mp hsome
      have hsorted := h.sorted r.owner
      rw [table_of_some hm] at hsorted hothers
      dsimp only
      rw [hm, bind_eq_bind, bind_some, find_absent hsorted hothers, bind_eq_bind, bind_some,
        if_pos rfl]

theorem Inv.accounts (h : a.Inv history) : a.Accounts history where
  counted p m hm := by rw [← count_of_some hm, ← table_of_some hm, h.counted]
  listed p m hm cli := by rw [← table_of_some hm, h.listed]
  inOrder p m hm := by
    rw [← table_of_some hm]
    exact h.inOrder p
  once := h.once
  told := h.told
  closedLater cli hcli := h.close_absent (h.kickedGone cli hcli)

/-- What leaves the tables, the clients and the logouts as they are keeps the invariant. -/
theorem Inv.of_same (h : a.Inv history) {after : Agent Client} (htable : ∀ p, after.table p = a.table p)
    (hcount : ∀ p, after.count p = a.count p) (hlast : ∀ p, a.lastSeqNo p ≤ after.lastSeqNo p)
    (hsome : ∀ p, (after.itemMap p).isSome = (a.itemMap p).isSome) (honline : after.online = a.online)
    (hlogouts : after.autoDupLogouts = a.autoDupLogouts) (hforce : after.forceLogouts = a.forceLogouts) :
    after.Inv history := by
  have hwaiting : after.waiting = a.waiting := by rw [Agent.waiting, hlogouts, Agent.waiting]
  constructor
  · intro p
    rw [hcount, htable]
    exact h.counted p
  · intro p
    rw [htable]
    exact h.sorted p
  · intro p r hr
    rw [htable] at hr
    obtain ⟨hon, hown, hle⟩ := h.mine p r hr
    rw [honline]
    exact ⟨hon, hown, UInt64.le_trans hle (hlast p)⟩
  · intro r hr
    rw [hwaiting] at hr
    obtain ⟨hon, his, hle, hothers⟩ := h.waiting r hr
    rw [honline, hsome, htable]
    exact ⟨hon, his, UInt64.le_trans hle (hlast _), hothers⟩
  · rw [hwaiting]
    exact h.waitingOnce
  · intro cli r hr
    rw [honline] at hr
    rw [htable, hwaiting]
    exact h.there cli r hr
  · intro cli r hr
    rw [honline] at hr
    exact h.onlineAccepted cli r hr
  · intro p cli
    rw [htable]
    exact h.listed p cli
  · intro p
    rw [htable]
    exact h.inOrder p
  · exact h.once
  · intro cli
    rw [hforce, hwaiting]
    exact h.told cli
  · intro cli hcli p
    rw [htable]
    exact h.kickedGone cli hcli p
  · exact h.kickedAccepted

/-- So does a policy that is written with its table and its count. -/
theorem Inv.of_setMaster (h : a.Inv history) {master after : MasterItem Client}
    (hm : a.itemMap policyId = some master) (htable : after.sapling = master.sapling)
    (hcount : after.onlineCount = master.onlineCount)
    (hlast : ∀ q, a.lastSeqNo q ≤ (a.setMaster policyId after).lastSeqNo q)
    : (a.setMaster policyId after).Inv history := by
  refine h.of_same ?_ ?_ hlast ?_ rfl rfl rfl
  · intro q
    rw [table_setMaster]
    split_ifs with hq
    · rw [hq, table_of_some hm, htable]
    · rfl
  · intro q
    rw [count_setMaster]
    split_ifs with hq
    · rw [hq, count_of_some hm, hcount]
    · rfl
  · intro q
    exact isSome_setMaster a policyId q _ (by rw [hm]; rfl)

end Agent

namespace Agent

variable [DecidableEq Client] {a : Agent Client} {history : List (Event Client)}

theorem Inv.client_inj (h : a.Inv history) {p q : Bytes} {r x : PoDupLogonOnline Client} (hr : r ∈ a.table p)
    (hx : x ∈ a.table q) (hclient : x.client = r.client) : x = r ∧ q = p := by
  have hon := (h.mine p r hr).1
  have hon' := (h.mine q x hx).1
  rw [hclient, hon] at hon'
  cases hon'
  exact ⟨rfl, (h.mine q r hx).2.1.symm.trans (h.mine p r hr).2.1⟩

/-- A client that was not accepted has no record. -/
theorem Inv.offline (h : a.Inv history) (hunknown : ∀ p, .accepted p cli ∉ history) : a.online cli = none := by
  cases hon : a.online cli with
  | none => rfl
  | some r =>
    obtain ⟨p, hp⟩ := h.onlineAccepted cli r hon
    exact absurd hp (hunknown p)

variable {p : Bytes}

/-- A record that is still to be told of is in no table. -/
theorem Inv.notMem_waiting (h : a.Inv history) (hr : r ∈ a.table p) :
    r ∉ a.waiting := by
  intro hw
  have howner := (h.mine p r hr).2.1
  have hothers := (h.waiting r hw).2.2.2
  rw [howner] at hothers
  exact hothers r hr rfl

theorem Inv.notMem_waiting_client (h : a.Inv history) {r x : PoDupLogonOnline Client} (hr : r ∈ a.table p)
    (hx : x ∈ a.waiting) : x.client ≠ r.client := by
  intro hclient
  have hon := (h.waiting x hx).1
  rw [hclient, (h.mine p r hr).1] at hon
  cases hon
  exact h.notMem_waiting hr hx

/-! ### Closing -/

omit [DecidableEq Client] in
theorem mem_closed {c : Client} : kicked c ∈ history ++ [.closed cli] ↔ .kicked c ∈ history := by simp

omit [DecidableEq Client] in
theorem acceptedBy_closed (p : Bytes) : acceptedBy p (history ++ [.closed cli]) = acceptedBy p history := by
  rw [acceptedBy_snoc]
  exact append_nil _

omit [DecidableEq Client] in
theorem standing_closed {c : Client} : Standing p c (history ++ [.closed cli]) ↔ Standing p c history ∧ c ≠ cli := by
  rw [standing_snoc]
  simp [eq_comm]

/-- A client that forgot its record is another one. -/
theorem online_of_update {online : Client → Option (PoDupLogonOnline Client)} {c : Client}
    (h : update online cli none c = some r) : c ≠ cli ∧ online c = some r := by
  have hc : c ≠ cli := by
    rintro rfl
    rw [update_self] at h
    cases h
  rw [update_of_ne hc] at h
  exact ⟨hc, h⟩

theorem Inv.closed_absent (h : a.Inv history) (habsent : ∀ p, cli ∉ (a.table p).map (·.client)) :
    a.Inv (history ++ [.closed cli]) where
  counted := h.counted
  sorted := h.sorted
  mine := h.mine
  waiting := h.waiting
  waitingOnce := h.waitingOnce
  there := h.there
  onlineAccepted c r hr := by
    obtain ⟨p, hp⟩ := h.onlineAccepted c r hr
    exact ⟨p, mem_append_left _ hp⟩
  listed p c := by
    rw [standing_closed, h.listed]
    refine (and_iff_left_of_imp ?_).symm
    rintro hst rfl
    exact habsent p ((h.listed p c).mpr hst)
  inOrder p := by
    rw [acceptedBy_closed]
    exact h.inOrder p
  once p := by
    rw [acceptedBy_closed]
    exact h.once p
  told c := by simpa using h.told c
  kickedGone c hc := h.kickedGone c (mem_closed.mp hc)
  kickedAccepted c hc := by
    obtain ⟨p, hp⟩ := h.kickedAccepted c (mem_closed.mp hc)
    exact ⟨p, mem_append_left _ hp⟩

theorem Inv.close_there (h : a.Inv history) (hm : a.itemMap p = some master)
    (hsplit : master.sapling = before ++ r :: after) :
    a.onLogonClientClosed r.client = some (a.removed p master r.client (before ++ after)) := by
  have hr : r ∈ a.table p := by
    rw [table_of_some hm, hsplit]
    simp
  obtain ⟨hon, rfl, -⟩ := h.mine p r hr
  have hsorted := h.sorted r.owner
  rw [table_of_some hm, hsplit] at hsorted
  have hread : read master.sapling (before.length : ℤ) = some r := by
    rw [hsplit, read_eq (by simp)]
    simp
  have herase : erase master.sapling before.length (before.length + 1) = before ++ after := by
    rw [erase, hsplit, take_left, drop_append]
    simp
  have hne : ¬ (before.length : ℤ) = master.sapling.length := by
    rw [hsplit, length_append, length_cons]
    omega
  have hfind : find bySeqNo master.sapling r = some (before.length : ℤ) := by
    rw [hsplit]
    exact find_there hsorted
  have hreleased : (a.removed r.owner master r.client (before ++ after)).releaseOnline r =
      some (a.removed r.owner master r.client (before ++ after)) := releaseOnline_of_none (update_self _ _ _)
  rw [onLogonClientClosed, hon]
  dsimp only
  rw [hm, bind_eq_bind, bind_some, hfind, bind_eq_bind, bind_some, if_neg hne, takeOnline, hread,
    bind_eq_bind, bind_some, if_pos rfl, Int.toNat_natCast, herase, hreleased]

theorem Inv.removed (h : a.Inv history) (hm : a.itemMap p = some master)
    (hsplit : master.sapling = before ++ r :: after) :
    (a.removed p master r.client (before ++ after)).Inv (history ++ [.closed r.client]) := by
  have htable : a.table p = before ++ r :: after := (table_of_some hm).trans hsplit
  have hr : r ∈ a.table p := by
    rw [htable]
    simp
  have hsorted := h.sorted p
  rw [htable] at hsorted
  have hnot := notMem_of_sorted hsorted
  have htable' : ∀ q, (a.removed p master r.client (before ++ after)).table q =
      if q = p then before ++ after else a.table q := by
    intro q
    exact table_setMaster a p q _
  have hcount' : ∀ q, (a.removed p master r.client (before ++ after)).count q =
      if q = p then master.onlineCount - 1 else a.count q := by
    intro q
    exact count_setMaster a p q _
  have hlast' : ∀ q, (a.removed p master r.client (before ++ after)).lastSeqNo q = a.lastSeqNo q := by
    intro q
    refine (lastSeqNo_setMaster a p q _).trans ?_
    split_ifs with hq
    · rw [hq, lastSeqNo_of_some hm]
    · rfl
  have hsub : ∀ q, ((a.removed p master r.client (before ++ after)).table q).Sublist (a.table q) := by
    intro q
    rw [htable']
    split_ifs with hq
    · rw [hq, htable]
      exact (List.Sublist.refl before).append (sublist_cons_self r after)
    · exact List.Sublist.refl _
  have hmem : ∀ q x, x ∈ (a.removed p master r.client (before ++ after)).table q ↔ x ∈ a.table q ∧ x.client ≠ r.client := by
    intro q x
    constructor
    · intro hx
      have hx' := (hsub q).subset hx
      refine ⟨hx', fun hclient => ?_⟩
      obtain ⟨rfl, rfl⟩ := h.client_inj hr hx' hclient
      rw [htable', if_pos rfl] at hx
      exact hnot hx
    · rintro ⟨hx, hclient⟩
      rw [htable']
      split_ifs with hq
      · rw [hq, htable] at hx
        have hne : x ≠ r := fun heq => hclient (heq ▸ rfl)
        simp only [mem_append, mem_cons] at hx ⊢
        obtain hx | hx | hx := hx
        · exact .inl hx
        · exact absurd hx hne
        · exact .inr hx
      · exact hx
  constructor
  · intro q
    rw [hcount', htable']
    have hcounted := h.counted q
    split_ifs with hq
    · rw [hq, count_of_some hm, htable, length_append, length_cons] at hcounted
      have hone : (1 : UInt16) ≤ master.onlineCount := by
        rw [UInt16.le_iff_toNat_le, UInt16.toNat_one]
        omega
      rw [UInt16.toNat_sub_of_le _ _ hone, UInt16.toNat_one, hcounted, length_append]
      omega
    · exact hcounted
  · intro q
    exact (h.sorted q).sublist (hsub q)
  · intro q x hx
    obtain ⟨hx, hclient⟩ := (hmem q x).mp hx
    rw [hlast']
    obtain ⟨hon, hrest⟩ := h.mine q x hx
    exact ⟨(update_of_ne hclient _ _).trans hon, hrest⟩
  · intro x hx
    obtain ⟨hon, hsome, hle, hothers⟩ := h.waiting x hx
    refine ⟨(update_of_ne (h.notMem_waiting_client hr hx) _ _).trans hon, ?_, ?_, ?_⟩
    · exact (isSome_setMaster a p x.owner _ (by rw [hm]; rfl)).trans hsome
    · rw [hlast']
      exact hle
    · intro y hy
      exact hothers y ((hsub _).subset hy)
  · exact h.waitingOnce
  · intro c x hx
    obtain ⟨hc, hx⟩ := online_of_update hx
    obtain ⟨hclient, hin⟩ := h.there c x hx
    refine ⟨hclient, hin.imp_left fun hin => (hmem _ x).mpr ⟨hin, ?_⟩⟩
    rwa [hclient]
  · intro c x hx
    obtain ⟨q, hq⟩ := h.onlineAccepted c x (online_of_update hx).2
    exact ⟨q, mem_append_left _ hq⟩
  · intro q c
    rw [standing_closed, ← h.listed]
    simp only [List.mem_map, hmem]
    constructor
    · rintro ⟨x, ⟨hx, hne⟩, rfl⟩
      exact ⟨⟨x, hx, rfl⟩, hne⟩
    · rintro ⟨⟨x, hx, rfl⟩, hne⟩
      exact ⟨x, ⟨hx, hne⟩, rfl⟩
  · intro q
    rw [acceptedBy_closed]
    exact ((hsub q).map _).trans (h.inOrder q)
  · intro q
    rw [acceptedBy_closed]
    exact h.once q
  · intro c
    simp only [mem_closed]
    exact h.told c
  · intro c hc q hin
    exact h.kickedGone c (mem_closed.mp hc) q (((hsub q).map _).subset hin)
  · intro c hc
    obtain ⟨q, hq⟩ := h.kickedAccepted c (mem_closed.mp hc)
    exact ⟨q, mem_append_left _ hq⟩

theorem Inv.close (h : a.Inv history) (cli : Client) :
    ∃ after, a.onLogonClientClosed cli = some after ∧ after.Inv (history ++ [.closed cli]) := by
  by_cases habsent : ∀ p, cli ∉ (a.table p).map (·.client)
  · exact ⟨a, h.close_absent habsent, h.closed_absent habsent⟩
  · simp only [not_forall, not_not, List.mem_map] at habsent
    obtain ⟨p, r, hr, rfl⟩ := habsent
    obtain ⟨master, hm, hr⟩ := some_of_mem_table hr
    obtain ⟨before, after, hsplit⟩ := append_of_mem hr
    exact ⟨_, h.close_there hm hsplit, h.removed hm hsplit⟩

end Agent

namespace Agent

variable [DecidableEq Client] {a : Agent Client} {history : List (Event Client)}

/-! ### Telling -/

/-- The client is told, and forgets its record. -/
def toldOf (a : Agent Client) (r : PoDupLogonOnline Client) (reason : Bytes) (logouts : List (AutoDupLogout Client)) :
    Agent Client :=
  { a with
    online := Function.update a.online r.client none
    autoDupLogouts := logouts
    forceLogouts := a.forceLogouts ++ [(r.client, reason)] }

theorem forceLogout_self (h : a.online r.client = some r) (reason : Bytes) :
    a.forceLogout r reason = some (a.toldOf r reason a.autoDupLogouts) := by
  rw [forceLogout, h]
  exact if_pos ⟨rfl, rfl⟩

theorem releaseOnline_self (h : a.online r.client = some r) :
    a.releaseOnline r = some (a.toldOf r (text "Online.dtor".toList) a.autoDupLogouts) := by
  have hsome : (a.online r.client).isSome = true := by
    rw [h]
    rfl
  rw [releaseOnline, if_pos hsome, forceLogout_self h]

variable {old : PoDupLogonOnline Client}

omit [DecidableEq Client] in
theorem waiting_set {a : Agent Client} {k : ℕ} {logout : AutoDupLogout Client} {olds : List (PoDupLogonOnline Client)}
    (hk : a.autoDupLogouts[k]? = some logout) (hold : logout.olds = old :: olds) :
    ∃ before after, a.waiting = before ++ old :: after ∧
      (a.autoDupLogouts.set k { logout with olds }).flatMap AutoDupLogout.olds = before ++ after := by
  obtain ⟨hlt, hget⟩ := List.getElem?_eq_some_iff.mp hk
  have hsplit : a.autoDupLogouts = a.autoDupLogouts.take k ++ logout :: a.autoDupLogouts.drop (k + 1) := by
    rw [← hget, ← drop_eq_getElem_cons hlt, take_append_drop]
  refine ⟨(a.autoDupLogouts.take k).flatMap AutoDupLogout.olds,
    olds ++ (a.autoDupLogouts.drop (k + 1)).flatMap AutoDupLogout.olds, ?_, ?_⟩
  · rw [waiting]
    conv_lhs => rw [hsplit]
    rw [flatMap_append, flatMap_cons, hold, cons_append]
  · rw [set_eq_take_append_cons_drop, if_pos hlt, flatMap_append, flatMap_cons]

theorem Inv.tell_next (h : a.Inv history) {k : ℕ} {logout : AutoDupLogout Client}
    {olds : List (PoDupLogonOnline Client)} (hk : a.autoDupLogouts[k]? = some logout)
    (hold : logout.olds = old :: olds) :
    a.tellLogout k = some
      (a.toldOf old (text "DupLogon:".toList ++ logout.newFrom) (a.autoDupLogouts.set k { logout with olds })) := by
  obtain ⟨before, after, hwaiting, -⟩ := waiting_set hk hold
  have hold' : old ∈ a.waiting := by
    rw [hwaiting]
    simp
  have hon := (h.waiting old hold').1
  rw [tellLogout, hk]
  dsimp only
  rw [hold]
  exact forceLogout_self (a := { a with autoDupLogouts := a.autoDupLogouts.set k { logout with olds } }) hon _

theorem Inv.toldOf (h : a.Inv history) (hwaiting : a.waiting = before ++ old :: after)
    {logouts : List (AutoDupLogout Client)} (hleft : logouts.flatMap AutoDupLogout.olds = before ++ after)
    (reason : Bytes) :
    (a.toldOf old reason logouts).Inv history := by
  have hold : old ∈ a.waiting := by
    rw [hwaiting]
    simp
  have hon := (h.waiting old hold).1
  have honce := h.waitingOnce
  rw [hwaiting] at honce
  have hnot : old ∉ before ++ after := (nodup_middle.mp honce).notMem
  have hmem : ∀ x, x ∈ before ++ after ↔ x ∈ a.waiting ∧ x.client ≠ old.client := by
    intro x
    constructor
    · intro hx
      have hx' : x ∈ a.waiting := by
        rw [hwaiting]
        simp only [mem_append, mem_cons] at hx ⊢
        tauto
      refine ⟨hx', fun hclient => ?_⟩
      have hxon := (h.waiting x hx').1
      rw [hclient, hon] at hxon
      cases hxon
      exact hnot hx
    · rintro ⟨hx, hclient⟩
      have hne : x ≠ old := fun heq => hclient (heq ▸ rfl)
      rw [hwaiting] at hx
      simp only [mem_append, mem_cons] at hx ⊢
      tauto
  have hwaiting' : (a.toldOf old reason logouts).waiting = before ++ after := hleft
  constructor
  · exact h.counted
  · exact h.sorted
  · intro p x hx
    obtain ⟨hxon, hrest⟩ := h.mine p x hx
    exact ⟨(update_of_ne (h.notMem_waiting_client hx hold).symm _ _).trans hxon, hrest⟩
  · intro x hx
    rw [hwaiting', hmem] at hx
    obtain ⟨hxon, hrest⟩ := h.waiting x hx.1
    exact ⟨(update_of_ne hx.2 _ _).trans hxon, hrest⟩
  · rw [hwaiting']
    exact (nodup_middle.mp honce).of_cons
  · intro c x hx
    obtain ⟨hc, hx⟩ := online_of_update hx
    obtain ⟨hclient, hin⟩ := h.there c x hx
    refine ⟨hclient, hin.imp_right fun hin => ?_⟩
    rw [hwaiting', hmem, hclient]
    exact ⟨hin, hc⟩
  · intro c x hx
    exact h.onlineAccepted c x (online_of_update hx).2
  · exact h.listed
  · exact h.inOrder
  · exact h.once
  · intro c
    have htold := h.told c
    rw [hwaiting] at htold
    rw [hwaiting', ← htold]
    simp only [Agent.toldOf, map_append, map_cons, map_nil, count_append, count_cons, count_nil]
    omega
  · exact h.kickedGone
  · exact h.kickedAccepted

theorem Inv.tell (h : a.Inv history) (k : ℕ) :
    ∃ after, a.tellLogout k = some after ∧ a.TellRight k after ∧ after.Inv history := by
  cases hk : a.autoDupLogouts[k]? with
  | none =>
    refine ⟨a, ?_, ?_, h⟩
    · rw [tellLogout, hk]
    · intro logout old olds hlogout
      rw [hk] at hlogout
      cases hlogout
  | some logout =>
    cases hold : logout.olds with
    | nil =>
      refine ⟨a, ?_, ?_, h⟩
      · rw [tellLogout, hk]
        dsimp only
        rw [hold]
      · intro logout' old olds hlogout holds
        rw [hk] at hlogout
        cases hlogout
        rw [hold] at holds
        cases holds
    | cons old olds =>
      obtain ⟨before, after, hwaiting, hleft⟩ := waiting_set hk hold
      refine ⟨_, h.tell_next hk hold, ?_, h.toldOf hwaiting hleft _⟩
      intro logout' old' olds' hlogout holds
      rw [hk] at hlogout
      cases hlogout
      rw [hold] at holds
      cases holds
      exact ⟨rfl, rfl⟩

end Agent

namespace Agent

variable [DecidableEq Client] {a : Agent Client} {history : List (Event Client)}

/-! ### Logins -/

/-- What an accepted login leaves: the oldest are gone from the table, and the new record is its last. -/
def accepted (a : Agent Client) (policyId : Bytes) (master : MasterItem Client) (count : UInt16)
    (ousr : PoDupLogonOnline Client) (userFrom : Bytes) : Agent Client :=
  a.putOnline policyId master ⟨count, master.sapling.take master.needed, master.sapling.drop master.needed⟩ userFrom ousr
    (master.sapling.drop master.needed ++ [ousr])

theorem addOnline_of {room : Room Client} {authzId protocolId userFrom : Bytes}
    {r : List (PoDupLogonOnline Client) × ℤ} (honline : a.online cli = none) (hroom : master.room = some room)
    (hinsert : insertHint bySeqNo room.dmap ⟨cli, policyId, master.nextSeqNo, protocolId ++ ch '|' :: userFrom, authzId⟩ room.dmap.length = some r)
    :
    a.addOnline policyId master authzId protocolId userFrom cli =
      let ousr : PoDupLogonOnline Client := ⟨cli, policyId, master.nextSeqNo, protocolId ++ ch '|' :: userFrom, authzId⟩
      let after := a.putOnline policyId master room userFrom ousr r.1
      (if r.1.length = room.dmap.length then after.releaseOnline ousr else some after).map fun after =>
        (after, { act := RejectOld, cfg := master.act, olds := room.olds }) := by
  rw [addOnline, honline]
  dsimp only
  rw [hroom, bind_eq_bind, bind_some, hinsert, bind_eq_bind, bind_some, map_eq_bind]
  split_ifs <;> rfl

theorem addOnline_eq (hcount : master.onlineCount.toNat = master.sapling.length)
    (hsorted : Sorted bySeqNo master.sapling) (hnew : ∀ r ∈ master.sapling, r.seqNo < master.nextSeqNo)
    (honline : a.online cli = none) (authzId protocolId userFrom : Bytes) :
    ∃ left, left.toNat = master.sapling.length - master.needed ∧
      a.addOnline policyId master authzId protocolId userFrom cli = some
        (a.accepted policyId master left ⟨cli, policyId, master.nextSeqNo, protocolId ++ ch '|' :: userFrom, authzId⟩
          userFrom, { act := RejectOld, cfg := master.act, olds := master.sapling.take master.needed }) := by
  obtain ⟨left, hroom, hleft⟩ := room_eq hcount
  refine ⟨left, hleft, ?_⟩
  have hbelow : ∀ r ∈ master.sapling.drop master.needed, r.seqNo < master.nextSeqNo := by
    intro r hr
    exact hnew r (mem_of_mem_drop hr)
  have hinsert := @insertHint_last _ (master.sapling.drop master.needed)
    ⟨cli, policyId, master.nextSeqNo, protocolId ++ ch '|' :: userFrom, authzId⟩ (hsorted.sublist (drop_sublist _ _))
    hbelow
  rw [addOnline_of honline hroom hinsert]
  dsimp only
  rw [if_neg (by rw [length_append, length_singleton]; omega)]
  rfl

/-- What an accepted login does to the tables. -/
structure Accepts (a after : Agent Client) (history : List (Event Client)) (policyId : Bytes)
    (gone kept : List (PoDupLogonOnline Client)) (ousr : PoDupLogonOnline Client) : Prop where
  split : a.table policyId = gone ++ kept
  table : ∀ q, after.table q = if q = policyId then kept ++ [ousr] else a.table q
  count : (after.count policyId).toNat = kept.length + 1
  count_other : ∀ q, q ≠ policyId → after.count q = a.count q
  lastSeqNo : ∀ q, a.lastSeqNo q ≤ after.lastSeqNo q
  isSome : ∀ q, (after.itemMap q).isSome = (a.itemMap q).isSome
  isSome_policy : (a.itemMap policyId).isSome = true
  online : after.online = Function.update a.online ousr.client (some ousr)
  waiting : after.waiting = a.waiting ++ gone
  forceLogouts : after.forceLogouts = a.forceLogouts
  owner : ousr.owner = policyId
  above : a.lastSeqNo policyId < ousr.seqNo
  below : ousr.seqNo ≤ after.lastSeqNo policyId
  unknown : ∀ p, .accepted p ousr.client ∉ history

namespace Accepts

variable {after : Agent Client} {policyId : Bytes} {gone kept : List (PoDupLogonOnline Client)}
variable {ousr : PoDupLogonOnline Client} (e : Accepts a after history policyId gone kept ousr) (h : a.Inv history)

include e h

theorem client_ne (hon : a.online r.client = some r) : r.client ≠ ousr.client := by
  intro hclient
  rw [hclient, h.offline e.unknown] at hon
  cases hon

theorem online_of_ne (hon : a.online r.client = some r) : after.online r.client = some r := by
  rw [e.online, update_of_ne (e.client_ne h hon), hon]

theorem not_kicked : .kicked ousr.client ∉ history := by
  intro hkicked
  obtain ⟨p, hp⟩ := h.kickedAccepted _ hkicked
  exact e.unknown p hp

omit h in
theorem mem_gone (hr : r ∈ gone) : r ∈ a.table policyId := by
  rw [e.split]
  exact mem_append_left _ hr

omit h in
theorem mem_kept (hr : r ∈ kept) : r ∈ a.table policyId := by
  rw [e.split]
  exact mem_append_right _ hr

theorem seqNo_lt (hr : r ∈ a.table policyId) : r.seqNo < ousr.seqNo :=
  UInt64.lt_of_le_of_lt (h.mine policyId r hr).2.2 e.above

/-- Who leaves the table stays in no table. -/
theorem gone_client {r x : PoDupLogonOnline Client} (hr : r ∈ gone) {q : Bytes} (hx : x ∈ after.table q) :
    x.client ≠ r.client := by
  intro hclient
  have hr' := e.mem_gone hr
  rw [e.table] at hx
  split_ifs at hx with hq
  · obtain hx | hx := mem_append.mp hx
    · obtain ⟨rfl, -⟩ := h.client_inj hr' (e.mem_kept hx) hclient
      have hsorted := h.sorted policyId
      rw [e.split] at hsorted
      have hself := (pairwise_append.mp hsorted).2.2 x hr x hx
      rw [bySeqNo.irrefl] at hself
      cases hself
    · rw [mem_singleton.mp hx] at hclient
      exact e.client_ne h (h.mine policyId r hr').1 hclient.symm
  · exact hq (h.client_inj hr' hx hclient).2

theorem nodup_gone : (gone.map (·.client)).Nodup := by
  have hsorted := h.sorted policyId
  rw [e.split] at hsorted
  refine pairwise_map.mpr ((pairwise_append.mp hsorted).1.imp_of_mem ?_)
  intro r x hr hx hlt hclient
  obtain ⟨rfl, -⟩ := h.client_inj (e.mem_gone hx) (e.mem_gone hr) hclient
  rw [bySeqNo.irrefl] at hlt
  cases hlt

theorem sorted (q : Bytes) : Sorted bySeqNo (after.table q) := by
  rw [e.table]
  split_ifs with hq
  · have hsorted := h.sorted policyId
    rw [e.split] at hsorted
    refine pairwise_append.mpr ⟨(pairwise_append.mp hsorted).2.1, pairwise_singleton _ _, ?_⟩
    intro r hr x hx
    rw [mem_singleton.mp hx]
    exact decide_eq_true (e.seqNo_lt h (e.mem_kept hr))
  · exact h.sorted q

theorem mine (q : Bytes) (r : PoDupLogonOnline Client) (hr : r ∈ after.table q) :
    after.online r.client = some r ∧ r.owner = q ∧ r.seqNo ≤ after.lastSeqNo q := by
  have hold : r ∈ a.table q → after.online r.client = some r ∧ r.owner = q ∧ r.seqNo ≤ after.lastSeqNo q := by
    intro hr
    obtain ⟨hon, howner, hle⟩ := h.mine q r hr
    exact ⟨e.online_of_ne h hon, howner, UInt64.le_trans hle (e.lastSeqNo q)⟩
  rw [e.table] at hr
  split_ifs at hr with hq
  · obtain hr | hr := mem_append.mp hr
    · exact hold (hq ▸ e.mem_kept hr)
    · rw [mem_singleton.mp hr, hq, e.online, update_self]
      exact ⟨rfl, e.owner, e.below⟩
  · exact hold hr

theorem still_waiting (r : PoDupLogonOnline Client) (hr : r ∈ after.waiting) :
    after.online r.client = some r ∧ (after.itemMap r.owner).isSome = true ∧ r.seqNo ≤ after.lastSeqNo r.owner ∧
      ∀ x ∈ after.table r.owner, x.seqNo ≠ r.seqNo := by
  rw [e.waiting] at hr
  rw [e.isSome]
  obtain hr | hr := mem_append.mp hr
  · obtain ⟨hon, hsome, hle, hothers⟩ := h.waiting r hr
    refine ⟨e.online_of_ne h hon, hsome, UInt64.le_trans hle (e.lastSeqNo _), ?_⟩
    intro x hx
    rw [e.table] at hx
    split_ifs at hx with hq
    · obtain hx | hx := mem_append.mp hx
      · exact hothers x (hq ▸ e.mem_kept hx)
      · rw [mem_singleton.mp hx]
        rw [hq] at hle
        exact (UInt64.ne_of_lt (UInt64.lt_of_le_of_lt hle e.above)).symm
    · exact hothers x hx
  · have hr' := e.mem_gone hr
    obtain ⟨hon, howner, hle⟩ := h.mine policyId r hr'
    rw [howner]
    refine ⟨e.online_of_ne h hon, e.isSome_policy, UInt64.le_trans hle (e.lastSeqNo _), ?_⟩
    intro x hx
    rw [e.table, if_pos rfl] at hx
    obtain hx | hx := mem_append.mp hx
    · have hsorted := h.sorted policyId
      rw [e.split] at hsorted
      exact (UInt64.ne_of_lt (of_decide_eq_true ((pairwise_append.mp hsorted).2.2 r hr x hx))).symm
    · rw [mem_singleton.mp hx]
      exact (UInt64.ne_of_lt (e.seqNo_lt h hr')).symm

theorem waitingOnce : after.waiting.Nodup := by
  rw [e.waiting]
  refine nodup_append.mpr ⟨h.waitingOnce, (e.nodup_gone h).of_map _, ?_⟩
  rintro r hr x hx rfl
  exact h.notMem_waiting (e.mem_gone hx) hr

theorem there (cli : Client) (r : PoDupLogonOnline Client) (hr : after.online cli = some r) :
    r.client = cli ∧ (r ∈ after.table r.owner ∨ r ∈ after.waiting) := by
  rw [e.online] at hr
  rw [e.waiting, mem_append, e.table]
  by_cases hcli : cli = ousr.client
  · rw [hcli, update_self] at hr
    cases hr
    refine ⟨hcli.symm, .inl ?_⟩
    rw [if_pos e.owner]
    simp
  · rw [update_of_ne hcli] at hr
    obtain ⟨hclient, hin⟩ := h.there cli r hr
    refine ⟨hclient, ?_⟩
    split_ifs with hq
    · rw [hq, e.split, mem_append] at hin
      rw [mem_append]
      tauto
    · tauto

theorem onlineAccepted (cli : Client) (r : PoDupLogonOnline Client) (hr : after.online cli = some r) :
    (∃ p, .accepted p cli ∈ history) ∨ cli = ousr.client := by
  rw [e.online] at hr
  by_cases hcli : cli = ousr.client
  · exact .inr hcli
  · rw [update_of_ne hcli] at hr
    exact .inl (h.onlineAccepted cli r hr)

theorem listed (q : Bytes) (cli : Client) : cli ∈ (after.table q).map (·.client) ↔
    (q = policyId ∧ cli = ousr.client) ∨ (Standing q cli history ∧ cli ∉ gone.map (·.client)) := by
  rw [← h.listed]
  simp only [List.mem_map]
  constructor
  · rintro ⟨x, hx, rfl⟩
    have hgone : ¬ ∃ r ∈ gone, r.client = x.client := by
      rintro ⟨r, hr, hclient⟩
      exact e.gone_client h hr hx hclient.symm
    rw [e.table] at hx
    split_ifs at hx with hq
    · obtain hx | hx := mem_append.mp hx
      · exact .inr ⟨⟨x, hq ▸ e.mem_kept hx, rfl⟩, hgone⟩
      · exact .inl ⟨hq, by rw [mem_singleton.mp hx]⟩
    · exact .inr ⟨⟨x, hx, rfl⟩, hgone⟩
  · rintro (⟨rfl, rfl⟩ | ⟨⟨x, hx, rfl⟩, hgone⟩)
    · refine ⟨ousr, ?_, rfl⟩
      rw [e.table, if_pos rfl]
      simp
    · refine ⟨x, ?_, rfl⟩
      rw [e.table]
      split_ifs with hq
      · rw [hq, e.split, mem_append] at hx
        have hkept := hx.resolve_left fun hr => hgone ⟨x, hr, rfl⟩
        exact mem_append_left _ hkept
      · exact hx

theorem inOrder (q : Bytes) : ((after.table q).map (·.client)).Sublist
    (acceptedBy q history ++ ((Event.accepted policyId ousr.client).acceptedBy? q).toList) := by
  have horder := h.inOrder q
  rw [e.table, acceptedBy?]
  by_cases hq : q = policyId
  · rw [if_pos hq, if_pos hq.symm, map_append]
    rw [hq, e.split, map_append] at horder
    rw [hq]
    exact ((sublist_append_right _ _).trans horder).append (List.Sublist.refl _)
  · rw [if_neg hq, if_neg (Ne.symm hq)]
    exact horder.trans (sublist_append_left _ _)

theorem once (q : Bytes) : (acceptedBy q history ++ ((Event.accepted policyId ousr.client).acceptedBy? q).toList).Nodup := by
  rw [acceptedBy?]
  split_ifs with hq
  · refine nodup_append.mpr ⟨h.once q, nodup_singleton _, ?_⟩
    intro cli hcli x hx heq
    rw [heq, mem_singleton.mp hx, mem_acceptedBy] at hcli
    exact e.unknown q hcli
  · rw [toList_none, append_nil]
    exact h.once q

theorem told (cli : Client) : (after.forceLogouts.map Prod.fst).count cli + (after.waiting.map (·.client)).count cli =
    if .kicked cli ∈ history ∨ cli ∈ gone.map (·.client) then 1 else 0 := by
  have htold := h.told cli
  rw [e.forceLogouts, e.waiting, map_append, count_append, ← add_assoc, htold]
  by_cases hgone : cli ∈ gone.map (·.client)
  · obtain ⟨r, hr, rfl⟩ := mem_map.mp hgone
    have hnot : .kicked r.client ∉ history := by
      intro hkicked
      exact h.kickedGone _ hkicked policyId (mem_map_of_mem (e.mem_gone hr))
    rw [if_neg hnot, if_pos (.inr hgone), count_eq_one_of_mem (e.nodup_gone h) hgone]
  · rw [count_eq_zero_of_not_mem hgone, add_zero]
    simp only [hgone, or_false]

theorem kickedGone (cli : Client) (hkicked : .kicked cli ∈ history ∨ cli ∈ gone.map (·.client)) (q : Bytes) :
    cli ∉ (after.table q).map (·.client) := by
  obtain hkicked | hgone := hkicked
  · rw [e.listed h]
    rintro (⟨-, rfl⟩ | ⟨hst, -⟩)
    · exact e.not_kicked h hkicked
    · exact h.kickedGone cli hkicked q ((h.listed q cli).mpr hst)
  · obtain ⟨r, hr, rfl⟩ := mem_map.mp hgone
    rintro hin
    obtain ⟨x, hx, hclient⟩ := mem_map.mp hin
    exact e.gone_client h hr hx hclient

/-- A login that is accepted keeps the invariant. -/
theorem inv : after.Inv (history ++ gone.map (fun r => .kicked r.client) ++ [.accepted policyId ousr.client]) := by
  have hkicked : ∀ cli,
      .kicked cli ∈ history ++ gone.map (fun r => kicked r.client) ++ [.accepted policyId ousr.client] ↔
        .kicked cli ∈ history ∨ cli ∈ gone.map (·.client) := by
    intro cli
    simp
  have haccepted : ∀ {p cli}, .accepted p cli ∈ history →
      .accepted p cli ∈ history ++ gone.map (fun r => kicked r.client) ++ [.accepted policyId ousr.client] := by
    intro p cli hp
    exact mem_append_left _ (mem_append_left _ hp)
  constructor
  · intro q
    by_cases hq : q = policyId
    · rw [hq, e.count, e.table, if_pos rfl, length_append, length_singleton]
    · rw [e.count_other q hq, e.table, if_neg hq]
      exact h.counted q
  · exact e.sorted h
  · exact e.mine h
  · exact e.still_waiting h
  · exact e.waitingOnce h
  · exact e.there h
  · intro cli r hr
    obtain ⟨p, hp⟩ | rfl := e.onlineAccepted h cli r hr
    · exact ⟨p, haccepted hp⟩
    · exact ⟨policyId, by simp⟩
  · intro q cli
    rw [e.listed h, standing_snoc, standing_append_kicked]
    simp [eq_comm]
  · intro q
    rw [acceptedBy_snoc, acceptedBy_append_kicked]
    exact e.inOrder h q
  · intro q
    rw [acceptedBy_snoc, acceptedBy_append_kicked]
    exact e.once h q
  · intro cli
    simp only [hkicked]
    exact e.told h cli
  · intro cli hcli
    exact e.kickedGone h cli ((hkicked cli).mp hcli)
  · intro cli hcli
    obtain hcli | hcli := (hkicked cli).mp hcli
    · obtain ⟨p, hp⟩ := h.kickedAccepted cli hcli
      exact ⟨p, haccepted hp⟩
    · obtain ⟨r, hr, rfl⟩ := mem_map.mp hcli
      exact ⟨policyId, haccepted ((h.listed policyId _).mp (mem_map_of_mem (e.mem_gone hr))).accepted⟩

end Accepts

end Agent

namespace Agent

variable [DecidableEq Client] {a : Agent Client} {history : List (Event Client)}

omit [DecidableEq Client] in
theorem waiting_append (a : Agent Client) (gone : List (PoDupLogonOnline Client)) (userFrom : Bytes) :
    (if gone = [] then a.autoDupLogouts else a.autoDupLogouts ++ [⟨userFrom, gone⟩]).flatMap AutoDupLogout.olds =
      a.waiting ++ gone := by
  split_ifs with hgone
  · rw [hgone, append_nil]
    rfl
  · rw [flatMap_append, waiting]
    simp

omit [DecidableEq Client] in
/-- The number that is taken is the next one. -/
theorem toNat_takeNumber (hnumber : master.nextSeqNo.toNat + 1 < 2 ^ 64) :
    master.takeNumber.nextSeqNo.toNat = master.nextSeqNo.toNat + 1 := by
  rw [takeNumber, UInt64.toNat_add, UInt64.toNat_one, Nat.mod_eq_of_lt hnumber]

omit [DecidableEq Client] in
theorem lastSeqNo_le_takeNumber {master after : MasterItem Client} (hm : a.itemMap policyId = some master)
    (hnumber : master.nextSeqNo.toNat + 1 < 2 ^ 64) (hafter : after.nextSeqNo = master.takeNumber.nextSeqNo)
    (q : Bytes) :
    a.lastSeqNo q ≤ (a.setMaster policyId after).lastSeqNo q := by
  rw [lastSeqNo_setMaster]
  split_ifs with hq
  · rw [hq, lastSeqNo_of_some hm, hafter, UInt64.le_iff_toNat_le, toNat_takeNumber hnumber]
    exact Nat.le_succ _
  · exact UInt64.le_refl _

/-- A refused login takes a number. -/
theorem Inv.refused (h : a.Inv history) (hm : a.itemMap policyId = some master)
    (hnumber : master.nextSeqNo.toNat + 1 < 2 ^ 64) :
    (a.setMaster policyId master.takeNumber).Inv history := by
  have htable : master.takeNumber.sapling = master.sapling := rfl
  exact h.of_setMaster hm htable rfl (lastSeqNo_le_takeNumber hm hnumber rfl)

theorem accepts_of_login (hm : a.itemMap policyId = some master) (hnumber : master.nextSeqNo.toNat + 1 < 2 ^ 64)
    {left : UInt16} (hleft : left.toNat = master.sapling.length - master.needed) {ousr : PoDupLogonOnline Client}
    (howner : ousr.owner = policyId) (hseqNo : ousr.seqNo = master.takeNumber.nextSeqNo)
    (hunknown : ∀ p, .accepted p ousr.client ∉ history) (userFrom : Bytes)
    (hfits : (master.sapling.drop master.needed ++ [ousr]).length < 65536) :
    Accepts a (a.accepted policyId master.takeNumber left ousr userFrom) history policyId (master.sapling.take master.needed)
      (master.sapling.drop master.needed) ousr where
  split := by rw [table_of_some hm, take_append_drop]
  table q := table_setMaster a policyId q _
  count := by
    refine (congrArg UInt16.toNat (count_setMaster a policyId policyId _)).trans ?_
    rw [if_pos rfl, UInt16.toNat_add, UInt16.toNat_one, hleft, length_drop]
    rw [length_append, length_drop, length_singleton] at hfits
    exact Nat.mod_eq_of_lt hfits
  count_other q hq := (count_setMaster a policyId q _).trans (if_neg hq)
  lastSeqNo := lastSeqNo_le_takeNumber hm hnumber rfl
  isSome q := isSome_setMaster a policyId q _ (by rw [hm]; rfl)
  isSome_policy := by
    rw [hm]
    rfl
  online := rfl
  waiting := waiting_append a _ _
  forceLogouts := rfl
  owner := howner
  above := by
    rw [lastSeqNo_of_some hm, hseqNo, UInt64.lt_iff_toNat_lt, toNat_takeNumber hnumber]
    exact Nat.lt_succ_self _
  below := by
    have hlast : (a.accepted policyId master.takeNumber left ousr userFrom).lastSeqNo policyId =
        master.takeNumber.nextSeqNo := (lastSeqNo_setMaster a policyId policyId _).trans (if_pos rfl)
    rw [hlast, hseqNo]
    exact UInt64.le_refl _
  unknown := hunknown

omit [DecidableEq Client] in
/-- After a login the count is no more than the policy allows. -/
theorem count_le_onlineMax (hcounted : master.onlineCount.toNat = master.sapling.length)
    (hfull : ¬ master.isFull = true) {left : UInt16} (hleft : left.toNat = master.sapling.length - master.needed)
    (hmax : 0 < master.onlineMax) : left + 1 ≤ master.onlineMax := by
  have hpos := UInt16.lt_iff_toNat_lt.mp hmax
  have hlt := UInt16.toNat_lt master.onlineMax
  rw [UInt16.toNat_zero] at hpos
  rw [UInt16.le_iff_toNat_le, UInt16.toNat_add, UInt16.toNat_one, hleft, needed]
  refine (Nat.mod_le _ _).trans ?_
  by_cases hold : isRejectOld master.act = true
  · rw [if_pos ⟨hmax, hold⟩]
    omega
  · have hnew : isRejectNew master.act = true := by
      rw [isRejectOld, beq_iff_eq] at hold
      rw [isRejectNew, bne_iff_ne]
      exact hold
    have hroom : ¬ master.onlineMax ≤ master.onlineCount := by
      intro hle
      apply hfull
      rw [isFull, hnew, decide_eq_true hmax, decide_eq_true hle]
      rfl
    rw [UInt16.le_iff_toNat_le] at hroom
    rw [if_neg (fun hboth => hold hboth.2)]
    omega

/-- A login of a client that has not been online. -/
theorem Inv.login (h : a.Inv history) {logonId authzId protocolId userFrom : Bytes}
    (hunknown : ∀ p, .accepted p cli ∉ history)
    (hnumber : ∀ p m, a.findMaster logonId protocolId = some (p, m) → m.nextSeqNo.toNat + 1 < 2 ^ 64)
    (hfits : ∀ r, a.checkLogon logonId authzId protocolId userFrom (some cli) = some r → ∀ p m, r.1.itemMap p = some m → m.sapling.length < 65536)
    :
    ∃ r, a.checkLogon logonId authzId protocolId userFrom (some cli) = some r ∧ a.LoginRight logonId protocolId cli r.2 r.1 ∧
      r.1.Inv (history ++ loginEvents (a.findMaster logonId protocolId) cli r.2) := by
  cases hfound : a.findMaster logonId protocolId with
  | none =>
    refine ⟨(a, { act := RejectOld, cfg := RejectOld }), ?_, ?_, ?_⟩
    · rw [checkLogon, hfound]
    · rw [LoginRight, hfound]
    · simpa [loginEvents] using h
  | some found =>
    obtain ⟨policyId, master⟩ := found
    have hm : a.itemMap policyId = some master := findMaster_some hfound
    have hlt := hnumber policyId master hfound
    have hcounted := h.accounts.counted policyId master hm
    have hsorted := h.sorted policyId
    rw [table_of_some hm] at hsorted
    have hrefused : ∀ rcode : Rcode × Bytes,
        let v : Verdict Client := { act := RejectNew, cfg := master.act, rcode := some rcode }
        let after := a.setMaster policyId master.takeNumber
        a.LoginRight logonId protocolId cli v after ∧ after.Inv (history ++ loginEvents (some (policyId, master)) cli v) := by
      intro rcode
      have hevents : ∀ cfg,
          loginEvents (some (policyId, master)) cli { act := RejectNew, cfg, rcode := some rcode } = [] := by
        intro cfg
        rfl
      refine ⟨?_, ?_⟩
      · rw [LoginRight, hfound]
        exact ⟨rfl, rfl⟩
      · rw [hevents, append_nil]
        exact h.refused hm hlt
    have hcheck : a.checkLogon logonId authzId protocolId userFrom (some cli) =
        if master.takeNumber.isFull then
          some (a.setMaster policyId master.takeNumber,
            { act := RejectNew, cfg := master.act, rcode := some (.eDupLogon, text "e=DupLogon".toList) })
        else if master.takeNumber.isFromElsewhere userFrom then
          some (a.setMaster policyId master.takeNumber,
            { act := RejectNew, cfg := master.act, rcode := some (.eBindFrom, text "e=BindFrom".toList) })
        else a.addOnline policyId master.takeNumber authzId protocolId userFrom cli := by
      rw [checkLogon, hfound]
      dsimp only
      split_ifs <;> rfl
    by_cases hfull : master.takeNumber.isFull = true
    · rw [if_pos hfull] at hcheck
      exact ⟨_, hcheck, hrefused _⟩
    · rw [if_neg hfull] at hcheck
      by_cases helse : master.takeNumber.isFromElsewhere userFrom = true
      · rw [if_pos helse] at hcheck
        exact ⟨_, hcheck, hrefused _⟩
      · rw [if_neg helse] at hcheck
        have hnew : ∀ r ∈ master.takeNumber.sapling, r.seqNo < master.takeNumber.nextSeqNo := by
          intro r hr
          have hle := (h.mine policyId r ((table_of_some hm).symm ▸ hr)).2.2
          rw [lastSeqNo_of_some hm, UInt64.le_iff_toNat_le] at hle
          rw [UInt64.lt_iff_toNat_lt, toNat_takeNumber hlt]
          omega
        obtain ⟨left, hleft, hadd⟩ := @addOnline_eq _ policyId cli master.takeNumber _ a hcounted hsorted hnew
          (h.offline hunknown) authzId protocolId userFrom
        rw [hadd] at hcheck
        refine ⟨_, hcheck, ?_, ?_⟩
        · rw [LoginRight, hfound]
          exact ⟨_, _, itemMap_setMaster_self a policyId _, rfl, count_le_onlineMax hcounted hfull hleft, rfl, rfl, rfl⟩
        · have hroom := hfits _ hcheck policyId _ (itemMap_setMaster_self a policyId _)
          have hinv := (accepts_of_login hm hlt hleft rfl rfl hunknown userFrom hroom).inv h
          rw [append_assoc] at hinv
          exact hinv

end Agent

section Runs

variable [DecidableEq Client]

open Agent

/-- A call keeps the invariant. -/
theorem step_inv {s : Agent Client × List (Event Client)} (h : s.1.Inv s.2) {act : Action Client}
    (hunknown : ∀ cli ∈ act.login?, ∀ p, .accepted p cli ∉ s.2) (hnumber : NumberLeft s act) (hfits : Fits s act) :
    StepRight s.1 act ∧ ∃ s', step s act = some s' ∧ s'.1.Inv s'.2 ∧
      ∀ p cli, .accepted p cli ∈ s'.2 → .accepted p cli ∈ s.2 ∨ cli ∈ act.login? := by
  cases act with
  | checkLogon authr protocolId userFrom cli =>
    have hroom : ∀ r, s.1.checkLogon authr.authcId authr.authzId protocolId userFrom (some cli) = some r →
        ∀ p m, r.1.itemMap p = some m → m.sapling.length < 65536 := by
      intro r hr
      refine hfits (r.1, s.2 ++ loginEvents (s.1.findMaster authr.authcId protocolId) cli r.2) ?_
      rw [step, hr]
      rfl
    obtain ⟨r, hr, hright, hinv⟩ := h.login (hunknown cli rfl) hnumber hroom
    refine ⟨⟨r, hr, hright⟩, _, congrArg (Option.map _) hr, hinv, ?_⟩
    intro p c hc
    simp only [loginEvents, mem_append] at hc
    obtain hc | hc | hc := hc
    · exact .inl hc
    · simp at hc
    · split at hc
      · cases hc
      · split_ifs at hc with hold
        · simp only [mem_singleton, Event.accepted.injEq] at hc
          exact .inr (congrArg some hc.2.symm)
        · cases hc
  | getDupLogonAct userId protocolId =>
    have hsame : ∃ v, s.1.checkLogon userId [] protocolId [] none = some (s.1, v) := by
      rw [checkLogon]
      split
      · exact ⟨_, rfl⟩
      · exact ⟨_, rfl⟩
    obtain ⟨v, hv⟩ := hsame
    exact ⟨trivial, s, congrArg (Option.map _) hv, h, fun p cli hc => .inl hc⟩
  | closed cli =>
    obtain ⟨after, hafter, hinv⟩ := h.close cli
    refine ⟨trivial, _, congrArg (Option.map _) hafter, hinv, ?_⟩
    intro p c hc
    simp only [mem_append, mem_singleton, reduceCtorEq, or_false] at hc
    exact .inl hc
  | tellLogout k =>
    obtain ⟨after, hafter, hright, hinv⟩ := h.tell k
    exact ⟨⟨after, hafter, hright⟩, _, congrArg (Option.map _) hafter, hinv, fun p c hc => .inl hc⟩
  | writeSettings policyId act onlineMax bindFromYN bindFrom =>
    refine ⟨trivial, _, rfl, ?_, fun p c hc => .inl hc⟩
    show (s.1.writeSettings policyId act onlineMax bindFromYN bindFrom).Inv s.2
    rw [writeSettings]
    cases hm : s.1.itemMap policyId with
    | none => exact h
    | some master =>
      refine h.of_setMaster hm rfl rfl fun q => ?_
      rw [lastSeqNo_setMaster]
      split_ifs with hq
      · rw [hq, lastSeqNo_of_some hm]
        exact UInt64.le_refl _
      · exact UInt64.le_refl _

theorem run_accounted {s : Agent Client × List (Event Client)} (h : s.1.Inv s.2) {acts : List (Action Client)}
    (hdistinct : (acts.filterMap Action.login?).Nodup)
    (hunknown : ∀ cli ∈ acts.filterMap Action.login?, ∀ p, .accepted p cli ∉ s.2)
    (hnumbers : StepsMeet step NumberLeft s acts) (hfits : StepsMeet step Fits s acts) : StepsMeet step Accounted s acts := by
  induction acts generalizing s with
  | nil => trivial
  | cons act acts ih =>
    have hlogin : ∀ cli ∈ act.login?, cli ∈ (act :: acts).filterMap Action.login? := by
      intro cli hcli
      exact mem_filterMap.mpr ⟨act, mem_cons_self, hcli⟩
    have hlater : ∀ cli ∈ acts.filterMap Action.login?, cli ∈ (act :: acts).filterMap Action.login? := by
      intro cli hcli
      obtain ⟨act', hact', hc⟩ := mem_filterMap.mp hcli
      exact mem_filterMap.mpr ⟨act', mem_cons_of_mem _ hact', hc⟩
    obtain ⟨hright, s', hs', hinv, hnew⟩ := step_inv h (fun cli hcli => hunknown cli (hlogin cli hcli)) hnumbers.1 hfits.1
    refine ⟨⟨hright, s', hs', hinv.accounts⟩, ?_⟩
    intro s'' hs''
    rw [hs'] at hs''
    cases hs''
    have hdisjoint : ∀ cli ∈ act.login?, cli ∉ acts.filterMap Action.login? := by
      intro cli hcli
      rw [filterMap_cons_some hcli] at hdistinct
      exact hdistinct.notMem
    have hrest : (acts.filterMap Action.login?).Nodup :=
      hdistinct.sublist ((sublist_cons_self act acts).filterMap _)
    refine ih hinv hrest ?_ (hnumbers.2 s' hs') (hfits.2 s' hs')
    intro cli hcli p hp
    obtain hp | hp := hnew p cli hp
    · exact hunknown cli (hlater cli hcli) p hp
    · exact hdisjoint cli hp hcli

/-- The accounts of the online clients: in every run in which each client logs in once, fewer than 65536 are online at a time
and the numbers are not used up, the count is the length of the table, the table has those who were accepted and neither
closed nor kicked, and a login does what it should. -/
theorem run_onlineAccounts {a : Agent Client} (hfresh : a.Fresh) {acts : List (Action Client)}
    (hdistinct : (acts.filterMap Action.login?).Nodup) (hnumbers : StepsMeet step NumberLeft (a, []) acts)
    (hfits : StepsMeet step Fits (a, []) acts) : a.Accounts [] ∧ StepsMeet step Accounted (a, []) acts := by
  refine ⟨hfresh.inv.accounts, run_accounted hfresh.inv hdistinct ?_ hnumbers hfits⟩
  intro cli _ p hp
  cases hp

end Runs

section Inputs

/-- One policy, "u". -/
def solo (master : MasterItem ℕ) (online : ℕ → Option (PoDupLogonOnline ℕ)) (autoDupLogouts : List (AutoDupLogout ℕ))
    (forceLogouts : List (ℕ × Bytes)) : Agent ℕ where
  itemMap policyId := if policyId = [ch 'u'] then some master else none
  online := online
  autoDupLogouts := autoDupLogouts
  forceLogouts := forceLogouts

/-- The client logs in as "u" without a protocol. -/
def loginU (cli : ℕ) : Action ℕ := .checkLogon { authcId := [ch 'u'] } [] [] cli

variable {master : MasterItem ℕ} {online : ℕ → Option (PoDupLogonOnline ℕ)} {autoDupLogouts : List (AutoDupLogout ℕ)}
variable {forceLogouts : List (ℕ × Bytes)} {history : List (Event ℕ)} {cli : ℕ}

theorem solo_fresh (h : master.onlineCount = 0 ∧ master.nextSeqNo = 0 ∧ master.sapling = []) :
    (solo master (fun _ => none) [] []).Fresh where
  master p m hm := by
    simp only [solo] at hm
    split_ifs at hm
    cases hm
    exact h
  online _ := rfl
  autoDupLogouts := rfl
  forceLogouts := rfl

theorem solo_setMaster (after : MasterItem ℕ) : (solo master online autoDupLogouts forceLogouts).setMaster [ch 'u'] after =
    solo after online autoDupLogouts forceLogouts := by
  have hmap : update (solo master online autoDupLogouts forceLogouts).itemMap [ch 'u'] (some after) =
      (solo after online autoDupLogouts forceLogouts).itemMap := by
    funext policyId
    rw [update_apply]
    simp only [solo]
    split_ifs <;> rfl
  rw [Agent.setMaster, hmap]
  rfl

theorem solo_findMaster :
    (solo master online autoDupLogouts forceLogouts).findMaster [ch 'u'] [] = some ([ch 'u'], master) := by
  rw [Agent.findMaster, if_pos rfl]
  rfl

theorem solo_itemMap : (solo master online autoDupLogouts forceLogouts).itemMap [ch 'u'] = some master := rfl

/-- Where the table is short, so are all of them. -/
theorem solo_fits {act : Action ℕ} {after : MasterItem ℕ} {online' : ℕ → Option (PoDupLogonOnline ℕ)}
    {autoDupLogouts' : List (AutoDupLogout ℕ)} {forceLogouts' : List (ℕ × Bytes)} {history' : List (Event ℕ)}
    {s : Agent ℕ × List (Event ℕ)} (hstep : step s act = some (solo after online' autoDupLogouts' forceLogouts', history'))
    (hshort : after.sapling.length < 65536) : Fits s act := by
  intro s' hs' p m hm
  rw [hstep] at hs'
  cases hs'
  simp only [solo] at hm
  split_ifs at hm
  cases hm
  exact hshort

theorem solo_numberLeft (hleft : master.nextSeqNo.toNat + 1 < 2 ^ 64) :
    NumberLeft (solo master online autoDupLogouts forceLogouts, history) (loginU cli) := by
  intro p m hfound
  have hmaster := solo_findMaster.symm.trans hfound
  cases hmaster
  exact hleft

theorem solo_refused (hfull : master.takeNumber.isFull = true) :
    step (solo master online autoDupLogouts forceLogouts, history) (loginU cli) =
      some (solo master.takeNumber online autoDupLogouts forceLogouts, history) := by
  rw [loginU, step, Agent.checkLogon, solo_findMaster]
  dsimp only
  rw [if_pos hfull, map_some, solo_setMaster, loginEvents, if_neg (show ¬ isRejectOld RejectNew = true by decide)]
  rw [map_nil, nil_append, append_nil]

/-- Each login that is refused takes a number, until the numbers begin again. -/
theorem solo_refusals (hfull : master.isFull = true) (hshort : master.sapling.length < 65536) (clients : List ℕ) :
    StepsMeet step Fits (solo master online autoDupLogouts forceLogouts, history) (clients.map loginU) ∧
      steps step (solo master online autoDupLogouts forceLogouts, history) (clients.map loginU) =
        some (solo { master with nextSeqNo := master.nextSeqNo + UInt64.ofNat clients.length } online autoDupLogouts
          forceLogouts, history) := by
  induction clients generalizing master with
  | nil =>
    refine ⟨trivial, ?_⟩
    rw [map_nil, steps, length_nil]
    simp
  | cons cli clients ih =>
    have hstep : step (solo master online autoDupLogouts forceLogouts, history) (loginU cli) =
      some (solo master.takeNumber online autoDupLogouts forceLogouts, history) := solo_refused hfull
    obtain ⟨hfits, hsteps⟩ := @ih master.takeNumber hfull hshort
    refine ⟨⟨solo_fits hstep hshort, ?_⟩, ?_⟩
    · intro s' hs'
      rw [hstep] at hs'
      cases hs'
      exact hfits
    · rw [map_cons, steps, hstep, bind_some, hsteps, length_cons]
      simp only [UInt64.ofNat_add, UInt64.add_assoc, UInt64.add_comm (1 : UInt64), takeNumber]
      rfl

/-- The record of a client that logged in as "u". -/
def recordU (cli : ℕ) (seqNo : UInt64) : PoDupLogonOnline ℕ := ⟨cli, [ch 'u'], seqNo, [ch '|'], []⟩

theorem solo_accepted {room : Room ℕ} {r : List (PoDupLogonOnline ℕ) × ℤ} (honline : online cli = none)
    (hfull : ¬ master.takeNumber.isFull = true) (helse : ¬ master.takeNumber.isFromElsewhere [] = true)
    (hroom : master.takeNumber.room = some room)
    (hinsert : insertHint bySeqNo room.dmap (recordU cli master.takeNumber.nextSeqNo) room.dmap.length = some r)
    (hput : ¬ r.1.length = room.dmap.length) :
    step (solo master online autoDupLogouts forceLogouts, history) (loginU cli) =
      some (solo { master.takeNumber with onlineCount := room.onlineCount + 1, sapling := r.1 }
        (update online cli (some (recordU cli master.takeNumber.nextSeqNo)))
        (if room.olds = [] then autoDupLogouts else autoDupLogouts ++ [⟨[], room.olds⟩]) forceLogouts,
        history ++ (room.olds.map (fun r => .kicked r.client) ++ [.accepted [ch 'u'] cli])) := by
  have hadd : (solo master online autoDupLogouts forceLogouts).addOnline [ch 'u'] master.takeNumber [] [] [] cli = _ :=
    Agent.addOnline_of honline hroom hinsert
  rw [loginU, step, Agent.checkLogon, solo_findMaster]
  dsimp only
  rw [if_neg hfull, if_neg helse, hadd]
  dsimp only
  rw [if_neg hput, Agent.putOnline, solo_setMaster]
  rfl

/-- One client may be online, and an old one is told to go. -/
def replacing : MasterItem ℕ := { act := RejectOld, onlineMax := 1 }

theorem replacing_accepts : step (solo replacing (fun _ => none) [] [], []) (loginU 0) =
    some (solo { replacing with onlineCount := 1, nextSeqNo := 1, sapling := [recordU 0 1] }
      (update (fun _ => none) 0 (some (recordU 0 1))) [] [], [.accepted [ch 'u'] 0]) := by
  have hroom : replacing.takeNumber.room = some ⟨0, [], []⟩ := rfl
  have hinsert : insertHint bySeqNo [] (recordU 0 1) ([] : List (PoDupLogonOnline ℕ)).length = some ([recordU 0 1], 0) := rfl
  rw [solo_accepted rfl (by decide) (by decide) hroom hinsert (by decide)]
  rfl

theorem replacing_kicks : step (solo { replacing with onlineCount := 1, nextSeqNo := 1, sapling := [recordU 0 1] }
      (update (fun _ => none) 0 (some (recordU 0 1))) [] [], [.accepted [ch 'u'] 0]) (loginU 1) =
    some (solo { replacing with onlineCount := 1, nextSeqNo := 2, sapling := [recordU 1 2] }
      (update (update (fun _ => none) 0 (some (recordU 0 1))) 1 (some (recordU 1 2)))
      [⟨[], [recordU 0 1]⟩] [], [.accepted [ch 'u'] 0, .kicked 0, .accepted [ch 'u'] 1]) := by
  have hroom : { replacing with onlineCount := 1, nextSeqNo := 1, sapling := [recordU 0 1] : MasterItem ℕ }.takeNumber.room =
      some ⟨0, [recordU 0 1], []⟩ := rfl
  have hinsert : insertHint bySeqNo [] (recordU 1 2) ([] : List (PoDupLogonOnline ℕ)).length = some ([recordU 1 2], 0) := rfl
  rw [solo_accepted rfl (by decide) (by decide) hroom hinsert (by decide)]
  rfl

theorem run_onlineAccounts_replacing : (solo replacing (fun _ => none) [] []).Accounts [] ∧
    StepsMeet step Accounted (solo replacing (fun _ => none) [] [], []) [loginU 0, loginU 1] := by
  have hnumbers : StepsMeet step NumberLeft (solo replacing (fun _ => none) [] [], []) [loginU 0, loginU 1] := by
    refine ⟨solo_numberLeft (by decide), fun s hs => ?_⟩
    rw [replacing_accepts] at hs
    cases hs
    exact ⟨solo_numberLeft (by decide), fun _ _ => trivial⟩
  have hfits : StepsMeet step Fits (solo replacing (fun _ => none) [] [], []) [loginU 0, loginU 1] := by
    refine ⟨solo_fits replacing_accepts (by decide), fun s hs => ?_⟩
    rw [replacing_accepts] at hs
    cases hs
    exact ⟨solo_fits replacing_kicks (by decide), fun _ _ => trivial⟩
  exact run_onlineAccounts (solo_fresh ⟨rfl, rfl, rfl⟩) (by decide) hnumbers hfits

/-- One client may be online, and a new one is refused. -/
def limited : MasterItem ℕ := { onlineMax := 1 }

theorem limited_accepts : step (solo limited (fun _ => none) [] [], []) (loginU 0) =
    some (solo { limited with onlineCount := 1, nextSeqNo := 1, sapling := [recordU 0 1] }
      (update (fun _ => none) 0 (some (recordU 0 1))) [] [], [.accepted [ch 'u'] 0]) := by
  have hroom : limited.takeNumber.room = some ⟨0, [], []⟩ := rfl
  have hinsert : insertHint bySeqNo [] (recordU 0 1) ([] : List (PoDupLogonOnline ℕ)).length = some ([recordU 0 1], 0) := rfl
  rw [solo_accepted rfl (by decide) (by decide) hroom hinsert (by decide)]
  rfl

/-- Two clients may be online, one is, and the numbers have begun again. -/
def wrapped : MasterItem ℕ := { limited with onlineMax := 2, onlineCount := 1, nextSeqNo := 0, sapling := [recordU 0 1] }

/-- The number of the next client is in the table. -/
theorem wrapped_collides {online : ℕ → Option (PoDupLogonOnline ℕ)} (honline : online cli = none) :
    ∃ online' forceLogouts', step (solo wrapped online [] [], history) (loginU cli) =
      some (solo { wrapped with onlineCount := 2, nextSeqNo := 1 } online' [] forceLogouts',
        history ++ [.accepted [ch 'u'] cli]) := by
  have hroom : wrapped.takeNumber.room = some ⟨1, [], [recordU 0 1]⟩ := rfl
  have hinsert : insertHint bySeqNo [recordU 0 1] (recordU cli 1) ([recordU 0 1] : List (PoDupLogonOnline ℕ)).length =
      some ([recordU 0 1], 0) := (insertHint_eq (pairwise_singleton _ _) _ (le_refl _)).trans rfl
  have hadd : (solo wrapped online [] []).addOnline [ch 'u'] wrapped.takeNumber [] [] [] cli = _ :=
    Agent.addOnline_of honline hroom hinsert
  refine ⟨update (update online cli (some (recordU cli 1))) cli none,
    [(cli, text "Online.dtor".toList)], ?_⟩
  rw [loginU, step, Agent.checkLogon, solo_findMaster]
  dsimp only
  rw [if_neg (by decide), if_neg (by decide), hadd]
  dsimp only
  rw [if_pos rfl, Agent.releaseOnline_self (update_self _ _ _), Agent.putOnline, solo_setMaster]
  rfl

theorem solo_settings (act : PoDupLogonAct) (onlineMax : UInt16) :
    step (solo master online autoDupLogouts forceLogouts, history) (.writeSettings [ch 'u'] act onlineMax 0 []) =
      some (solo { master with act, onlineMax, bindFromYN := 0, bindFrom := [] } online autoDupLogouts forceLogouts,
        history) := by
  rw [step, Agent.writeSettings, solo_itemMap]
  dsimp only
  rw [solo_setMaster]

/-- The numbers of a policy may be used up: after 2^64 - 1 logins that were refused a new client gets the number of one that
is still online, and is counted though the table does not take it. -/
theorem not_run_onlineAccounts : ¬ ∀ (a : Agent ℕ) (acts : List (Action ℕ)), a.Fresh → (acts.filterMap Action.login?).Nodup →
    StepsMeet step Fits (a, []) acts → a.Accounts [] ∧ StepsMeet step Accounted (a, []) acts := by
  intro hclaim
  obtain ⟨clients, hlength, hnodup, hother⟩ : ∃ clients : List ℕ, clients.length = 2 ^ 64 - 1 ∧ clients.Nodup ∧
      ∀ cli ∈ clients, 0 < cli ∧ cli < 2 ^ 64 := by
    refine ⟨List.range' 1 (2 ^ 64 - 1), List.length_range', List.nodup_range', ?_⟩
    intro cli hcli
    rw [List.mem_range'_1] at hcli
    omega
  have hlogins : (clients.map loginU).filterMap Action.login? = clients := by
    rw [List.filterMap_map]
    exact List.filterMap_some
  let settings : Action ℕ := .writeSettings [ch 'u'] RejectNew 2 0 []
  have hdistinct : ((loginU 0 :: (clients.map loginU ++ [settings, loginU (2 ^ 64)])).filterMap Action.login?).Nodup := by
    rw [List.filterMap_cons_some (show (loginU 0).login? = some 0 from rfl), List.filterMap_append, hlogins]
    show (0 :: (clients ++ [2 ^ 64])).Nodup
    rw [List.nodup_cons, List.nodup_append]
    refine ⟨?_, hnodup, List.nodup_singleton _, ?_⟩
    · rw [List.mem_append, List.mem_singleton]
      rintro (hzero | hzero)
      · exact Nat.lt_irrefl 0 (hother 0 hzero).1
      · norm_num at hzero
    · rintro cli hcli x hx rfl
      rw [List.mem_singleton.mp hx] at hcli
      exact Nat.lt_irrefl _ (hother _ hcli).2
  obtain ⟨hrefused, hsteps⟩ := @solo_refusals { limited with onlineCount := 1, nextSeqNo := 1, sapling := [recordU 0 1] }
    (Function.update (fun _ => none) 0 (some (recordU 0 1))) [] [] [.accepted [ch 'u'] 0] (by decide) (by decide) clients
  have hwrap : (1 : UInt64) + UInt64.ofNat clients.length = 0 := by
    rw [hlength]
    decide
  rw [hwrap] at hsteps
  have hsettings := @solo_settings { limited with onlineCount := 1, nextSeqNo := 0, sapling := [recordU 0 1] }
    (Function.update (fun _ => none) 0 (some (recordU 0 1))) [] [] [.accepted [ch 'u'] 0] RejectNew 2
  have hoffline : Function.update (fun _ => none) 0 (some (recordU 0 1)) (2 ^ 64) = (none : Option (PoDupLogonOnline ℕ)) :=
    Function.update_of_ne (by norm_num) _ _
  obtain ⟨online', forceLogouts', hcollides⟩ := @wrapped_collides [.accepted [ch 'u'] 0] _ _ hoffline
  have hfits : StepsMeet step Fits (solo limited (fun _ => none) [] [], [])
      (loginU 0 :: (clients.map loginU ++ [settings, loginU (2 ^ 64)])) := by
    refine ⟨solo_fits limited_accepts (by decide), fun s₁ hs₁ => ?_⟩
    rw [limited_accepts] at hs₁
    cases hs₁
    refine stepsMeet_append.mpr ⟨hrefused, fun s₂ hs₂ => ?_⟩
    rw [hsteps] at hs₂
    cases hs₂
    refine ⟨solo_fits hsettings (by decide), fun s₃ hs₃ => ?_⟩
    rw [hsettings] at hs₃
    cases hs₃
    exact ⟨solo_fits hcollides (by decide), fun _ _ => trivial⟩
  have haccounted := (hclaim _ _ (solo_fresh ⟨rfl, rfl, rfl⟩) hdistinct hfits).2.2 _ limited_accepts
  have hlast := ((stepsMeet_append.mp haccounted).2 _ hsteps).2 _ hsettings
  obtain ⟨s', hs', haccounts⟩ := hlast.1.2
  have hafter := hcollides.symm.trans hs'
  cases hafter
  have hcounted := haccounts.counted [ch 'u'] _ solo_itemMap
  exact absurd hcounted (by decide)

end Inputs

end Fon9.Auth.DupLogon
