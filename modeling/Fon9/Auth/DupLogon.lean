import Fon9.Auth.UserTree
import Fon9.Sch.Text
import Fon9.SortedVector.Runs

/-! The clients that are online under a policy. Each has a number, and the table has them in the order of their numbers. A
login may have to make room first: the oldest leave the table, and are told so when the locks are released, so that one of
them may close before it is told. -/

namespace Fon9.Auth.DupLogon

open Lib Sch UserTree SortedVector List UInt16

/-! ### Text -/

/-- The loop of `StrFindValue`. Each turn takes a character at least. -/
def findValueLoop (tag : Bytes) (chFieldDelim chEqual : UInt8) : ℕ → Bytes → TagValue → Option Bytes
  | 0, _, _ => none
  | fuel + 1, src, tv =>
    if src.dropWhile isspace = [] then none
    else
      let r := strFetchTagValue src tv chFieldDelim chEqual
      match r.2.value with
      | some value =>
        if r.2.tag = tag then some value else findValueLoop tag chFieldDelim chEqual fuel r.1 r.2
      | none => findValueLoop tag chFieldDelim chEqual fuel r.1 r.2

def strFindValue (src tag : Bytes) (chFieldDelim chEqual : UInt8) : Option Bytes :=
  findValueLoop tag chFieldDelim chEqual (src.length + 1) src ⟨[], none⟩

/-- The IP of "R=ip:port". -/
def remoteIp (userFrom : Bytes) : Bytes :=
  (strFetchNoTrim ((strFindValue userFrom [ch 'R'] (ch '|') (ch '=')).getD []) (ch ':')).1

/-! ### Records -/

/-- `PoDupLogonAct`: a character, and each that is not `RejectOld` rejects the new one. -/
abbrev PoDupLogonAct := UInt8

def RejectNew : PoDupLogonAct := 0
def RejectOld : PoDupLogonAct := ch 'o'

def isRejectNew (v : PoDupLogonAct) : Bool := v != RejectOld
def isRejectOld (v : PoDupLogonAct) : Bool := v == RejectOld

variable {Client : Type}

/-- `PoDupLogonOnline`, with the policy that is its owner. -/
structure PoDupLogonOnline (Client : Type) where
  client : Client
  owner : Bytes
  seqNo : UInt64
  userFrom : Bytes
  authzId : Bytes

/-- `PoDupLogonRec`, and `MasterItem` with the table of its sapling. -/
structure MasterItem (Client : Type) where
  act : PoDupLogonAct := RejectNew
  bindFromYN : UInt8 := 0
  onlineMax : UInt16 := 0
  onlineCount : UInt16 := 0
  nextSeqNo : UInt64 := 0
  bindFrom : Bytes := []
  sapling : List (PoDupLogonOnline Client) := []

/-- `OnlineUserTable` is a `SortedVector` with this key. -/
def bySeqNo : Compare (PoDupLogonOnline Client) where
  cmp x y := x.seqNo < y.seqNo
  irrefl x := decide_eq_false (UInt64.lt_irrefl _)
  trans x y z hxy hyz := decide_eq_true (UInt64.lt_trans (of_decide_eq_true hxy) (of_decide_eq_true hyz))
  split x y z hxz := by
    simp only [decide_eq_true_eq, UInt64.lt_iff_toNat_lt] at hxz ⊢
    omega

/-- `AutoDupLogout` -/
structure AutoDupLogout (Client : Type) where
  newFrom : Bytes
  olds : List (PoDupLogonOnline Client)

/-- `PoDupLogonTree`, what `Online_` of each client points at, the logouts that are still to be told, and the calls of
`PoDupLogonClient_ForceLogout`. -/
structure Agent (Client : Type) where
  itemMap : Bytes → Option (MasterItem Client)
  online : Client → Option (PoDupLogonOnline Client)
  autoDupLogouts : List (AutoDupLogout Client)
  forceLogouts : List (Client × Bytes)

/-- What `CheckLogon` gives back, and what it takes out of the table. -/
structure Verdict (Client : Type) where
  act : PoDupLogonAct
  cfg : PoDupLogonAct
  rcode : Option (Rcode × Bytes) := none
  olds : List (PoDupLogonOnline Client) := []

/-! ### Records of clients -/

namespace Agent

variable [DecidableEq Client] (a : Agent Client)

def setMaster (policyId : Bytes) (master : MasterItem Client) : Agent Client :=
  { a with itemMap := Function.update a.itemMap policyId (some master) }

/-- `PoDupLogonOnline::ForceLogout` -/
def forceLogout (r : PoDupLogonOnline Client) (reason : Bytes) : Option (Agent Client) :=
  match a.online r.client with
  | none => none
  | some online =>
    -- `assert(this->Client_->Online_ == this)`
    if online.owner = r.owner ∧ online.seqNo = r.seqNo then
      some { a with
        online := Function.update a.online r.client none
        forceLogouts := a.forceLogouts ++ [(r.client, reason)] }
    else none

/-- The destructor of a record. -/
def releaseOnline (r : PoDupLogonOnline Client) : Option (Agent Client) :=
  if (a.online r.client).isSome then a.forceLogout r (text "Online.dtor".toList) else some a

/-! ### `CheckLogon` -/

/-- The policy of the user with the protocol, or else of the user. -/
def findMaster (logonId protocolId : Bytes) : Option (Bytes × MasterItem Client) :=
  if protocolId = [] then (a.itemMap logonId).map fun master => (logonId, master)
  else
    let policyId := logonId ++ ch '.' :: protocolId
    match a.itemMap policyId with
    | some master => some (policyId, master)
    | none => (a.itemMap logonId).map fun master => (logonId, master)

end Agent

/-- The count, the records that leave the table and those that stay. -/
structure Room (Client : Type) where
  onlineCount : UInt16
  olds : List (PoDupLogonOnline Client)
  dmap : List (PoDupLogonOnline Client)

/-- The loop that takes the first records. On an empty table there is none to take. -/
def makeRoom (onlineMax : UInt16) : UInt16 → List (PoDupLogonOnline Client) → Option (Room Client)
  | count, [] => if onlineMax ≤ count then none else some ⟨count, [], []⟩
  | count, old :: dmap =>
    if onlineMax ≤ count then (makeRoom onlineMax (count - 1) dmap).map fun room => { room with olds := old :: room.olds }
    else some ⟨count, [], old :: dmap⟩

namespace MasterItem

variable (master : MasterItem Client)

/-- `++NextSeqNo_` -/
def takeNumber : MasterItem Client := { master with nextSeqNo := master.nextSeqNo + 1 }

def isFull : Bool := 0 < master.onlineMax && isRejectNew master.act && master.onlineMax ≤ master.onlineCount

def isFromElsewhere (userFrom : Bytes) : Bool :=
  master.bindFromYN == ch 'Y' && master.bindFrom != [] && master.bindFrom != remoteIp userFrom

def room : Option (Room Client) :=
  if 0 < master.onlineMax ∧ isRejectOld master.act then makeRoom master.onlineMax master.onlineCount master.sapling
  else some ⟨master.onlineCount, [], master.sapling⟩

end MasterItem

namespace Agent

variable [DecidableEq Client] (a : Agent Client)

variable (policyId : Bytes) (master : MasterItem Client)

/-- The record of a client goes into the table, behind those that stay. -/
def putOnline (room : Room Client) (userFrom : Bytes) (ousr : PoDupLogonOnline Client)
    (sapling : List (PoDupLogonOnline Client)) : Agent Client :=
  { a.setMaster policyId { master with onlineCount := room.onlineCount + 1, sapling } with
    online := Function.update a.online ousr.client (some ousr)
    autoDupLogouts := if room.olds = [] then a.autoDupLogouts else a.autoDupLogouts ++ [⟨userFrom, room.olds⟩] }

/-- The end of `CheckLogon`. A record that the table does not take is destroyed. -/
def addOnline (authzId protocolId userFrom : Bytes) (cli : Client) :
    Option (Agent Client × Verdict Client) :=
  match a.online cli with
  | some _ => none -- `assert(this->Client_->Online_ == nullptr)`
  | none => do
    let room ← master.room
    let ousr : PoDupLogonOnline Client := ⟨cli, policyId, master.nextSeqNo, protocolId ++ ch '|' :: userFrom, authzId⟩
    let r ← insertHint bySeqNo room.dmap ousr room.dmap.length
    let after := a.putOnline policyId master room userFrom ousr r.1
    let after ← if r.1.length = room.dmap.length then after.releaseOnline ousr else some after
    return (after, { act := RejectOld, cfg := master.act, olds := room.olds })

/-- `CheckLogon`; without a client it only tells the act. -/
def checkLogon (logonId authzId protocolId userFrom : Bytes) (cli : Option Client) : Option (Agent Client × Verdict Client) :=
  match a.findMaster logonId protocolId with
  | none => some (a, { act := RejectOld, cfg := RejectOld })
  | some (policyId, master) =>
    match cli with
    | none => some (a, { act := master.act, cfg := master.act })
    | some cli =>
      let master := master.takeNumber
      if master.isFull then
        some (a.setMaster policyId master,
          { act := RejectNew, cfg := master.act, rcode := some (.eDupLogon, text "e=DupLogon".toList) })
      else if master.isFromElsewhere userFrom then
        some (a.setMaster policyId master,
          { act := RejectNew, cfg := master.act, rcode := some (.eBindFrom, text "e=BindFrom".toList) })
      else a.addOnline policyId master authzId protocolId userFrom cli

/-- A turn of the loop in the destructor of the `k`th `AutoDupLogout`. -/
def tellLogout (k : ℕ) : Option (Agent Client) :=
  match a.autoDupLogouts[k]? with
  | none => some a
  | some logout =>
    match logout.olds with
    | [] => some a
    | old :: olds => { a with autoDupLogouts := a.autoDupLogouts.set k { logout with olds } }.forceLogout old
        (text "DupLogon:".toList ++ logout.newFrom)

/-- A client forgets its record, and the table is without it. -/
def removed (cli : Client) (left : List (PoDupLogonOnline Client)) :
    Agent Client :=
  { a.setMaster policyId { master with onlineCount := master.onlineCount - 1, sapling := left } with
    online := Function.update a.online cli none }

/-- The record at a place leaves the table, and is destroyed. -/
def takeOnline (online : PoDupLogonOnline Client) (master : MasterItem Client) (ifind : ℤ) (cli : Client) :
    Option (Agent Client) := do
  let r ← read master.sapling ifind
  -- `assert(this->Client_.get() == &cli)`
  if r.client = cli then
    (a.removed online.owner master cli (erase master.sapling ifind.toNat (ifind.toNat + 1))).releaseOnline r
  else none

def onLogonClientClosed (cli : Client) : Option (Agent Client) :=
  match a.online cli with
  | none => some a
  | some online => do
    let master ← a.itemMap online.owner
    let ifind ← find bySeqNo master.sapling online
    if ifind = master.sapling.length then some a else a.takeOnline online master ifind cli

/-- A policy is written by its fields. -/
def writeSettings (act : PoDupLogonAct) (onlineMax : UInt16) (bindFromYN : UInt8) (bindFrom : Bytes) :
    Agent Client :=
  match a.itemMap policyId with
  | none => a
  | some master => a.setMaster policyId { master with act, onlineMax, bindFromYN, bindFrom }

end Agent

/-! ### Runs -/

inductive Action (Client : Type)
  | checkLogon (authr : AuthResult) (protocolId userFrom : Bytes) (cli : Client)
  | getDupLogonAct (userId protocolId : Bytes)
  | closed (cli : Client)
  | tellLogout (k : ℕ)
  | writeSettings (policyId : Bytes) (act : PoDupLogonAct) (onlineMax : UInt16) (bindFromYN : UInt8) (bindFrom : Bytes)

/-- What becomes of the clients. -/
inductive Event (Client : Type)
  | kicked (cli : Client)
  | accepted (policyId : Bytes) (cli : Client)
  | closed (cli : Client)
  deriving DecidableEq

/-- The client of a login. -/
def Action.login? : Action Client → Option Client
  | .checkLogon _ _ _ cli => some cli
  | _ => none

/-- The events of a login: those who leave the table are kicked. -/
def loginEvents (found : Option (Bytes × MasterItem Client)) (cli : Client) (v : Verdict Client) : List (Event Client) :=
  v.olds.map (fun r => .kicked r.client) ++
    match found with
    | none => []
    | some (policyId, _) => if isRejectOld v.act then [.accepted policyId cli] else []

section Calls

variable [DecidableEq Client]

variable (s : Agent Client × List (Event Client))

/-- A call, under the locks. -/
def step : Action Client → Option (Agent Client × List (Event Client))
  | .checkLogon authr protocolId userFrom cli =>
    (s.1.checkLogon authr.authcId authr.authzId protocolId userFrom (some cli)).map fun r =>
      (r.1, s.2 ++ loginEvents (s.1.findMaster authr.authcId protocolId) cli r.2)
  | .getDupLogonAct userId protocolId => (s.1.checkLogon userId [] protocolId [] none).map fun r => (r.1, s.2)
  | .closed cli => (s.1.onLogonClientClosed cli).map fun after => (after, s.2 ++ [.closed cli])
  | .tellLogout k => (s.1.tellLogout k).map fun after => (after, s.2)
  | .writeSettings policyId act onlineMax bindFromYN bindFrom =>
    some (s.1.writeSettings policyId act onlineMax bindFromYN bindFrom, s.2)

/-! ### What it is for -/

/-- The client was accepted under the policy, and has neither been kicked nor closed since. -/
def Standing (policyId : Bytes) (cli : Client) (history : List (Event Client)) : Prop :=
  ∃ before after, history = before ++ .accepted policyId cli :: after ∧ .kicked cli ∉ after ∧ .closed cli ∉ after

def Event.acceptedBy? (policyId : Bytes) : Event Client → Option Client
  | .accepted p cli => if p = policyId then some cli else none
  | _ => none

/-- The clients that were accepted under the policy, the oldest first. -/
def acceptedBy (policyId : Bytes) (history : List (Event Client)) : List Client :=
  history.filterMap (Event.acceptedBy? policyId)

/-- How many have to go before a login. -/
def MasterItem.needed (master : MasterItem Client) : ℕ :=
  if 0 < master.onlineMax ∧ isRejectOld master.act then master.sapling.length + 1 - master.onlineMax.toNat else 0

namespace Agent

/-- The records whose clients are still to be told. -/
def waiting (a : Agent Client) : List (PoDupLogonOnline Client) := a.autoDupLogouts.flatMap AutoDupLogout.olds

/-- Nobody has been online. -/
structure Fresh (a : Agent Client) : Prop where
  master : ∀ p m, a.itemMap p = some m → m.onlineCount = 0 ∧ m.nextSeqNo = 0 ∧ m.sapling = []
  online : ∀ cli, a.online cli = none
  autoDupLogouts : a.autoDupLogouts = []
  forceLogouts : a.forceLogouts = []

/-- The tables are right for what has happened. -/
structure Accounts (a : Agent Client) (history : List (Event Client)) : Prop where
  counted : ∀ p m, a.itemMap p = some m → m.onlineCount.toNat = m.sapling.length
  listed : ∀ p m, a.itemMap p = some m → ∀ cli, cli ∈ m.sapling.map (·.client) ↔ Standing p cli history
  inOrder : ∀ p m, a.itemMap p = some m → (m.sapling.map (·.client)).Sublist (acceptedBy p history)
  once : ∀ p, (acceptedBy p history).Nodup
  told : ∀ cli, (a.forceLogouts.map Prod.fst).count cli + (a.waiting.map (·.client)).count cli =
    if Event.kicked cli ∈ history then 1 else 0
  closedLater : ∀ cli, Event.kicked cli ∈ history → a.onLogonClientClosed cli = some a

/-- What a login does: one that is refused takes a number, and before one that is accepted the oldest go. -/
def LoginRight (a : Agent Client) (logonId protocolId : Bytes) (cli : Client) (v : Verdict Client) (after : Agent Client) :
    Prop :=
  match a.findMaster logonId protocolId with
  | none => after = a
  | some (policyId, master) =>
    if isRejectOld v.act then
      ∃ master' new, after.itemMap policyId = some master' ∧ new.client = cli ∧
        (0 < master'.onlineMax → master'.onlineCount ≤ master'.onlineMax) ∧
        v.olds = master.sapling.take master.needed ∧ master'.sapling = master.sapling.drop master.needed ++ [new] ∧
        master'.onlineMax = master.onlineMax
    else after = a.setMaster policyId master.takeNumber ∧ v.olds = []

/-- A turn of the loop that tells the clients tells the next one. -/
def TellRight (a : Agent Client) (k : ℕ) (after : Agent Client) : Prop :=
  ∀ logout old olds, a.autoDupLogouts[k]? = some logout → logout.olds = old :: olds →
    after.autoDupLogouts = a.autoDupLogouts.set k { logout with olds } ∧
      after.forceLogouts = a.forceLogouts ++ [(old.client, text "DupLogon:".toList ++ logout.newFrom)]

end Agent

/-- What one call does. -/
def StepRight (a : Agent Client) : Action Client → Prop
  | .checkLogon authr protocolId userFrom cli =>
    ∃ r, a.checkLogon authr.authcId authr.authzId protocolId userFrom (some cli) = some r ∧
      a.LoginRight authr.authcId protocolId cli r.2 r.1
  | .tellLogout k => ∃ after, a.tellLogout k = some after ∧ a.TellRight k after
  | _ => True

/-- The call fails no assertion, and the accounts are right after it. -/
def Accounted (act : Action Client) : Prop :=
  StepRight s.1 act ∧ ∃ s', step s act = some s' ∧ s'.1.Accounts s'.2

/-- Fewer than 65536 are online under a policy. -/
def Fits (act : Action Client) : Prop :=
  ∀ s' ∈ step s act, ∀ p m, s'.1.itemMap p = some m → m.sapling.length < 65536

/-- The numbers of the policy are not used up: fewer than 2^64 - 1 clients have asked before. -/
def NumberLeft : Action Client → Prop
  | .checkLogon authr protocolId _ _ =>
    ∀ p m, s.1.findMaster authr.authcId protocolId = some (p, m) → m.nextSeqNo.toNat + 1 < 2 ^ 64
  | _ => True

end Calls

/-! ### Histories -/

section Histories

variable {policyId : Bytes} {cli : Client} {history : List (Event Client)}

theorem standing_snoc (e : Event Client) : Standing policyId cli (history ++ [e]) ↔
    e = .accepted policyId cli ∨ (Standing policyId cli history ∧ e ≠ .kicked cli ∧ e ≠ .closed cli) := by
  constructor
  · rintro ⟨before, after, heq, hkicked, hclosed⟩
    obtain rfl | ⟨after, last, rfl⟩ := eq_nil_or_concat after
    · exact .inl (head_eq_of_cons_eq (append_inj' heq rfl).2)
    · rw [concat_eq_append] at heq hkicked hclosed
      rw [← cons_append, ← append_assoc] at heq
      obtain ⟨rfl, hlast⟩ := append_inj' heq rfl
      obtain rfl := head_eq_of_cons_eq hlast
      simp only [mem_append, mem_singleton, not_or] at hkicked hclosed
      exact .inr ⟨⟨before, after, rfl, hkicked.1, hclosed.1⟩, Ne.symm hkicked.2, Ne.symm hclosed.2⟩
  · rintro (rfl | ⟨⟨before, after, rfl, hkicked, hclosed⟩, hnk, hnc⟩)
    · exact ⟨history, [], rfl, not_mem_nil, not_mem_nil⟩
    · refine ⟨before, after ++ [e], by simp, ?_, ?_⟩
      · simpa [hkicked] using Ne.symm hnk
      · simpa [hclosed] using Ne.symm hnc

theorem standing_append_kicked (olds : List (PoDupLogonOnline Client)) :
    Standing policyId cli (history ++ olds.map fun r => .kicked r.client) ↔
      Standing policyId cli history ∧ cli ∉ olds.map (·.client) := by
  induction olds generalizing history with
  | nil => simp
  | cons old olds ih =>
    rw [map_cons, append_cons, ih, standing_snoc]
    simp [eq_comm, and_assoc]

theorem acceptedBy_snoc (e : Event Client) :
    acceptedBy policyId (history ++ [e]) = acceptedBy policyId history ++ (e.acceptedBy? policyId).toList := by
  rw [acceptedBy, acceptedBy, filterMap_append]
  cases h : e.acceptedBy? policyId <;> simp [h]

theorem acceptedBy_append_kicked (olds : List (PoDupLogonOnline Client)) :
    acceptedBy policyId (history ++ olds.map fun r => .kicked r.client) = acceptedBy policyId history := by
  induction olds generalizing history with
  | nil => simp
  | cons old olds ih =>
    rw [map_cons, append_cons, ih, acceptedBy_snoc]
    exact append_nil _

theorem mem_acceptedBy : cli ∈ acceptedBy policyId history ↔ .accepted policyId cli ∈ history := by
  rw [acceptedBy, mem_filterMap]
  constructor
  · rintro ⟨e, he, heq⟩
    cases e with
    | accepted p c =>
      simp only [Event.acceptedBy?] at heq
      split_ifs at heq with hp
      cases heq
      rwa [hp] at he
    | kicked c => cases heq
    | closed c => cases heq
  · intro h
    exact ⟨_, h, by simp [Event.acceptedBy?]⟩

theorem Standing.accepted (h : Standing policyId cli history) : .accepted policyId cli ∈ history := by
  obtain ⟨before, after, rfl, -, -⟩ := h
  simp

end Histories

/-! ### Room -/

section Rooms

variable {master : MasterItem Client} {dmap : List (PoDupLogonOnline Client)} {onlineMax count : UInt16}

/-- The loop takes the records that are too many, the first of the table. -/
theorem makeRoom_eq (hmax : 0 < onlineMax) (hcount : count.toNat = dmap.length) :
    ∃ left, makeRoom onlineMax count dmap =
        some ⟨left, dmap.take (dmap.length + 1 - onlineMax.toNat), dmap.drop (dmap.length + 1 - onlineMax.toNat)⟩ ∧
      left.toNat = dmap.length - (dmap.length + 1 - onlineMax.toNat) := by
  rw [lt_iff_toNat_lt, UInt16.toNat_zero] at hmax
  induction dmap generalizing count with
  | nil =>
    rw [length_nil] at hcount
    have hle : ¬ onlineMax ≤ count := by
      rw [le_iff_toNat_le]
      omega
    refine ⟨count, ?_, ?_⟩
    · rw [makeRoom, if_neg hle, take_nil, drop_nil]
    · rw [hcount, length_nil]
      omega
  | cons old dmap ih =>
    rw [length_cons] at hcount
    rw [makeRoom, length_cons]
    by_cases hle : onlineMax ≤ count
    · have hle' := le_iff_toNat_le.mp hle
      have hone : (1 : UInt16) ≤ count := by
        rw [le_iff_toNat_le, toNat_one]
        omega
      have hcount' : (count - 1).toNat = dmap.length := by
        rw [UInt16.toNat_sub_of_le _ _ hone, hcount, toNat_one]
        omega
      obtain ⟨left, hroom, hleft⟩ := ih hcount'
      have hsucc : dmap.length + 1 + 1 - onlineMax.toNat = dmap.length + 1 - onlineMax.toNat + 1 := by omega
      refine ⟨left, ?_, ?_⟩
      · rw [if_pos hle, hroom, hsucc]
        rfl
      · rw [hleft, hsucc]
        omega
    · have hlt : ¬ onlineMax.toNat ≤ count.toNat := fun h => hle (le_iff_toNat_le.mpr h)
      have hnone : dmap.length + 1 + 1 - onlineMax.toNat = 0 := by omega
      refine ⟨count, ?_, ?_⟩
      · rw [if_neg hle, hnone]
        rfl
      · rw [hnone, hcount]
        rfl

theorem room_eq (hcount : master.onlineCount.toNat = master.sapling.length) :
    ∃ left, master.room = some ⟨left, master.sapling.take master.needed, master.sapling.drop master.needed⟩ ∧
      left.toNat = master.sapling.length - master.needed := by
  rw [MasterItem.room, MasterItem.needed]
  by_cases hold : 0 < master.onlineMax ∧ isRejectOld master.act
  · rw [if_pos hold, if_pos hold]
    exact makeRoom_eq hold.1 hcount
  · rw [if_neg hold, if_neg hold]
    exact ⟨master.onlineCount, rfl, hcount⟩

/-- A number above all others comes last. -/
theorem insertHint_last {ousr : PoDupLogonOnline Client} (h : Sorted bySeqNo dmap) (hnew : ∀ r ∈ dmap, r.seqNo < ousr.seqNo) :
    insertHint bySeqNo dmap ousr dmap.length = some (dmap ++ [ousr], (dmap.length : ℤ)) := by
  have hput := put_at (v := ousr) h (le_refl dmap.length)
    (fun _ hlt => decide_eq_true (hnew _ (getElem_mem hlt))) (fun hlt => absurd hlt (lt_irrefl _))
  rw [insertHint_eq h _ (le_refl _), hput.1, hput.2, insertIdx_length_self]

end Rooms

/-! ### Searches -/

section Searches

variable {dmap before after : List (PoDupLogonOnline Client)} {r : PoDupLogonOnline Client}

/-- A record of the table is found where it is. -/
theorem find_there (h : Sorted bySeqNo (before ++ r :: after)) :
    find bySeqNo (before ++ r :: after) r = some (before.length : ℤ) := by
  have hbefore : ∀ x ∈ before, bySeqNo.cmp x r = true := by
    intro x hx
    exact (pairwise_append.mp h).2.2 x hx r mem_cons_self
  have hplace : place bySeqNo (before ++ r :: after) r = before.length := by
    rw [place, takeWhile_append_of_pos hbefore, takeWhile_cons_of_neg, append_nil]
    rw [bySeqNo.irrefl]
    simp
  have hthere : isThere bySeqNo (before ++ r :: after) r = true := by
    rw [isThere, hplace, getElem?_append_right (le_refl _), Nat.sub_self, getElem?_cons_zero]
    show (!bySeqNo.cmp r r) = true
    rw [bySeqNo.irrefl]
    rfl
  rw [find_eq h, hthere, hplace]
  rfl

theorem find_absent (h : Sorted bySeqNo dmap) (habsent : ∀ x ∈ dmap, x.seqNo ≠ r.seqNo) :
    find bySeqNo dmap r = some (dmap.length : ℤ) := by
  have hthere : ¬ isThere bySeqNo dmap r = true := by
    rw [isThere_iff h]
    rintro ⟨x, hx, hbelow, habove⟩
    have hlt := of_decide_eq_false hbelow
    have hgt := of_decide_eq_false habove
    rw [UInt64.lt_iff_toNat_lt] at hlt hgt
    exact habsent x hx (UInt64.toNat_inj.mp (by omega))
  rw [find_eq h, if_neg hthere]

/-- Each record is in the table once. -/
theorem notMem_of_sorted (h : Sorted bySeqNo (before ++ r :: after)) : r ∉ before ++ after := by
  intro hr
  have hself : bySeqNo.cmp r r = true := by
    obtain hr | hr := mem_append.mp hr
    · exact (pairwise_append.mp h).2.2 r hr r mem_cons_self
    · exact rel_of_pairwise_cons (pairwise_append.mp h).2.1 hr
  rw [bySeqNo.irrefl] at hself
  cases hself

end Searches

end Fon9.Auth.DupLogon
