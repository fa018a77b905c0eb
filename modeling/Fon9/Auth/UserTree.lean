import Fon9.Auth.Scram
import Fon9.Base.TimeStampCache

/-! The users and one login. The password is checked first, then the dates and flags, and behind what is written then, whether
the one who asks may be the one he asks for. Each early return leaves what was written before it. -/

namespace Fon9.Auth.UserTree

open List Function Option

/-! ### Flags -/

namespace UserFlags

def NeedChgPass : UInt32 := 0x01
def Locked : UInt32 := 0x02
def AllowBeAuthz : UInt32 := 0x010
def AuthcListIsDeny : UInt32 := 0x020
def AuthcMustExists : UInt32 := 0x040
def AuthcOnlyAllowAtt : UInt32 := 0x080
def AuthcRoleFirst : UInt32 := 0x100
def AuthcRoleMerge : UInt32 := 0x200

end UserFlags

def isEnumContains (flags flag : UInt32) : Bool := flags &&& flag == flag

/-- A flag that was set is there. -/
theorem isEnumContains_or (flags flag : UInt32) : isEnumContains (flags ||| flag) flag = true := by
  rw [isEnumContains, beq_iff_eq]
  apply UInt32.toBitVec_inj.mp
  ext i hi
  simp only [UInt32.toBitVec_and, UInt32.toBitVec_or, BitVec.getElem_and, BitVec.getElem_or]
  cases flag.toBitVec[i] <;> simp

theorem or_of_isEnumContains {flags flag : UInt32} (h : isEnumContains flags flag = true) : flags ||| flag = flags := by
  rw [isEnumContains, beq_iff_eq] at h
  have hbits := congrArg UInt32.toBitVec h
  apply UInt32.toBitVec_inj.mp
  ext i hi
  have hbit := congrArg (fun b => b.getLsbD i) hbits
  simp only [UInt32.toBitVec_and, BitVec.getLsbD_and] at hbit
  simp only [UInt32.toBitVec_or, ← BitVec.getLsbD_eq_getElem, BitVec.getLsbD_or]
  rw [← hbit]
  cases flags.toBitVec.getLsbD i <;> simp

/-! ### Records -/

/-- `fon9_Auth_R`. -/
inductive Rcode
  | success
  | needsMore
  | waiting
  | passChanged
  | onlineNotify
  | forceLogout
  | disposed
  | checkLogon
  | eArgs_Mechanism
  | eArgs_NewPass
  | eArgs_Format
  | eUserPass
  | eNotBefore
  | eNotAfter
  | eUserLocked
  | eNeedChgPass
  | eUserFrom
  | eAuthz
  | eNoSupport
  | eNoSupport_ChgPass
  | eOther
  | eProof
  | eInternal_NoAuthMgr
  | eDupLogon
  | eBindFrom
  deriving DecidableEq

/-- The times are null or microseconds. -/
structure UserEv where
  time : Option ℤ := none
  userFrom : Bytes := []
  deriving DecidableEq

structure UserRec where
  pass : PassRec := {}
  roleId : Bytes := []
  notBefore : Option ℤ := none
  notAfter : Option ℤ := none
  evChgPass : UserEv := {}
  evLastAuth : UserEv := {}
  evLastErr : UserEv := {}
  errCount : UInt8 := 0
  maxErrCount : UInt8 := 0
  expDays : UInt8 := 0
  userFlags : UInt32 := UserFlags.NeedChgPass
  authcList : Bytes := []
  deriving DecidableEq

structure AuthResult where
  authcId : Bytes := []
  authzId : Bytes := []
  roleId : Bytes := []
  roleId2 : Bytes := []
  extInfo : Bytes := []
  userFlags : UInt32 := 0

def AuthResult.getUserIdForAuthz (authr : AuthResult) : Bytes :=
  if authr.authzId = [] then authr.authcId else authr.authzId

structure AuthRequest where
  response : Bytes := []
  userFrom : Bytes := []

/-- The hash of a password, the calendar, and the texts of a time and of a date. -/
structure Env where
  fnHashPass : Bytes → PassRec → PassRec
  localTimeZoneOffset : ℤ
  epochSecondsToYYYYMMDDHHMMSS : ℤ → ℤ
  printTime : Option ℤ → Bytes
  printDate : ℤ → Bytes

/-- What a call returns and leaves. `written` has the records that `WriteUpdated` got, as they were then. -/
structure Outcome where
  rcode : Rcode
  info : Bytes
  authr : AuthResult
  users : Bytes → Option UserRec
  written : List (Bytes × UserRec)

/-! ### The list of ids -/

/-- What may be behind an id up to the next separator. -/
def endsId (chSplitter : UInt8) (isAllowSpc : Bool) : Bytes → Bool
  | [] => true
  | c :: cs => c == chSplitter || (isAllowSpc && isspace c && endsId chSplitter isAllowSpc cs)

/-- `std::search`: an empty text is found at the begin. -/
def search (fullstr substr : Bytes) : ℕ :=
  ((List.range fullstr.length).find? fun i => substr.isPrefixOf (fullstr.drop i)).getD fullstr.length

/-- Only the first place is looked at. -/
def strSearchSubstr (fullstr substr : Bytes) (chSplitter : UInt8) (isAllowSpc : Bool) : Option ℕ :=
  let pfind := search fullstr substr
  let before := fullstr.getD (pfind - 1) 0
  if pfind = fullstr.length then none
  else if pfind = 0 ∨ before = chSplitter ∨ (isAllowSpc && isspace before) = true then
    if endsId chSplitter isAllowSpc (fullstr.drop (pfind + substr.length)) then some pfind else none
  else none

/-! ### Checks -/

abbrev Err := Rcode × Bytes

namespace UserRec

variable (env : Env) (now : ℤ) (user : UserRec)

def isOverMaxErrCount : Bool := user.maxErrCount != 0 && user.maxErrCount ≤ user.errCount

/-- `++ErrCount_`, that stays at its highest value. -/
def countError (req : AuthRequest) : UserRec :=
  { user with
    errCount := if user.errCount + 1 = 0 then user.errCount else user.errCount + 1
    evLastErr := { time := some now, userFrom := req.userFrom } }

/-- The password of a request is the one of the user. -/
def isPass (req : AuthRequest) : Bool := (env.fnHashPass req.response user.pass).saltedPass == user.pass.saltedPass

end UserRec

def kMicrosecondsOfDay : ℤ := 86400000000

variable (env : Env) (now : ℤ) (user : UserRec) (authr : AuthResult) (rcode : Rcode)

def getYYYYMMDD (ts : ℤ) : ℕ := TimeStamp.dayOf (env.epochSecondsToYYYYMMDDHHMMSS (ts.tdiv 1000000))

/-- `expDate`, of a user with `ExpDays_`. -/
def expDate : ℤ :=
  (if user.evChgPass.time.getD 0 = 0 ∨ rcode = .passChanged then now
    else user.evChgPass.time.getD 0 + user.expDays.toNat * kMicrosecondsOfDay) + env.localTimeZoneOffset

def isExpired : Bool :=
  user.expDays != 0 && decide (getYYYYMMDD env (expDate env now user rcode) < getYYYYMMDD env (now + env.localTimeZoneOffset))

/-- "Last logon: " and what follows. -/
def lastLogonText : Bytes :=
  text "Last logon: ".toList ++ env.printTime user.evLastAuth.time ++ text " from ".toList ++ user.evLastAuth.userFrom ++
    text "|ChgPass: ".toList ++ env.printTime user.evChgPass.time ++ text " from ".toList ++ user.evChgPass.userFrom ++
      (if user.expDays = 0 then [] else
        text "|ExpDays=".toList ++ uintToStr user.expDays.toNat ++ text "|ExpDate=".toList ++
          env.printDate (expDate env now user rcode)) ++
        if authr.authzId = [] then [] else text "|ForAuthc=".toList ++ authr.authcId

/-- From `__PASS` on: the user as he is left, and the text for `ExtInfo_` or why he is refused. -/
def passStage (req : AuthRequest) (authr : AuthResult) (passRec : PassRec) (rcode : Rcode) (user : UserRec)
    : UserRec × Except Err Bytes :=
  if user.notBefore.any (now < ·) then (user, .error (.eNotBefore, text "not-before".toList))
  else if user.notAfter.any (· < now) then (user, .error (.eNotBefore, text "not-after".toList))
  else if isEnumContains user.userFlags UserFlags.Locked then (user, .error (.eUserLocked, text "user-locked".toList))
  else
    let extInfo := lastLogonText env now user authr rcode
    let user :=
      if isExpired env now user rcode then { user with userFlags := user.userFlags ||| UserFlags.NeedChgPass } else user
    if rcode = .passChanged then
      ({ user with
        userFlags := user.userFlags &&& ~~~UserFlags.NeedChgPass
        evChgPass := { time := some now, userFrom := req.userFrom }
        pass := passRec
        errCount := 0 }, .ok extInfo)
    else if isEnumContains user.userFlags UserFlags.NeedChgPass then
      (user, .error (.eNeedChgPass, text "need-change-pass".toList))
    else
      ({ user with
        evLastAuth := { time := some now, userFrom := req.userFrom }
        errCount := 0 }, .ok extInfo)

/-- The id that is looked for in `AuthcList_`, or what is behind the id of the user. -/
def searchId : Bytes :=
  if isEnumContains user.userFlags UserFlags.AuthcOnlyAllowAtt then authr.authcId.drop authr.authzId.length else authr.authcId

/-- The rules of a user that is asked for by another one. -/
def authcCheck (authcExists : Bool) : Except Err Unit :=
  let isAtt := isEnumContains user.userFlags UserFlags.AuthcOnlyAllowAtt
  if ¬ isEnumContains user.userFlags UserFlags.AllowBeAuthz then .error (.eAuthz, text "no-AllowBeAuthz".toList)
  else if isAtt ∧ (authr.authcId.length ≤ authr.authzId.length ∨ ¬ authr.authzId.isPrefixOf authr.authcId) then
    .error (.eAuthz, text "not-att-id".toList)
  else if (strSearchSubstr user.authcList (searchId user authr) (ch ';') true).isSome then
    if isEnumContains user.userFlags UserFlags.AuthcListIsDeny then .error (.eAuthz, text "AuthcListIsDeny".toList)
    else if isEnumContains user.userFlags UserFlags.AuthcMustExists ∧ ¬ authcExists then
      .error (.eAuthz, text "AuthcMustExists".toList)
    else .ok ()
  else if ¬ isEnumContains user.userFlags UserFlags.AuthcListIsDeny then .error (.eAuthz, text "not-in-AuthcList".toList)
  else if isEnumContains user.userFlags UserFlags.AuthcMustExists ∧ ¬ authcExists then
    .error (.eAuthz, text "AuthcMustExists".toList)
  else .ok ()

/-- The roles of both. -/
def authcRoles (authcRec : Option UserRec) : AuthResult :=
  let authcRole := (authcRec.map (·.roleId)).getD []
  let authcRole := if authcRole = [] then authr.authcId else authcRole
  let authr :=
    if isEnumContains user.userFlags UserFlags.AuthcRoleFirst then { authr with roleId2 := authr.roleId, roleId := authcRole }
    else { authr with roleId2 := authcRole }
  if isEnumContains user.userFlags UserFlags.AuthcRoleMerge then authr else { authr with roleId2 := [] }

/-! ### AuthUpdate -/

def errReturn (err : Err) (authr : AuthResult) (users : Bytes → Option UserRec) (written : List (Bytes × UserRec)) :
    Outcome where
  rcode := err.1
  info := text "e=".toList ++ err.2
  authr := authr
  users := users
  written := written

def invalidProof : Err := (.eUserPass, text "invalid-proof(maybe UserId or Password error)".toList)

/-- What follows `WriteUpdated` of a login. -/
def authzStage (req : AuthRequest) (authr : AuthResult) (users : Bytes → Option UserRec) (user : UserRec)
    (written : List (Bytes × UserRec)) : Outcome :=
  if authr.authzId = [] then { rcode := .success, info := [], authr := authr, users := users, written := written }
  else
    match authcCheck user authr (users authr.authcId).isSome with
    | .error err => errReturn err authr users written
    | .ok () =>
      let authcRec := users authr.authcId
      let user := { user with evLastAuth := { time := some now, userFrom := req.userFrom } }
      let users := if authcRec.isSome then Function.update users authr.authzId (some user) else users
      { rcode := .success
        info := []
        authr := authcRoles user authr authcRec
        users := users
        written := written ++ ((users authr.authcId).map fun authcRec => (authr.authcId, authcRec)).toList }

/-- A password that is right, or that was changed. -/
def passUpdate (users : Bytes → Option UserRec) (rcode : Rcode) (req : AuthRequest) (authr : AuthResult)
    (passRec : PassRec) (user : UserRec) : Outcome :=
  let userId := authr.getUserIdForAuthz
  match passStage env now req authr passRec rcode user with
  | (user, .error err) => errReturn err authr (Function.update users userId (some user)) []
  | (user, .ok extInfo) =>
    let authr := { authr with extInfo := extInfo }
    let users := Function.update users userId (some user)
    if rcode = .passChanged then
      { rcode := .passChanged, info := [], authr := authr, users := users, written := [(userId, user)] }
    else authzStage now req { authr with userFlags := user.userFlags } users user [(userId, user)]

def authUpdate (users : Bytes → Option UserRec) (rcode : Rcode) (req : AuthRequest) (authr : AuthResult)
    (passRec : PassRec) : Outcome :=
  let userId := authr.getUserIdForAuthz
  match users userId with
  | none => errReturn invalidProof authr users []
  | some user =>
    if user.isOverMaxErrCount then errReturn (.eUserLocked, text "over-max-err-count".toList) authr users []
    else if rcode = .checkLogon ∧ user.isPass env req = true then
      let authr := { authr with roleId := if user.roleId = [] then userId else user.roleId }
      passUpdate env now users .success req authr passRec user
    else if rcode = .passChanged ∨ rcode = .success then passUpdate env now users rcode req authr passRec user
    else
      let user := user.countError now req
      errReturn invalidProof authr (Function.update users userId (some user)) [(userId, user)]

/-! ### What a call keeps -/

/-- The rules by which one user may ask for another one. -/
structure AuthcAllowed (user : UserRec) (authr : AuthResult) (authcExists : Bool) : Prop where
  allow : isEnumContains user.userFlags UserFlags.AllowBeAuthz = true
  att : isEnumContains user.userFlags UserFlags.AuthcOnlyAllowAtt = true →
    ∃ attId, attId ≠ [] ∧ authr.authcId = authr.authzId ++ attId
  list : (strSearchSubstr user.authcList (searchId user authr) (ch ';') true).isSome =
    !isEnumContains user.userFlags UserFlags.AuthcListIsDeny
  mustExists : isEnumContains user.userFlags UserFlags.AuthcMustExists = true → authcExists = true

/-- A user who may log in, as far as the dates and the flags say. -/
structure MayLogon (now : ℤ) (user : UserRec) : Prop where
  errCount : ¬ (user.maxErrCount ≠ 0 ∧ user.maxErrCount ≤ user.errCount)
  notBefore : ∀ time ∈ user.notBefore, time ≤ now
  notAfter : ∀ time ∈ user.notAfter, now ≤ time
  locked : isEnumContains user.userFlags UserFlags.Locked = false
  needChgPass : isEnumContains user.userFlags UserFlags.NeedChgPass = false

/-- The last record of an id that was written. -/
def lastWritten (written : List (Bytes × UserRec)) (userId : Bytes) : Option UserRec :=
  ((written.filter fun w => w.1 = userId).getLast?).map (·.2)

structure Keeps (env : Env) (now : ℤ) (users : Bytes → Option UserRec) (req : AuthRequest) (authr : AuthResult)
    (out : Outcome) : Prop where
  success : out.rcode = .success → ∃ user, users authr.getUserIdForAuthz = some user ∧ MayLogon now user ∧
    isExpired env now user .success = false ∧
      (authr.authzId ≠ [] → AuthcAllowed user authr (users authr.authcId).isSome)
  refused : out.rcode ≠ .success → out.rcode ≠ .passChanged → ∀ user, users authr.getUserIdForAuthz = some user →
    ∃ user', out.users authr.getUserIdForAuthz = some user' ∧ user.errCount ≤ user'.errCount ∧
      user'.evLastAuth = user.evLastAuth ∧ user'.evChgPass = user.evChgPass ∧ user'.pass = user.pass
  written : ∀ userId rec, out.users userId = some rec → users userId ≠ some rec → lastWritten out.written userId = some rec

/-- The right password, or a proof of it. -/
def IsLogon (req : AuthRequest) (user : UserRec) : Prop :=
  rcode = .success ∨ rcode = .checkLogon ∧ user.isPass env req = true

section Checks

variable {env : Env} {now : ℤ} {users : Bytes → Option UserRec} {rcode : Rcode} {req : AuthRequest} {authr : AuthResult}
  {passRec : PassRec} {user : UserRec} {authcExists : Bool} {out : Outcome} {err : Err}

theorem att_iff {authzId authcId : Bytes} :
    ¬ (authcId.length ≤ authzId.length ∨ ¬ authzId.isPrefixOf authcId) ↔
      ∃ attId, attId ≠ [] ∧ authcId = authzId ++ attId := by
  rw [not_or, not_not, isPrefixOf_iff_prefix]
  constructor
  · rintro ⟨hlen, attId, rfl⟩
    refine ⟨attId, ?_, rfl⟩
    rintro rfl
    exact hlen (by simp)
  · rintro ⟨attId, hne, rfl⟩
    have hpos := length_pos_iff.mpr hne
    refine ⟨?_, prefix_append _ _⟩
    rw [length_append]
    omega

theorem not_and_not_iff {a b : Bool} : ¬ (a = true ∧ ¬ b = true) ↔ (a = true → b = true) := by
  rw [not_and, not_not]

theorem authcCheck_ok_iff : authcCheck user authr authcExists = .ok () ↔ AuthcAllowed user authr authcExists := by
  have hattIff := @att_iff authr.authzId authr.authcId
  unfold authcCheck
  dsimp only
  constructor
  · intro h
    split_ifs at h with hallow hatt hlisted hdeny hexists hdeny hexists
    · refine ⟨hallow, fun hflag => hattIff.mp fun hbad => hatt ⟨hflag, hbad⟩, ?_, not_and_not_iff.mp hexists⟩
      rw [hlisted, Bool.eq_false_of_not_eq_true hdeny, Bool.not_false]
    · refine ⟨hallow, fun hflag => hattIff.mp fun hbad => hatt ⟨hflag, hbad⟩, ?_, not_and_not_iff.mp hexists⟩
      rw [Bool.eq_false_of_not_eq_true hlisted, hdeny, Bool.not_true]
  · intro h
    have hatt : ¬ (isEnumContains user.userFlags UserFlags.AuthcOnlyAllowAtt = true ∧
        (authr.authcId.length ≤ authr.authzId.length ∨ ¬ authr.authzId.isPrefixOf authr.authcId)) :=
      fun hbad => hattIff.mpr (h.att hbad.1) hbad.2
    have hexists := not_and_not_iff.mpr h.mustExists
    rw [if_neg (not_not.mpr h.allow), if_neg hatt, h.list]
    cases hdeny : isEnumContains user.userFlags UserFlags.AuthcListIsDeny with
    | true => rw [if_neg (by decide), if_neg (by decide), if_neg hexists]
    | false => rw [if_pos (by decide), if_neg (by decide), if_neg hexists]

theorem authcCheck_error (h : authcCheck user authr authcExists = .error err) : err.1 = .eAuthz := by
  unfold authcCheck at h
  dsimp only at h
  split_ifs at h
  all_goals
    cases h
    rfl

/-! ### The stages -/

/-- A login that got through: the time of the login and no errors are in the record. -/
def loggedOn (now : ℤ) (req : AuthRequest) (user : UserRec) : UserRec :=
  { user with
    evLastAuth := { time := some now, userFrom := req.userFrom }
    errCount := 0 }

/-- A password that is too old. -/
def mustChgPass (user : UserRec) : UserRec := { user with userFlags := user.userFlags ||| UserFlags.NeedChgPass }

theorem mustChgPass_eq (h : isEnumContains user.userFlags UserFlags.NeedChgPass = true) : mustChgPass user = user := by
  rw [mustChgPass, or_of_isEnumContains h]

theorem mustChgPass_ne (h : isEnumContains user.userFlags UserFlags.NeedChgPass = false) : mustChgPass user ≠ user := by
  intro hsame
  have hflag := isEnumContains_or user.userFlags UserFlags.NeedChgPass
  rw [show user.userFlags ||| UserFlags.NeedChgPass = user.userFlags from congrArg UserRec.userFlags hsame, h] at hflag
  cases hflag

theorem any_iff {time : Option ℤ} {p : ℤ → Bool} : ¬ time.any p = true ↔ ∀ t ∈ time, p t = false := by
  cases time with
  | none => simp
  | some t => simp

/-- A login that stops leaves the user, or with the flag alone; one that goes on has its conditions. -/
theorem passStage_cases (hrcode : rcode ≠ .passChanged) (hover : user.isOverMaxErrCount = false) :
    (∃ err, err.1 ≠ .success ∧ err.1 ≠ .passChanged ∧ passStage env now req authr passRec rcode user = (user, .error err) ∧
        ¬ MayLogon now user) ∨
      (∃ err, err.1 ≠ .success ∧ err.1 ≠ .passChanged ∧
        passStage env now req authr passRec rcode user = (mustChgPass user, .error err) ∧
          isExpired env now user rcode = true ∧ MayLogon now user) ∨
      (∃ extInfo, passStage env now req authr passRec rcode user = (loggedOn now req user, .ok extInfo) ∧
        isExpired env now user rcode = false ∧ MayLogon now user) := by
  have hcount : ¬ (user.maxErrCount ≠ 0 ∧ user.maxErrCount ≤ user.errCount) := by
    simpa [UserRec.isOverMaxErrCount] using hover
  unfold passStage
  dsimp only
  split_ifs with hbefore hafter hlocked hexp hneed hneed
  · refine .inl ⟨_, by decide, by decide, rfl, fun hmay => any_iff.mpr (fun t ht => ?_) hbefore⟩
    exact decide_eq_false (not_lt.mpr (hmay.notBefore t ht))
  · refine .inl ⟨_, by decide, by decide, rfl, fun hmay => any_iff.mpr (fun t ht => ?_) hafter⟩
    exact decide_eq_false (not_lt.mpr (hmay.notAfter t ht))
  · refine .inl ⟨_, by decide, by decide, rfl, fun hmay => ?_⟩
    rw [hmay.locked] at hlocked
    cases hlocked
  · change _ ∨ (∃ err, _ ∧ _ ∧ (mustChgPass user, _) = _ ∧ _) ∨ _
    cases hflag : isEnumContains user.userFlags UserFlags.NeedChgPass with
    | true =>
      refine .inl ⟨_, ?_, ?_, Prod.ext (mustChgPass_eq hflag) rfl, fun hmay => ?_⟩
      · decide
      · decide
      · rw [hmay.needChgPass] at hflag
        cases hflag
    | false =>
      refine .inr (.inl ⟨_, by decide, by decide, rfl, hexp, hcount, ?_, ?_, Bool.eq_false_of_not_eq_true hlocked, hflag⟩)
      · exact fun t ht => not_lt.mp (of_decide_eq_false (any_iff.mp hbefore t ht))
      · exact fun t ht => not_lt.mp (of_decide_eq_false (any_iff.mp hafter t ht))
  · exact absurd (isEnumContains_or _ _) hneed
  · refine .inl ⟨_, by decide, by decide, rfl, fun hmay => ?_⟩
    rw [hmay.needChgPass] at hneed
    cases hneed
  · refine .inr (.inr ⟨_, rfl, Bool.eq_false_of_not_eq_true hexp, hcount, ?_, ?_,
      Bool.eq_false_of_not_eq_true hlocked, Bool.eq_false_of_not_eq_true hneed⟩)
    · exact fun t ht => not_lt.mp (of_decide_eq_false (any_iff.mp hbefore t ht))
    · exact fun t ht => not_lt.mp (of_decide_eq_false (any_iff.mp hafter t ht))

theorem passStage_passChanged :
    (∃ err, err.1 ≠ .success ∧ err.1 ≠ .passChanged ∧
        passStage env now req authr passRec .passChanged user = (user, .error err)) ∨
      ∃ user' extInfo, passStage env now req authr passRec .passChanged user = (user', .ok extInfo) := by
  unfold passStage
  dsimp only
  rw [if_pos (rfl : Rcode.passChanged = Rcode.passChanged)]
  split_ifs
  · exact .inl ⟨_, by decide, by decide, rfl⟩
  · exact .inl ⟨_, by decide, by decide, rfl⟩
  · exact .inl ⟨_, by decide, by decide, rfl⟩
  · exact .inr ⟨_, _, rfl⟩
  · exact .inr ⟨_, _, rfl⟩

/-- Where all that was written is what the table has. -/
theorem lastWritten_eq {written : List (Bytes × UserRec)} {userId : Bytes} (hall : ∀ w ∈ written, users w.1 = some w.2)
    (hmem : ∃ w ∈ written, w.1 = userId) : lastWritten written userId = users userId := by
  obtain ⟨w, hw, hid⟩ := hmem
  have hne : written.filter (fun w => w.1 = userId) ≠ [] := by
    intro hnil
    exact filter_eq_nil_iff.mp hnil w hw (decide_eq_true hid)
  obtain ⟨hmem, hlast⟩ := mem_filter.mp (getLast_mem hne)
  have hrec := hall _ hmem
  rw [of_decide_eq_true hlast] at hrec
  rw [lastWritten, getLast?_eq_some_getLast hne, map_some, hrec]

/-- The rules keep the records, and write no other ones; they return an error where they refuse. -/
theorem authzStage_cases (hself : authr.authzId ≠ [] → users authr.authzId = some user)
    (hev : user.evLastAuth = { time := some now, userFrom := req.userFrom }) (written : List (Bytes × UserRec)) :
    ((authr.authzId ≠ [] → AuthcAllowed user authr (users authr.authcId).isSome) ∧
      ∃ authr' more, (∀ w ∈ more, users w.1 = some w.2) ∧ authzStage now req authr users user written =
        { rcode := .success, info := [], authr := authr', users := users, written := written ++ more }) ∨
    (authr.authzId ≠ [] ∧ ¬ AuthcAllowed user authr (users authr.authcId).isSome ∧
      ∃ err, err.1 = .eAuthz ∧ authzStage now req authr users user written = errReturn err authr users written) := by
  unfold authzStage
  split_ifs with hnil
  · refine .inl ⟨fun hne => absurd hnil hne, authr, [], ?_, ?_⟩
    · intro w hw
      cases hw
    · rw [append_nil]
  · cases hcheck : authcCheck user authr (users authr.authcId).isSome with
    | error err =>
      refine .inr ⟨hnil, ?_, err, authcCheck_error hcheck, rfl⟩
      intro hallowed
      rw [authcCheck_ok_iff.mpr hallowed] at hcheck
      cases hcheck
    | ok _ =>
      -- The time of the login is written once more, and it is the one that is there.
      have hsame : update users authr.authzId
          (some { user with evLastAuth := { time := some now, userFrom := req.userFrom } }) = users := by
        rw [← hev, ← hself hnil, update_eq_self]
      dsimp only
      rw [hsame, ite_self]
      refine .inl ⟨fun _ => authcCheck_ok_iff.mp hcheck, _, _, ?_, rfl⟩
      intro w hw
      cases hauthc : users authr.authcId with
      | none =>
        rw [hauthc] at hw
        cases hw
      | some authcRec =>
        rw [hauthc] at hw
        rw [mem_singleton.mp hw]
        exact hauthc

/-- The rules look at the flags and the list of the user, and at the two ids. -/
theorem authcAllowed_loggedOn {authr' : AuthResult} (hz : authr'.authzId = authr.authzId)
    (hc : authr'.authcId = authr.authcId) :
    AuthcAllowed (loggedOn now req user) authr' authcExists ↔ AuthcAllowed user authr authcExists := by
  have hcheck : authcCheck (loggedOn now req user) authr' authcExists = authcCheck user authr authcExists := by
    cases authr'
    cases authr
    cases hz
    cases hc
    rfl
  rw [← authcCheck_ok_iff, ← authcCheck_ok_iff, hcheck]

end Checks

/-! ### The call -/

section Calls

variable {env : Env} {now : ℤ} {users : Bytes → Option UserRec} {rcode : Rcode} {req : AuthRequest} {authr : AuthResult}
  {passRec : PassRec} {user user' : UserRec} {written : List (Bytes × UserRec)} {out : Outcome} {err : Err}

/-- An error that leaves the records. -/
theorem keeps_unchanged (hsuccess : err.1 ≠ .success) (authr' : AuthResult) :
    Keeps env now users req authr (errReturn err authr' users []) where
  success h := absurd h hsuccess
  refused _ _ user huser := ⟨user, huser, UInt8.le_refl _, rfl, rfl, rfl⟩
  written _ _ hrec hne := absurd hrec hne

theorem update_eq_self_of_eq (huser : users authr.getUserIdForAuthz = some user) :
    update users authr.getUserIdForAuthz (some user) = users := by
  rw [← huser, update_eq_self]

/-- Where only the record of the user was changed, and it was written. -/
theorem written_of_update {userId : Bytes} (hall : ∀ w ∈ written, update users userId (some user') w.1 = some w.2)
    (hmem : ∃ w ∈ written, w.1 = userId) (userId' : Bytes) (rec : UserRec)
    (hrec : update users userId (some user') userId' = some rec) (hne : users userId' ≠ some rec) :
    lastWritten written userId' = some rec := by
  by_cases hsame : userId' = userId
  · rw [← hrec, hsame]
    exact lastWritten_eq hall hmem
  · rw [update_of_ne hsame] at hrec
    exact absurd hrec hne

theorem countError_le : user.errCount ≤ (user.countError now req).errCount := by
  unfold UserRec.countError
  dsimp only
  split_ifs with hmax
  · exact UInt8.le_refl _
  · rw [UInt8.le_iff_toNat_le, UInt8.toNat_add]
    have hlt := user.errCount.toNat_lt
    have hne : user.errCount.toNat ≠ 255 := by
      intro h255
      exact hmax (UInt8.toNat_inj.mp (by rw [UInt8.toNat_add, h255]; rfl))
    have hone : (1 : UInt8).toNat = 1 := rfl
    omega

theorem keeps_countError (authr' : AuthResult) (huser : users authr.getUserIdForAuthz = some user) :
    Keeps env now users req authr (errReturn invalidProof authr'
      (update users authr.getUserIdForAuthz (some (user.countError now req)))
        [(authr.getUserIdForAuthz, user.countError now req)]) where
  success h := by cases h
  refused _ _ user' huser' := by
    rw [huser, some.injEq] at huser'
    subst huser'
    exact ⟨_, update_self _ _ _, countError_le, rfl, rfl, rfl⟩
  written := by
    refine written_of_update ?_ ⟨_, mem_singleton_self _, rfl⟩
    intro w hw
    rw [mem_singleton.mp hw, update_self]

/-- The account is left as it was by a refused login: the password is not too old where the flag that says so is not there,
and where the rules refuse, there were no errors, and the last login was at the same time from the same place. -/
def LeavesAccount (env : Env) (now : ℤ) (users : Bytes → Option UserRec) (req : AuthRequest) (authr : AuthResult)
    (user : UserRec) : Prop :=
  isExpired env now user .success = false ∧
    (authr.authzId ≠ [] → AuthcAllowed user authr (users authr.authcId).isSome ∨
      user.errCount = 0 ∧ user.evLastAuth = { time := some now, userFrom := req.userFrom })

theorem passUpdate_keeps_iff {authr' : AuthResult} (hz : authr'.authzId = authr.authzId) (hc : authr'.authcId = authr.authcId)
    (huser : users authr.getUserIdForAuthz = some user) (hover : user.isOverMaxErrCount = false) :
    Keeps env now users req authr (passUpdate env now users .success req authr' passRec user) ↔
      (MayLogon now user → LeavesAccount env now users req authr user) := by
  have hid : authr'.getUserIdForAuthz = authr.getUserIdForAuthz := by
    rw [AuthResult.getUserIdForAuthz, AuthResult.getUserIdForAuthz, hz, hc]
  have hne : Rcode.success ≠ .passChanged := by decide
  unfold passUpdate
  dsimp only
  rw [hid]
  rcases @passStage_cases env now .success req authr' passRec user hne hover with
    ⟨err, hsuccess, -, hstage, hmay⟩ | ⟨err, hsuccess, hchanged, hstage, hexp, hmay⟩ | ⟨extInfo, hstage, hexp, hmay⟩
  · rw [hstage]
    dsimp only
    rw [update_eq_self_of_eq huser]
    exact iff_of_true (keeps_unchanged hsuccess authr') (fun h => absurd h hmay)
  · rw [hstage]
    dsimp only
    refine iff_of_false (fun hkeeps => ?_) (fun h => ?_)
    · -- The flag is set in the record and nothing is written.
      have hlast := hkeeps.written authr.getUserIdForAuthz (mustChgPass user) (update_self _ _ _) (fun hsame => by
        rw [huser, some.injEq] at hsame
        exact mustChgPass_ne hmay.needChgPass hsame.symm)
      cases hlast
    · rw [(h hmay).1] at hexp
      cases hexp
  · rw [hstage]
    dsimp only
    rw [if_neg hne]
    generalize husers : update users authr.getUserIdForAuthz (some (loggedOn now req user)) = users'
    have hupdated : users' authr.getUserIdForAuthz = some (loggedOn now req user) := by
      rw [← husers, update_self]
    have hself : authr'.authzId ≠ [] → users' authr'.authzId = some (loggedOn now req user) := by
      intro hnil
      rwa [← hid, AuthResult.getUserIdForAuthz, if_neg hnil] at hupdated
    have hexists : (users' authr'.authcId).isSome = (users authr.authcId).isSome := by
      rw [hc]
      by_cases hsame : authr.authcId = authr.getUserIdForAuthz
      · rw [hsame, hupdated, huser]
        rfl
      · rw [← husers, update_of_ne hsame]
    have hfirst : ∀ w ∈ [(authr.getUserIdForAuthz, loggedOn now req user)], users' w.1 = some w.2 := by
      intro w hw
      rw [mem_singleton.mp hw, hupdated]
    set authr'' : AuthResult := { authr' with extInfo := extInfo, userFlags := (loggedOn now req user).userFlags }
    have hallowed : AuthcAllowed (loggedOn now req user) authr'' (users' authr'.authcId).isSome ↔
        AuthcAllowed user authr (users authr.authcId).isSome := by
      rw [hexists]
      exact authcAllowed_loggedOn hz hc
    rcases @authzStage_cases now users' req authr'' (loggedOn now req user) hself rfl
      [(authr.getUserIdForAuthz, loggedOn now req user)] with ⟨hrules, _, more, hmore, hout⟩ | ⟨hnil, hrules, err, herr, hout⟩
    · have hrules' : authr.authzId ≠ [] → AuthcAllowed user authr (users authr.authcId).isSome :=
        fun hnil => hallowed.mp (hrules (hz ▸ hnil))
      rw [hout]
      refine iff_of_true ⟨fun _ => ⟨user, huser, hmay, hexp, hrules'⟩, fun hbad => absurd rfl hbad, ?_⟩
        (fun _ => ⟨hexp, fun hnil => .inl (hrules' hnil)⟩)
      rw [← husers]
      refine written_of_update ?_ ⟨_, mem_append_left _ (mem_singleton_self _), rfl⟩
      rw [husers]
      intro w hw
      rcases mem_append.mp hw with hw | hw
      · exact hfirst w hw
      · exact hmore w hw
    · have hrules' : ¬ AuthcAllowed user authr (users authr.authcId).isSome := fun h => hrules (hallowed.mpr h)
      have hsuccess : err.1 ≠ .success := by
        rw [herr]
        decide
      have hchanged : err.1 ≠ .passChanged := by
        rw [herr]
        decide
      rw [hout]
      constructor
      · intro hkeeps _
        obtain ⟨user', huser', hcount, hlast, -⟩ := hkeeps.refused hsuccess hchanged user huser
        have hsame := some.inj (huser'.symm.trans hupdated)
        rw [hsame] at hcount hlast
        have hzero : user.errCount = 0 := UInt8.le_antisymm hcount (UInt8.le_iff_toNat_le.mpr (Nat.zero_le _))
        exact ⟨hexp, fun _ => Or.inr ⟨hzero, hlast.symm⟩⟩
      · intro h
        obtain ⟨hcount, hlast⟩ := ((h hmay).2 (hz ▸ hnil)).resolve_left hrules'
        refine ⟨fun h => absurd h hsuccess, fun _ _ user₀ huser₀ => ?_, ?_⟩
        · have hsame := some.inj (huser₀.symm.trans huser)
          rw [hsame]
          exact ⟨_, hupdated, UInt8.le_of_eq hcount, hlast.symm, rfl, rfl⟩
        · rw [← husers] at hfirst ⊢
          exact written_of_update hfirst ⟨_, mem_singleton_self _, rfl⟩

theorem passUpdate_passChanged (hid : users authr.getUserIdForAuthz = some user) :
    Keeps env now users req authr (passUpdate env now users .passChanged req authr passRec user) := by
  unfold passUpdate
  dsimp only
  rcases @passStage_passChanged env now req authr passRec user with ⟨err, hsuccess, -, hstage⟩ | ⟨user', extInfo, hstage⟩
  · rw [hstage]
    dsimp only
    rw [update_eq_self_of_eq hid]
    exact keeps_unchanged hsuccess authr
  · rw [hstage]
    dsimp only
    rw [if_pos rfl]
    refine ⟨fun h => (by cases h), fun _ h => absurd rfl h, ?_⟩
    refine written_of_update ?_ ⟨_, mem_singleton_self _, rfl⟩
    intro w hw
    rw [mem_singleton.mp hw, update_self]

/-- A call keeps the account if and only if, where the login is right and the user may log in, it is not one of the two that
are refused behind a change of the record. -/
theorem authUpdate_keeps_iff (env : Env) (now : ℤ) (users : Bytes → Option UserRec) (rcode : Rcode) (req : AuthRequest)
    (authr : AuthResult) (passRec : PassRec) :
    Keeps env now users req authr (authUpdate env now users rcode req authr passRec) ↔
      ∀ user, users authr.getUserIdForAuthz = some user → IsLogon env rcode req user → MayLogon now user →
        LeavesAccount env now users req authr user := by
  unfold authUpdate
  dsimp only
  cases huser : users authr.getUserIdForAuthz with
  | none =>
    refine iff_of_true ⟨fun h => (by cases h), fun _ _ user h => ?_, fun _ _ hrec hne => absurd hrec hne⟩ ?_
    · rw [huser] at h
      cases h
    · intro user h
      cases h
  | some user =>
    simp only [Option.some.injEq, forall_eq']
    cases hover : user.isOverMaxErrCount with
    | true =>
      rw [if_pos rfl]
      refine iff_of_true (keeps_unchanged (by decide) authr) (fun _ hmay => ?_)
      have hcount := hmay.errCount
      simp [UserRec.isOverMaxErrCount] at hover
      exact absurd hover hcount
    | false =>
      rw [if_neg (by decide)]
      by_cases hlogon : rcode = .checkLogon ∧ user.isPass env req = true
      · have hright : IsLogon env rcode req user := Or.inr hlogon
        rw [if_pos hlogon, forall_prop_of_true hright]
        set authr' : AuthResult :=
          { authr with roleId := if user.roleId = [] then authr.getUserIdForAuthz else user.roleId }
        exact @passUpdate_keeps_iff env now users req authr passRec user authr' rfl rfl huser hover
      rw [if_neg hlogon]
      by_cases hpass : rcode = .passChanged ∨ rcode = .success
      · rw [if_pos hpass]
        rcases hpass with rfl | rfl
        · refine iff_of_true (passUpdate_passChanged huser) (fun h => ?_)
          rcases h with h | h
          · cases h
          · cases h.1
        · have hright : IsLogon env .success req user := Or.inl rfl
          rw [passUpdate_keeps_iff rfl rfl huser hover, forall_prop_of_true hright]
      · rw [if_neg hpass]
        refine iff_of_true (keeps_countError authr huser) (fun h => ?_)
        rcases h with h | h
        · exact absurd (Or.inr h) hpass
        · exact absurd h hlogon

/-- A user without flags asks for one that may not be asked for, and that has one error: the error is gone. -/
theorem not_authUpdate_keeps : ¬ ∀ (env : Env) (now : ℤ) (users : Bytes → Option UserRec) (rcode : Rcode) (req : AuthRequest)
    (authr : AuthResult) (passRec : PassRec),
    Keeps env now users req authr (authUpdate env now users rcode req authr passRec) := by
  intro h
  have hkeeps := h ⟨fun _ pass => pass, 0, fun _ => 0, fun _ => [], fun _ => []⟩ 1
    (fun userId => if userId = [66] then some { errCount := 1, userFlags := 0 } else none) .success {}
    { authcId := [65], authzId := [66] } {}
  obtain ⟨user', huser', hcount, -⟩ := hkeeps.refused (by decide) (by decide) _ rfl
  have hsame : user'.errCount = 0 := congrArg UserRec.errCount (Option.some.inj huser').symm
  rw [hsame] at hcount
  exact absurd hcount (by decide)

end Calls

end Fon9.Auth.UserTree
