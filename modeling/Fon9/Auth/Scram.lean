import Fon9.Base.Base64

/-! SCRAM on both sides: the messages, what is computed from a password, and the users. The hash is
a parameter. -/

namespace Fon9.Auth

/-- The characters of a text, with the EOS behind it. -/
def charAt (s : Bytes) (i : ℕ) : UInt8 := s.getD i 0

def text (s : List Char) : Bytes := s.map ch

/-! ### What is computed -/

/-- A hash with its HMAC and the salted passwords. `behind` is what is in memory behind a text that is
read too far. -/
structure Alg where
  kOutputSize : ℕ
  hash : Bytes → Bytes
  hmac : (msg key : Bytes) → Bytes
  calcSaltedPassword : (pass salt : Bytes) → (iter : ℕ) → Bytes
  behind : Bytes
  kOutputSize_pos : 0 < kOutputSize
  hmac_length : ∀ msg key, (hmac msg key).length = kOutputSize
  calcSaltedPassword_length : ∀ pass salt iter, (calcSaltedPassword pass salt iter).length = kOutputSize

def xorBytes (a b : Bytes) : Bytes := List.zipWith (· ^^^ ·) a b

namespace Alg

variable (alg : Alg)

/-- The bytes that are read as a salted password. -/
def keyOf (saltedPassword : Bytes) : Bytes := (saltedPassword ++ alg.behind).take alg.kOutputSize

/-- `AppendProof`. -/
def makeProof (saltedPassword authMessage : Bytes) : Bytes :=
  let clientKey := alg.hmac (text ['C', 'l', 'i', 'e', 'n', 't', ' ', 'K', 'e', 'y']) (alg.keyOf saltedPassword)
  base64Encode (xorBytes clientKey (alg.hmac authMessage (alg.hash clientKey)))

def makeVerify (saltedPassword authMessage : Bytes) : Bytes :=
  let serverKey := alg.hmac (text ['S', 'e', 'r', 'v', 'e', 'r', ' ', 'K', 'e', 'y']) (alg.keyOf saltedPassword)
  base64Encode (alg.hmac authMessage serverKey)

end Alg

/-- The characters of a nonce. -/
def randomChs : Bytes :=
  text (['0', '1', '2', '3', '4', '5', '6', '7', '8', '9', 'A', 'B', 'C', 'D', 'E', 'F', 'G', 'H', 'I', 'J', 'K', 'L',
    'M', 'N', 'O', 'P', 'Q', 'R', 'S', 'T', 'U', 'V', 'W', 'X', 'Y', 'Z', 'a', 'b', 'c', 'd', 'e', 'f', 'g', 'h', 'i',
    'j', 'k', 'l', 'm', 'n', 'o', 'p', 'q', 'r', 's', 't', 'u', 'v', 'w', 'x', 'y', 'z', '+', '-', '*', '/', '%', '@',
    '!', '$', '&', '_', '?', '^'])

/-- What `RandomChars` makes. -/
def Nonce : Type := { nonce : Bytes // ∀ c ∈ nonce, c ∈ randomChs }

/-! ### Results -/

inductive AuthRc
  | success
  | needsMore
  | passChanged
  | eArgs_NewPass
  | eArgs_Format
  | eUserPass
  /-- One of the codes with which a user is refused though the password is right. -/
  | eRefused
  | eNoSupport
  | eOther
  | eProof
  deriving DecidableEq, Repr

def AuthRc.isError : AuthRc → Bool
  | success => false
  | needsMore => false
  | passChanged => false
  | _ => true

structure AuthR where
  rcode : AuthRc
  info : Bytes := []
  deriving DecidableEq, Repr

structure AuthResult where
  authcId : Bytes := []
  authzId : Bytes := []
  roleId : Bytes := []
  deriving DecidableEq, Repr

def AuthResult.getUserIdForAuthz (authr : AuthResult) : Bytes :=
  if authr.authzId = [] then authr.authcId else authr.authzId

/-! ### Users -/

structure PassRec where
  algParam : UInt64 := 0
  salt : Bytes := []
  saltedPass : Bytes := []
  deriving DecidableEq, Repr

/-- `AppendSaltAndIterator`. -/
def PassRec.saltAndIterator (pass : PassRec) : Bytes :=
  base64Encode pass.salt ++ text [',', 'i', '='] ++ uintToStr pass.algParam.toNat

structure UserRec where
  roleId : Bytes := []
  pass : PassRec := {}
  deriving DecidableEq, Repr

/-- The users by their id, and why the policies refuse one. -/
structure UserMgr where
  users : Bytes → Option UserRec
  refuses : AuthRc → AuthResult → Option Bytes

namespace UserMgr

/-- `AuthUpdate`, as far as a password is concerned. -/
def authUpdate (m : UserMgr) (rcode : AuthRc) (authr : AuthResult) (passRec : PassRec) : AuthR × UserMgr :=
  match m.users authr.getUserIdForAuthz with
  | none => (⟨.eUserPass, []⟩, m)
  | some user =>
    match m.refuses rcode authr with
    | some info => (⟨.eRefused, info⟩, m)
    | none =>
      if rcode = .success then (⟨.success, []⟩, m)
      else if rcode = .passChanged then
        (⟨.passChanged, []⟩,
          { m with users := Function.update m.users authr.getUserIdForAuthz (some { user with pass := passRec }) })
      else (⟨.eUserPass, []⟩, m)

end UserMgr

/-! ### The server -/

/-- What a session of the server draws: its nonce, and a salt at a step. -/
structure ServerRandom where
  nonce : Nonce
  salt : ℕ → Bytes
  salt_length : ∀ step, (salt step).length = 18

structure SaslScramServer where
  authMessage : Bytes := []
  pass : PassRec := {}
  step : ℕ := 0
  isChgPass : Bool := false
  authResult : AuthResult := {}
  deriving DecidableEq, Repr

namespace SaslScramServer

variable (alg : Alg) (random : ServerRandom) (m : UserMgr) (server : SaslScramServer) (response : Bytes)

/-- `SetDefaultPass`: the salted password stays. -/
def setDefaultPass : SaslScramServer :=
  { server with pass := { server.pass with algParam := 10000, salt := random.salt server.step } }

/-- `MakeProof`. -/
def makeProof : Bytes :=
  if server.pass.saltedPass.length ≠ alg.kOutputSize then []
  else alg.makeProof server.pass.saltedPass server.authMessage

/-- `MakeVerify`. -/
def makeVerify : Bytes := alg.makeVerify server.pass.saltedPass server.authMessage

/-- The authz id, the header if there is one, and the message behind it. -/
def gs2Header : Option (Bytes × Bytes × Bytes) :=
  if charAt response 1 ≠ ch ',' then none
  else if charAt response 2 = ch 'a' then
    if charAt response 3 ≠ ch '=' then none
    else
      let authz := strFetchNoTrim (response.drop 4) (ch ',')
      some (authz.1, response.take (response.length - authz.2.length), authz.2)
  else if charAt response 2 ≠ ch ',' then none
  else some ([], [], response.drop 3)

/-- `c=` of the last message. -/
def channelBinding (gs2HeaderForAuthz : Bytes) : Bytes :=
  if gs2HeaderForAuthz = [] then text ['c', '=', 'b', 'i', 'w', 's']
  else text ['c', '='] ++ base64Encode gs2HeaderForAuthz

/-- `ParseClientFirst` behind the header. -/
def parseBare (gs2HeaderForAuthz bare : Bytes) : SaslScramServer × AuthR :=
  let server := { server with authMessage := bare ++ [ch ','] }
  if charAt bare 0 ≠ ch 'n' ∨ charAt bare 1 ≠ ch '=' then (server, ⟨.eArgs_Format, []⟩)
  else
    let authc := strFetchNoTrim (bare.drop 2) (ch ',')
    let server := { server with authResult := { server.authResult with authcId := authc.1 } }
    if charAt authc.2 0 ≠ ch 'r' ∨ charAt authc.2 1 ≠ ch '=' then (server, ⟨.eArgs_Format, []⟩)
    else
      let nonces := authc.2 ++ random.nonce.1
      match m.users server.authResult.getUserIdForAuthz with
      | some user =>
        let server := { server with
          authResult := { server.authResult with roleId := user.roleId }
          pass := user.pass }
        let svr1stMsg := nonces ++ text [',', 's', '='] ++ server.pass.saltAndIterator
        ({ server with
          authMessage := server.authMessage ++ svr1stMsg ++ [ch ','] ++ channelBinding gs2HeaderForAuthz ++ [ch ','] ++
            nonces }, ⟨.needsMore, svr1stMsg⟩)
      | none =>
        let server := server.setDefaultPass random
        (server, ⟨.needsMore, nonces ++ text [',', 's', '='] ++ server.pass.saltAndIterator⟩)

def parseClientFirst : SaslScramServer × AuthR :=
  let server := { server with step := 1 }
  if response.head? = some (ch 'p') ∨ response.head? = some (ch 'y') then (server, ⟨.eNoSupport, []⟩)
  else if response.head? = some (ch 'n') then
    match gs2Header response with
    | none => (server, ⟨.eArgs_Format, []⟩)
    | some (authzId, gs2HeaderForAuthz, bare) =>
      { server with authResult := { server.authResult with authzId := authzId } }.parseBare random m gs2HeaderForAuthz bare
  else (server, ⟨.eArgs_Format, []⟩)

/-- `ProofError`. -/
def proofError : AuthR × UserMgr := m.authUpdate .eProof server.authResult {}

/-- Where the comma is, from a place on. -/
def findComma (s : Bytes) (pos : ℕ) : Option ℕ := ((s.drop pos).findIdx? (· == ch ',')).map (· + pos)

/-- The proof in a last message, if the message is that of the session. -/
def findProof : SaslScramServer × Option Bytes :=
  if response.length < 12 then (server, none)
  else
    match findComma response 6 with
    | none => (server, none)
    | some pNonce =>
      if charAt response (pNonce + 1) ≠ ch 'r' ∧ charAt response (pNonce + 2) ≠ ch '=' then (server, none)
      else
        match findComma response (pNonce + 3) with
        | none => (server, none)
        | some pEnd =>
          let isChg := charAt response (pEnd + 1) = ch 's' ∧ charAt response (pEnd + 2) = ch '='
          let server := if isChg then
              { server with isChgPass := true, authMessage := server.authMessage ++ text [',', 's', '='] }
            else server
          let pProof := if isChg then pEnd + 3 else pEnd
          if charAt response (pProof + 1) ≠ ch 'p' ∨ charAt response (pProof + 2) ≠ ch '=' then (server, none)
          else if server.authMessage.length ≤ pProof ∨
              response.take pProof ≠ server.authMessage.drop (server.authMessage.length - pProof) then (server, none)
          else (server, some (response.drop (pProof + 3)))

/-- What follows a right proof: the salt of the new password, or the end. -/
def proofAccepted : SaslScramServer × AuthR × UserMgr :=
  if server.isChgPass then
    let server := server.setDefaultPass random
    let server := { server with authMessage := server.authMessage ++ server.pass.saltAndIterator }
    (server, ⟨.needsMore, text ['s', '='] ++ server.pass.saltAndIterator ++ text [',', 'v', '='] ++ server.makeVerify alg⟩, m)
  else
    let r := m.authUpdate .success server.authResult {}
    if r.1.rcode.isError then (server, r)
    else (server, ⟨.success, text ['v', '='] ++ server.makeVerify alg⟩, r.2)

def parseClientProof : SaslScramServer × AuthR × UserMgr :=
  let r := { server with step := 2 }.findProof response
  if r.2 = some (r.1.makeProof alg) then r.1.proofAccepted alg random m else (r.1, r.1.proofError m)

/-- The difference and the proof of a message that changes the password. -/
def findNewPass : Option (Bytes × Bytes) :=
  if response.head? ≠ some (ch 'h') ∨ response.length < 10 ∨ charAt response 1 ≠ ch '=' then none
  else
    match findComma response 0 with
    | none => none
    | some pProof =>
      if charAt response (pProof + 1) ≠ ch 'p' ∨ charAt response (pProof + 2) ≠ ch '=' then none
      else
        match base64Decode server.pass.saltedPass.length ((response.take pProof).drop 2) with
        | .error _ => none
        | .ok xSaltedPass =>
          if xSaltedPass.length ≠ server.pass.saltedPass.length then none
          else some (xSaltedPass, response.drop (pProof + 3))

def parseChangePass : SaslScramServer × AuthR × UserMgr :=
  match server.findNewPass response with
  | none => (server, ⟨.eArgs_NewPass, []⟩, m)
  | some (xSaltedPass, proof) =>
    let server := { server with
      pass := { server.pass with saltedPass := xorBytes server.pass.saltedPass xSaltedPass } }
    if proof ≠ server.makeProof alg then (server, ⟨.eArgs_NewPass, []⟩, m)
    else
      let r := m.authUpdate .passChanged server.authResult server.pass
      if r.1.rcode.isError then (server, r)
      else (server, ⟨.passChanged, text ['h', '='] ++ server.makeVerify alg⟩, r.2)

/-- `AuthVerify`. -/
def authVerify : SaslScramServer × AuthR × UserMgr :=
  if server.step = 0 then
    let r := server.parseClientFirst random m response
    (r.1, r.2, m)
  else if server.step = 1 then server.parseClientProof alg random m response
  else if server.step = 2 ∧ server.isChgPass then server.parseChangePass alg m response
  else (server, ⟨.eOther, []⟩, m)

end SaslScramServer

/-! ### The client -/

structure SaslScramClient where
  clientFirstMessage : Bytes
  gs2HeaderSize : ℕ
  pass : Bytes
  newPass : Bytes := []
  authMessage : Bytes := []
  saltedPass : Bytes := []
  deriving DecidableEq, Repr

namespace SaslScramClient

/-- The header of the first message. -/
def gs2Text (authz : Bytes) : Bytes :=
  if authz = [] then text ['n', ',', ','] else text ['n', ',', 'a', '='] ++ authz ++ text [',']

/-- The client: a new password may be behind a CR. -/
def create (authz authc pass : Bytes) (nonce : Nonce) : SaslScramClient where
  clientFirstMessage := gs2Text authz ++ text ['n', '='] ++ authc ++ text [',', 'r', '='] ++ nonce.1
  gs2HeaderSize := (gs2Text authz).length
  pass := (strFetchNoTrim pass 13).1
  newPass := (strFetchNoTrim pass 13).2

variable (alg : Alg) (client : SaslScramClient) (message : Bytes)

/-- `ParseAndCalcSaltedPass`: the salted password and what is behind the iterator. -/
def parseAndCalcSaltedPass (pass msg : Bytes) : Option (Bytes × Bytes) :=
  if msg.length < 10 then none
  else if charAt msg 0 ≠ ch 's' ∨ charAt msg 1 ≠ ch '=' then none
  else
    match SaslScramServer.findComma msg 2 with
    | none => none
    | some pSaltEnd =>
      if charAt msg (pSaltEnd + 1) ≠ ch 'i' ∨ charAt msg (pSaltEnd + 2) ≠ ch '=' then none
      else
        let iterN := strToUInt (2 ^ 64 - 1) (msg.drop (pSaltEnd + 3)) 0
        match base64Decode 128 ((msg.take pSaltEnd).drop 2) with
        | .error _ => none
        | .ok salt => some (alg.calcSaltedPassword pass salt iterN.1, iterN.2)

/-- The last message without its proof, behind the nonces of the server. -/
def finalMessage (nonces : Bytes) : Bytes :=
  (if client.gs2HeaderSize = 3 ∧ client.clientFirstMessage.take 3 = text ['n', ',', ','] then
      text ['c', '=', 'b', 'i', 'w', 's', ',']
    else text ['c', '='] ++ base64Encode (client.clientFirstMessage.take client.gs2HeaderSize) ++ [ch ',']) ++ nonces ++
    if client.newPass = [] then [] else text [',', 's', '=']

/-- The first message of the server. -/
def onServerFirst : SaslScramClient × AuthR :=
  match SaslScramServer.findComma message 0 with
  | none => (client, ⟨.eArgs_Format, message⟩)
  | some pNonceEnd =>
    match parseAndCalcSaltedPass alg client.pass (message.drop (pNonceEnd + 1)) with
    | none => (client, ⟨.eArgs_Format, message⟩)
    | some (saltedPass, rest) =>
      let client := { client with saltedPass := saltedPass }
      if rest ≠ [] then (client, ⟨.eArgs_Format, message⟩)
      else
        let final := client.finalMessage (message.take pNonceEnd)
        let client := { client with
          authMessage := client.clientFirstMessage.drop client.gs2HeaderSize ++ [ch ','] ++ message ++ [ch ','] ++ final }
        (client, ⟨.needsMore, final ++ text [',', 'p', '='] ++ alg.makeProof client.saltedPass client.authMessage⟩)

/-- The verifier at the end. -/
def onVerifier : SaslScramClient × AuthR :=
  let verifier := alg.makeVerify client.saltedPass client.authMessage
  if message.length = verifier.length + 2 ∧ charAt message 1 = ch '=' then
    if message.drop 2 = verifier then
      (client, ⟨if message.head? = some (ch 'h') then .passChanged else .success, []⟩)
    else (client, ⟨.eProof, message⟩)
  else (client, ⟨.eArgs_Format, message⟩)

/-- The salted new password of a message that asks for it, and the message behind the iterator. -/
def findNewSalt : Option (Bytes × Bytes) := parseAndCalcSaltedPass alg client.newPass message

/-- The client with the messages up to the new iterator. -/
def withNewSalt (rest : Bytes) : SaslScramClient :=
  { client with authMessage := client.authMessage ++ (message.take (message.length - rest.length)).drop 2 }

/-- The salt of the new password: the verifier has another size and is not the right one, or it is
taken to be right. -/
def onNewSalt (newSaltedPass rest : Bytes) : SaslScramClient × AuthR :=
  if newSaltedPass.length ≠ client.saltedPass.length then (client, ⟨.eOther, []⟩)
  else if rest.length < 4 ∨ charAt rest 0 ≠ ch ',' ∨ charAt rest 1 ≠ ch 'v' ∨ charAt rest 2 ≠ ch '=' then
    (client, ⟨.eArgs_Format, message⟩)
  else
    let client := client.withNewSalt message rest
    let v := alg.makeVerify client.saltedPass client.authMessage
    if v.length ≠ (rest.drop 3).length ∧ (rest.drop 3 ++ alg.behind).take v.length ≠ v then (client, ⟨.eProof, []⟩)
    else
      ({ client with saltedPass := newSaltedPass },
        ⟨.needsMore, text ['h', '='] ++ base64Encode (xorBytes client.saltedPass newSaltedPass) ++ text [',', 'p', '='] ++
          alg.makeProof newSaltedPass client.authMessage⟩)

/-- `OnChallenge`. -/
def onChallenge : SaslScramClient × AuthR :=
  if message.head? = some (ch 'r') then client.onServerFirst alg message
  else if message.head? = some (ch 's') then
    match client.findNewSalt alg message with
    | some (newSaltedPass, rest) => client.onNewSalt alg message newSaltedPass rest
    | none => client.onVerifier alg message
  else if message.head? = some (ch 'h') ∨ message.head? = some (ch 'v') then client.onVerifier alg message
  else if message.head? = some (ch 'e') then (client, ⟨.eOther, message⟩)
  else (client, ⟨.eArgs_Format, message⟩)

end SaslScramClient

end Fon9.Auth
