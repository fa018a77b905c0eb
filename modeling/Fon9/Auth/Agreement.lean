import Fon9.Auth.Verified

/-! How the client and the server of one password end. -/

namespace Fon9.Auth

open SaslScramServer SaslScramClient List

section Rounds

variable {alg : Alg} {random : ServerRandom} {m m' : UserMgr} {server server' : SaslScramServer}
  {client client' : SaslScramClient} {response info next : Bytes} {rc rc' : AuthRc}

theorem converse_next (fuel : ℕ) (hserver : server.authVerify alg random m response = (server', ⟨.needsMore, info⟩, m'))
    (hclient : client.onChallenge alg info = (client', ⟨.needsMore, next⟩)) :
    converse alg random (fuel + 1) m server client response = converse alg random fuel m' server' client' next := by
  rw [converse, hserver]
  dsimp only
  rw [if_neg (by decide), hclient]
  exact if_pos rfl

theorem converse_end (fuel : ℕ) (hserver : server.authVerify alg random m response = (server', ⟨rc, info⟩, m'))
    (hok : rc.isError = false) (hclient : client.onChallenge alg info = (client', ⟨rc', next⟩)) (hend : rc' ≠ .needsMore) :
    converse alg random (fuel + 1) m server client response = (rc, rc', m') := by
  rw [converse, hserver]
  dsimp only
  rw [hok, if_neg Bool.false_ne_true, hclient]
  exact if_neg hend

end Rounds

section Ends

variable {alg : Alg} {random : ServerRandom} {m : UserMgr} {user : UserRec} {authz authc pass newPass : Bytes} {nonce : Nonce}

/-- The stored password behind a change. -/
def changedPass (alg : Alg) (random : ServerRandom) (newPass : Bytes) : PassRec where
  algParam := 10000
  salt := random.salt 2
  saltedPass := alg.calcSaltedPassword newPass (random.salt 2) 10000

/-- The users behind a change. -/
def changed (alg : Alg) (random : ServerRandom) (m : UserMgr) (user : UserRec) (authz authc newPass : Bytes) : UserMgr :=
  { m with users :=
      Function.update m.users (userId authz authc) (some { user with pass := changedPass alg random newPass }) }

/-- Both sides have succeeded. -/
def agreed (alg : Alg) (random : ServerRandom) (m : UserMgr) (user : UserRec) (authz authc newPass : Bytes) :
    AuthRc × AuthRc × UserMgr :=
  if newPass = [] then (.success, .success, m)
  else (.passChanged, .passChanged, changed alg random m user authz authc newPass)

theorem changedPass_readable (alg : Alg) (random : ServerRandom) (newPass : Bytes) :
    (changedPass alg random newPass).Readable := by
  have hsalt : (changedPass alg random newPass).salt.length = 18 := random.salt_length 2
  refine ⟨by rw [hsalt]; decide, ?_⟩
  rw [PassRec.saltAndIterator, length_append, length_append, length_append, base64Encode_length, hsalt]
  show 10 ≤ 2 + (24 + 3 + _)
  omega

/-- What has been said before the last message. -/
def said (random : ServerRandom) (user : UserRec) (authc : Bytes) (nonce : Nonce) : Bytes :=
  bareText authc nonce ++ [ch ','] ++ svr1stMsg (nonces nonce random) user.pass ++ [ch ',']

theorem said_ne_nil : said random user authc nonce ≠ [] := append_ne_nil_of_right_ne_nil _ (cons_ne_nil _ _)

theorem found_authMessage : (found random user authz authc nonce).authMessage =
    said random user authc nonce ++ final (gs2HeaderForAuthz authz) (nonces nonce random) := by
  rw [found, said, final, transcript]
  simp only [append_assoc, cons_append, nil_append]

/-- The server that has heard the right proof. -/
def proven (random : ServerRandom) (user : UserRec) (authz authc newPass : Bytes) (nonce : Nonce) : SaslScramServer :=
  heardFinal { found random user authz authc nonce with step := 2 } newPass

theorem proven_authMessage : (proven random user authz authc newPass nonce).authMessage =
    (found random user authz authc nonce).authMessage ++ asks newPass := heardFinal_authMessage _ _

theorem proven_pass : (proven random user authz authc newPass nonce).pass = user.pass := heardFinal_pass _ _

theorem proven_authResult : (proven random user authz authc newPass nonce).authResult = ⟨authc, authz, user.roleId⟩ := by
  rw [proven, heardFinal]
  split
  · rfl
  · rfl

variable (hauthz : ch ',' ∉ authz) (hauthc : ch ',' ∉ authc) (hpass : 13 ∉ pass)
  (huser : m.users (userId authz authc) = some user)
  (hstored : user.pass.saltedPass = alg.calcSaltedPassword pass user.pass.salt user.pass.algParam.toNat)
  (haccepts : ∀ rcode, rcode = .success ∨ rcode = .passChanged → m.refuses rcode ⟨authc, authz, user.roleId⟩ = none)

include hstored in
theorem stored_size : user.pass.saltedPass.length = alg.kOutputSize := by
  rw [hstored, alg.calcSaltedPassword_length]

include hstored in
/-- The server takes the answer of the client. -/
theorem authVerify_answer : (found random user authz authc nonce).authVerify alg random m
    (final (gs2HeaderForAuthz authz) (nonces nonce random) ++ asks newPass ++ text [',', 'p', '='] ++
      alg.makeProof (answered alg random user authz authc pass newPass nonce).saltedPass
        (answered alg random user authz authc pass newPass nonce).authMessage) =
    (proven random user authz authc newPass nonce).proofAccepted alg random m := by
  have h := @authVerify_proof alg random m (found random user authz authc nonce) _ (gs2HeaderForAuthz authz) nonce rfl
    said_ne_nil found_authMessage (stored_size hstored) newPass
  have hsalted : (answered alg random user authz authc pass newPass nonce).saltedPass =
      (found random user authz authc nonce).pass.saltedPass := hstored.symm
  rw [hsalted]
  exact h

include huser hstored haccepts in
/-- Without a new password both sides have done. -/
theorem converse_success (fuel : ℕ) (hnew : newPass = []) : converse alg random (fuel + 1) m (found random user authz authc nonce)
    (answered alg random user authz authc pass newPass nonce)
    (final (gs2HeaderForAuthz authz) (nonces nonce random) ++ asks newPass ++ text [',', 'p', '='] ++
      alg.makeProof (answered alg random user authz authc pass newPass nonce).saltedPass
        (answered alg random user authz authc pass newPass nonce).authMessage) = (.success, .success, m) := by
  have hchg : (proven random user authz authc newPass nonce).isChgPass = false := by
    rw [proven, heardFinal, if_pos hnew]
    rfl
  have hupdate : m.authUpdate .success (proven random user authz authc newPass nonce).authResult {} =
      (⟨.success, []⟩, m) := by
    rw [proven_authResult]
    exact UserMgr.authUpdate_success huser (haccepts _ (.inl rfl)) _
  have haccepted : (proven random user authz authc newPass nonce).proofAccepted alg random m =
      (proven random user authz authc newPass nonce, ⟨.success, text ['v', '='] ++
        alg.makeVerify (answered alg random user authz authc pass newPass nonce).saltedPass
          (answered alg random user authz authc pass newPass nonce).authMessage⟩, m) := by
    have hverify : (proven random user authz authc newPass nonce).makeVerify alg =
        alg.makeVerify (answered alg random user authz authc pass newPass nonce).saltedPass
          (answered alg random user authz authc pass newPass nonce).authMessage := by
      rw [makeVerify, proven_authMessage, proven_pass, hstored]
      rfl
    rw [proofAccepted, hchg, if_neg Bool.false_ne_true, hupdate, hverify]
    rfl
  exact converse_end fuel ((authVerify_answer hstored).trans haccepted) rfl
    (onChallenge_verifier _ (.inr rfl)) (by decide)

/-- The server that has drawn a new salt. -/
def salted (random : ServerRandom) (user : UserRec) (authz authc newPass : Bytes) (nonce : Nonce) : SaslScramServer :=
  let server := (proven random user authz authc newPass nonce).setDefaultPass random
  { server with authMessage := server.authMessage ++ server.pass.saltAndIterator }

theorem salted_authMessage (alg : Alg) : (salted random user authz authc newPass nonce).authMessage =
    (proven random user authz authc newPass nonce).authMessage ++ (changedPass alg random newPass).saltAndIterator := by
  have hstep : (proven random user authz authc newPass nonce).step = 2 := by
    rw [proven, heardFinal]
    split
    · rfl
    · rfl
  rw [salted, setDefaultPass]
  dsimp only
  rw [hstep]
  rfl

theorem salted_pass (alg : Alg) : (salted random user authz authc newPass nonce).pass =
    { changedPass alg random newPass with saltedPass := user.pass.saltedPass } := by
  have hstep : (proven random user authz authc newPass nonce).step = 2 := by
    rw [proven, heardFinal]
    split
    · rfl
    · rfl
  rw [salted, setDefaultPass]
  dsimp only
  rw [hstep, proven_pass]
  rfl

/-- The client that has answered the new salt. -/
def reanswered (alg : Alg) (random : ServerRandom) (user : UserRec) (authz authc pass newPass : Bytes) (nonce : Nonce) :
    SaslScramClient :=
  { answered alg random user authz authc pass newPass nonce with
    saltedPass := (changedPass alg random newPass).saltedPass
    authMessage := (answered alg random user authz authc pass newPass nonce).authMessage ++
      (changedPass alg random newPass).saltAndIterator }

theorem salted_authMessage_eq (alg : Alg) (pass : Bytes) : (salted random user authz authc newPass nonce).authMessage =
    (reanswered alg random user authz authc pass newPass nonce).authMessage := by
  rw [salted_authMessage alg, proven_authMessage]
  rfl

include hstored in
/-- The proof of the old password is answered with a new salt. -/
theorem proofAccepted_salted (hnew : newPass ≠ []) :
    (proven random user authz authc newPass nonce).proofAccepted alg random m =
      (salted random user authz authc newPass nonce, ⟨.needsMore, text ['s', '='] ++
        (changedPass alg random newPass).saltAndIterator ++ (text [',', 'v', '='] ++
          alg.makeVerify (answered alg random user authz authc pass newPass nonce).saltedPass
            ((answered alg random user authz authc pass newPass nonce).authMessage ++
              (changedPass alg random newPass).saltAndIterator))⟩, m) := by
  have hchg : (proven random user authz authc newPass nonce).isChgPass = true := by
    rw [proven, heardFinal, if_neg hnew]
  have hverify : (salted random user authz authc newPass nonce).makeVerify alg =
      alg.makeVerify (answered alg random user authz authc pass newPass nonce).saltedPass
        ((answered alg random user authz authc pass newPass nonce).authMessage ++
          (changedPass alg random newPass).saltAndIterator) := by
    rw [makeVerify, salted_authMessage_eq alg pass, salted_pass alg, hstored]
    rfl
  have hsalt : (salted random user authz authc newPass nonce).pass.saltAndIterator =
      (changedPass alg random newPass).saltAndIterator := by
    rw [salted_pass alg]
    rfl
  have haccepted : (proven random user authz authc newPass nonce).proofAccepted alg random m =
      (salted random user authz authc newPass nonce, ⟨.needsMore, text ['s', '='] ++
        (salted random user authz authc newPass nonce).pass.saltAndIterator ++ text [',', 'v', '='] ++
          (salted random user authz authc newPass nonce).makeVerify alg⟩, m) := by
    rw [proofAccepted, hchg, if_pos rfl]
    rfl
  rw [haccepted, hverify, hsalt, append_assoc (text ['s', '='] ++ _)]

include hpass in
/-- The client answers the new salt with the difference. -/
theorem onChallenge_reanswered :
    (answered alg random user authz authc pass newPass nonce).onChallenge alg (text ['s', '='] ++
      (changedPass alg random newPass).saltAndIterator ++ (text [',', 'v', '='] ++
        alg.makeVerify (answered alg random user authz authc pass newPass nonce).saltedPass
          ((answered alg random user authz authc pass newPass nonce).authMessage ++
            (changedPass alg random newPass).saltAndIterator))) =
      (reanswered alg random user authz authc pass newPass nonce, ⟨.needsMore, text ['h', '='] ++
        base64Encode (xorBytes (answered alg random user authz authc pass newPass nonce).saltedPass
          (changedPass alg random newPass).saltedPass) ++ text [',', 'p', '='] ++
        alg.makeProof (changedPass alg random newPass).saltedPass
          (reanswered alg random user authz authc pass newPass nonce).authMessage⟩) := by
  have hnewPass : (answered alg random user authz authc pass newPass nonce).newPass = newPass :=
    (@create_pass authz authc pass newPass nonce hpass).2
  have hsalted : alg.calcSaltedPassword (answered alg random user authz authc pass newPass nonce).newPass
      (changedPass alg random newPass).salt (changedPass alg random newPass).algParam.toNat =
      (changedPass alg random newPass).saltedPass := by
    rw [hnewPass]
    rfl
  have h := onChallenge_newSalt (answered alg random user authz authc pass newPass nonce)
    (changedPass_readable alg random newPass) (alg.calcSaltedPassword_length _ _ _)
  rw [hsalted] at h
  exact h

include huser hstored haccepts in
/-- The server takes the new password. -/
theorem authVerify_changed (nonce : Nonce) (hnew : newPass ≠ []) :
    ∃ server', (salted random user authz authc newPass nonce).authVerify alg random m (text ['h', '='] ++
      base64Encode (xorBytes (answered alg random user authz authc pass newPass nonce).saltedPass
        (changedPass alg random newPass).saltedPass) ++ text [',', 'p', '='] ++
      alg.makeProof (changedPass alg random newPass).saltedPass
        (reanswered alg random user authz authc pass newPass nonce).authMessage) =
      (server', ⟨.passChanged, text ['h', '='] ++
        alg.makeVerify (reanswered alg random user authz authc pass newPass nonce).saltedPass
          (reanswered alg random user authz authc pass newPass nonce).authMessage⟩,
        changed alg random m user authz authc newPass) := by
  have hchg : (salted random user authz authc newPass nonce).isChgPass = true := by
    rw [salted, proven, heardFinal, if_neg hnew]
    rfl
  have hstep : (salted random user authz authc newPass nonce).step = 2 := by
    rw [salted, proven, heardFinal, if_neg hnew]
    rfl
  have hauthr : (salted random user authz authc newPass nonce).authResult = ⟨authc, authz, user.roleId⟩ := proven_authResult
  have hold : (salted random user authz authc newPass nonce).pass.saltedPass =
      (answered alg random user authz authc pass newPass nonce).saltedPass := by
    rw [salted_pass alg]
    exact hstored
  have hsize : (salted random user authz authc newPass nonce).pass.saltedPass.length = alg.kOutputSize := by
    rw [hold]
    exact alg.calcSaltedPassword_length _ _ _
  have hnewSize : (changedPass alg random newPass).saltedPass.length = alg.kOutputSize := alg.calcSaltedPassword_length _ _ _
  have hupdate := @UserMgr.authUpdate_passChanged m ⟨authc, authz, user.roleId⟩ user huser (haccepts _ (.inr rfl))
    (changedPass alg random newPass)
  have hright := @parseChangePass_right alg m (salted random user authz authc newPass nonce) _ hsize hnewSize
  have hpassRec : { (salted random user authz authc newPass nonce).pass with
      saltedPass := (changedPass alg random newPass).saltedPass } = changedPass alg random newPass := by
    rw [salted_pass alg]
  rw [hold, salted_authMessage_eq alg pass, hpassRec, hauthr] at hright
  dsimp only at hright
  rw [hupdate] at hright
  refine ⟨{ salted random user authz authc newPass nonce with
    authMessage := (reanswered alg random user authz authc pass newPass nonce).authMessage
    pass := changedPass alg random newPass
    authResult := ⟨authc, authz, user.roleId⟩ }, ?_⟩
  rw [authVerify, hstep, if_neg (by decide), if_neg (by decide), if_pos ⟨rfl, hchg⟩]
  exact hright.trans (if_neg Bool.false_ne_true)

include hpass huser hstored haccepts in
/-- With a new password both sides have done behind another round. -/
theorem converse_passChanged (fuel : ℕ) (hnew : newPass ≠ []) :
    converse alg random (fuel + 2) m (found random user authz authc nonce)
      (answered alg random user authz authc pass newPass nonce)
      (final (gs2HeaderForAuthz authz) (nonces nonce random) ++ asks newPass ++ text [',', 'p', '='] ++
        alg.makeProof (answered alg random user authz authc pass newPass nonce).saltedPass
          (answered alg random user authz authc pass newPass nonce).authMessage) =
      (.passChanged, .passChanged, changed alg random m user authz authc newPass) := by
  obtain ⟨server', hserver'⟩ := authVerify_changed huser hstored haccepts nonce hnew
  rw [converse_next (fuel + 1) ((authVerify_answer hstored).trans (proofAccepted_salted hstored hnew))
    (onChallenge_reanswered hpass)]
  exact converse_end fuel hserver' rfl (onChallenge_verifier _ (.inl rfl)) (by decide)

include hauthz hauthc hpass huser hstored haccepts in
/-- Both sides succeed exactly when the client can read the stored salt. -/
theorem converse_agreed_iff (fuel : ℕ) : converse alg random (fuel + 3) m {} (create authz authc (passText pass newPass) nonce)
    (create authz authc (passText pass newPass) nonce).clientFirstMessage = agreed alg random m user authz authc newPass ↔
    user.pass.Readable := by
  have hfirst := @authVerify_first alg random m user authz authc (passText pass newPass) nonce hauthz hauthc huser
  by_cases hread : user.pass.Readable
  · refine iff_of_true ?_ hread
    rw [converse_next (fuel + 2) hfirst (onChallenge_first hpass hread), agreed]
    by_cases hnew : newPass = []
    · rw [if_pos hnew]
      exact converse_success huser hstored haccepts (fuel + 1) hnew
    · rw [if_neg hnew]
      exact converse_passChanged hpass huser hstored haccepts fuel hnew
  · refine iff_of_false (fun h => ?_) hread
    have hclient : (create authz authc (passText pass newPass) nonce).onChallenge alg
        (svr1stMsg (nonces nonce random) user.pass) =
        (create authz authc (passText pass newPass) nonce, ⟨.eArgs_Format, svr1stMsg (nonces nonce random) user.pass⟩) := by
      rw [onServerFirst_reads, if_neg hread]
    rw [converse_end (fuel + 2) hfirst rfl hclient (by decide), agreed] at h
    split at h
    · cases congrArg Prod.fst h
    · cases congrArg Prod.fst h

end Ends

end Fon9.Auth
