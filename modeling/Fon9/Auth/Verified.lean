import Fon9.Auth.Handshake

/-! The messages behind a right proof, and how a conversation ends. -/

namespace Fon9.Auth

open List

theorem xorBytes_length {a b : Bytes} (h : a.length = b.length) : (xorBytes a b).length = a.length := by
  rw [xorBytes, length_zipWith, h, Nat.min_self]

/-- The difference to another text gives that text back. -/
theorem xorBytes_xorBytes : ∀ {a b : Bytes}, a.length = b.length → xorBytes a (xorBytes a b) = b
  | [], [], _ => rfl
  | x :: a, y :: b, h => by
    have htail : xorBytes a (xorBytes a b) = b := xorBytes_xorBytes (Nat.succ.inj h)
    have hhead : x ^^^ (x ^^^ y) = y := by rw [← UInt8.xor_assoc, UInt8.xor_self, UInt8.zero_xor]
    rw [xorBytes, xorBytes] at htail ⊢
    rw [zipWith_cons_cons, zipWith_cons_cons, htail, hhead]

theorem four_le_base64Encode {data : Bytes} (h : 0 < data.length) : 4 ≤ (base64Encode data).length := by
  rw [base64Encode_length, base64EncodeLengthNoEOS]
  split
  · omega
  · omega

theorem Alg.four_le_makeVerify (alg : Alg) (saltedPassword authMessage : Bytes) :
    4 ≤ (alg.makeVerify saltedPassword authMessage).length :=
  four_le_base64Encode (by rw [alg.hmac_length]; exact alg.kOutputSize_pos)

namespace UserMgr

variable {m : UserMgr} {authr : AuthResult} {user : UserRec}

theorem authUpdate_success (huser : m.users authr.getUserIdForAuthz = some user) (hok : m.refuses .success authr = none)
    (passRec : PassRec) : m.authUpdate .success authr passRec = (⟨.success, []⟩, m) := by
  rw [authUpdate, huser]
  dsimp only
  rw [hok]
  exact if_pos rfl

theorem authUpdate_passChanged (huser : m.users authr.getUserIdForAuthz = some user)
    (hok : m.refuses .passChanged authr = none) (passRec : PassRec) :
    m.authUpdate .passChanged authr passRec = (⟨.passChanged, []⟩,
      { m with users := Function.update m.users authr.getUserIdForAuthz (some { user with pass := passRec }) }) := by
  rw [authUpdate, huser]
  dsimp only
  rw [hok]
  exact (if_neg (by decide)).trans (if_pos rfl)

end UserMgr

namespace SaslScramClient

open SaslScramServer

variable {alg : Alg}

/-- The client takes its verifier for right. -/
theorem onChallenge_verifier (client : SaslScramClient) {c : Char} (hc : c = 'h' ∨ c = 'v') :
    client.onChallenge alg (text [c, '='] ++ alg.makeVerify client.saltedPass client.authMessage) =
      (client, ⟨if c = 'h' then .passChanged else .success, []⟩) := by
  have hlen : (text [c, '='] ++ alg.makeVerify client.saltedPass client.authMessage).length =
      (alg.makeVerify client.saltedPass client.authMessage).length + 2 := by
    rw [length_append]
    exact add_comm _ _
  have hdrop : (text [c, '='] ++ alg.makeVerify client.saltedPass client.authMessage).drop 2 =
      alg.makeVerify client.saltedPass client.authMessage := rfl
  have hshape : (text [c, '='] ++ alg.makeVerify client.saltedPass client.authMessage).length =
      (alg.makeVerify client.saltedPass client.authMessage).length + 2 ∧
      charAt (text [c, '='] ++ alg.makeVerify client.saltedPass client.authMessage) 1 = ch '=' := ⟨hlen, rfl⟩
  have hhead : (text [c, '='] ++ alg.makeVerify client.saltedPass client.authMessage).head? = some (ch c) := rfl
  have hverifier : client.onVerifier alg (text [c, '='] ++ alg.makeVerify client.saltedPass client.authMessage) =
      (client, ⟨if some (ch c) = some (ch 'h') then .passChanged else .success, []⟩) := by
    rw [onVerifier, if_pos hshape, if_pos hdrop, hhead]
  rw [onChallenge, hhead, hverifier]
  obtain rfl | rfl := hc
  · rfl
  · rfl

/-- The salt of the new password, with a right verifier. -/
theorem onChallenge_newSalt (client : SaslScramClient) {record : PassRec} (hread : record.Readable)
    (hsize : client.saltedPass.length = alg.kOutputSize) :
    client.onChallenge alg (text ['s', '='] ++ record.saltAndIterator ++ (text [',', 'v', '='] ++
      alg.makeVerify client.saltedPass (client.authMessage ++ record.saltAndIterator))) =
      let newSaltedPass := alg.calcSaltedPassword client.newPass record.salt record.algParam.toNat
      ({ client with authMessage := client.authMessage ++ record.saltAndIterator, saltedPass := newSaltedPass },
        ⟨.needsMore, text ['h', '='] ++ base64Encode (xorBytes client.saltedPass newSaltedPass) ++ text [',', 'p', '='] ++
          alg.makeProof newSaltedPass (client.authMessage ++ record.saltAndIterator)⟩) := by
  obtain ⟨verifier, hverifier⟩ :
      ∃ v, v = alg.makeVerify client.saltedPass (client.authMessage ++ record.saltAndIterator) := ⟨_, rfl⟩
  have hfour : 4 ≤ verifier.length := by
    rw [hverifier]
    exact alg.four_le_makeVerify _ _
  rw [← hverifier]
  have hrest : ∀ c ∈ (text [',', 'v', '='] ++ verifier).head?, ¬ digval c ≤ 9 := by
    rintro c ⟨⟩
    decide
  have hfits : record.salt.length ≤ 128 ∧
      10 ≤ (text ['s', '='] ++ record.saltAndIterator ++ (text [',', 'v', '='] ++ verifier)).length := by
    refine ⟨hread.1, hread.2.trans ?_⟩
    exact (Nat.le_add_right _ _).trans_eq length_append.symm
  have hfind : client.findNewSalt alg (text ['s', '='] ++ record.saltAndIterator ++ (text [',', 'v', '='] ++ verifier)) =
      some (alg.calcSaltedPassword client.newPass record.salt record.algParam.toNat, text [',', 'v', '='] ++ verifier) := by
    rw [findNewSalt, parseAndCalcSaltedPass_eq alg client.newPass record hrest, if_pos hfits]
  have hhead : (text ['s', '='] ++ record.saltAndIterator ++ (text [',', 'v', '='] ++ verifier)).head? = some (ch 's') := rfl
  have hnew : client.withNewSalt (text ['s', '='] ++ record.saltAndIterator ++ (text [',', 'v', '='] ++ verifier))
      (text [',', 'v', '='] ++ verifier) = { client with authMessage := client.authMessage ++ record.saltAndIterator } := by
    rw [withNewSalt, length_append, Nat.add_sub_cancel, take_left]
    rfl
  have hsizes : ¬ (alg.calcSaltedPassword client.newPass record.salt record.algParam.toNat).length ≠
      client.saltedPass.length := fun h => h ((alg.calcSaltedPassword_length _ _ _).trans hsize.symm)
  have hshape : ¬ ((text [',', 'v', '='] ++ verifier).length < 4 ∨ charAt (text [',', 'v', '='] ++ verifier) 0 ≠ ch ',' ∨
      charAt (text [',', 'v', '='] ++ verifier) 1 ≠ ch 'v' ∨ charAt (text [',', 'v', '='] ++ verifier) 2 ≠ ch '=') := by
    refine not_or_intro (fun h => ?_) (not_or_intro (fun h => h rfl) (not_or_intro (fun h => h rfl) (fun h => h rfl)))
    rw [length_append] at h
    have hthree : (text [',', 'v', '=']).length = 3 := rfl
    omega
  rw [onChallenge, hhead, if_neg (by decide), if_pos rfl, hfind]
  dsimp only
  rw [onNewSalt, if_neg hsizes, if_neg hshape, hnew]
  dsimp only
  rw [← hverifier]
  exact if_neg (fun h => h.1 rfl)

end SaslScramClient

namespace SaslScramServer

variable {alg : Alg} {random : ServerRandom} {m : UserMgr} {user : UserRec}

variable (server : SaslScramServer)

theorem heardFinal_authMessage (newPass : Bytes) :
    (server.heardFinal newPass).authMessage = server.authMessage ++ asks newPass := by
  rw [heardFinal, asks]
  split
  · exact (append_nil _).symm
  · rfl

theorem heardFinal_pass (newPass : Bytes) : (server.heardFinal newPass).pass = server.pass := by
  rw [heardFinal]
  split
  · rfl
  · rfl

/-- The proof that is made from the stored password is accepted. -/
theorem authVerify_proof {server : SaslScramServer} {said gs2HeaderForAuthz : Bytes} {nonce : Nonce} (hstep : server.step = 1)
    (hsaid : said ≠ []) (hmsg : server.authMessage = said ++ final gs2HeaderForAuthz (nonces nonce random))
    (hsize : server.pass.saltedPass.length = alg.kOutputSize) (newPass : Bytes) :
    server.authVerify alg random m (final gs2HeaderForAuthz (nonces nonce random) ++ asks newPass ++
      text [',', 'p', '='] ++ alg.makeProof server.pass.saltedPass (server.authMessage ++ asks newPass)) =
      (heardFinal { server with step := 2 } newPass).proofAccepted alg random m := by
  have hproof : (heardFinal { server with step := 2 } newPass).makeProof alg =
      alg.makeProof server.pass.saltedPass (server.authMessage ++ asks newPass) := by
    rw [makeProof, heardFinal_pass, heardFinal_authMessage]
    exact if_neg (fun h => h hsize)
  have hzero : ¬ server.step = 0 := by rw [hstep]; decide
  have hfound := @findProof_final gs2HeaderForAuthz nonce random { server with step := 2 } said hsaid hmsg newPass
    (alg.makeProof server.pass.saltedPass (server.authMessage ++ asks newPass))
  rw [authVerify, if_neg hzero, if_pos hstep, parseClientProof, hfound]
  exact if_pos (congrArg some hproof.symm)

/-- What the server reads of a difference and a proof. -/
theorem findNewPass_eq {xSaltedPass proof : Bytes} (hpos : 0 < xSaltedPass.length)
    (hsize : server.pass.saltedPass.length = xSaltedPass.length) (hproof : 4 ≤ proof.length) :
    server.findNewPass (text ['h', '='] ++ base64Encode xSaltedPass ++ text [',', 'p', '='] ++ proof) =
      some (xSaltedPass, proof) := by
  have hfour := four_le_base64Encode hpos
  have hassoc : text ['h', '='] ++ base64Encode xSaltedPass ++ text [',', 'p', '='] ++ proof =
      (text ['h', '='] ++ base64Encode xSaltedPass) ++ ch ',' :: (text ['p', '='] ++ proof) := by
    simp only [append_assoc]
    rfl
  have hnot : ch ',' ∉ text ['h', '='] ++ base64Encode xSaltedPass := by
    rw [mem_append]
    rintro (h | h)
    · exact (by decide : ch ',' ∉ text ['h', '=']) h
    · exact comma_not_mem_base64Encode _ h
  have hlen : (text ['h', '='] ++ base64Encode xSaltedPass).length = 2 + (base64Encode xSaltedPass).length :=
    length_append
  rw [hassoc]
  have hcomma : findComma ((text ['h', '='] ++ base64Encode xSaltedPass) ++ ch ',' :: (text ['p', '='] ++ proof)) 0 =
      some (text ['h', '='] ++ base64Encode xSaltedPass).length :=
    (findComma_append [] hnot _).trans (by rw [length_nil, zero_add])
  have hshape : ¬ (((text ['h', '='] ++ base64Encode xSaltedPass) ++ ch ',' :: (text ['p', '='] ++ proof)).head? ≠
      some (ch 'h') ∨
      ((text ['h', '='] ++ base64Encode xSaltedPass) ++ ch ',' :: (text ['p', '='] ++ proof)).length < 10 ∨
      charAt ((text ['h', '='] ++ base64Encode xSaltedPass) ++ ch ',' :: (text ['p', '='] ++ proof)) 1 ≠ ch '=') := by
    refine not_or_intro (fun h => h rfl) (not_or_intro (fun h => ?_) (fun h => h rfl))
    rw [length_append, hlen, length_cons, length_append] at h
    have htwo : (text ['p', '=']).length = 2 := rfl
    omega
  have hp : ¬ (charAt ((text ['h', '='] ++ base64Encode xSaltedPass) ++ ch ',' :: (text ['p', '='] ++ proof))
      ((text ['h', '='] ++ base64Encode xSaltedPass).length + 1) ≠ ch 'p' ∨
      charAt ((text ['h', '='] ++ base64Encode xSaltedPass) ++ ch ',' :: (text ['p', '='] ++ proof))
        ((text ['h', '='] ++ base64Encode xSaltedPass).length + 2) ≠ ch '=') := by
    rw [charAt_append, charAt_append]
    exact not_or_intro (fun h => h rfl) (fun h => h rfl)
  have hdrop : (text ['h', '='] ++ base64Encode xSaltedPass).drop 2 = base64Encode xSaltedPass := rfl
  have hbehind : ((text ['h', '='] ++ base64Encode xSaltedPass) ++ ch ',' :: (text ['p', '='] ++ proof)).drop
      ((text ['h', '='] ++ base64Encode xSaltedPass).length + 3) = proof := by
    rw [← drop_drop, drop_left]
    rfl
  rw [findNewPass, if_neg hshape, hcomma]
  dsimp only
  rw [if_neg hp, take_left, hdrop, base64Decode_encode, if_neg (not_lt.mpr hsize.ge)]
  dsimp only
  rw [if_neg (fun h => h hsize.symm), hbehind]

/-- The new password that the server reads is that of the client. -/
theorem parseChangePass_right {newSaltedPass : Bytes} (hsize : server.pass.saltedPass.length = alg.kOutputSize)
    (hnew : newSaltedPass.length = alg.kOutputSize) :
    server.parseChangePass alg m (text ['h', '='] ++ base64Encode (xorBytes server.pass.saltedPass newSaltedPass) ++
      text [',', 'p', '='] ++ alg.makeProof newSaltedPass server.authMessage) =
      let server := { server with pass := { server.pass with saltedPass := newSaltedPass } }
      let r := m.authUpdate .passChanged server.authResult server.pass
      if r.1.rcode.isError then (server, r)
      else (server, ⟨.passChanged, text ['h', '='] ++ server.makeVerify alg⟩, r.2) := by
  have hlen : (xorBytes server.pass.saltedPass newSaltedPass).length = server.pass.saltedPass.length :=
    xorBytes_length (hsize.trans hnew.symm)
  have hpos : 0 < (xorBytes server.pass.saltedPass newSaltedPass).length := by
    rw [hlen, hsize]
    exact alg.kOutputSize_pos
  have hfour : 4 ≤ (alg.makeProof newSaltedPass server.authMessage).length := by
    refine four_le_base64Encode ?_
    rw [xorBytes_length ((alg.hmac_length _ _).trans (alg.hmac_length _ _).symm), alg.hmac_length]
    exact alg.kOutputSize_pos
  have hxor : xorBytes server.pass.saltedPass (xorBytes server.pass.saltedPass newSaltedPass) = newSaltedPass :=
    xorBytes_xorBytes (hsize.trans hnew.symm)
  rw [parseChangePass, findNewPass_eq server hpos hlen.symm hfour]
  dsimp only
  rw [hxor]
  have hmake : ¬ alg.makeProof newSaltedPass server.authMessage ≠
      SaslScramServer.makeProof alg { server with pass := { server.pass with saltedPass := newSaltedPass } } := by
    rw [makeProof, if_neg (fun h => h hnew)]
    exact fun h => h rfl
  exact if_neg hmake

end SaslScramServer

end Fon9.Auth
