import Fon9.Auth.Scram

/-! What each side reads from the messages of the other, and the last message of the client as
both sides build and read it. -/

namespace Fon9.Auth

open List SaslScramClient SaslScramClient

section Reads

/-! ### Texts -/

variable {pre part rest s : Bytes} {pos : ℕ}

theorem charAt_append (pre s : Bytes) (i : ℕ) : charAt (pre ++ s) (pre.length + i) = charAt s i := by
  rw [charAt, charAt, getD_eq_getElem?_getD, getD_eq_getElem?_getD,
    getElem?_append_right (Nat.le_add_right _ _), Nat.add_sub_cancel_left]

theorem findComma_append (pre : Bytes) (hpart : ch ',' ∉ part) (rest : Bytes) :
    SaslScramServer.findComma (pre ++ (part ++ ch ',' :: rest)) pre.length = some (pre.length + part.length) := by
  have hnone : part.findIdx? (· == ch ',') = none := by
    rw [findIdx?_eq_none_iff]
    intro c hc
    rw [beq_eq_false_iff_ne]
    rintro rfl
    exact hpart hc
  rw [SaslScramServer.findComma, drop_left, findIdx?_append, hnone, findIdx?_cons]
  exact congrArg some (by
    show 0 + part.length + pre.length = _
    omega)

theorem comma_not_mem_nonce (nonce : Nonce) : ch ',' ∉ nonce.1 := by
  intro h
  have hall : ch ',' ∉ randomChs := by decide
  exact hall (nonce.2 _ h)

/-! ### The first message of the client -/

namespace SaslScramServer

/-- The header that the server remembers. -/
def gs2HeaderForAuthz (authz : Bytes) : Bytes := if authz = [] then [] else SaslScramClient.gs2Text authz

theorem gs2Header_gs2Text {authz : Bytes} (h : ch ',' ∉ authz) (bare : Bytes) :
    gs2Header (gs2Text authz ++ bare) = some (authz, gs2HeaderForAuthz authz, bare) := by
  rw [gs2HeaderForAuthz]
  by_cases hempty : authz = []
  · subst hempty
    rfl
  · rw [if_neg hempty, gs2Text, if_neg hempty]
    have hfetch : strFetchNoTrim (authz ++ ch ',' :: bare) (ch ',') = (authz, bare) := strFetchNoTrim_append authz bare h
    have hassoc : text ['n', ',', 'a', '='] ++ authz ++ text [','] ++ bare =
        text ['n', ',', 'a', '='] ++ (authz ++ ch ',' :: bare) := by
      rw [append_assoc, append_assoc]
      rfl
    have hdrop : (text ['n', ',', 'a', '='] ++ authz ++ text [','] ++ bare).drop 4 = authz ++ ch ',' :: bare := by
      rw [hassoc]
      rfl
    have h1 : ¬ charAt (text ['n', ',', 'a', '='] ++ authz ++ text [','] ++ bare) 1 ≠ ch ',' := fun h => h rfl
    have h3 : ¬ charAt (text ['n', ',', 'a', '='] ++ authz ++ text [','] ++ bare) 3 ≠ ch '=' := fun h => h rfl
    have h2 : charAt (text ['n', ',', 'a', '='] ++ authz ++ text [','] ++ bare) 2 = ch 'a' := rfl
    rw [gs2Header, if_neg h1, if_pos h2, if_neg h3, hdrop, hfetch]
    dsimp only
    rw [length_append, Nat.add_sub_cancel, take_left]

/-- The message of the client behind the header. -/
def bareText (authc : Bytes) (nonce : Nonce) : Bytes := text ['n', '='] ++ authc ++ text [',', 'r', '='] ++ nonce.1

/-- The nonces of both sides. -/
def nonces (nonce : Nonce) (random : ServerRandom) : Bytes := text ['r', '='] ++ nonce.1 ++ random.nonce.1

/-- The first message of the server. -/
def svr1stMsg (nonces : Bytes) (pass : PassRec) : Bytes := nonces ++ text [',', 's', '='] ++ pass.saltAndIterator

/-- What both sides have said, without the proof. -/
def transcript (gs2HeaderForAuthz bare nonces : Bytes) (pass : PassRec) : Bytes :=
  bare ++ [ch ','] ++ svr1stMsg nonces pass ++ [ch ','] ++ channelBinding gs2HeaderForAuthz ++ [ch ','] ++ nonces

/-- The id of the user whose password is asked for. -/
def userId (authz authc : Bytes) : Bytes := if authz = [] then authc else authz

/-- The server that has found the user. -/
def found (random : ServerRandom) (user : UserRec) (authz authc : Bytes) (nonce : Nonce) : SaslScramServer where
  authMessage := transcript (gs2HeaderForAuthz authz) (bareText authc nonce) (nonces nonce random) user.pass
  pass := user.pass
  step := 1
  authResult := ⟨authc, authz, user.roleId⟩

theorem authVerify_first {alg : Alg} {random : ServerRandom} {m : UserMgr} {user : UserRec} {authz authc pass : Bytes}
    {nonce : Nonce} (hauthz : ch ',' ∉ authz) (hauthc : ch ',' ∉ authc) (huser : m.users (userId authz authc) = some user) :
    ({} : SaslScramServer).authVerify alg random m (create authz authc pass nonce).clientFirstMessage =
      (found random user authz authc nonce, ⟨.needsMore, svr1stMsg (nonces nonce random) user.pass⟩, m) := by
  have hfirst : (create authz authc pass nonce).clientFirstMessage =
      gs2Text authz ++ bareText authc nonce := by
    rw [create, bareText]
    simp only [append_assoc]
  have hhead : (gs2Text authz ++ bareText authc nonce).head? = some (ch 'n') := by
    rw [gs2Text]
    split
    · rfl
    · rfl
  have hnot : ¬ (some (ch 'n') = some (ch 'p') ∨ some (ch 'n') = some (ch 'y')) := by decide
  have hbare : (bareText authc nonce).drop 2 = authc ++ ch ',' :: (text ['r', '='] ++ nonce.1) := by
    rw [bareText, append_assoc, append_assoc]
    rfl
  have hn : ¬ (charAt (bareText authc nonce) 0 ≠ ch 'n' ∨ charAt (bareText authc nonce) 1 ≠ ch '=') :=
    not_or_intro (fun h => h rfl) (fun h => h rfl)
  have hr : ¬ (charAt (text ['r', '='] ++ nonce.1) 0 ≠ ch 'r' ∨ charAt (text ['r', '='] ++ nonce.1) 1 ≠ ch '=') :=
    not_or_intro (fun h => h rfl) (fun h => h rfl)
  rw [hfirst, authVerify, if_pos rfl, parseClientFirst, hhead, if_neg hnot, if_pos rfl, gs2Header_gs2Text hauthz]
  dsimp only
  rw [parseBare, if_neg hn, hbare, strFetchNoTrim_append authc _ hauthc]
  dsimp only
  rw [if_neg hr]
  have hid : AuthResult.getUserIdForAuthz ⟨authc, authz, []⟩ = userId authz authc := rfl
  rw [hid, huser]
  rfl

end SaslScramServer

end Reads

section Last

namespace SaslScramServer

variable {gs2HeaderForAuthz : Bytes} {nonce : Nonce} {random : ServerRandom}

theorem comma_not_mem_channelBinding (gs2HeaderForAuthz : Bytes) : ch ',' ∉ channelBinding gs2HeaderForAuthz := by
  rw [channelBinding]
  split
  · decide
  · intro h
    rw [mem_append] at h
    obtain h | h := h
    · exact (by decide : ch ',' ∉ text ['c', '=']) h
    · exact comma_not_mem_base64Encode _ h

theorem six_le_channelBinding (gs2HeaderForAuthz : Bytes) : 6 ≤ (channelBinding gs2HeaderForAuthz).length := by
  rw [channelBinding]
  split
  · decide
  · rename_i hne
    have hpos : 0 < gs2HeaderForAuthz.length := length_pos_iff.mpr hne
    rw [length_append, base64Encode_length, base64EncodeLengthNoEOS]
    show 6 ≤ 2 + _
    split
    · omega
    · omega

/-- The last message without its proof. -/
def final (gs2HeaderForAuthz nonces : Bytes) : Bytes := channelBinding gs2HeaderForAuthz ++ ch ',' :: nonces

/-- What asks for another password. -/
def asks (newPass : Bytes) : Bytes := if newPass = [] then [] else text [',', 's', '=']

theorem final_length (gs2HeaderForAuthz nonces : Bytes) :
    (final gs2HeaderForAuthz nonces).length = (channelBinding gs2HeaderForAuthz).length + 1 + nonces.length := by
  rw [final, length_append, length_cons]
  omega

theorem nonces_length (nonce : Nonce) (random : ServerRandom) :
    (nonces nonce random).length = 2 + (nonce.1 ++ random.nonce.1).length := by
  rw [nonces, append_assoc, length_append]
  rfl

/-- The comma behind `c=`. -/
theorem findComma_channelBinding (rest : Bytes) :
    findComma (channelBinding gs2HeaderForAuthz ++ ch ',' :: rest) 6 = some (channelBinding gs2HeaderForAuthz).length := by
  have hsplit : channelBinding gs2HeaderForAuthz ++ ch ',' :: rest =
      (channelBinding gs2HeaderForAuthz).take 6 ++ ((channelBinding gs2HeaderForAuthz).drop 6 ++ ch ',' :: rest) := by
    rw [← append_assoc, take_append_drop]
  have hcomma : ch ',' ∉ (channelBinding gs2HeaderForAuthz).drop 6 := fun h =>
    comma_not_mem_channelBinding gs2HeaderForAuthz (mem_of_mem_drop h)
  have hlen : ((channelBinding gs2HeaderForAuthz).take 6).length = 6 :=
    length_take_of_le (six_le_channelBinding gs2HeaderForAuthz)
  have h := findComma_append ((channelBinding gs2HeaderForAuthz).take 6) hcomma rest
  rw [hlen, length_drop, Nat.add_sub_cancel' (six_le_channelBinding gs2HeaderForAuthz)] at h
  rw [hsplit, h]

theorem comma_not_mem_nonces_tail (nonce : Nonce) (random : ServerRandom) : ch ',' ∉ nonce.1 ++ random.nonce.1 := by
  intro h
  rw [mem_append] at h
  obtain h | h := h
  · exact comma_not_mem_nonce _ h
  · exact comma_not_mem_nonce _ h

/-- The comma behind `r=`. -/
theorem findComma_nonces (rest : Bytes) :
    findComma (final gs2HeaderForAuthz (nonces nonce random) ++ ch ',' :: rest)
      ((channelBinding gs2HeaderForAuthz).length + 3) = some (final gs2HeaderForAuthz (nonces nonce random)).length := by
  have hsplit : final gs2HeaderForAuthz (nonces nonce random) ++ ch ',' :: rest =
      (channelBinding gs2HeaderForAuthz ++ text [',', 'r', '=']) ++ ((nonce.1 ++ random.nonce.1) ++ ch ',' :: rest) := by
    rw [final, nonces]
    simp only [append_assoc, cons_append]
    rfl
  have h := findComma_append (channelBinding gs2HeaderForAuthz ++ text [',', 'r', '='])
    (comma_not_mem_nonces_tail nonce random) rest
  have hlen : (channelBinding gs2HeaderForAuthz ++ text [',', 'r', '=']).length =
      (channelBinding gs2HeaderForAuthz).length + 3 := by
    rw [length_append]
    rfl
  rw [hlen] at h
  rw [hsplit, h, final_length, nonces_length]
  exact congrArg some (by omega)

variable (server : SaslScramServer)

/-- The server behind a last message. -/
def heardFinal (newPass : Bytes) : SaslScramServer :=
  if newPass = [] then server
  else { server with isChgPass := true, authMessage := server.authMessage ++ text [',', 's', '='] }

/-- What is found behind the nonces. -/
def proofBehind (response : Bytes) (pEnd : ℕ) : SaslScramServer × Option Bytes :=
  let isChg := charAt response (pEnd + 1) = ch 's' ∧ charAt response (pEnd + 2) = ch '='
  let server := if isChg then
      { server with isChgPass := true, authMessage := server.authMessage ++ text [',', 's', '='] }
    else server
  let pProof := if isChg then pEnd + 3 else pEnd
  if charAt response (pProof + 1) ≠ ch 'p' ∨ charAt response (pProof + 2) ≠ ch '=' then (server, none)
  else if server.authMessage.length ≤ pProof ∨
      response.take pProof ≠ server.authMessage.drop (server.authMessage.length - pProof) then (server, none)
  else (server, some (response.drop (pProof + 3)))

theorem findProof_behind {rest : Bytes} (hrest : 2 ≤ rest.length) :
    server.findProof (final gs2HeaderForAuthz (nonces nonce random) ++ ch ',' :: rest) =
      server.proofBehind (final gs2HeaderForAuthz (nonces nonce random) ++ ch ',' :: rest)
        (final gs2HeaderForAuthz (nonces nonce random)).length := by
  have hlength : ¬ (final gs2HeaderForAuthz (nonces nonce random) ++ ch ',' :: rest).length < 12 := by
    have hsix := six_le_channelBinding gs2HeaderForAuthz
    rw [length_append, final_length, nonces_length, length_cons]
    omega
  have hassoc : final gs2HeaderForAuthz (nonces nonce random) ++ ch ',' :: rest =
      channelBinding gs2HeaderForAuthz ++ ch ',' :: (nonces nonce random ++ ch ',' :: rest) := by
    rw [final, append_assoc, cons_append]
  have hcomma : findComma (final gs2HeaderForAuthz (nonces nonce random) ++ ch ',' :: rest) 6 =
      some (channelBinding gs2HeaderForAuthz).length := by
    rw [hassoc]
    exact findComma_channelBinding _
  have hr : charAt (final gs2HeaderForAuthz (nonces nonce random) ++ ch ',' :: rest)
      ((channelBinding gs2HeaderForAuthz).length + 1) = ch 'r' := by
    rw [hassoc, charAt_append]
    rfl
  rw [findProof, if_neg hlength, hcomma]
  dsimp only
  rw [if_neg (fun h => h.1 hr), findComma_nonces]
  rfl

/-- A proof behind what the server has heard and said. -/
theorem proofBehind_eq {server : SaslScramServer} {said : Bytes} (hsaid : said ≠ []) (isChg : Bool) (heard : Bytes)
    {pEnd : ℕ} {response proof : Bytes}
    (hchg : (charAt response (pEnd + 1) = ch 's' ∧ charAt response (pEnd + 2) = ch '=') ↔ isChg = true)
    (hheard : heard.length = if isChg then pEnd + 3 else pEnd)
    (hmsg : server.authMessage ++ (if isChg then text [',', 's', '='] else []) = said ++ heard)
    (hresponse : response = heard ++ (text [',', 'p', '='] ++ proof)) :
    server.proofBehind response pEnd =
      (if isChg then { server with isChgPass := true, authMessage := server.authMessage ++ text [',', 's', '='] } else server,
        some proof) := by
  have hproof : response.drop (heard.length + 3) = proof := by
    rw [hresponse, ← drop_drop, drop_left]
    rfl
  have htake : response.take heard.length = heard := by
    rw [hresponse, take_left]
  have hp : ¬ (charAt response (heard.length + 1) ≠ ch 'p' ∨ charAt response (heard.length + 2) ≠ ch '=') := by
    rw [hresponse, charAt_append, charAt_append]
    exact not_or_intro (fun h => h rfl) (fun h => h rfl)
  have hend : ∀ msg : Bytes, msg = said ++ heard →
      ¬ (msg.length ≤ heard.length ∨ response.take heard.length ≠ msg.drop (msg.length - heard.length)) := by
    rintro msg rfl
    rw [length_append, Nat.add_sub_cancel, drop_left, htake]
    have hpos : 0 < said.length := length_pos_iff.mpr hsaid
    rintro (h | h)
    · omega
    · exact h rfl
  rw [proofBehind]
  cases isChg with
  | false =>
    rw [if_neg Bool.false_ne_true, append_nil] at hmsg
    rw [if_neg Bool.false_ne_true] at hheard
    have hno : ¬ (charAt response (pEnd + 1) = ch 's' ∧ charAt response (pEnd + 2) = ch '=') := fun h =>
      Bool.false_ne_true (hchg.mp h)
    simp only [if_neg hno]
    rw [← hheard, if_neg hp, if_neg (hend _ hmsg), hproof]
    rfl
  | true =>
    rw [if_pos rfl] at hmsg hheard
    simp only [if_pos (hchg.mpr rfl)]
    rw [← hheard, if_neg hp, if_neg (hend _ hmsg), hproof]
    rfl

/-- The proof of a last message is found when the messages of the session end in it. -/
theorem findProof_final {server : SaslScramServer} {said : Bytes} (hsaid : said ≠ [])
    (hmsg : server.authMessage = said ++ final gs2HeaderForAuthz (nonces nonce random)) (newPass proof : Bytes) :
    server.findProof (final gs2HeaderForAuthz (nonces nonce random) ++ asks newPass ++ text [',', 'p', '='] ++ proof) =
      (server.heardFinal newPass, some proof) := by
  rw [asks, heardFinal]
  by_cases hnew : newPass = []
  · rw [if_pos hnew, if_pos hnew, append_nil, append_assoc]
    refine (findProof_behind server (Nat.le_add_left 2 _)).trans ?_
    refine proofBehind_eq hsaid false _ (iff_of_false (fun h => ?_) Bool.false_ne_true) rfl ?_ rfl
    · rw [charAt_append] at h
      exact absurd h.1 (by decide : ¬ ch 'p' = ch 's')
    · rw [hmsg]
      exact append_nil _
  · rw [if_neg hnew, if_neg hnew]
    have hassoc : final gs2HeaderForAuthz (nonces nonce random) ++ text [',', 's', '='] ++ text [',', 'p', '='] ++ proof =
        final gs2HeaderForAuthz (nonces nonce random) ++ ch ',' :: (text ['s', '=', ',', 'p', '='] ++ proof) := by
      simp only [append_assoc]
      rfl
    rw [hassoc]
    refine (findProof_behind server (by rw [length_append]; exact Nat.le_add_right_of_le (by decide))).trans ?_
    refine proofBehind_eq hsaid true (final gs2HeaderForAuthz (nonces nonce random) ++ text [',', 's', '=']) (iff_of_true ⟨?_, ?_⟩ rfl) ?_ ?_ ?_
    · rw [charAt_append]
      rfl
    · rw [charAt_append]
      rfl
    · rw [length_append]
      rfl
    · rw [hmsg, append_assoc]
      rfl
    · simp only [append_assoc]
      rfl

end SaslScramServer

end Last

end Fon9.Auth
