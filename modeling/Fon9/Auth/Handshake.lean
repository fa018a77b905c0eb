import Fon9.Auth.LastMessage

/-! A client and a server that know the same password. -/

namespace Fon9.Auth

open List Prod

/-- The client and the server by turns, until one of them has done. -/
def converse (alg : Alg) (random : ServerRandom) :
    ℕ → UserMgr → SaslScramServer → SaslScramClient → Bytes → AuthRc × AuthRc × UserMgr
  | 0, m, _, _, _ => (.needsMore, .needsMore, m)
  | fuel + 1, m, server, client, response =>
    let r := server.authVerify alg random m response
    if r.2.1.rcode.isError then (r.2.1.rcode, .needsMore, r.2.2)
    else
      let c := client.onChallenge alg r.2.1.info
      if c.2.rcode = .needsMore then converse alg random fuel r.2.2 r.1 c.1 c.2.info
      else (r.2.1.rcode, c.2.rcode, r.2.2)

/-- The password and a new one as the client takes them. -/
def passText (pass newPass : Bytes) : Bytes := pass ++ if newPass = [] then [] else 13 :: newPass

/-- The salts that the client can read. -/
def PassRec.Readable (pass : PassRec) : Prop :=
  pass.salt.length ≤ 128 ∧ 10 ≤ (text ['s', '='] ++ pass.saltAndIterator).length

instance (pass : PassRec) : Decidable pass.Readable := inferInstanceAs (Decidable (_ ∧ _))

namespace SaslScramClient

open SaslScramServer

variable {alg : Alg} {random : ServerRandom} {user : UserRec} {authz authc pass newPass : Bytes} {nonce : Nonce}

theorem create_pass (hpass : 13 ∉ pass) :
    (create authz authc (passText pass newPass) nonce).pass = pass ∧
      (create authz authc (passText pass newPass) nonce).newPass = newPass := by
  by_cases hempty : newPass = []
  · have hfetch : strFetchNoTrim (passText pass newPass) 13 = (pass, []) := by
      rw [passText, if_pos hempty, append_nil]
      exact strFetchNoTrim_all pass hpass
    exact ⟨congrArg fst hfetch, (congrArg snd hfetch).trans hempty.symm⟩
  · have hfetch : strFetchNoTrim (passText pass newPass) 13 = (pass, newPass) := by
      rw [passText, if_neg hempty]
      exact strFetchNoTrim_append pass newPass hpass
    exact ⟨congrArg fst hfetch, congrArg snd hfetch⟩

/-- What the client reads of a salt and an iterator. -/
theorem parseAndCalcSaltedPass_eq (alg : Alg) (pass : Bytes) (record : PassRec) {rest : Bytes}
    (hrest : ∀ c ∈ rest.head?, ¬ digval c ≤ 9) :
    parseAndCalcSaltedPass alg pass (text ['s', '='] ++ record.saltAndIterator ++ rest) =
      if record.salt.length ≤ 128 ∧ 10 ≤ (text ['s', '='] ++ record.saltAndIterator ++ rest).length then
        some (alg.calcSaltedPassword pass record.salt record.algParam.toNat, rest)
      else none := by
  have hassoc : text ['s', '='] ++ record.saltAndIterator ++ rest = text ['s', '='] ++ (base64Encode record.salt ++
      ch ',' :: (text ['i', '='] ++ (uintToStr record.algParam.toNat ++ rest))) := by
    rw [PassRec.saltAndIterator]
    simp only [append_assoc]
    rfl
  have hcomma : findComma (text ['s', '='] ++ record.saltAndIterator ++ rest) 2 =
      some (2 + (base64Encode record.salt).length) := by
    rw [hassoc]
    exact findComma_append (text ['s', '=']) (comma_not_mem_base64Encode record.salt) _
  have hdrop : (text ['s', '='] ++ record.saltAndIterator ++ rest).drop (2 + (base64Encode record.salt).length) =
      ch ',' :: (text ['i', '='] ++ (uintToStr record.algParam.toNat ++ rest)) := by
    rw [hassoc, ← drop_drop]
    exact drop_left
  have hi : ∀ i, charAt (text ['s', '='] ++ record.saltAndIterator ++ rest) (2 + (base64Encode record.salt).length + i) =
      charAt (ch ',' :: (text ['i', '='] ++ (uintToStr record.algParam.toNat ++ rest))) i := by
    intro i
    rw [← hdrop, charAt, charAt, getD_eq_getElem?_getD, getD_eq_getElem?_getD, getElem?_drop]
  have hnumber : (text ['s', '='] ++ record.saltAndIterator ++ rest).drop (2 + (base64Encode record.salt).length + 3) =
      uintToStr record.algParam.toNat ++ rest := by
    rw [← drop_drop, hdrop]
    rfl
  have hiter : strToUInt (2 ^ 64 - 1) (uintToStr record.algParam.toNat ++ rest) 0 = (record.algParam.toNat, rest) :=
    strToUInt_uintToStr (Nat.le_sub_one_of_lt (UInt64.toNat_lt record.algParam)) rest 0 hrest
  have hsalt : ((text ['s', '='] ++ record.saltAndIterator ++ rest).take (2 + (base64Encode record.salt).length)).drop 2 =
      base64Encode record.salt := by
    rw [hassoc, drop_take, Nat.add_sub_cancel_left]
    exact take_left
  have hs : ¬ (charAt (text ['s', '='] ++ record.saltAndIterator ++ rest) 0 ≠ ch 's' ∨
      charAt (text ['s', '='] ++ record.saltAndIterator ++ rest) 1 ≠ ch '=') := by
    rw [hassoc]
    exact not_or_intro (fun h => h rfl) (fun h => h rfl)
  rw [parseAndCalcSaltedPass]
  by_cases hten : 10 ≤ (text ['s', '='] ++ record.saltAndIterator ++ rest).length
  · rw [if_neg (not_lt.mpr hten), if_neg hs, hcomma]
    dsimp only
    rw [hi, hi, if_neg (not_or_intro (fun h => h rfl) (fun h => h rfl)), hnumber, hiter, hsalt, base64Decode_encode]
    by_cases hroom : record.salt.length ≤ 128
    · rw [if_neg (not_lt.mpr hroom), if_pos ⟨hroom, hten⟩]
    · rw [if_pos (Nat.lt_of_not_le hroom), if_neg (fun h => hroom h.1)]
  · rw [if_pos (Nat.lt_of_not_le hten), if_neg (fun h => hten h.2)]

/-- The last message of the client without its proof. -/
theorem finalMessage_create (hpass : 13 ∉ pass) (nonces : Bytes) :
    (create authz authc (passText pass newPass) nonce).finalMessage nonces =
      final (gs2HeaderForAuthz authz) nonces ++ asks newPass := by
  have hfirst : (create authz authc (passText pass newPass) nonce).clientFirstMessage =
      gs2Text authz ++ bareText authc nonce := by
    rw [create, bareText]
    simp only [append_assoc]
  have hsize : (create authz authc (passText pass newPass) nonce).gs2HeaderSize = (gs2Text authz).length := rfl
  rw [finalMessage, (create_pass hpass).2, hfirst, hsize, take_left, final, asks, gs2HeaderForAuthz]
  by_cases hempty : authz = []
  · subst hempty
    rw [if_pos ⟨rfl, rfl⟩, if_pos rfl, channelBinding, if_pos rfl]
    rfl
  · have hgs2 : gs2Text authz = text ['n', ',', 'a', '='] ++ authz ++ text [','] := if_neg hempty
    have hne : gs2Text authz ≠ [] := by
      rw [hgs2]
      exact cons_ne_nil _ _
    have hthree : ¬ ((gs2Text authz).length = 3 ∧
        (gs2Text authz ++ bareText authc nonce).take 3 = text ['n', ',', ',']) := by
      rintro ⟨h, -⟩
      rw [hgs2, length_append, length_append] at h
      have hfour : (text ['n', ',', 'a', '=']).length = 4 := rfl
      omega
    rw [if_neg hthree, if_neg hempty, channelBinding, if_neg hne]
    simp only [append_assoc, cons_append, nil_append]

/-- The client that has answered the first message of the server. -/
def answered (alg : Alg) (random : ServerRandom) (user : UserRec) (authz authc pass newPass : Bytes) (nonce : Nonce) :
    SaslScramClient :=
  { create authz authc (passText pass newPass) nonce with
    saltedPass := alg.calcSaltedPassword pass user.pass.salt user.pass.algParam.toNat
    authMessage :=
      transcript (gs2HeaderForAuthz authz) (bareText authc nonce) (nonces nonce random) user.pass ++ asks newPass }

/-- What the client reads of the first message of the server. -/
theorem onServerFirst_reads (client : SaslScramClient) (record : PassRec) :
    client.onChallenge alg (svr1stMsg (nonces nonce random) record) =
      if record.Readable then
        let saltedPass := alg.calcSaltedPassword client.pass record.salt record.algParam.toNat
        let final := client.finalMessage (nonces nonce random)
        let authMessage := client.clientFirstMessage.drop client.gs2HeaderSize ++ [ch ','] ++
          svr1stMsg (nonces nonce random) record ++ [ch ','] ++ final
        ({ client with saltedPass := saltedPass, authMessage := authMessage },
          ⟨.needsMore, final ++ text [',', 'p', '='] ++ alg.makeProof saltedPass authMessage⟩)
      else (client, ⟨.eArgs_Format, svr1stMsg (nonces nonce random) record⟩) := by
  have hsplit : svr1stMsg (nonces nonce random) record =
      nonces nonce random ++ ch ',' :: (text ['s', '='] ++ record.saltAndIterator ++ []) := by
    rw [svr1stMsg, append_nil]
    simp only [append_assoc]
    rfl
  have hcomma : findComma (svr1stMsg (nonces nonce random) record) 0 = some (nonces nonce random).length := by
    have hnot : ch ',' ∉ nonces nonce random := by
      rw [nonces, append_assoc, mem_append]
      rintro (h | h)
      · exact (by decide : ch ',' ∉ text ['r', '=']) h
      · exact comma_not_mem_nonces_tail nonce random h
    rw [hsplit]
    exact (findComma_append [] hnot _).trans (by rw [length_nil, zero_add])
  have hhead : (svr1stMsg (nonces nonce random) record).head? = some (ch 'r') := by
    rw [hsplit, nonces]
    rfl
  have hdrop : (svr1stMsg (nonces nonce random) record).drop ((nonces nonce random).length + 1) =
      text ['s', '='] ++ record.saltAndIterator ++ [] := by
    rw [hsplit, ← drop_drop, drop_left]
    rfl
  have htake : (svr1stMsg (nonces nonce random) record).take (nonces nonce random).length = nonces nonce random := by
    rw [hsplit, take_left]
  have hnone : ∀ c ∈ ([] : Bytes).head?, ¬ digval c ≤ 9 := fun c hc => absurd hc (Option.not_mem_none c)
  rw [onChallenge, if_pos hhead, onServerFirst, hcomma]
  dsimp only
  rw [hdrop, parseAndCalcSaltedPass_eq alg client.pass record hnone, append_nil, htake]
  by_cases hread : record.Readable
  · have hfits : record.salt.length ≤ 128 ∧ 10 ≤ (text ['s', '='] ++ record.saltAndIterator).length := hread
    rw [if_pos hread, if_pos hfits]
    rfl
  · have hfits : ¬ (record.salt.length ≤ 128 ∧ 10 ≤ (text ['s', '='] ++ record.saltAndIterator).length) := hread
    rw [if_neg hread, if_neg hfits]

/-- The first message of the server is answered when its salt is read. -/
theorem onChallenge_first (hpass : 13 ∉ pass) (hread : user.pass.Readable) :
    (create authz authc (passText pass newPass) nonce).onChallenge alg (svr1stMsg (nonces nonce random) user.pass) =
      (answered alg random user authz authc pass newPass nonce,
        ⟨.needsMore, final (gs2HeaderForAuthz authz) (nonces nonce random) ++ asks newPass ++ text [',', 'p', '='] ++
          alg.makeProof (answered alg random user authz authc pass newPass nonce).saltedPass
            (answered alg random user authz authc pass newPass nonce).authMessage⟩) := by
  have hfirst : (create authz authc (passText pass newPass) nonce).clientFirstMessage.drop
      (create authz authc (passText pass newPass) nonce).gs2HeaderSize = bareText authc nonce := by
    rw [create, bareText]
    simp only [append_assoc]
    exact drop_left
  have hmsg : bareText authc nonce ++ [ch ','] ++ svr1stMsg (nonces nonce random) user.pass ++ [ch ','] ++
      (final (gs2HeaderForAuthz authz) (nonces nonce random) ++ asks newPass) =
      transcript (gs2HeaderForAuthz authz) (bareText authc nonce) (nonces nonce random) user.pass ++ asks newPass := by
    rw [transcript, final]
    simp only [append_assoc, cons_append, nil_append]
  rw [onServerFirst_reads, if_pos hread]
  dsimp only
  rw [finalMessage_create hpass, hfirst, hmsg, (create_pass hpass).1]
  exact congrArg (·, _) (by rw [answered, (create_pass hpass).1])

end SaslScramClient

end Fon9.Auth
