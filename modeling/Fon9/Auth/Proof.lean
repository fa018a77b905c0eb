import Fon9.Lib.Run
import Fon9.Auth.Verified

/-! What the server has heard when it goes on: over every session, with any client. -/

namespace Fon9.Auth

open Lib SaslScramServer List Option

/-- A session of the server: the messages that it has heard, each with the users of that time, and
whether something else than a message of its own has been the answer. -/
structure SaslSession where
  server : SaslScramServer := {}
  heard : List (UserMgr × Bytes) := []
  isDone : Bool := false

section Sessions

variable (alg : Alg) (random : ServerRandom)

def SaslSession.receive (ses : SaslSession) (x : UserMgr × Bytes) : SaslSession :=
  let r := ses.server.authVerify alg random x.1 x.2
  ⟨r.1, ses.heard ++ [x], ses.isDone || decide (r.2.1.rcode ≠ .needsMore)⟩

variable (server : SaslScramServer) (ses : SaslSession) (x : UserMgr × Bytes) (response : Bytes)

/-- The proof of a last message is taken. -/
def PassesProof : Prop :=
  server.step = 1 ∧
    let r := findProof { server with step := 2 } response
    r.2 = some (r.1.makeProof alg)

/-- The proof of a new password is taken. -/
def PassesChange : Prop :=
  server.step = 2 ∧ server.isChgPass = true ∧ ∃ xSaltedPass proof,
    server.findNewPass response = some (xSaltedPass, proof) ∧
      proof = makeProof alg
        { server with pass := { server.pass with saltedPass := xorBytes server.pass.saltedPass xSaltedPass } }

/-- The server proceeds past a proof. -/
def Proceeds : Prop :=
  PassesProof alg server response ∨ PassesChange alg server response

/-- A first message and the users of that time name a user; `msg` are the messages of the session with
the nonce of the server. -/
def Names (user : UserRec) (msg : Bytes) : Prop :=
  ∃ authz gs2HeaderForAuthz bare authc nonce, x.2.head? = some (ch 'n') ∧
    gs2Header x.2 = some (authz, gs2HeaderForAuthz, bare) ∧ strFetchNoTrim (bare.drop 2) (ch ',') = (authc, nonce) ∧
    x.1.users (userId authz authc) = some user ∧
    msg = transcript gs2HeaderForAuthz bare (nonce ++ random.nonce.1) user.pass

/-- A message ends in a proof, behind the end of what has been said. -/
def Carries (response proof msg : Bytes) : Prop :=
  ∃ final c, response = final ++ c :: (text ['p', '='] ++ proof) ∧ final.IsSuffix msg

/-- The second message carries the proof that is made from the password of a user. -/
def Shows (user : UserRec) (msg response : Bytes) : Prop :=
  user.pass.saltedPass.length = alg.kOutputSize ∧ Carries response (alg.makeProof user.pass.saltedPass msg) msg

/-- The salt of a new password, as the server tells it. -/
def newSaltText : Bytes := PassRec.saltAndIterator { algParam := 10000, salt := random.salt 2 }

/-- The client has shown that it knows the password of the user whom its first message names: with
the last message, or with the one before it, which asks for another password. -/
def Proven : Prop :=
  ∃ first user msg, ses.heard.head? = some first ∧ Names random first user msg ∧
    (ses.heard = [first] ∧ (Shows alg user msg x.2 ∨ Shows alg user (msg ++ text [',', 's', '=']) x.2) ∨
      ∃ second xSaltedPass difference, ses.heard = [first, second] ∧ Shows alg user (msg ++ text [',', 's', '=']) second.2 ∧
        base64Decode alg.kOutputSize (difference.drop 2) = .ok xSaltedPass ∧ xSaltedPass.length = alg.kOutputSize ∧
        x.2 = difference ++ text [',', 'p', '='] ++ alg.makeProof (xorBytes user.pass.saltedPass xSaltedPass)
          (msg ++ text [',', 's', '='] ++ newSaltText random))

/-- A message that does not come too early with an empty proof, or too late with a new password. -/
def Sound : Prop :=
  ¬ (ses.server.step = 1 ∧ ses.server.pass.saltedPass.length ≠ alg.kOutputSize ∧
      (findProof { ses.server with step := 2 } x.2).2 = some []) ∧
    (ses.server.step = 2 → ses.server.isChgPass = true → ses.isDone = true → ses.server.findNewPass x.2 = none)

end Sessions

/-! ### What is found in a message -/

variable {s : Bytes} {i : ℕ}

theorem charAt_of_lt (h : i < s.length) : charAt s i = s[i] := by
  rw [charAt, getD_eq_getElem?_getD, getElem?_eq_getElem h, getD_some]

theorem lt_length_of_charAt (h : charAt s i ≠ 0) : i < s.length := by
  by_contra hge
  refine h ?_
  rw [charAt, getD_eq_getElem?_getD, getElem?_eq_none (Nat.le_of_not_lt hge), getD_none]

theorem drop_eq_cons_charAt (h : i < s.length) : s.drop i = charAt s i :: s.drop (i + 1) := by
  rw [charAt_of_lt h]
  exact drop_eq_getElem_cons h

/-- What stands behind `p=`, with the character before it. -/
theorem drop_proof (h : ¬ (charAt s (i + 1) ≠ ch 'p' ∨ charAt s (i + 2) ≠ ch '=')) :
    s.drop i = charAt s i :: (text ['p', '='] ++ s.drop (i + 3)) := by
  rw [not_or, not_not, not_not] at h
  obtain ⟨hp, heq⟩ := h
  have hlt : i + 2 < s.length := by
    refine lt_length_of_charAt ?_
    rw [heq]
    decide
  rw [drop_eq_cons_charAt (by omega), drop_eq_cons_charAt (by omega : i + 1 < s.length), drop_eq_cons_charAt hlt, hp, heq]
  rfl

theorem charAt_findComma {pos found : ℕ} (h : findComma s pos = some found) : charAt s found = ch ',' := by
  rw [findComma, map_eq_some_iff] at h
  obtain ⟨i, hi, rfl⟩ := h
  rw [findIdx?_eq_some_iff_getElem] at hi
  obtain ⟨hlt, hcomma, -⟩ := hi
  have hlt' : i + pos < s.length := by
    rw [length_drop] at hlt
    omega
  rw [charAt_of_lt hlt']
  rw [getElem_drop, beq_iff_eq] at hcomma
  rw [← hcomma]
  exact getElem_congr_idx (add_comm i pos)

section Server

variable {alg : Alg} {random : ServerRandom} {m : UserMgr} {server : SaslScramServer} {response proof : Bytes}

/-- What looking for the proof leaves, and where a proof that is found stands. -/
structure Finds (server : SaslScramServer) (response : Bytes) (r : SaslScramServer × Option Bytes) : Prop where
  step : r.1.step = server.step
  pass : r.1.pass = server.pass
  asks : r.1.isChgPass = server.isChgPass ∧ r.1.authMessage = server.authMessage ∨
    r.1.isChgPass = true ∧ r.1.authMessage = server.authMessage ++ text [',', 's', '=']
  carries : ∀ proof, r.2 = some proof → Carries response proof r.1.authMessage

theorem Finds.none (server : SaslScramServer) (response : Bytes) : Finds server response (server, none) where
  step := rfl
  pass := rfl
  asks := .inl ⟨rfl, rfl⟩
  carries := nofun

/-- What is found where a proof may stand. -/
theorem carries_of_proof {msg : Bytes} {pProof : ℕ}
    (hp : ¬ (charAt response (pProof + 1) ≠ ch 'p' ∨ charAt response (pProof + 2) ≠ ch '='))
    (hend : ¬ (msg.length ≤ pProof ∨ response.take pProof ≠ msg.drop (msg.length - pProof))) :
    Carries response (response.drop (pProof + 3)) msg := by
  rw [not_or, not_not] at hend
  refine ⟨response.take pProof, charAt response pProof, ?_, ?_⟩
  · rw [← drop_proof hp, take_append_drop]
  · rw [hend.2]
    exact drop_suffix _ _

theorem findProof_finds (server : SaslScramServer) (response : Bytes) : Finds server response (server.findProof response) := by
  rw [findProof]
  split
  · exact Finds.none server response
  · split
    · exact Finds.none server response
    · split
      · exact Finds.none server response
      · split
        · exact Finds.none server response
        · next pEnd _ =>
          by_cases hchg : charAt response (pEnd + 1) = ch 's' ∧ charAt response (pEnd + 2) = ch '='
          · simp only [if_pos hchg]
            split
            · exact ⟨rfl, rfl, .inr ⟨rfl, rfl⟩, fun _ h => by cases h⟩
            · next hp =>
              split
              · exact ⟨rfl, rfl, .inr ⟨rfl, rfl⟩, fun _ h => by cases h⟩
              · next hend => exact ⟨rfl, rfl, .inr ⟨rfl, rfl⟩, fun proof h => Option.some.inj h ▸ carries_of_proof hp hend⟩
          · simp only [if_neg hchg]
            split
            · exact Finds.none server response
            · next hp =>
              split
              · exact Finds.none server response
              · next hend => exact ⟨rfl, rfl, .inl ⟨rfl, rfl⟩, fun proof h => Option.some.inj h ▸ carries_of_proof hp hend⟩

/-- What the first message leaves. -/
theorem parseClientFirst_leaves (random : ServerRandom) (m : UserMgr) (response : Bytes) :
    let server := (parseClientFirst random m {} response).1
    server.step = 1 ∧ server.isChgPass = false ∧ (server.pass.saltedPass = [] ∨
      ∃ user msg, Names random (m, response) user msg ∧ server.pass = user.pass ∧ server.authMessage = msg) := by
  dsimp only
  rw [parseClientFirst]
  split
  · exact ⟨rfl, rfl, .inl rfl⟩
  · split
    · next hn =>
      split
      · exact ⟨rfl, rfl, .inl rfl⟩
      · next authzId gs2HeaderForAuthz bare hgs2 =>
        rw [parseBare]
        split
        · exact ⟨rfl, rfl, .inl rfl⟩
        · dsimp only
          split
          · exact ⟨rfl, rfl, .inl rfl⟩
          · split
            · next user huser =>
              exact ⟨rfl, rfl, .inr ⟨user, _, ⟨authzId, gs2HeaderForAuthz, bare, _, _, hn, hgs2, rfl, huser, rfl⟩, rfl, rfl⟩⟩
            · exact ⟨rfl, rfl, .inl rfl⟩
    · exact ⟨rfl, rfl, .inl rfl⟩

theorem authUpdate_ne_needsMore (m : UserMgr) (rcode : AuthRc) (authr : AuthResult) (passRec : PassRec) :
    (m.authUpdate rcode authr passRec).1.rcode ≠ .needsMore := by
  rw [UserMgr.authUpdate]
  split
  · exact fun h => by cases h
  · split
    · exact fun h => by cases h
    · split
      · exact fun h => by cases h
      · split
        · exact fun h => by cases h
        · exact fun h => by cases h

/-- A change is never answered with a message that waits for another one. -/
theorem parseChangePass_ne_needsMore (alg : Alg) (m : UserMgr) (server : SaslScramServer) (response : Bytes) :
    (server.parseChangePass alg m response).2.1.rcode ≠ .needsMore := by
  rw [parseChangePass]
  split
  · exact fun h => by cases h
  · dsimp only
    split
    · exact fun h => by cases h
    · split
      · exact authUpdate_ne_needsMore m _ _ _
      · exact fun h => by cases h

/-- What stands in a message that changes the password. -/
theorem findNewPass_reads {xSaltedPass : Bytes} (h : server.findNewPass response = some (xSaltedPass, proof)) :
    xSaltedPass.length = server.pass.saltedPass.length ∧ ∃ difference, response = difference ++ text [',', 'p', '='] ++ proof ∧
      base64Decode server.pass.saltedPass.length (difference.drop 2) = .ok xSaltedPass := by
  rw [findNewPass] at h
  split at h
  · cases h
  · split at h
    · cases h
    · next pProof hcomma =>
      split at h
      · cases h
      · next hp =>
        split at h
        · cases h
        · next decoded hdecoded =>
          split at h
          · cases h
          · next hlen =>
            cases h
            refine ⟨not_not.mp hlen, response.take pProof, ?_, hdecoded⟩
            have hdrop := drop_proof hp
            rw [charAt_findComma hcomma] at hdrop
            rw [append_assoc]
            exact (take_append_drop pProof response).symm.trans (congrArg _ hdrop)

end Server

/-! ### Runs -/

section Runs

variable {alg : Alg} {random : ServerRandom} {ses : SaslSession} {x : UserMgr × Bytes}

/-- The server between two messages. -/
inductive Follows (alg : Alg) (random : ServerRandom) : SaslSession → Prop
  | fresh : Follows alg random {}
  /-- The first message has been heard, and names a user whom the server knows or none. -/
  | heardFirst {ses : SaslSession} (first : UserMgr × Bytes) (hheard : ses.heard = [first]) (hstep : ses.server.step = 1)
      (hasks : ses.server.isChgPass = false)
      (hpass : ses.server.pass.saltedPass = [] ∨ ∃ user msg, Names random first user msg ∧ ses.server.pass = user.pass ∧
        ses.server.authMessage = msg) : Follows alg random ses
  /-- The password has been shown, and another one is awaited. -/
  | asked {ses : SaslSession} (first second : UserMgr × Bytes) (user : UserRec) (msg : Bytes)
      (hheard : ses.heard = [first, second]) (hstep : ses.server.step = 2) (hnames : Names random first user msg)
      (hshows : Shows alg user (msg ++ text [',', 's', '=']) second.2)
      (hpass : ses.server.pass.saltedPass = user.pass.saltedPass)
      (hmsg : ses.server.authMessage = msg ++ text [',', 's', '='] ++ newSaltText random) : Follows alg random ses
  | ended {ses : SaslSession} (hstep : ses.server.step = 2) (hdone : ses.isDone = true) : Follows alg random ses

/-- A proof that the server takes is that of a password, unless it is empty and too early. -/
theorem passesProof_carries (hsound : Sound alg ses x) (hproof : PassesProof alg ses.server x.2) :
    let server := (findProof { ses.server with step := 2 } x.2).1
    ses.server.pass.saltedPass.length = alg.kOutputSize ∧
      Carries x.2 (alg.makeProof ses.server.pass.saltedPass server.authMessage) server.authMessage := by
  dsimp only
  have hfinds := findProof_finds { ses.server with step := 2 } x.2
  obtain ⟨hstep, hfound⟩ := hproof
  dsimp only at hfound
  have hsize : ses.server.pass.saltedPass.length = alg.kOutputSize := by
    by_contra hne
    refine hsound.1 ⟨hstep, hne, ?_⟩
    rw [hfound, makeProof, hfinds.pass, if_pos hne]
  have hmake : (findProof { ses.server with step := 2 } x.2).1.makeProof alg =
      alg.makeProof ses.server.pass.saltedPass (findProof { ses.server with step := 2 } x.2).1.authMessage := by
    rw [makeProof, hfinds.pass, if_neg (fun h => h hsize)]
  refine ⟨hsize, ?_⟩
  rw [← hmake]
  exact hfinds.carries _ hfound

/-- A server that gets past a proof has heard it from the user whom the first message names. -/
theorem proven_of_proceeds (hfollows : Follows alg random ses) (hsound : Sound alg ses x)
    (hproceeds : Proceeds alg ses.server x.2) : Proven alg random ses x := by
  cases hfollows with
  | fresh =>
    obtain hproof | hchange := hproceeds
    · exact absurd hproof.1 (by decide)
    · exact absurd hchange.1 (by decide)
  | heardFirst first hheard hstep hasks hpass =>
    obtain hproof | hchange := hproceeds
    · obtain ⟨hsize, hcarries⟩ := passesProof_carries hsound hproof
      obtain hnil | ⟨user, msg, hnames, huser, hmsg⟩ := hpass
      · rw [hnil] at hsize
        exact absurd hsize alg.kOutputSize_pos.ne
      · rw [huser] at hsize hcarries
        refine ⟨first, user, msg, by rw [hheard, head?_cons], hnames, .inl ⟨hheard, ?_⟩⟩
        obtain ⟨-, h⟩ | ⟨-, h⟩ := (findProof_finds { ses.server with step := 2 } x.2).asks
        · rw [h, hmsg] at hcarries
          exact .inl ⟨hsize, hcarries⟩
        · rw [h, hmsg] at hcarries
          exact .inr ⟨hsize, hcarries⟩
    · rw [PassesChange, hstep] at hchange
      exact absurd hchange.1 (by decide)
  | asked first second user msg hheard hstep hnames hshows hpass hmsg =>
    obtain hproof | ⟨-, -, xSaltedPass, proof, hfind, hproof⟩ := hproceeds
    · rw [PassesProof, hstep] at hproof
      exact absurd hproof.1 (by decide)
    · obtain ⟨hlen, difference, hresponse, hdecoded⟩ := findNewPass_reads hfind
      rw [hpass, hshows.1] at hlen hdecoded
      have hxor : (xorBytes ses.server.pass.saltedPass xSaltedPass).length = alg.kOutputSize := by
        rw [hpass, xorBytes_length (hshows.1.trans hlen.symm), hshows.1]
      rw [makeProof, if_neg (fun h => h hxor), hmsg, hpass] at hproof
      refine ⟨first, user, msg, by rw [hheard, head?_cons], hnames,
        .inr ⟨second, xSaltedPass, difference, hheard, hshows, hdecoded, hlen, ?_⟩⟩
      rw [hresponse, hproof]
  | ended hstep hdone =>
    obtain hproof | ⟨-, hasks, xSaltedPass, proof, hfind, -⟩ := hproceeds
    · rw [PassesProof, hstep] at hproof
      exact absurd hproof.1 (by decide)
    · rw [hsound.2 hstep hasks hdone] at hfind
      cases hfind

theorem setDefaultPass_text (random : ServerRandom) {server : SaslScramServer} (hstep : server.step = 2) :
    (server.setDefaultPass random).pass.saltAndIterator = newSaltText random := by
  rw [setDefaultPass, hstep]
  rfl

/-- A server behind its proof gives no answer that waits for another message. -/
theorem ended_of_step (hstep : ses.server.step = 2) : Follows alg random (ses.receive alg random x) := by
  have hverify : (ses.server.authVerify alg random x.1 x.2).1.step = 2 ∧
      (ses.server.authVerify alg random x.1 x.2).2.1.rcode ≠ .needsMore := by
    rw [authVerify, hstep, if_neg (by decide), if_neg (by decide)]
    split
    · refine ⟨?_, parseChangePass_ne_needsMore alg x.1 ses.server x.2⟩
      rw [parseChangePass]
      split
      · exact hstep
      · dsimp only
        split
        · exact hstep
        · split
          · exact hstep
          · exact hstep
    · exact ⟨hstep, fun h => by cases h⟩
  refine Follows.ended hverify.1 ?_
  rw [SaslSession.receive, decide_eq_true hverify.2, Bool.or_true]

theorem follows_receive (hfollows : Follows alg random ses) (hsound : Sound alg ses x) :
    Follows alg random (ses.receive alg random x) := by
  cases hfollows with
  | fresh =>
    obtain ⟨hstep, hasks, hpass⟩ := parseClientFirst_leaves random x.1 x.2
    exact Follows.heardFirst x rfl hstep hasks hpass
  | heardFirst first hheard hstep hasks hpass =>
    have hfinds := findProof_finds { ses.server with step := 2 } x.2
    have hverify : ses.server.authVerify alg random x.1 x.2 = ses.server.parseClientProof alg random x.1 x.2 := by
      rw [authVerify, hstep, if_neg (by decide), if_pos rfl]
    by_cases hproof : PassesProof alg ses.server x.2
    · obtain ⟨hsize, hcarries⟩ := passesProof_carries hsound hproof
      have haccepted : ses.server.parseClientProof alg random x.1 x.2 =
          (findProof { ses.server with step := 2 } x.2).1.proofAccepted alg random x.1 := if_pos hproof.2
      obtain ⟨hno, -⟩ | ⟨hchg, hmsg⟩ := hfinds.asks
      · have hends : ((findProof { ses.server with step := 2 } x.2).1.proofAccepted alg random x.1).1.step = 2 ∧
            ((findProof { ses.server with step := 2 } x.2).1.proofAccepted alg random x.1).2.1.rcode ≠ .needsMore := by
          rw [proofAccepted, hno, if_neg (by rw [hasks]; exact Bool.false_ne_true)]
          dsimp only
          split
          · exact ⟨hfinds.step, authUpdate_ne_needsMore x.1 _ _ _⟩
          · exact ⟨hfinds.step, fun h => by cases h⟩
        refine Follows.ended ?_ ?_
        · rw [SaslSession.receive, hverify, haccepted]
          exact hends.1
        · rw [SaslSession.receive, hverify, haccepted, decide_eq_true hends.2, Bool.or_true]
      · obtain hnil | ⟨user, msg, hnames, huser, hmsg'⟩ := hpass
        · rw [hnil] at hsize
          exact absurd hsize alg.kOutputSize_pos.ne
        · rw [hmsg, hmsg', huser] at hcarries
          rw [huser] at hsize
          have hserver : (ses.receive alg random x).server =
              (let server := (findProof { ses.server with step := 2 } x.2).1.setDefaultPass random
              { server with authMessage := server.authMessage ++ server.pass.saltAndIterator }) := by
            rw [SaslSession.receive, hverify, haccepted, proofAccepted, if_pos hchg]
          refine Follows.asked first x user msg ?_ ?_ hnames ⟨hsize, hcarries⟩ ?_ ?_
          · rw [SaslSession.receive, hheard]
            rfl
          · rw [hserver]
            exact hfinds.step
          · rw [hserver, ← huser]
            have hold : (findProof { ses.server with step := 2 } x.2).1.pass.saltedPass = ses.server.pass.saltedPass := by
              rw [hfinds.pass]
            exact hold
          · rw [hserver]
            exact congrArg₂ (· ++ ·) (hmsg.trans (congrArg (· ++ _) hmsg')) (setDefaultPass_text random hfinds.step)
    · have hrefused : ses.server.parseClientProof alg random x.1 x.2 =
          ((findProof { ses.server with step := 2 } x.2).1, (findProof { ses.server with step := 2 } x.2).1.proofError x.1) :=
        if_neg (fun h => hproof ⟨hstep, h⟩)
      have hrcode : ((findProof { ses.server with step := 2 } x.2).1.proofError x.1).1.rcode ≠ .needsMore :=
        authUpdate_ne_needsMore x.1 _ _ _
      refine Follows.ended ?_ ?_
      · rw [SaslSession.receive, hverify, hrefused]
        exact hfinds.step
      · rw [SaslSession.receive, hverify, hrefused, decide_eq_true hrcode, Bool.or_true]
  | asked first second user msg hheard hstep hnames hshows hpass hmsg => exact ended_of_step hstep
  | ended hstep hdone => exact ended_of_step hstep

/-- In a session whose messages are all sound, whatever gets past a proof shows the password. -/
theorem along_proven (alg : Alg) (random : ServerRandom) {inputs : List (UserMgr × Bytes)}
    (hsound : Along (SaslSession.receive alg random) (Sound alg) {} inputs) :
    Along (SaslSession.receive alg random) (fun ses x => Proceeds alg ses.server x.2 → Proven alg random ses x) {} inputs :=
  Along.of_invariant (I := Follows alg random) (fun _ _ hfollows hok hproceeds => proven_of_proceeds hfollows hok hproceeds)
    (fun _ _ hfollows hok => follows_receive hfollows hok) Follows.fresh hsound

end Runs

end Fon9.Auth
