import Mathlib.Data.UInt
import Fon9.Auth.Agreement
import Fon9.Auth.Proof

/-! What the client checks before it reports success or gives a new password away, and what the two
sides of an authentication may rely on. -/

namespace Fon9.Auth

open Lib SaslScramServer SaslScramClient

section Client

variable (alg : Alg) (client : SaslScramClient) (message : Bytes)

/-- The client says that the server has shown the password. -/
def Reports : Prop :=
  (client.onChallenge alg message).2.rcode = .success ∨ (client.onChallenge alg message).2.rcode = .passChanged

/-- The client gives the difference of the new password away. -/
def Reveals : Prop :=
  (client.onChallenge alg message).2.rcode = .needsMore ∧ (client.onChallenge alg message).2.info.head? = some (ch 'h')

/-- The place of a verifier behind the salt of a new password. -/
def HasVerifier (rest : Bytes) : Prop :=
  ¬ (rest.length < 4 ∨ charAt rest 0 ≠ ch ',' ∨ charAt rest 1 ≠ ch 'v' ∨ charAt rest 2 ≠ ch '=')

/-- The client has seen the verifier that it has computed itself. -/
def Verified : Prop :=
  (Reports alg client message → message.drop 2 = alg.makeVerify client.saltedPass client.authMessage) ∧
    (Reveals alg client message → ∃ newSaltedPass rest, client.findNewSalt alg message = some (newSaltedPass, rest) ∧
      HasVerifier rest ∧
      rest.drop 3 = alg.makeVerify client.saltedPass (client.withNewSalt message rest).authMessage)

/-- A message with the salt of a new password has no wrong verifier of the right size, and none that
has the right one in front. -/
def Checked : Prop :=
  message.head? = some (ch 's') → ∀ newSaltedPass rest, client.findNewSalt alg message = some (newSaltedPass, rest) →
    newSaltedPass.length = client.saltedPass.length → HasVerifier rest →
    let v := alg.makeVerify client.saltedPass (client.withNewSalt message rest).authMessage
    v.length = (rest.drop 3).length ∨ (rest.drop 3 ++ alg.behind).take v.length = v → rest.drop 3 = v

instance (ses : SaslSession) (x : UserMgr × Bytes) : Decidable (Sound alg ses x) := inferInstanceAs (Decidable (_ ∧ _))

variable {alg client message}

theorem onServerFirst_rcode (h : (client.onServerFirst alg message).2.rcode ≠ .eArgs_Format) :
    (client.onServerFirst alg message).2.rcode = .needsMore ∧
      (client.onServerFirst alg message).2.info.head? = some (ch 'c') := by
  rw [onServerFirst] at h ⊢
  split at h
  · exact absurd rfl h
  · split at h
    · exact absurd rfl h
    · next saltedPass rest _ =>
      dsimp only at h ⊢
      by_cases hrest : rest ≠ []
      · rw [if_pos hrest] at h
        exact absurd rfl h
      · rw [if_neg hrest]
        refine ⟨rfl, ?_⟩
        dsimp only
        rw [finalMessage]
        split
        · rfl
        · rfl

theorem onVerifier_rcode (alg : Alg) (client : SaslScramClient) (message : Bytes) :
    (client.onVerifier alg message).2.rcode ≠ .needsMore ∧
      ((client.onVerifier alg message).2.rcode = .success ∨ (client.onVerifier alg message).2.rcode = .passChanged →
        message.drop 2 = alg.makeVerify client.saltedPass client.authMessage) := by
  rw [onVerifier]
  split
  · split
    · next heq =>
      refine ⟨?_, fun _ => heq⟩
      dsimp only
      split
      · exact fun h => by cases h
      · exact fun h => by cases h
    · exact ⟨by simp, by simp⟩
  · exact ⟨by simp, by simp⟩

variable {newSaltedPass rest : Bytes}

/-- The salt of a new password is answered unless its verifier is seen to be wrong. -/
theorem onNewSalt_reveals_iff :
    (client.onNewSalt alg message newSaltedPass rest).2.rcode = .needsMore ↔
      newSaltedPass.length = client.saltedPass.length ∧ HasVerifier rest ∧
        let v := alg.makeVerify client.saltedPass (client.withNewSalt message rest).authMessage
        (v.length = (rest.drop 3).length ∨ (rest.drop 3 ++ alg.behind).take v.length = v) := by
  rw [onNewSalt, HasVerifier]
  by_cases hsize : newSaltedPass.length ≠ client.saltedPass.length
  · rw [if_pos hsize]
    exact iff_of_false (fun h => by cases h) (fun h => hsize h.1)
  · rw [if_neg hsize]
    split
    · next hshape => exact iff_of_false (fun h => by cases h) (fun h => h.2.1 hshape)
    · next hshape =>
      dsimp only
      have hkept : (client.withNewSalt message rest).saltedPass = client.saltedPass := rfl
      rw [hkept]
      split
      · next hwrong => exact iff_of_false (fun h => by cases h) (fun h => h.2.2.elim hwrong.1 hwrong.2)
      · next hright =>
        refine iff_of_true rfl ⟨not_not.mp hsize, hshape, ?_⟩
        rw [not_and_or, not_not, not_not] at hright
        exact hright

theorem onNewSalt_rcode (alg : Alg) (client : SaslScramClient) (message newSaltedPass rest : Bytes) :
    (client.onNewSalt alg message newSaltedPass rest).2.rcode ≠ .success ∧
      (client.onNewSalt alg message newSaltedPass rest).2.rcode ≠ .passChanged := by
  rw [onNewSalt]
  split
  · exact ⟨by simp, by simp⟩
  · split
    · exact ⟨by simp, by simp⟩
    · dsimp only
      split
      · exact ⟨by simp, by simp⟩
      · exact ⟨by simp, by simp⟩

theorem onNewSalt_head (h : (client.onNewSalt alg message newSaltedPass rest).2.rcode = .needsMore) :
    (client.onNewSalt alg message newSaltedPass rest).2.info.head? = some (ch 'h') := by
  rw [onNewSalt] at h ⊢
  split at h
  · cases h
  · next hsize =>
    split at h
    · cases h
    · next hshape =>
      rw [if_neg hsize, if_neg hshape]
      dsimp only at h ⊢
      split at h
      · cases h
      · next hright =>
        rw [if_neg hright]
        rfl

/-- A message that is answered without a new salt is answered with care. -/
theorem verified_of_verifier {r : SaslScramClient × AuthR} (hchallenge : client.onChallenge alg message = r)
    (hrcode : r.2.rcode = .success ∨ r.2.rcode = .passChanged →
      message.drop 2 = alg.makeVerify client.saltedPass client.authMessage)
    (hreveals : ¬ (r.2.rcode = .needsMore ∧ r.2.info.head? = some (ch 'h'))) : Verified alg client message := by
  rw [Verified, Reports, Reveals, hchallenge]
  exact ⟨hrcode, fun h => absurd h hreveals⟩

theorem verified_of_not_s (hs : message.head? ≠ some (ch 's')) : Verified alg client message := by
  by_cases hr : message.head? = some (ch 'r')
  · refine verified_of_verifier (if_pos hr) (fun h => ?_) (fun h => ?_)
    · have hne : (client.onServerFirst alg message).2.rcode ≠ .eArgs_Format := by
        intro heq
        rw [heq] at h
        exact h.elim (fun h => by cases h) (fun h => by cases h)
      rw [(onServerFirst_rcode hne).1] at h
      exact h.elim (fun h => by cases h) (fun h => by cases h)
    · have hne : (client.onServerFirst alg message).2.rcode ≠ .eArgs_Format := by
        intro heq
        rw [heq] at h
        exact absurd h.1 (fun h => by cases h)
      rw [(onServerFirst_rcode hne).2] at h
      exact absurd h.2 (by decide)
  · by_cases hv : message.head? = some (ch 'h') ∨ message.head? = some (ch 'v')
    · have hchallenge : client.onChallenge alg message = client.onVerifier alg message := by
        rw [onChallenge, if_neg hr, if_neg hs, if_pos hv]
      have hverifier := onVerifier_rcode alg client message
      exact verified_of_verifier hchallenge hverifier.2 (fun h => hverifier.1 h.1)
    · by_cases he : message.head? = some (ch 'e')
      · have hchallenge : client.onChallenge alg message = (client, ⟨.eOther, message⟩) := by
          rw [onChallenge, if_neg hr, if_neg hs, if_neg hv, if_pos he]
        exact verified_of_verifier hchallenge (by simp) (by simp)
      · have hchallenge : client.onChallenge alg message = (client, ⟨.eArgs_Format, message⟩) := by
          rw [onChallenge, if_neg hr, if_neg hs, if_neg hv, if_neg he]
        exact verified_of_verifier hchallenge (by simp) (by simp)

/-- The client is careful with a message exactly when the message is checked. -/
theorem verified_iff_checked : Verified alg client message ↔ Checked alg client message := by
  by_cases hs : message.head? = some (ch 's')
  · have hr : message.head? ≠ some (ch 'r') := by
      rw [hs]
      decide
    cases hfind : client.findNewSalt alg message with
    | none =>
      have hchallenge : client.onChallenge alg message = client.onVerifier alg message := by
        rw [onChallenge, if_neg hr, if_pos hs, hfind]
      have hverifier := onVerifier_rcode alg client message
      refine iff_of_true (verified_of_verifier hchallenge hverifier.2 (fun h => hverifier.1 h.1)) (fun _ _ _ h => ?_)
      rw [hfind] at h
      cases h
    | some found =>
      obtain ⟨newSaltedPass, rest⟩ := found
      have hchallenge : client.onChallenge alg message = client.onNewSalt alg message newSaltedPass rest := by
        rw [onChallenge, if_neg hr, if_pos hs, hfind]
      constructor
      · rintro ⟨-, hreveals⟩ - newSaltedPass' rest' hfind' hsize hshape v haccepted
        rw [hfind] at hfind'
        cases hfind'
        have hmore := onNewSalt_reveals_iff.mpr ⟨hsize, hshape, haccepted⟩
        rw [Reveals, hchallenge] at hreveals
        obtain ⟨newSaltedPass', rest', hfind', -, hright⟩ := hreveals ⟨hmore, onNewSalt_head hmore⟩
        rw [hfind] at hfind'
        cases hfind'
        exact hright
      · intro hchecked
        rw [Verified, Reports, Reveals, hchallenge]
        have hrcode := onNewSalt_rcode alg client message newSaltedPass rest
        refine ⟨fun h => absurd h (not_or_intro hrcode.1 hrcode.2), fun h => ?_⟩
        obtain ⟨hsize, hshape, haccepted⟩ := onNewSalt_reveals_iff.mp h.1
        exact ⟨newSaltedPass, rest, hfind, hshape, hchecked hs newSaltedPass rest hfind hsize hshape haccepted⟩
  · exact iff_of_true (verified_of_not_s hs) (fun h => absurd h hs)

end Client

/-- An algorithm that adds bytes up. -/
def sumAlg : Alg where
  kOutputSize := 1
  hash := id
  hmac msg key := [msg.sum + key.sum]
  calcSaltedPassword pass salt _ := [pass.sum + salt.sum]
  behind := []
  kOutputSize_pos := by decide
  hmac_length _ _ := rfl
  calcSaltedPassword_length _ _ _ := rfl

def zeroNonce : Nonce := ⟨[ch '0'], by decide +kernel⟩

def zeroRandom : ServerRandom where
  nonce := zeroNonce
  salt _ := List.replicate 18 0
  salt_length _ := rfl

/-- Every id is that of one user, with the password `p`. -/
def oneUser : UserMgr where
  users _ := some { pass := { algParam := 7, salt := [1], saltedPass := [ch 'p' + 1] } }
  refuses _ _ := none

def noUser : UserMgr where
  users _ := none
  refuses _ _ := none

/-- Who is served, what the server proceeds past, and what the client trusts. -/
theorem scram_agrees (alg : Alg) (random : ServerRandom) :
    (∀ (m : UserMgr) (user : UserRec) (authz authc pass newPass : Bytes) (nonce : Nonce) (fuel : ℕ), ch ',' ∉ authz → ch ',' ∉ authc → 13 ∉ pass → m.users (userId authz authc) = some user →
      user.pass.saltedPass = alg.calcSaltedPassword pass user.pass.salt user.pass.algParam.toNat →
      (∀ rcode, rcode = .success ∨ rcode = .passChanged → m.refuses rcode ⟨authc, authz, user.roleId⟩ = none) →
      (converse alg random (fuel + 3) m {} (create authz authc (passText pass newPass) nonce)
        (create authz authc (passText pass newPass) nonce).clientFirstMessage = agreed alg random m user authz authc newPass ↔
        user.pass.Readable)) ∧
    (∀ inputs : List (UserMgr × Bytes), Along (SaslSession.receive alg random) (Sound alg) {} inputs →
      Along (SaslSession.receive alg random) (fun ses x => Proceeds alg ses.server x.2 → Proven alg random ses x) {} inputs) ∧
    (∀ (client : SaslScramClient) (messages : List Bytes),
      Along (fun client message => (client.onChallenge alg message).1) (Verified alg) client messages ↔
        Along (fun client message => (client.onChallenge alg message).1) (Checked alg) client messages) := by
  refine ⟨?_, fun inputs => along_proven alg random, fun client messages => ?_⟩
  · intro m user authz authc pass newPass nonce fuel hauthz hauthc hpass huser hstored haccepts
    exact converse_agreed_iff hauthz hauthc hpass huser hstored haccepts fuel
  · exact along_congr (I := fun _ => True) (fun _ _ _ => verified_iff_checked) (fun _ _ _ _ => trivial) trivial

theorem scram_agrees_sum :
    converse sumAlg zeroRandom 3 oneUser {} (create [] (text ['u']) (text ['p', '\r', 'q']) zeroNonce)
      (text ['n', ',', ',', 'n', '=', 'u', ',', 'r', '=', '0']) =
      agreed sumAlg zeroRandom oneUser { pass := { algParam := 7, salt := [1], saltedPass := [ch 'p' + 1] } } [] (text ['u'])
        (text ['q']) ∧
    Along (SaslSession.receive sumAlg zeroRandom)
      (fun ses x => Proceeds sumAlg ses.server x.2 → Proven sumAlg zeroRandom ses x) {}
      [(oneUser, text ['n', ',', ',', 'n', '=', 'u', ',', 'r', '=', '0']),
        (oneUser, text ['c', '=', 'b', 'i', 'w', 's', ',', 'r', '=', '0', '0', ',', 'p', '='])] ∧
    Along (fun client message => (client.onChallenge sumAlg message).1) (Verified sumAlg)
      (create [] (text ['u']) (text ['p']) zeroNonce) [text ['v', '=']] := by
  refine ⟨?_, ?_, ?_⟩
  · exact ((scram_agrees sumAlg zeroRandom).1 oneUser { pass := { algParam := 7, salt := [1], saltedPass := [ch 'p' + 1] } } []
      (text ['u']) (text ['p']) (text ['q']) zeroNonce 0 (by decide) (by decide) (by decide) rfl (by decide)
      (fun _ _ => rfl)).mpr (by decide)
  · exact (scram_agrees sumAlg zeroRandom).2.1 _ (by decide)
  · exact ((scram_agrees sumAlg zeroRandom).2.2 _ _).mpr ⟨fun h => absurd h (by decide), trivial⟩

/-- A client gets past the proof with none, where the user is not known. -/
theorem not_scram_agrees :
    ¬ ((∀ (alg : Alg) (random : ServerRandom) (m : UserMgr) (user : UserRec) (authz authc pass newPass : Bytes)
        (nonce : Nonce) (fuel : ℕ), ch ',' ∉ authz → ch ',' ∉ authc → 13 ∉ pass →
        m.users (userId authz authc) = some user →
        user.pass.saltedPass = alg.calcSaltedPassword pass user.pass.salt user.pass.algParam.toNat →
        (∀ rcode, rcode = .success ∨ rcode = .passChanged → m.refuses rcode ⟨authc, authz, user.roleId⟩ = none) →
        converse alg random (fuel + 3) m {} (create authz authc (passText pass newPass) nonce)
          (create authz authc (passText pass newPass) nonce).clientFirstMessage =
          agreed alg random m user authz authc newPass) ∧
      (∀ (alg : Alg) (random : ServerRandom) (inputs : List (UserMgr × Bytes)),
        Along (SaslSession.receive alg random) (fun ses x => Proceeds alg ses.server x.2 → Proven alg random ses x) {}
          inputs) ∧
      (∀ (alg : Alg) (client : SaslScramClient) (messages : List Bytes),
        Along (fun client message => (client.onChallenge alg message).1) (Verified alg) client messages)) := by
  rintro ⟨-, hproven, -⟩
  have hsession := hproven sumAlg zeroRandom
    [(noUser, text ['n', ',', ',', 'n', '=', 'a', ',', 'r', '=', 'x', 'x', 'x', 'x', 'x', 'x', ',', 'r']),
      (noUser, text ['x', 'x', 'x', 'x', 'x', 'x', ',', 'r', ',', ',', 's', '=', ',', 'p', '='])]
  obtain ⟨first, user, msg, hheard, ⟨_, _, _, _, _, -, -, -, huser, -⟩, -⟩ := hsession.2.1 (.inl ⟨by decide, by decide⟩)
  cases hheard
  cases huser

end Fon9.Auth
