import Fon9.Auth.Scram
import Fon9.Bitv.RoundTrip
import Fon9.Sch.Text
import Fon9.Seed.Acl
import Mathlib.Data.List.GetD

/-! Passwords that are kept behind a key. A new password gets a salt, whose first and last characters are those of the time of
the change. The password is padded behind a NUL, and combined with the salt; the key has the id and the salt, and it is not
saved with the record. -/

namespace Fon9.Auth.PassIdMgr

open Bitv Sch Lib Buffer List

def kPassKeyMaxLength : ℤ := 15
def kMinSaltedPass : ℕ := 64
def kCHAR_PassKeySpliter : UInt8 := ch '/'

/-! ### Characters -/

def seq2AlphaMap : Bytes := text "0123456789ABCDEFGHIJKLMNOPQRSTUVWXYZabcdefghijklmnopqrstuvwxyz".toList

def kSeq2AlphaSize : ℤ := 62

/-- What is in memory behind the map, for the numbers that are too high. -/
structure Memory where
  behind : UInt8 → UInt8

variable (mem : Memory)

def Memory.seq2Alpha (seq : UInt8) : UInt8 := (seq2AlphaMap[seq.toNat]?).getD (mem.behind seq)

def isprint (c : UInt8) : Bool := 0x20 ≤ c && c ≤ 0x7e

/-- `RandomChars` and `RandomBytes`, as the calls of one command get them. -/
structure Random where
  saltChars : (size : ℕ) → { s : Bytes // s.length = size ∧ ∀ c ∈ s, c ∈ randomChs }
  passChars : (size : ℕ) → { s : Bytes // s.length = size ∧ ∀ c ∈ s, c ∈ randomChs }
  padding : (size : ℕ) → { s : Bytes // s.length = size }

/-! ### Records -/

/-- `ChangedTime_` in microseconds. `PassKey_` is not saved. -/
structure PassIdRec where
  saltedPass : Bytes := []
  changedTime : IntType.int64.Val := IntType.int64.cast (origNull .int64)
  passKey : Bytes := []

/-- The id, the version, and the two fields that are saved. -/
def rowTy : Ty := .pair .str (.pair (.int .uint32) (.pair .str .timeStamp))

def rowOf (policyId : Bytes) (rec : PassIdRec) : rowTy.Val :=
  (policyId, IntType.uint32.cast 0, rec.saltedPass, rec.changedTime)

/-- A row that is loaded into a new record. -/
def loadRow {Q : Type} [DcQueue Q] (buf : Q) : Except BitvError ((Bytes × PassIdRec) × Q) :=
  (bitvTo (fun _ _ _ => false) rowTy buf).map fun r =>
    ((r.1.1, { saltedPass := r.1.2.2.1, changedTime := r.1.2.2.2 }), r.2)

/-! ### Encoding -/

def saltAt (salt : Bytes) (saltIdx : ℕ) : UInt8 := salt.getD (saltIdx % salt.length) 0

/-- The loop of `EncodePass`. -/
def encodePass (salt : Bytes) : ℕ → Bytes → Bytes
  | _, [] => []
  | saltIdx, c :: cs => (c ^^^ saltAt salt saltIdx) :: encodePass salt (saltIdx + 1) cs

/-- The loop of `DecodePass`, with what it makes of `password`. -/
def decodePass (salt : Bytes) : ℕ → Bytes → Bool × Bytes
  | _, [] => (true, [])
  | saltIdx, c :: cs =>
    let c := c ^^^ saltAt salt saltIdx
    if c = 0 then (true, [])
    else if isprint c then
      let r := decodePass salt (saltIdx + 1) cs
      (r.1, c :: r.2)
    else (false, c :: cs)

/-- The characters of a time: the first, the last but one and the last of its salt. -/
structure SaltChk where
  first : UInt8
  beforeLast : UInt8
  last : UInt8

def saltChk (mem : Memory) (changedTime : ℤ) : SaltChk :=
  let alpha := fun (saltChk : ℤ) => mem.seq2Alpha (UInt8.ofInt (saltChk.tmod kSeq2AlphaSize))
  { last := alpha changedTime
    beforeLast := alpha (changedTime.tdiv kSeq2AlphaSize)
    first := alpha ((changedTime.tdiv kSeq2AlphaSize).tdiv kSeq2AlphaSize) }

/-! ### Commands -/

inductive Response
  | noError (msg : Bytes)
  | valueOverflow (msg : Bytes)
  | notSupportedCmd (cmd : Bytes)
  /-- An exception: the password is too long to be kept or saved. -/
  | raised
  deriving DecidableEq

/-- The first word, and what follows without the blanks around it. -/
def fetchCmd (cmdln : Bytes) : Bytes × Bytes :=
  let cmdln := cmdln.dropWhile isspace
  (cmdln.takeWhile fun c => !isspace c,
    ((cmdln.dropWhile fun c => !isspace c).drop 1).dropWhile isspace |>.rdropWhile isspace)

variable (rnd : Random) (policyId : Bytes) (now : IntType.int64.Val)

/-- The password that a command line gives. -/
def newPassOf (cmdln : Bytes) : Bytes :=
  if cmdln = [] then (rnd.passChars 12).1 else ((sbrFetchInsideNoTrim cmdln StrBrArg.quotation_).1).getD cmdln

def saltSize : ℤ := kPassKeyMaxLength - (policyId.length + 1)

def saltStrOf (changedTime : ℤ) : Bytes :=
  let chk := saltChk mem changedTime
  chk.first :: ((rnd.saltChars ((saltSize policyId).toNat - 3)).1 ++ [chk.beforeLast, chk.last])

/-- The password with a NUL and bytes behind it, where it is short. -/
def padPass (newPass : Bytes) : Bytes :=
  if newPass.length < kMinSaltedPass then newPass ++ 0 :: (rnd.padding (kMinSaltedPass - (newPass.length + 1))).1 else newPass

/-- `repw` behind the check of the id. -/
def repwRec (policyId newPass : Bytes) : PassIdRec :=
  let saltStr := saltStrOf mem rnd policyId now.1
  { saltedPass := encodePass saltStr 0 (padPass rnd newPass)
    changedTime := now
    passKey := policyId ++ kCHAR_PassKeySpliter :: saltStr }

def onSeedCommand (policyId : Bytes) (rec : PassIdRec) (cmdln : Bytes) : Response × PassIdRec :=
  let cmd := fetchCmd cmdln
  if cmd.1 = text "repw".toList then
    if saltSize policyId < 3 then (.valueOverflow (text "passId too long".toList), rec)
    else
      let newPass := newPassOf rnd cmd.2
      let rec' := repwRec mem rnd now policyId newPass
      if 2 ^ 32 ≤ newPass.length then (.raised, { rec with changedTime := now })
      else if kBitvMaxByteArraySize < newPass.length then (.raised, rec')
      else
        let msg := text "The new password=".toList ++ newPass ++ text "\nPassKey=".toList ++ rec'.passKey
        (.noError msg, rec')
  else if cmd.1 = text "?".toList then
    (.noError (text "repw\x01Reset password\x01[NewPass] or Random new password.".toList), rec)
  else (.notSupportedCmd cmd.1, rec)

/-! ### GetPass -/

def getPass (table : Bytes → Option PassIdRec) (passKey password : Bytes) : Bool × Bytes :=
  let r := strFetchTrim passKey kCHAR_PassKeySpliter
  match table r.1 with
  | none => (false, password)
  | some rec =>
    let chk := saltChk mem rec.changedTime.1
    if r.2.length < 3 then (false, password)
    else if r.2.getD (r.2.length - 1) 0 ≠ chk.last then (false, password)
    else if r.2.getD (r.2.length - 2) 0 ≠ chk.beforeLast then (false, password)
    else if r.2.getD 0 0 ≠ chk.first then (false, password)
    else decodePass r.2 0 rec.saltedPass

/-! ### A password that comes back -/

/-- In every table with the record, the key gives the password. -/
def ReadsBack (rec : PassIdRec) (passKey newPass : Bytes) : Prop :=
  ∀ (table : Bytes → Option PassIdRec) (password : Bytes), table policyId = some rec →
    getPass mem table passKey password = (true, newPass)

/-- The row that `WriteUpdated` writes gives a record with the same password. -/
def LoadsBack (rec : PassIdRec) (newPass : Bytes) : Prop :=
  ∀ (blockRoom : ℕ → ℕ) (reserved : ℕ) (tail : Bytes) (buf : DcQueueList),
    buf.Holds ((toBitv blockRoom rowTy (rowOf policyId rec) ⟨reserved, []⟩).content ++ tail) →
      ∃ rec' buf', loadRow buf = .ok ((policyId, rec'), buf') ∧ ReadsBack mem policyId rec' rec.passKey newPass

/-- The command is refused and the record is left, or the password comes back. -/
def KeepsPass (policyId : Bytes) (rec : PassIdRec) (cmdln : Bytes) :
    Prop :=
  let out := onSeedCommand mem rnd now policyId rec cmdln
  let newPass := newPassOf rnd (fetchCmd cmdln).2
  (∃ msg, out.1 = .valueOverflow msg ∧ out.2 = rec) ∨
    ∃ msg, out.1 = .noError msg ∧ ReadsBack mem policyId out.2 out.2.passKey newPass ∧ LoadsBack mem policyId out.2 newPass

section Encoding

variable {salt pass rest : Bytes} {saltIdx : ℕ}

theorem xor_cancel (c k : UInt8) : c ^^^ k ^^^ k = c := by
  rw [UInt8.xor_assoc, UInt8.xor_self, UInt8.xor_zero]

/-- Printable characters come back, and the rest is read behind them. -/
theorem decodePass_append (hprint : ∀ c ∈ pass, isprint c = true) (saltIdx : ℕ) :
    decodePass salt saltIdx (encodePass salt saltIdx (pass ++ rest)) =
      ((decodePass salt (saltIdx + pass.length) (encodePass salt (saltIdx + pass.length) rest)).1,
        pass ++ (decodePass salt (saltIdx + pass.length) (encodePass salt (saltIdx + pass.length) rest)).2) := by
  induction pass generalizing saltIdx with
  | nil => rfl
  | cons c cs ih =>
    have hc := hprint c mem_cons_self
    have hzero : c ≠ 0 := by
      rintro rfl
      exact absurd hc (by decide)
    rw [cons_append, encodePass, decodePass, xor_cancel]
    dsimp only
    rw [if_neg hzero, if_pos hc, ih (fun c hmem => hprint c (mem_cons_of_mem _ hmem))]
    rw [length_cons, add_assoc, add_comm 1]
    rfl

theorem decodePass_padPass (hprint : ∀ c ∈ pass, isprint c = true) (rnd : Random) :
    decodePass salt 0 (encodePass salt 0 (padPass rnd pass)) = (true, pass) := by
  unfold padPass
  split_ifs
  · rw [decodePass_append hprint, encodePass, decodePass, xor_cancel]
    dsimp only
    rw [if_pos rfl, append_nil]
  · have hall := @decodePass_append salt pass [] hprint 0
    rw [append_nil, encodePass, decodePass, append_nil] at hall
    exact hall

/-- What comes back has only printable characters. -/
theorem printable_of_decodePass (h : decodePass salt saltIdx (encodePass salt saltIdx (pass ++ rest)) = (true, pass)) :
    ∀ c ∈ pass, isprint c = true := by
  induction pass generalizing saltIdx with
  | nil =>
    intro c hc
    cases hc
  | cons c cs ih =>
    rw [cons_append, encodePass, decodePass, xor_cancel] at h
    dsimp only at h
    split_ifs at h with hzero hprint
    · cases h
    · have htail := Prod.ext_iff.mp h
      have hcs : decodePass salt (saltIdx + 1) (encodePass salt (saltIdx + 1) (cs ++ rest)) = (true, cs) :=
        Prod.ext htail.1 (List.cons.inj htail.2).2
      intro d hd
      rcases mem_cons.mp hd with rfl | hd
      · exact hprint
      · exact ih hcs d hd
    · cases h

theorem length_encodePass (salt : Bytes) (saltIdx : ℕ) (pass : Bytes) :
    (encodePass salt saltIdx pass).length = pass.length := by
  induction pass generalizing saltIdx with
  | nil => rfl
  | cons c cs ih => rw [encodePass, length_cons, length_cons, ih]

end Encoding

section Command

variable {mem : Memory} {rnd : Random} {now : IntType.int64.Val} {policyId newPass passKey : Bytes} {rec : PassIdRec}
  {cmdln : Bytes} {table : Bytes → Option PassIdRec} {password : Bytes}

/-- The key is split at the id where the id has no blanks at its ends and no separator. -/
theorem strFetchTrim_passKey (hid : Trimmed isspace policyId) (hsplit : kCHAR_PassKeySpliter ∉ policyId) (salt : Bytes) :
    strFetchTrim (policyId ++ kCHAR_PassKeySpliter :: salt) kCHAR_PassKeySpliter = (policyId, salt) := by
  cases policyId with
  | nil => rfl
  | cons c cs => exact strFetchTrim_append hid (cons_ne_nil _ _) hsplit salt

theorem ends_of_salt (first beforeLast last : UInt8) (between : Bytes) :
    (first :: (between ++ [beforeLast, last])).length = between.length + 3 ∧
      (first :: (between ++ [beforeLast, last])).getD (between.length + 2) 0 = last ∧
        (first :: (between ++ [beforeLast, last])).getD (between.length + 1) 0 = beforeLast := by
  refine ⟨by simp, ?_, ?_⟩
  · rw [getD_cons_succ, getD_append_right _ _ _ _ (by omega), Nat.add_sub_cancel_left]
    rfl
  · rw [getD_cons_succ, getD_append_right _ _ _ _ (by omega), Nat.sub_self]
    rfl

/-- The three characters of the salt are those of the time. -/
theorem getPass_split (htable : table policyId = some rec) (htime : rec.changedTime = now)
    (hid : Trimmed isspace policyId) (hspliter : kCHAR_PassKeySpliter ∉ policyId) :
    getPass mem table (repwRec mem rnd now policyId newPass).passKey password =
      decodePass (saltStrOf mem rnd policyId now.1) 0 rec.saltedPass := by
  obtain ⟨hlen, hlast, hbefore⟩ := ends_of_salt (saltChk mem now.1).first (saltChk mem now.1).beforeLast
    (saltChk mem now.1).last (rnd.saltChars ((saltSize policyId).toNat - 3)).1
  unfold getPass repwRec
  dsimp only
  rw [strFetchTrim_passKey hid hspliter]
  dsimp only
  rw [htable]
  dsimp only
  rw [htime, if_neg, if_neg, if_neg, if_neg]
  · exact not_not.mpr rfl
  · rw [saltStrOf, hlen]
    exact not_not.mpr hbefore
  · rw [saltStrOf, hlen]
    exact not_not.mpr hlast
  · rw [saltStrOf, hlen]
    omega

/-- An id that the key can be split at, and a password that can be read. -/
structure Readable (policyId newPass : Bytes) : Prop where
  trimmed : Trimmed isspace policyId
  spliter : kCHAR_PassKeySpliter ∉ policyId
  printable : ∀ c ∈ newPass, isprint c = true

/-- A record with the password and the time of a change, whether it was loaded or not. -/
theorem readsBack_of_readable (h : Readable policyId newPass)
    (hpass : rec.saltedPass = (repwRec mem rnd now policyId newPass).saltedPass) (htime : rec.changedTime = now) :
    ReadsBack mem policyId rec (repwRec mem rnd now policyId newPass).passKey newPass := by
  intro table password htable
  rw [getPass_split htable htime h.trimmed h.spliter, hpass]
  exact decodePass_padPass h.printable rnd

theorem readable_of_readsBack (h : ReadsBack mem policyId (repwRec mem rnd now policyId newPass)
    (repwRec mem rnd now policyId newPass).passKey newPass) : Readable policyId newPass := by
  -- A table with this record only: the id that the key is split at is its id.
  have honly := h (fun id => if id = policyId then some (repwRec mem rnd now policyId newPass) else none) [] (if_pos rfl)
  have hfetch : (strFetchTrim (repwRec mem rnd now policyId newPass).passKey kCHAR_PassKeySpliter).1 = policyId := by
    by_contra hne
    unfold getPass at honly
    dsimp only at honly
    rw [if_neg hne] at honly
    cases honly
  have htrimmed := trimmed_strFetchTrim (repwRec mem rnd now policyId newPass).passKey kCHAR_PassKeySpliter
  have hspliter := notMem_strFetchTrim (repwRec mem rnd now policyId newPass).passKey kCHAR_PassKeySpliter
  rw [hfetch] at htrimmed hspliter
  refine ⟨htrimmed, hspliter, ?_⟩
  have hdecode := @getPass_split mem rnd now policyId newPass (repwRec mem rnd now policyId newPass)
    (fun id => if id = policyId then some (repwRec mem rnd now policyId newPass) else none) [] (if_pos rfl) rfl htrimmed
    hspliter
  rw [hdecode] at honly
  change decodePass _ 0 (encodePass _ 0 (padPass rnd newPass)) = _ at honly
  unfold padPass at honly
  split_ifs at honly
  · exact printable_of_decodePass honly
  · exact @printable_of_decodePass _ newPass [] 0 (by rwa [append_nil])

/-- The row of a record gives the record back, with its key left out. -/
theorem loadsBack_of_readsBack (hid : policyId.length ≤ kBitvMaxByteArraySize)
    (hpass : rec.saltedPass.length ≤ kBitvMaxByteArraySize)
    (h : ReadsBack mem policyId { saltedPass := rec.saltedPass, changedTime := rec.changedTime } rec.passKey newPass) :
    LoadsBack mem policyId rec newPass := by
  intro blockRoom reserved tail buf hholds
  have hvalid : rowTy.Valid (fun _ _ _ => false) (rowOf policyId rec) := ⟨hid, trivial, hpass, trivial⟩
  obtain ⟨buf', hload, -⟩ := (bitvTo_toBitv blockRoom _ rowTy ⟨_, hvalid⟩).1 _ _ _ hholds
  refine ⟨_, buf', ?_, h⟩
  rw [loadRow, hload]
  rfl

theorem length_padPass_le (hlen : newPass.length ≤ kBitvMaxByteArraySize) :
    (padPass rnd newPass).length ≤ kBitvMaxByteArraySize := by
  unfold padPass
  split_ifs with hshort
  · rw [length_append, length_cons, (rnd.padding _).2]
    rw [kMinSaltedPass] at hshort ⊢
    rw [kBitvMaxByteArraySize]
    omega
  · exact hlen

/-- A new password comes back if and only if the key can be split at the id, and the password is printable and not too
long. -/
theorem repw_keepsPass_iff (mem : Memory) (rnd : Random) (now : IntType.int64.Val) (policyId : Bytes) (rec : PassIdRec)
    (cmdln : Bytes) (hrepw : (fetchCmd cmdln).1 = text "repw".toList) :
    KeepsPass mem rnd now policyId rec cmdln ↔ saltSize policyId < 3 ∨
      Readable policyId (newPassOf rnd (fetchCmd cmdln).2) ∧
        (newPassOf rnd (fetchCmd cmdln).2).length ≤ kBitvMaxByteArraySize := by
  unfold KeepsPass onSeedCommand
  dsimp only
  rw [if_pos hrepw]
  by_cases hsize : saltSize policyId < 3
  · rw [if_pos hsize]
    exact iff_of_true (Or.inl ⟨_, rfl, rfl⟩) (Or.inl hsize)
  rw [if_neg hsize, or_iff_right hsize]
  generalize newPassOf rnd (fetchCmd cmdln).2 = newPass
  have hmax : kBitvMaxByteArraySize < 2 ^ 32 := by decide
  by_cases hlen : newPass.length ≤ kBitvMaxByteArraySize
  · rw [if_neg (by omega), if_neg (by omega), and_iff_left hlen]
    constructor
    · rintro (⟨msg, hmsg, -⟩ | ⟨msg, -, hreads, -⟩)
      · cases hmsg
      · exact readable_of_readsBack hreads
    · intro h
      refine Or.inr ⟨_, rfl, readsBack_of_readable h rfl rfl, loadsBack_of_readsBack ?_ ?_ (readsBack_of_readable h rfl rfl)⟩
      · rw [saltSize, kPassKeyMaxLength] at hsize
        rw [kBitvMaxByteArraySize]
        omega
      · exact (length_encodePass _ _ _).trans_le (length_padPass_le hlen)
  · refine iff_of_false ?_ (fun h => hlen h.2)
    split_ifs with hbad hlong
    · rintro (⟨msg, hmsg, -⟩ | ⟨msg, hmsg, -⟩)
      · cases hmsg
      · cases hmsg
    · rintro (⟨msg, hmsg, -⟩ | ⟨msg, hmsg, -⟩)
      · cases hmsg
      · cases hmsg
    · omega

/-- All characters are `0`, and the padding is zeros. -/
def zeros : Random where
  saltChars size := ⟨List.replicate size (ch '0'), List.length_replicate, fun c hc => by
    rw [List.eq_of_mem_replicate hc]
    decide⟩
  passChars size := ⟨List.replicate size (ch '0'), List.length_replicate, fun c hc => by
    rw [List.eq_of_mem_replicate hc]
    decide⟩
  padding size := ⟨List.replicate size 0, List.length_replicate⟩

theorem repw_keepsPass_iff_text :
    KeepsPass ⟨fun _ => 0⟩ zeros (IntType.int64.cast 1) [65] {} (text "repw abc".toList) := by
  refine (repw_keepsPass_iff _ _ _ _ _ _ (by decide)).mpr (Or.inr ⟨⟨⟨?_, ?_⟩, ?_, ?_⟩, ?_⟩)
  · rintro c ⟨⟩
    rfl
  · rintro c ⟨⟩
    rfl
  · decide
  · have hprint : (newPassOf zeros (fetchCmd (text "repw abc".toList)).2).all isprint = true := by decide
    exact List.all_eq_true.mp hprint
  · have hpass : newPassOf zeros (fetchCmd (text "repw abc".toList)).2 = text "abc".toList := by decide
    rw [hpass]
    decide

/-- A password with a tab is taken, and its key gives nothing. -/
theorem not_repw_keepsPass : ¬ ∀ (mem : Memory) (rnd : Random) (now : IntType.int64.Val) (policyId : Bytes) (rec : PassIdRec)
    (cmdln : Bytes), (fetchCmd cmdln).1 = text "repw".toList → KeepsPass mem rnd now policyId rec cmdln := by
  intro h
  have hkeeps := h ⟨fun _ => 0⟩ zeros (IntType.int64.cast 1) [65] {} (text "repw \"a\tb\"".toList) (by decide)
  rcases hkeeps with ⟨msg, hmsg, -⟩ | ⟨msg, -, hreads, -⟩
  · unfold onSeedCommand at hmsg
    dsimp only at hmsg
    rw [if_pos (by decide), if_neg (by decide), if_neg (by decide), if_neg (by decide)] at hmsg
    cases hmsg
  · have hpass := hreads (fun _ => some _) [] rfl
    revert hpass
    decide +kernel

end Command

end Fon9.Auth.PassIdMgr
