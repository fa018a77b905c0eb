import Fon9.Fix.Fields

/-! Parsing inverts building. A built message is read back with its fields, whatever
follows it, and every shorter prefix of it asks for more. -/

namespace Fon9.Fix

open Lib List

/-- What the parser can read back as the value of a field after the fields `done`:
text without a separator; for RawData after a RawDataLength, a text of the length
that the first RawDataLength says. -/
def ValueOk (done : List (ℕ × Bytes)) (f : ℕ × Bytes) : Prop :=
  match if f.1 = kTagRawData then (valuesOf kTagRawDataLength done).head? else none with
  | none => kCharSpl ∉ f.2
  | some len => (strToUInt uint32Max len uint32Max).1 = f.2.length

/-- The field lists that the parser can hold. -/
structure Parseable (fields : List (ℕ × Bytes)) : Prop where
  tag_pos : ∀ f ∈ fields, f.1 ≠ 0
  tag_le : ∀ f ∈ fields, f.1 ≤ uint32Max
  value : ∀ done f todo, fields = done ++ f :: todo → ValueOk done f
  dup : ∀ tag, (valuesOf tag fields).length ≤ kMaxDupFieldCount + 1
  blocks : (dupTags fields).length ≤ kMaxDupTags

theorem length_valuesOf_le (tag : ℕ) (fields : List (ℕ × Bytes)) :
    (valuesOf tag fields).length ≤ fields.length := by
  rw [valuesOf, length_map]
  exact length_filter_le _ _

variable {fields : List (ℕ × Bytes)}

/-- A few fields without RawData are parseable. -/
theorem Parseable.of_plain (hlen : fields.length ≤ kMaxDupFieldCount + 1)
    (h : ∀ f ∈ fields, f.1 ≠ 0 ∧ f.1 ≤ uint32Max ∧ f.1 ≠ kTagRawData ∧ kCharSpl ∉ f.2) :
    Parseable fields := by
  refine ⟨fun f hf => (h f hf).1, fun f hf => (h f hf).2.1, ?_, ?_, ?_⟩
  · rintro done f todo rfl
    obtain ⟨-, -, hraw, hspl⟩ := h f (by simp)
    rwa [ValueOk, if_neg hraw]
  · exact fun tag => (length_valuesOf_le tag fields).trans hlen
  · have hd : (dupTags fields).length ≤ fields.length := by
      apply (length_filter_le _ _).trans
      exact (dedup_sublist _).length_le.trans (by simp)
    exact hd.trans (hlen.trans (by decide))

theorem fieldsText_cons (f : ℕ × Bytes) (fields : List (ℕ × Bytes)) :
    fieldsText (f :: fields) =
      kCharSpl :: (uintToStr f.1 ++ ch '=' :: (f.2 ++ fieldsText fields)) := by
  simp [fieldsText, fieldText]

theorem fieldsText_nil_or_cons (fields : List (ℕ × Bytes)) :
    fieldsText fields = [] ∨ fieldsText fields = kCharSpl :: (fieldsText fields).drop 1 := by
  cases fields with
  | nil => exact .inl rfl
  | cons f fields => right; rw [fieldsText_cons]; rfl

theorem strFetchNoTrim_fieldsText {value : Bytes} (h : kCharSpl ∉ value) (todo : List (ℕ × Bytes)) :
    strFetchNoTrim (value ++ fieldsText todo) kCharSpl = (value, (fieldsText todo).drop 1) := by
  obtain hnil | hcons := fieldsText_nil_or_cons todo
  · rw [hnil, append_nil, strFetchNoTrim_all value h]
    rfl
  · rw [hcons, strFetchNoTrim_append value _ h]
    rfl

/-- A number in front of a text that does not start with a digit. -/
theorem strToUInt_of_head {n : ℕ} (hn : n ≤ uint32Max) {c : UInt8} (hc : ¬ digval c ≤ 9)
    (rest : Bytes) (null : ℕ) :
    strToUInt uint32Max (uintToStr n ++ c :: rest) null = (n, c :: rest) :=
  strToUInt_uintToStr hn _ null (by simpa using hc)

namespace FixParser

variable {p : FixParser} {done todo : List (ℕ × Bytes)} {tag : ℕ} {value after : Bytes}

theorem fetchValue_eq (hraw : (p.getField kTagRawDataLength).map FixField.value =
      (valuesOf kTagRawDataLength done).head?)
    (hv : ValueOk done (tag, value)) (hafter : after.head? = some kCharSpl) :
    p.fetchValue tag ⟨value ++ fieldsText todo, after⟩ = .ok (value, (fieldsText todo).drop 1) := by
  unfold fetchValue
  by_cases ht : tag = kTagRawData
  · rw [if_neg (not_not.mpr ht)]
    rw [ValueOk, if_pos ht, ← hraw] at hv
    cases hf : p.getField kTagRawDataLength with
    | none =>
      rw [hf] at hv
      exact congrArg Except.ok (strFetchNoTrim_fieldsText hv todo)
    | some fld =>
      rw [hf] at hv
      have hlen : (strToUInt uint32Max fld.value uint32Max).1 = value.length := hv
      simp only [hlen, length_append, append_assoc]
      rw [if_neg (by omega), if_neg]
      · simp
      · rw [not_not, drop_left]
        obtain hnil | hcons := fieldsText_nil_or_cons todo
        · rw [hnil]; exact hafter
        · rw [hcons]; rfl
  · rw [if_pos ht]
    rw [ValueOk, if_neg ht] at hv
    exact congrArg Except.ok (strFetchNoTrim_fieldsText hv todo)

/-- A field at the front of the text is stored. -/
theorem parseField_eq (h : p.Stored done) (hpos : tag ≠ 0) (hle : tag ≤ uint32Max)
    (hv : ValueOk done (tag, value)) (hafter : after.head? = some kCharSpl)
    (hdup : (valuesOf tag done).length ≤ kMaxDupFieldCount) :
    p.parseField ⟨uintToStr tag ++ ch '=' :: (value ++ fieldsText todo), after⟩ =
      (p.store tag value, ⟨(fieldsText todo).drop 1, after⟩, .ok tag) := by
  unfold parseField
  rw [strToUInt_of_head hle (by decide)]
  have hraw : ((p.nextSlot tag).getField kTagRawDataLength).map FixField.value =
      (valuesOf kTagRawDataLength done).head? := by
    rw [nextSlot_getField, h.getField]
  have hfetch : (p.nextSlot tag).fetchValue tag ⟨value ++ fieldsText todo, after⟩ =
      .ok (value, (fieldsText todo).drop 1) := fetchValue_eq hraw hv hafter
  simp only [List.head?_cons, ne_eq, not_true_eq_false, or_false, if_neg hpos, drop_succ_cons,
    List.drop_zero, h.count]
  rw [if_neg (by omega), hfetch]
  rfl

theorem Stored.parseFieldsEnd (h : p.Stored done) : p.parseFieldsEnd.Stored done := by
  obtain ⟨dups, hs⟩ := h.slots
  exact ⟨h.list, h.count, h.tag, h.value, dups, hs.nodup, hs.mem, hs.next, hs.block⟩

/-- The loop reads the fields one by one to the end of the text. -/
theorem parseFieldsLoop_stored (hafter : after.head? = some kCharSpl) (fuel : ℕ)
    (h : p.Stored done) (hf : Parseable (done ++ todo))
    (hfuel : ((fieldsText todo).drop 1).length ≤ fuel) :
    ∃ p', parseFieldsLoop fuel p ⟨(fieldsText todo).drop 1, after⟩ .fullMessage =
      (p', ⟨[], after⟩, .parseEnd) ∧ p'.Stored (done ++ todo) ∧
        p'.expectHeader = p.expectHeader ∧ p'.expectSize = p.expectSize := by
  induction todo generalizing p done fuel with
  | nil =>
    refine ⟨p.parseFieldsEnd, ?_, by simpa using h.parseFieldsEnd, rfl, rfl⟩
    cases fuel with
    | zero => rfl
    | succ fuel => rfl
  | cons f todo ih =>
    obtain ⟨tag, value⟩ := f
    have htext : (fieldsText ((tag, value) :: todo)).drop 1 =
        uintToStr tag ++ ch '=' :: (value ++ fieldsText todo) := by
      rw [fieldsText_cons]
      rfl
    rw [htext] at hfuel ⊢
    have hmem : (tag, value) ∈ done ++ (tag, value) :: todo := by simp
    have hdup := hf.dup tag
    have hsplit : done ++ (tag, value) :: todo = (done ++ [(tag, value)]) ++ todo := by simp
    rw [hsplit, valuesOf_append, valuesOf_append_self, length_append, length_append,
      length_singleton] at hdup
    have hfree : (valuesOf tag done).length ≤ kMaxDupFieldCount := by omega
    have hstep : p.parseField ⟨uintToStr tag ++ ch '=' :: (value ++ fieldsText todo), after⟩ =
        (p.store tag value, ⟨(fieldsText todo).drop 1, after⟩, .ok tag) :=
      parseField_eq h (hf.tag_pos _ hmem) (hf.tag_le _ hmem) (hf.value done _ todo rfl) hafter hfree
    have hstored : (p.store tag value).Stored (done ++ [(tag, value)]) := by
      apply h.store
      · intro t
        have := hf.dup t
        rw [hsplit, valuesOf_append, length_append] at this
        omega
      · apply le_trans _ hf.blocks
        apply List.Subperm.length_le
        apply (nodup_dupTags _).subperm
        intro t ht
        rw [mem_dupTags] at ht ⊢
        rw [hsplit, valuesOf_append, length_append]
        omega
    cases fuel with
    | zero =>
      have := uintToStr_ne_nil tag
      simp [this] at hfuel
    | succ fuel =>
      have hrest : ((fieldsText todo).drop 1).length ≤ fuel := by
        simp only [length_append, length_cons, length_drop] at hfuel ⊢
        omega
      obtain ⟨p', hloop, hp', hheader, hsize⟩ := ih fuel hstored (by rwa [← hsplit]) hrest
      refine ⟨p', ?_, by rwa [hsplit], by rw [hheader, store_expectHeader],
        by rw [hsize, store_expectSize]⟩
      rw [parseFieldsLoop, if_neg (by simp), hstep]
      exact hloop

/-! ### Finding the header and the length -/

/-- A header "8=x|9=" of any version `x`. -/
def IsBeginHeader (beginHeader : Bytes) : Prop := ∃ x, kCharSpl ∉ x ∧ beginHeader = kBeginHeader x

theorem isBeginHeader_V44 : IsBeginHeader kBeginHeaderV44 := ⟨_, by decide, rfl⟩

theorem isBeginHeader_V42 : IsBeginHeader kBeginHeaderV42 := ⟨_, by decide, rfl⟩

theorem dropWhile_ne_append {c : UInt8} {x : Bytes} (h : c ∉ x) (rest : Bytes) :
    (x ++ c :: rest).dropWhile (fun b => decide (b ≠ c)) = c :: rest := by
  have hall : ∀ b ∈ x, decide (b ≠ c) = true := fun b hb => by
    simp only [decide_eq_true_eq]
    rintro rfl
    exact h hb
  rw [dropWhile_append_of_pos hall, dropWhile_cons_of_neg (by simp)]

variable {beginHeader rest : Bytes}

theorem verifyHeader_known (h : p.expectHeader = beginHeader) (hne : beginHeader ≠ [])
    (hlen : kFixTailWidth < rest.length) :
    p.verifyHeader (beginHeader ++ rest) true = ({ p with expectHeader := beginHeader }, .ok rest) := by
  have hpos : 0 < beginHeader.length := length_pos_iff.mpr hne
  subst h
  unfold verifyHeader
  simp only [gt_iff_lt, hpos, if_true, length_append, take_left, drop_left]
  rw [if_neg (by omega), if_neg (by simp)]

theorem verifyHeader_unknown (h : p.expectHeader = []) (hb : IsBeginHeader beginHeader)
    (hlen : kFixMinHeaderWidth + kFixTailWidth < (beginHeader ++ rest).length) (v : Bool) :
    p.verifyHeader (beginHeader ++ rest) v = ({ p with expectHeader := beginHeader }, .ok rest) := by
  obtain ⟨x, hx, rfl⟩ := hb
  have htext : kBeginHeader x ++ rest =
      ch '8' :: ch '=' :: (x ++ kCharSpl :: ch '9' :: ch '=' :: rest) := by simp [kBeginHeader]
  unfold verifyHeader
  rw [h]
  simp only [length_nil, gt_iff_lt, lt_irrefl, if_false, not_le.mpr hlen]
  rw [htext, if_neg (by simp)]
  simp only [drop_succ_cons, List.drop_zero, dropWhile_ne_append hx]
  rw [if_neg (by simp)]
  have htake : (ch '8' :: ch '=' :: (x ++ kCharSpl :: ch '9' :: ch '=' :: rest)).take (x.length + 3 + 1 + 1) =
      ch '8' :: ch '=' :: (x ++ [kCharSpl, ch '9', ch '=']) := by
    rw [take_succ_cons, take_succ_cons, take_length_add_append]
    rfl
  congr 2
  refine Eq.trans ?_ (htake.trans (by simp [kBeginHeader]))
  congr 1
  simp only [length_cons, length_append]
  omega

/-- A known header, or one that can be found. -/
def HeaderOk (p : FixParser) (beginHeader rest : Bytes) : Prop :=
  (p.expectHeader = beginHeader ∧ beginHeader ≠ [] ∧ kFixTailWidth < rest.length) ∨
    (p.expectHeader = [] ∧ IsBeginHeader beginHeader ∧
      kFixMinHeaderWidth + kFixTailWidth < (beginHeader ++ rest).length)

theorem verifyHeader_eq (h : HeaderOk p beginHeader rest) :
    p.verifyHeader (beginHeader ++ rest) true = ({ p with expectHeader := beginHeader }, .ok rest) := by
  obtain ⟨h1, h2, h3⟩ | ⟨h1, h2, h3⟩ := h
  · exact verifyHeader_known h1 h2 h3
  · exact verifyHeader_unknown h1 h2 h3 true

/-- The check sum field of a message. -/
def messageTail (beginHeader body : Bytes) : Bytes :=
  checkSumField (FixBuilder.sumBytes kCharSpl (beginHeader ++ uintToStr body.length ++ body))

theorem message_eq (beginHeader body : Bytes) :
    message beginHeader body =
      beginHeader ++ (uintToStr body.length ++ (body ++ messageTail beginHeader body)) := by
  simp [message, messageTail]

theorem length_message (beginHeader body : Bytes) : (message beginHeader body).length =
    beginHeader.length + (uintToStr body.length).length + body.length + kFixTailWidth := by
  simp [message, Nat.add_assoc]

theorem verifyTail_checkSumField (cks : UInt8) (rest : Bytes) :
    verifyTail (checkSumField cks ++ rest) = true := by
  simp [verifyTail, checkSumField]

theorem checkSumRest_checkSumField (msg rest : Bytes) :
    checkSumRest msg (checkSumField (FixBuilder.sumBytes kCharSpl msg) ++ rest) = kCharSpl := by
  have hdrop : (checkSumField (FixBuilder.sumBytes kCharSpl msg) ++ rest).drop 4 =
      pic9ToStr3 (FixBuilder.sumBytes kCharSpl msg) ++ (kCharSpl :: rest) := by
    simp [checkSumField]
  rw [checkSumRest, hdrop, pic9StrTo3_pic9ToStr3, FixBuilder.foldl_sub_sumBytes]

theorem u32_fits {n size : ℕ} (hsize : size = n + kFixTailWidth) (hlen : size < 2 ^ 32) :
    u32 n = n ∧ u32 (n + kFixTailWidth) = size := by
  rw [← hsize]
  exact ⟨Nat.mod_eq_of_lt (by omega), Nat.mod_eq_of_lt hlen⟩

/-- The whole message is there: it is accepted, and the view is left on its fields. -/
theorem verifyBody_full (hlen : (message beginHeader (fieldsText fields)).length < 2 ^ 32) :
    p.verifyBody ⟨message beginHeader (fieldsText fields) ++ rest, after⟩
        (uintToStr (fieldsText fields).length ++
          (fieldsText fields ++ messageTail beginHeader (fieldsText fields) ++ rest)) true =
      (p, ⟨(fieldsText fields).drop 1,
          messageTail beginHeader (fieldsText fields) ++ rest ++ after⟩,
        .used (message beginHeader (fieldsText fields)).length) := by
  have hsize := length_message beginHeader (fieldsText fields)
  have hmsg := message_eq beginHeader (fieldsText fields)
  have htail : (messageTail beginHeader (fieldsText fields)).length = kFixTailWidth := rfl
  generalize hT : messageTail beginHeader (fieldsText fields) = T at *
  generalize hM : message beginHeader (fieldsText fields) = M at *
  generalize hB : fieldsText fields = B at *
  obtain ⟨Y, hY⟩ : ∃ Y, B ++ T ++ rest = kCharSpl :: Y := by
    obtain h | h := fieldsText_nil_or_cons fields <;> rw [hB] at h
    · rw [h, ← hT]
      exact ⟨_, rfl⟩
    · rw [h]
      exact ⟨_, rfl⟩
  have hnum : strToUInt uint32Max (uintToStr B.length ++ (B ++ T ++ rest)) 0 =
      (B.length, B ++ T ++ rest) := by
    rw [hY]
    exact strToUInt_of_head (by simp only [uint32Max]; omega) (by decide) Y 0
  have hhead : (B ++ T ++ rest).head? = some kCharSpl := by rw [hY]; rfl
  have hpos : (M ++ rest).length - (B ++ T ++ rest).length =
      beginHeader.length + (uintToStr B.length).length := by
    simp only [length_append]
    omega
  obtain ⟨hpend, hexp⟩ := u32_fits hsize hlen
  have hbody : beginHeader ++ uintToStr B.length ++ B ++ (T ++ rest) = M ++ rest := by
    rw [hmsg]
    simp only [append_assoc]
  have htake : (M ++ rest).take (beginHeader.length + (uintToStr B.length).length + B.length) =
      beginHeader ++ uintToStr B.length ++ B := by
    rw [← hbody]
    exact take_left' (by simp only [length_append])
  have hdrop : (M ++ rest).drop (beginHeader.length + (uintToStr B.length).length + B.length) =
      T ++ rest := by
    rw [← hbody]
    exact drop_left' (by simp only [length_append])
  have hfields : (beginHeader ++ uintToStr B.length ++ B).drop
      (beginHeader.length + (uintToStr B.length).length + 1) = B.drop 1 := by
    rw [← List.drop_drop, drop_left' (by simp only [length_append])]
  have hcks : checkSumRest (beginHeader ++ uintToStr B.length ++ B) (T ++ rest) = kCharSpl := by
    rw [← hT, ← hB]
    exact checkSumRest_checkSumField _ rest
  have hvt : verifyTail (T ++ rest) = true := by rw [← hT]; exact verifyTail_checkSumField _ rest
  unfold verifyBody
  simp only [hnum, hhead, hpos, hpend, hexp, htake, hdrop, hcks, hvt, hfields]
  rw [if_neg (by simp), if_neg (by simp only [length_append]; omega), if_neg (by simp),
    if_neg (by simp)]

/-- Only a part of the message is there: more is asked for. -/
theorem verifyBody_needsMore {beginHeader pre Y : Bytes}
    (hpre : pre = beginHeader ++ (uintToStr (fieldsText fields).length ++ kCharSpl :: Y))
    (hshort : pre.length < (message beginHeader (fieldsText fields)).length)
    (hlen : (message beginHeader (fieldsText fields)).length < 2 ^ 32)
    (hmax : (fieldsText fields).length ≤ kFixMaxBodyLength) (v : Bool) :
    p.verifyBody ⟨pre, after⟩ (uintToStr (fieldsText fields).length ++ kCharSpl :: Y) v =
      ({ p with expectSize := u16 (message beginHeader (fieldsText fields)).length }, ⟨pre, after⟩,
        .needsMore) := by
  have hsize := length_message beginHeader (fieldsText fields)
  generalize message beginHeader (fieldsText fields) = M at *
  generalize fieldsText fields = B at *
  have hpos : pre.length - (kCharSpl :: Y).length =
      beginHeader.length + (uintToStr B.length).length := by
    simp only [hpre, length_append]
    omega
  obtain ⟨hpend, hexp⟩ := u32_fits hsize hlen
  unfold verifyBody
  rw [strToUInt_of_head (by simp only [uint32Max]; omega) (by decide) Y 0]
  simp only [hpos, hpend, hexp]
  rw [if_neg (by simp), if_pos hshort, if_neg (by omega)]

/-! ### Parsing -/

/-- The parser expects the header, or none yet and the header can be found. -/
def HeaderFor (p : FixParser) (beginHeader : Bytes) : Prop :=
  (p.expectHeader = beginHeader ∧ beginHeader ≠ []) ∨ (p.expectHeader = [] ∧ IsBeginHeader beginHeader)

theorem HeaderFor.ne_nil {beginHeader : Bytes} (h : HeaderFor p beginHeader) : beginHeader ≠ [] := by
  obtain ⟨-, hne⟩ | ⟨-, x, -, rfl⟩ := h
  · exact hne
  · simp [kBeginHeader]

/-- A whole message at the front of the text is accepted, whatever follows it. -/
theorem verify_message {beginHeader : Bytes} (rest after : Bytes)
    (hlen : (message beginHeader (fieldsText fields)).length < 2 ^ 32) (hh : HeaderFor p beginHeader)
    (hfirst : p.expectHeader = [] → kFixMinHeaderWidth + kFixTailWidth < (message beginHeader (fieldsText fields) ++ rest).length)
    (hsize : p.expectSize ≤ (message beginHeader (fieldsText fields) ++ rest).length) :
    p.verify ⟨message beginHeader (fieldsText fields) ++ rest, after⟩ true true =
      ({ p with expectHeader := beginHeader },
        ⟨(fieldsText fields).drop 1, messageTail beginHeader (fieldsText fields) ++ rest ++ after⟩,
        .used (message beginHeader (fieldsText fields)).length) := by
  have htext : message beginHeader (fieldsText fields) ++ rest =
      beginHeader ++ (uintToStr (fieldsText fields).length ++
        (fieldsText fields ++ messageTail beginHeader (fieldsText fields) ++ rest)) := by
    rw [message_eq]
    simp only [append_assoc]
  have hok : HeaderOk p beginHeader (uintToStr (fieldsText fields).length ++
      (fieldsText fields ++ messageTail beginHeader (fieldsText fields) ++ rest)) := by
    obtain ⟨h, hne⟩ | ⟨h, hb⟩ := hh
    · refine .inl ⟨h, hne, ?_⟩
      have hdig := length_pos_iff.mpr (uintToStr_ne_nil (fieldsText fields).length)
      have htail : (messageTail beginHeader (fieldsText fields)).length = kFixTailWidth := rfl
      simp only [length_append]
      omega
    · exact .inr ⟨h, hb, by rw [← htext]; exact hfirst h⟩
  unfold verify
  rw [if_neg (by simp only; omega)]
  simp only [htext, verifyHeader_eq hok]
  rw [← htext, verifyBody_full hlen]

/-- A whole message at the front of the text is read back, whatever follows it. -/
theorem parse_message {beginHeader : Bytes} (rest after : Bytes) (hp : p.Counted) (hf : Parseable fields)
    (hlen : (message beginHeader (fieldsText fields)).length < 2 ^ 32) (hh : HeaderFor p beginHeader)
    (hfirst : p.expectHeader = [] → kFixMinHeaderWidth + kFixTailWidth < (message beginHeader (fieldsText fields) ++ rest).length)
    (hsize : p.expectSize ≤ (message beginHeader (fieldsText fields) ++ rest).length) :
    ∃ p', p.parse ⟨message beginHeader (fieldsText fields) ++ rest, after⟩ .fullMessage =
        (p', ⟨[], messageTail beginHeader (fieldsText fields) ++ rest ++ after⟩,
          .used (message beginHeader (fieldsText fields)).length) ∧
      p'.Stored fields ∧ p'.expectHeader = beginHeader := by
  have hverify := verify_message rest after hlen hh hfirst hsize
  have hafter : (messageTail beginHeader (fieldsText fields) ++ rest ++ after).head? =
      some kCharSpl := rfl
  have hclear : ({ p with expectHeader := beginHeader } : FixParser).clear.Stored [] :=
    clear_stored fun tag ht => hp tag ht
  obtain ⟨p', hloop, hstored, hheader, -⟩ :=
    parseFieldsLoop_stored hafter _ hclear hf (le_refl ((fieldsText fields).drop 1).length)
  refine ⟨p', ?_, hstored, hheader⟩
  unfold parse
  simp only [decide_true, hverify]
  rw [if_neg (by simp), if_neg (by simp [Result.isError]), parseFields, hloop]
  rfl

/-- A text that ends before the body of its message does, and holds its length. -/
theorem exists_body_of_prefix {beginHeader pre suf : Bytes} (h : pre ++ suf = message beginHeader (fieldsText fields))
    (hlen : beginHeader.length + (uintToStr (fieldsText fields).length).length < pre.length) :
    ∃ Y, pre = beginHeader ++ (uintToStr (fieldsText fields).length ++ kCharSpl :: Y) := by
  obtain ⟨Z, hZ⟩ : ∃ Z, fieldsText fields ++ messageTail beginHeader (fieldsText fields) =
      kCharSpl :: Z := by
    obtain h | h := fieldsText_nil_or_cons fields <;> rw [h]
    · exact ⟨_, rfl⟩
    · exact ⟨_, rfl⟩
  have hfront : (beginHeader ++ uintToStr (fieldsText fields).length ++ [kCharSpl]) <+:
      message beginHeader (fieldsText fields) := by
    rw [message_eq, hZ]
    exact ⟨Z, by simp⟩
  have hpre : pre <+: message beginHeader (fieldsText fields) := ⟨suf, h⟩
  obtain ⟨Y, hY⟩ := prefix_of_prefix_length_le hfront hpre (by
    simp only [length_append, length_singleton]
    omega)
  exact ⟨Y, by simp [← hY]⟩

/-- The width of the longest number that a body length can be. -/
theorem length_uintToStr_bodyLength {n : ℕ} (h : n ≤ kFixMaxBodyLength) :
    (uintToStr n).length < kFixTailWidth := by
  have : (uintToStr n).length ≤ 7 := length_uintToStr_le (by decide) (by
    simp only [kFixMaxBodyLength] at h
    omega)
  simp only [kFixTailWidth]
  omega

/-- The parser goes from `p` to `p'` when it asks for more after `size` bytes of
`total`: its fields stay, and it expects a size that it has not got yet. -/
structure Waits (p p' : FixParser) (beginHeader : Bytes) (size total : ℕ) : Prop where
  fieldList : p'.fieldList = p.fieldList
  fieldArray : p'.fieldArray = p.fieldArray
  headerFor : HeaderFor p' beginHeader
  known : p'.expectHeader = [] → p.expectHeader = []
  short : total < 2 ^ 16 → size < p'.expectSize
  reachable : p'.expectSize = p.expectSize ∨ p'.expectSize ≤ total ∨
    (p.expectHeader = [] ∧ p'.expectSize = kFixMinHeaderWidth + kFixTailWidth + 1)

section

variable {beginHeader pre suf : Bytes} (after : Bytes) (h : pre ++ suf = message beginHeader (fieldsText fields))
  (hsuf : suf ≠ []) (hh : HeaderFor p beginHeader)
  (hfirst : p.expectHeader = [] → beginHeader.length + (uintToStr (fieldsText fields).length).length ≤ kFixMinHeaderWidth + kFixTailWidth)
  (hlen : (message beginHeader (fieldsText fields)).length < 2 ^ 32)
  (hmax : (fieldsText fields).length ≤ kFixMaxBodyLength)
include h hsuf hh hfirst hlen hmax

/-- `Verify` on a proper prefix of a message. -/
theorem verify_needsMore :
    ∃ p', p.verify ⟨pre, after⟩ true true = (p', ⟨pre, after⟩, .needsMore) ∧
      Waits p p' beginHeader pre.length (message beginHeader (fieldsText fields)).length := by
  have hshort : pre.length < (message beginHeader (fieldsText fields)).length := by
    rw [← h, length_append]
    have := length_pos_iff.mpr hsuf
    omega
  have hsize := length_message beginHeader (fieldsText fields)
  have hdig := length_pos_iff.mpr (uintToStr_ne_nil (fieldsText fields).length)
  have hdig' := length_uintToStr_bodyLength hmax
  by_cases hexp : p.expectSize > 0 ∧ pre.length < p.expectSize
  · exact ⟨p, by rw [verify, if_pos hexp], rfl, rfl, hh, id, fun _ => hexp.2, .inl rfl⟩
  -- the header and the length are there
  have hbody : beginHeader.length + (uintToStr (fieldsText fields).length).length < pre.length →
      HeaderOk p beginHeader (pre.drop beginHeader.length) →
      ∃ p', p.verify ⟨pre, after⟩ true true = (p', ⟨pre, after⟩, .needsMore) ∧
        Waits p p' beginHeader pre.length (message beginHeader (fieldsText fields)).length := by
    intro hlong hok
    obtain ⟨Y, hY⟩ := exists_body_of_prefix h hlong
    rw [hY, drop_left] at hok
    refine ⟨{ p with
      expectHeader := beginHeader
      expectSize := u16 (message beginHeader (fieldsText fields)).length },
      ?_, rfl, rfl, .inl ⟨rfl, hh.ne_nil⟩, fun h0 => absurd h0 hh.ne_nil, ?_, ?_⟩
    · rw [verify, if_neg hexp]
      simp only [show p.verifyHeader pre true = _ from hY ▸ verifyHeader_eq hok]
      rw [verifyBody_needsMore hY hshort hlen hmax]
    · intro htotal
      rwa [u16_of_lt htotal]
    · exact .inr (.inl (u16_le _))
  obtain ⟨hk, hne⟩ | ⟨hk, hb⟩ := hh
  · by_cases hw : pre.length ≤ beginHeader.length + kFixTailWidth
    · refine ⟨{ p with expectSize := u16 (beginHeader.length + kFixTailWidth + 1) }, ?_, rfl, rfl,
        .inl ⟨hk, hne⟩, id, ?_, ?_⟩
      · have hpos : 0 < beginHeader.length := length_pos_iff.mpr hne
        rw [verify, if_neg hexp, verifyHeader, hk]
        simp [hpos, hw]
      · intro htotal
        rw [u16_of_lt (by omega)]
        show pre.length < beginHeader.length + kFixTailWidth + 1
        omega
      · exact .inr (.inl ((u16_le _).trans (by omega)))
    · apply hbody (by omega)
      exact .inl ⟨hk, hne, by rw [length_drop]; omega⟩
  · have hf := hfirst hk
    by_cases hw : pre.length ≤ kFixMinHeaderWidth + kFixTailWidth
    · refine ⟨{ p with expectSize := kFixMinHeaderWidth + kFixTailWidth + 1 }, ?_, rfl, rfl,
        .inr ⟨hk, hb⟩, id, fun _ => by simp only; omega, .inr (.inr ⟨hk, rfl⟩)⟩
      rw [verify, if_neg hexp, verifyHeader, hk]
      simp [hw]
    · apply hbody (by omega)
      exact .inr ⟨hk, hb, by rw [length_append, length_drop]; omega⟩

/-- A proper prefix of a message asks for more. -/
theorem parse_needsMore :
    ∃ p', p.parse ⟨pre, after⟩ .fullMessage = (p', ⟨pre, after⟩, .needsMore) ∧
      Waits p p' beginHeader pre.length (message beginHeader (fieldsText fields)).length := by
  obtain ⟨p', hv, hw⟩ := verify_needsMore after h hsuf hh hfirst hlen hmax
  refine ⟨p', ?_, hw⟩
  unfold parse
  simp only [decide_true, hv]
  rfl

end

/-- A text too short for the shortest message, when no header is known. -/
theorem parse_few {t after : Bytes} (h : p.expectHeader = [])
    (ht : t.length ≤ kFixMinHeaderWidth + kFixTailWidth) (hsize : p.expectSize ≤ t.length) :
    p.parse ⟨t, after⟩ .fullMessage =
      ({ p with expectSize := kFixMinHeaderWidth + kFixTailWidth + 1 }, ⟨t, after⟩, .needsMore) := by
  have hv : p.verify ⟨t, after⟩ true true =
      ({ p with expectSize := kFixMinHeaderWidth + kFixTailWidth + 1 }, ⟨t, after⟩, .needsMore) := by
    rw [verify, if_neg (by simp only; omega), verifyHeader, h]
    simp [ht]
  unfold parse
  simp only [decide_true, hv]
  rfl

end FixParser

/-! ### Build, then parse -/

/-- The messages that a parser can read back. -/
structure Readable (p : FixParser) (beginHeader : Bytes) (fields : List (ℕ × Bytes)) : Prop where
  header : p.HeaderFor beginHeader
  /-- A header that is not known yet is looked for in more than 24 bytes, and these
  reach the end of the body length. -/
  first : p.expectHeader = [] →
    kFixMinHeaderWidth + kFixTailWidth < (message beginHeader (fieldsText fields)).length ∧
      beginHeader.length + (uintToStr (fieldsText fields).length).length ≤
        kFixMinHeaderWidth + kFixTailWidth
  parseable : Parseable fields
  body_le : (fieldsText fields).length ≤ kFixMaxBodyLength
  size_lt : (message beginHeader (fieldsText fields)).length < 2 ^ 32

/-- Parsing a built message, whatever bytes follow it, takes exactly the message and
yields the fields; every proper prefix needs more. The builder may have printed the
text of the fields in any pieces, over any nodes. -/
theorem parse_final (p : FixParser) (hp : p.Counted) (beginHeader : Bytes)
    (fields : List (ℕ × Bytes)) (hr : Readable p beginHeader fields)
    (hsize : p.expectSize ≤ (message beginHeader (fieldsText fields)).length)
    (blockRoom : ℕ → ℕ) (chunks : List (ℕ × Bytes)) (hroom : ∀ c ∈ chunks, c.2.length ≤ c.1)
    (hchunks : (chunks.map Prod.snd).flatten = fieldsText fields) (msg : Bytes)
    (hmsg : ((FixBuilder.assemble blockRoom chunks).final blockRoom beginHeader).1.flatten = msg) :
    (∀ rest after, ∃ p' view, p.parse ⟨msg ++ rest, after⟩ .fullMessage =
      (p', view, .used msg.length) ∧ p'.Yields fields) ∧
    (∀ pre suf after, pre ++ suf = msg → suf ≠ [] → ∃ p',
      p.parse ⟨pre, after⟩ .fullMessage = (p', ⟨pre, after⟩, .needsMore)) := by
  have htailed := FixBuilder.assemble_tailed blockRoom chunks hroom
  rw [hchunks] at htailed
  have hlen : (fieldsText fields).length < 10 ^ kNumOutBufSize :=
    hr.body_le.trans_lt (by decide)
  have hfinal := FixBuilder.final_flatten blockRoom htailed beginHeader hlen
  rw [hmsg] at hfinal
  subst hfinal
  constructor
  · intro rest after
    obtain ⟨p', hparse, hstored, -⟩ := FixParser.parse_message rest after hp
      hr.parseable hr.size_lt hr.header
      (fun h => (hr.first h).1.trans_le (by rw [List.length_append]; omega))
      (hsize.trans (by rw [List.length_append]; omega))
    exact ⟨p', _, hparse, hstored.yields⟩
  · intro pre suf after h hsuf
    obtain ⟨p', hparse, -⟩ := FixParser.parse_needsMore after h hsuf hr.header
      (fun h => (hr.first h).2) hr.size_lt hr.body_le
    exact ⟨p', hparse⟩

/-- A test request with a text is read back by a fresh parser. -/
theorem parse_final_testRequest :
    let fields : List (ℕ × Bytes) := [(35, [ch '1']), (58, [ch 'H', ch 'i'])]
    let msg := ((FixBuilder.assemble id (fields.flatMap fieldChunks)).final id kBeginHeaderV44).1.flatten
    (∀ rest after, ∃ p' view, ({} : FixParser).parse ⟨msg ++ rest, after⟩ .fullMessage =
      (p', view, .used msg.length) ∧ p'.Yields fields) ∧
    (∀ pre suf after, pre ++ suf = msg → suf ≠ [] → ∃ p',
      ({} : FixParser).parse ⟨pre, after⟩ .fullMessage = (p', ⟨pre, after⟩, .needsMore)) := by
  refine parse_final {} (fun _ _ => rfl) kBeginHeaderV44 _ ⟨?_, ?_, ?_, by decide, by decide⟩ (by decide)
    id _ (by decide) (by decide) _ rfl
  · exact .inr ⟨rfl, FixParser.isBeginHeader_V44⟩
  · intro _
    decide
  · exact .of_plain (by decide) (by decide)

/-- A RawDataLength that is not the length of the RawData: the built message is
refused. -/
theorem parse_final_rawData :
    ¬ ∀ (p : FixParser) (_ : p.Counted) (_ : p.expectHeader = []) (_ : p.expectSize = 0)
      (beginHeader : Bytes) (_ : FixParser.IsBeginHeader beginHeader) (fields : List (ℕ × Bytes))
      (_ : ∀ f ∈ fields, f.1 ≠ 0 ∧ f.1 ≤ uint32Max ∧ kCharSpl ∉ f.2)
      (_ : ∀ tag, (valuesOf tag fields).length ≤ kMaxDupFieldCount + 1)
      (_ : (fieldsText fields).length ≤ kFixMaxBodyLength) (blockRoom : ℕ → ℕ) (msg : Bytes)
      (_ : ((FixBuilder.assemble blockRoom (fields.flatMap fieldChunks)).final blockRoom
        beginHeader).1.flatten = msg) (rest after : Bytes),
      ∃ p' view, p.parse ⟨msg ++ rest, after⟩ .fullMessage = (p', view, .used msg.length) ∧
        p'.Yields fields := by
  intro h
  let fields : List (ℕ × Bytes) := [(35, [ch 'A']), (95, [ch '5']), (96, [ch 'a', ch 'b', ch 'c'])]
  let msg := ((FixBuilder.assemble id (fields.flatMap fieldChunks)).final id kBeginHeaderV44).1.flatten
  obtain ⟨p', view, hparse, -⟩ := h {} (fun _ _ => rfl) rfl rfl kBeginHeaderV44
    FixParser.isBeginHeader_V44 fields (by decide)
    (fun tag => (length_valuesOf_le tag fields).trans (by decide)) (by decide) id msg rfl [] []
  have hres : (({} : FixParser).parse ⟨msg ++ [], []⟩ .fullMessage).2.2 = .used msg.length := by
    rw [hparse]
  revert hres
  decide +kernel

end Fon9.Fix
