import Fon9.Fix.RoundTrip

/-! `Verify` over the positions of a text. The view that it leaves is two positions, and a test of a
byte behind the end of the text is a read past the buffer. -/

namespace Fon9.Fix

open Lib List Option

/-- Two positions of a text, where a view begins and where it ends. -/
structure Span where
  first : ℕ
  last : ℕ
  deriving DecidableEq, Repr

/-- The bytes from a position on are compared one after the other, as long as they are equal;
none where one behind the end of the text is read. -/
def matchesAt (text : Bytes) : ℕ → Bytes → Option Bool
  | _, [] => some true
  | i, c :: cs =>
    match text[i]? with
    | none => none
    | some b => if b = c then matchesAt text (i + 1) cs else some false

/-- "|10=". -/
def kTailBegin : Bytes := [kCharSpl, ch '1', ch '0', ch '=']

namespace FixParser

variable (p : FixParser)

/-- The second part of `Verify`, from the body length on. -/
def verifyBodyAt (text msgbeg : Bytes) (verifyCheckSum : Bool) : FixParser × Span × Option Result :=
  let r := strToUInt uint32Max msgbeg 0
  let bodyLength := r.1
  let pos := text.length - r.2.length
  if r.2.head? ≠ some kCharSpl then (p, ⟨pos, text.length⟩, some .eInvalidHeader)
  else
    let pend := u32 (pos + bodyLength)
    let expsz := u32 (pend + kFixTailWidth)
    if text.length < expsz then
      ({ p with expectSize := u16 expsz }, ⟨0, text.length⟩,
        some (if bodyLength > kFixMaxBodyLength then .eOverFixMaxBodyLength else .needsMore))
    else if verifyCheckSum then
      match matchesAt text pend kTailBegin with
      | none => (p, ⟨pos, text.length⟩, none)
      | some false => (p, ⟨pos, text.length⟩, some .eFormat)
      | some true =>
        -- the digits of the check sum are read from the last one on
        if text.length ≤ pend + 6 then (p, ⟨pos, text.length⟩, none)
        else if checkSumRest (text.take pend) (text.drop pend) ≠ kCharSpl then
          ({ p.clear with expectSize := u16 expsz }, ⟨pos, text.length⟩, some .eCheckSum)
        else (p, ⟨pos + 1, pend⟩, some (.used expsz))
    else (p, ⟨pos + 1, pend⟩, some (.used expsz))

def verifyAt (text : Bytes) (vHeader vCheckSum : Bool) : FixParser × Span × Option Result :=
  if p.expectSize > 0 ∧ text.length < p.expectSize then (p, ⟨0, text.length⟩, some .needsMore)
  else
    match p.verifyHeader text vHeader with
    | (p, .error e) => (p, ⟨0, text.length⟩, some e)
    | (p, .ok msgbeg) => p.verifyBodyAt text msgbeg vCheckSum

/-- Where the body length of the message ends, and what it is, once the header is complete: the text is long
enough for the parser to look for it, and the number is followed by a separator. -/
def frame (text : Bytes) (vHeader : Bool) : Option (ℕ × ℕ) :=
  match (p.verifyHeader text vHeader).2 with
  | .error _ => none
  | .ok msgbeg =>
    let r := strToUInt uint32Max msgbeg 0
    if r.2.head? = some kCharSpl then some (text.length - r.2.length, r.1) else none

end FixParser

/-! ### What is left of a text -/

theorem dropWhile_append_of_ne_nil {f : UInt8 → Bool} {s : Bytes} (h : s.dropWhile f ≠ []) (u : Bytes) :
    (s ++ u).dropWhile f = s.dropWhile f ++ u := by
  induction s with
  | nil => exact absurd rfl h
  | cons c s ih =>
    rw [cons_append]
    by_cases hc : f c = true
    · rw [dropWhile_cons_of_pos hc] at h ⊢
      rw [dropWhile_cons_of_pos hc]
      exact ih h
    · rw [dropWhile_cons_of_neg hc, dropWhile_cons_of_neg hc, cons_append]

theorem strToNumLoop_suffix (max res : ℕ) (s : Bytes) : (strToNumLoop max res s).2 <:+ s := by
  induction s generalizing res with
  | nil => exact suffix_refl _
  | cons c s ih =>
    rw [strToNumLoop]
    by_cases hdig : digval c ≤ 9
    · rw [if_pos hdig]
      by_cases hfit : res < max / 10 ∨ (res = max / 10 ∧ digval c ≤ max % 10)
      · rw [if_pos hfit]
        exact (ih _).trans (suffix_cons _ _)
      · rw [if_neg hfit]
        exact (dropWhile_suffix _).trans (suffix_cons _ _)
    · rw [if_neg hdig]

/-- What follows a number is an end of the text. -/
theorem strToUInt_suffix (max : ℕ) (s : Bytes) (null : ℕ) : (strToUInt max s null).2 <:+ s := by
  have hloop : ∀ body, body <:+ s →
      (if (strToNumLoop max 0 body).2.length = body.length then (null, body) else strToNumLoop max 0 body).2 <:+ s := by
    intro body hbody
    by_cases hlen : (strToNumLoop max 0 body).2.length = body.length
    · rw [if_pos hlen]
      exact hbody
    · rw [if_neg hlen]
      exact (strToNumLoop_suffix _ _ _).trans hbody
  have hskip : s.dropWhile isspace <:+ s := dropWhile_suffix _
  unfold strToUInt
  cases hcs : s.dropWhile isspace with
  | nil => exact nil_suffix
  | cons c cs =>
    rw [hcs] at hskip
    apply hloop
    by_cases hplus : c = ch '+'
    · rw [if_pos hplus]
      exact ((dropWhile_suffix _).trans (suffix_cons _ _)).trans hskip
    · rw [if_neg hplus]
      exact hskip

theorem strToNumLoop_append {max res : ℕ} {s : Bytes} (h : (strToNumLoop max res s).2 ≠ []) (u : Bytes) :
    strToNumLoop max res (s ++ u) = ((strToNumLoop max res s).1, (strToNumLoop max res s).2 ++ u) := by
  induction s generalizing res with
  | nil => exact absurd rfl h
  | cons c s ih =>
    rw [cons_append]
    rw [strToNumLoop] at h ⊢
    rw [strToNumLoop]
    by_cases hdig : digval c ≤ 9
    · simp only [if_pos hdig] at h ⊢
      by_cases hfit : res < max / 10 ∨ (res = max / 10 ∧ digval c ≤ max % 10)
      · simp only [if_pos hfit] at h ⊢
        exact ih h
      · simp only [if_neg hfit] at h ⊢
        rw [dropWhile_append_of_ne_nil h]
    · simp only [if_neg hdig]
      rfl

/-- A number that ends before the text does is the same in a longer text. -/
theorem strToUInt_append {max : ℕ} {s : Bytes} {null : ℕ} (h : (strToUInt max s null).2 ≠ []) (u : Bytes) :
    strToUInt max (s ++ u) null = ((strToUInt max s null).1, (strToUInt max s null).2 ++ u) := by
  have hloop : ∀ body : Bytes,
      (if (strToNumLoop max 0 body).2.length = body.length then (null, body) else strToNumLoop max 0 body).2 ≠ [] →
      (if (strToNumLoop max 0 (body ++ u)).2.length = (body ++ u).length then (null, body ++ u)
        else strToNumLoop max 0 (body ++ u)) =
      ((if (strToNumLoop max 0 body).2.length = body.length then (null, body) else strToNumLoop max 0 body).1,
        (if (strToNumLoop max 0 body).2.length = body.length then (null, body) else strToNumLoop max 0 body).2 ++ u) := by
    intro body hne
    have hrest : (strToNumLoop max 0 body).2 ≠ [] := by
      intro hnil
      rw [hnil] at hne
      by_cases hlen : ([] : Bytes).length = body.length
      · rw [if_pos hlen] at hne
        exact hne (eq_nil_of_length_eq_zero hlen.symm)
      · rw [if_neg hlen] at hne
        exact hne hnil
    rw [strToNumLoop_append hrest]
    by_cases hlen : (strToNumLoop max 0 body).2.length = body.length
    · rw [if_pos hlen, if_pos (by rw [length_append, length_append, hlen])]
    · rw [if_neg hlen, if_neg (by rw [length_append, length_append]; omega)]
  unfold strToUInt at h ⊢
  cases hskip : s.dropWhile isspace with
  | nil =>
    rw [hskip] at h
    exact absurd rfl h
  | cons c cs =>
    have hskip' : (s ++ u).dropWhile isspace = c :: cs ++ u := by
      rw [dropWhile_append_of_ne_nil (by rw [hskip]; exact cons_ne_nil _ _), hskip]
    rw [hskip] at h
    rw [hskip', cons_append]
    dsimp only at h ⊢
    by_cases hplus : c = ch '+'
    · simp only [if_pos hplus] at h ⊢
      have hne : cs.dropWhile isspace ≠ [] := by
        intro hnil
        rw [hnil] at h
        exact h rfl
      rw [dropWhile_append_of_ne_nil hne]
      exact hloop _ h
    · simp only [if_neg hplus] at h ⊢
      exact hloop _ h

/-! ### The bytes of the tail -/

theorem matchesAt_eq {text : Bytes} {i : ℕ} {cs : Bytes} {b : Bool} (h : matchesAt text i cs = some b) :
    ((text.drop i).take cs.length == cs) = b := by
  induction cs generalizing i with
  | nil =>
    obtain rfl : true = b := some.inj h
    rfl
  | cons c cs ih =>
    rw [matchesAt] at h
    split at h
    · cases h
    next x hx =>
    obtain ⟨hi, hget⟩ := List.getElem?_eq_some_iff.mp hx
    rw [drop_eq_getElem_cons hi, hget, length_cons, take_succ_cons]
    by_cases hc : x = c
    · rw [if_pos hc] at h
      rw [hc, cons_beq_cons, beq_self_eq_true, Bool.true_and]
      exact ih h
    · rw [if_neg hc] at h
      obtain rfl : false = b := some.inj h
      rw [cons_beq_cons, beq_eq_false_iff_ne.mpr hc, Bool.false_and]

namespace FixParser

variable {p p' : FixParser} {text msgbeg after : Bytes} {vHeader vCheckSum : Bool} {span : Span} {r : Result}

/-! ### The header -/

/-- The width of the header that the parser looks for, at least. -/
def headerWidth (p : FixParser) : ℕ :=
  if p.expectHeader.length > 0 then p.expectHeader.length else kFixMinHeaderWidth

theorem verifyHeader_short (h : text.length ≤ p.headerWidth + kFixTailWidth) :
    p.verifyHeader text vHeader =
      ({ p with expectSize := u16 (p.headerWidth + kFixTailWidth + 1) }, .error .needsMore) := by
  unfold verifyHeader headerWidth at *
  by_cases hknown : p.expectHeader.length > 0
  · simp only [if_pos hknown] at h ⊢
    rw [if_pos h]
  · simp only [if_neg hknown] at h ⊢
    rw [if_pos h]
    rfl

theorem verifyHeader_known_false (hknown : 0 < p.expectHeader.length)
    (h : p.headerWidth + kFixTailWidth < text.length) :
    p.verifyHeader text false = (p, .ok (text.drop p.expectHeader.length)) := by
  unfold verifyHeader headerWidth at *
  simp only [if_pos (show p.expectHeader.length > 0 from hknown)] at h ⊢
  rw [if_neg (not_le.mpr h), Bool.false_and, if_neg Bool.false_ne_true]

/-- A header is refused, or the text is the header and what is behind it and the parser knows the header now. -/
theorem verifyHeader_long (h : p.headerWidth + kFixTailWidth < text.length) :
    p.verifyHeader text vHeader = (p, .error .eInvalidHeader) ∨
      ∃ p' msgbeg, p.verifyHeader text vHeader = (p', .ok msgbeg) ∧ p.verifyHeader text false = (p', .ok msgbeg) ∧
        msgbeg = text.drop p'.expectHeader.length ∧ 0 < p'.expectHeader.length ∧
        p'.expectHeader.length ≤ text.length := by
  by_cases hknown : 0 < p.expectHeader.length
  · have hfalse := verifyHeader_known_false hknown h
    have hle : p.expectHeader.length ≤ text.length := by
      rw [headerWidth, if_pos hknown] at h
      omega
    cases vHeader with
    | false => exact .inr ⟨p, _, hfalse, hfalse, rfl, hknown, hle⟩
    | true =>
      unfold headerWidth at h
      rw [if_pos hknown] at h
      by_cases hsame : text.take p.expectHeader.length = p.expectHeader
      · refine .inr ⟨p, _, ?_, hfalse, rfl, hknown, hle⟩
        unfold verifyHeader
        simp only [if_pos (show p.expectHeader.length > 0 from hknown), if_neg (not_le.mpr h), hsame, bne_self_eq_false,
          Bool.and_false, Bool.false_eq_true, if_false]
      · left
        unfold verifyHeader
        simp only [if_pos (show p.expectHeader.length > 0 from hknown), if_neg (not_le.mpr h), Bool.true_and,
          bne_iff_ne, if_pos hsame]
  · unfold headerWidth at h
    rw [if_neg hknown] at h
    unfold verifyHeader
    simp only [if_neg (show ¬ p.expectHeader.length > 0 from hknown), if_neg (not_le.mpr h)]
    by_cases hbegin : text.take 2 ≠ [ch '8', ch '=']
    · exact .inl (if_pos hbegin)
    simp only [if_neg hbegin]
    have hsuffix : (text.drop 2).dropWhile (fun c => decide (c ≠ kCharSpl)) <:+ text :=
      (dropWhile_suffix _).trans (drop_suffix _ _)
    generalize (text.drop 2).dropWhile (fun c => decide (c ≠ kCharSpl)) = found at hsuffix ⊢
    by_cases hnine : found.take 3 ≠ [kCharSpl, ch '9', ch '=']
    · exact .inl (if_pos hnine)
    simp only [if_neg hnine]
    have hthree := congrArg length (not_not.mp hnine)
    rw [length_take] at hthree
    have hthree' : min 3 found.length = 3 := hthree
    have hle := hsuffix.length_le
    obtain ⟨front, hfront⟩ := hsuffix
    have hlen := congrArg length hfront
    rw [length_append] at hlen
    have hwidth : (text.take (text.length - (found.length - 3))).length = text.length - (found.length - 3) := by
      rw [length_take]
      omega
    refine .inr ⟨_, _, rfl, rfl, ?_, ?_, ?_⟩
    · show found.drop 3 = text.drop (text.take _).length
      rw [hwidth, ← hfront, length_append, drop_append,
        drop_of_length_le (show front.length ≤ front.length + found.length - (found.length - 3) by omega),
        nil_append]
      congr 1
      omega
    · show 0 < (text.take _).length
      rw [hwidth]
      omega
    · show (text.take _).length ≤ text.length
      rw [hwidth]
      omega

theorem frame_short (h : text.length ≤ p.headerWidth + kFixTailWidth) : p.frame text vHeader = none := by
  rw [frame, verifyHeader_short h]

theorem frame_ok (h : p.verifyHeader text vHeader = (p', .ok msgbeg)) : p.frame text vHeader =
    if (strToUInt uint32Max msgbeg 0).2.head? = some kCharSpl then
      some (text.length - (strToUInt uint32Max msgbeg 0).2.length, (strToUInt uint32Max msgbeg 0).1)
    else none := by
  rw [frame, h]

/-- The frame of a message is that of every longer text. -/
theorem frame_append {pos bodyLength : ℕ} (hheader : p'.expectHeader.length ≤ text.length)
    (hpos : 0 < p'.expectHeader.length)
    (hhead : (strToUInt uint32Max (text.drop p'.expectHeader.length) 0).2.head? = some kCharSpl)
    (hp : p.expectHeader = p'.expectHeader) (u : Bytes) (h : p.frame (text ++ u) false = some (pos, bodyLength)) :
    pos = text.length - (strToUInt uint32Max (text.drop p'.expectHeader.length) 0).2.length ∧
      bodyLength = (strToUInt uint32Max (text.drop p'.expectHeader.length) 0).1 := by
  have hne : (strToUInt uint32Max (text.drop p'.expectHeader.length) 0).2 ≠ [] := by
    intro hnil
    rw [hnil] at hhead
    cases hhead
  by_cases hshort : (text ++ u).length ≤ p.headerWidth + kFixTailWidth
  · rw [frame_short hshort] at h
    cases h
  have hok := @verifyHeader_known_false p _ (by rw [hp]; exact hpos) (not_le.mp hshort)
  rw [hp, drop_append_of_le_length hheader] at hok
  rw [frame_ok hok, strToUInt_append hne, head?_append_of_ne_nil _ hne, if_pos hhead] at h
  simp only [some.injEq, Prod.mk.injEq, length_append] at h
  exact ⟨by omega, h.2.symm⟩

/-! ### The two models of `Verify` -/

theorem suffix_eq_drop {s text : Bytes} (h : s <:+ text) : text.drop (text.length - s.length) = s := by
  obtain ⟨front, rfl⟩ := h
  rw [length_append, Nat.add_sub_cancel]
  exact drop_left

theorem verifyBody_eq (hsuffix : msgbeg <:+ text) (h : p.verifyBodyAt text msgbeg vCheckSum = (p', span, some r))
    (hspan : span.first ≤ span.last) :
    p.verifyBody ⟨text, after⟩ msgbeg vCheckSum =
      (p', ⟨(text.take span.last).drop span.first, text.drop span.last ++ after⟩, r) := by
  have hrest := suffix_eq_drop ((strToUInt_suffix uint32Max msgbeg 0).trans hsuffix)
  have hkept : ∀ i, i = text.length - (strToUInt uint32Max msgbeg 0).2.length →
      (⟨(strToUInt uint32Max msgbeg 0).2, after⟩ : StrView) =
        ⟨(text.take text.length).drop i, text.drop text.length ++ after⟩ := by
    rintro i rfl
    rw [take_length, hrest, drop_length, nil_append]
  have hwhole : (⟨text, after⟩ : StrView) = ⟨(text.take text.length).drop 0, text.drop text.length ++ after⟩ := by
    rw [take_length, drop_zero, drop_length, nil_append]
  unfold verifyBodyAt at h
  unfold verifyBody
  dsimp only at h ⊢
  split at h
  · next hhead =>
    rw [if_pos hhead]
    cases h
    rw [hkept _ rfl]
  next hhead =>
  rw [if_neg hhead]
  generalize text.length - (strToUInt uint32Max msgbeg 0).2.length = pos at h hkept ⊢
  generalize u32 (pos + (strToUInt uint32Max msgbeg 0).1) = pend at h ⊢
  split at h
  · next hfew =>
    rw [if_pos hfew]
    cases h
    rw [hwhole]
  next hfew =>
  rw [if_neg hfew]
  cases vCheckSum with
  | false =>
    rw [if_neg Bool.false_ne_true] at h
    simp only [Bool.false_and, Bool.false_eq_true, if_false]
    cases h
    rfl
  | true =>
    rw [if_pos rfl] at h
    split at h
    · cases h
    · next hmatch =>
      have htail : verifyTail (text.drop pend) = false := matchesAt_eq hmatch
      cases h
      rw [htail, if_pos (show (true && !false) = true from rfl), hkept _ rfl]
    · next hmatch =>
      have htail : verifyTail (text.drop pend) = true := matchesAt_eq hmatch
      rw [htail]
      simp only [Bool.not_true, Bool.and_false, Bool.false_eq_true, if_false, Bool.true_and, bne_iff_ne]
      split at h
      · cases h
      split at h
      · next hcks =>
        rw [if_pos hcks]
        cases h
        rw [hkept _ rfl]
      · next hcks =>
        rw [if_neg hcks]
        cases h
        rfl

/-- Where no byte behind the text is read and the positions are those of a view, `Verify` leaves that view. -/
theorem verify_eq (h : p.verifyAt text vHeader vCheckSum = (p', span, some r)) (hspan : span.first ≤ span.last) :
    p.verify ⟨text, after⟩ vHeader vCheckSum =
      (p', ⟨(text.take span.last).drop span.first, text.drop span.last ++ after⟩, r) := by
  have hwhole : (⟨text, after⟩ : StrView) = ⟨(text.take text.length).drop 0, text.drop text.length ++ after⟩ := by
    rw [take_length, drop_zero, drop_length, nil_append]
  unfold verifyAt at h
  unfold verify
  dsimp only at h ⊢
  by_cases hexp : p.expectSize > 0 ∧ text.length < p.expectSize
  · rw [if_pos hexp] at h ⊢
    cases h
    rw [hwhole]
  rw [if_neg hexp] at h ⊢
  by_cases hshort : text.length ≤ p.headerWidth + kFixTailWidth
  · rw [verifyHeader_short hshort] at h ⊢
    cases h
    rw [hwhole]
  rcases @verifyHeader_long p text vHeader (not_le.mp hshort) with hbad | ⟨q, msgbeg, hok, -, hmsgbeg, -, -⟩
  · rw [hbad] at h ⊢
    cases h
    rw [hwhole]
  · rw [hok] at h ⊢
    exact verifyBody_eq (hmsgbeg ▸ drop_suffix _ _) h hspan

end FixParser

end Fon9.Fix
