import Fon9.Fix.VerifyAt

/-! When `Verify` is safe: its view is one, it reads the buffer only, what it accepts has its length and its check
sum, and what it waits for is the size of the message. -/

namespace Fon9.Fix

open Lib FixBuilder Option

namespace FixParser

variable {p p' : FixParser} {text t : Bytes} {vHeader vCheckSum : Bool} {span : Span} {r : Result}

/-! ### What it expects -/

/-- Until it has the size that it expects, that is the size of the message, as far as its type holds it. -/
def Expects (p : FixParser) (t : Bytes) : Prop :=
  ∀ u pos bodyLength, (t ++ u).length < p.expectSize → p.frame (t ++ u) false = some (pos, bodyLength) →
    p.expectSize = u16 (pos + bodyLength + kFixTailWidth)

/-- The size of the message, where the body is not too long and the message is not there yet. -/
theorem expsz_eq {pos bodyLength size : ℕ} (hpos : pos < size) (hbody : bodyLength ≤ kFixMaxBodyLength)
    (h : size < u32 (u32 (pos + bodyLength) + kFixTailWidth)) :
    u32 (u32 (pos + bodyLength) + kFixTailWidth) = pos + bodyLength + kFixTailWidth := by
  unfold kFixMaxBodyLength at hbody
  unfold u32 kFixTailWidth at *
  omega

theorem Expects.more (h : p.Expects t) (hpre : t <+: text)
    (hverify : p.verifyAt text vHeader vCheckSum = (p', span, some .needsMore)) : p'.Expects text := by
  obtain ⟨more, rfl⟩ := hpre
  unfold verifyAt at hverify
  by_cases hexp : p.expectSize > 0 ∧ (t ++ more).length < p.expectSize
  · rw [if_pos hexp] at hverify
    cases hverify
    intro u
    rw [List.append_assoc]
    exact h _
  rw [if_neg hexp] at hverify
  generalize t ++ more = text at *
  by_cases hshort : text.length ≤ p.headerWidth + kFixTailWidth
  · rw [verifyHeader_short hshort] at hverify
    cases hverify
    intro u pos bodyLength hlt hframe
    have hle : u16 (p.headerWidth + kFixTailWidth + 1) ≤ p.headerWidth + kFixTailWidth + 1 := u16_le _
    have hlt' : (text ++ u).length < u16 (p.headerWidth + kFixTailWidth + 1) := hlt
    rw [frame_short] at hframe
    · cases hframe
    · exact Nat.le_of_lt_succ (hlt'.trans_le hle)
  rcases @verifyHeader_long p text vHeader (not_le.mp hshort) with hbad | ⟨q, msgbeg, hok, -, hmsgbeg, hpos, hlen⟩
  · rw [hbad] at hverify
    cases hverify
  · rw [hok] at hverify
    subst hmsgbeg
    intro u pos bodyLength hlt hframe
    unfold verifyBodyAt at hverify
    dsimp only at hverify
    split at hverify
    · cases hverify
    next hhead =>
    rw [not_not] at hhead
    split at hverify
    · next hfew =>
      split at hverify
      · cases hverify
      next hbody =>
      cases hverify
      obtain ⟨rfl, rfl⟩ := frame_append hlen hpos hhead (by rfl) u hframe
      have hne : 0 < (strToUInt uint32Max (text.drop q.expectHeader.length) 0).2.length := by
        rw [List.length_pos_iff]
        intro hnil
        rw [hnil] at hhead
        cases hhead
      exact congrArg u16 (expsz_eq (by omega) (not_lt.mp hbody) hfew)
    · split at hverify
      · split at hverify
        · cases hverify
        · cases hverify
        · split at hverify
          · cases hverify
          split at hverify
          · cases hverify
          · cases hverify
      · cases hverify

/-- The body ends at the position: a separator and "10=" are there, and the check sum is that of what is before. -/
def Closes (text : Bytes) (pend : ℕ) : Prop :=
  (text.drop pend).take 4 = kTailBegin ∧
    pic9StrTo3 (text.drop (pend + 4)) = FixBuilder.sumBytes kCharSpl (text.take pend)

/-- `Verify` reads the text only and leaves a view of it; what it accepts is in the text and has the length and, where
it is verified, the check sum that it says; what it waits for is more than there is, and the size of the message. -/
structure Sound (p : FixParser) (text : Bytes) (vHeader vCheckSum : Bool) : Prop where
  reads : (p.verifyAt text vHeader vCheckSum).2.2 ≠ none
  ordered : (p.verifyAt text vHeader vCheckSum).2.1.first ≤ (p.verifyAt text vHeader vCheckSum).2.1.last
  inside : (p.verifyAt text vHeader vCheckSum).2.1.last ≤ text.length
  accepted : ∀ size, (p.verifyAt text vHeader vCheckSum).2.2 = some (.used size) →
    ∃ pos bodyLength, p.frame text false = some (pos, bodyLength) ∧ size = pos + bodyLength + kFixTailWidth ∧
      size ≤ text.length ∧ (vCheckSum = true → Closes text (pos + bodyLength))
  needsMore : (p.verifyAt text vHeader vCheckSum).2.2 = some .needsMore →
    text.length < (p.verifyAt text vHeader vCheckSum).1.expectSize ∧
      ∀ pos bodyLength, p.frame text false = some (pos, bodyLength) →
        (p.verifyAt text vHeader vCheckSum).1.expectSize = pos + bodyLength + kFixTailWidth

/-- The bytes from the position on are no tail of what is before, and are in the text as far as this takes. -/
def Refused (text : Bytes) (pend : ℕ) : Prop :=
  matchesAt text pend kTailBegin = some false ∨
    (matchesAt text pend kTailBegin = some true ∧ pend + 6 < text.length ∧
      checkSumRest (text.take pend) (text.drop pend) ≠ kCharSpl)

/-- A message that is not there yet has a size in 16 bits, or its body is too long to wait for; one that is there, or
whose size goes around 32 bits, has a body and does not go around, or its tail is refused. -/
def FrameFits (text : Bytes) (vCheckSum : Bool) (pos bodyLength : ℕ) : Prop :=
  (text.length < u32 (u32 (pos + bodyLength) + kFixTailWidth) → bodyLength ≤ kFixMaxBodyLength →
    pos + bodyLength + kFixTailWidth < 2 ^ 16) ∧
  (u32 (u32 (pos + bodyLength) + kFixTailWidth) ≤ text.length →
    (0 < bodyLength ∧ pos + bodyLength + kFixTailWidth < 2 ^ 32) ∨
      (vCheckSum = true ∧ Refused text (u32 (pos + bodyLength))))

def Meets (p : FixParser) (text : Bytes) (vHeader vCheckSum : Bool) : Prop :=
  if p.expectSize > 0 ∧ text.length < p.expectSize then
    ∀ pos bodyLength, p.frame text false = some (pos, bodyLength) → pos + bodyLength + kFixTailWidth < 2 ^ 16
  else
    (text.length ≤ p.headerWidth + kFixTailWidth → text.length < u16 (p.headerWidth + kFixTailWidth + 1)) ∧
      ∀ pos bodyLength, p.frame text vHeader = some (pos, bodyLength) → FrameFits text vCheckSum pos bodyLength

variable {pos bodyLength : ℕ}

end FixParser

end Fon9.Fix
