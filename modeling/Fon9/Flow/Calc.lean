import Mathlib.Algebra.Order.BigOperators.Group.List
import Fon9.Lib.Numeral

/-! The flow control `FlowControlCalc`: time is cut into segments, and what was used is
given back by so much a segment. Counts are 64-bit words; times and intervals are counts of
microseconds, whose products are taken not to overflow. -/

namespace Fon9.Flow

open Lib List Int Nat

structure FlowControlCalc where
  usedCount : ℕ := 0
  calcTimeSeg : ℤ := 0
  segLmt : ℕ := 0
  segInterval : ℤ := 0
  fcMax : ℕ := 0
  fcInterval : ℤ := 0
  deriving DecidableEq

open FlowControlCalc

namespace FlowControlCalc

variable (fc : FlowControlCalc)

def hasControl : Bool := 0 < fc.fcMax

/-- What the segments from the last one to that of `now` give back. -/
def allowCount (now : ℤ) : ℕ :=
  u64 ((now.tdiv fc.segInterval - fc.calcTimeSeg).toNat * fc.segLmt)

/-- The first part of `CalcUsed`: the count is brought to the segment of `now`. -/
def decay (now : ℤ) : FlowControlCalc :=
  let nowSeg := now.tdiv fc.segInterval
  let segCount := nowSeg - fc.calcTimeSeg
  if segCount ≠ 0 then
    let usedCount :=
      if 0 < segCount then
        if fc.allowCount now < fc.usedCount then fc.usedCount - fc.allowCount now else 0
      else fc.usedCount
    { fc with usedCount := usedCount, calcTimeSeg := nowSeg }
  else fc

/-- What was used up to `now` allows `usedCount` more. -/
def allows (usedCount : ℕ) : Bool :=
  u64 (fc.usedCount + usedCount) ≤ fc.fcMax ∨ fc.fcMax < usedCount

/-- The second part of `CalcUsed`: the counter and the interval returned. -/
def accumulate (usedCount : ℕ) : FlowControlCalc × ℤ :=
  if fc.allows usedCount then
    let fc := { fc with usedCount := u64 (fc.usedCount + usedCount) }
    if fc.usedCount ≤ fc.segLmt then (fc, 0)
    else (fc, fc.segInterval * (fc.usedCount / fc.segLmt : ℕ))
  else
    (fc, -((fc.usedCount / fc.fcMax : ℕ) * fc.fcInterval) -
      (1 + (fc.usedCount % fc.fcMax / fc.segLmt : ℕ)) * fc.segInterval)

def calcUsed (now : ℤ) (usedCount : ℕ) : FlowControlCalc × ℤ :=
  if fc.hasControl then (fc.decay now).accumulate usedCount else (fc, 0)

end FlowControlCalc

/-- A counter with what it accepted: the segment and the count of each request. -/
structure Accounted where
  counter : FlowControlCalc
  log : List (ℤ × ℕ) := []
  deriving DecidableEq

/-- `CalcUsed` with a time and a count. -/
def Accounted.request (s : Accounted) (req : ℤ × ℕ) : Accounted :=
  let r := s.counter.calcUsed req.1 req.2
  if r.2 < 0 then ⟨r.1, s.log⟩ else ⟨r.1, s.log ++ [(req.1.tdiv s.counter.segInterval, req.2)]⟩

/-- What was accepted in the segments that meet `p`. -/
def accepted (p : ℤ → Bool) (log : List (ℤ × ℕ)) : ℕ := ((log.filter fun e => p e.1).map Prod.snd).sum

/-- The requests of a run: the clock does not go back, and shows no time before the epoch. -/
structure Requests (fcMax : ℕ) (reqs : List (ℤ × ℕ)) : Prop where
  clock : (reqs.map Prod.fst).Pairwise (· ≤ ·)
  epoch : ∀ req ∈ reqs, 0 ≤ req.1
  count : ∀ req ∈ reqs, req.2 ≤ fcMax

variable {fc : FlowControlCalc} {s : Accounted} {now : ℤ} {used : ℕ}

/-! ### The amounts -/

theorem accepted_concat (p : ℤ → Bool) (log : List (ℤ × ℕ)) (e : ℤ × ℕ) :
    accepted p (log ++ [e]) = accepted p log + if p e.1 then e.2 else 0 := by
  rw [accepted, accepted, filter_append, map_append, sum_append]
  by_cases h : p e.1 = true
  · simp [h]
  · simp [h]

theorem accepted_mono {p q : ℤ → Bool} (log : List (ℤ × ℕ)) (h : ∀ seg, p seg → q seg) :
    accepted p log ≤ accepted q log := by
  induction log using reverseRecOn with
  | nil => exact le_rfl
  | append_singleton log e ih =>
    rw [accepted_concat, accepted_concat]
    apply Nat.add_le_add ih
    by_cases hp : p e.1 = true
    · rw [if_pos hp, if_pos (h e.1 hp)]
    · rw [if_neg hp]
      exact Nat.zero_le _

theorem accepted_eq_zero {p : ℤ → Bool} {log : List (ℤ × ℕ)} (h : ∀ e ∈ log, p e.1 = false) : accepted p log = 0 := by
  have hfilter : log.filter (fun e => p e.1) = [] := by
    rw [filter_eq_nil_iff]
    intro e he
    rw [h e he]
    exact Bool.false_ne_true
  rw [accepted, hfilter]
  rfl

/-! ### A request -/

/-- A counter that controls, none of whose sums wraps. -/
structure Controls (fc : FlowControlCalc) : Prop where
  segLmt : 0 < fc.segLmt
  segLmt_le : fc.segLmt ≤ fc.fcMax
  segInterval : 0 < fc.segInterval
  fcMax : 0 < fc.fcMax
  fcInterval : 0 < fc.fcInterval
  word : fc.fcMax < 2 ^ 63
  used : fc.usedCount ≤ fc.fcMax

/-- The count decays by whole segments. -/
theorem decay_eq (h : fc.calcTimeSeg ≤ now.tdiv fc.segInterval) :
    fc.decay now = { fc with usedCount := fc.usedCount - fc.allowCount now, calcTimeSeg := now.tdiv fc.segInterval } := by
  rw [FlowControlCalc.decay]
  dsimp only
  split
  · next hne =>
    rw [if_pos (by omega)]
    congr 1
    split
    · rfl
    · next hle => rw [Nat.sub_eq_zero_of_le (not_lt.mp hle)]
  · next heq =>
    have hzero : now.tdiv fc.segInterval = fc.calcTimeSeg := by omega
    have hallow : fc.allowCount now = 0 := by
      rw [allowCount, hzero, sub_self]
      simp
    rw [hallow, hzero, Nat.sub_zero]

theorem Controls.withUsed (h : Controls fc) {usedCount : ℕ} (hused : usedCount ≤ fc.fcMax) (seg : ℤ) :
    Controls { fc with usedCount := usedCount, calcTimeSeg := seg } :=
  ⟨h.segLmt, h.segLmt_le, h.segInterval, h.fcMax, h.fcInterval, h.word, hused⟩

theorem Controls.calcUsed_eq (h : Controls fc) (now : ℤ) (used : ℕ) :
    fc.calcUsed now used = (fc.decay now).accumulate used := if_pos (decide_eq_true h.fcMax)

theorem Controls.allows_iff (h : Controls fc) (hle : used ≤ fc.fcMax) :
    fc.allows used = true ↔ fc.usedCount + used ≤ fc.fcMax := by
  have hword := h.word
  have hused := h.used
  have hsum : u64 (fc.usedCount + used) = fc.usedCount + used := mod_eq_of_lt (by omega)
  rw [allows, hsum, decide_eq_true_iff]
  omega

theorem Controls.accumulate_accept (h : Controls fc) (hle : fc.usedCount + used ≤ fc.fcMax) :
    (fc.accumulate used).1 = { fc with usedCount := fc.usedCount + used } ∧ 0 ≤ (fc.accumulate used).2 := by
  have hword := h.word
  have hsum : u64 (fc.usedCount + used) = fc.usedCount + used := mod_eq_of_lt (by omega)
  rw [accumulate, if_pos ((h.allows_iff (by omega)).mpr hle), hsum]
  dsimp only
  split
  · exact ⟨rfl, le_rfl⟩
  · exact ⟨rfl, Int.mul_nonneg h.segInterval.le (natCast_nonneg _)⟩

/-- A refusal and the interval that it returns. -/
theorem Controls.accumulate_refuse (h : Controls fc) (hle : used ≤ fc.fcMax) (hlt : fc.fcMax < fc.usedCount + used) :
    (fc.accumulate used).1 = fc ∧ -(fc.accumulate used).2 =
      if fc.usedCount = fc.fcMax then fc.fcInterval + fc.segInterval
      else (fc.usedCount / fc.segLmt + 1 : ℕ) * fc.segInterval := by
  have hused := h.used
  rw [accumulate, if_neg fun hno => absurd ((h.allows_iff hle).mp hno) (not_le.mpr hlt)]
  refine ⟨rfl, ?_⟩
  dsimp only
  split
  · next heq =>
    rw [heq, Nat.div_self h.fcMax, mod_self, Nat.zero_div]
    push_cast
    ring
  · next hne =>
    have hless : fc.usedCount < fc.fcMax := lt_of_le_of_ne hused hne
    rw [div_eq_of_lt hless, mod_eq_of_lt hless]
    push_cast
    ring

theorem Controls.accumulate_neg_iff (h : Controls fc) (hle : used ≤ fc.fcMax) :
    (fc.accumulate used).2 < 0 ↔ fc.fcMax < fc.usedCount + used := by
  constructor
  · intro hneg
    by_contra hno
    exact absurd hneg (not_lt.mpr (h.accumulate_accept (not_lt.mp hno)).2)
  · intro hlt
    have hdelay := (h.accumulate_refuse hle hlt).2
    have hfc := h.fcInterval
    have hseg := h.segInterval
    have hpos : 0 < ((fc.usedCount / fc.segLmt + 1 : ℕ) : ℤ) * fc.segInterval :=
      Int.mul_pos (natCast_pos.mpr (succ_pos _)) hseg
    split at hdelay
    · omega
    · rw [← hdelay] at hpos
      exact neg_pos.mp hpos

/-! ### The segments of time -/

/-- The log and the count keep account of each other: what was accepted since a segment is
still counted, or the segments since then have given it back. -/
structure Accounts (s : Accounted) : Prop where
  controls : Controls s.counter
  log : ∀ e ∈ s.log, e.1 ≤ s.counter.calcTimeSeg
  since : ∀ a ≤ s.counter.calcTimeSeg, (accepted (fun seg => a ≤ seg) s.log : ℤ) ≤
    s.counter.usedCount + (s.counter.calcTimeSeg - a) * s.counter.segLmt
  window : ∀ (a : ℤ) (k : ℕ), accepted (fun seg => a ≤ seg ∧ seg < a + k) s.log ≤
    s.counter.fcMax + k * s.counter.segLmt

theorem Accounts.decay (h : Accounts s) (hseg : s.counter.calcTimeSeg ≤ now.tdiv s.counter.segInterval) :
    Accounts ⟨s.counter.decay now, s.log⟩ := by
  rw [decay_eq hseg]
  refine ⟨h.controls.withUsed (le_trans (sub_le _ _) h.controls.used) _, fun e he => le_trans (h.log e he) hseg,
    fun a ha => ?_, h.window⟩
  have hseg' : (0 : ℤ) ≤ now.tdiv s.counter.segInterval - s.counter.calcTimeSeg := by omega
  -- no more is given back than the segments allow
  have hallow : (s.counter.allowCount now : ℤ) ≤
      (now.tdiv s.counter.segInterval - s.counter.calcTimeSeg) * s.counter.segLmt := by
    have hle : s.counter.allowCount now ≤ (now.tdiv s.counter.segInterval - s.counter.calcTimeSeg).toNat * s.counter.segLmt :=
      mod_le _ _
    zify at hle
    rwa [toNat_of_nonneg hseg'] at hle
  have hsub : (s.counter.usedCount : ℤ) - s.counter.allowCount now ≤ (s.counter.usedCount - s.counter.allowCount now : ℕ) := by
    omega
  dsimp only
  by_cases hold : a ≤ s.counter.calcTimeSeg
  · have hsince := h.since a hold
    calc (accepted (fun seg => a ≤ seg) s.log : ℤ)
        ≤ s.counter.usedCount + (s.counter.calcTimeSeg - a) * s.counter.segLmt := hsince
      _ ≤ s.counter.usedCount - s.counter.allowCount now +
          (now.tdiv s.counter.segInterval - s.counter.calcTimeSeg) * s.counter.segLmt +
          (s.counter.calcTimeSeg - a) * s.counter.segLmt := by linarith
      _ ≤ (s.counter.usedCount - s.counter.allowCount now : ℕ) +
          (now.tdiv s.counter.segInterval - a) * s.counter.segLmt := by
        have hsplit : (now.tdiv s.counter.segInterval - a) * (s.counter.segLmt : ℤ) =
            (now.tdiv s.counter.segInterval - s.counter.calcTimeSeg) * s.counter.segLmt +
              (s.counter.calcTimeSeg - a) * s.counter.segLmt := by ring
        linarith
  · have hnone : accepted (fun seg => a ≤ seg) s.log = 0 := by
      apply accepted_eq_zero
      intro e he
      have hle := h.log e he
      exact decide_eq_false (by omega)
    rw [hnone]
    have hpos : (0 : ℤ) ≤ (now.tdiv s.counter.segInterval - a) * s.counter.segLmt :=
      Int.mul_nonneg (sub_nonneg.mpr ha) (natCast_nonneg _)
    exact_mod_cast add_nonneg (natCast_nonneg _) hpos

/-- More is accepted in the segment of the count. -/
theorem Accounts.accept (h : Accounts s) (hle : s.counter.usedCount + used ≤ s.counter.fcMax) :
    Accounts ⟨{ s.counter with usedCount := s.counter.usedCount + used }, s.log ++ [(s.counter.calcTimeSeg, used)]⟩ := by
  have hsince : ∀ a ≤ s.counter.calcTimeSeg,
      (accepted (fun seg => a ≤ seg) (s.log ++ [(s.counter.calcTimeSeg, used)]) : ℤ) ≤
        (s.counter.usedCount + used : ℕ) + (s.counter.calcTimeSeg - a) * s.counter.segLmt := by
    intro a ha
    have hold := h.since a ha
    rw [accepted_concat, if_pos (decide_eq_true ha)]
    push_cast
    linarith
  refine ⟨h.controls.withUsed hle s.counter.calcTimeSeg, ?_, hsince, ?_⟩
  · intro e he
    rcases mem_append.mp he with he | he
    · exact h.log e he
    · rw [mem_singleton.mp he]
  · intro a k
    by_cases hin : a ≤ s.counter.calcTimeSeg ∧ s.counter.calcTimeSeg < a + k
    · have hmono := accepted_mono (p := fun seg => a ≤ seg ∧ seg < a + k) (q := fun seg => a ≤ seg)
        (s.log ++ [(s.counter.calcTimeSeg, used)]) (by simp; omega)
      have hall := hsince a hin.1
      have hsegs : (s.counter.calcTimeSeg - a) * (s.counter.segLmt : ℤ) ≤ k * s.counter.segLmt :=
        Int.mul_le_mul_of_nonneg_right (by omega) (natCast_nonneg _)
      zify at hmono hle ⊢
      push_cast at hall
      linarith
    · rw [accepted_concat, if_neg (by simpa using hin), add_zero]
      exact h.window a k

/-- A request in the order of the clock. -/
theorem Accounts.request (h : Accounts s) (hle : used ≤ s.counter.fcMax)
    (hseg : s.counter.calcTimeSeg ≤ now.tdiv s.counter.segInterval) :
    Accounts (s.request (now, used)) ∧ (s.request (now, used)).counter.calcTimeSeg = now.tdiv s.counter.segInterval ∧
      (s.request (now, used)).counter.segInterval = s.counter.segInterval ∧
      (s.request (now, used)).counter.segLmt = s.counter.segLmt ∧
      (s.request (now, used)).counter.fcMax = s.counter.fcMax := by
  have hdecay := h.decay hseg
  have hcontrols := hdecay.controls
  have heq := decay_eq hseg
  have hmax : (s.counter.decay now).fcMax = s.counter.fcMax := by rw [heq]
  have hnow : (s.counter.decay now).calcTimeSeg = now.tdiv s.counter.segInterval := by rw [heq]
  have hinterval : (s.counter.decay now).segInterval = s.counter.segInterval := by rw [heq]
  have hlmt : (s.counter.decay now).segLmt = s.counter.segLmt := by rw [heq]
  rw [Accounted.request, h.controls.calcUsed_eq]
  dsimp only at hcontrols ⊢
  by_cases hsum : (s.counter.decay now).usedCount + used ≤ (s.counter.decay now).fcMax
  · obtain ⟨hfirst, hsecond⟩ := hcontrols.accumulate_accept hsum
    rw [if_neg (not_lt.mpr hsecond), hfirst, ← hnow]
    exact ⟨hdecay.accept hsum, rfl, hinterval, hlmt, hmax⟩
  · have hneg := (hcontrols.accumulate_neg_iff (hmax ▸ hle)).mpr (not_le.mp hsum)
    obtain ⟨hfirst, -⟩ := hcontrols.accumulate_refuse (hmax ▸ hle) (not_le.mp hsum)
    rw [if_pos hneg, hfirst]
    exact ⟨hdecay, hnow, hinterval, hlmt, hmax⟩

theorem Requests.concat {fcMax : ℕ} {reqs : List (ℤ × ℕ)} (h : Requests fcMax (reqs ++ [(now, used)])) :
    Requests fcMax reqs ∧ 0 ≤ now ∧ used ≤ fcMax ∧ ∀ req ∈ reqs, req.1 ≤ now := by
  have hlast : (now, used) ∈ reqs ++ [(now, used)] := mem_append_right _ (mem_singleton_self _)
  have hclock := h.clock
  rw [map_append, pairwise_append] at hclock
  obtain ⟨hreqs, -, hle⟩ := hclock
  exact ⟨⟨hreqs, fun req hreq => h.epoch req (mem_append_left _ hreq),
      fun req hreq => h.count req (mem_append_left _ hreq)⟩, h.epoch _ hlast, h.count _ hlast,
    fun req hreq => hle req.1 (mem_map_of_mem hreq) now (mem_singleton_self _)⟩

section Run

variable {fcMax segCount : ℕ} {fcInterval : ℤ} {reqs : List (ℤ × ℕ)}

end Run

end Fon9.Flow
