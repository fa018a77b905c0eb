import Mathlib.Algebra.Order.Ring.Int
import Mathlib.Data.List.Chain

/-! Prices move by ticks, the size of which depends on the level that the price is in. A price is
its `GetOrigValue()`, and below zero the table of levels is mirrored. -/

namespace Fon9.Fmkt

open List Function Int

/-- `Pri::max()` -/
def priMax : ℤ := 2 ^ 63 - 1

/-- The tick is `step` for prices below `lvTop`. -/
structure LvPriStep where
  lvTop : ℤ
  step : ℤ
  deriving DecidableEq

/-! ### The table -/

/-- A pointer into a table: the levels below, the nearest one first, and those from it on. -/
structure LvPtr where
  below : List LvPriStep
  steps : List LvPriStep

/-- `FindPriTickStep`, which runs off a table that ends below `pri`. -/
def findPriTickStep (below : List LvPriStep) (pri : ℤ) : List LvPriStep → LvPtr
  | [] => ⟨below, []⟩
  | lv :: rest => if lv.lvTop < pri then findPriTickStep (lv :: below) pri rest else ⟨below, lv :: rest⟩

/-- The loop of `MoveTicksUp` that goes up from zero, or from where it is above. -/
def upLoop (upLmt : ℤ) : List LvPriStep → ℤ → ℕ → ℤ
  | [], priFrom, _ => priFrom
  | lv :: steps, priFrom, count =>
    let nextPri := priFrom + lv.step * count
    if upLmt ≤ nextPri then upLmt
    else if nextPri ≤ lv.lvTop then nextPri
    else upLoop upLmt steps lv.lvTop (count - ((lv.lvTop - priFrom) / lv.step).toNat)

/-- The end of the level below. -/
def nextTop : List LvPriStep → ℤ
  | [] => 0
  | lv :: _ => lv.lvTop

/-- The loop that goes up to zero from below, over the prices without their sign: the result, or
how many ticks are left at zero. -/
def upToZeroLoop (upLmt : ℤ) (lv : LvPriStep) : List LvPriStep → ℤ → ℕ → ℤ ⊕ ℕ
  | below, priFrom, count =>
    let nextPri := priFrom - lv.step * count
    if upLmt ≤ -nextPri then .inl upLmt
    else if nextTop below ≤ nextPri then .inl (-nextPri)
    else
      let count := count - ((priFrom - nextTop below) / lv.step).toNat
      match below with
      | [] => .inr count
      | lv' :: below => upToZeroLoop upLmt lv' below lv'.lvTop count

variable (steps : List LvPriStep)

def moveTicksUp (priFrom : ℤ) (count : ℕ) (upLmt : ℤ) : ℤ :=
  if upLmt ≤ priFrom then upLmt
  else
    match steps with
    | [] => priFrom
    | first :: rest =>
      if first.lvTop = priMax then
        let mod := priFrom.tmod first.step
        let priFrom := if mod = 0 then priFrom else if mod < 0 then priFrom - mod - first.step else priFrom - mod
        min (priFrom + first.step * count) upLmt
      else if 0 ≤ priFrom then
        match (findPriTickStep [] priFrom (first :: rest)).steps with
        | [] => priFrom
        | lv :: above =>
          if priFrom = lv.lvTop then if count = 0 then min priFrom upLmt else upLoop upLmt above priFrom count
          else
            let priFrom := priFrom - priFrom.tmod lv.step
            if count = 0 then min priFrom upLmt else upLoop upLmt (lv :: above) priFrom count
      else
        let priFrom := 0 - priFrom
        match findPriTickStep [] priFrom (first :: rest) with
        | ⟨_, []⟩ => 0 - priFrom
        | ⟨below, lv :: _⟩ =>
          let mod := priFrom.tmod lv.step
          let priFrom := if mod = 0 then priFrom else priFrom + (lv.step - mod)
          if count = 0 then min (0 - priFrom) upLmt
          else Sum.elim id (upLoop upLmt (first :: rest) 0) (upToZeroLoop upLmt lv below priFrom count)

/-- The loop of `MoveTicksDn` that goes down from zero, or from where it is below, over the prices
without their sign. -/
def dnLoop (dnLmt : ℤ) : List LvPriStep → ℤ → ℕ → ℤ
  | [], priFrom, _ => -priFrom
  | lv :: steps, priFrom, count =>
    let nextPri := priFrom + lv.step * count
    if -nextPri ≤ dnLmt then dnLmt
    else if nextPri ≤ lv.lvTop then -nextPri
    else dnLoop dnLmt steps lv.lvTop (count - ((lv.lvTop - priFrom) / lv.step).toNat)

/-- The loop that goes down to zero from above: the result, or how many ticks are left at zero. -/
def dnToZeroLoop (dnLmt : ℤ) (lv : LvPriStep) : List LvPriStep → ℤ → ℕ → ℤ ⊕ ℕ
  | below, priFrom, count =>
    let nextPri := priFrom - lv.step * count
    if nextPri ≤ dnLmt then .inl dnLmt
    else if nextTop below ≤ nextPri then .inl nextPri
    else
      let count := count - ((priFrom - nextTop below) / lv.step).toNat
      match below with
      | [] => .inr count
      | lv' :: below => dnToZeroLoop dnLmt lv' below lv'.lvTop count

def moveTicksDn (priFrom : ℤ) (count : ℕ) (dnLmt : ℤ) : ℤ :=
  if priFrom ≤ dnLmt then dnLmt
  else
    match steps with
    | [] => priFrom
    | first :: rest =>
      if first.lvTop = priMax then
        let mod := priFrom.tmod first.step
        let priFrom := if mod = 0 then priFrom else if 0 < mod then priFrom - mod + first.step else priFrom - mod
        max (priFrom - first.step * count) dnLmt
      else if 0 < priFrom then
        match findPriTickStep [] priFrom (first :: rest) with
        | ⟨_, []⟩ => priFrom
        | ⟨below, lv :: _⟩ =>
          let mod := priFrom.tmod lv.step
          let priFrom := if mod = 0 then priFrom else priFrom + (lv.step - mod)
          if count = 0 then max priFrom dnLmt
          else Sum.elim id (dnLoop dnLmt (first :: rest) 0) (dnToZeroLoop dnLmt lv below priFrom count)
      else
        let priFrom := 0 - priFrom
        match (findPriTickStep [] priFrom (first :: rest)).steps with
        | [] => 0 - priFrom
        | lv :: above =>
          if priFrom = lv.lvTop then if count = 0 then max (0 - priFrom) dnLmt else dnLoop dnLmt above priFrom count
          else
            let priFrom := priFrom - priFrom.tmod lv.step
            if count = 0 then max (0 - priFrom) dnLmt else dnLoop dnLmt (lv :: above) priFrom count

/-! ### Single ticks -/

/-- The tick upward from a price that is not below zero: where a level ends the next one's is taken. -/
def stepAbove : List LvPriStep → ℤ → ℤ
  | [], _ => 1
  | [lv], _ => lv.step
  | lv :: steps, pri => if pri < lv.lvTop then lv.step else stepAbove steps pri

/-- The tick downward from a price above zero: where a level ends its own is taken. -/
def stepBelow : List LvPriStep → ℤ → ℤ
  | [], _ => 1
  | [lv], _ => lv.step
  | lv :: steps, pri => if pri ≤ lv.lvTop then lv.step else stepBelow steps pri

/-- The next multiple of the tick above a price. -/
def nextUp (pri : ℤ) : ℤ :=
  if 0 ≤ pri then (pri / stepAbove steps pri + 1) * stepAbove steps pri
  else -((-pri - 1) / stepBelow steps (-pri) * stepBelow steps (-pri))

/-- The next multiple of the tick below a price. -/
def nextDn (pri : ℤ) : ℤ :=
  if 0 < pri then (pri - 1) / stepBelow steps pri * stepBelow steps pri
  else -((-pri / stepAbove steps (-pri) + 1) * stepAbove steps (-pri))

/-- One tick, stopped at the limit. -/
def tickUp (upLmt pri : ℤ) : ℤ := if upLmt ≤ pri then upLmt else min (nextUp steps pri) upLmt

def tickDn (dnLmt pri : ℤ) : ℤ := if pri ≤ dnLmt then dnLmt else max (nextDn steps pri) dnLmt

/-! ### Multiples of a step -/

section Multiples

variable {s x p q : ℤ}

theorem ediv_mul_eq (hs : 0 < s) (hx : s ∣ x) (hle : x ≤ p) (hlt : p < x + s) : p / s * s = x := by
  obtain ⟨k, rfl⟩ := hx
  have hdiv : p / s = k := ((Int.ediv_emod_unique (r := p - s * k) hs).mpr ⟨by omega, by omega, by omega⟩).1
  rw [hdiv, mul_comm]

theorem ediv_mul_le (hs : 0 < s) (p : ℤ) : p / s * s ≤ p := Int.ediv_mul_le p hs.ne'

theorem lt_ediv_mul (hs : 0 < s) (p : ℤ) : p < (p / s + 1) * s := by
  have hlt := lt_ediv_add_one_mul_self p hs
  omega

/-- What is left of a price behind its last whole tick. -/
theorem tmod_of_nonneg (hp : 0 ≤ p) (s : ℤ) : p.tmod s = p % s := tmod_eq_emod_of_nonneg hp

theorem sub_emod_eq (p s : ℤ) : p - p % s = p / s * s := by
  have h := emod_add_mul_ediv p s
  rw [mul_comm] at h
  omega

/-- A price rounded up. -/
theorem neg_roundUp (hs : 0 < s) (q : ℤ) : 0 - (if q % s = 0 then q else q + (s - q % s)) = -q / s * s := by
  have hnonneg := emod_nonneg q hs.ne'
  have hlt := emod_lt_of_pos q hs
  have hfloor := sub_emod_eq q s
  have hdvd : s ∣ q - q % s := hfloor ▸ Int.dvd_mul_left _ _
  symm
  split_ifs with hzero
  · rw [hzero, sub_zero] at hdvd
    exact ediv_mul_eq hs (by simpa using hdvd) (by omega) (by omega)
  · refine ediv_mul_eq hs ?_ (by omega) (by omega)
    have hsum : 0 - (q + (s - q % s)) = -(q - q % s) - s := by omega
    rw [hsum]
    exact Int.dvd_sub (Int.dvd_neg.mpr hdvd) (dvd_refl s)

/-- A price rounded down as the code does. -/
theorem roundDown_eq (hs : 0 < s) (p : ℤ) :
    (if p.tmod s = 0 then p else if p.tmod s < 0 then p - p.tmod s - s else p - p.tmod s) = p / s * s := by
  rcases le_or_gt 0 p with hp | hp
  · rw [tmod_of_nonneg hp]
    have hnonneg := emod_nonneg p hs.ne'
    have hfloor := sub_emod_eq p s
    split_ifs <;> omega
  · have hmod : p.tmod s = -(-p % s) := by
      rw [← tmod_of_nonneg (by omega : 0 ≤ -p), neg_tmod, neg_neg]
    have hnonneg := emod_nonneg (-p) hs.ne'
    have hup := neg_roundUp hs (-p)
    rw [neg_neg] at hup
    rw [hmod, ← hup]
    split_ifs <;> omega

end Multiples

/-! ### A table of levels -/

/-- Levels from `btm` on: each ends above where it begins, begins and ends at a multiple of its tick, and
its tick is no larger than the next one's; the last one has no end. -/
inductive Levels : ℤ → List LvPriStep → Prop
  | last {lv : LvPriStep} {btm : ℤ} (hstep : 0 < lv.step) (hbtm : lv.step ∣ btm) (hlt : btm < lv.lvTop) (htop : lv.lvTop = priMax) : Levels btm [lv]
  | cons {lv lv' : LvPriStep} {steps : List LvPriStep} {btm : ℤ} (hstep : 0 < lv.step) (hbtm : lv.step ∣ btm)
      (hlt : btm < lv.lvTop) (htop : lv.step ∣ lv.lvTop) (hle : lv.step ≤ lv'.step) (h : Levels lv.lvTop (lv' :: steps)) : Levels btm (lv :: lv' :: steps)

variable {steps below above : List LvPriStep} {lv lv' : LvPriStep} {btm pri upLmt dnLmt : ℤ}

theorem Levels.step_pos (h : Levels btm (lv :: above)) : 0 < lv.step := by
  cases h with
  | last hstep => exact hstep
  | cons hstep => exact hstep

theorem Levels.dvd_btm (h : Levels btm (lv :: above)) : lv.step ∣ btm := by
  cases h with
  | last _ hbtm => exact hbtm
  | cons _ hbtm => exact hbtm

theorem Levels.btm_lt (h : Levels btm (lv :: above)) : btm < lv.lvTop := by
  cases h with
  | last _ _ hlt => exact hlt
  | cons _ _ hlt => exact hlt

/-- The level `lv` of a table: those below it, the nearest one first, and those above. -/
structure At (steps below : List LvPriStep) (lv : LvPriStep) (above : List LvPriStep) : Prop where
  eq : steps = below.reverse ++ lv :: above
  levels : Levels 0 steps

namespace At

theorem head (h : Levels 0 (lv :: above)) : At (lv :: above) [] lv above := ⟨rfl, h⟩

theorem succ (h : At steps below lv (lv' :: above)) : At steps (lv :: below) lv' above := by
  refine ⟨?_, h.levels⟩
  rw [h.eq, reverse_cons, append_assoc]
  rfl

theorem pred (h : At steps (lv' :: below) lv above) : At steps below lv' (lv :: above) := by
  refine ⟨?_, h.levels⟩
  rw [h.eq, reverse_cons, append_assoc]
  rfl

theorem levels_from (h : At steps below lv above) : Levels (nextTop below) (lv :: above) := by
  induction below generalizing lv above with
  | nil =>
    have hlevels := h.levels
    rw [h.eq] at hlevels
    exact hlevels
  | cons lv' below ih =>
    cases ih h.pred with
    | cons _ _ _ _ _ hrest => exact hrest

theorem step_pos (h : At steps below lv above) : 0 < lv.step := h.levels_from.step_pos

theorem dvd_btm (h : At steps below lv above) : lv.step ∣ nextTop below := h.levels_from.dvd_btm

theorem btm_lt (h : At steps below lv above) : nextTop below < lv.lvTop := h.levels_from.btm_lt

/-- The level below ends at a multiple of its tick, which is no larger. -/
theorem of_pred (h : At steps (lv' :: below) lv above) : lv'.step ∣ lv'.lvTop ∧ lv'.step ≤ lv.step := by
  cases h.pred.levels_from with
  | cons _ _ _ htop hle _ => exact ⟨htop, hle⟩

theorem btm_nonneg (h : At steps below lv above) : 0 ≤ nextTop below := by
  induction below generalizing lv above with
  | nil => exact le_rfl
  | cons lv' below ih => exact (ih h.pred).trans h.pred.btm_lt.le

theorem stepBelow_eq (h : At steps below lv above) (hbtm : below = [] ∨ nextTop below < pri) (htop : pri ≤ lv.lvTop ∨ above = []) :
    stepBelow steps pri = lv.step := by
  have hskip : stepBelow steps pri = stepBelow (lv :: above) pri := by
    clear htop
    induction below generalizing lv above with
    | nil => rw [h.eq]; rfl
    | cons lv' below ih =>
      have hlt := hbtm.resolve_left (cons_ne_nil _ _)
      rw [ih h.pred (.inr (h.pred.btm_lt.trans hlt))]
      exact if_neg (not_le.mpr hlt)
  rw [hskip]
  cases above with
  | nil => rfl
  | cons => exact if_pos (htop.resolve_right (cons_ne_nil _ _))

theorem stepAbove_eq (h : At steps below lv above) (hbtm : nextTop below ≤ pri) (htop : pri < lv.lvTop ∨ above = []) :
    stepAbove steps pri = lv.step := by
  have hskip : stepAbove steps pri = stepAbove (lv :: above) pri := by
    clear htop
    induction below generalizing lv above with
    | nil => rw [h.eq]; rfl
    | cons lv' below ih =>
      rw [ih h.pred (h.pred.btm_lt.le.trans hbtm)]
      exact if_neg (not_lt.mpr hbtm)
  rw [hskip]
  cases above with
  | nil => rfl
  | cons => exact if_pos (htop.resolve_right (cons_ne_nil _ _))

end At

/-- `FindPriTickStep` finds the level that a price lies in. -/
theorem findPriTickStep_at (h : At steps below lv above) (hbtm : below = [] ∨ nextTop below < pri) (hmax : pri ≤ priMax) :
    ∃ below' lv' above', findPriTickStep below pri (lv :: above) = ⟨below', lv' :: above'⟩ ∧ At steps below' lv' above' ∧
      pri ≤ lv'.lvTop ∧ (below' = [] ∨ nextTop below' < pri) := by
  induction above generalizing below lv with
  | nil =>
    have htop : lv.lvTop = priMax := by
      cases h.levels_from with
      | last _ _ _ htop => exact htop
    rw [← htop] at hmax
    rw [findPriTickStep, if_neg (not_lt.mpr hmax)]
    exact ⟨below, lv, [], rfl, h, hmax, hbtm⟩
  | cons next above ih =>
    rw [findPriTickStep]
    split
    · rename_i hlt
      exact ih h.succ (.inr hlt)
    · rename_i hle
      exact ⟨below, lv, next :: above, rfl, h, not_lt.mp hle, hbtm⟩

/-- No level below the one of a price that is not below zero ends above it. -/
theorem nextTop_le (hbtm : below = [] ∨ nextTop below < pri) (hnonneg : 0 ≤ pri) : nextTop below ≤ pri := by
  rcases hbtm with rfl | hlt
  · exact hnonneg
  · exact hlt.le

/-! ### Ticks within a level -/

theorem stepAbove_pos (h : Levels btm steps) (pri : ℤ) : 0 < stepAbove steps pri := by
  induction h with
  | last hstep => exact hstep
  | cons hstep _ _ _ _ _ ih =>
    rw [stepAbove]
    · split
      · exact hstep
      · exact ih
    · exact cons_ne_nil _ _

theorem stepBelow_pos (h : Levels btm steps) (pri : ℤ) : 0 < stepBelow steps pri := by
  induction h with
  | last hstep => exact hstep
  | cons hstep _ _ _ _ _ ih =>
    rw [stepBelow]
    · split
      · exact hstep
      · exact ih
    · exact cons_ne_nil _ _

theorem lt_nextUp (h : Levels btm steps) (pri : ℤ) : pri < nextUp steps pri := by
  rw [nextUp]
  split
  · exact lt_ediv_mul (stepAbove_pos h pri) pri
  · have hle := ediv_mul_le (stepBelow_pos h (-pri)) (-pri - 1)
    omega

/-- A tick is one up from where the price rounded down is. -/
theorem nextUp_of_nonneg (h : At steps below lv above) (hbtm : nextTop below ≤ pri) (htop : pri < lv.lvTop ∨ above = []) :
    nextUp steps pri = pri / lv.step * lv.step + lv.step := by
  rw [nextUp, if_pos (h.btm_nonneg.trans hbtm), h.stepAbove_eq hbtm htop, add_mul, one_mul]

theorem nextUp_neg (h : At steps below lv above) (hdvd : lv.step ∣ pri) (hbtm : nextTop below < pri)
    (htop : pri ≤ lv.lvTop ∨ above = []) :
    nextUp steps (-pri) = -(pri - lv.step) := by
  have hpos := h.step_pos
  have hnonneg := h.btm_nonneg
  rw [nextUp, if_neg (by omega), neg_neg, h.stepBelow_eq (.inr hbtm) htop,
    ediv_mul_eq hpos (Int.dvd_sub hdvd (dvd_refl _)) (by omega) (by omega)]

theorem iterate_nextUp (h : At steps below lv above) (hdvd : lv.step ∣ pri) (hbtm : nextTop below ≤ pri) (count : ℕ)
    (htop : pri + lv.step * count ≤ lv.lvTop ∨ above = []) : (nextUp steps)^[count] pri = pri + lv.step * count := by
  have hpos := h.step_pos
  induction count with
  | zero => simp
  | succ count ih =>
    have hmul : lv.step * (count + 1 : ℕ) = lv.step * count + lv.step := by
      push_cast
      exact mul_add_one _ _
    rw [hmul] at htop ⊢
    have hnonneg : 0 ≤ lv.step * count := mul_nonneg hpos.le (natCast_nonneg count)
    rw [iterate_succ_apply', ih (htop.imp_left (by omega)),
      nextUp_of_nonneg h (by omega) (htop.imp_left (by omega)), Int.ediv_mul_cancel (Int.dvd_add hdvd (Int.dvd_mul_right _ _)),
      add_assoc]

theorem iterate_nextUp_neg (h : At steps below lv above) (hdvd : lv.step ∣ pri) (htop : pri ≤ lv.lvTop ∨ above = [])
    (count : ℕ) (hbtm : nextTop below ≤ pri - lv.step * count) : (nextUp steps)^[count] (-pri) = -(pri - lv.step * count) := by
  have hpos := h.step_pos
  induction count with
  | zero => simp
  | succ count ih =>
    have hmul : lv.step * (count + 1 : ℕ) = lv.step * count + lv.step := by
      push_cast
      exact mul_add_one _ _
    rw [hmul] at hbtm ⊢
    have hnonneg : 0 ≤ lv.step * count := mul_nonneg hpos.le (natCast_nonneg count)
    rw [iterate_succ_apply', ih (by omega),
      nextUp_neg h (Int.dvd_sub hdvd (Int.dvd_mul_right _ _)) (by omega) (htop.imp_left (by omega)), sub_sub]

/-- The ticks that a price is from where its level ends. -/
theorem step_mul_toNat (hpos : 0 < lv.step) {x : ℤ} (hdvd : lv.step ∣ x) (hnonneg : 0 ≤ x) : lv.step * (x / lv.step).toNat = x := by
  rw [toNat_of_nonneg (ediv_nonneg hnonneg hpos.le)]
  exact Int.mul_ediv_cancel' hdvd

/-! ### The loops -/

variable {count : ℕ}

/-- More ticks than there are to the end of the level. -/
theorem exists_add_of_lt (hpos : 0 < lv.step) {x : ℤ} (hdvd : lv.step ∣ x) (hnonneg : 0 ≤ x)
    (hlt : x < lv.step * count) :
    ∃ rest, count = (x / lv.step).toNat + rest ∧ x + lv.step * rest = lv.step * count := by
  have hx := step_mul_toNat hpos hdvd hnonneg
  have hle : (x / lv.step).toNat ≤ count := by
    by_contra hgt
    have hmul : lv.step * (count : ℤ) ≤ lv.step * ((x / lv.step).toNat : ℤ) := by
      refine mul_le_mul_of_nonneg_left ?_ hpos.le
      omega
    omega
  obtain ⟨rest, hrest⟩ := Nat.exists_eq_add_of_le hle
  refine ⟨rest, hrest, ?_⟩
  have hcast : (count : ℤ) = ((x / lv.step).toNat : ℤ) + (rest : ℤ) := by exact_mod_cast hrest
  rw [hcast, mul_add, hx]

section

variable (h : At steps below lv above) (hdvd : lv.step ∣ pri) (hbtm : nextTop below ≤ pri)
include h hdvd hbtm

theorem upLoop_eq (hlt : pri < lv.lvTop) (hmax : upLmt ≤ priMax) (count : ℕ) :
    upLoop upLmt (lv :: above) pri count = min ((nextUp steps)^[count] pri) upLmt ∧
      pri + lv.step * count ≤ (nextUp steps)^[count] pri := by
  induction above generalizing below lv pri count with
  | nil =>
    have hiter := iterate_nextUp h hdvd hbtm count (.inr rfl)
    have htop : lv.lvTop = priMax := by
      cases h.levels_from with
      | last _ _ _ htop => exact htop
    rw [upLoop, hiter]
    refine ⟨?_, le_rfl⟩
    split_ifs <;> omega
  | cons next above ih =>
    by_cases htop : pri + lv.step * count ≤ lv.lvTop
    · have hiter := iterate_nextUp h hdvd hbtm count (.inl htop)
      rw [upLoop, hiter]
      refine ⟨?_, le_rfl⟩
      split_ifs <;> omega
    · have hend : lv.step ∣ lv.lvTop - pri := Int.dvd_sub h.succ.of_pred.1 hdvd
      obtain ⟨rest, hrest, hsum⟩ := exists_add_of_lt h.step_pos hend (by omega) (by omega : lv.lvTop - pri < lv.step * count)
      have hall := step_mul_toNat h.step_pos hend (by omega)
      have hiter : (nextUp steps)^[count] pri = (nextUp steps)^[rest] lv.lvTop := by
        have hfirst := iterate_nextUp h hdvd hbtm ((lv.lvTop - pri) / lv.step).toNat (.inl (by omega))
        rw [hrest, add_comm, iterate_add_apply, hfirst]
        congr 1
        omega
      obtain ⟨hloop, hfar⟩ := ih h.succ h.succ.dvd_btm le_rfl h.succ.btm_lt rest
      simp only [nextTop] at hloop hfar
      have hstep : lv.step * (rest : ℤ) ≤ next.step * rest :=
        mul_le_mul_of_nonneg_right h.succ.of_pred.2 (natCast_nonneg rest)
      have hcount : count - ((lv.lvTop - pri) / lv.step).toNat = rest := by omega
      rw [upLoop, hiter, hcount, hloop]
      refine ⟨?_, by omega⟩
      split_ifs <;> omega

/-- Behind the ticks to where a level ends below, the rest is gone from there. -/
theorem exists_rest_of_lt (htop : pri ≤ lv.lvTop ∨ above = []) (hleave : ¬ nextTop below ≤ pri - lv.step * count) :
    ∃ rest, count - ((pri - nextTop below) / lv.step).toNat = rest ∧ pri - nextTop below + lv.step * rest = lv.step * count ∧
      (nextUp steps)^[count] (-pri) = (nextUp steps)^[rest] (-nextTop below) := by
  have hend : lv.step ∣ pri - nextTop below := Int.dvd_sub hdvd h.dvd_btm
  obtain ⟨rest, hrest, hsum⟩ := exists_add_of_lt h.step_pos hend (by omega) (by omega : pri - nextTop below < lv.step * count)
  have hall := step_mul_toNat h.step_pos hend (by omega)
  refine ⟨rest, by omega, hsum, ?_⟩
  have hfirst := iterate_nextUp_neg h hdvd htop ((pri - nextTop below) / lv.step).toNat (by omega)
  have hsub : pri - (pri - nextTop below) = nextTop below := by omega
  rw [hall, hsub] at hfirst
  rw [hrest, add_comm, iterate_add_apply, hfirst]

/-- From below zero the limit is compared with where the ticks of the level would lead. -/
theorem upToZeroLoop_eq (htop : pri ≤ lv.lvTop ∨ above = []) (hmax : upLmt ≤ priMax) (count : ℕ) :
    Sum.elim id (upLoop upLmt steps 0) (upToZeroLoop upLmt lv below pri count) =
      if upLmt ≤ -(pri - lv.step * count) then upLmt else min ((nextUp steps)^[count] (-pri)) upLmt := by
  induction below generalizing lv above pri count with
  | nil =>
    rw [upToZeroLoop]
    by_cases hlmt : upLmt ≤ -(pri - lv.step * count)
    · rw [if_pos hlmt, if_pos hlmt]
      rfl
    · rw [if_neg hlmt, if_neg hlmt]
      by_cases hbelow : nextTop [] ≤ pri - lv.step * count
      · rw [if_pos hbelow, iterate_nextUp_neg h hdvd htop count hbelow, min_eq_left (not_le.mp hlmt).le]
        rfl
      · obtain ⟨rest, hcount, -, hiter⟩ := exists_rest_of_lt h hdvd hbtm htop hbelow
        have heq : steps = lv :: above := h.eq
        have hzero := (upLoop_eq h (Int.dvd_zero _) le_rfl h.btm_lt hmax rest).1
        rw [if_neg hbelow, hcount, hiter, heq]
        rw [heq] at hzero
        exact hzero
  | cons lv' below ih =>
    rw [upToZeroLoop]
    by_cases hlmt : upLmt ≤ -(pri - lv.step * count)
    · rw [if_pos hlmt, if_pos hlmt]
      rfl
    · rw [if_neg hlmt, if_neg hlmt]
      by_cases hbelow : nextTop (lv' :: below) ≤ pri - lv.step * count
      · rw [if_pos hbelow, iterate_nextUp_neg h hdvd htop count hbelow, min_eq_left (not_le.mp hlmt).le]
        rfl
      · obtain ⟨rest, hcount, hsum, hiter⟩ := exists_rest_of_lt h hdvd hbtm htop hbelow
        have hstep : lv'.step * (rest : ℤ) ≤ lv.step * rest :=
          mul_le_mul_of_nonneg_right h.of_pred.2 (natCast_nonneg rest)
        have hnear : ¬ upLmt ≤ -(lv'.lvTop - lv'.step * rest) := by
          simp only [nextTop] at hsum
          omega
        have hrest := ih h.pred h.of_pred.1 h.pred.btm_lt.le (.inl le_rfl) rest
        rw [if_neg hnear] at hrest
        rw [if_neg hbelow, hcount, hiter]
        exact hrest

/-! ### Many ticks at once -/

end

theorem Levels.top_le (h : Levels btm steps) : ∀ lv ∈ steps, lv.lvTop ≤ priMax := by
  induction h with
  | last _ _ _ htop => simp [htop]
  | @cons lv lv' steps btm _ _ _ _ _ hrest ih =>
    have hlt := hrest.btm_lt
    have hle := ih lv' mem_cons_self
    intro x hx
    rcases mem_cons.mp hx with rfl | hx
    · exact hlt.le.trans hle
    · exact ih x hx

/-- The table has no second level where the first one has no end. -/
theorem Levels.eq_nil_of_top (h : Levels btm (lv :: above)) (htop : lv.lvTop = priMax) : above = [] := by
  cases h with
  | last => rfl
  | @cons _ lv' _ _ _ _ _ _ _ hrest =>
    have hlt := hrest.btm_lt
    have hle := hrest.top_le lv' mem_cons_self
    omega

/-- A price of a level, rounded down, is still in it. -/
theorem le_ediv_mul_of_dvd {s x p : ℤ} (hs : 0 < s) (hx : s ∣ x) (hle : x ≤ p) : x ≤ p / s * s := by
  have hdiv := mul_le_mul_of_nonneg_right (Int.ediv_le_ediv hs hle) hs.le
  rwa [Int.ediv_mul_cancel hx] at hdiv

/-- The first tick is the same from a price and from another one where it leads to the same. -/
theorem iterate_congr {f : ℤ → ℤ} {pri pri' : ℤ} (h : f pri = f pri') (hcount : 0 < count)
    : f^[count] pri = f^[count] pri' := by
  obtain ⟨n, rfl⟩ := Nat.exists_eq_succ_of_ne_zero hcount.ne'
  rw [iterate_succ_apply, iterate_succ_apply, h]

/-- With one level the ticks are the same on both sides of zero. -/
theorem nextUp_singleton (h : Levels 0 [lv]) (pri : ℤ) : nextUp [lv] pri = pri / lv.step * lv.step + lv.step := by
  have hpos := h.step_pos
  rw [nextUp]
  split_ifs with hnonneg
  · rw [stepAbove, add_mul, one_mul]
  · rw [stepBelow]
    have hle := ediv_mul_le hpos pri
    have hlt := lt_ediv_mul hpos pri
    rw [add_mul, one_mul] at hlt
    have hround : (-pri - 1) / lv.step * lv.step = -(pri / lv.step * lv.step + lv.step) :=
      ediv_mul_eq hpos (Int.dvd_neg.mpr (Int.dvd_add (Int.dvd_mul_left _ _) (dvd_refl _))) (by omega) (by omega)
    rw [hround, neg_neg]

theorem iterate_nextUp_singleton (h : Levels 0 [lv]) (pri : ℤ) (hcount : 0 < count) :
    (nextUp [lv])^[count] pri = pri / lv.step * lv.step + lv.step * count := by
  induction count, hcount using Nat.le_induction with
  | base => simp [nextUp_singleton h]
  | succ count hcount ih =>
    have hdvd : lv.step ∣ pri / lv.step * lv.step + lv.step * count := Int.dvd_add (Int.dvd_mul_left _ _) (Int.dvd_mul_right _ _)
    rw [iterate_succ_apply', ih, nextUp_singleton h, Int.ediv_mul_cancel hdvd]
    push_cast
    rw [mul_add, mul_one, add_assoc]

/-- Where the ticks of the level that a price below zero lies in lead to, as far as they go. -/
def farUp (steps : List LvPriStep) (pri : ℤ) (count : ℕ) : ℤ :=
  pri / stepBelow steps (-pri) * stepBelow steps (-pri) + stepBelow steps (-pri) * count

section Up

variable {count : ℕ}

theorem moveTicksUp_of_le (steps : List LvPriStep) (count : ℕ) (hlmt : upLmt ≤ pri) : moveTicksUp steps pri count upLmt = upLmt := by
  cases steps with
  | nil => rw [moveTicksUp, if_pos hlmt]
  | cons => rw [moveTicksUp, if_pos hlmt]

theorem moveTicksUp_singleton (h : Levels 0 [lv]) (hcount : 0 < count) (hlmt : pri < upLmt) :
    moveTicksUp [lv] pri count upLmt = min ((nextUp [lv])^[count] pri) upLmt := by
  have htop : lv.lvTop = priMax := by
    cases h with
    | last _ _ _ htop => exact htop
  rw [moveTicksUp, if_neg (not_le.mpr hlmt), if_pos htop]
  dsimp only
  rw [roundDown_eq h.step_pos, iterate_nextUp_singleton h pri hcount]

theorem moveTicksUp_of_nonneg (h : Levels 0 (lv :: lv' :: above)) (hcount : 0 < count) (hlmt : pri < upLmt) (hmax : upLmt ≤ priMax)
    (hnonneg : 0 ≤ pri) :
    moveTicksUp (lv :: lv' :: above) pri count upLmt = min ((nextUp (lv :: lv' :: above))^[count] pri) upLmt := by
  have htop : lv.lvTop ≠ priMax := fun htop => cons_ne_nil _ _ (h.eq_nil_of_top htop)
  obtain ⟨below, at', above', hfind, hat, hle, hfrom⟩ := findPriTickStep_at (.head h) (.inl rfl) (by omega : pri ≤ priMax)
  have hbtm := nextTop_le hfrom hnonneg
  have hpos := hat.step_pos
  rw [moveTicksUp, if_neg (not_le.mpr hlmt), if_neg htop, if_pos hnonneg, hfind]
  dsimp only
  by_cases hend : pri = at'.lvTop
  · rw [if_pos hend, if_neg hcount.ne', hend]
    cases above' with
    | nil =>
      cases hat.levels_from with
      | last _ _ _ htop => omega
    | cons next above' => exact (upLoop_eq hat.succ hat.succ.dvd_btm le_rfl hat.succ.btm_lt hmax count).1
  · have hlt : pri < at'.lvTop := by omega
    have hfloor := ediv_mul_le hpos pri
    have hfrom' := le_ediv_mul_of_dvd hpos hat.dvd_btm hbtm
    rw [if_neg hend, if_neg hcount.ne', tmod_of_nonneg hnonneg, sub_emod_eq,
      (upLoop_eq hat (Int.dvd_mul_left _ _) hfrom' (by omega) hmax count).1]
    congr 1
    refine iterate_congr ?_ hcount
    rw [nextUp_of_nonneg hat hfrom' (.inl (by omega)), nextUp_of_nonneg hat hbtm (.inl hlt),
      Int.ediv_mul_cancel (Int.dvd_mul_left _ _)]

theorem moveTicksUp_of_neg (h : Levels 0 (lv :: lv' :: above)) (hcount : 0 < count) (hmin : -priMax ≤ pri) (hlmt : pri < upLmt)
    (hmax : upLmt ≤ priMax) (hneg : pri < 0) :
    moveTicksUp (lv :: lv' :: above) pri count upLmt =
      if upLmt ≤ farUp (lv :: lv' :: above) pri count then upLmt
      else min ((nextUp (lv :: lv' :: above))^[count] pri) upLmt := by
  have htop : lv.lvTop ≠ priMax := fun htop => cons_ne_nil _ _ (h.eq_nil_of_top htop)
  obtain ⟨below, at', above', hfind, hat, hle, hbtm⟩ := findPriTickStep_at (.head h) (.inl rfl) (by omega : 0 - pri ≤ priMax)
  have hpos := hat.step_pos
  have hbtm : nextTop below < -pri := by
    rcases hbtm with rfl | hbtm
    · simp only [nextTop]
      omega
    · omega
  have hround := neg_roundUp hpos (-pri)
  have hlow := ediv_mul_le hpos pri
  have hhigh := lt_ediv_mul hpos pri
  rw [add_mul, one_mul] at hhigh
  rw [neg_neg] at hround
  have hdvd : at'.step ∣ -(pri / at'.step * at'.step) := Int.dvd_neg.mpr (Int.dvd_mul_left _ _)
  have hend : -(pri / at'.step * at'.step) ≤ at'.lvTop ∨ above' = [] := by
    cases above' with
    | nil => exact .inr rfl
    | cons next above' =>
      have hdown := le_ediv_mul_of_dvd hpos (Int.dvd_neg.mpr hat.succ.of_pred.1) (by omega : -at'.lvTop ≤ pri)
      exact .inl (by omega)
  rw [moveTicksUp, if_neg (not_le.mpr hlmt), if_neg htop, if_neg (not_le.mpr hneg)]
  dsimp only
  rw [zero_sub] at hfind ⊢
  rw [hfind]
  dsimp only
  rw [tmod_of_nonneg (by omega), if_neg hcount.ne']
  have hstart : (if -pri % at'.step = 0 then -pri else -pri + (at'.step - -pri % at'.step)) = -(pri / at'.step * at'.step) := by
    omega
  have hfirst : nextUp (lv :: lv' :: above) (- -(pri / at'.step * at'.step)) = nextUp (lv :: lv' :: above) pri := by
    have hprev : (-pri - 1) / at'.step * at'.step = -(pri / at'.step * at'.step) - at'.step :=
      ediv_mul_eq hpos (Int.dvd_sub hdvd (dvd_refl _)) (by omega) (by omega)
    rw [nextUp_neg hat hdvd (by omega) hend, nextUp, if_neg (by omega), hat.stepBelow_eq (.inr hbtm) (.inl (by omega)), hprev]
  rw [hstart, upToZeroLoop_eq hat hdvd (by omega) hend hmax count, farUp, hat.stepBelow_eq (.inr hbtm) (.inl (by omega)),
    iterate_congr hfirst hcount]
  congr 2
  omega

/-- Any number of ticks at once: below zero the limit may stop the price too early. -/
theorem moveTicksUp_eq (h : Levels 0 steps) (hcount : 0 < count) (hmin : -priMax ≤ pri) (hlmt : pri < upLmt) (hmax : upLmt ≤ priMax) :
    moveTicksUp steps pri count upLmt =
      if pri < 0 ∧ upLmt ≤ farUp steps pri count then upLmt else min ((nextUp steps)^[count] pri) upLmt := by
  cases h with
  | @last lv _ hstep hbtm hlt htop =>
    have h : Levels 0 [lv] := .last hstep hbtm hlt htop
    rw [moveTicksUp_singleton h hcount hlmt]
    split_ifs with hfar
    · rw [iterate_nextUp_singleton h pri hcount]
      exact min_eq_right hfar.2
    · rfl
  | @cons lv lv' above _ hstep hbtm hlt htop hle hrest =>
    have h : Levels 0 (lv :: lv' :: above) := .cons hstep hbtm hlt htop hle hrest
    rcases le_or_gt 0 pri with hnonneg | hneg
    · rw [moveTicksUp_of_nonneg h hcount hlmt hmax hnonneg, if_neg (by omega)]
    · rw [moveTicksUp_of_neg h hcount hmin hlmt hmax hneg]
      simp only [hneg, true_and]

/-- Ticks that stop at a limit. -/
theorem iterate_tickUp (h : Levels btm steps) (hlmt : pri < upLmt) (count : ℕ) :
    (tickUp steps upLmt)^[count] pri = min ((nextUp steps)^[count] pri) upLmt := by
  induction count with
  | zero => exact (min_eq_left hlmt.le).symm
  | succ count ih =>
    have hup := lt_nextUp h ((nextUp steps)^[count] pri)
    rw [iterate_succ_apply', iterate_succ_apply', ih, tickUp]
    rcases lt_or_ge ((nextUp steps)^[count] pri) upLmt with hlt | hge
    · rw [min_eq_left hlt.le, if_neg (not_le.mpr hlt)]
    · rw [min_eq_right hge, if_pos le_rfl]
      exact (min_eq_right (hge.trans hup.le)).symm

theorem iterate_tickUp_of_le (steps : List LvPriStep) (hlmt : upLmt ≤ pri) (hcount : 0 < count) :
    (tickUp steps upLmt)^[count] pri = upLmt := by
  induction count, hcount using Nat.le_induction with
  | base => exact if_pos hlmt
  | succ count _ ih => rw [iterate_succ_apply', ih, tickUp, if_pos le_rfl]

theorem moveTicksUp_iff (h : Levels 0 steps) (hcount : 0 < count) (hmin : -priMax ≤ pri) (hmax : upLmt ≤ priMax) :
    moveTicksUp steps pri count upLmt = (tickUp steps upLmt)^[count] pri ↔
      (pri < 0 → (tickUp steps upLmt)^[count] pri < upLmt → farUp steps pri count < upLmt) := by
  rcases le_or_gt upLmt pri with hlmt | hlmt
  · rw [moveTicksUp_of_le steps count hlmt, iterate_tickUp_of_le steps hlmt hcount]
    exact iff_of_true rfl fun _ hlt => absurd hlt (lt_irrefl _)
  · rw [moveTicksUp_eq h hcount hmin hlmt hmax, iterate_tickUp h hlmt]
    split_ifs with hfar
    · constructor
      · intro heq _ hlt
        omega
      · intro himp
        by_contra hne
        exact absurd (himp hfar.1 (by omega)) (not_lt.mpr hfar.2)
    · exact iff_of_true rfl fun hneg _ => not_le.mp fun hle => hfar ⟨hneg, hle⟩

end Up

/-! ### Downward -/

section Mirror

variable (steps : List LvPriStep) (pri : ℤ) (count : ℕ) (dnLmt : ℤ)

theorem nextDn_eq : nextDn steps pri = -nextUp steps (-pri) := by
  rw [nextDn, nextUp, neg_neg]
  by_cases hpos : 0 < pri
  · rw [if_pos hpos, if_neg (by omega), neg_neg]
  · rw [if_neg hpos, if_pos (by omega)]

theorem tickDn_eq : tickDn steps dnLmt pri = -tickUp steps (-dnLmt) (-pri) := by
  rw [tickDn, tickUp, nextDn_eq]
  split_ifs <;> omega

theorem iterate_tickDn : (tickDn steps dnLmt)^[count] pri = -(tickUp steps (-dnLmt))^[count] (-pri) := by
  induction count with
  | zero => exact (neg_neg pri).symm
  | succ count ih => rw [iterate_succ_apply', iterate_succ_apply', ih, tickDn_eq, neg_neg]

theorem dnLoop_eq : dnLoop dnLmt steps pri count = -upLoop (-dnLmt) steps pri count := by
  induction steps generalizing pri count with
  | nil => rfl
  | cons lv steps ih =>
    rw [dnLoop, upLoop, ih]
    split_ifs <;> omega

theorem dnToZeroLoop_eq (lv : LvPriStep) (below : List LvPriStep) :
    dnToZeroLoop dnLmt lv below pri count = (upToZeroLoop (-dnLmt) lv below pri count).map Neg.neg id := by
  induction below generalizing lv pri count with
  | nil =>
    rw [dnToZeroLoop, upToZeroLoop]
    split_ifs <;> first | omega | simp
  | cons lv' below ih =>
    rw [dnToZeroLoop, upToZeroLoop]
    split_ifs <;> first | omega | simp [ih]

/-- Downward is upward in the mirror. -/
theorem moveTicksDn_eq : moveTicksDn steps pri count dnLmt = -moveTicksUp steps (-pri) count (-dnLmt) := by
  cases steps with
  | nil =>
    rw [moveTicksDn, moveTicksUp]
    split_ifs <;> omega
  | cons first rest =>
    rw [moveTicksDn, moveTicksUp]
    by_cases hlmt : pri ≤ dnLmt
    · rw [if_pos hlmt, if_pos (neg_le_neg hlmt), neg_neg]
    rw [if_neg hlmt, if_neg (by omega : ¬ -dnLmt ≤ -pri)]
    by_cases htop : first.lvTop = priMax
    · rw [if_pos htop, if_pos htop]
      dsimp only
      rw [neg_tmod]
      split_ifs <;> omega
    rw [if_neg htop, if_neg htop]
    by_cases hpos : 0 < pri
    · rw [if_pos hpos, if_neg (by omega : ¬ 0 ≤ -pri)]
      dsimp only
      rw [zero_sub, neg_neg]
      rcases findPriTickStep [] pri (first :: rest) with ⟨below, _ | ⟨lv, above⟩⟩
      · simp
      · dsimp only
        by_cases hcount : count = 0
        · rw [if_pos hcount, if_pos hcount]
          omega
        · rw [if_neg hcount, if_neg hcount, dnToZeroLoop_eq]
          cases upToZeroLoop (-dnLmt) lv below _ count with
          | inl pri => rfl
          | inr count => exact dnLoop_eq _ 0 count dnLmt
    · rw [if_neg hpos, if_pos (by omega : 0 ≤ -pri)]
      dsimp only
      rw [zero_sub]
      rcases findPriTickStep [] (-pri) (first :: rest) with ⟨below, _ | ⟨lv, above⟩⟩
      · simp
      · dsimp only
        rw [dnLoop_eq, dnLoop_eq]
        split_ifs <;> omega

end Mirror

/-- Below zero, a limit that the ticks do not come to is not come to by ticks of the first level either. -/
def UpMeets (steps : List LvPriStep) (pri : ℤ) (count : ℕ) (upLmt : ℤ) : Prop :=
  pri < 0 → (tickUp steps upLmt)^[count] pri < upLmt → farUp steps pri count < upLmt

def farDn (steps : List LvPriStep) (pri : ℤ) (count : ℕ) : ℤ := -farUp steps (-pri) count

def DnMeets (steps : List LvPriStep) (pri : ℤ) (count : ℕ) (dnLmt : ℤ) : Prop :=
  0 < pri → dnLmt < (tickDn steps dnLmt)^[count] pri → dnLmt < farDn steps pri count

theorem upMeets_neg (steps : List LvPriStep) (pri : ℤ) (count : ℕ) (dnLmt : ℤ) :
    UpMeets steps (-pri) count (-dnLmt) ↔ DnMeets steps pri count dnLmt := by
  rw [UpMeets, DnMeets, iterate_tickDn, farDn]
  omega

theorem moveTicksDn_iff (h : Levels 0 steps) (hcount : 0 < count) (hmax : pri ≤ priMax) (hmin : -priMax ≤ dnLmt) :
    moveTicksDn steps pri count dnLmt = (tickDn steps dnLmt)^[count] pri ↔ DnMeets steps pri count dnLmt := by
  rw [moveTicksDn_eq, iterate_tickDn, neg_inj, moveTicksUp_iff h hcount (neg_le_neg hmax) (by omega), ← upMeets_neg]
  rfl

/-- Ticks upward do not lead below a bound of the price and the limit. -/
theorem le_iterate_tickUp (h : Levels btm steps) {low : ℤ} (hlmt : low ≤ upLmt) (hpri : low ≤ pri) (count : ℕ) :
    low ≤ (tickUp steps upLmt)^[count] pri := by
  induction count with
  | zero => exact hpri
  | succ count ih =>
    have hup := lt_nextUp h ((tickUp steps upLmt)^[count] pri)
    rw [iterate_succ_apply', tickUp]
    split_ifs
    · exact hlmt
    · exact le_min (ih.trans hup.le) hlmt

/-- Ticks in two goes are ticks in one. -/
theorem moveTicksUp_add (h : Levels 0 steps) {m n : ℕ} (hm : 0 < m) (hn : 0 < n) (hmin : -priMax ≤ pri) (hlow : -priMax ≤ upLmt)
    (hmax : upLmt ≤ priMax) (hfirst : UpMeets steps pri m upLmt) (hsecond : UpMeets steps ((tickUp steps upLmt)^[m] pri) n upLmt)
    (hboth : UpMeets steps pri (m + n) upLmt) :
    moveTicksUp steps (moveTicksUp steps pri m upLmt) n upLmt = moveTicksUp steps pri (m + n) upLmt := by
  rw [(moveTicksUp_iff h hm hmin hmax).mpr hfirst, (moveTicksUp_iff h hn (le_iterate_tickUp h hlow hmin m) hmax).mpr hsecond,
    (moveTicksUp_iff h (Nat.add_pos_left hm n) hmin hmax).mpr hboth, add_comm, iterate_add_apply]

theorem moveTicksDn_add (h : Levels 0 steps) {m n : ℕ} (hm : 0 < m) (hn : 0 < n) (hpri : pri ≤ priMax) (hlow : -priMax ≤ dnLmt)
    (hmax : dnLmt ≤ priMax) (hfirst : DnMeets steps pri m dnLmt) (hsecond : DnMeets steps ((tickDn steps dnLmt)^[m] pri) n dnLmt)
    (hboth : DnMeets steps pri (m + n) dnLmt) :
    moveTicksDn steps (moveTicksDn steps pri m dnLmt) n dnLmt = moveTicksDn steps pri (m + n) dnLmt := by
  have hle : (tickDn steps dnLmt)^[m] pri ≤ priMax := by
    rw [iterate_tickDn, neg_le]
    exact le_iterate_tickUp h (neg_le_neg hmax) (neg_le_neg hpri) m
  rw [(moveTicksDn_iff h hm hpri hlow).mpr hfirst, (moveTicksDn_iff h hn hle hlow).mpr hsecond,
    (moveTicksDn_iff h (Nat.add_pos_left hm n) hpri hlow).mpr hboth, add_comm, iterate_add_apply]

/-- Moving a price by ticks is moving it by one tick again and again, up and down, exactly where the
limit is not taken too early; then it does not matter in how many goes the ticks are moved. -/
theorem moveTicks_iff (h : Levels 0 steps) {lmt : ℤ} (hmin : -priMax ≤ pri) (hmax : pri ≤ priMax) (hlow : -priMax ≤ lmt)
    (hhigh : lmt ≤ priMax) :
    (∀ count, 0 < count →
      (moveTicksUp steps pri count lmt = (tickUp steps lmt)^[count] pri ↔ UpMeets steps pri count lmt) ∧
        (moveTicksDn steps pri count lmt = (tickDn steps lmt)^[count] pri ↔ DnMeets steps pri count lmt)) ∧
      ∀ m n, 0 < m → 0 < n →
        (UpMeets steps pri m lmt → UpMeets steps ((tickUp steps lmt)^[m] pri) n lmt → UpMeets steps pri (m + n) lmt →
          moveTicksUp steps (moveTicksUp steps pri m lmt) n lmt = moveTicksUp steps pri (m + n) lmt) ∧
          (DnMeets steps pri m lmt → DnMeets steps ((tickDn steps lmt)^[m] pri) n lmt → DnMeets steps pri (m + n) lmt →
            moveTicksDn steps (moveTicksDn steps pri m lmt) n lmt = moveTicksDn steps pri (m + n) lmt) := by
  refine ⟨fun count hcount => ⟨moveTicksUp_iff h hcount hmin hhigh, moveTicksDn_iff h hcount hmax hlow⟩, ?_⟩
  intro m n hm hn
  exact ⟨moveTicksUp_add h hm hn hmin hlow hhigh, moveTicksDn_add h hm hn hmax hlow hhigh⟩

/-- Ticks of 0.01 up to 10 and of 0.05 above. -/
theorem levels_twoSteps : Levels 0 [⟨1000000000, 1000000⟩, ⟨priMax, 5000000⟩] :=
  .cons (by decide) (by decide) (by decide) (by decide) (by decide) (.last (by decide) (by decide) (by decide) rfl)

/-- Three ticks up from 9.98 are past 10. -/
theorem moveTicksUp_twoSteps :
    moveTicksUp [⟨1000000000, 1000000⟩, ⟨priMax, 5000000⟩] 998000000 3 2000000000 =
      (tickUp [⟨1000000000, 1000000⟩, ⟨priMax, 5000000⟩] 2000000000)^[3] 998000000 :=
  (((moveTicks_iff levels_twoSteps (by decide) (by decide) (by decide) (by decide)).1 3 (by decide)).1).mpr
    fun hneg => absurd hneg (by decide)

/-- Three ticks up from -10.05 are -9.98, but with the limit -9.95 the code goes to the limit. -/
theorem moveTicksUp_ne :
    ¬ ∀ (steps : List LvPriStep) (pri lmt : ℤ) (count : ℕ), Levels 0 steps → -priMax ≤ pri → pri ≤ priMax → -priMax ≤ lmt →
      lmt ≤ priMax → 0 < count → moveTicksUp steps pri count lmt = (tickUp steps lmt)^[count] pri := by
  intro h
  exact absurd (h _ (-1005000000) (-995000000) 3 levels_twoSteps (by decide) (by decide) (by decide) (by decide) (by decide))
    (by decide)

end Fon9.Fmkt
