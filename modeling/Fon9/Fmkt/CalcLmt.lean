import Fon9.Fmkt.MoveTicks
import Mathlib.Order.Bounds.Basic

/-! The limits of a day's prices: the reference price less and plus an adjustment, rounded to ticks
inward, or a tick from where the given limits are. -/

namespace Fon9.Fmkt

open Int

variable (steps : List LvPriStep)

/-- `CheckPriTickSize` -/
def checkPriTickSize (pri : ℤ) : Bool :=
  let pri := if pri < 0 then 0 - pri else pri
  match (findPriTickStep [] pri steps).steps with
  | [] => decide (pri.tmod pri = 0)
  | lv :: _ => decide (pri.tmod lv.step = 0)

/-- The lower limit of `CalcLmt`, and where the pointer is then; `dnLmt` is Null or the floor. -/
def calcDnLmt (dn : ℤ) (dnLmt : Option ℤ) : ℤ × LvPtr :=
  match dnLmt, steps with
  | some floor, first :: _ => if dn ≤ floor then (first.step, ⟨[], steps⟩) else roundUp
  | _, _ => roundUp
where
  roundUp : ℤ × LvPtr :=
    let ptr := findPriTickStep [] dn steps
    match ptr.steps with
    | [] => (dn, ptr)
    | lv :: _ =>
      let mod := dn.tmod lv.step
      (if mod = 0 then dn else dn + (lv.step - mod), ptr)

/-- A price below the cap, or the cap less the tick at hand. -/
def capUp (up step : ℤ) : Option ℤ → ℤ
  | none => up
  | some cap => if up < cap then up else cap - step

/-- The upper limit, from where the pointer is; `upLmt` is Null or the cap. -/
def calcUpLmt (ptr : LvPtr) (up : ℤ) (upLmt : Option ℤ) : ℤ :=
  match (findPriTickStep ptr.below up ptr.steps).steps with
  | [] => up
  | lv :: _ => capUp (up - up.tmod lv.step) lv.step upLmt

/-- `CalcLmt` with the adjustment that the rate gives; a limit that is not asked for is none. What is
written to `*pUpLmt` and to `*pDnLmt`. -/
def calcLmt (ref adj : ℤ) (pUpLmt pDnLmt : Option (Option ℤ)) : Option ℤ × Option ℤ :=
  let dn := pDnLmt.map (calcDnLmt steps (ref - adj))
  let ptr :=
    match dn with
    | some dn => dn.2
    | none => ⟨[], steps⟩
  (pUpLmt.map (calcUpLmt ptr (ref + adj)), dn.map Prod.fst)

/-! ### Valid ticks -/

/-- A price that `CheckPriTickSize` takes. -/
structure ValidTick (steps : List LvPriStep) (pri : ℤ) : Prop where
  min : -priMax ≤ pri
  max : pri ≤ priMax
  check : checkPriTickSize steps pri = true

variable {steps below above : List LvPriStep} {lv : LvPriStep} {pri : ℤ}

theorem Levels.exists_at (h : Levels 0 steps) (hmax : pri ≤ priMax) :
    ∃ below lv above, findPriTickStep [] pri steps = ⟨below, lv :: above⟩ ∧ At steps below lv above ∧ pri ≤ lv.lvTop ∧
      (below = [] ∨ nextTop below < pri) := by
  cases h with
  | last hstep hbtm hlt htop => exact findPriTickStep_at (.head (.last hstep hbtm hlt htop)) (.inl rfl) hmax
  | cons hstep hbtm hlt htop hle hrest => exact findPriTickStep_at (.head (.cons hstep hbtm hlt htop hle hrest)) (.inl rfl) hmax

theorem checkPriTickSize_iff (h : Levels 0 steps) (hmin : -priMax ≤ pri) (hmax : pri ≤ priMax) :
    checkPriTickSize steps pri = true ↔ stepBelow steps |pri| ∣ |pri| := by
  have habs : (if pri < 0 then 0 - pri else pri) = |pri| := by
    split_ifs with hneg
    · rw [abs_of_neg hneg, zero_sub]
    · rw [abs_of_nonneg (not_lt.mp hneg)]
  obtain ⟨below, lv, above, hfind, hat, htop, hbtm⟩ := h.exists_at (by rw [← habs]; split_ifs <;> omega : |pri| ≤ priMax)
  rw [checkPriTickSize, habs, hfind, hat.stepBelow_eq hbtm (.inl htop)]
  dsimp only
  rw [decide_eq_true_iff, tmod_of_nonneg (abs_nonneg pri), dvd_iff_emod_eq_zero]

theorem validTick_neg (h : Levels 0 steps) : ValidTick steps (-pri) ↔ ValidTick steps pri := by
  have hiff : ∀ pri, ValidTick steps pri → ValidTick steps (-pri) := by
    intro pri hvalid
    have hmin := hvalid.min
    have hmax := hvalid.max
    refine ⟨by omega, by omega, ?_⟩
    rw [checkPriTickSize_iff h (by omega) (by omega), abs_neg, ← checkPriTickSize_iff h hmin hmax]
    exact hvalid.check
  exact ⟨fun hvalid => neg_neg pri ▸ hiff _ hvalid, hiff pri⟩

/-- In a level the valid ticks are the multiples of its tick. -/
theorem validTick_iff (h : At steps below lv above) (hnonneg : 0 ≤ pri) (hbtm : below = [] ∨ nextTop below < pri)
    (htop : pri ≤ lv.lvTop ∨ above = []) : ValidTick steps pri ↔ lv.step ∣ pri ∧ pri ≤ priMax := by
  constructor
  · intro hvalid
    have hcheck := (checkPriTickSize_iff h.levels hvalid.min hvalid.max).mp hvalid.check
    rw [abs_of_nonneg hnonneg, h.stepBelow_eq hbtm htop] at hcheck
    exact ⟨hcheck, hvalid.max⟩
  · rintro ⟨hdvd, hmax⟩
    refine ⟨by omega, hmax, (checkPriTickSize_iff h.levels (by omega) hmax).mpr ?_⟩
    rwa [abs_of_nonneg hnonneg, h.stepBelow_eq hbtm htop]

/-- So is where a level begins. -/
theorem validTick_btm (h : At steps below lv above) (hmax : nextTop below ≤ priMax) : ValidTick steps (nextTop below) := by
  cases below with
  | nil => exact (validTick_iff h le_rfl (.inl rfl) (.inl h.btm_lt.le)).mpr ⟨Int.dvd_zero _, hmax⟩
  | cons lv' below =>
    exact (validTick_iff h.pred h.btm_nonneg (.inr h.pred.btm_lt) (.inl le_rfl)).mpr ⟨h.of_pred.1, hmax⟩

section Round

variable (h : At steps below lv above) (hnonneg : 0 ≤ pri) (hbtm : below = [] ∨ nextTop below < pri) (htop : pri ≤ lv.lvTop)
include h hnonneg hbtm htop

/-- The largest valid tick that is not above a price. -/
theorem isGreatest_floor (hmax : pri ≤ priMax) : IsGreatest {t | ValidTick steps t ∧ t ≤ pri} (pri / lv.step * lv.step) := by
  have hpos := h.step_pos
  have hle := ediv_mul_le hpos pri
  have hlt := lt_ediv_mul hpos pri
  have hfrom := le_ediv_mul_of_dvd hpos h.dvd_btm (nextTop_le hbtm hnonneg)
  have hzero := h.btm_nonneg
  rw [add_mul, one_mul] at hlt
  constructor
  · refine ⟨?_, hle⟩
    rcases hfrom.lt_or_eq with hfrom | hfrom
    · exact (validTick_iff h (by omega) (.inr hfrom) (.inl (by omega))).mpr ⟨Int.dvd_mul_left _ _, by omega⟩
    · rw [← hfrom]
      exact validTick_btm h (by omega)
  · rintro t ⟨hvalid, ht⟩
    by_contra habove
    have hdvd := ((validTick_iff h (by omega) (.inr (by omega)) (.inl (by omega))).mp hvalid).1
    have heq := ediv_mul_eq hpos hdvd ht (by omega)
    omega

/-- The smallest valid tick that is not below a price, where there is one. -/
theorem isLeast_ceil (hex : ∃ t, ValidTick steps t ∧ pri ≤ t) : IsLeast {t | ValidTick steps t ∧ pri ≤ t} (-(-pri / lv.step * lv.step)) := by
  have hpos := h.step_pos
  have hle := ediv_mul_le hpos (-pri)
  have hlt := lt_ediv_mul hpos (-pri)
  rw [add_mul, one_mul] at hlt
  have hdvd : lv.step ∣ -(-pri / lv.step * lv.step) := Int.dvd_neg.mpr (Int.dvd_mul_left _ _)
  have hend : -(-pri / lv.step * lv.step) ≤ lv.lvTop ∨ above = [] := by
    cases above with
    | nil => exact .inr rfl
    | cons next above =>
      have hdown := le_ediv_mul_of_dvd hpos (Int.dvd_neg.mpr h.succ.of_pred.1) (neg_le_neg htop)
      exact .inl (by omega)
  have hleast : ∀ t, ValidTick steps t → pri ≤ t → -(-pri / lv.step * lv.step) ≤ t := by
    intro t hvalid ht
    by_cases hin : t ≤ lv.lvTop ∨ above = []
    · have hdvd := ((validTick_iff h (by omega) (hbtm.imp_right fun hlt => hlt.trans_le ht) hin).mp hvalid).1
      have hround := le_ediv_mul_of_dvd hpos (Int.dvd_neg.mpr hdvd) (neg_le_neg ht)
      omega
    · rw [not_or] at hin
      have hend := hend.resolve_right hin.2
      omega
  obtain ⟨t, hvalid, ht⟩ := hex
  have hmax := (hleast t hvalid ht).trans hvalid.max
  exact ⟨⟨(validTick_iff h (by omega) (hbtm.imp_right fun hlt => by omega) hend).mpr ⟨hdvd, hmax⟩, by omega⟩,
    fun t ht => hleast t ht.1 ht.2⟩

end Round

/-- In the mirror the largest is the smallest. -/
theorem isLeast_neg_iff (h : Levels 0 steps) {t : ℤ} :
    IsLeast {t | ValidTick steps t ∧ -pri ≤ t} (-t) ↔ IsGreatest {t | ValidTick steps t ∧ t ≤ pri} t := by
  constructor
  · rintro ⟨⟨hvalid, hle⟩, hleast⟩
    refine ⟨⟨(validTick_neg h).mp hvalid, by omega⟩, ?_⟩
    rintro t' ⟨hvalid', hle'⟩
    exact neg_le_neg_iff.mp (hleast ⟨(validTick_neg h).mpr hvalid', neg_le_neg hle'⟩)
  · rintro ⟨⟨hvalid, hle⟩, hgreatest⟩
    refine ⟨⟨(validTick_neg h).mpr hvalid, neg_le_neg hle⟩, ?_⟩
    rintro t' ⟨hvalid', hle'⟩
    have hup := hgreatest ⟨(validTick_neg h).mpr hvalid', by omega⟩
    omega

theorem isGreatest_neg_iff (h : Levels 0 steps) {t : ℤ} :
    IsGreatest {t | ValidTick steps t ∧ t ≤ -pri} (-t) ↔ IsLeast {t | ValidTick steps t ∧ pri ≤ t} t := by
  rw [← isLeast_neg_iff h, neg_neg, neg_neg]

/-- One tick down from a valid tick is a valid tick. -/
theorem nextDn_validTick (h : Levels 0 steps) (hpos : 0 < pri) (hvalid : ValidTick steps pri) :
    nextDn steps pri = pri - stepBelow steps pri ∧ ValidTick steps (nextDn steps pri) ∧ nextDn steps pri < pri := by
  have hmax := hvalid.max
  obtain ⟨below, lv, above, -, hat, htop, hbtm⟩ := h.exists_at hmax
  have hstep := hat.step_pos
  have hdvd := ((validTick_iff hat hpos.le hbtm (.inl htop)).mp hvalid).1
  have hlt : nextTop below < pri := by
    rcases hbtm with rfl | hlt
    · exact hpos
    · exact hlt
  have hsub := Int.dvd_sub hdvd (dvd_refl lv.step)
  have hdown : (pri - 1) / lv.step * lv.step = pri - lv.step := ediv_mul_eq hstep hsub (by omega) (by omega)
  have hfrom := le_ediv_mul_of_dvd hstep hat.dvd_btm (by omega : nextTop below ≤ pri - 1)
  have hzero := hat.btm_nonneg
  rw [nextDn, if_pos hpos, hat.stepBelow_eq hbtm (.inl htop), hdown]
  refine ⟨rfl, ?_, by omega⟩
  rcases hfrom.lt_or_eq with hfrom | hfrom
  · exact (validTick_iff hat (by omega) (.inr (by omega)) (.inl (by omega))).mpr ⟨hsub, by omega⟩
  · rw [← hdown, ← hfrom]
    exact validTick_btm hat (by omega)

/-! ### The lower limit -/

/-- The first tick where there is a floor that is not below `dn`, else the smallest valid tick from
`dn` on. -/
structure IsDnLmt (steps : List LvPriStep) (dn : ℤ) (dnLmt : Option ℤ) (pri : ℤ) : Prop where
  floor : ∀ floor ∈ dnLmt, dn ≤ floor → ∀ first ∈ steps.head?, pri = first.step
  ceil : (∀ floor ∈ dnLmt, floor < dn) → IsLeast {t | ValidTick steps t ∧ dn ≤ t} pri

/-- Below zero, where no floor is taken, the code rounds by the tick of the first level, and up by two
ticks from between them. -/
def DnLmtMeets (steps : List LvPriStep) (dn : ℤ) (dnLmt : Option ℤ) : Prop :=
  (∀ floor ∈ dnLmt, floor < dn) → dn < 0 →
    -dn % stepBelow steps (-dn) = if -dn % stepBelow steps 0 = 0 then 0 else -dn % stepBelow steps 0 + stepBelow steps 0

theorem stepBelow_zero (h : Levels 0 (lv :: above)) : stepBelow (lv :: above) 0 = lv.step :=
  (At.head h).stepBelow_eq (.inl rfl) (.inl h.btm_lt.le)

theorem findPriTickStep_of_neg (h : Levels 0 (lv :: above)) (hneg : pri < 0) :
    findPriTickStep [] pri (lv :: above) = ⟨[], lv :: above⟩ := by
  have htop := h.btm_lt
  rw [findPriTickStep, if_neg (by omega)]

/-- A price below zero rounded up as the code does. -/
theorem roundUp_of_neg (h : Levels 0 (lv :: above)) {dn : ℤ} (hneg : dn < 0) :
    (calcDnLmt.roundUp (lv :: above) dn).1 = dn + if -dn % lv.step = 0 then 0 else lv.step + -dn % lv.step := by
  have hmod : dn.tmod lv.step = -(-dn % lv.step) := by
    rw [← tmod_of_nonneg (by omega : 0 ≤ -dn), neg_tmod, neg_neg]
  rw [calcDnLmt.roundUp, findPriTickStep_of_neg h hneg]
  dsimp only
  rw [hmod]
  split_ifs <;> omega

theorem roundUp_of_nonneg (h : Levels 0 steps) {dn : ℤ} (hnonneg : 0 ≤ dn) (hmax : dn ≤ priMax)
    (hex : ∃ t, ValidTick steps t ∧ dn ≤ t) : IsLeast {t | ValidTick steps t ∧ dn ≤ t} (calcDnLmt.roundUp steps dn).1 := by
  obtain ⟨below, lv, above, hfind, hat, htop, hbtm⟩ := h.exists_at hmax
  have hround := neg_roundUp hat.step_pos dn
  have hceil := isLeast_ceil hat hnonneg hbtm htop hex
  rw [calcDnLmt.roundUp, hfind]
  dsimp only
  rw [tmod_of_nonneg hnonneg]
  rw [← hround, zero_sub, neg_neg] at hceil
  exact hceil

theorem roundUp_isLeast_iff (h : Levels 0 (lv :: above)) {dn : ℤ} (hneg : dn < 0) (hmin : -priMax ≤ dn) :
    IsLeast {t | ValidTick (lv :: above) t ∧ dn ≤ t} (calcDnLmt.roundUp (lv :: above) dn).1 ↔
      -dn % stepBelow (lv :: above) (-dn) =
        if -dn % stepBelow (lv :: above) 0 = 0 then 0 else -dn % stepBelow (lv :: above) 0 + stepBelow (lv :: above) 0 := by
  obtain ⟨below, at', above', -, hat, htop, hbtm⟩ := h.exists_at (by omega : -dn ≤ priMax)
  have hleast := (isLeast_neg_iff h).mpr (isGreatest_floor hat (by omega) hbtm htop (by omega))
  rw [neg_neg] at hleast
  have hfloor := sub_emod_eq (-dn) at'.step
  have hiff : IsLeast {t | ValidTick (lv :: above) t ∧ dn ≤ t} (calcDnLmt.roundUp (lv :: above) dn).1 ↔
      (calcDnLmt.roundUp (lv :: above) dn).1 = -(-dn / at'.step * at'.step) :=
    ⟨fun hc => hc.unique hleast, fun heq => heq ▸ hleast⟩
  rw [hiff, roundUp_of_neg h hneg, hat.stepBelow_eq hbtm (.inl htop), stepBelow_zero h, ← hfloor]
  split_ifs <;> omega

theorem calcDnLmt_iff (h : Levels 0 steps) {dn : ℤ} (hmin : -priMax ≤ dn) (hmax : dn ≤ priMax)
    (hex : ∃ t, ValidTick steps t ∧ dn ≤ t) (dnLmt : Option ℤ) :
    IsDnLmt steps dn dnLmt (calcDnLmt steps dn dnLmt).1 ↔ DnLmtMeets steps dn dnLmt := by
  cases steps with
  | nil => cases h
  | cons first rest =>
    have hround : IsLeast {t | ValidTick (first :: rest) t ∧ dn ≤ t} (calcDnLmt.roundUp (first :: rest) dn).1 ↔
        (dn < 0 → -dn % stepBelow (first :: rest) (-dn) =
          if -dn % stepBelow (first :: rest) 0 = 0 then 0
          else -dn % stepBelow (first :: rest) 0 + stepBelow (first :: rest) 0) := by
      rcases le_or_gt 0 dn with hnonneg | hneg
      · exact iff_of_true (roundUp_of_nonneg h hnonneg hmax hex) fun hneg => by omega
      · rw [roundUp_isLeast_iff h hneg hmin, forall_prop_of_true hneg]
    by_cases hfloor : ∃ floor ∈ dnLmt, dn ≤ floor
    · obtain ⟨floor, rfl, hle⟩ := hfloor
      rw [calcDnLmt, if_pos hle]
      have hnot : ¬ ∀ floor' ∈ some floor, floor' < dn := fun hall => absurd (hall floor rfl) (not_lt.mpr hle)
      refine iff_of_true ⟨fun _ _ _ first' hfirst => ?_, fun hall => absurd hall hnot⟩ fun hall => absurd hall hnot
      cases hfirst
      rfl
    · have hall : ∀ floor ∈ dnLmt, floor < dn := by
        intro floor hmem
        by_contra hle
        exact hfloor ⟨floor, hmem, not_lt.mp hle⟩
      have hcalc : calcDnLmt (first :: rest) dn dnLmt = calcDnLmt.roundUp (first :: rest) dn := by
        cases dnLmt with
        | none => rfl
        | some floor => rw [calcDnLmt, if_neg (not_le.mpr (hall floor rfl))]
      rw [hcalc, DnLmtMeets, forall_prop_of_true hall, ← hround]
      exact ⟨fun hright => hright.ceil hall,
        fun hleast => ⟨fun floor hmem hle => absurd (hall floor hmem) (not_lt.mpr hle), fun _ => hleast⟩⟩

/-! ### The upper limit -/

/-- The largest valid tick up to `up`, or a tick below the cap where it comes to the cap. -/
def IsUpLmt (steps : List LvPriStep) (up : ℤ) (upLmt : Option ℤ) (pri : ℤ) : Prop :=
  ∃ t, IsGreatest {t | ValidTick steps t ∧ t ≤ up} t ∧ ((∀ cap ∈ upLmt, t < cap) → pri = t) ∧
    ∀ cap ∈ upLmt, cap ≤ t → pri = nextDn steps cap ∧ ValidTick steps pri ∧ pri < cap

/-- Below zero the price is a tick of the first level and of its own; a cap that it comes to has the
tick of the price. -/
structure UpLmtMeets (steps : List LvPriStep) (up : ℤ) (upLmt : Option ℤ) : Prop where
  tick : up < 0 → -up % stepBelow steps 0 = 0 ∧ -up % stepBelow steps (-up) = 0
  cap : ∀ cap ∈ upLmt, cap ≤ up → stepBelow steps up = stepBelow steps cap

/-- A price below zero rounded toward zero. -/
theorem calcUpLmt_of_neg (h : Levels 0 (lv :: above)) {up : ℤ} (hneg : up < 0) {upLmt : Option ℤ} (hcap : ∀ cap ∈ upLmt, 0 < cap) :
    calcUpLmt ⟨[], lv :: above⟩ up upLmt = up + -up % lv.step := by
  have hpos := h.step_pos
  have hmod : up.tmod lv.step = -(-up % lv.step) := by
    rw [← tmod_of_nonneg (by omega : 0 ≤ -up), neg_tmod, neg_neg]
  have hfloor := sub_emod_eq (-up) lv.step
  have hnonneg := mul_nonneg (ediv_nonneg (by omega : 0 ≤ -up) hpos.le) hpos.le
  rw [calcUpLmt, findPriTickStep_of_neg h hneg]
  dsimp only
  rw [hmod, sub_neg_eq_add]
  cases upLmt with
  | none => rfl
  | some cap =>
    have hlt := hcap cap rfl
    exact if_pos (by omega)

theorem calcUpLmt_iff (h : Levels 0 steps) {up : ℤ} (hmin : -priMax ≤ up) (hmax : up ≤ priMax)
    (hex : ∃ t, ValidTick steps t ∧ t ≤ up) {upLmt : Option ℤ} (hcap : ∀ cap ∈ upLmt, 0 < cap ∧ ValidTick steps cap) :
    IsUpLmt steps up upLmt (calcUpLmt ⟨[], steps⟩ up upLmt) ↔ UpLmtMeets steps up upLmt := by
  cases steps with
  | nil => cases h
  | cons first rest =>
    rcases le_or_gt 0 up with hnonneg | hneg
    · obtain ⟨below, lv, above, hfind, hat, htop, hbtm⟩ := h.exists_at hmax
      have hfloor := isGreatest_floor hat hnonneg hbtm htop hmax
      have hstep := hat.stepBelow_eq hbtm (.inl htop)
      have hup : ∀ cap ∈ upLmt, cap ≤ up / lv.step * lv.step ↔ cap ≤ up := fun cap hmem =>
        ⟨fun hle => hle.trans hfloor.1.2, fun hle => hfloor.2 ⟨(hcap cap hmem).2, hle⟩⟩
      have hcalc : calcUpLmt ⟨[], first :: rest⟩ up upLmt = capUp (up / lv.step * lv.step) lv.step upLmt := by
        rw [calcUpLmt, hfind]
        dsimp only
        rw [tmod_of_nonneg hnonneg, sub_emod_eq]
      rw [hcalc]
      by_cases hover : ∃ cap ∈ upLmt, cap ≤ up / lv.step * lv.step
      · obtain ⟨cap, rfl, hle⟩ := hover
        obtain ⟨hnext, hvalid, hlt⟩ := nextDn_validTick h (hcap cap rfl).1 (hcap cap rfl).2
        rw [capUp, if_neg (not_lt.mpr hle)]
        constructor
        · rintro ⟨t, ht, -, htake⟩
          obtain rfl := ht.unique hfloor
          have heq := (htake cap rfl hle).1
          refine ⟨fun hneg => by omega, fun cap' hmem _ => ?_⟩
          cases hmem
          omega
        · intro hmeets
          have heq := hmeets.cap cap rfl ((hup cap rfl).mp hle)
          have hsame : cap - lv.step = nextDn (first :: rest) cap := by omega
          rw [hsame]
          refine ⟨_, hfloor, fun hall => absurd (hall cap rfl) (not_lt.mpr hle), fun cap' hmem _ => ?_⟩
          cases hmem
          exact ⟨rfl, hvalid, hlt⟩
      · have hall : ∀ cap ∈ upLmt, up / lv.step * lv.step < cap := by
          intro cap hmem
          by_contra hle
          exact hover ⟨cap, hmem, not_lt.mp hle⟩
        have hfloor' : capUp (up / lv.step * lv.step) lv.step upLmt = up / lv.step * lv.step := by
          cases upLmt with
          | none => rfl
          | some cap => exact if_pos (hall cap rfl)
        rw [hfloor']
        refine iff_of_true ⟨_, hfloor, fun _ => rfl, fun cap hmem hle => absurd (hall cap hmem) (not_lt.mpr hle)⟩ ?_
        refine ⟨fun hneg => by omega, fun cap hmem hle => ?_⟩
        exact absurd (hall cap hmem) (not_lt.mpr ((hup cap hmem).mpr hle))
    · obtain ⟨below, lv, above, -, hat, htop, hbtm⟩ := h.exists_at (by omega : -up ≤ priMax)
      obtain ⟨t, hvalid, ht⟩ := hex
      have hceil := isLeast_ceil hat (by omega) hbtm htop ⟨-t, (validTick_neg h).mpr hvalid, neg_le_neg ht⟩
      have hgreatest := (isGreatest_neg_iff h).mpr hceil
      rw [neg_neg, neg_neg] at hgreatest
      have hnonneg := emod_nonneg (-up) h.step_pos.ne'
      have hrest := sub_emod_eq up lv.step
      have hrest' := emod_nonneg up hat.step_pos.ne'
      have hdvd : up % lv.step = 0 ↔ -up % lv.step = 0 := by
        rw [← dvd_iff_emod_eq_zero, ← dvd_iff_emod_eq_zero, Int.dvd_neg]
      rw [calcUpLmt_of_neg h hneg fun cap hmem => (hcap cap hmem).1]
      constructor
      · rintro ⟨t', ht', hbelow, -⟩
        obtain rfl := ht'.unique hgreatest
        have heq := hbelow fun cap hmem => ht'.1.2.trans_lt (hneg.trans (hcap cap hmem).1)
        refine ⟨fun _ => ?_, fun cap hmem hle => absurd (hcap cap hmem).1 (by omega)⟩
        rw [stepBelow_zero h, hat.stepBelow_eq hbtm (.inl htop)]
        omega
      · intro hmeets
        have htick := hmeets.tick hneg
        rw [stepBelow_zero h, hat.stepBelow_eq hbtm (.inl htop), ← hdvd] at htick
        refine ⟨_, hgreatest, fun _ => by omega, fun cap hmem hle => ?_⟩
        have hle' := hle.trans hgreatest.1.2
        exact absurd (hcap cap hmem).1 (by omega)

/-! ### Both limits -/

/-- The pointer that the lower limit has moved finds the level of the upper one. -/
theorem findPriTickStep_find {dn up : ℤ} (hle : dn ≤ up) (below : List LvPriStep) (steps : List LvPriStep) :
    findPriTickStep (findPriTickStep below dn steps).below up (findPriTickStep below dn steps).steps =
      findPriTickStep below up steps := by
  induction steps generalizing below with
  | nil => rfl
  | cons lv rest ih =>
    rw [findPriTickStep]
    split
    · rename_i hlt
      rw [ih, findPriTickStep, if_pos (hlt.trans_le hle)]
    · rfl

theorem calcDnLmt_ptr (steps : List LvPriStep) {dn up : ℤ} (hle : dn ≤ up) (dnLmt : Option ℤ) :
    findPriTickStep (calcDnLmt steps dn dnLmt).2.below up (calcDnLmt steps dn dnLmt).2.steps = findPriTickStep [] up steps := by
  have hround : findPriTickStep (calcDnLmt.roundUp steps dn).2.below up (calcDnLmt.roundUp steps dn).2.steps =
      findPriTickStep [] up steps := by
    have hptr : (calcDnLmt.roundUp steps dn).2 = findPriTickStep [] dn steps := by
      rw [calcDnLmt.roundUp]
      dsimp only
      cases (findPriTickStep [] dn steps).steps <;> rfl
    rw [hptr, findPriTickStep_find hle]
  cases dnLmt with
  | none => exact hround
  | some floor =>
    cases steps with
    | nil => exact hround
    | cons first rest =>
      rw [calcDnLmt]
      split
      · rfl
      · exact hround

theorem calcLmt_up (steps : List LvPriStep) (ref : ℤ) {adj : ℤ} (hadj : 0 ≤ adj) (pUpLmt pDnLmt : Option (Option ℤ)) :
    (calcLmt steps ref adj pUpLmt pDnLmt).1 = pUpLmt.map (calcUpLmt ⟨[], steps⟩ (ref + adj)) := by
  cases pDnLmt with
  | none => rfl
  | some dnLmt =>
    cases pUpLmt with
    | none => rfl
    | some upLmt =>
      rw [calcLmt]
      simp only [Option.map_some, calcUpLmt]
      rw [calcDnLmt_ptr steps (by omega)]

theorem calcLmt_dn (steps : List LvPriStep) (ref adj : ℤ) (pUpLmt pDnLmt : Option (Option ℤ)) :
    (calcLmt steps ref adj pUpLmt pDnLmt).2 = pDnLmt.map fun dnLmt => (calcDnLmt steps (ref - adj) dnLmt).1 := by
  cases pDnLmt <;> rfl

/-- Each limit that is asked for is what it is to be, whether or not the other one is asked for. -/
structure LmtRight (steps : List LvPriStep) (ref adj : ℤ) (pUpLmt pDnLmt : Option (Option ℤ)) : Prop where
  dn : ∀ dnLmt ∈ pDnLmt, ∀ pri ∈ (calcLmt steps ref adj pUpLmt pDnLmt).2, IsDnLmt steps (ref - adj) dnLmt pri
  up : ∀ upLmt ∈ pUpLmt, ∀ pri ∈ (calcLmt steps ref adj pUpLmt pDnLmt).1, IsUpLmt steps (ref + adj) upLmt pri
  dn_alone : (calcLmt steps ref adj pUpLmt pDnLmt).2 = (calcLmt steps ref adj none pDnLmt).2
  up_alone : (calcLmt steps ref adj pUpLmt pDnLmt).1 = (calcLmt steps ref adj pUpLmt none).1

/-- The limits are right exactly where rounding below zero keeps to the ticks, and a cap that is come
to has the tick of the price. -/
theorem calcLmt_iff (h : Levels 0 steps) {ref adj : ℤ} (hadj : 0 ≤ adj) (hmin : -priMax ≤ ref - adj) (hmax : ref + adj ≤ priMax)
    (hdn : ∃ t, ValidTick steps t ∧ ref - adj ≤ t) (hup : ∃ t, ValidTick steps t ∧ t ≤ ref + adj)
    {pUpLmt : Option (Option ℤ)} (hcap : ∀ upLmt ∈ pUpLmt, ∀ cap ∈ upLmt, 0 < cap ∧ ValidTick steps cap)
    (pDnLmt : Option (Option ℤ)) :
    LmtRight steps ref adj pUpLmt pDnLmt ↔
      (∀ dnLmt ∈ pDnLmt, DnLmtMeets steps (ref - adj) dnLmt) ∧ ∀ upLmt ∈ pUpLmt, UpLmtMeets steps (ref + adj) upLmt := by
  have hdnLmt := calcDnLmt_iff h hmin (by omega) hdn
  have hupLmt := fun upLmt hmem => calcUpLmt_iff h (by omega) hmax hup (hcap upLmt hmem)
  constructor
  · intro hright
    refine ⟨fun dnLmt hmem => (hdnLmt dnLmt).mp (hright.dn dnLmt hmem _ ?_),
      fun upLmt hmem => (hupLmt upLmt hmem).mp (hright.up upLmt hmem _ ?_)⟩
    · rw [calcLmt_dn, hmem]
      rfl
    · rw [calcLmt_up steps ref hadj, hmem]
      rfl
  · rintro ⟨hdnMeets, hupMeets⟩
    refine ⟨fun dnLmt hmem pri hpri => ?_, fun upLmt hmem pri hpri => ?_, ?_, ?_⟩
    · rw [calcLmt_dn, hmem] at hpri
      cases hpri
      exact (hdnLmt dnLmt).mpr (hdnMeets dnLmt hmem)
    · rw [calcLmt_up steps ref hadj, hmem] at hpri
      cases hpri
      exact (hupLmt upLmt hmem).mpr (hupMeets upLmt hmem)
    · rw [calcLmt_dn, calcLmt_dn]
    · rw [calcLmt_up steps ref hadj, calcLmt_up steps ref hadj]

/-- The limits 3.7 % around 9, with ticks of 0.01. -/
theorem calcLmt_twoSteps :
    LmtRight [⟨1000000000, 1000000⟩, ⟨priMax, 5000000⟩] 900000000 33300000 (some none) (some none) :=
  (calcLmt_iff levels_twoSteps (by decide) (by decide) (by decide)
    ⟨900000000, ⟨by decide, by decide, by decide⟩, by decide⟩ ⟨900000000, ⟨by decide, by decide, by decide⟩, by decide⟩
    (fun upLmt hmem cap hcap => by cases hmem; cases hcap) (some none)).mpr
      ⟨fun dnLmt _ _ hneg => absurd hneg (by decide),
        fun upLmt hmem => ⟨fun hneg => absurd hneg (by decide), fun cap hcap => by cases hmem; cases hcap⟩⟩

/-- From 10.03 the cap 10 is lowered by a tick of 0.05, the one above 10, and not to 9.99. -/
theorem not_lmtRight_cap :
    ¬ ∀ (steps : List LvPriStep) (ref adj : ℤ) (pUpLmt pDnLmt : Option (Option ℤ)), Levels 0 steps → 0 ≤ adj →
      -priMax ≤ ref - adj → ref + adj ≤ priMax → (pDnLmt = some none → 0 ≤ ref - adj) →
      (∃ t, ValidTick steps t ∧ ref - adj ≤ t) → (∃ t, ValidTick steps t ∧ t ≤ ref + adj) →
      (∀ upLmt ∈ pUpLmt, ∀ cap ∈ upLmt, 0 < cap ∧ ValidTick steps cap) → LmtRight steps ref adj pUpLmt pDnLmt := by
  intro h
  have hten : ValidTick [⟨1000000000, 1000000⟩, ⟨priMax, 5000000⟩] 1000000000 := ⟨by decide, by decide, by decide⟩
  have hright := h _ 1000000000 3000000 (some (some 1000000000)) none levels_twoSteps (by decide) (by decide) (by decide)
    (fun hnone => by cases hnone) ⟨1000000000, hten, by decide⟩ ⟨1000000000, hten, by decide⟩
    (fun upLmt hmem cap hcap => by cases hmem; cases hcap; exact ⟨by decide, hten⟩)
  obtain ⟨t, hgreatest, -, htake⟩ := hright.up _ rfl _ rfl
  have hpri := (htake _ rfl (hgreatest.2 ⟨hten, by decide⟩)).1
  exact absurd hpri (by decide)

end Fon9.Fmkt
