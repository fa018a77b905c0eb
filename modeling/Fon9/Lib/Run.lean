import Mathlib.Data.List.Basic
import Mathlib.Data.Nat.Find
import Mathlib.Order.Monotone.Basic

/-! Runs of a state machine: a list of operations applied one after the other. A property that
every step keeps, where the step meets a condition of its own, holds at the end of every run
whose steps meet the condition. Two machines that match each other step by step, with the same
output, have runs with the same outputs.

Infinite runs of a machine whose step may be refused: at each time it takes a step or
rests. The rules for what always holds, and for what holds at some later time. -/

namespace Fon9.Lib

section Along

variable {S Op : Type*} (step : S → Op → S) (ok : S → Op → Prop)

/-- Every operation of the run meets `ok` in the state it is applied to. -/
def Along : S → List Op → Prop
  | _, [] => True
  | s, op :: ops => ok s op ∧ Along (step s op) ops

instance Along.decidable [∀ s op, Decidable (ok s op)] : ∀ s ops, Decidable (Along step ok s ops)
  | _, [] => .isTrue trivial
  | s, op :: ops =>
    haveI := Along.decidable (step s op) ops
    inferInstanceAs (Decidable (_ ∧ _))

variable {step ok} {ok' : S → Op → Prop} {P I : S → Prop} {s : S} {ops : List Op}

theorem Along.foldl (hstep : ∀ s op, P s → ok s op → P (step s op)) (h : P s)
    (hok : Along step ok s ops) : P (ops.foldl step s) := by
  induction ops generalizing s with
  | nil => exact h
  | cons op ops ih => exact ih (hstep s op h hok.1) hok.2

theorem Along.mono (himp : ∀ s op, ok s op → ok' s op) (h : Along step ok s ops) :
    Along step ok' s ops := by
  induction ops generalizing s with
  | nil => trivial
  | cons op ops ih => exact ⟨himp s op h.1, ih h.2⟩

/-- Where an invariant makes a condition give another one and a step that meets it keeps it, the
runs that meet the one meet the other. -/
theorem Along.of_invariant (himp : ∀ s op, I s → ok s op → ok' s op)
    (hstep : ∀ s op, I s → ok s op → I (step s op)) (h : I s) (hok : Along step ok s ops) :
    Along step ok' s ops := by
  induction ops generalizing s with
  | nil => trivial
  | cons op ops ih => exact ⟨himp s op h hok.1, ih (hstep s op h hok.1) hok.2⟩

/-- Where an invariant makes two conditions say the same and a step that meets them keeps
it, the runs that meet them are the same. -/
theorem along_congr (hiff : ∀ s op, I s → (ok s op ↔ ok' s op))
    (hstep : ∀ s op, I s → ok s op → I (step s op)) (h : I s) :
    Along step ok s ops ↔ Along step ok' s ops := by
  induction ops generalizing s with
  | nil => exact Iff.rfl
  | cons op ops ih =>
    constructor
    · rintro ⟨hok, hrest⟩
      exact ⟨(hiff s op h).mp hok, (ih (hstep s op h hok)).mp hrest⟩
    · rintro ⟨hok', hrest⟩
      have hok := (hiff s op h).mpr hok'
      exact ⟨hok, (ih (hstep s op h hok)).mpr hrest⟩

variable (step) in
/-- `P` holds of every state of the run. -/
def Throughout (P : S → Prop) : S → List Op → Prop
  | s, [] => P s
  | s, op :: ops => P s ∧ Throughout P (step s op) ops

/-- Where an invariant gives `P` and a step keeps it exactly if the step meets its
condition, `P` holds throughout a run exactly if all its steps meet their conditions. -/
theorem throughout_iff_along (hI : ∀ s, I s → P s)
    (hstep : ∀ s op, I s → ok s op → I (step s op))
    (hconv : ∀ s op, I s → P (step s op) → ok s op) (h : I s) :
    Throughout step P s ops ↔ Along step ok s ops := by
  induction ops generalizing s with
  | nil => exact ⟨fun _ => trivial, fun _ => hI s h⟩
  | cons op ops ih =>
    constructor
    · rintro ⟨-, hrest⟩
      have hP : P (step s op) := by
        cases ops with
        | nil => exact hrest
        | cons _ _ => exact hrest.1
      have hok := hconv s op h hP
      exact ⟨hok, (ih (hstep s op h hok)).mp hrest⟩
    · rintro ⟨hok, hrest⟩
      exact ⟨hI s h, (ih (hstep s op h hok)).mpr hrest⟩

end Along

section Trace

variable {S T Op O : Type*}

/-- The last state and the outputs of a run. -/
def trace (step : S → Op → S × O) : S → List Op → S × List O
  | s, [] => (s, [])
  | s, op :: ops =>
    let r := step s op
    let rest := trace step r.1 ops
    (rest.1, r.2 :: rest.2)

/-- A simulation from step to step is one from run to run. -/
theorem trace_simulates {step : S → Op → S × O} {step' : T → Op → T × O} {R : S → T → Prop}
    (hstep : ∀ s t op, R s t → R (step s op).1 (step' t op).1 ∧ (step s op).2 = (step' t op).2)
    {s : S} {t : T} (h : R s t) (ops : List Op) :
    R (trace step s ops).1 (trace step' t ops).1 ∧ (trace step s ops).2 = (trace step' t ops).2 := by
  induction ops generalizing s t with
  | nil => exact ⟨h, rfl⟩
  | cons op ops ih =>
    obtain ⟨hR, hout⟩ := hstep s t op h
    obtain ⟨hrest, houts⟩ := ih hR
    refine ⟨hrest, ?_⟩
    rw [trace, trace, hout, houts]

end Trace

end Fon9.Lib

namespace Fon9.Lib

variable {S A : Type*} (step : S → A → Option S)

/-- The state after a list of steps, where none is refused. -/
def steps (s : S) : List A → Option S
  | [] => some s
  | a :: as => (step s a).bind fun s' => steps s' as

/-- Every step of a list meets its condition in the state that it is taken in. -/
def StepsMeet (ok : S → A → Prop) (s : S) : List A → Prop
  | [] => True
  | a :: as => ok s a ∧ ∀ s' ∈ step s a, StepsMeet ok s' as

instance stepsMeetDecidable {ok : S → A → Prop} [h : ∀ s a, Decidable (ok s a)] :
    (s : S) → (as : List A) → Decidable (StepsMeet step ok s as)
  | _, [] => isTrue trivial
  | s, a :: as =>
    have (s' : S) : Decidable (StepsMeet step ok s' as) := stepsMeetDecidable s' as
    inferInstanceAs (Decidable (ok s a ∧ ∀ s' ∈ step s a, StepsMeet step ok s' as))

/-- An infinite run from `init`. -/
structure Behaviour (init : S) where
  state : ℕ → S
  action : ℕ → Option A
  start : state 0 = init
  stay : ∀ n, action n = none → state (n + 1) = state n
  move : ∀ n a, action n = some a → step (state n) a = some (state (n + 1))

variable {step} {init : S}

theorem steps_append (s : S) (as bs : List A) :
    steps step s (as ++ bs) = (steps step s as).bind fun s' => steps step s' bs := by
  induction as generalizing s with
  | nil => rfl
  | cons a as ih =>
    rw [List.cons_append, steps, steps]
    cases step s a with
    | none => rfl
    | some s' => exact ih s'

theorem stepsMeet_append {ok : S → A → Prop} {s : S} {as bs : List A} :
    StepsMeet step ok s (as ++ bs) ↔ StepsMeet step ok s as ∧ ∀ s' ∈ steps step s as, StepsMeet step ok s' bs := by
  induction as generalizing s with
  | nil => simp [StepsMeet, steps]
  | cons a as ih =>
    rw [List.cons_append, StepsMeet, StepsMeet, steps, and_assoc]
    refine and_congr_right fun _ => ?_
    cases step s a with
    | none => simp
    | some s₁ => simp [ih]

variable {P : S → Prop} {as : List A}

/-- What every step keeps. -/
theorem steps_preserve (hstep : ∀ s a s', P s → step s a = some s' → P s') {s s' : S} (h : P s)
    (hs : steps step s as = some s') : P s' := by
  induction as generalizing s with
  | nil =>
    cases hs
    exact h
  | cons a as ih =>
    obtain ⟨s₁, hs₁, hrest⟩ := Option.bind_eq_some_iff.mp hs
    exact ih (hstep s a s₁ h hs₁) hrest

/-- The behaviour that takes the steps of a list and then rests. -/
def Behaviour.ofSteps (as : List A) (h : (steps step init as).isSome = true) :
    Behaviour step init where
  state n := (steps step init (as.take n)).getD init
  action n := as[n]?
  start := rfl
  stay n hn := by
    rw [List.getElem?_eq_none_iff] at hn
    rw [List.take_of_length_le hn, List.take_of_length_le (by omega)]
  move n a ha := by
    obtain ⟨hn, rfl⟩ := List.getElem?_eq_some_iff.mp ha
    have hall : steps step init as = (steps step init (as.take n)).bind fun s =>
        (step s as[n]).bind fun s' => steps step s' (as.drop (n + 1)) := by
      conv_lhs => rw [← List.take_append_drop n as, List.drop_eq_getElem_cons hn]
      exact steps_append _ _ _
    rw [hall] at h
    rw [List.take_succ_eq_append_getElem hn, steps_append]
    cases hs : steps step init (as.take n) with
    | none => simp [hs] at h
    | some s =>
      cases hs' : step s as[n] with
      | none => simp [hs, hs'] at h
      | some s' => simp [steps, hs']

namespace Behaviour

/-- After the list the state is the last one. -/
theorem ofSteps_state {h : (steps step init as).isSome = true} {n : ℕ} (hn : as.length ≤ n)
    : (ofSteps as h).state n = (ofSteps as h).state as.length := by
  show (steps step init (as.take n)).getD init = (steps step init (as.take as.length)).getD init
  rw [List.take_of_length_le hn, List.take_of_length_le le_rfl]

variable (b : Behaviour step init)

/-- What holds at the start and is kept by every step holds at all times. -/
theorem always (hinit : P init)
    (hstep : ∀ n a, P (b.state n) → step (b.state n) a = some (b.state (n + 1)) → P (b.state (n + 1))) :
    ∀ n, P (b.state n) := by
  intro n
  induction n with
  | zero => rw [b.start]; exact hinit
  | succ n ih =>
    cases ha : b.action n with
    | none => rw [b.stay n ha]; exact ih
    | some a => exact hstep n a ih (b.move n a ha)

end Behaviour

/-- A change between two times happens at one of them. -/
theorem exists_change {P : ℕ → Prop} {m n : ℕ} (hmn : m ≤ n) (hm : ¬ P m) (hn : P n) :
    ∃ k, m ≤ k ∧ ¬ P k ∧ P (k + 1) := by
  induction n, hmn using Nat.le_induction with
  | base => exact absurd hn hm
  | succ n hmn ih =>
    by_cases hP : P n
    · exact ih hP
    · exact ⟨n, hmn, hP, hn⟩

/-- What brings a measure down again and again is not put off for ever. -/
theorem eventually_of_measure {Q : ℕ → Prop} (f : ℕ → ℕ) {m : ℕ}
    (hdown : ∀ n, m ≤ n → ¬ Q n → ∃ n', n ≤ n' ∧ (f n' < f n ∨ Q n')) : ∃ n, m ≤ n ∧ Q n := by
  have hrec : ∀ k n, f n = k → m ≤ n → ∃ n', m ≤ n' ∧ Q n' := by
    intro k
    induction k using Nat.strong_induction_on with
    | h k ih =>
      intro n hk hmn
      by_cases hQ : Q n
      · exact ⟨n, hmn, hQ⟩
      obtain ⟨n', hnn', hless | hQ'⟩ := hdown n hmn hQ
      · exact ih (f n') (hk ▸ hless) n' rfl (le_trans hmn hnn')
      · exact ⟨n', le_trans hmn hnn', hQ'⟩
  exact hrec (f m) m rfl le_rfl

end Fon9.Lib
