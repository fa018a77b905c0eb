import Mathlib.Tactic.SplitIfs

/-! Programs with a state and exceptions, where the state that an exception leaves behind
counts too: what they keep, and how they run. -/

namespace Fon9.Lib

universe u

variable {ε σ α β : Type u}

/-- A program without a state that returns has come through its first part. -/
theorem bind_ok {x : Except ε α} {f : α → Except ε β} {b : β} (h : x >>= f = .ok b) : ∃ a, x = .ok a ∧ f a = .ok b := by
  cases x with
  | error e => cases h
  | ok a => exact ⟨a, rfl, h⟩

/-- A program that returns what passes a check returns. -/
theorem ok_of_any {x : Except ε α} {p : α → Bool} (h : x.toOption.any p = true) : ∃ a, x = .ok a ∧ p a = true := by
  cases x with
  | error e => cases h
  | ok a => exact ⟨a, rfl, h⟩

/-- The state that a program leaves, whether it returns or not. -/
def leaves : EStateM.Result ε σ α → σ
  | .ok _ s => s
  | .error _ s => s

/-- What is seen of the state stays as it is. -/
def Keeps {γ : Type*} (seen : σ → γ) (x : EStateM ε σ α) : Prop := ∀ s, seen (leaves (x s)) = seen s

namespace Keeps

variable {γ δ : Type*} {seen : σ → γ} {x : EStateM ε σ α} {f : α → EStateM ε σ β}

theorem pure (a : α) : Keeps seen (Pure.pure a : EStateM ε σ α) := fun _ => rfl

theorem throw (e : ε) : Keeps seen (MonadExcept.throw e : EStateM ε σ α) := fun _ => rfl

theorem bind (hx : Keeps seen x) (hf : ∀ a, Keeps seen (f a)) : Keeps seen (x >>= f) := by
  intro s
  have hs := hx s
  show seen (leaves (EStateM.bind x f s)) = seen s
  rw [EStateM.bind]
  cases h : x s with
  | ok a s' =>
    rw [h] at hs
    exact (hf a s').trans hs
  | error e s' =>
    rw [h] at hs
    exact hs

theorem ite {c : Prop} [Decidable c] {y : EStateM ε σ α} (hx : Keeps seen x) (hy : Keeps seen y) :
    Keeps seen (if c then x else y) := by
  split_ifs
  · exact hx
  · exact hy

end Keeps

/-- A program does not end with this exception. -/
def Avoids (e : ε) (x : EStateM ε σ α) : Prop := ∀ s s', x s ≠ .error e s'

variable {s s' : σ} {f : α → EStateM ε σ β} {x : EStateM ε σ α}

namespace Avoids

variable {e : ε} {x : EStateM ε σ α} {f : α → EStateM ε σ β}

theorem pure (a : α) : Avoids e (Pure.pure a : EStateM ε σ α) := fun _ _ => nofun

theorem throw {e' : ε} (h : e' ≠ e) : Avoids e (MonadExcept.throw e' : EStateM ε σ α) := by
  rintro s s' ⟨⟩
  exact h rfl

/-- What comes behind matters only from the states that it comes to. -/
theorem bind_of (hx : Avoids e x) (hf : ∀ a s₁, x s = .ok a s₁ → f a s₁ ≠ .error e s') :
    (x >>= f) s ≠ .error e s' := by
  show EStateM.bind x f s ≠ _
  rw [EStateM.bind]
  cases h : x s with
  | ok a s₁ => exact hf a s₁ h
  | error e' s₁ =>
    rintro ⟨⟩
    exact hx s s' h

theorem bind (hx : Avoids e x) (hf : ∀ a, Avoids e (f a)) : Avoids e (x >>= f) := fun _ s' =>
  bind_of hx fun a s₁ _ => hf a s₁ s'

theorem ite {c : Prop} [Decidable c] {y : EStateM ε σ α} (hx : Avoids e x) (hy : Avoids e y) :
    Avoids e (if c then x else y) := by
  split_ifs
  · exact hx
  · exact hy

end Avoids

/-- A program that returns, and another behind it. -/
theorem bind_of_ok {a : α} (h : x s = .ok a s') :
    (x >>= f) s = f a s' := by
  show EStateM.bind x f s = f a s'
  rw [EStateM.bind, h]

theorem bind_of_error {e : ε} (h : x s = .error e s') :
    (x >>= f) s = .error e s' := by
  show EStateM.bind x f s = .error e s'
  rw [EStateM.bind, h]

theorem leaves_bind_of_ok {a : α} (h : x s = .ok a s') :
    leaves ((x >>= f) s) = leaves (f a s') := congrArg leaves (bind_of_ok h)

theorem leaves_bind_of_error {e : ε} (h : x s = .error e s') :
    leaves ((x >>= f) s) = s' := congrArg leaves (bind_of_error h)

end Fon9.Lib
