/-
  This file tells when a step with a state and faults
  succeeds.  Both reading a program and writing code are
  made of such steps.
-/

namespace Bracketry

namespace Step

variable {ε σ α β : Type} {x : EStateM ε σ α}
variable {f : α → EStateM ε σ β} {s s' s₁ : σ} {y : β}
variable {a : α}

/- The first step has to succeed for both to succeed. -/
theorem bind_eq_ok :
    (x >>= f) s = .ok y s' ↔
      ∃ a s₁, x s = .ok a s₁ ∧ f a s₁ = .ok y s' := by
  change EStateM.bind x f s = .ok y s' ↔ _
  unfold EStateM.bind
  cases hFirst : x s with
  | ok a s₁ =>
      constructor
      · intro hSecond
        exact ⟨a, s₁, rfl, hSecond⟩
      · rintro ⟨_, _, hEq, hSecond⟩
        cases hEq
        exact hSecond
  | error fault s₁ => simp

/- What follows starts where a step ends. -/
theorem bind_of_ok
    (hFirst : x s = .ok a s₁) :
    (x >>= f) s = f a s₁ := by
  change EStateM.bind x f s = f a s₁
  unfold EStateM.bind
  rw [hFirst]

/- Nothing comes behind a step that fails. -/
theorem bind_of_error
    {fault : ε}
    (hFirst : x s = .error fault s₁) :
    (x >>= f) s = .error fault s₁ := by
  change EStateM.bind x f s = _
  unfold EStateM.bind
  rw [hFirst]

/- The same for a check that has no state. -/
theorem except_bind_eq_ok
    {x : Except ε α}
    {f : α → Except ε β} :
    (x >>= f) = .ok y ↔ ∃ a, x = .ok a ∧ f a = .ok y := by
  cases x with
  | ok a =>
      change f a = .ok y ↔ _
      simp
  | error fault =>
      change Except.error fault = .ok y ↔ _
      simp

/- A result that exists and passes a test. -/
theorem except_any_eq_true
    {x : Except ε α}
    {test : α → Bool} :
    x.toOption.any test = true ↔ ∃ a, x = .ok a ∧
      test a = true := by
  cases x with
  | ok a =>
      change test a = true ↔ _
      simp
  | error fault =>
      change false = true ↔ _
      simp

theorem pure_eq_ok
    {a y : α} :
    (pure a : EStateM ε σ α) s = .ok y s' ↔
      a = y ∧ s = s' := by
  change EStateM.Result.ok a s = .ok y s' ↔ _
  exact EStateM.Result.ok.injEq .. ▸ Iff.rfl

/- A step sees the state it starts in. -/
theorem get_bind
    {f : σ → EStateM ε σ α} :
    (get >>= f) s = f s s := rfl

theorem modify_eq_ok
    {f : σ → σ}
    {y : PUnit} :
    (modify f : EStateM ε σ PUnit) s = .ok y s' ↔
      f s = s' := by
  change EStateM.Result.ok PUnit.unit (f s) = .ok y s' ↔ _
  constructor
  · intro hEq
    cases hEq
    rfl
  · intro hEq
    rw [hEq]

theorem modify_bind_eq_ok
    {f : σ → σ}
    {g : PUnit → EStateM ε σ β} :
    (modify f >>= g) s = .ok y s' ↔ g ⟨⟩ (f s) = .ok y s' :=
  Iff.rfl

end Step

end Bracketry
