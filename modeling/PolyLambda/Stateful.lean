import PolyLambda.ScopeError

/-!
# Steps that may fail

A step changes a state, and it may fail. What it has done to the state before it fails stays done,
so a step that is to leave no trace when it fails has to take back what it did.

A step is seen through its `outcome`, the result and the state after it.
-/

namespace PolyLambda

/-- A step on a state that may fail. -/
abbrev Stateful (σ : Type) := ExceptT ScopeError (StateM σ)

namespace Stateful

variable {σ τ α β : Type}

/-- What a step comes to from the state `s`, and the state after it. -/
def outcome (step : Stateful σ α) (s : σ) : Except ScopeError α × σ :=
  step.run.run s

/-- The result of a step as a value, be it a failure. -/
def attempt (step : Stateful σ α) : Stateful σ (Except ScopeError α) :=
  ExceptT.mk fun s => (.ok (step.outcome s).1, (step.outcome s).2)

/-- A step between two changes of the state, of which the second is made whatever comes of the
step. -/
def between (enter leave : σ → σ) (step : Stateful σ α) : Stateful σ α := do
  modify enter
  let r ← attempt step
  modify leave
  liftM r

/-- A step on a part of the state. -/
def onPart (part : σ → τ) (put : τ → σ → σ) (step : Stateful τ α) : Stateful σ α :=
  ExceptT.mk fun s => ((step.outcome (part s)).1, put (step.outcome (part s)).2 s)

variable (s : σ)

theorem outcome_bind (x : Stateful σ α) (f : α → Stateful σ β) :
    (x >>= f).outcome s = match x.outcome s with
      | (.ok a, s₁) => (f a).outcome s₁
      | (.error e, s₁) => (.error e, s₁) := by
  show (ExceptT.bindCont f (x.run.run s).1).run (x.run.run s).2 = _
  rw [outcome]
  obtain ⟨r, s₁⟩ := x.run.run s
  cases r <;> rfl

@[simp]
theorem outcome_pure (a : α) : outcome (pure a : Stateful σ α) s = (.ok a, s) := rfl

@[simp]
theorem outcome_throw (e : ScopeError) : outcome (throw e : Stateful σ α) s = (.error e, s) := rfl

@[simp]
theorem outcome_liftM (r : Except ScopeError α) : outcome (liftM r : Stateful σ α) s = (r, s) := by
  cases r <;> rfl

@[simp]
theorem outcome_get : outcome (get : Stateful σ σ) s = (.ok s, s) := rfl

@[simp]
theorem outcome_modify (f : σ → σ) : outcome (modify f : Stateful σ PUnit) s = (.ok ⟨⟩, f s) := rfl

@[simp]
theorem outcome_attempt (step : Stateful σ α) :
    (attempt step).outcome s = (.ok (step.outcome s).1, (step.outcome s).2) := rfl

@[simp]
theorem outcome_onPart (part : σ → τ) (put : τ → σ → σ) (step : Stateful τ α) :
    (onPart part put step).outcome s =
      ((step.outcome (part s)).1, put (step.outcome (part s)).2 s) := rfl

@[simp]
theorem outcome_between (enter leave : σ → σ) (step : Stateful σ α) :
    (between enter leave step).outcome s =
      ((step.outcome (enter s)).1, leave (step.outcome (enter s)).2) := by
  simp only [between, outcome_bind, outcome_modify, outcome_attempt, outcome_liftM]

variable {s} {s' : σ}

theorem bind_eq_ok_iff {x : Stateful σ α} {f : α → Stateful σ β} {b : β} :
    (x >>= f).outcome s = (.ok b, s') ↔
      ∃ a s₁, x.outcome s = (.ok a, s₁) ∧ (f a).outcome s₁ = (.ok b, s') := by
  rw [outcome_bind]
  obtain ⟨r, s₁⟩ := x.outcome s
  cases r with
  | error e => simp
  | ok a =>
    refine ⟨fun h => ⟨a, s₁, rfl, h⟩, ?_⟩
    rintro ⟨_, _, ⟨⟩, hf⟩
    exact hf

theorem liftM_eq_ok_iff {r : Except ScopeError α} {a : α} :
    outcome (liftM r : Stateful σ α) s = (.ok a, s') ↔ r = .ok a ∧ s' = s := by
  rw [outcome_liftM, Prod.mk.injEq, eq_comm (a := s)]

theorem pure_eq_ok_iff {a b : α} :
    outcome (pure a : Stateful σ α) s = (.ok b, s') ↔ b = a ∧ s' = s := by
  simp [eq_comm]

end Stateful

end PolyLambda
