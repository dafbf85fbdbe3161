/-!
# Computations with a limit

Some computations of the language need not end, or no bound on them is known beforehand. They take a
limit on the depth of their recursion, and a result of `none` means that the limit was too low: it
is neither a success nor one of the errors that the computation itself may report.

A computation is seen through `outcome?`, what it comes to, and the lemmas say how the outcome of a
whole is made from those of its parts.
-/

namespace PolyLambda

/-- A result, an error, or neither when a limit was reached. -/
abbrev Limited (ε : Type) := ExceptT ε Option

/-- A computation on a state. The state after an error is what had become of it. -/
abbrev LimitedState (ε σ : Type) := ExceptT ε (StateT σ Option)

namespace Limited

variable {ε α β : Type}

/-- The limit was too low. -/
def exhausted : Limited ε α := ExceptT.mk none

/-- What a computation came to, if it came to an end. -/
def outcome? (c : Limited ε α) : Option (Except ε α) := c.run

@[simp]
theorem outcome?_exhausted : (exhausted : Limited ε α).outcome? = none := rfl

@[simp]
theorem outcome?_pure (a : α) : outcome? (pure a : Limited ε α) = some (.ok a) := rfl

@[simp]
theorem outcome?_throw (e : ε) : outcome? (throw e : Limited ε α) = some (.error e) := rfl

@[simp]
theorem outcome?_liftM (r : Except ε α) : outcome? (liftM r : Limited ε α) = some r := by
  cases r <;> rfl

theorem outcome?_bind (c : Limited ε α) (f : α → Limited ε β) :
    outcome? (c >>= f) =
      match c.outcome? with
      | none => none
      | some (.error e) => some (.error e)
      | some (.ok a) => (f a).outcome? := by
  simp only [outcome?, ExceptT.run, bind, ExceptT.bind, ExceptT.mk, Option.bind]
  cases c with
  | none => rfl
  | some r => cases r <;> rfl

end Limited

namespace LimitedState

variable {ε ε' σ α β : Type}

/-- The limit was too low. -/
def exhausted : LimitedState ε σ α := ExceptT.mk fun _ => none

/-- What the computation comes to from the state `s`, and the state after it. -/
def outcome? (c : LimitedState ε σ α) (s : σ) : Option (Except ε α × σ) :=
  c.run.run s

/-- A computation without state, its errors renamed. -/
def lift (f : ε → ε') (c : Limited ε α) : LimitedState ε' σ α :=
  ExceptT.mk fun s => c.outcome?.map fun r => (r.mapError f, s)

variable (s : σ)

@[simp]
theorem outcome?_exhausted : (exhausted : LimitedState ε σ α).outcome? s = none := rfl

@[simp]
theorem outcome?_pure (a : α) :
    outcome? (pure a : LimitedState ε σ α) s = some (.ok a, s) := rfl

@[simp]
theorem outcome?_throw (e : ε) :
    outcome? (throw e : LimitedState ε σ α) s = some (.error e, s) := rfl

@[simp]
theorem outcome?_liftM (r : Except ε α) :
    outcome? (liftM r : LimitedState ε σ α) s = some (r, s) := by
  cases r <;> rfl

@[simp]
theorem outcome?_get : outcome? (get : LimitedState ε σ σ) s = some (.ok s, s) := rfl

@[simp]
theorem outcome?_set (s' : σ) :
    outcome? (set s' : LimitedState ε σ PUnit) s = some (.ok ⟨⟩, s') := rfl

@[simp]
theorem outcome?_modify (f : σ → σ) :
    outcome? (modify f : LimitedState ε σ PUnit) s = some (.ok ⟨⟩, f s) := rfl

@[simp]
theorem outcome?_modifyGet (f : σ → α × σ) :
    outcome? (modifyGet f : LimitedState ε σ α) s = some (.ok (f s).1, (f s).2) := rfl

@[simp]
theorem outcome?_lift (f : ε → ε') (c : Limited ε α) :
    (lift f c : LimitedState ε' σ α).outcome? s =
      c.outcome?.map fun r => (r.mapError f, s) := rfl

theorem outcome?_bind (c : LimitedState ε σ α) (f : α → LimitedState ε σ β) :
    outcome? (c >>= f) s =
      match c.outcome? s with
      | none => none
      | some (.error e, s') => some (.error e, s')
      | some (.ok a, s') => (f a).outcome? s' := by
  simp only [outcome?, ExceptT.run, StateT.run, bind, ExceptT.bind, ExceptT.mk, StateT.bind,
    Option.bind]
  cases c s with
  | none => rfl
  | some r =>
    obtain ⟨r, s'⟩ := r
    cases r <;> rfl

/-- What follows a step matters only for what the step may come to. -/
theorem outcome?_bind_congr {x : LimitedState ε σ α} {f g : α → LimitedState ε σ β} {s : σ}
    (h : ∀ a s', x.outcome? s = some (.ok a, s') → (f a).outcome? s' = (g a).outcome? s') :
    (x >>= f).outcome? s = (x >>= g).outcome? s := by
  rw [outcome?_bind, outcome?_bind]
  cases hx : x.outcome? s with
  | none => rfl
  | some o =>
    obtain ⟨r, s'⟩ := o
    cases r with
    | error e => rfl
    | ok a => exact h a s' hx

/-- A computation succeeds if its parts do, one after the other. -/
theorem outcome?_bind_eq_ok_iff {c : LimitedState ε σ α} {f : α → LimitedState ε σ β}
    {s s' : σ} {b : β} :
    (c >>= f).outcome? s = some (.ok b, s') ↔
      ∃ a s₁, c.outcome? s = some (.ok a, s₁) ∧ (f a).outcome? s₁ = some (.ok b, s') := by
  rw [outcome?_bind]
  cases c.outcome? s with
  | none => simp
  | some o =>
    obtain ⟨r, s₁⟩ := o
    cases r with
    | error e => simp
    | ok a =>
      constructor
      · intro h
        exact ⟨a, s₁, rfl, h⟩
      · rintro ⟨_, _, ⟨⟩, h⟩
        exact h

/-- A computation fails if one of its parts does, and those before it succeed. -/
theorem outcome?_bind_eq_error_iff {c : LimitedState ε σ α} {f : α → LimitedState ε σ β} {s s' : σ}
    {e : ε} :
    (c >>= f).outcome? s = some (.error e, s') ↔
      c.outcome? s = some (.error e, s') ∨
        ∃ a s₁, c.outcome? s = some (.ok a, s₁) ∧ (f a).outcome? s₁ = some (.error e, s') := by
  rw [outcome?_bind]
  cases c.outcome? s with
  | none => simp
  | some o =>
    obtain ⟨r, s₁⟩ := o
    cases r with
    | error e => simp
    | ok a =>
      constructor
      · intro h
        exact .inr ⟨a, s₁, rfl, h⟩
      · rintro (⟨⟨⟩⟩ | ⟨_, _, ⟨⟩, h⟩)
        exact h

theorem outcome?_tryCatch (c : LimitedState ε σ α) (f : ε → LimitedState ε σ α) :
    outcome? (tryCatch c f) s =
      match c.outcome? s with
      | some (.error e, s') => (f e).outcome? s'
      | r => r := by
  simp only [outcome?, ExceptT.run, StateT.run, tryCatch, tryCatchThe, MonadExceptOf.tryCatch,
    ExceptT.tryCatch, ExceptT.mk, bind, StateT.bind, Option.bind]
  cases c s with
  | none => rfl
  | some r =>
    obtain ⟨r, s'⟩ := r
    cases r <;> rfl

end LimitedState

end PolyLambda
