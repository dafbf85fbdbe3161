import PolyLambda.Evaluation
import PolyLambda.Proofs.Typing.Judgment

/-!
# What a value does

A value inhabits a type by what it does, not by how it was made: integers and strings inhabit their
types, data have all their fields, which inhabit the types that the declaration says, and a function
gives inhabitants for inhabitants whenever it gives anything.

That cannot be said by recursion on types, since the fields of data may have any types, the data
type itself among them, and since a function mentions globals, which may mention it in turn. So it
is said for a number of steps first. What a function gives has to be right for as many steps as are
left when the application has taken its own (`steps`), and both the arguments and the globals need
to be right for no more steps than there were.
-/

namespace PolyLambda

namespace Machine

/-! ## Results of computations -/

/-- Whether a computation gives only results that `P` holds of, if it gives one. -/
def Yields {α : Type} (P : α → Prop) (step : Eval α) : Prop :=
  ∀ history a history', step.outcome? history = some (.ok a, history') → P a

section

variable {α β : Type} {P P' : α → Prop} {Q : β → Prop}

theorem yields_exhausted : Yields P (LimitedState.exhausted : Eval α) := nofun

theorem yields_pure {a : α} (h : P a) : Yields P (pure a : Eval α) := by
  intro history a' history' houtcome
  cases houtcome
  exact h

theorem yields_throw (e : EvalError) : Yields P (throw e : Eval α) := nofun

theorem yields_liftM {r : Except EvalError α} (h : ∀ a, r = .ok a → P a) :
    Yields P (liftM r : Eval α) := by
  intro history a history' houtcome
  rw [LimitedState.outcome?_liftM] at houtcome
  cases houtcome
  exact h a rfl

theorem Yields.bind {step : Eval α} {f : α → Eval β} (h : Yields P step)
    (hf : ∀ a, P a → Yields Q (f a)) : Yields Q (step >>= f) := by
  intro history b history' houtcome
  obtain ⟨a, history₁, hstep, hrest⟩ := LimitedState.outcome?_bind_eq_ok_iff.1 houtcome
  exact hf a (h history a history₁ hstep) history₁ b history' hrest

end

/-! ## Inhabitants for a number of steps -/

/-- A bound on the evaluations that follow one after the other when one is limited: at each depth no
more than two of them depend on each other. -/
def steps : Nat → Nat
  | 0 => 0
  | limit + 1 => steps limit + steps limit + 1

section

variable (m : Machine) (G : String → Nameless → Prop)

mutual

/-- Whether a value does for `k` steps what a type says, where the values of globals do so for all
the types that `G` gives them. -/
def InhabitsAt (k : Nat) : Value → Nameless → Prop
  | .int _, .prim name => name = "Int"
  | .string _, .prim name => name = "String"
  | .con name arity args, .data type params =>
    arity = args.length ∧ ∃ i : m.sig.Instance name, i.result = .data type params ∧
      InhabitAt k args i.fields
  | fn, .arrow param result => ∀ j limit, j + steps limit < k → ∀ globals : Globals,
    (∀ name type w, G name type → globals.get? name = some (some w) →
      InhabitsAt (j + steps limit) w type) →
    ∀ arg, InhabitsAt (j + steps limit) arg param →
      Yields (fun v => InhabitsAt j v result) (m.apply globals limit fn arg)
  | fn, .all b => ∀ j limit, j + steps limit < k → ∀ globals : Globals,
    (∀ name type w, G name type → globals.get? name = some (some w) →
      InhabitsAt (j + steps limit) w type) →
    ∀ a : ClosedType, Yields (fun v => InhabitsAt j v (Nameless.openAt a.type 0 b))
      (applyTypeWith (m.evaluate globals limit) fn)
  | _, _ => False
termination_by v => (k, sizeOf v)

/-- Whether each of the values does what the type in its place says. -/
def InhabitAt (k : Nat) : List Value → List Nameless → Prop
  | [], [] => True
  | v :: vs, t :: ts => InhabitsAt k v t ∧ InhabitAt k vs ts
  | _, _ => False
termination_by vs => (k, sizeOf vs)

end

/-- Whether the values of globals do for `k` steps what all of their types say. -/
def GlobalsInhabitAt (k : Nat) (globals : Globals) : Prop :=
  ∀ name type w, G name type → globals.get? name = some (some w) → InhabitsAt m G k w type

/-- Whether a value does what a type says, for any number of steps. -/
def Inhabits (v : Value) (type : Nameless) : Prop :=
  ∀ k, InhabitsAt m G k v type

/-- Whether the values of globals do what all of their types say. -/
def GlobalsInhabit (globals : Globals) : Prop :=
  ∀ name type w, G name type → globals.get? name = some (some w) → Inhabits m G w type

end

variable {m : Machine} {G : String → Nameless → Prop} {j k : Nat}

theorem inhabitAt_iff_forall₂ {vs : List Value} {types : List Nameless} :
    InhabitAt m G k vs types ↔ List.Forall₂ (InhabitsAt m G k) vs types := by
  induction vs generalizing types with
  | nil => cases types <;> simp [InhabitAt]
  | cons v vs ih => cases types <;> simp [InhabitAt, ih]

/-! ### What the types say -/

theorem inhabitsAt_prim_iff {v : Value} {name : String} :
    InhabitsAt m G k v (.prim name) ↔
      (name = "Int" ∧ ∃ n, v = .int n) ∨ (name = "String" ∧ ∃ text, v = .string text) := by
  cases v <;> simp [InhabitsAt]

/-- The values of a data type have all fields. -/
theorem inhabitsAt_data_iff {v : Value} {type : String} {params : List Nameless} :
    InhabitsAt m G k v (.data type params) ↔ ∃ (name : String) (args : List Value)
      (i : m.sig.Instance name), v = .saturated name args ∧ i.result = .data type params ∧
        List.Forall₂ (InhabitsAt m G k) args i.fields := by
  cases v with
  | con name arity args =>
    rw [InhabitsAt]
    constructor
    · rintro ⟨rfl, i, hresult, hargs⟩
      exact ⟨name, args, i, rfl, hresult, inhabitAt_iff_forall₂.1 hargs⟩
    · rintro ⟨name', args', i, heq, hresult, hargs⟩
      cases heq
      exact ⟨rfl, i, hresult, inhabitAt_iff_forall₂.2 hargs⟩
  | _ => simp [InhabitsAt, Value.saturated]

/-- A function gives inhabitants for inhabitants. -/
theorem inhabitsAt_arrow_iff {fn : Value} {param result : Nameless} :
    InhabitsAt m G k fn (.arrow param result) ↔ ∀ j limit, j + steps limit < k → ∀ globals,
      GlobalsInhabitAt m G (j + steps limit) globals → ∀ arg,
        InhabitsAt m G (j + steps limit) arg param →
          Yields (fun v => InhabitsAt m G j v result) (m.apply globals limit fn arg) := by
  rw [InhabitsAt]
  rfl

/-- What is quantified gives inhabitants for all types. -/
theorem inhabitsAt_all_iff {fn : Value} {b : Nameless} :
    InhabitsAt m G k fn (.all b) ↔ ∀ j limit, j + steps limit < k → ∀ globals,
      GlobalsInhabitAt m G (j + steps limit) globals → ∀ a : ClosedType,
        Yields (fun v => InhabitsAt m G j v (Nameless.openAt a.type 0 b))
          (applyTypeWith (m.evaluate globals limit) fn) := by
  rw [InhabitsAt]
  rfl

/-! ### Fewer steps -/

theorem not_inhabitsAt_bound {v : Value} {index : Nat} : ¬ InhabitsAt m G k v (.bound index) := by
  cases v <;> simp [InhabitsAt]

theorem not_inhabitsAt_free {v : Value} {name : String} : ¬ InhabitsAt m G k v (.free name) := by
  cases v <;> simp [InhabitsAt]

/-- Only data are looked into for the same number of steps. -/
theorem InhabitsAt.mono_of_ne_data (h : j ≤ k) {v : Value} {type : Nameless}
    (hne : ∀ name params, type ≠ .data name params) (hv : InhabitsAt m G k v type) :
    InhabitsAt m G j v type := by
  cases type with
  | arrow param result =>
    rw [inhabitsAt_arrow_iff] at hv ⊢
    exact fun i limit hlt => hv i limit (by omega)
  | all b =>
    rw [inhabitsAt_all_iff] at hv ⊢
    exact fun i limit hlt => hv i limit (by omega)
  | prim name =>
    rw [inhabitsAt_prim_iff] at hv ⊢
    exact hv
  | data name params => exact absurd rfl (hne name params)
  | bound index => exact absurd hv not_inhabitsAt_bound
  | free name => exact absurd hv not_inhabitsAt_free

mutual

theorem InhabitsAt.mono (h : j ≤ k) : (v : Value) → {type : Nameless} →
    InhabitsAt m G k v type → InhabitsAt m G j v type
  | .con name arity args, type, hv => by
    cases type with
    | data type params =>
      rw [InhabitsAt] at hv ⊢
      obtain ⟨harity, i, hresult, hargs⟩ := hv
      exact ⟨harity, i, hresult, InhabitAt.mono h args hargs⟩
    | _ => exact hv.mono_of_ne_data h nofun
  | .int _, type, hv | .string _, type, hv | .closure _ _, type, hv | .typeClosure _ _, type, hv
  | .prim _ _ _, type, hv => by
    cases type with
    | data => simp [InhabitsAt] at hv
    | _ => exact hv.mono_of_ne_data h nofun

theorem InhabitAt.mono (h : j ≤ k) : (vs : List Value) → {types : List Nameless} →
    InhabitAt m G k vs types → InhabitAt m G j vs types
  | [], types, hvs => by
    cases types with
    | nil => rwa [InhabitAt] at hvs ⊢
    | cons t ts => simp [InhabitAt] at hvs
  | v :: vs, types, hvs => by
    cases types with
    | nil => simp [InhabitAt] at hvs
    | cons t ts =>
      rw [InhabitAt] at hvs ⊢
      exact hvs.imp (InhabitsAt.mono h v) (InhabitAt.mono h vs)

end

/-- Values that do for `k` steps what their types say do so for fewer. -/
theorem forall₂_inhabitsAt_mono (h : j ≤ k) {vs : List Value} {types : List Nameless}
    (hvs : List.Forall₂ (InhabitsAt m G k) vs types) : List.Forall₂ (InhabitsAt m G j) vs types :=
  hvs.imp fun v _ => InhabitsAt.mono h v

theorem GlobalsInhabitAt.mono (h : j ≤ k) {globals : Globals}
    (hglobals : GlobalsInhabitAt m G k globals) : GlobalsInhabitAt m G j globals :=
  fun name type w htype hw => (hglobals name type w htype hw).mono h

/-! ## Inhabitants -/

theorem inhabits_int_iff {v : Value} : Inhabits m G v (.prim "Int") ↔ ∃ n, v = .int n := by
  simp [Inhabits, inhabitsAt_prim_iff]

theorem inhabits_string_iff {v : Value} :
    Inhabits m G v (.prim "String") ↔ ∃ text, v = .string text := by
  simp [Inhabits, inhabitsAt_prim_iff]

/-- The inhabitants of a data type are its constructors with inhabitants of the types of all
fields. -/
theorem inhabits_data_iff {v : Value} {type : String} {params : List Nameless} :
    Inhabits m G v (.data type params) ↔ ∃ (name : String) (args : List Value)
      (i : m.sig.Instance name), v = .saturated name args ∧ i.result = .data type params ∧
        List.Forall₂ (Inhabits m G) args i.fields := by
  constructor
  · intro h
    obtain ⟨name, args, i, rfl, hresult, hargs⟩ := inhabitsAt_data_iff.1 (h 0)
    refine ⟨name, args, i, rfl, hresult, List.forall₂_iff_get.2 ⟨hargs.length_eq, ?_⟩⟩
    intro n hn hn' k
    obtain ⟨name', args', i', heq, hresult', hargs'⟩ := inhabitsAt_data_iff.1 (h k)
    obtain ⟨rfl, -, rfl⟩ := Value.con.inj heq
    -- The type of the value determines those of the fields, for all numbers of steps.
    rw [Signature.Instance.fields_eq (hresult'.trans hresult.symm)] at hargs'
    exact hargs'.get hn hn'
  · rintro ⟨name, args, i, rfl, hresult, hargs⟩ k
    exact inhabitsAt_data_iff.2 ⟨name, args, i, rfl, hresult, hargs.imp fun _ _ h => h k⟩

/-- A function that inhabits its type gives inhabitants of the result for inhabitants of the
parameter, whenever it gives anything. -/
theorem Inhabits.apply {fn arg : Value} {param result : Nameless}
    (hfn : Inhabits m G fn (.arrow param result)) (harg : Inhabits m G arg param)
    {globals : Globals} (hglobals : GlobalsInhabit m G globals) (limit : Nat) :
    Yields (fun v => Inhabits m G v result) (m.apply globals limit fn arg) := by
  intro history v history' hv k
  have hclause := inhabitsAt_arrow_iff.1 (hfn (k + steps limit + 1)) k limit (Nat.lt_succ_self _)
  exact hclause globals (fun name type w htype hw => hglobals name type w htype hw _) arg
    (harg _) history v history' hv

/-- What has to hold of a relation of values and types so that it says what values do with the
values that globals have got. -/
structure Inhabitation (m : Machine) (globals : Globals) (R : Value → Nameless → Prop) : Prop where
  int : ∀ v, R v (.prim "Int") ↔ ∃ n, v = .int n
  string : ∀ v, R v (.prim "String") ↔ ∃ text, v = .string text
  data : ∀ v type params, R v (.data type params) ↔ ∃ (name : String) (args : List Value)
    (i : m.sig.Instance name), v = .saturated name args ∧ i.result = .data type params ∧
      List.Forall₂ R args i.fields
  apply : ∀ fn arg param result limit, R fn (.arrow param result) → R arg param →
    Yields (fun v => R v result) (m.apply globals limit fn arg)

theorem inhabitation {globals : Globals} (hglobals : GlobalsInhabit m G globals) :
    Inhabitation m globals (Inhabits m G) where
  int _ := inhabits_int_iff
  string _ := inhabits_string_iff
  data _ _ _ := inhabits_data_iff
  apply _ _ _ _ limit hfn harg := hfn.apply harg hglobals limit

end Machine

end PolyLambda
