import Mathlib.Algebra.GroupWithZero.Nat
import PolyLambda.Typing.Checker

/-!
# The tasks of the checker

A run of the checker is made of tasks that call tasks: the type of an application is found by
finding the type of its function and then comparing its argument. What a task does by itself, with
its calls left open, is its plan. The checker does what the plans say (`outcome?_eq_run`), as far as
its successes and the states it passes through are concerned; which error stops it is left out.

Written that way, what can happen in a run is a matter of one task at a time, and the induction over
the whole run is the same for all properties.
-/

namespace PolyLambda.Checker

/-- A piece of work that the checker does. -/
inductive Task where
  | infer (ctx : Context) (t : Term)
  | inferTypeFunction (ctx : Context) (t : Term)
  | check (ctx : Context) (t : Term) (expected : Ty)
  | checkArgs (ctx : Context) (args : List Term) (fields : List Ty)
  | inferArgs (ctx : Context) (args : List Term)
  | inferBranches (ctx : Context) (scrutinee : Ty) (previous : Option Ty) (branches : List Branch)
  | unify (ctx : Context) (left right : Ty)
  | checkDefinition (d : Definition)
  | checkDefinitions (types : Table Ty) (ds : List Definition)

/-- The result and the state of a computation that succeeded. -/
def success {α : Type} : Except TypeError α × Checker → Option (α × Checker)
  | (.ok a, c) => some (a, c)
  | (.error _, _) => none

namespace Task

/-- What a task gives when it succeeds. -/
abbrev Result : Task → Type
  | infer _ _ | inferTypeFunction _ _ | inferBranches _ _ _ _ | checkDefinition _ => Ty
  | check _ _ _ | checkArgs _ _ _ | inferArgs _ _ | unify _ _ _ => Unit
  | checkDefinitions _ _ => Table Ty

/-- A bound on the depth of calls. -/
def size : Task → Nat
  | infer _ t => 2 * t.size
  | inferTypeFunction _ t => 2 * t.size + 1
  | check _ t _ => 2 * t.size + 1
  | checkArgs _ args _ => 2 * Term.sizeArgs args
  | inferArgs _ args => 2 * Term.sizeArgs args
  | inferBranches _ _ _ branches => 2 * Term.sizeBranches branches
  | unify _ _ _ => 0
  | checkDefinition d => 2 * d.body.size + 2
  | checkDefinitions _ ds => (ds.map fun d => 2 * d.body.size + 3).sum

/-- The step of checking that the task is. -/
def run (sig : Signature) (limit : Nat) : (task : Task) → Check task.Result
  | infer ctx t => Checker.infer sig limit ctx t
  | inferTypeFunction ctx t => Checker.inferTypeFunction sig limit ctx t
  | check ctx t expected => Checker.check sig limit ctx t expected
  | checkArgs ctx args fields => Checker.checkArgs sig limit ctx args fields
  | inferArgs ctx args => Checker.inferArgs sig limit ctx args
  | inferBranches ctx scrutinee previous branches =>
    Checker.inferBranches sig limit ctx scrutinee previous branches
  | unify ctx left right => Checker.unify limit ctx left right
  | checkDefinition d => Checker.checkDefinition sig limit d
  | checkDefinitions types ds => Checker.checkDefinitions sig limit types ds

/-- What a task comes to from the state `c`: `none` if a limit was too low, and `some none` if it
failed. -/
def outcome? (sig : Signature) (limit : Nat) (task : Task) (c : Checker) :
    Option (Option (task.Result × Checker)) :=
  ((task.run sig limit).outcome? c).map success

end Task

/-! ## Plans -/

/-- What a task does, with the tasks that it calls left open. -/
inductive Plan (α : Type) : Type 1 where
  | done (a : α)
  /-- A step on the state, which may fail. -/
  | act {β : Type} (f : Checker → Option (β × Checker)) (k : β → Plan α)
  /-- The solution of an equation, which may not exist. -/
  | solve (rigid : String → Bool) (left right : Ty) (k : Substitution → Plan α)
  | call (task : Task) (k : task.Result → Plan α)

namespace Plan

variable {α β : Type}

/-- One plan after the other. -/
def bind : Plan α → (α → Plan β) → Plan β
  | done a, f => f a
  | act g k, f => act g fun b => (k b).bind f
  | solve rigid left right k, f => solve rigid left right fun s => (k s).bind f
  | call task k, f => call task fun a => (k a).bind f

instance : Monad Plan where
  pure := done
  bind := bind

/-- The plan that fails. -/
def fail : Plan α :=
  act (fun _ => (none : Option (α × Checker))) done

/-- A step that calls no task. -/
def ofCheck (m : Check α) : Plan α :=
  act (fun c => (m.outcome? c).bind success) done

/-- What a plan comes to if the tasks it calls are run. -/
def run (sig : Signature) (limit : Nat) : Plan α → Checker → Option (Option (α × Checker))
  | done a, c => some (some (a, c))
  | act f k, c =>
    match f c with
    | none => some none
    | some (b, c') => (k b).run sig limit c'
  | solve rigid left right k, c =>
    match (Ty.unify rigid limit left right).outcome? with
    | none => none
    | some (.error _) => some none
    | some (.ok s) => (k s).run sig limit c
  | call task k, c =>
    match task.outcome? sig limit c with
    | none => none
    | some none => some none
    | some (some (a, c')) => (k a).run sig limit c'

theorem run_bind (sig : Signature) (limit : Nat) (p : Plan α) (f : α → Plan β) (c : Checker) :
    (p.bind f).run sig limit c =
      match p.run sig limit c with
      | none => none
      | some none => some none
      | some (some (a, c')) => (f a).run sig limit c' := by
  induction p generalizing c with
  | done a => rfl
  | act g k ih =>
    simp only [bind, run]
    cases g c with
    | none => rfl
    | some r => exact ih r.1 r.2
  | solve rigid left right k ih =>
    simp only [bind, run]
    cases (Ty.unify rigid limit left right).outcome? with
    | none => rfl
    | some o =>
      cases o with
      | error e => rfl
      | ok s => exact ih s c
  | call task k ih =>
    simp only [bind, run]
    cases task.outcome? sig limit c with
    | none => rfl
    | some o =>
      cases o with
      | none => rfl
      | some r => exact ih r.1 r.2

/-- Whether a plan describes a step of checking. -/
def Describes (sig : Signature) (limit : Nat) (p : Plan α) (m : Check α) : Prop :=
  ∀ c, p.run sig limit c = (m.outcome? c).map success

section

variable {sig : Signature} {limit : Nat}

theorem describes_pure (a : α) : (pure a : Plan α).Describes sig limit (pure a) :=
  fun _ => rfl

theorem describes_throw (e : TypeError) : (fail : Plan α).Describes sig limit (throw e) :=
  fun _ => rfl

theorem describes_throw_bind (e : TypeError) (f : β → Check α) :
    (fail : Plan α).Describes sig limit (throw e >>= f) :=
  fun _ => rfl

theorem Describes.bind {p : Plan α} {m : Check α} {f : α → Plan β} {g : α → Check β}
    (h : p.Describes sig limit m) (hf : ∀ a, (f a).Describes sig limit (g a)) :
    (p >>= f).Describes sig limit (m >>= g) := by
  intro c
  rw [LimitedState.outcome?_bind]
  show (p.bind f).run sig limit c = _
  rw [run_bind, h c]
  cases m.outcome? c with
  | none => rfl
  | some o =>
    obtain ⟨r, c'⟩ := o
    cases r with
    | error e => rfl
    | ok a => exact hf a c'

theorem describes_ofCheck {m : Check α} (h : ∀ c, m.outcome? c ≠ none) :
    (ofCheck m).Describes sig limit m := by
  intro c
  rw [ofCheck, run]
  cases hc : m.outcome? c with
  | none => exact absurd hc (h c)
  | some o =>
    obtain ⟨r, c'⟩ := o
    cases r <;> rfl

/-- Which error is reported does not count. -/
theorem Describes.tryCatch {p : Plan α} {m : Check α} {f : TypeError → Check α}
    (h : p.Describes sig limit m) (hf : ∀ e c, ∃ e' c', (f e).outcome? c = some (.error e', c')) :
    p.Describes sig limit (tryCatch m f) := by
  intro c
  rw [h c, LimitedState.outcome?_tryCatch]
  cases m.outcome? c with
  | none => rfl
  | some o =>
    obtain ⟨r, c'⟩ := o
    cases r with
    | ok a => rfl
    | error e =>
      obtain ⟨e', c'', he⟩ := hf e c'
      simp only [he]
      rfl

theorem describes_solve (rigid : String → Bool) (left right : Ty) :
    (solve rigid left right done).Describes sig limit
      (LimitedState.lift TypeError.ofUnify (Ty.unify rigid limit left right)) := by
  intro c
  rw [run, LimitedState.outcome?_lift]
  cases (Ty.unify rigid limit left right).outcome? with
  | none => rfl
  | some o => cases o <;> rfl

theorem describes_call (task : Task) :
    (call task done).Describes sig limit (task.run sig limit) := by
  intro c
  rw [run, Task.outcome?]
  cases (task.run sig limit).outcome? c with
  | none => rfl
  | some o =>
    obtain ⟨r, c'⟩ := o
    cases r <;> rfl

end

end Plan

/-! ## The plan of each task -/

open Plan

section Plans

variable (sig : Signature)

/-- The plan that calls a task and does no more. -/
def Task.call (task : Task) : Plan task.Result :=
  .call task .done

def asArrowPlan (ctx : Context) : Ty → Plan (Ty × Ty)
  | .arrow param result => return (param, result)
  | t => do
    let param ← ofCheck freshMeta
    let result ← ofCheck freshMeta
    if (t.flexible? ctx.hasTypeVar).isSome then
      (Task.unify ctx t (.arrow param result)).call
      return (param, result)
    else fail

def inferPlan (ctx : Context) : Term → Plan Ty
  | .var index =>
    match ctx.type? index with
    | some t => ofCheck (resolve t)
    | none => fail
  | .global name => ofCheck (globalType name)
  | .lam (some param) body => do
    let result ← (Task.infer (ctx.extend param) body).call
    ofCheck (resolve (.arrow param result))
  | .lam none _ => fail
  | .app fn arg => do
    let f ← (Task.infer ctx fn).call
    let (param, result) ← asArrowPlan ctx f
    (Task.check ctx arg param).call
    ofCheck (resolve result)
  | .tlam v body => do
    let t ← (Task.infer (ctx.extendType v) body).call
    return .all v t
  | .tapp fn arg => do
    match ← (Task.inferTypeFunction ctx fn).call with
    | .all v body => return body.substitute v arg
    | _ => fail
  | .con name args => do
    let t ← ofCheck (constructorType sig name)
    let t ← ofCheck (instantiate t)
    if t.splitArrows.1.length < args.length then
      fail
    else
      (Task.checkArgs ctx args t.splitArrows.1).call
      ofCheck (resolve (Ty.arrows (t.splitArrows.1.drop args.length) t.splitArrows.2))
  | .case scrutinee branches => do
    if branches.isEmpty then
      fail
    else
      let s ← (Task.infer ctx scrutinee).call
      (Task.inferBranches ctx s none branches).call
  | .letIn _ value body => do
    let v ← (Task.infer ctx value).call
    (Task.infer (ctx.extend v) body).call
  | .int _ => return .int
  | .string _ => return .string
  | .prim name => ofCheck (primitiveType sig name)
  | .tool _ args => do
    (Task.inferArgs ctx args).call
    ofCheck freshMeta

def inferTypeFunctionPlan (ctx : Context) : Term → Plan Ty
  | .con name [] => ofCheck (constructorType sig name)
  | t => (Task.infer ctx t).call

def checkPlan (ctx : Context) (t : Term) (expected : Ty) : Plan Unit := do
  match t, ← ofCheck (resolve expected) with
  | .lam (some declared) body, .arrow param result =>
    (Task.unify ctx param declared).call
    (Task.check (ctx.extend declared) body result).call
  | .lam none body, .arrow param result => (Task.check (ctx.extend param) body result).call
  | .tlam v body, .all w result =>
    (Task.check (ctx.extendType v) body (underBinder v w result)).call
  | t, expected =>
    let actual ← (Task.infer ctx t).call
    (Task.unify ctx expected actual).call

def checkArgsPlan (ctx : Context) : List Term → List Ty → Plan Unit
  | arg :: args, field :: fields => do
    (Task.check ctx arg field).call
    (Task.checkArgs ctx args fields).call
  | _, _ => return ()

def inferArgsPlan (ctx : Context) : List Term → Plan Unit
  | [] => return ()
  | arg :: args => do
    let _ ← (Task.infer ctx arg).call
    (Task.inferArgs ctx args).call

def enterBranchPlan (ctx : Context) (scrutinee : Ty) (constructor : String)
    (vars : List String) : Plan Context := do
  let t ← ofCheck (constructorType sig constructor)
  let t ← ofCheck (instantiate t)
  if t.splitArrows.1.length ≠ vars.length then
    fail
  else
    (Task.unify ctx t.splitArrows.2 scrutinee).call
    let c ← ofCheck get
    return ctx.extendAll (t.splitArrows.1.map c.resolved)

def joinBranchPlan (ctx : Context) (previous : Option Ty) (t : Ty) : Plan Ty :=
  match previous with
  | none => return t
  | some p => do
    (Task.unify ctx p t).call
    ofCheck (resolve p)

def inferBranchesPlan (ctx : Context) (scrutinee : Ty) (previous : Option Ty) :
    List Branch → Plan Ty
  | [] =>
    match previous with
    | some t => return t
    | none => fail
  | .mk constructor vars body :: branches => do
    let inner ← enterBranchPlan sig ctx scrutinee constructor vars
    let t ← (Task.infer inner body).call
    let joined ← joinBranchPlan ctx previous t
    (Task.inferBranches ctx scrutinee (some joined) branches).call

def unifyPlan (ctx : Context) (left right : Ty) : Plan Unit := do
  let c ← ofCheck get
  let step ← solve ctx.hasTypeVar (c.resolved left) (c.resolved right) .done
  ofCheck (set { c with subst := step.compose c.subst })

def checkBodyPlan (d : Definition) (placeholder : Ty) : Plan Ty :=
  match d.type with
  | some t => do
    (Task.check .empty d.body t).call
    return t
  | none => do
    let t ← (Task.infer .empty d.body).call
    (Task.unify .empty placeholder t).call
    ofCheck (resolve t)

def placeholderPlan (d : Definition) : Plan Ty :=
  match d.type with
  | some t => return t
  | none => ofCheck freshMeta

def checkDefinitionPlan (d : Definition) : Plan Ty := do
  let placeholder ← placeholderPlan d
  ofCheck (setGlobal d.name placeholder)
  let t ← checkBodyPlan d placeholder
  ofCheck (setGlobal d.name t)
  return t

def checkDefinitionsPlan (types : Table Ty) : List Definition → Plan (Table Ty)
  | [] => return types
  | d :: ds => do
    let t ← (Task.checkDefinition d).call
    (Task.checkDefinitions (types.insert d.name t) ds).call

/-- What a task does. -/
def Task.plan : (task : Task) → Plan task.Result
  | infer ctx t => inferPlan sig ctx t
  | inferTypeFunction ctx t => inferTypeFunctionPlan sig ctx t
  | check ctx t expected => checkPlan ctx t expected
  | checkArgs ctx args fields => checkArgsPlan ctx args fields
  | inferArgs ctx args => inferArgsPlan ctx args
  | inferBranches ctx scrutinee previous branches =>
    inferBranchesPlan sig ctx scrutinee previous branches
  | unify ctx left right => unifyPlan ctx left right
  | checkDefinition d => checkDefinitionPlan d
  | checkDefinitions types ds => checkDefinitionsPlan types ds

end Plans

/-! ## The plans describe the checker -/

section Describing

variable (sig : Signature) (limit : Nat)

/-- Steps that no limit applies to. -/
theorem outcome?_freshMeta_ne_none (c : Checker) : freshMeta.outcome? c ≠ none := nofun

theorem outcome?_resolve_ne_none (t : Ty) (c : Checker) :
    (resolve t).outcome? c ≠ none := nofun

theorem outcome?_globalType (name : String) (c : Checker) :
    (globalType name).outcome? c =
      match c.globalType? name with
      | some t => some (.ok t, c)
      | none => some (.error (.undefinedVariable name), c) := by
  rw [globalType, LimitedState.outcome?_bind]
  simp only [LimitedState.outcome?_get]
  cases c.globalType? name <;> rfl

theorem outcome?_globalType_ne_none (name : String) (c : Checker) :
    (globalType name).outcome? c ≠ none := by
  rw [outcome?_globalType]
  cases c.globalType? name <;> rintro ⟨⟩

theorem outcome?_constructorType_ne_none (name : String) (c : Checker) :
    (constructorType sig name).outcome? c ≠ none := by
  rw [constructorType]
  cases sig.constructorTypes.get? name <;> rintro ⟨⟩

theorem outcome?_primitiveType_ne_none (name : String) (c : Checker) :
    (primitiveType sig name).outcome? c ≠ none := by
  rw [primitiveType]
  cases sig.primitiveTypes.get? name <;> rintro ⟨⟩

theorem outcome?_instantiateWithin_ne_none (n : Nat) (t : Ty) (c : Checker) :
    (instantiateWithin n t).outcome? c ≠ none := by
  induction n generalizing t c with
  | zero => rw [instantiateWithin.eq_def]; rintro ⟨⟩
  | succ n ih =>
    cases t with
    | all v body =>
      rw [instantiateWithin, LimitedState.outcome?_bind]
      exact ih _ _
    | _ => rw [instantiateWithin.eq_def]; rintro ⟨⟩

theorem describes_asArrow (ctx : Context) (t : Ty) :
    (asArrowPlan ctx t).Describes sig limit (asArrow limit ctx t) := by
  cases t with
  | arrow param result => exact describes_pure _
  | var | all | data | prim =>
    refine (describes_ofCheck outcome?_freshMeta_ne_none).bind fun param => ?_
    refine (describes_ofCheck outcome?_freshMeta_ne_none).bind fun result => ?_
    split
    next => exact (describes_call (.unify _ _ _)).bind fun _ => describes_pure _
    next => exact describes_throw _

theorem describes_infer (ctx : Context) (t : Term) :
    (inferPlan sig ctx t).Describes sig limit (infer sig limit ctx t) := by
  cases t with
  | var index =>
    rw [infer, inferPlan]
    cases ctx.type? index with
    | some t => exact describes_ofCheck (outcome?_resolve_ne_none t)
    | none => exact describes_throw _
  | global name =>
    rw [infer, inferPlan]
    exact describes_ofCheck (outcome?_globalType_ne_none name)
  | lam type body =>
    cases type with
    | some param =>
      rw [infer, inferPlan]
      exact (describes_call _).bind fun _ => describes_ofCheck (outcome?_resolve_ne_none _)
    | none =>
      rw [infer, inferPlan]
      exact describes_throw _
  | app fn arg =>
    rw [infer, inferPlan]
    refine (describes_call (.infer ctx fn)).bind fun f => ?_
    refine (describes_asArrow sig limit ctx f).bind ?_
    rintro ⟨param, result⟩
    exact (describes_call (.check ctx arg param)).bind fun _ =>
      describes_ofCheck (outcome?_resolve_ne_none _)
  | tlam v body =>
    rw [infer, inferPlan]
    exact (describes_call _).bind fun _ => describes_pure _
  | tapp fn arg =>
    rw [infer, inferPlan]
    refine (describes_call (.inferTypeFunction ctx fn)).bind fun t => ?_
    cases t with
    | all v body => exact describes_pure _
    | _ => exact describes_throw _
  | con name args =>
    rw [infer, inferPlan]
    refine (describes_ofCheck (outcome?_constructorType_ne_none sig name)).bind fun t => ?_
    refine (describes_ofCheck (outcome?_instantiateWithin_ne_none _ t)).bind fun t => ?_
    generalize t.splitArrows = p
    dsimp only
    split
    next => exact describes_throw_bind _ _
    next =>
      exact (describes_call _).bind fun _ => describes_ofCheck (outcome?_resolve_ne_none _)
  | case scrutinee branches =>
    rw [infer, inferPlan]
    split
    next => exact describes_throw_bind _ _
    next =>
      exact (describes_call (.infer ctx scrutinee)).bind fun s =>
        describes_call (.inferBranches ctx s none branches)
  | letIn name value body =>
    rw [infer, inferPlan]
    exact (describes_call _).bind fun _ => describes_call _
  | int value =>
    rw [infer, inferPlan]
    exact describes_pure _
  | string text =>
    rw [infer, inferPlan]
    exact describes_pure _
  | prim name =>
    rw [infer, inferPlan]
    exact describes_ofCheck (outcome?_primitiveType_ne_none sig name)
  | tool name args =>
    rw [infer, inferPlan]
    exact (describes_call _).bind fun _ => describes_ofCheck outcome?_freshMeta_ne_none

theorem describes_inferTypeFunction (ctx : Context) (t : Term) :
    (inferTypeFunctionPlan sig ctx t).Describes sig limit
      (inferTypeFunction sig limit ctx t) := by
  rw [inferTypeFunction.eq_def]
  cases t with
  | con name args =>
    cases args with
    | nil => exact describes_ofCheck (outcome?_constructorType_ne_none sig name)
    | cons arg args => exact describes_call (.infer ctx _)
  | _ => exact describes_call (.infer ctx _)

theorem describes_expectType (ctx : Context) (expected actual : Ty) :
    (Task.unify ctx expected actual).call.Describes sig limit
      (expectType limit ctx expected actual) := by
  refine (describes_call (.unify ctx expected actual)).tryCatch fun e c => ?_
  cases e <;> exact ⟨_, _, rfl⟩

theorem describes_check (ctx : Context) (t : Term) (expected : Ty) :
    (checkPlan ctx t expected).Describes sig limit (check sig limit ctx t expected) := by
  rw [check.eq_def, checkPlan.eq_def]
  refine (describes_ofCheck (outcome?_resolve_ne_none expected)).bind fun expected => ?_
  have hother (t : Term) :
      (do
        let actual ← (Task.infer ctx t).call
        (Task.unify ctx expected actual).call : Plan Unit).Describes sig limit
      (do
        let actual ← infer sig limit ctx t
        expectType limit ctx expected actual) :=
    (describes_call (.infer ctx t)).bind fun actual =>
      describes_expectType sig limit ctx expected actual
  cases t with
  | lam type body =>
    cases type with
    | some declared =>
      cases expected with
      | arrow param result =>
        exact (describes_expectType sig limit ctx param declared).bind fun _ =>
          describes_call (.check _ _ _)
      | _ => exact hother _
    | none =>
      cases expected with
      | arrow param result => exact describes_call (.check _ _ _)
      | _ => exact hother _
  | tlam v body =>
    cases expected with
    | all w result => exact describes_call (.check _ _ _)
    | _ => exact hother _
  | _ => exact hother _

theorem describes_checkArgs (ctx : Context) (args : List Term) (fields : List Ty) :
    (checkArgsPlan ctx args fields).Describes sig limit
      (checkArgs sig limit ctx args fields) := by
  rw [checkArgs.eq_def]
  cases args with
  | nil => exact describes_pure _
  | cons arg args =>
    cases fields with
    | nil => exact describes_pure _
    | cons field fields =>
      exact (describes_call (.check ctx arg field)).bind fun _ =>
        describes_call (.checkArgs ctx args fields)

theorem describes_inferArgs (ctx : Context) (args : List Term) :
    (inferArgsPlan ctx args).Describes sig limit (inferArgs sig limit ctx args) := by
  rw [inferArgs.eq_def]
  cases args with
  | nil => exact describes_pure _
  | cons arg args =>
    exact (describes_call (.infer ctx arg)).bind fun _ => describes_call (.inferArgs ctx args)

theorem describes_enterBranch (ctx : Context) (scrutinee : Ty) (constructor : String)
    (vars : List String) :
    (enterBranchPlan sig ctx scrutinee constructor vars).Describes sig limit
      (enterBranch sig limit ctx scrutinee constructor vars) := by
  rw [enterBranch, enterBranchPlan]
  refine (describes_ofCheck (outcome?_constructorType_ne_none sig constructor)).bind fun t => ?_
  refine (describes_ofCheck (outcome?_instantiateWithin_ne_none _ t)).bind fun t => ?_
  generalize t.splitArrows = p
  dsimp only
  split
  next => exact describes_throw_bind _ _
  next =>
    exact (describes_call (.unify ctx p.2 scrutinee)).bind fun _ =>
      (describes_ofCheck fun _ => Option.some_ne_none _).bind fun _ => describes_pure _

theorem describes_joinBranch (ctx : Context) (previous : Option Ty) (t : Ty) :
    (joinBranchPlan ctx previous t).Describes sig limit (joinBranch limit ctx previous t) := by
  cases previous with
  | none => exact describes_pure _
  | some p =>
    exact (describes_call (.unify ctx p t)).bind fun _ =>
      describes_ofCheck (outcome?_resolve_ne_none p)

theorem describes_inferBranches (ctx : Context) (scrutinee : Ty) (previous : Option Ty)
    (branches : List Branch) :
    (inferBranchesPlan sig ctx scrutinee previous branches).Describes sig limit
      (inferBranches sig limit ctx scrutinee previous branches) := by
  rw [inferBranches.eq_def, inferBranchesPlan.eq_def]
  cases branches with
  | nil =>
    cases previous with
    | some t => exact describes_pure _
    | none => exact describes_throw _
  | cons branch branches =>
    obtain ⟨constructor, vars, body⟩ := branch
    refine (describes_enterBranch sig limit ctx scrutinee constructor vars).bind fun inner => ?_
    refine (describes_call (.infer inner body)).bind fun t => ?_
    exact (describes_joinBranch sig limit ctx previous t).bind fun joined =>
      describes_call (.inferBranches ctx scrutinee (some joined) branches)

theorem describes_unify (ctx : Context) (left right : Ty) :
    (unifyPlan ctx left right).Describes sig limit (unify limit ctx left right) := by
  rw [unify, unifyPlan]
  refine (describes_ofCheck fun _ => Option.some_ne_none _).bind fun c => ?_
  exact (describes_solve _ _ _).bind fun step => describes_ofCheck fun _ => Option.some_ne_none _

theorem describes_checkBody (d : Definition) (placeholder : Ty) :
    (checkBodyPlan d placeholder).Describes sig limit (checkBody sig limit d placeholder) := by
  rw [checkBody, checkBodyPlan]
  cases d.type with
  | some t => exact (describes_call (.check .empty d.body t)).bind fun _ => describes_pure t
  | none =>
    refine (describes_call (.infer .empty d.body)).bind fun t => ?_
    exact (describes_expectType sig limit .empty placeholder t).bind fun _ =>
      describes_ofCheck (outcome?_resolve_ne_none t)

theorem describes_checkDefinition (d : Definition) :
    (checkDefinitionPlan d).Describes sig limit (checkDefinition sig limit d) := by
  have hset (t : Ty) (c : Checker) : (setGlobal d.name t).outcome? c ≠ none := nofun
  have hplaceholder : (placeholderPlan d).Describes sig limit (d.type.elim freshMeta pure) := by
    rw [placeholderPlan]
    cases d.type with
    | some t => exact describes_pure t
    | none => exact describes_ofCheck outcome?_freshMeta_ne_none
  rw [checkDefinition_eq_bind, checkDefinitionPlan]
  refine hplaceholder.bind fun placeholder => (describes_ofCheck (hset placeholder)).bind fun _ =>
    Describes.bind ?_ fun t => (describes_ofCheck (hset t)).bind fun _ => describes_pure t
  exact (describes_checkBody sig limit d placeholder).tryCatch fun e c => ⟨_, _, rfl⟩

theorem describes_checkDefinitions (types : Table Ty) (ds : List Definition) :
    (checkDefinitionsPlan types ds).Describes sig limit
      (checkDefinitions sig limit types ds) := by
  cases ds with
  | nil => exact describes_pure _
  | cons d ds =>
    exact (describes_call (.checkDefinition d)).bind fun t =>
      describes_call (.checkDefinitions (types.insert d.name t) ds)

theorem describes_run (task : Task) : (task.plan sig).Describes sig limit (task.run sig limit) := by
  cases task with
  | infer ctx t => exact describes_infer sig limit ctx t
  | inferTypeFunction ctx t => exact describes_inferTypeFunction sig limit ctx t
  | check ctx t expected => exact describes_check sig limit ctx t expected
  | checkArgs ctx args fields => exact describes_checkArgs sig limit ctx args fields
  | inferArgs ctx args => exact describes_inferArgs sig limit ctx args
  | inferBranches ctx scrutinee previous branches =>
    exact describes_inferBranches sig limit ctx scrutinee previous branches
  | unify ctx left right => exact describes_unify sig limit ctx left right
  | checkDefinition d => exact describes_checkDefinition sig limit d
  | checkDefinitions types ds => exact describes_checkDefinitions sig limit types ds

/-- The checker does what the plans say. -/
theorem outcome?_eq_run (task : Task) (c : Checker) :
    task.outcome? sig limit c = (task.plan sig).run sig limit c :=
  (describes_run sig limit task c).symm

end Describing

end PolyLambda.Checker
