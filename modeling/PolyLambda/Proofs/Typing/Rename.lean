import PolyLambda.Proofs.Typing.Run
import PolyLambda.Proofs.Unify.Rename

/-!
# Type checking under a renaming

The checker only compares type variables, adds primes to them and makes metas. So a renaming that
keeps the metas carries a run to a run: on the renamed program the checker does the same with
renamed types, and comes to the same end, the error included.
-/

namespace PolyLambda

/-- Whether a renaming keeps the names of metas. -/
def Renaming.KeepsMetas (π : Renaming) : Prop :=
  ∀ n, π (Checker.metaName n) = Checker.metaName n

theorem Table.map_insert {α β : Type} (f : α → β) (t : Table α) (name : String) (a : α) :
    (t.insert name a).map f = (t.map f).insert name (f a) := by
  refine ext fun x => ?_
  rw [get?_insert, get?_map, get?_map, get?_insert]
  split <;> rfl

/-! ## Renaming a program -/

namespace Term

mutual

/-- The term with new names for all its type variables. -/
def rename (π : Renaming) : Term → Term
  | .var index => .var index
  | .global name => .global name
  | .lam type body => .lam (type.map (Ty.rename π)) (body.rename π)
  | .app fn arg => .app (fn.rename π) (arg.rename π)
  | .tlam v body => .tlam (π v) (body.rename π)
  | .tapp fn type => .tapp (fn.rename π) (type.rename π)
  | .con name args => .con name (renameAll π args)
  | .case scrutinee branches => .case (scrutinee.rename π) (renameBranches π branches)
  | .letIn name value body => .letIn name (value.rename π) (body.rename π)
  | .int value => .int value
  | .string text => .string text
  | .prim name => .prim name
  | .tool name args => .tool name (renameAll π args)

def renameAll (π : Renaming) : List Term → List Term
  | [] => []
  | arg :: args => arg.rename π :: renameAll π args

def renameBranches (π : Renaming) : List Branch → List Branch
  | [] => []
  | .mk constructor vars body :: branches =>
    .mk constructor vars (body.rename π) :: renameBranches π branches

end

theorem length_renameAll (π : Renaming) (args : List Term) :
    (renameAll π args).length = args.length := by
  induction args with
  | nil => rfl
  | cons arg args ih => rw [renameAll, List.length_cons, List.length_cons, ih]

theorem isEmpty_renameBranches (π : Renaming) (branches : List Branch) :
    (renameBranches π branches).isEmpty = branches.isEmpty := by
  cases branches with
  | nil => rfl
  | cons branch branches =>
    obtain ⟨constructor, vars, body⟩ := branch
    rfl

end Term

section

variable (π : Renaming)

def ConstructorDecl.rename (c : ConstructorDecl) : ConstructorDecl :=
  { c with fields := c.fields.map (Ty.rename π) }

def DataDecl.rename (d : DataDecl) : DataDecl :=
  { d with params := d.params.map π, constructors := d.constructors.map (ConstructorDecl.rename π) }

def Definition.rename (d : Definition) : Definition :=
  { d with type := d.type.map (Ty.rename π), body := d.body.rename π }

def Declaration.rename : Declaration → Declaration
  | data d => data (d.rename π)
  | definition d => definition (d.rename π)
  | primType name => primType name
  | primOp name type => primOp name (type.rename π)

def LlmFunction.rename (f : LlmFunction) : LlmFunction :=
  { f with param := f.param.rename π, result := f.result.rename π }

def Signature.rename (sig : Signature) : Signature where
  dataTypes := sig.dataTypes.map (DataDecl.rename π)
  constructorTypes := sig.constructorTypes.map (Ty.rename π)
  globalTypes := sig.globalTypes.map (Ty.rename π)
  primitiveTypes := sig.primitiveTypes.map (Ty.rename π)
  primitiveTypeNames := sig.primitiveTypeNames
  llmFunctions := sig.llmFunctions.map (LlmFunction.rename π)

/-- The module with new names for all its type variables. -/
def Module.rename (m : Module) : Module where
  toSignature := m.toSignature.rename π
  declarations := m.declarations.map (Declaration.rename π)
  errors := m.errors
  warnings := m.warnings

theorem Module.definitions_rename (m : Module) :
    (m.rename π).definitions = m.definitions.map (Definition.rename π) := by
  rw [definitions, definitions, show (m.rename π).declarations = m.declarations.map _ from rfl,
    List.filterMap_map, List.map_filterMap]
  refine List.filterMap_congr fun d _ => ?_
  cases d <;> rfl

/-- What a checker has to do with, with new names. -/
def Context.rename (ctx : Context) : Context where
  terms := ctx.terms.map (Ty.rename π)
  typeVars := ctx.typeVars.map π

def Checker.rename (c : Checker) : Checker where
  globals := c.globals.map (Ty.rename π)
  subst := c.subst.rename π
  nextMeta := c.nextMeta

def TypeError.rename : TypeError → TypeError
  | unboundIndex index => unboundIndex index
  | undefinedVariable name => undefinedVariable name
  | undefinedConstructor name => undefinedConstructor name
  | mismatch expected actual => mismatch (expected.rename π) (actual.rename π)
  | unification left right => unification (left.rename π) (right.rename π)
  | occurs v type => occurs (π v) (type.rename π)
  | bareLambda => bareLambda
  | notQuantified arg type => notQuantified (arg.rename π) (type.rename π)
  | constructorArgs name fields args => constructorArgs name fields args
  | noBranches => noBranches
  | patternArity constructor vars fields => patternArity constructor vars fields
  | inDeclaration name cause => inDeclaration name cause.rename

end

namespace Context

variable (π : Renaming) (ctx : Context)

theorem hasTypeVar_rename (v : String) : (ctx.rename π).hasTypeVar (π v) = ctx.hasTypeVar v := by
  rw [Bool.eq_iff_iff, hasTypeVar_iff, hasTypeVar_iff]
  exact π.mem_map_iff

theorem type?_rename (index : Nat) :
    (ctx.rename π).type? index = (ctx.type? index).map (Ty.rename π) :=
  List.getElem?_map

theorem extendAll_rename (ts : List Ty) :
    (ctx.extendAll ts).rename π = (ctx.rename π).extendAll (ts.map (Ty.rename π)) := by
  rw [rename, extendAll, List.map_append]
  rfl

end Context

namespace Checker

section

variable (π : Renaming) {α β : Type}

/-- The end of a step, with new names. -/
def renameEnd (f : α → α) : Except TypeError α → Except TypeError α
  | .ok a => .ok (f a)
  | .error e => .error (e.rename π)

/-- Whether `m'` does with renamed things what `m` does, where `f` renames the result. -/
def Renames (f : α → α) (m m' : Check α) : Prop :=
  ∀ c, m'.outcome? (c.rename π) = (m.outcome? c).map fun r => (renameEnd π f r.1, r.2.rename π)

theorem resolved_rename (c : Checker) (t : Ty) :
    (c.rename π).resolved (t.rename π) = (c.resolved t).rename π :=
  c.subst.apply_rename π t

theorem globalType?_rename (c : Checker) (name : String) :
    (c.rename π).globalType? name = (c.globalType? name).map (Ty.rename π) := by
  rw [globalType?, globalType?, show (c.rename π).globals =
    c.globals.map _ from rfl, Table.get?_map, Option.map_map, Option.map_map]
  refine congrArg (fun f => Option.map f _) (funext fun t => ?_)
  exact c.resolved_rename π t

/-! ## Steps -/

section

variable {π} {f : α → α} {m m' : Check α}

theorem renames_pure {a b : α} (h : b = f a) : Renames π f (pure a) (pure b) := by
  subst h
  exact fun _ => rfl

theorem renames_throw {e e' : TypeError} (h : e' = e.rename π) :
    Renames π f (throw e : Check α) (throw e') := by
  subst h
  exact fun _ => rfl

theorem renames_throw_bind {e e' : TypeError} {k k' : β → Check α} (h : e' = e.rename π) :
    Renames π f (throw e >>= k) (throw e' >>= k') := by
  subst h
  exact fun _ => rfl

theorem Renames.bind {g : β → β} {k k' : α → Check β} (h : Renames π f m m')
    (hk : ∀ a, Renames π g (k a) (k' (f a))) : Renames π g (m >>= k) (m' >>= k') := by
  intro c
  rw [LimitedState.outcome?_bind, LimitedState.outcome?_bind, h c]
  cases m.outcome? c with
  | none => rfl
  | some r =>
    obtain ⟨r, c'⟩ := r
    cases r with
    | error e => rfl
    | ok a => exact hk a c'

theorem Renames.tryCatch {k k' : TypeError → Check α} (h : Renames π f m m')
    (hk : ∀ e, Renames π f (k e) (k' (e.rename π))) :
    Renames π f (tryCatch m k) (tryCatch m' k') := by
  intro c
  rw [LimitedState.outcome?_tryCatch, LimitedState.outcome?_tryCatch, h c]
  cases m.outcome? c with
  | none => rfl
  | some r =>
    obtain ⟨r, c'⟩ := r
    cases r with
    | error e => exact hk e c'
    | ok a => rfl

end

theorem renames_get : Renames π (rename π) get get :=
  fun _ => rfl

theorem renames_resolve (t : Ty) : Renames π (Ty.rename π) (resolve t) (resolve (t.rename π)) :=
  (renames_get π).bind fun c => renames_pure (c.resolved_rename π t)

theorem renames_globalType (name : String) :
    Renames π (Ty.rename π) (globalType name) (globalType name) := by
  refine (renames_get π).bind fun c => ?_
  rw [globalType?_rename]
  cases c.globalType? name with
  | none => exact renames_throw rfl
  | some t => exact renames_pure rfl

theorem renames_setGlobal (name : String) (t : Ty) :
    Renames π id (setGlobal name t) (setGlobal name (t.rename π)) := by
  intro c
  simp only [setGlobal, LimitedState.outcome?_modify, rename, Option.map_some, Table.map_insert]
  rfl

/-! ## Equations -/

theorem renames_unify (limit : Nat) (ctx : Context) (left right : Ty) :
    Renames π id (unify limit ctx left right)
      (unify limit (ctx.rename π) (left.rename π) (right.rename π)) := by
  refine (renames_get π).bind fun c => ?_
  rw [resolved_rename, resolved_rename]
  refine Renames.bind (f := Substitution.rename π) (fun c₁ => ?_) fun step c₁ => ?_
  · rw [LimitedState.outcome?_lift, LimitedState.outcome?_lift,
      Ty.unify_rename π (ctx.hasTypeVar_rename π)]
    cases (Ty.unify ctx.hasTypeVar limit (c.resolved left) (c.resolved right)).outcome? with
    | none => rfl
    | some r =>
      cases r with
      | error e => cases e <;> rfl
      | ok s => rfl
  · have hcompose : (step.rename π).compose (c.subst.rename π) = (step.compose c.subst).rename π :=
      (Substitution.rename_compose π step c.subst).symm
    simp only [LimitedState.outcome?_set, rename, hcompose]
    rfl

theorem renames_expectType (limit : Nat) (ctx : Context) (expected actual : Ty) :
    Renames π id (expectType limit ctx expected actual)
      (expectType limit (ctx.rename π) (expected.rename π) (actual.rename π)) := by
  refine (renames_unify π limit ctx expected actual).tryCatch fun e => ?_
  cases e with
  | unification left right =>
    exact (renames_resolve π expected).bind fun _ => (renames_resolve π actual).bind fun _ =>
      renames_throw rfl
  | _ => exact renames_throw rfl

variable {π}

theorem renames_freshMeta (hπ : π.KeepsMetas) : Renames π (Ty.rename π) freshMeta freshMeta := by
  intro c
  simp only [freshMeta, LimitedState.outcome?_modifyGet, rename, Option.map_some,
    renameEnd, Ty.rename, hπ c.nextMeta]

theorem renames_instantiateWithin (hπ : π.KeepsMetas) (n : Nat) (t : Ty) :
    Renames π (Ty.rename π) (instantiateWithin n t) (instantiateWithin n (t.rename π)) := by
  induction n generalizing t with
  | zero =>
    rw [instantiateWithin.eq_def, instantiateWithin.eq_def]
    exact renames_pure rfl
  | succ n ih =>
    cases t with
    | all v b =>
      refine (renames_freshMeta hπ).bind fun m => ?_
      rw [Ty.substitute_rename]
      exact ih _
    | _ => exact renames_pure rfl

theorem renames_instantiate (hπ : π.KeepsMetas) (t : Ty) :
    Renames π (Ty.rename π) (instantiate t) (instantiate (t.rename π)) := by
  rw [instantiate, instantiate, Ty.splitAlls_rename, List.length_map]
  exact renames_instantiateWithin hπ _ t

/-- The parameter and the result of a function, with new names. -/
def renamePair (π : Renaming) (p : Ty × Ty) : Ty × Ty :=
  (p.1.rename π, p.2.rename π)

theorem renames_asArrow (hπ : π.KeepsMetas) (limit : Nat) (ctx : Context) (t : Ty) :
    Renames π (renamePair π) (asArrow limit ctx t) (asArrow limit (ctx.rename π) (t.rename π)) := by
  cases ht : t with
  | arrow param result => exact renames_pure rfl
  | var | all | data | prim =>
    refine (renames_freshMeta hπ).bind fun param => (renames_freshMeta hπ).bind fun result => ?_
    rw [← ht, Ty.flexible?_rename π (ctx.hasTypeVar_rename π), Option.isSome_map]
    split
    next => exact (renames_unify π limit ctx t (.arrow param result)).bind fun _ => renames_pure rfl
    next => exact renames_throw rfl

end

/-! ## Terms -/

section

variable {π : Renaming} (sig : Signature) (limit : Nat)

theorem renames_constructorType (name : String) : Renames π (Ty.rename π)
    (constructorType sig name) (constructorType (sig.rename π) name) := by
  rw [constructorType, constructorType,
    show (sig.rename π).constructorTypes = sig.constructorTypes.map _ from rfl, Table.get?_map]
  cases sig.constructorTypes.get? name with
  | none => exact renames_throw rfl
  | some t => exact renames_pure rfl

theorem renames_primitiveType (name : String) : Renames π (Ty.rename π)
    (primitiveType sig name) (primitiveType (sig.rename π) name) := by
  rw [primitiveType, primitiveType,
    show (sig.rename π).primitiveTypes = sig.primitiveTypes.map _ from rfl, Table.get?_map]
  cases sig.primitiveTypes.get? name with
  | none => exact renames_throw rfl
  | some t => exact renames_pure rfl

theorem underBinder_rename (v w : String) (t : Ty) :
    underBinder (π v) (π w) (t.rename π) = (underBinder v w t).rename π := by
  rw [underBinder, underBinder]
  simp only [π.eq_iff]
  split
  next => rfl
  next => rw [← Ty.substitute_rename, Ty.rename]

theorem renames_joinBranch (ctx : Context) (previous : Option Ty) (t : Ty) : Renames π (Ty.rename π)
    (joinBranch limit ctx previous t)
    (joinBranch limit (ctx.rename π) (previous.map (Ty.rename π)) (t.rename π)) := by
  cases previous with
  | none => exact renames_pure rfl
  | some p => exact (renames_unify π limit ctx p t).bind fun _ => renames_resolve π p

theorem renames_enterBranch (hπ : π.KeepsMetas) (ctx : Context) (scrutinee : Ty)
    (constructor : String) (vars : List String) : Renames π (Context.rename π)
      (enterBranch sig limit ctx scrutinee constructor vars)
      (enterBranch (sig.rename π) limit (ctx.rename π) (scrutinee.rename π) constructor vars) := by
  refine (renames_constructorType sig constructor).bind fun t =>
    (renames_instantiate hπ t).bind fun t => ?_
  rw [Ty.splitArrows_rename]
  dsimp only
  rw [List.length_map]
  split
  next => exact renames_throw_bind rfl
  next =>
    refine (renames_unify π limit ctx _ scrutinee).bind fun _ => (renames_get π).bind fun c => ?_
    refine renames_pure ?_
    rw [Context.extendAll_rename, List.map_map, List.map_map]
    refine congrArg _ (List.map_congr_left fun f _ => ?_)
    exact c.resolved_rename π f

mutual

theorem renames_infer (hπ : π.KeepsMetas) (ctx : Context) (t : Term) : Renames π (Ty.rename π)
    (infer sig limit ctx t) (infer (sig.rename π) limit (ctx.rename π) (t.rename π)) := by
  cases t with
  | var index =>
    rw [Term.rename, infer, infer, Context.type?_rename]
    cases ctx.type? index with
    | some t => exact renames_resolve π t
    | none => exact renames_throw rfl
  | global name =>
    rw [Term.rename, infer, infer]
    exact renames_globalType π name
  | lam type body =>
    cases type with
    | some param =>
      rw [Term.rename, Option.map_some, infer, infer]
      exact (renames_infer hπ (ctx.extend param) body).bind fun result =>
        renames_resolve π (.arrow param result)
    | none =>
      rw [Term.rename, Option.map_none, infer, infer]
      exact renames_throw rfl
  | app fn arg =>
    rw [Term.rename, infer, infer]
    exact (renames_infer hπ ctx fn).bind fun f => (renames_asArrow hπ limit ctx f).bind fun p =>
      (renames_check hπ ctx arg p.1).bind fun _ => renames_resolve π p.2
  | tlam v body =>
    rw [Term.rename, infer, infer]
    exact (renames_infer hπ (ctx.extendType v) body).bind fun t => renames_pure rfl
  | tapp fn arg =>
    rw [Term.rename, infer, infer]
    refine (renames_inferTypeFunction hπ ctx fn).bind fun t => ?_
    cases t with
    | all v body =>
      exact renames_pure (Ty.substitute_rename π body v arg)
    | _ => exact renames_throw rfl
  | con name args =>
    rw [Term.rename, infer, infer]
    refine (renames_constructorType sig name).bind fun t =>
      (renames_instantiate hπ t).bind fun t => ?_
    rw [Ty.splitArrows_rename]
    dsimp only
    rw [List.length_map, Term.length_renameAll]
    split
    next => exact renames_throw_bind rfl
    next =>
      refine (renames_checkArgs hπ ctx args t.splitArrows.1).bind fun _ => ?_
      rw [← List.map_drop, ← Ty.rename_arrows]
      exact renames_resolve π _
  | case scrutinee branches =>
    rw [Term.rename, infer, infer, Term.isEmpty_renameBranches]
    split
    next => exact renames_throw_bind rfl
    next =>
      exact (renames_infer hπ ctx scrutinee).bind fun s =>
        renames_inferBranches hπ ctx s none branches
  | letIn name value body =>
    rw [Term.rename, infer, infer]
    exact (renames_infer hπ ctx value).bind fun v => renames_infer hπ (ctx.extend v) body
  | int value =>
    rw [Term.rename, infer, infer]
    exact renames_pure rfl
  | string text =>
    rw [Term.rename, infer, infer]
    exact renames_pure rfl
  | prim name =>
    rw [Term.rename, infer, infer]
    exact renames_primitiveType sig name
  | tool name args =>
    rw [Term.rename, infer, infer]
    exact (renames_inferArgs hπ ctx args).bind fun _ => renames_freshMeta hπ
termination_by 2 * t.size
decreasing_by all_goals simp only [Term.size]; omega

theorem renames_inferTypeFunction (hπ : π.KeepsMetas) (ctx : Context) (t : Term) :
    Renames π (Ty.rename π) (inferTypeFunction sig limit ctx t)
    (inferTypeFunction (sig.rename π) limit (ctx.rename π) (t.rename π)) := by
  have hinfer := renames_infer hπ ctx t
  rw [inferTypeFunction.eq_def, inferTypeFunction.eq_def]
  cases t with
  | con name args =>
    cases args with
    | nil => exact renames_constructorType sig name
    | cons arg args => exact hinfer
  | _ => exact hinfer
termination_by 2 * t.size + 1

theorem renames_check (hπ : π.KeepsMetas) (ctx : Context) (t : Term) (expected : Ty) : Renames π id
    (check sig limit ctx t expected)
    (check (sig.rename π) limit (ctx.rename π) (t.rename π) (expected.rename π)) := by
  have hinfer := renames_infer hπ ctx t
  rw [check.eq_def, check.eq_def]
  refine (renames_resolve π expected).bind fun expected => ?_
  have hother : Renames π id
      (do
        let actual ← infer sig limit ctx t
        expectType limit ctx expected actual)
      (do
        let actual ← infer (sig.rename π) limit (ctx.rename π) (t.rename π)
        expectType limit (ctx.rename π) (expected.rename π) actual) :=
    hinfer.bind fun actual => renames_expectType π limit ctx expected actual
  cases t with
  | lam type body =>
    cases type with
    | some declared =>
      cases expected with
      | arrow param result =>
        exact (renames_expectType π limit ctx param declared).bind fun _ =>
          renames_check hπ (ctx.extend declared) body result
      | _ => exact hother
    | none =>
      cases expected with
      | arrow param result => exact renames_check hπ (ctx.extend param) body result
      | _ => exact hother
  | tlam v body =>
    cases expected with
    | all w result =>
      have hbody := renames_check hπ (ctx.extendType v) body (underBinder v w result)
      rw [← underBinder_rename] at hbody
      exact hbody
    | _ => exact hother
  | _ => exact hother
termination_by 2 * t.size + 1
decreasing_by
  · omega
  · simp only [Term.size]; omega
  · simp only [Term.size]; omega
  · simp only [Term.size]; omega

theorem renames_checkArgs (hπ : π.KeepsMetas) (ctx : Context) (args : List Term)
    (fields : List Ty) : Renames π id (checkArgs sig limit ctx args fields)
      (checkArgs (sig.rename π) limit (ctx.rename π) (Term.renameAll π args)
        (fields.map (Ty.rename π))) := by
  rw [checkArgs.eq_def, checkArgs.eq_def]
  cases args with
  | nil => exact renames_pure rfl
  | cons arg args =>
    cases fields with
    | nil => exact renames_pure rfl
    | cons field fields =>
      exact (renames_check hπ ctx arg field).bind fun _ => renames_checkArgs hπ ctx args fields
termination_by 2 * Term.sizeArgs args
decreasing_by all_goals simp only [Term.sizeArgs]; omega

theorem renames_inferArgs (hπ : π.KeepsMetas) (ctx : Context) (args : List Term) : Renames π id
    (inferArgs sig limit ctx args)
    (inferArgs (sig.rename π) limit (ctx.rename π) (Term.renameAll π args)) := by
  rw [inferArgs.eq_def, inferArgs.eq_def]
  cases args with
  | nil => exact renames_pure rfl
  | cons arg args =>
    exact (renames_infer hπ ctx arg).bind fun _ => renames_inferArgs hπ ctx args
termination_by 2 * Term.sizeArgs args
decreasing_by all_goals simp only [Term.sizeArgs]; omega

theorem renames_inferBranches (hπ : π.KeepsMetas) (ctx : Context) (scrutinee : Ty)
    (previous : Option Ty) (branches : List Branch) : Renames π (Ty.rename π)
      (inferBranches sig limit ctx scrutinee previous branches)
      (inferBranches (sig.rename π) limit (ctx.rename π) (scrutinee.rename π)
        (previous.map (Ty.rename π)) (Term.renameBranches π branches)) := by
  rw [inferBranches.eq_def, inferBranches.eq_def]
  cases branches with
  | nil =>
    cases previous with
    | some t => exact renames_pure rfl
    | none => exact renames_throw rfl
  | cons branch branches =>
    obtain ⟨constructor, vars, body⟩ := branch
    exact (renames_enterBranch sig limit hπ ctx scrutinee constructor vars).bind fun inner =>
      (renames_infer hπ inner body).bind fun t =>
        (renames_joinBranch limit ctx previous t).bind fun joined =>
          renames_inferBranches hπ ctx scrutinee (some joined) branches
termination_by 2 * Term.sizeBranches branches
decreasing_by all_goals simp only [Term.sizeBranches]; omega

end

/-! ## Programs -/

theorem renames_checkBody (hπ : π.KeepsMetas) (d : Definition) (placeholder : Ty) :
    Renames π (Ty.rename π) (checkBody sig limit d placeholder)
      (checkBody (sig.rename π) limit (d.rename π) (placeholder.rename π)) := by
  rw [checkBody, checkBody, show (d.rename π).type = d.type.map _ from rfl]
  cases d.type with
  | some t =>
    exact (renames_check sig limit hπ .empty d.body t).bind fun _ => renames_pure rfl
  | none =>
    exact (renames_infer sig limit hπ .empty d.body).bind fun t =>
      (renames_expectType π limit .empty placeholder t).bind fun _ => renames_resolve π t

theorem renames_checkDefinition (hπ : π.KeepsMetas) (d : Definition) : Renames π (Ty.rename π)
    (checkDefinition sig limit d) (checkDefinition (sig.rename π) limit (d.rename π)) := by
  have hplaceholder : Renames π (Ty.rename π) (d.type.elim freshMeta pure)
      ((d.rename π).type.elim freshMeta pure) := by
    rw [show (d.rename π).type = d.type.map _ from rfl]
    cases d.type with
    | some t => exact renames_pure rfl
    | none => exact renames_freshMeta hπ
  rw [checkDefinition_eq_bind, checkDefinition_eq_bind]
  refine hplaceholder.bind fun placeholder => (renames_setGlobal π d.name placeholder).bind fun _ =>
    Renames.bind ?_ fun t => (renames_setGlobal π d.name t).bind fun _ => renames_pure rfl
  exact (renames_checkBody sig limit hπ d placeholder).tryCatch fun e => renames_throw rfl

theorem renames_checkDefinitions (hπ : π.KeepsMetas) (types : Table Ty) (ds : List Definition) :
    Renames π (Table.map (Ty.rename π)) (checkDefinitions sig limit types ds)
      (checkDefinitions (sig.rename π) limit (types.map (Ty.rename π))
        (ds.map (Definition.rename π))) := by
  induction ds generalizing types with
  | nil => exact renames_pure rfl
  | cons d ds ih =>
    refine (renames_checkDefinition sig limit hπ d).bind fun t => ?_
    have hrest := ih (types.insert d.name t)
    rw [Table.map_insert] at hrest
    exact hrest

theorem renames_checkProgram (hπ : π.KeepsMetas) (ds : List Definition) :
    Renames π (Table.map (Ty.rename π)) (checkProgram sig limit ds)
      (checkProgram (sig.rename π) limit (ds.map (Definition.rename π))) := by
  refine (renames_checkDefinitions sig limit hπ .empty ds).bind fun types =>
    (renames_get π).bind fun c => renames_pure ?_
  refine Table.ext fun name => ?_
  simp only [Table.get?_map, Option.map_map]
  exact congrArg (fun f => Option.map f _) (funext fun t => c.resolved_rename π t)

end

end Checker

/-- The check of a renamed module comes to the same end as that of the module, with new names. -/
theorem Module.check_rename {π : Renaming} (hπ : π.KeepsMetas) (m : Module) (limit : Nat) :
    ((m.rename π).check limit).outcome? =
      (m.check limit).outcome?.map (Checker.renameEnd π (Table.map (Ty.rename π))) := by
  have hrun := Checker.renames_checkProgram m.toSignature limit hπ m.definitions
    (.ofSignature m.toSignature)
  rw [← definitions_rename] at hrun
  refine (congrArg (Option.map Prod.fst) hrun).trans ?_
  rw [check, Limited.outcome?, ExceptT.run_mk, Option.map_map, Option.map_map]
  rfl

end PolyLambda
