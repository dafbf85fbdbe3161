import PolyLambda.Limited
import PolyLambda.Module
import PolyLambda.Typing.Context
import PolyLambda.Typing.Error

/-!
# Type checking

A bidirectional checker: `infer` finds the type of a term, `check` compares a term with a type that
is expected of it. What is not known yet is a variable of its own, a meta, and what is learned about
metas is collected in one substitution for the whole program. The type variables that the context
binds are rigid.

A definition may refer to itself: while its body is checked its name has a placeholder for a type,
which is its annotation or a meta. Since later definitions may still solve metas of earlier ones,
the types of a program are read off at the end.
-/

namespace PolyLambda

/-- What a checker has learned: the types of the globals, what the metas stand for, and how many
metas there are. -/
structure Checker where
  globals : Table Ty
  subst : Substitution
  nextMeta : Nat
  deriving DecidableEq, Inhabited

/-- A step of checking. -/
abbrev Check := LimitedState TypeError Checker

namespace Checker

/-- A checker that has not seen any definition yet. -/
def ofSignature (sig : Signature) : Checker :=
  ⟨sig.globalTypes, .empty, 0⟩

/-- The type `t` with all that is known about its metas filled in. -/
def resolved (c : Checker) (t : Ty) : Ty :=
  c.subst.apply t

/-- The type of a global, as far as it is known. -/
def globalType? (c : Checker) (name : String) : Option Ty :=
  (c.globals.get? name).map c.resolved

/-- The name of the meta with the given number. -/
def metaName (n : Nat) : String :=
  "_t" ++ toString n

/-! ## Metas -/

/-- A meta that nothing is known about. -/
def freshMeta : Check Ty :=
  modifyGet fun c => (.var (metaName c.nextMeta), { c with nextMeta := c.nextMeta + 1 })

/-- The type `t` with all that is known about its metas filled in. -/
def resolve (t : Ty) : Check Ty :=
  return (← get).resolved t

/-- The body of `t` with a fresh meta for each of its outermost quantifiers, at most `n` of them. -/
def instantiateWithin : Nat → Ty → Check Ty
  | n + 1, .all v body => do
    let m ← freshMeta
    instantiateWithin n (body.substitute v m)
  | _, t => return t

/-- The body of `t` with a fresh meta for each of its outermost quantifiers. -/
def instantiate (t : Ty) : Check Ty :=
  instantiateWithin t.splitAlls.1.length t

/-- The type of a global, which must have one. -/
def globalType (name : String) : Check Ty := do
  match (← get).globalType? name with
  | some t => return t
  | none => throw (.undefinedVariable name)

/-! ## Equations -/

section Unification

variable (limit : Nat) (ctx : Context)

/-- Learns that `left` and `right` are equal. -/
def unify (left right : Ty) : Check Unit := do
  let c ← get
  let step ← LimitedState.lift TypeError.ofUnify
    (Ty.unify ctx.hasTypeVar limit (c.resolved left) (c.resolved right))
  set { c with subst := step.compose c.subst }

/-- Learns that `actual` is the type `expected`. -/
def expectType (expected actual : Ty) : Check Unit :=
  tryCatch (unify limit ctx expected actual) fun
    | .unification _ _ => do throw (.mismatch (← resolve expected) (← resolve actual))
    | e => throw e

end Unification

/-! ## Terms -/

section Terms

variable (sig : Signature) (limit : Nat)

/-- The type of a constructor, for all values of its parameters. -/
def constructorType (name : String) : Check Ty :=
  match sig.constructorTypes.get? name with
  | some t => return t
  | none => throw (.undefinedConstructor name)

/-- The type of a primitive. -/
def primitiveType (name : String) : Check Ty :=
  match sig.primitiveTypes.get? name with
  | some t => return t
  | none => throw (.undefinedVariable name)

/-- The context of a branch for values of the type `scrutinee`. -/
def enterBranch (ctx : Context) (scrutinee : Ty) (constructor : String) (vars : List String) :
    Check Context := do
  let t ← instantiate (← constructorType sig constructor)
  let (fields, constructed) := t.splitArrows
  if fields.length ≠ vars.length then
    throw (.patternArity constructor vars.length fields.length)
  unify limit ctx constructed scrutinee
  let c ← get
  return ctx.extendAll (fields.map c.resolved)

/-- The type of a case term whose branches so far have the type `previous`, if there were any, and
whose next one has the type `t`. -/
def joinBranch (ctx : Context) (previous : Option Ty) (t : Ty) : Check Ty :=
  match previous with
  | none => return t
  | some p => do
    unify limit ctx p t
    resolve p

/-- The parameter and the result of a function of type `t`. A meta becomes a function type. -/
def asArrow (ctx : Context) (t : Ty) : Check (Ty × Ty) := do
  match t with
  | .arrow param result => return (param, result)
  | _ =>
    let param ← freshMeta
    let result ← freshMeta
    if (t.flexible? ctx.hasTypeVar).isSome then
      unify limit ctx t (.arrow param result)
      return (param, result)
    else
      throw (.mismatch (.arrow param result) t)

/-- The type that is expected of the body of `(tfn 'v ...)` where the whole is expected to be
`(forall 'w t)`. -/
def underBinder (v w : String) (t : Ty) : Ty :=
  if v = w then t else t.substitute w (.var v)

mutual

/-- The type of a term. -/
def infer (ctx : Context) (t : Term) : Check Ty := do
  match t with
  | .var index =>
    match ctx.type? index with
    | some t => resolve t
    | none => throw (.unboundIndex index)
  | .global name => globalType name
  | .lam (some param) body =>
    let result ← infer (ctx.extend param) body
    resolve (.arrow param result)
  | .lam none _ => throw .bareLambda
  | .app fn arg =>
    let f ← infer ctx fn
    let (param, result) ← asArrow limit ctx f
    check ctx arg param
    resolve result
  | .tlam v body =>
    let t ← infer (ctx.extendType v) body
    return .all v t
  | .tapp fn arg =>
    match ← inferTypeFunction ctx fn with
    | .all v body => return body.substitute v arg
    | other => throw (.notQuantified arg other)
  | .con name args =>
    let t ← instantiate (← constructorType sig name)
    let (fields, result) := t.splitArrows
    if fields.length < args.length then
      throw (.constructorArgs name fields.length args.length)
    checkArgs ctx args fields
    resolve (Ty.arrows (fields.drop args.length) result)
  | .case scrutinee branches =>
    if branches.isEmpty then
      throw .noBranches
    let s ← infer ctx scrutinee
    inferBranches ctx s none branches
  | .letIn _ value body =>
    let v ← infer ctx value
    infer (ctx.extend v) body
  | .int _ => return .int
  | .string _ => return .string
  | .prim name => primitiveType sig name
  | .tool _ args =>
    inferArgs ctx args
    freshMeta
termination_by 2 * t.size
decreasing_by all_goals simp only [Term.size]; omega

/-- The type of a term that is applied to a type. A constructor by itself keeps its quantifiers. -/
def inferTypeFunction (ctx : Context) (t : Term) : Check Ty := do
  match t with
  | .con name [] => constructorType sig name
  | t => infer ctx t
termination_by 2 * t.size + 1
decreasing_by omega

/-- Compares a term with the type that is expected of it. -/
def check (ctx : Context) (t : Term) (expected : Ty) : Check Unit := do
  match t, ← resolve expected with
  | .lam (some declared) body, .arrow param result =>
    expectType limit ctx param declared
    check (ctx.extend declared) body result
  | .lam none body, .arrow param result => check (ctx.extend param) body result
  | .tlam v body, .all w result => check (ctx.extendType v) body (underBinder v w result)
  | t, expected =>
    let actual ← infer ctx t
    expectType limit ctx expected actual
termination_by 2 * t.size + 1
decreasing_by
  · simp only [Term.size]; omega
  · simp only [Term.size]; omega
  · simp only [Term.size]; omega
  · omega

/-- Compares arguments with the types of the fields that they are given to. -/
def checkArgs (ctx : Context) (args : List Term) (fields : List Ty) : Check Unit := do
  match args, fields with
  | arg :: args, field :: fields =>
    check ctx arg field
    checkArgs ctx args fields
  | _, _ => return ()
termination_by 2 * Term.sizeArgs args
decreasing_by all_goals simp only [Term.sizeArgs]; omega

/-- Finds out that each of the arguments has a type. -/
def inferArgs (ctx : Context) (args : List Term) : Check Unit := do
  match args with
  | [] => return ()
  | arg :: args =>
    let _ ← infer ctx arg
    inferArgs ctx args
termination_by 2 * Term.sizeArgs args
decreasing_by all_goals simp only [Term.sizeArgs]; omega

/-- The type of the branches of a case term, where those before them have the type `previous`. -/
def inferBranches (ctx : Context) (scrutinee : Ty) (previous : Option Ty)
    (branches : List Branch) : Check Ty := do
  match branches with
  | [] =>
    match previous with
    | some t => return t
    | none => throw .noBranches
  | .mk constructor vars body :: branches =>
    let inner ← enterBranch sig limit ctx scrutinee constructor vars
    let t ← infer inner body
    let joined ← joinBranch limit ctx previous t
    inferBranches ctx scrutinee (some joined) branches
termination_by 2 * Term.sizeBranches branches
decreasing_by all_goals simp only [Term.sizeBranches]; omega

end

/-! ## Programs -/

/-- Enters the type of a global. -/
def setGlobal (name : String) (t : Ty) : Check Unit :=
  modify fun c => { c with globals := c.globals.insert name t }

/-- The type of a definition whose name has the type `placeholder` meanwhile. -/
def checkBody (d : Definition) (placeholder : Ty) : Check Ty := do
  match d.type with
  | some t =>
    check sig limit .empty d.body t
    return t
  | none =>
    let t ← infer sig limit .empty d.body
    expectType limit .empty placeholder t
    resolve t

/-- The type of a definition, by its annotation or as it is inferred. -/
def checkDefinition (d : Definition) : Check Ty := do
  let placeholder ←
    match d.type with
    | some t => pure t
    | none => freshMeta
  setGlobal d.name placeholder
  let t ← tryCatch (checkBody sig limit d placeholder) fun e => throw (.inDeclaration d.name e)
  setGlobal d.name t
  return t

theorem checkDefinition_eq_bind (d : Definition) :
    checkDefinition sig limit d = d.type.elim freshMeta pure >>= fun placeholder => do
      setGlobal d.name placeholder
      let t ← tryCatch (checkBody sig limit d placeholder) fun e => throw (.inDeclaration d.name e)
      setGlobal d.name t
      return t := by
  rw [checkDefinition]
  cases d.type <;> rfl

/-- The types of definitions by name, entered into `types` as each is found. -/
def checkDefinitions (types : Table Ty) : List Definition → Check (Table Ty)
  | [] => return types
  | d :: ds => do
    let t ← checkDefinition sig limit d
    checkDefinitions (types.insert d.name t) ds

/-- The types of the definitions of a program, with all that was learned filled in. A name that is
defined more than once has the type of its last definition. -/
def checkProgram (definitions : List Definition) : Check (Table Ty) := do
  let types ← checkDefinitions sig limit .empty definitions
  let c ← get
  return types.map c.resolved

end Terms

end Checker

/-- The types of the definitions of a module. -/
def Module.check (limit : Nat) (m : Module) : Limited TypeError (Table Ty) :=
  ExceptT.mk (((Checker.checkProgram m.toSignature limit m.definitions).outcome?
    (.ofSignature m.toSignature)).map Prod.fst)

/-- What the check of a module comes to, from what its definitions come to. -/
theorem Module.outcome?_check (m : Module) (limit : Nat) :
    (m.check limit).outcome? =
      ((Checker.checkDefinitions m.toSignature limit .empty m.definitions).outcome?
        (.ofSignature m.toSignature)).map fun r => r.1.map (Table.map r.2.resolved) := by
  rw [check, Limited.outcome?, ExceptT.run_mk, Checker.checkProgram, LimitedState.outcome?_bind]
  cases (Checker.checkDefinitions m.toSignature limit .empty m.definitions).outcome?
      (.ofSignature m.toSignature) with
  | none => rfl
  | some o =>
    obtain ⟨r, c⟩ := o
    cases r <;> rfl

end PolyLambda
