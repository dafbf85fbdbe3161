import PolyLambda.Module
import PolyLambda.Stateful
import PolyLambda.Surface.Basic
import PolyLambda.Surface.Operator

/-!
# Resolving names

Surface types and expressions as types and terms of the core language. A name in an expression is
its innermost local binder, else a global, else a primitive, else a constructor. The fields of a
pattern are bound in order, the first one innermost, so that the leftmost of two variables with one
name is the one that is meant.

The names that are bound around a place are kept in lists, which a binder is put on when its body is
entered and taken off again when the body is left, with an error or without.
-/

namespace PolyLambda

/-! ## Types -/

namespace Signature

/-- The type that `name` stands for with the arguments `args`. Primitive types go before data
types. -/
def resolveType (sig : Signature) (span : Span) (name : String) (args : List Ty) :
    Except ScopeError Ty :=
  if sig.primitiveTypeNames.contains name then
    if args.isEmpty then .ok (.prim name) else .error ⟨span, .primitiveTypeArgs name⟩
  else
    match sig.dataTypes.get? name with
    | some d =>
      if d.params.length = args.length then .ok (.data name args)
      else .error ⟨span, .typeArity name d.params.length args.length⟩
    | none => .error ⟨span, .undefinedTypeVariable name⟩

end Signature

namespace Surface

mutual

/-- The type that is meant, with the bound type variables as the state. -/
def TypeExpr.elaborate (sig : Signature) : TypeExpr → Stateful (List String) Ty
  | .var span name => do
    let vars ← get
    if name ∈ vars then return .var name else throw ⟨span, .undefinedTypeVariable name⟩
  | .named span name => liftM (sig.resolveType span name [])
  | .arrow _ param result => do
    let p ← param.elaborate sig
    let r ← result.elaborate sig
    return .arrow p r
  | .all _ v body => do
    let b ← Stateful.between (v :: ·) List.tail (body.elaborate sig)
    return .all v b
  | .applied span name args => do
    let ts ← TypeExpr.elaborateAll sig args
    liftM (sig.resolveType span name ts)

def TypeExpr.elaborateAll (sig : Signature) : List TypeExpr → Stateful (List String) (List Ty)
  | [] => return []
  | type :: types => do
    let t ← type.elaborate sig
    let ts ← TypeExpr.elaborateAll sig types
    return t :: ts

end

/-- The type that is meant where the type variables `vars` are bound. -/
def TypeExpr.resolve (sig : Signature) (vars : List String) (type : TypeExpr) :
    Except ScopeError Ty :=
  ((type.elaborate sig).outcome vars).1

def TypeExpr.resolveAll (sig : Signature) (vars : List String) (types : List TypeExpr) :
    Except ScopeError (List Ty) :=
  ((TypeExpr.elaborateAll sig types).outcome vars).1

end Surface

/-! ## Terms -/

/-- The names that may be used at a place in the program. -/
structure Scope where
  sig : Signature
  globals : List String
  typeVars : List String
  /-- The local names, innermost first. -/
  locals : List String
  deriving Inhabited

namespace Scope

/-- The scope inside binders of `names`, of which the first is the innermost. -/
def bind (scope : Scope) (names : List String) : Scope :=
  { scope with locals := names ++ scope.locals }

/-- The scope outside binders of `count` names. -/
def unbind (scope : Scope) (count : Nat) : Scope :=
  { scope with locals := scope.locals.drop count }

/-- The scope inside a binder of a type variable. -/
def bindType (scope : Scope) (v : String) : Scope :=
  { scope with typeVars := v :: scope.typeVars }

/-- The scope outside a binder of a type variable. -/
def unbindType (scope : Scope) : Scope :=
  { scope with typeVars := scope.typeVars.tail }

/-- What `name` stands for. -/
def resolveName (scope : Scope) (span : Span) (name : String) : Except ScopeError Term :=
  match scope.locals.idxOf? name with
  | some index => .ok (.var index)
  | none =>
    if name ∈ scope.globals then .ok (.global name)
    else if scope.sig.primitiveTypes.contains name then .ok (.prim name)
    else if scope.sig.constructorTypes.contains name then .ok (.con name [])
    else .error ⟨span, .undefinedVariable name⟩

/-- The primitive of an operator on `count` operands. -/
def resolveOperator (scope : Scope) (span : Span) (operator : String) (count : Nat) :
    Except ScopeError Term :=
  match Surface.Operator.primitive? operator count with
  | none => .error ⟨span, .operandCount operator count⟩
  | some primitive =>
    if scope.sig.primitiveTypes.contains primitive then .ok (.prim primitive)
    else .error ⟨span, .undefinedVariable primitive⟩

/-- A pattern must name a constructor and bind each of its fields. -/
def checkPattern (scope : Scope) (p : Surface.Pattern) : Except ScopeError Unit :=
  match scope.sig.constructorArity? p.constructor with
  | none => .error ⟨p.span, .undefinedConstructor p.constructor⟩
  | some arity =>
    if arity = p.vars.length then .ok ()
    else .error ⟨p.span, .patternArity p.constructor p.vars.length arity⟩

/-- The scope with other type variables. -/
def withTypeVars (vars : List String) (scope : Scope) : Scope :=
  { scope with typeVars := vars }

/-- A step on the type variables that are bound. -/
def onTypeVars {α : Type} (step : Signature → Stateful (List String) α) : Stateful Scope α := do
  let scope ← get
  Stateful.onPart Scope.typeVars withTypeVars (step scope.sig)

/-- A step with names bound. -/
def binding {α : Type} (names : List String) (step : Stateful Scope α) : Stateful Scope α :=
  .between (·.bind names) (·.unbind names.length) step

/-- A step with a type variable bound. -/
def bindingType {α : Type} (v : String) (step : Stateful Scope α) : Stateful Scope α :=
  .between (·.bindType v) unbindType step

end Scope

namespace Surface

open Scope (onTypeVars binding bindingType)

mutual

/-- The term that is meant, with the scope as the state. A type annotation is the application of an
annotated identity, an operator the application of its primitive to one operand after the other. -/
def Expr.elaborate : Expr → Stateful Scope Term
  | .var span name => do
    let scope ← get
    liftM (scope.resolveName span name)
  | .lam _ param none _ body => do
    let b ← binding [param] body.elaborate
    return .lam none b
  | .lam _ param (some type) _ body => do
    let t ← onTypeVars type.elaborate
    let b ← binding [param] body.elaborate
    return .lam (some t) b
  | .app _ fn arg => do
    let f ← fn.elaborate
    let a ← arg.elaborate
    return .app f a
  | .tlam _ v body => do
    let b ← bindingType v body.elaborate
    return .tlam v b
  | .tapp _ fn type => do
    let f ← fn.elaborate
    let t ← onTypeVars type.elaborate
    return .tapp f t
  | .letIn _ name value body => do
    let v ← value.elaborate
    let b ← binding [name] body.elaborate
    return .letIn name v b
  | .ann _ type expr => do
    let t ← onTypeVars type.elaborate
    let e ← expr.elaborate
    return .app (.lam (some t) (.var 0)) e
  | .con span name args => do
    let scope ← get
    if scope.sig.constructorTypes.contains name then
      let as ← Expr.elaborateAll args
      return .con name as
    else throw ⟨span, .undefinedConstructor name⟩
  | .case _ scrutinee branches => do
    let s ← scrutinee.elaborate
    let bs ← Expr.elaborateBranches branches
    return .case s bs
  | .tool _ name args => do
    let as ← Expr.elaborateAll args
    return .tool name as
  | .int _ value => return .int value
  | .string _ text => return .string text
  | .op span operator args => do
    let scope ← get
    let primitive ← liftM (scope.resolveOperator span operator args.length)
    let as ← Expr.elaborateAll args
    return as.foldl .app primitive

def Expr.elaborateAll : List Expr → Stateful Scope (List Term)
  | [] => return []
  | arg :: args => do
    let a ← arg.elaborate
    let as ← Expr.elaborateAll args
    return a :: as

def Expr.elaborateBranches : List Branch → Stateful Scope (List PolyLambda.Branch)
  | [] => return []
  | .mk _ pattern body :: branches => do
    let scope ← get
    let _ ← liftM (scope.checkPattern pattern)
    let b ← binding pattern.vars body.elaborate
    let bs ← Expr.elaborateBranches branches
    return .mk pattern.constructor pattern.vars b :: bs

end

/-- The term that is meant in the given scope. -/
def Expr.resolve (scope : Scope) (e : Expr) : Except ScopeError Term :=
  (e.elaborate.outcome scope).1

def Expr.resolveAll (scope : Scope) (es : List Expr) : Except ScopeError (List Term) :=
  ((Expr.elaborateAll es).outcome scope).1

def Expr.resolveBranches (scope : Scope) (branches : List Branch) :
    Except ScopeError (List PolyLambda.Branch) :=
  ((Expr.elaborateBranches branches).outcome scope).1

end Surface

end PolyLambda
