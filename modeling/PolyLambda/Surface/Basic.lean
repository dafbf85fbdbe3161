import PolyLambda.Span
import PolyLambda.Table

/-!
# Surface syntax

What a source text says before its names are resolved: types, expressions and declarations as trees
in which binders keep their names and every node knows its place in the source.
-/

namespace PolyLambda.Surface

/-! ## Types -/

inductive TypeExpr where
  /-- A type variable, without its apostrophe. -/
  | var (span : Span) (name : String)
  /-- A type by its name alone. -/
  | named (span : Span) (name : String)
  | arrow (span : Span) (param result : TypeExpr)
  | all (span : Span) (var : String) (body : TypeExpr)
  /-- A named type with at least one argument. -/
  | applied (span : Span) (name : String) (args : List TypeExpr)
  deriving Inhabited

def TypeExpr.span : TypeExpr → Span
  | var span _ | named span _ | arrow span _ _ | all span _ _ | applied span _ _ => span

/-! ## Expressions -/

/-- A constructor with one variable for each of its fields. -/
structure Pattern where
  span : Span
  constructor : String
  vars : List String
  deriving DecidableEq, Inhabited

mutual

inductive Expr where
  /-- A variable, a global or a primitive. -/
  | var (span : Span) (name : String)
  | lam (span : Span) (param : String) (type : Option TypeExpr) (doc : Option String) (body : Expr)
  | app (span : Span) (fn arg : Expr)
  | tlam (span : Span) (param : String) (body : Expr)
  | tapp (span : Span) (fn : Expr) (type : TypeExpr)
  | letIn (span : Span) (name : String) (value body : Expr)
  | ann (span : Span) (type : TypeExpr) (expr : Expr)
  | con (span : Span) (name : String) (args : List Expr)
  | case (span : Span) (scrutinee : Expr) (branches : List Branch)
  | tool (span : Span) (name : String) (args : List Expr)
  | int (span : Span) (value : Int64)
  | string (span : Span) (text : String)
  /-- An operator with its operands. -/
  | op (span : Span) (name : String) (args : List Expr)

/-- One alternative of a case expression. -/
inductive Branch where
  | mk (span : Span) (pattern : Pattern) (body : Expr)

end

instance : Inhabited Expr := ⟨.var .origin ""⟩

namespace Expr

def span : Expr → Span
  | var s _ | lam s _ _ _ _ | app s _ _ | tlam s _ _ | tapp s _ _ | letIn s _ _ _ | ann s _ _
  | con s _ _ | case s _ _ | tool s _ _ | int s _ | string s _ | op s _ _ => s

/-- The same expression at another place; only the outermost node moves. -/
def withSpan (s : Span) : Expr → Expr
  | var _ name => var s name
  | lam _ param type doc body => lam s param type doc body
  | app _ fn arg => app s fn arg
  | tlam _ param body => tlam s param body
  | tapp _ fn type => tapp s fn type
  | letIn _ name value body => letIn s name value body
  | ann _ type expr => ann s type expr
  | con _ name args => con s name args
  | case _ scrutinee branches => case s scrutinee branches
  | tool _ name args => tool s name args
  | int _ value => int s value
  | string _ text => string s text
  | op _ name args => op s name args

@[simp]
theorem span_withSpan (s : Span) (e : Expr) : (e.withSpan s).span = s := by
  cases e <;> rfl

/-- The documented parameters of the lambdas that the expression begins with. -/
def paramDocs : Expr → List (String × String)
  | lam _ param _ (some doc) body => (param, doc) :: body.paramDocs
  | lam _ _ _ none body => body.paramDocs
  | _ => []

end Expr

namespace Branch

def span : Branch → Span
  | mk span _ _ => span

def pattern : Branch → Pattern
  | mk _ pattern _ => pattern

def body : Branch → Expr
  | mk _ _ body => body

end Branch

/-! ## Declarations -/

/-- A constructor of a data type, by the types of its fields. -/
structure Constructor where
  span : Span
  name : String
  fields : List TypeExpr
  deriving Inhabited

structure DataDecl where
  span : Span
  name : String
  params : List String
  constructors : List Constructor
  deriving Inhabited

/-- A definition, with the text of each of its pragmas under the pragma's name. -/
structure Definition where
  span : Span
  name : String
  type : Option TypeExpr
  pragmas : Table String
  doc : Option String
  body : Expr
  deriving Inhabited

structure PrimTypeDecl where
  span : Span
  name : String
  deriving Inhabited

structure PrimOpDecl where
  span : Span
  name : String
  type : TypeExpr
  deriving Inhabited

inductive Declaration where
  | data (decl : DataDecl)
  | definition (decl : Definition)
  | primType (decl : PrimTypeDecl)
  | primOp (decl : PrimOpDecl)
  deriving Inhabited

namespace Declaration

def name : Declaration → String
  | data d => d.name
  | definition d => d.name
  | primType d => d.name
  | primOp d => d.name

def span : Declaration → Span
  | data d => d.span
  | definition d => d.span
  | primType d => d.span
  | primOp d => d.span

end Declaration

/-- The documented parameters of a definition. -/
def Definition.paramDocs (d : Definition) : List (String × String) :=
  d.body.paramDocs

end PolyLambda.Surface
