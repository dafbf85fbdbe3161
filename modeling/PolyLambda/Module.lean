import PolyLambda.ScopeError
import PolyLambda.Term

/-!
# Modules

A module is a sequence of declarations whose names are resolved, together with the tables in which
the names of the program are looked up.
-/

namespace PolyLambda

/-- A constructor of a data type, by the types of its fields. -/
structure ConstructorDecl where
  name : String
  fields : List Ty
  deriving DecidableEq, Inhabited

structure DataDecl where
  name : String
  params : List String
  constructors : List ConstructorDecl
  deriving DecidableEq, Inhabited

namespace DataDecl

/-- The data type applied to its own parameters. -/
def result (d : DataDecl) : Ty :=
  .data d.name (d.params.map .var)

/-- The type of a constructor of `d`: a function from the fields, for all values of the
parameters. -/
def constructorType (d : DataDecl) (c : ConstructorDecl) : Ty :=
  Ty.alls d.params (Ty.arrows c.fields d.result)

/-- Whether no constructor has a field, so that a value is nothing but its constructor. -/
def isEnumeration (d : DataDecl) : Bool :=
  d.constructors.all fun c => c.fields.isEmpty

/-- Whether `name` is a constructor of `d`. -/
def lists (d : DataDecl) (name : String) : Bool :=
  d.constructors.any fun c => c.name = name

theorem isEnumeration_iff {d : DataDecl} :
    d.isEnumeration = true ↔ ∀ c ∈ d.constructors, c.fields = [] := by
  simp only [isEnumeration, List.all_eq_true, List.isEmpty_iff]

theorem lists_iff {d : DataDecl} {name : String} :
    d.lists name = true ↔ ∃ c ∈ d.constructors, c.name = name := by
  simp only [lists, List.any_eq_true, decide_eq_true_eq]

end DataDecl

/-- A definition. The documentation of parameters is that of the leading lambdas of its source. -/
structure Definition where
  span : Span
  name : String
  type : Option Ty
  body : Term
  pragmas : Table String
  doc : Option String
  paramDocs : List (String × String)
  deriving Inhabited

/-- What is known of a function that a language model is to compute. -/
structure LlmFunction where
  name : String
  doc : Option String
  paramDocs : List (String × String)
  model : Option String
  temperature : Option Float
  param : Ty
  result : Ty
  deriving Inhabited

/-- The primitive that computes the model function `name`. -/
def llmPrimitive (name : String) : String :=
  "llm." ++ name

/-- The primitive that stands in the place of the function's body. -/
def LlmFunction.primitive (f : LlmFunction) : String :=
  llmPrimitive f.name

inductive Declaration where
  | data (decl : DataDecl)
  | definition (decl : Definition)
  | primType (name : String)
  | primOp (name : String) (type : Ty)
  deriving Inhabited

/-- The names of a program and what they stand for. -/
structure Signature where
  dataTypes : Table DataDecl
  constructorTypes : Table Ty
  /-- The types of the definitions that have one before they are checked. -/
  globalTypes : Table Ty
  primitiveTypes : Table Ty
  primitiveTypeNames : Table Unit
  llmFunctions : Table LlmFunction
  deriving Inhabited

namespace Signature

/-- The number of fields of a constructor. -/
def constructorArity? (sig : Signature) (name : String) : Option Nat :=
  (sig.constructorTypes.get? name).map fun t => t.splitAlls.2.splitArrows.1.length

/-- The data types that list the constructor `name`, in the order of their names. -/
def ownersOf (sig : Signature) (name : String) : List DataDecl :=
  sig.dataTypes.values.filter fun d => d.lists name

end Signature

/-- A program: the declarations that have a meaning, the tables they make up, and what was found
wrong or odd on the way. -/
structure Module extends Signature where
  declarations : List Declaration
  errors : List ScopeError
  warnings : List Warning
  deriving Inhabited

/-- The definition that a declaration is. -/
def Declaration.definition? : Declaration → Option Definition
  | .definition d => some d
  | _ => none

namespace Module

def hasErrors (m : Module) : Bool :=
  !m.errors.isEmpty

/-- The definitions of a module in order. -/
def definitions (m : Module) : List Definition :=
  m.declarations.filterMap Declaration.definition?

/-- The first definition of a name. -/
def definition? (m : Module) (name : String) : Option Definition :=
  m.definitions.find? fun d => d.name = name

end Module

end PolyLambda
