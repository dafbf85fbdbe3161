import PolyLambda.Module

/-!
# What every program starts with

The types of integers, strings and truth values, and the primitive operations on them.
-/

namespace PolyLambda.Prelude

/-- The type of truth values. -/
def boolDecl : DataDecl :=
  ⟨"Bool", [], [⟨"True", []⟩, ⟨"False", []⟩]⟩

/-- A function of two integers. -/
def binary (result : Ty) : Ty :=
  Ty.arrows [.int, .int] result

def primitives : List (String × Ty) :=
  [("$prim.int_plus", binary .int),
   ("$prim.int_minus", binary .int),
   ("$prim.int_multiply", binary .int),
   ("$prim.int_divide", binary .int),
   ("$prim.int_negate", .arrow .int .int),
   ("$prim.int_eq", binary .bool),
   ("$prim.int_lt", binary .bool),
   ("$prim.int_gt", binary .bool),
   ("$prim.string_concat", Ty.arrows [.string, .string] .string),
   ("$prim.string_length", .arrow .string .int)]

/-- The names of a program without declarations. -/
def signature : Signature where
  dataTypes := Table.empty.insert boolDecl.name boolDecl
  constructorTypes :=
    Table.ofList (boolDecl.constructors.map fun c => (c.name, boolDecl.constructorType c))
  globalTypes := .empty
  primitiveTypes := Table.ofList primitives
  primitiveTypeNames := Table.ofList [("Int", ()), ("String", ())]
  llmFunctions := .empty

/-- A program without declarations. -/
def emptyModule : Module where
  toSignature := signature
  declarations := []
  errors := []
  warnings := []

end PolyLambda.Prelude
