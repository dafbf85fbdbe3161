import PolyLambda.Ty.Unify

/-!
# Type errors
-/

namespace PolyLambda

/-- Why a term has no type. -/
inductive TypeError where
  /-- A local variable that the context does not have. -/
  | unboundIndex (index : Nat)
  /-- A global or a primitive without a type. -/
  | undefinedVariable (name : String)
  | undefinedConstructor (name : String)
  | mismatch (expected actual : Ty)
  | unification (left right : Ty)
  | occurs (v : String) (type : Ty)
  | bareLambda
  | notQuantified (arg type : Ty)
  | constructorArgs (name : String) (fields args : Nat)
  | noBranches
  | patternArity (constructor : String) (vars fields : Nat)
  | inDeclaration (name : String) (cause : TypeError)
  deriving DecidableEq, Inhabited

namespace TypeError

/-- An error of unification as an error of typing. -/
def ofUnify : UnifyError → TypeError
  | .mismatch left right => unification left right
  | .occurs v type => occurs v type

def message : TypeError → String
  | unboundIndex index => "undefined variable: #" ++ toString index
  | undefinedVariable name => "undefined variable: " ++ name
  | undefinedConstructor name => "undefined constructor: " ++ name
  | mismatch expected actual =>
    "type mismatch: expected " ++ expected.render ++ ", found " ++ actual.render
  | unification left right => "cannot unify " ++ left.render ++ " with " ++ right.render
  | occurs v type => "occurs check: '" ++ v ++ " occurs in " ++ type.render
  | bareLambda => "cannot infer the type of a lambda without a parameter annotation"
  | notQuantified arg type =>
    "cannot apply type argument " ++ arg.render ++ " to a term of type " ++ type.render
  | constructorArgs name fields args =>
    "constructor " ++ name ++ " takes " ++ toString fields ++ " arguments but "
      ++ toString args ++ " were given"
  | noBranches => "case expression has no branches"
  | patternArity constructor vars fields =>
    "pattern " ++ constructor ++ " binds " ++ toString vars
      ++ " variables but the constructor has " ++ toString fields ++ " fields"
  | inDeclaration name cause => "in " ++ name ++ ": " ++ cause.message

/-- The declaration that the error is attributed to. -/
def declaration? : TypeError → Option String
  | inDeclaration name _ => some name
  | _ => none

end TypeError

end PolyLambda
