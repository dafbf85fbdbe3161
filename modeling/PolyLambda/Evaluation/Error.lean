import PolyLambda.Value

/-!
# Errors of evaluation
-/

namespace PolyLambda

/-- Why an evaluation has no value. -/
inductive EvalError where
  | unboundVariable (index : Nat)
  | usedBeforeDefinition (name : String)
  | undefinedGlobal (name : String)
  | undefinedConstructor (name : String)
  | constructorArgs (name : String) (arity given : Nat)
  | notFunction (value : Value)
  | notTypeFunction (value : Value)
  | notData (value : Value)
  | noBranch (value : Value)
  | patternArity (constructor : String) (vars fields : Nat)
  | undefinedPrimitive (name : String)
  | noImplementation (name : String)
  | noLlmFunction (primitive : String)
  | missingArgument (primitive : String)
  | notInt (primitive : String) (value : Value)
  | notString (primitive : String) (value : Value)
  | divisionByZero
  /-- A primitive of the host failed. -/
  | primitiveFailed (message : String)
  | unknownTool (name : String)
  | toolFailed (name message : String)
  deriving Inhabited

namespace EvalError

def message : EvalError → String
  | unboundVariable index => "unbound variable #" ++ toString index
  | usedBeforeDefinition name => name ++ " is used before its definition is evaluated"
  | undefinedGlobal name => "undefined global: " ++ name
  | undefinedConstructor name => "undefined constructor: " ++ name
  | constructorArgs name arity given =>
    "constructor " ++ name ++ " expects " ++ toString arity ++ " arguments, got "
      ++ toString given
  | notFunction value => "cannot apply " ++ value.render
  | notTypeFunction value => "cannot apply a type argument to " ++ value.render
  | notData value => "cannot match on " ++ value.render
  | noBranch value => "no branch matches " ++ value.render
  | patternArity constructor vars fields =>
    "pattern " ++ constructor ++ " binds " ++ toString vars ++ " variables but the value has "
      ++ toString fields ++ " fields"
  | undefinedPrimitive name => "undefined primitive: " ++ name
  | noImplementation name => "primitive " ++ name ++ " has no implementation"
  | noLlmFunction primitive => "no LLM function registered for " ++ primitive
  | missingArgument primitive => primitive ++ " needs an argument"
  | notInt primitive value => primitive ++ " expects an Int, got " ++ value.render
  | notString primitive value => primitive ++ " expects a String, got " ++ value.render
  | divisionByZero => "division by zero"
  | primitiveFailed message => message
  | unknownTool name => "unknown tool: " ++ name
  | toolFailed name message => "tool " ++ name ++ " failed: " ++ message

end EvalError

end PolyLambda
