import PolyLambda.Span
import PolyLambda.Ty.Basic

/-!
# Errors and warnings about names

What can be wrong, or merely odd, about the names of a program. A declaration with an error has no
meaning and is left out; a warning changes nothing.
-/

namespace PolyLambda

/-- Why a declaration has no meaning. -/
inductive ScopeError.Cause where
  | undefinedVariable (name : String)
  | undefinedTypeVariable (name : String)
  | undefinedConstructor (name : String)
  | operandCount (operator : String) (count : Nat)
  | patternArity (constructor : String) (vars fields : Nat)
  | primitiveTypeArgs (name : String)
  | typeArity (name : String) (expected found : Nat)
  | llmWithoutLambda (name : String)
  | llmWithoutType (name : String)
  | llmNotFunction (name : String) (type : Ty)
  | llmTemperature (text name : String)
  deriving DecidableEq, Inhabited

structure ScopeError where
  span : Span
  cause : ScopeError.Cause
  deriving DecidableEq, Inhabited

def ScopeError.Cause.message : ScopeError.Cause → String
  | undefinedVariable name => "undefined variable: " ++ name
  | undefinedTypeVariable name => "undefined type variable: " ++ name
  | undefinedConstructor name => "undefined constructor: " ++ name
  | operandCount operator count =>
    "operator " ++ operator ++ " cannot take " ++ toString count ++ " operands"
  | patternArity constructor vars fields =>
    "pattern " ++ constructor ++ " binds " ++ toString vars
      ++ " variables but the constructor has " ++ toString fields ++ " fields"
  | primitiveTypeArgs name => "primitive type " ++ name ++ " takes no arguments"
  | typeArity name expected found =>
    "type " ++ name ++ " expects " ++ toString expected ++ " arguments, got " ++ toString found
  | llmWithoutLambda name => "LLM pragma on " ++ name ++ " requires a lambda body"
  | llmWithoutType name =>
    "LLM function " ++ name ++ " needs a type annotation or an annotated parameter"
  | llmNotFunction name type =>
    "LLM function " ++ name ++ " must have a function type, not " ++ type.render
  | llmTemperature text name => "invalid temperature '" ++ text ++ "' in LLM pragma of " ++ name

def ScopeError.message (e : ScopeError) : String := e.cause.message

/-- What is odd about a program without being wrong. -/
inductive Warning where
  | primitiveTypeRedeclared (name : String)
  | dataTypeRedeclared (name : String)
  | constructorShadowed (constructor dataType owner : String)
  | primitiveRedeclared (name : String)
  | redeclared (name : String)
  | unknownPragma (key name : String)
  | unknownLlmSetting (setting name : String)
  deriving DecidableEq, Inhabited

def Warning.message : Warning → String
  | primitiveTypeRedeclared name => "primitive type " ++ name ++ " declared twice"
  | dataTypeRedeclared name => "data type " ++ name ++ " redeclared"
  | constructorShadowed constructor dataType owner =>
    "constructor " ++ constructor ++ " of " ++ dataType ++ " shadows the one declared by " ++ owner
  | primitiveRedeclared name => "primitive " ++ name ++ " redeclared"
  | redeclared name => name ++ " redeclared"
  | unknownPragma key name => "unknown pragma " ++ key ++ " on " ++ name ++ " ignored"
  | unknownLlmSetting setting name =>
    "unknown LLM setting '" ++ setting ++ "' on " ++ name ++ " ignored"

end PolyLambda
