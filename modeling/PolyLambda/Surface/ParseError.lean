import PolyLambda.Token

/-!
# Syntax errors

What can be wrong with a sequence of tokens, and how it is reported.
-/

namespace PolyLambda.Surface

/-- Why a source text is no sequence of declarations. `found` is the token at the place of the
error, if there is one. -/
inductive ParseError.Cause where
  /-- Text that is no token. -/
  | badText
  | expected (token : Token) (found : Option Token)
  | expectedSymbol (found : Option Token)
  | expectedTypeVar (found : Option Token)
  | expectedType (found : Option Token)
  /-- A token that begins no expression. -/
  | unexpected (found : Token)
  | emptyParens
  | noParams
  | noTypeParams
  | shortArrow
  /-- A pattern inside a pattern, begun by the constructor `name`. -/
  | nestedPattern (name : String)
  | operandCount (operator : String) (count : Nat)
  | declarationStart
  | declarationKeyword (found : Option Token)
  | declarationEnd
  deriving DecidableEq, Inhabited

structure ParseError where
  span : Span
  cause : ParseError.Cause
  deriving DecidableEq, Inhabited

namespace ParseError

def Cause.message : Cause → String
  | badText => "unexpected character"
  | expected token found =>
    "expected " ++ token.describe ++ ", found " ++ Token.describeFound found
  | expectedSymbol found => "expected symbol, found " ++ Token.describeFound found
  | expectedTypeVar found => "expected type variable ('a), found " ++ Token.describeFound found
  | expectedType found => "expected type, found " ++ Token.describeFound found
  | unexpected found => "unexpected token " ++ Token.describeFound (some found)
  | emptyParens => "empty parentheses"
  | noParams => "fn requires at least one parameter"
  | noTypeParams => "tfn requires at least one type parameter"
  | shortArrow => "-> needs a parameter and a result type"
  | nestedPattern name => "nested pattern " ++ name ++ " is not supported; bind a variable"
  | operandCount operator count =>
    "operator " ++ operator ++ " cannot take " ++ toString count ++ " operands"
  | declarationStart => "expected '(' to start a declaration"
  | declarationKeyword found =>
    "expected declaration (def, data, prim-type, prim-op), found " ++ Token.describeFound found
  | declarationEnd => "expected ')' to close declaration"

def message (e : ParseError) : String := e.cause.message

/-- The error with its place in front. -/
def render (e : ParseError) : String :=
  toString e.span.start ++ ":" ++ toString e.span.stop ++ ": " ++ e.message

end ParseError

end PolyLambda.Surface
