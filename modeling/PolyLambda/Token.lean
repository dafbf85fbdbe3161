import PolyLambda.Span
import PolyLambda.Text.Decimal
import PolyLambda.Text.Quoted

/-!
# Tokens

The lexical units of the language, and the way messages name them.
-/

namespace PolyLambda

inductive Token where
  | openParen
  | closeParen
  | colon
  /-- The mark of a type argument, as in `(id @Int)`. -/
  | atSign
  /-- A pragma, by the text between its brackets. -/
  | pragma (text : String)
  | int (value : Int64)
  /-- A string literal, by the text it denotes. -/
  | string (text : String)
  /-- A type variable, without its apostrophe. -/
  | typeVar (name : String)
  /-- A name or an operator. -/
  | symbol (name : String)
  deriving DecidableEq, Inhabited

namespace Token

/-- How a message names the token. -/
def describe : Token → String
  | openParen => "LParen"
  | closeParen => "RParen"
  | colon => "Colon"
  | atSign => "At"
  | pragma text => "Pragma(" ++ Text.quote text ++ ")"
  | int value => "Int(" ++ Text.decimal value ++ ")"
  | string text => "String(" ++ Text.quote text ++ ")"
  | typeVar name => "TypeVar(" ++ Text.quote name ++ ")"
  | symbol name => "Symbol(" ++ Text.quote name ++ ")"

/-- How a message names the token that was found, if there was one. -/
def describeFound : Option Token → String
  | some token => "Some(" ++ token.describe ++ ")"
  | none => "None"

end Token

end PolyLambda
