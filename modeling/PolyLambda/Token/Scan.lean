import PolyLambda.Text.Blank
import PolyLambda.Text.Decimal
import PolyLambda.Token

/-!
# From text to tokens

`scan` reads one piece off a text: a run of white space or a comment, a token, or text that is no
token. A piece always has at least one character, so `pieces` cuts the whole text into pieces that
lie end to end, and `lex` keeps the tokens and the spans of the bad pieces.

The longest token wins, and of two readings of the same length a number wins over a name: `-7` is a
number, `-7.` and `-7a` are names. A string or a pragma that does not end is one bad piece, as far
as it was well formed, and reading goes on right behind it.
-/

namespace PolyLambda.Token

/-! ## Classes of characters -/

/-- A letter of the Latin alphabet or an underscore. -/
def isNameStart (c : Char) : Bool :=
  c.isAlpha || c = '_'

def isNameChar (c : Char) : Bool :=
  isNameStart c || c.isDigit

/-- The characters a symbol may begin with. -/
def isSymbolStart (c : Char) : Bool :=
  isNameStart c || c ∈ ['$', '+', '-', '*', '/', '<', '>', '=', '!', '&', '|', '^', '~']

def isSymbolChar (c : Char) : Bool :=
  isSymbolStart c || c.isDigit || c = '.' || c = '?'

/-! ## Pieces -/

/-- What a piece of text is. -/
inductive Piece where
  /-- White space or a comment. -/
  | blank
  | token (token : Token)
  /-- Text that begins no token, or a token that does not end. -/
  | bad
  deriving DecidableEq, Inhabited

/-- The piece of a token that may turn out not to exist. -/
def Piece.ofToken? : Option Token → Piece
  | some t => .token t
  | none => .bad

/-- A number from its digits and sign, if it fits into 64 bits. -/
def intPiece (cs : List Char) : Piece :=
  Piece.ofToken? ((Text.readInt64? cs).map Token.int)

/-! ## String literals -/

/-- What a backslash before `c` denotes. Before a character without a meaning of its own it stands
for itself. -/
def unescape (c : Char) : List Char :=
  if c = 'n' then ['\n']
  else if c = 't' then ['\t']
  else if c = 'r' then ['\r']
  else if c = '\\' then ['\\']
  else if c = '"' then ['"']
  else ['\\', c]

/-- What follows an opening quote: the text denoted so far, the number of characters that spell it,
and whether a closing quote comes next. -/
structure StringBody where
  text : List Char
  width : Nat
  closed : Bool
  deriving DecidableEq, Inhabited

/-- An item of `width` characters denoting `cs` in front of a body. -/
def StringBody.cons (cs : List Char) (width : Nat) (body : StringBody) : StringBody :=
  ⟨cs ++ body.text, width + body.width, body.closed⟩

/-- The items after an opening quote. An item is a character other than the quote and the
backslash, or a backslash and any character that does not end the line. -/
def stringBody : List Char → StringBody
  | [] => ⟨[], 0, false⟩
  | ['\\'] => ⟨[], 0, false⟩
  | '\\' :: c :: rest =>
    if c = '\n' then ⟨[], 0, false⟩ else (stringBody rest).cons (unescape c) 2
  | c :: rest =>
    if c = '"' then ⟨[], 0, true⟩ else (stringBody rest).cons [c] 1

/-! ## Scanning -/

/-- The string whose opening quote stands before `cs`, and how many characters of `cs` it takes. -/
def scanString (cs : List Char) : Piece × Nat :=
  let body := stringBody cs
  if body.closed then (.token (.string (String.ofList body.text)), body.width + 1)
  else (.bad, body.width)

/-- The pragma whose opening brace stands before `cs`. Its text holds no `#` and is shown without
the blanks around it. -/
def scanPragma : List Char → Piece × Nat
  | '-' :: '#' :: rest =>
    let text := rest.takeWhile (· ≠ '#')
    match rest.dropWhile (· ≠ '#') with
    | '#' :: '-' :: '\x7d' :: _ =>
      (.token (.pragma (String.ofList (Text.trimmed text))), 2 + text.length + 3)
    | _ => (.bad, 2 + text.length)
  | _ => (.bad, 0)

/-- The type variable whose apostrophe stands before `cs`. -/
def scanTypeVar : List Char → Piece × Nat
  | c :: rest =>
    if isNameStart c then
      let tail := rest.takeWhile isNameChar
      (.token (.typeVar (String.ofList (c :: tail))), 1 + tail.length)
    else (.bad, 0)
  | [] => (.bad, 0)

/-- The symbol that begins with `c`, or the negative number: a minus whose symbol would be nothing
but digits. -/
def scanSymbol (c : Char) (cs : List Char) : Piece × Nat :=
  let tail := cs.takeWhile isSymbolChar
  if c = '-' ∧ tail ≠ [] ∧ tail.all Char.isDigit then (intPiece (c :: tail), tail.length)
  else (.token (.symbol (String.ofList (c :: tail))), tail.length)

/-- The first piece of the text `c :: cs`, and how many characters of `cs` belong to it. -/
def scan (c : Char) (cs : List Char) : Piece × Nat :=
  if c.isWhitespace then (.blank, (cs.takeWhile Char.isWhitespace).length)
  else if c = ';' then (.blank, (cs.takeWhile (· ≠ '\n')).length)
  else if c = '(' then (.token .openParen, 0)
  else if c = ')' then (.token .closeParen, 0)
  else if c = ':' then (.token .colon, 0)
  else if c = '@' then (.token .atSign, 0)
  else if c = '"' then scanString cs
  else if c = '\x7b' then scanPragma cs
  else if c = '\'' then scanTypeVar cs
  else if c.isDigit then
    let tail := cs.takeWhile Char.isDigit
    (intPiece (c :: tail), tail.length)
  else if isSymbolStart c then scanSymbol c cs
  else (.bad, 0)

/-- The number of bytes of a text. -/
def byteWidth : List Char → Nat
  | [] => 0
  | c :: cs => c.utf8Size + byteWidth cs

/-- The pieces of `cs` in order, where `cs` begins at the byte `offset` of the source. -/
def piecesFrom (offset : Nat) : List Char → List (Placed Piece)
  | [] => []
  | c :: cs =>
    let (piece, n) := scan c cs
    let stop := offset + byteWidth (c :: cs.take n)
    ⟨⟨offset, stop⟩, piece⟩ :: piecesFrom stop (cs.drop n)
termination_by cs => cs.length
decreasing_by simp only [List.length_drop, List.length_cons]; omega

/-- The pieces of a source text. -/
def pieces (source : String) : List (Placed Piece) :=
  piecesFrom 0 source.toList

/-- The token that a piece holds, in its place. -/
def keepToken (piece : Placed Piece) : Option (Placed Token) :=
  match piece.val with
  | .token t => some ⟨piece.extent, t⟩
  | _ => none

/-- The place of a bad piece. -/
def keepError (piece : Placed Piece) : Option Extent :=
  match piece.val with
  | .bad => some piece.extent
  | _ => none

/-- A source text as tokens, with the spans of what is not a token. -/
structure Lexed where
  tokens : List (Located Token)
  errors : List Span
  deriving DecidableEq, Inhabited

/-- The tokens and errors among pieces, each in order. -/
def Lexed.ofPieces (pieces : List (Placed Piece)) : Lexed :=
  ⟨(pieces.filterMap keepToken).map Placed.located, (pieces.filterMap keepError).map Extent.span⟩

/-- The tokens of a source text and the spans of its lexical errors, each in order. -/
def lex (source : String) : Lexed :=
  .ofPieces (pieces source)

end PolyLambda.Token
