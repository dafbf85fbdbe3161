import PolyLambda.Surface.ParseError

/-!
# Parsers

A parser reads tokens from the front of its input. When it succeeds it has nothing to complain
about; when it fails it stops where it got stuck, with the errors met on the way. It may fail
without an error of its own at the end of the input, because whoever opened a parenthesis complains
that it is not closed.

Where a failed parser stops matters: a form that failed inside parentheses still looks for its
closing parenthesis (`closing`), and a failed declaration skips the rest of what it opened.
-/

namespace PolyLambda.Surface

/-- The tokens not read yet, and the place of the last token that was. -/
structure Input where
  prev : Span
  rest : List (Located Token)
  deriving DecidableEq, Inhabited

namespace Input

/-- The place of the next token, or the end of the last one. -/
def here (s : Input) : Span :=
  match s.rest with
  | [] => s.prev.after
  | t :: _ => t.span

/-- The next token. -/
def next? (s : Input) : Option Token :=
  s.rest.head?.map Located.val

/-- The input behind the next token. -/
def tail (s : Input) : Input :=
  match s.rest with
  | [] => s
  | t :: rest => ⟨t.span, rest⟩

end Input

/-- Reads an `α` from the front of the input. -/
abbrev Parser := EStateM (List ParseError) Input

namespace Parser

variable {α β : Type}

/-- The place of the next token. -/
def here : Parser Span := return (← get).here

/-- The place of the token before. -/
def previous : Parser Span := return (← get).prev

/-- The next token, which stays in the input. -/
def peek : Parser (Option Token) := return (← get).next?

/-- Passes over the next token. -/
def advance : Parser Unit := modify Input.tail

/-- Gives up with one error. -/
def fail (span : Span) (cause : ParseError.Cause) : Parser α :=
  throw [⟨span, cause⟩]

/-- Whether `token` comes next; if so it is read. -/
def accept (token : Token) : Parser Bool := do
  if (← peek) = some token then
    advance
    return true
  else
    return false

/-- Reads `token`; the result is its place. -/
def expect (token : Token) : Parser Span := do
  let span ← here
  let found ← peek
  if found = some token then
    advance
    return span
  else
    fail span (.expected token found)

/-- Reads a name or an operator. -/
def symbol : Parser (Located String) := do
  let span ← here
  match ← peek with
  | some (.symbol name) =>
    advance
    return ⟨span, name⟩
  | found => fail span (.expectedSymbol found)

/-- Reads a type variable. -/
def typeVar : Parser String := do
  let span ← here
  match ← peek with
  | some (.typeVar name) =>
    advance
    return name
  | found => fail span (.expectedTypeVar found)

/-- Reads a string if one comes next. -/
def string? : Parser (Option String) := do
  match ← peek with
  | some (.string text) =>
    advance
    return some text
  | _ => return none

/-- Whether the enclosing parentheses have no further content: a closing parenthesis or the end of
the input comes next. -/
def atClose : Parser Bool := do
  match ← peek with
  | none | some .closeParen => return true
  | _ => return false

/-- Repeats `part` until `atClose`, at most `n` times. -/
def untilCloseWithin (part : Parser α) : Nat → Parser (List α)
  | 0 => return []
  | n + 1 => do
    if ← atClose then
      return []
    else
      let first ← part
      let others ← untilCloseWithin part n
      return first :: others

/-- Repeats `part` until `atClose`. As `part` reads at least one token whenever it succeeds, it is
never needed more often than there are tokens. -/
def untilClose (part : Parser α) : Parser (List α) := do
  untilCloseWithin part (← get).rest.length

/-- Reads `body` and a closing parenthesis, and returns the place of the latter. The parenthesis is
looked for, and read, even if `body` fails. -/
def closing (body : Parser α) : Parser (α × Span) := fun s =>
  match body s with
  | .ok a s' => (return (a, ← expect .closeParen)) s'
  | .error errors s' =>
    match expect .closeParen s' with
    | .ok _ s'' => .error errors s''
    | .error more s'' => .error (errors ++ more) s''

/-- Reads `part` in parentheses, where a failure of `part` is final. -/
def enclosed (part : Parser α) : Parser α := do
  let _ ← expect .openParen
  let a ← part
  let _ ← expect .closeParen
  return a

/-- Reads a type variable, or any number of them in parentheses. -/
def typeVars : Parser (List String) := do
  if (← peek) = some .openParen then
    enclosed (untilClose typeVar)
  else
    return [← typeVar]

end Parser

end PolyLambda.Surface
