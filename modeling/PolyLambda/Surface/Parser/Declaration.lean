import PolyLambda.Surface.Parser.Expr
import PolyLambda.Text.Blank
import PolyLambda.Token.Scan

/-!
# Reading declarations

A source text is a sequence of declarations. One that is malformed is left out, with its errors
recorded, and reading goes on behind the parenthesis that closes the place where it got stuck; so
no malformed declaration keeps the ones after it from being read.
-/

namespace PolyLambda.Surface

namespace Parser

/-- The name of a pragma and its text. -/
def splitPragma (text : String) : String × String :=
  let (key, rest) := Text.splitAtBlank text
  (key, Text.trim rest)

/-- What may stand between the type and the body of a definition. -/
structure Preamble where
  doc : Option String
  pragmas : Table String
  deriving DecidableEq, Inhabited

/-- Reads strings and pragmas in any order, later ones replacing earlier ones. A string right before
a closing parenthesis is not read, because it is the body. -/
def preambleFrom (p : Preamble) (prev : Span) : List (Located Token) → Preamble × Input
  | ⟨span, .string text⟩ :: rest =>
    if (rest.head?.map Located.val) = some .closeParen then
      (p, ⟨prev, ⟨span, .string text⟩ :: rest⟩)
    else
      preambleFrom ⟨some text, p.pragmas⟩ span rest
  | ⟨span, .pragma text⟩ :: rest =>
    let (key, value) := splitPragma text
    preambleFrom ⟨p.doc, p.pragmas.insert key value⟩ span rest
  | rest => (p, ⟨prev, rest⟩)

def preamble : Parser Preamble :=
  modifyGet fun s => preambleFrom ⟨none, .empty⟩ s.prev s.rest

/-- What follows `def`. -/
def definition (depth : Nat) (start : Span) : Parser Definition := do
  let name ← symbol
  let type ← do
    if ← accept .colon then
      pure (some (← typeExpr depth))
    else
      pure none
  let p ← preamble
  let body ← expr depth
  let span := start.cover (← here)
  return ⟨span, name.val, type, p.pragmas, p.doc, body⟩

/-- A constructor, alone or in parentheses with the types of its fields. -/
def constructor (depth : Nat) : Parser Constructor := do
  let start ← here
  if ← accept .openParen then
    let name ← symbol
    let fields ← untilClose (typeExpr depth)
    let stop ← expect .closeParen
    return ⟨start.cover stop, name.val, fields⟩
  else
    let name ← symbol
    return ⟨name.span, name.val, []⟩

/-- The name of a data type, alone or in parentheses with its parameters. -/
def dataHead : Parser (String × List String) := do
  if (← peek) = some .openParen then
    enclosed do
      let name ← symbol
      let vars ← untilClose typeVar
      return (name.val, vars)
  else
    let name ← symbol
    return (name.val, [])

/-- What follows `data`. -/
def dataDecl (depth : Nat) (start : Span) : Parser DataDecl := do
  let (name, vars) ← dataHead
  let constructors ← untilClose (constructor depth)
  let span := start.cover (← here)
  return ⟨span, name, vars, constructors⟩

/-- What follows `prim-type`. -/
def primTypeDecl (start : Span) : Parser PrimTypeDecl := do
  let name ← symbol
  let span := start.cover (← here)
  return ⟨span, name.val⟩

/-- What follows `prim-op`. -/
def primOpDecl (depth : Nat) (start : Span) : Parser PrimOpDecl := do
  let name ← symbol
  let _ ← expect .colon
  let type ← typeExpr depth
  let span := start.cover (← here)
  return ⟨span, name.val, type⟩

/-! ## Recovery -/

/-- Passes over tokens until `depth + 1` more parentheses have been closed than opened. -/
def skipFrom (depth : Nat) (prev : Span) : List (Located Token) → Input
  | [] => ⟨prev, []⟩
  | ⟨span, .openParen⟩ :: rest => skipFrom (depth + 1) span rest
  | ⟨span, .closeParen⟩ :: rest =>
    match depth with
    | 0 => ⟨span, rest⟩
    | outer + 1 => skipFrom outer span rest
  | ⟨span, _⟩ :: rest => skipFrom depth span rest

/-- The input behind the parenthesis that closes the innermost open one. -/
def skipToClose (s : Input) : Input :=
  skipFrom 0 s.prev s.rest

/-- Reads `body` and the closing parenthesis of a declaration. If the parenthesis is missing, that
is an error besides those of `body`, and the rest of the declaration is skipped. -/
def closingDeclaration {α : Type} (body : Parser α) : Parser α := fun s =>
  match body s with
  | .ok a s' =>
    if s'.next? = some .closeParen then .ok a s'.tail
    else .error [⟨s'.here, .declarationEnd⟩] (skipToClose s')
  | .error errors s' =>
    if s'.next? = some .closeParen then .error errors s'.tail
    else .error (errors ++ [⟨s'.here, .declarationEnd⟩]) (skipToClose s')

/-- What follows the opening parenthesis of a declaration at `start`. -/
def declarationForm (depth : Nat) (start : Span) : Parser Declaration := do
  let span ← here
  match ← peek with
  | some (.symbol "def") =>
    advance
    closingDeclaration (return .definition (← definition depth start))
  | some (.symbol "data") =>
    advance
    closingDeclaration (return .data (← dataDecl depth start))
  | some (.symbol "prim-type") =>
    advance
    closingDeclaration (return .primType (← primTypeDecl start))
  | some (.symbol "prim-op") =>
    advance
    closingDeclaration (return .primOp (← primOpDecl depth start))
  | found =>
    modify skipToClose
    fail span (.declarationKeyword found)

/-- One declaration. On failure the input is where reading is to go on. -/
def declaration (depth : Nat) : Parser Declaration := do
  let start ← here
  if ← accept .openParen then
    declarationForm depth start
  else
    advance
    fail start .declarationStart

end Parser

/-- What a source text holds: the well-formed declarations, and what is wrong with the rest. -/
structure Parsed where
  declarations : List Declaration
  errors : List ParseError
  deriving Inhabited

namespace Parsed

/-- The outcome of an attempt at one declaration, in front of what follows it. -/
def push (r : EStateM.Result (List ParseError) Input Declaration) (others : Parsed) : Parsed :=
  match r with
  | .ok d _ => ⟨d :: others.declarations, others.errors⟩
  | .error errors _ => ⟨others.declarations, errors ++ others.errors⟩

/-- At most `n` attempts at declarations. -/
def within (depth : Nat) : Nat → Input → Parsed
  | 0, _ => ⟨[], []⟩
  | n + 1, s =>
    match s.rest with
    | [] => ⟨[], []⟩
    | _ :: _ =>
      match Parser.declaration depth s with
      | .ok d s' => push (.ok d s') (within depth n s')
      | .error errors s' => push (.error errors s') (within depth n s')

/-- The declarations of a sequence of tokens. Every attempt reads a token and every level of nesting
takes one, so their number bounds both. -/
def ofTokens (tokens : List (Located Token)) : Parsed :=
  within (tokens.length + 1) tokens.length ⟨.origin, tokens⟩

end Parsed

/-- The declarations of a source text; errors in its tokens come before errors in their order. -/
def parse (source : String) : Parsed :=
  let lexed := Token.lex source
  let parsed := Parsed.ofTokens lexed.tokens
  ⟨parsed.declarations, lexed.errors.map (⟨·, .badText⟩) ++ parsed.errors⟩

end PolyLambda.Surface
