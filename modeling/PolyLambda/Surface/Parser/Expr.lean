import PolyLambda.Surface.Operator
import PolyLambda.Surface.Parser.TypeExpr

/-!
# Reading expressions

As for types, each form is a parser over the parsers of its parts. A form with several binders
stands for the nested forms with one binder each. The node of a parenthesised form covers its
parentheses; the nodes that the form generates inside it end with its last part.
-/

namespace PolyLambda.Surface.Parser

/-- Constructors and data types begin with a capital letter. -/
def isConstructorName (name : String) : Bool :=
  name.toList.head?.any Char.isUpper

/-- A parameter of a lambda. -/
structure Param where
  span : Span
  name : String
  type : Option TypeExpr
  doc : Option String
  deriving Inhabited

/-- A parameter that is a name alone. -/
def bareParam : Parser Param := do
  let name ← symbol
  return ⟨name.span, name.val, none, none⟩

/-- A parameter in parentheses: a name, perhaps a type behind a colon, perhaps a string. -/
def annotatedParam (type : Parser TypeExpr) : Parser Param := do
  let start ← expect .openParen
  let name ← symbol
  let paramType ← do
    if ← accept .colon then
      pure (some (← type))
    else
      pure none
  let doc ← string?
  let stop ← expect .closeParen
  return ⟨start.cover stop, name.val, paramType, doc⟩

/-- One of several parameters. -/
def param (type : Parser TypeExpr) : Parser Param := do
  match ← peek with
  | some (.symbol _) => bareParam
  | _ => annotatedParam type

/-- Whether a name and a colon come after the next token, so that what comes next can only be one
annotated parameter. -/
def annotationAhead : Parser Bool := do
  match (← get).rest with
  | _ :: ⟨_, .symbol _⟩ :: ⟨_, .colon⟩ :: _ => return true
  | _ => return false

/-- The parameters of a lambda: a bare one, an annotated one, or several in parentheses. -/
def params (type : Parser TypeExpr) : Parser (List Param) := do
  match ← peek with
  | some (.symbol _) => return [← bareParam]
  | _ =>
    if ← annotationAhead then
      return [← annotatedParam type]
    else
      enclosed (untilClose (param type))

/-- What follows `fn`. -/
def lambdaForm (type : Parser TypeExpr) (expr : Parser Expr) (start : Span) : Parser Expr := do
  let parameters ← params type
  if parameters.isEmpty then
    fail start .noParams
  else
    let body ← expr
    let stop ← previous
    return parameters.foldr (fun p e => .lam (p.span.cover stop) p.name p.type p.doc e) body

/-- What follows `tfn`. -/
def typeLambdaForm (expr : Parser Expr) (start : Span) : Parser Expr := do
  let vars ← typeVars
  if vars.isEmpty then
    fail start .noTypeParams
  else
    let body ← expr
    let span := start.cover (← previous)
    return vars.foldr (Expr.tlam span) body

/-- A name with its value, in parentheses. -/
def binding (expr : Parser Expr) : Parser (String × Expr) :=
  enclosed do
    let name ← symbol
    let value ← expr
    return (name.val, value)

/-- What follows `let`. Each binding is in scope in the bindings after it. -/
def letForm (expr : Parser Expr) (start : Span) : Parser Expr := do
  let bindings ← enclosed (untilClose (binding expr))
  let body ← expr
  let span := start.cover (← previous)
  return bindings.foldr (fun (name, value) e => .letIn span name value e) body

/-- What follows `ann`. -/
def annForm (type : Parser TypeExpr) (expr : Parser Expr) (start : Span) : Parser Expr := do
  let t ← type
  let e ← expr
  return .ann start t e

/-- A variable of a pattern. -/
def patternVar : Parser String := do
  let name ← symbol
  if isConstructorName name.val then
    fail name.span (.nestedPattern name.val)
  else
    return name.val

/-- A constructor, alone or in parentheses with its variables. -/
def pattern : Parser Pattern := do
  let start ← here
  if ← accept .openParen then
    let name ← symbol
    let vars ← untilClose patternVar
    let stop ← expect .closeParen
    return ⟨start.cover stop, name.val, vars⟩
  else
    let name ← symbol
    return ⟨name.span, name.val, []⟩

def branch (expr : Parser Expr) : Parser Branch := do
  let start ← expect .openParen
  let p ← pattern
  let body ← expr
  let stop ← expect .closeParen
  return .mk (start.cover stop) p body

/-- What follows `case`. -/
def caseForm (expr : Parser Expr) (start : Span) : Parser Expr := do
  let scrutinee ← expr
  let branches ← untilClose (branch expr)
  return .case start scrutinee branches

/-- What follows `tool`. -/
def toolForm (expr : Parser Expr) (start : Span) : Parser Expr := do
  let name ← symbol
  let args ← untilClose expr
  return .tool start name.val args

/-- An operator and as many operands as one of its primitives takes. -/
def operatorForm (expr : Parser Expr) (start : Span) : Parser Expr := do
  let name ← symbol
  let args ← untilClose expr
  if (Operator.primitive? name.val args.length).isSome then
    return .op start name.val args
  else
    fail name.span (.operandCount name.val args.length)

/-- What an expression is applied to. -/
inductive Argument where
  | expr (e : Expr)
  | type (t : TypeExpr)
  deriving Inhabited

def argument (type : Parser TypeExpr) (expr : Parser Expr) : Parser Argument := do
  if ← accept .atSign then
    return .type (← type)
  else
    return .expr (← expr)

/-- The expressions among `args`, if there are no types. -/
def exprArguments? : List Argument → Option (List Expr)
  | [] => some []
  | .expr e :: args => (exprArguments? args).map (e :: ·)
  | .type _ :: _ => none

/-- One application step. -/
def applyTo (span : Span) (fn : Expr) : Argument → Expr
  | .expr e => .app span fn e
  | .type t => .tapp span fn t

/-- The application of `head` to `args`. A bare constructor takes its arguments as fields, unless
there are types among them. -/
def application (start stop : Span) (head : Expr) (args : List Argument) : Expr :=
  match args, head, exprArguments? args with
  | _ :: _, .con _ name [], some fields => .con start name fields
  | _, _, _ => args.foldl (applyTo (start.cover stop)) head

/-- An expression and what it is applied to. -/
def applicationForm (type : Parser TypeExpr) (expr : Parser Expr) (start : Span) :
    Parser Expr := do
  let head ← expr
  let args ← untilClose (argument type expr)
  return application start (← previous) head args

/-- The content of a pair of parentheses that opened at `start`. -/
def form (type : Parser TypeExpr) (expr : Parser Expr) (start : Span) : Parser Expr := do
  match ← peek with
  | some (.symbol "fn") =>
    advance
    lambdaForm type expr start
  | some (.symbol "tfn") =>
    advance
    typeLambdaForm expr start
  | some (.symbol "let") =>
    advance
    letForm expr start
  | some (.symbol "ann") =>
    advance
    annForm type expr start
  | some (.symbol "case") =>
    advance
    caseForm expr start
  | some (.symbol "tool") =>
    advance
    toolForm expr start
  | some (.symbol name) =>
    if Operator.isOperator name then
      operatorForm expr start
    else
      applicationForm type expr start
  | _ => applicationForm type expr start

/-- A form in parentheses, of which the first has been read at `start`. -/
def parenForm (type : Parser TypeExpr) (expr : Parser Expr) (start : Span) : Parser Expr := do
  let next ← here
  if ← accept .closeParen then
    fail (start.cover next) .emptyParens
  else
    let (e, stop) ← closing (form type expr start)
    return e.withSpan (start.cover stop)

/-- An expression whose nesting is less than the given depth. -/
def expr : Nat → Parser Expr
  | 0 => throw []
  | depth + 1 => do
    let start ← here
    match ← peek with
    | none => throw []
    | some .openParen =>
      advance
      parenForm (typeExpr depth) (expr depth) start
    | some (.int value) =>
      advance
      return .int start value
    | some (.string text) =>
      advance
      return .string start text
    | some (.symbol name) =>
      advance
      return if isConstructorName name then .con start name [] else .var start name
    | some found => fail start (.unexpected found)

end PolyLambda.Surface.Parser
