import PolyLambda.Surface.Basic
import PolyLambda.Surface.Parser.Basic

/-!
# Reading types

Each form is a parser over the parser of its parts; `typeExpr` ties the knot. Its number bounds the
depth of nesting, which never exceeds the number of tokens.
-/

namespace PolyLambda.Surface.Parser

/-- An arrow from the first of `types` through the others, nested to the right. -/
def arrows (span : Span) (first : TypeExpr) : List TypeExpr → TypeExpr
  | [] => first
  | second :: types => .arrow span first (arrows span second types)

/-- What follows `->` in a function type that begins at `start`: at least two types. -/
def arrowForm (type : Parser TypeExpr) (start : Span) : Parser TypeExpr := do
  match ← untilClose type with
  | first :: second :: others =>
    let span := start.cover (← here)
    return arrows span first (second :: others)
  | _ => fail start .shortArrow

/-- What follows `forall` in a quantified type that begins at `start`. -/
def allForm (type : Parser TypeExpr) (start : Span) : Parser TypeExpr := do
  let vars ← typeVars
  let body ← type
  let span := start.cover (← here)
  return vars.foldr (TypeExpr.all span) body

/-- A type by its name and arguments, and the closing parenthesis behind them. -/
def namedForm (type : Parser TypeExpr) (start : Span) : Parser TypeExpr := do
  let name ← symbol
  let args ← untilClose type
  let stop ← expect .closeParen
  let span := start.cover stop
  return if args.isEmpty then .named span name.val else .applied span name.val args

/-- A type whose nesting is less than the given depth. -/
def typeExpr : Nat → Parser TypeExpr
  | 0 => throw []
  | depth + 1 => do
    let start ← here
    match ← peek with
    | none => throw []
    | some (.symbol name) =>
      advance
      return .named start name
    | some (.typeVar name) =>
      advance
      return .var start name
    | some .openParen =>
      advance
      match ← peek with
      | some (.symbol "->") =>
        advance
        return (← closing (arrowForm (typeExpr depth) start)).1
      | some (.symbol "forall") =>
        advance
        return (← closing (allForm (typeExpr depth) start)).1
      | _ => namedForm (typeExpr depth) start
    | found => fail start (.expectedType found)

end PolyLambda.Surface.Parser
