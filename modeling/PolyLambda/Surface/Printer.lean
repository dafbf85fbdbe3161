import PolyLambda.Surface.Basic
import PolyLambda.Text.Decimal
import PolyLambda.Text.Quoted

/-!
# The outline of a module

A reading aid that shows how a source text was understood: one line for each part of a declaration,
types and expressions in a fully parenthesised form. Places and the documentation of single
parameters inside expressions are left out.
-/

namespace PolyLambda.Surface

mutual

def TypeExpr.render : TypeExpr → String
  | .var _ name => "'" ++ name
  | .named _ name => name
  | .arrow _ param result => "(-> " ++ param.render ++ " " ++ result.render ++ ")"
  | .all _ v body => "(forall '" ++ v ++ " " ++ body.render ++ ")"
  | .applied _ name args => "(" ++ name ++ TypeExpr.renderArgs args ++ ")"

/-- Types one after another, a space before each. -/
def TypeExpr.renderArgs : List TypeExpr → String
  | [] => ""
  | type :: types => " " ++ type.render ++ TypeExpr.renderArgs types

end

/-- Words one after another, a space before each. -/
def renderWords (words : List String) : String :=
  String.join (words.map (" " ++ ·))

mutual

def Expr.render : Expr → String
  | .var _ name => name
  | .int _ value => Text.decimal value
  | .string _ text => Text.quote text
  | .lam _ param type _ body =>
    "(fn " ++ param ++ (match type with | some t => " : " ++ t.render | none => "") ++ ". "
      ++ body.render ++ ")"
  | .app _ fn arg => "(" ++ fn.render ++ " " ++ arg.render ++ ")"
  | .tlam _ param body => "(tfn '" ++ param ++ ". " ++ body.render ++ ")"
  | .tapp _ fn type => "(" ++ fn.render ++ " @" ++ type.render ++ ")"
  | .letIn _ name value body =>
    "(let " ++ name ++ " = " ++ value.render ++ " in " ++ body.render ++ ")"
  | .ann _ type expr => "(ann " ++ type.render ++ " " ++ expr.render ++ ")"
  | .con _ name [] => name
  | .con _ name (arg :: args) => "(" ++ name ++ Expr.renderArgs (arg :: args) ++ ")"
  | .case _ scrutinee branches =>
    "(case " ++ scrutinee.render ++ Expr.renderBranches branches ++ ")"
  | .tool _ name args => "(tool " ++ name ++ Expr.renderArgs args ++ ")"
  | .op _ name args => "(" ++ name ++ Expr.renderArgs args ++ ")"

/-- Expressions one after another, a space before each. -/
def Expr.renderArgs : List Expr → String
  | [] => ""
  | arg :: args => " " ++ arg.render ++ Expr.renderArgs args

def Expr.renderBranches : List Branch → String
  | [] => ""
  | .mk _ pattern body :: branches =>
    " [" ++ pattern.constructor ++ renderWords pattern.vars ++ " => " ++ body.render ++ "]"
      ++ Expr.renderBranches branches

end

def DataDecl.render (d : DataDecl) : String :=
  "(data " ++ d.name ++ renderWords (d.params.map ("'" ++ ·)) ++ "\n"
    ++ String.join (d.constructors.map fun c =>
        "  " ++ c.name ++ TypeExpr.renderArgs c.fields ++ "\n")
    ++ ")\n"

def Definition.render (d : Definition) : String :=
  "(def " ++ d.name ++ "\n"
    ++ (match d.type with | some t => "  type: " ++ t.render ++ "\n" | none => "")
    ++ (match d.doc with | some doc => "  doc: " ++ Text.quote doc ++ "\n" | none => "")
    ++ String.join (d.pragmas.entries.map fun (key, text) =>
        "  pragma: " ++ key ++ " " ++ Text.quote text ++ "\n")
    ++ String.join (d.paramDocs.map fun (param, doc) =>
        "  param-doc: " ++ param ++ " " ++ Text.quote doc ++ "\n")
    ++ "  body: " ++ d.body.render ++ "\n)\n"

def Declaration.render : Declaration → String
  | .data d => d.render
  | .definition d => d.render
  | .primType d => "(prim-type " ++ d.name ++ ")\n"
  | .primOp d => "(prim-op " ++ d.name ++ " : " ++ d.type.render ++ ")\n"

/-- The outline of a sequence of declarations. -/
def renderAll (declarations : List Declaration) : String :=
  String.join (declarations.map Declaration.render)

end PolyLambda.Surface
