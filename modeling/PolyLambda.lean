import PolyLambda.CommandLine
import PolyLambda.CommandLine.Arguments
import PolyLambda.CommandLine.ReadFailure
import PolyLambda.Evaluation
import PolyLambda.Evaluation.Error
import PolyLambda.Evaluation.Host
import PolyLambda.Evaluation.Primitive
import PolyLambda.Limited
import PolyLambda.Llm.Prompt
import PolyLambda.Llm.Response
import PolyLambda.Main
import PolyLambda.Module
import PolyLambda.Module.OfSource
import PolyLambda.Module.OfSurface
import PolyLambda.Module.Prelude
import PolyLambda.Scope
import PolyLambda.ScopeError
import PolyLambda.Span
import PolyLambda.Stateful
import PolyLambda.Surface.Basic
import PolyLambda.Surface.Operator
import PolyLambda.Surface.ParseError
import PolyLambda.Surface.Parser.Basic
import PolyLambda.Surface.Parser.Declaration
import PolyLambda.Surface.Parser.Expr
import PolyLambda.Surface.Parser.TypeExpr
import PolyLambda.Surface.Printer
import PolyLambda.Table
import PolyLambda.Term
import PolyLambda.Text.Blank
import PolyLambda.Text.Decimal
import PolyLambda.Text.Quoted
import PolyLambda.Text.Unprintable
import PolyLambda.Text.Words
import PolyLambda.Token
import PolyLambda.Token.Scan
import PolyLambda.Ty.Basic
import PolyLambda.Ty.FreshName
import PolyLambda.Ty.Substitute
import PolyLambda.Ty.Substitution
import PolyLambda.Ty.Unify
import PolyLambda.Typing.Checker
import PolyLambda.Typing.Context
import PolyLambda.Typing.Error
import PolyLambda.Value
import PolyLambda.Proofs.Ty.FreeVars
import PolyLambda.Proofs.Unify.Step
import PolyLambda.Proofs.Ty.Quantifiers
import PolyLambda.Proofs.Unify.MostGeneral
import PolyLambda.Proofs.Unify.FirstOrder
import PolyLambda.Proofs.Typing.Plan
import PolyLambda.Proofs.Typing.Run
import PolyLambda.Proofs.Unify.Divergence
import PolyLambda.Proofs.Typing.Termination
import PolyLambda.Proofs.Ty.Names
import PolyLambda.Proofs.Unify.Solved
import PolyLambda.Proofs.Unify.Reveals
import PolyLambda.Proofs.Module.Closed
import PolyLambda.Proofs.Term.Resolution
import PolyLambda.Proofs.Module.Declare
import PolyLambda.Proofs.Module.Signature
import PolyLambda.Proofs.Typing.Names
import PolyLambda.Proofs.Typing.Written
import PolyLambda.Proofs.Ty.Nameless
import PolyLambda.Proofs.Typing.Judgment
import PolyLambda.Proofs.Typing.Faithful
import PolyLambda.Proofs.Typing.Sound
import PolyLambda.Proofs.Evaluation.Safe
import PolyLambda.Proofs.Evaluation.Builtins
import PolyLambda.Proofs.Evaluation.Equality
import PolyLambda.Proofs.Evaluation.Sound
import PolyLambda.Proofs.Module.Scoped
import PolyLambda.Proofs.Soundness
import PolyLambda.Proofs.Typing.Plain
import PolyLambda.Proofs.Typing.Trace
import PolyLambda.Proofs.Ty.Rename
import PolyLambda.Proofs.Unify.Rename
import PolyLambda.Proofs.Typing.Rename
import PolyLambda.Proofs.Typing.Exchange
import PolyLambda.Proofs.Module.IsType
import PolyLambda.Proofs.Module.WrittenTypes
import PolyLambda.Proofs.Module.FreeTypeVars
import PolyLambda.Proofs.Typing.Scopes
import PolyLambda.Proofs.Evaluation.Fundamental
import PolyLambda.Proofs.Inhabitation
import PolyLambda.Proofs.Typing.Leaks
import PolyLambda.Proofs.Typing.Solved
import PolyLambda.Proofs.Typing.Escape
import PolyLambda.Proofs.Ty.Absorb
import PolyLambda.Proofs.Typing.Complete
import PolyLambda.Proofs.Typing.Principal
import PolyLambda.Proofs.Module.Rejected
import PolyLambda.Proofs.Evaluation.Named
import PolyLambda.Proofs.Evaluation.Elaboration
import PolyLambda.Proofs.Surface.Grammar
import PolyLambda.Proofs.Surface.Accepts
import PolyLambda.Proofs.Surface.TypeExpr
import PolyLambda.Proofs.Surface.Expr
import PolyLambda.Proofs.Surface.Declaration
import PolyLambda.Proofs.Surface.Local
import PolyLambda.Proofs.Surface.Balanced
import PolyLambda.Proofs.Surface.Program
import PolyLambda.Proofs.Surface.Chunks
import PolyLambda.Proofs.Module.Coherent
import PolyLambda.Proofs.Term.Mentions
import PolyLambda.Proofs.Module.Mentions
import PolyLambda.Proofs.Evaluation.Comparison
import PolyLambda.Proofs.Evaluation.SideBySide
import PolyLambda.Proofs.Typing.Mentions
import PolyLambda.Proofs.Evaluation.Assembled
import PolyLambda.Proofs.Dangling
import PolyLambda.Proofs.Offline
import PolyLambda.Proofs.Prefix
import PolyLambda.Proofs.Ty.CaptureAvoiding
import PolyLambda.Proofs.Token.Boundary
import PolyLambda.Proofs.Token.Lexeme
import PolyLambda.Proofs.Token.Layout
import PolyLambda.Proofs.Surface.Unplaced
import PolyLambda.Proofs.Surface.UnplacedProgram
import PolyLambda.Proofs.Layout
import PolyLambda.Proofs.Token.Written
import PolyLambda.Proofs.Surface.Anywhere
import PolyLambda.Proofs.Ty.Printed
import PolyLambda.Proofs.Token.Literal
import PolyLambda.Proofs.Token.Tiling
import PolyLambda.Proofs.Evaluation.Printed
import PolyLambda.Proofs.Ty.AlphaEq
import PolyLambda.Proofs.Ty.Simultaneous
import PolyLambda.Proofs.Surface.Onward
import PolyLambda.Proofs.Surface.Nesting
import PolyLambda.Proofs.Places
import PolyLambda.Proofs.Surface.Recovery
import PolyLambda.Proofs.Module.Distinct
import PolyLambda.Proofs.Module.Registered
import PolyLambda.Proofs.Evaluation.Arities
import PolyLambda.Proofs.Evaluation.Chains
import PolyLambda.Proofs.Typing.Monomorphic
import PolyLambda.Proofs.Chains
import PolyLambda.Proofs.Token.StringLiteral
import PolyLambda.Proofs.Llm.Response
import PolyLambda.Proofs.Evaluation.Arithmetic
import PolyLambda.Proofs.Typing.Given
import PolyLambda.Proofs.Attribution
