import PolyLambda.Proofs.Surface.Program
import PolyLambda.Proofs.Surface.UnplacedProgram
import PolyLambda.Proofs.Token.Layout

/-!
# Layout and meaning

White space and comments between the lexemes of a program change neither its tokens nor, places
aside, what is parsed. The lexical half is that a lexeme is read as the same token in any
surroundings that do not go on with it. The other half is that the parser never looks at a place, so
texts with the same tokens are parsed to the same program.
-/

namespace PolyLambda

open Token

theorem map_unplaced_eq_of_map_val_eq {α : Type} {ts us : List (Located α)}
    (h : ts.map Located.val = us.map Located.val) :
    ts.map Located.unplaced = us.map Located.unplaced := by
  have hvals := congrArg (List.map (Located.mk Span.origin)) h
  rwa [List.map_map, List.map_map] at hvals

/-- Texts with the same tokens are parsed alike. -/
theorem Surface.parse_unplaced_of_tokens {source text : String} (hsource : (lex source).errors = [])
    (htext : (lex text).errors = [])
    (h : (lex text).tokens.map Located.val = (lex source).tokens.map Located.val) :
    (parse text).unplaced = (parse source).unplaced := by
  rw [parse_of_errors_eq_nil hsource, parse_of_errors_eq_nil htext, ← Parsed.ofTokens_unplaced,
    ← Parsed.ofTokens_unplaced, map_unplaced_eq_of_map_val_eq h]

/-- For a source text without lexical errors: its lexemes between single spaces have no lexical
errors and the same tokens, any text made of its lexemes has no lexical errors and the same lexemes,
and texts with the same lexemes have the same tokens and are parsed alike. -/
theorem layout_keeps_meaning {source : String} (h : (lex source).errors = []) :
    ((lex (" ".intercalate (lexemes source))).errors = [] ∧
      (lex (" ".intercalate (lexemes source))).tokens.map Located.val =
        (lex source).tokens.map Located.val) ∧
    (∀ text : String, Spaced (lexemes source) text.toList →
      (lex text).errors = [] ∧ lexemes text = lexemes source) ∧
    ∀ text, (lex text).errors = [] → lexemes text = lexemes source →
      (lex text).tokens.map Located.val = (lex source).tokens.map Located.val ∧
        (Surface.parse text).unplaced = (Surface.parse source).unplaced := by
  refine ⟨?_, fun text htext => htext.lexemes h, fun text htext hlexemes => ?_⟩
  · obtain ⟨hclean, hlexemes⟩ := (spaced_intercalate (lexemes source)).lexemes h
    exact ⟨hclean, tokens_of_lexemes h hclean hlexemes⟩
  · have htokens := tokens_of_lexemes h htext hlexemes
    exact ⟨htokens, Surface.parse_unplaced_of_tokens h htext htokens⟩

theorem layout_keeps_meaning_negation :
    (lex "(def x;-7\n(- -7 7))").errors = [] ∧
      lexemes "(def x;-7\n(- -7 7))" = ["(", "def", "x", "(", "-", "-7", "7", ")", ")"] ∧
      (lex "( def x ( - -7 7 ) )").tokens.map Located.val =
        (lex "(def x;-7\n(- -7 7))").tokens.map Located.val := by
  have hclean : (lex "(def x;-7\n(- -7 7))").errors = [] := by decide +kernel
  have hlexemes : lexemes "(def x;-7\n(- -7 7))" =
      ["(", "def", "x", "(", "-", "-7", "7", ")", ")"] := by decide +kernel
  have hspaces := (layout_keeps_meaning hclean).1.2
  rw [hlexemes] at hspaces
  exact ⟨hclean, hlexemes, hspaces⟩

end PolyLambda
