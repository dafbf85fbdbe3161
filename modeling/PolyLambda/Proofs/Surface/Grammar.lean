import PolyLambda.Surface.Parser.Declaration

/-!
# The grammar of programs

Which phrases are programs, and which trees they mean, said apart from how they are read: a rule for
every form gives its tokens and its tree, and no rule looks at what comes behind its phrase. The
reader has to look ahead where two rules begin alike, for example to tell a string that documents a
definition from one that is its body.

Trees carry the places of their phrases. The tree of a form in parentheses covers both of them, and
the trees that a form makes up inside it reach to the end of its last part.
-/

namespace PolyLambda.Surface.Grammar

open Surface.Parser (Param Preamble Argument isConstructorName)

abbrev Tokens := List (Located Token)

/-- What the phrases of some kind mean. -/
abbrev Phrases (α : Type) := Tokens → α → Prop

/-! ## Phrases -/

/-- The place of the last of the tokens, or `prev` if there are none. -/
def stopFrom (prev : Span) : Tokens → Span
  | [] => prev
  | t :: ts => stopFrom t.span ts

/-- The place of the last token of a phrase. -/
def stop (ts : Tokens) : Span := stopFrom .origin ts

/-- The tokens between two parentheses, and the parentheses. -/
def parens (o c : Span) (ts : Tokens) : Tokens := ⟨o, .openParen⟩ :: (ts ++ [⟨c, .closeParen⟩])

/-- Any number of phrases, one behind the other. -/
inductive Each {α : Type} (P : Phrases α) : Phrases (List α)
  | nil : Each P [] []
  | cons {ts us : Tokens} {a : α} {as : List α} : P ts a → Each P us as →
      Each P (ts ++ us) (a :: as)

/-- A name alone, or in parentheses and with phrases of `P` behind it. -/
inductive Headed {α β : Type} (P : Phrases α) (f : Span → String → List α → β) : Phrases β
  | alone {s : Span} {name : String} : Headed P f [⟨s, .symbol name⟩] (f s name [])
  | group {o c s : Span} {name : String} {ts : Tokens} {as : List α} : Each P ts as →
      Headed P f (parens o c (⟨s, .symbol name⟩ :: ts)) (f (o.cover c) name as)

/-! ## Types -/

inductive IsTypeVar : Phrases String
  | mk {s : Span} {name : String} : IsTypeVar [⟨s, .typeVar name⟩] name

/-- A type variable, or any number of them in parentheses. -/
inductive IsTypeVars : Phrases (List String)
  | one {ts : Tokens} {name : String} : IsTypeVar ts name → IsTypeVars ts [name]
  | many {o c : Span} {ts : Tokens} {names : List String} : Each IsTypeVar ts names →
      IsTypeVars (parens o c ts) names

section

variable (T : Phrases TypeExpr)

/-- What follows `->` in a function type at `w`, in a language whose types are `T`. -/
inductive IsArrow : (w : Span) → Phrases TypeExpr
  | mk {ts : Tokens} {first second : TypeExpr} {others : List TypeExpr} {w : Span} :
      Each T ts (first :: second :: others) →
      IsArrow w ts (Parser.arrows w first (second :: others))

/-- What follows `forall` in a quantified type at `w`. -/
inductive IsAll : (w : Span) → Phrases TypeExpr
  | mk {ts us : Tokens} {vars : List String} {body : TypeExpr} {w : Span} : IsTypeVars ts vars →
      T us body → IsAll w (ts ++ us) (vars.foldr (TypeExpr.all w) body)

/-- A type by its name and its arguments, at `w`. -/
inductive IsNamed : (w : Span) → Phrases TypeExpr
  | alone {s : Span} {name : String} {w : Span} : name ≠ "->" → name ≠ "forall" →
      IsNamed w [⟨s, .symbol name⟩] (.named w name)
  | applied {s : Span} {name : String} {ts : Tokens} {args : List TypeExpr} {w : Span} :
      name ≠ "->" → name ≠ "forall" → Each T ts args → args ≠ [] →
      IsNamed w (⟨s, .symbol name⟩ :: ts) (.applied w name args)

/-- What stands between two parentheses that enclose a type at `w`. -/
inductive IsTypeForm : (w : Span) → Phrases TypeExpr
  | arrow {k : Span} {ts : Tokens} {t : TypeExpr} {w : Span} : IsArrow T w ts t →
      IsTypeForm w (⟨k, .symbol "->"⟩ :: ts) t
  | all {k : Span} {ts : Tokens} {t : TypeExpr} {w : Span} : IsAll T w ts t →
      IsTypeForm w (⟨k, .symbol "forall"⟩ :: ts) t
  | named {ts : Tokens} {t : TypeExpr} {w : Span} : IsNamed T w ts t → IsTypeForm w ts t

end

inductive IsType : Phrases TypeExpr
  | var {s : Span} {name : String} : IsType [⟨s, .typeVar name⟩] (.var s name)
  | named {s : Span} {name : String} : IsType [⟨s, .symbol name⟩] (.named s name)
  | paren {o c : Span} {ts : Tokens} {t : TypeExpr} : IsTypeForm IsType (o.cover c) ts t →
      IsType (parens o c ts) t

/-- A type behind a colon, or nothing. -/
inductive IsAnnotation : Phrases (Option TypeExpr)
  | none : IsAnnotation [] none
  | some {k : Span} {ts : Tokens} {type : TypeExpr} : IsType ts type →
      IsAnnotation (⟨k, .colon⟩ :: ts) (some type)

/-! ## Expressions -/

/-- A string that documents what stands before it, or nothing. -/
inductive IsDoc : Phrases (Option String)
  | none : IsDoc [] none
  | some {s : Span} {text : String} : IsDoc [⟨s, .string text⟩] (some text)

/-- A parameter that is a name alone. -/
inductive IsBareParam : Phrases Param
  | mk {s : Span} {name : String} : IsBareParam [⟨s, .symbol name⟩] ⟨s, name, none, none⟩

/-- A parameter in parentheses. -/
inductive IsAnnotatedParam : Phrases Param
  | mk {o c s : Span} {name : String} {ts us : Tokens} {type : Option TypeExpr}
      {doc : Option String} : IsAnnotation ts type → IsDoc us doc →
      IsAnnotatedParam (parens o c (⟨s, .symbol name⟩ :: (ts ++ us)))
        ⟨o.cover c, name, type, doc⟩

/-- One of several parameters. -/
inductive IsParam : Phrases Param
  | bare {ts : Tokens} {p : Param} : IsBareParam ts p → IsParam ts p
  | annotated {ts : Tokens} {p : Param} : IsAnnotatedParam ts p → IsParam ts p

/-- The parameters of a lambda. One alone in parentheses has to have a type. -/
inductive IsParams : Phrases (List Param)
  | bare {ts : Tokens} {p : Param} : IsBareParam ts p → IsParams ts [p]
  | annotated {ts : Tokens} {p : Param} : IsAnnotatedParam ts p → p.type ≠ none → IsParams ts [p]
  | many {o c : Span} {ts : Tokens} {params : List Param} : Each IsParam ts params →
      IsParams (parens o c ts) params

inductive IsPatternVar : Phrases String
  | mk {s : Span} {name : String} : isConstructorName name = false →
      IsPatternVar [⟨s, .symbol name⟩] name

/-- A constructor and variables for its fields. -/
abbrev IsPattern : Phrases Pattern := Headed IsPatternVar Pattern.mk

/-- The names that say which form an expression in parentheses is, besides the operators. -/
def keywords : List String := ["fn", "tfn", "let", "ann", "case", "tool"]

/-- Whether the first of the tokens keeps what they begin from being an application. -/
def Reserved (ts : Tokens) : Prop :=
  ∃ s name, ts.head? = some ⟨s, .symbol name⟩ ∧
    (name ∈ keywords ∨ Operator.isOperator name = true)

section

variable (E : Phrases Expr)

inductive IsBinding : Phrases (String × Expr)
  | mk {o c s : Span} {name : String} {ts : Tokens} {value : Expr} : E ts value →
      IsBinding (parens o c (⟨s, .symbol name⟩ :: ts)) (name, value)

inductive IsBranch : Phrases Branch
  | mk {o c : Span} {ts us : Tokens} {p : Pattern} {body : Expr} : IsPattern ts p → E us body →
      IsBranch (parens o c (ts ++ us)) (.mk (o.cover c) p body)

inductive IsArgument : Phrases Argument
  | expr {ts : Tokens} {e : Expr} : E ts e → IsArgument ts (.expr e)
  | type {k : Span} {ts : Tokens} {t : TypeExpr} : IsType ts t →
      IsArgument (⟨k, .atSign⟩ :: ts) (.type t)

/-- What follows `fn`. Each parameter makes a lambda that reaches to the end of the body. -/
inductive IsLambda : Phrases Expr
  | mk {ts us : Tokens} {params : List Param} {body : Expr} : IsParams ts params → params ≠ [] →
      E us body →
      IsLambda (ts ++ us)
        (params.foldr (fun p e => .lam (p.span.cover (stop us)) p.name p.type p.doc e) body)

/-- What follows `tfn` in a form that begins at `o`. -/
inductive IsTypeLambda : (o : Span) → Phrases Expr
  | mk {ts us : Tokens} {vars : List String} {body : Expr} {o : Span} : IsTypeVars ts vars →
      vars ≠ [] → E us body →
      IsTypeLambda o (ts ++ us) (vars.foldr (Expr.tlam (o.cover (stop us))) body)

/-- What follows `let`. -/
inductive IsLet : (o : Span) → Phrases Expr
  | mk {p q : Span} {ts us : Tokens} {bindings : List (String × Expr)} {body : Expr} {o : Span} :
      Each (IsBinding E) ts bindings → E us body →
      IsLet o (parens p q ts ++ us)
        (bindings.foldr (fun b e => .letIn (o.cover (stop us)) b.1 b.2 e) body)

/-- What follows `ann`. -/
inductive IsAnn : (o : Span) → Phrases Expr
  | mk {ts us : Tokens} {t : TypeExpr} {e : Expr} {o : Span} : IsType ts t → E us e →
      IsAnn o (ts ++ us) (.ann o t e)

/-- What follows `case`. -/
inductive IsCase : (o : Span) → Phrases Expr
  | mk {ts us : Tokens} {scrutinee : Expr} {branches : List Branch} {o : Span} :
      E ts scrutinee → Each (IsBranch E) us branches →
      IsCase o (ts ++ us) (.case o scrutinee branches)

/-- What follows `tool`. -/
inductive IsTool : (o : Span) → Phrases Expr
  | mk {s : Span} {name : String} {ts : Tokens} {args : List Expr} {o : Span} : Each E ts args →
      IsTool o (⟨s, .symbol name⟩ :: ts) (.tool o name args)

/-- An operator and as many operands as one of its primitives takes. -/
inductive IsOperation : (o : Span) → Phrases Expr
  | mk {s : Span} {name : String} {ts : Tokens} {args : List Expr} {o : Span} : Each E ts args →
      (Operator.primitive? name args.length).isSome = true →
      IsOperation o (⟨s, .symbol name⟩ :: ts) (.op o name args)

/-- An expression that does not begin like another form, and its arguments. -/
inductive IsApplication : (o : Span) → Phrases Expr
  | mk {ts us : Tokens} {head : Expr} {args : List Argument} {o : Span} : ¬ Reserved ts →
      E ts head → Each (IsArgument E) us args →
      IsApplication o (ts ++ us) (Parser.application o (stop (ts ++ us)) head args)

/-- What stands between a parenthesis that opens at `o` and the one that closes it, in a language
whose expressions are `E`. -/
inductive IsForm : (o : Span) → Phrases Expr
  | lambda {k : Span} {ts : Tokens} {e : Expr} {o : Span} : IsLambda E ts e →
      IsForm o (⟨k, .symbol "fn"⟩ :: ts) e
  | typeLambda {k : Span} {ts : Tokens} {e : Expr} {o : Span} : IsTypeLambda E o ts e →
      IsForm o (⟨k, .symbol "tfn"⟩ :: ts) e
  | letIn {k : Span} {ts : Tokens} {e : Expr} {o : Span} : IsLet E o ts e →
      IsForm o (⟨k, .symbol "let"⟩ :: ts) e
  | ann {k : Span} {ts : Tokens} {e : Expr} {o : Span} : IsAnn E o ts e →
      IsForm o (⟨k, .symbol "ann"⟩ :: ts) e
  | case {k : Span} {ts : Tokens} {e : Expr} {o : Span} : IsCase E o ts e →
      IsForm o (⟨k, .symbol "case"⟩ :: ts) e
  | tool {k : Span} {ts : Tokens} {e : Expr} {o : Span} : IsTool E o ts e →
      IsForm o (⟨k, .symbol "tool"⟩ :: ts) e
  | op {ts : Tokens} {e : Expr} {o : Span} : IsOperation E o ts e → IsForm o ts e
  | app {ts : Tokens} {e : Expr} {o : Span} : IsApplication E o ts e → IsForm o ts e

end

inductive IsExpr : Phrases Expr
  | var {s : Span} {name : String} : isConstructorName name = false →
      IsExpr [⟨s, .symbol name⟩] (.var s name)
  | con {s : Span} {name : String} : isConstructorName name = true →
      IsExpr [⟨s, .symbol name⟩] (.con s name [])
  | int {s : Span} {value : Int64} : IsExpr [⟨s, .int value⟩] (.int s value)
  | string {s : Span} {text : String} : IsExpr [⟨s, .string text⟩] (.string s text)
  | paren {o c : Span} {ts : Tokens} {e : Expr} : IsForm IsExpr o ts e →
      IsExpr (parens o c ts) (e.withSpan (o.cover c))

/-! ## Declarations -/

/-- What strings and pragmas in any order add to a preamble; later ones replace earlier ones. -/
inductive Extends : Preamble → Phrases Preamble
  | nil {p : Preamble} : Extends p [] p
  | doc {p q : Preamble} {s : Span} {text : String} {ts : Tokens} :
      Extends ⟨some text, p.pragmas⟩ ts q → Extends p (⟨s, .string text⟩ :: ts) q
  | pragma {p q : Preamble} {s : Span} {text : String} {ts : Tokens} :
      Extends ⟨p.doc, p.pragmas.insert (Parser.splitPragma text).1 (Parser.splitPragma text).2⟩ ts
        q →
      Extends p (⟨s, .pragma text⟩ :: ts) q

/-- A constructor and the types of its fields. -/
abbrev IsConstructor : Phrases Constructor := Headed IsType Constructor.mk

/-- The name of a data type and its parameters. -/
abbrev IsDataHead : Phrases (String × List String) :=
  Headed IsTypeVar fun _ name vars => (name, vars)

/-- What follows `def` in a declaration at `w`. -/
inductive IsDefinition (w : Span) : Phrases Definition
  | mk {s : Span} {name : String} {ts us vs : Tokens} {type : Option TypeExpr} {p : Preamble}
      {body : Expr} : IsAnnotation ts type → Extends ⟨none, .empty⟩ us p → IsExpr vs body →
      IsDefinition w (⟨s, .symbol name⟩ :: (ts ++ (us ++ vs)))
        ⟨w, name, type, p.pragmas, p.doc, body⟩

/-- What follows `data`. -/
inductive IsData (w : Span) : Phrases DataDecl
  | mk {ts us : Tokens} {name : String} {vars : List String} {constructors : List Constructor} :
      IsDataHead ts (name, vars) → Each IsConstructor us constructors →
      IsData w (ts ++ us) ⟨w, name, vars, constructors⟩

/-- What follows `prim-type`. -/
inductive IsPrimType (w : Span) : Phrases PrimTypeDecl
  | mk {s : Span} {name : String} : IsPrimType w [⟨s, .symbol name⟩] ⟨w, name⟩

/-- What follows `prim-op`. -/
inductive IsPrimOp (w : Span) : Phrases PrimOpDecl
  | mk {s k : Span} {name : String} {ts : Tokens} {type : TypeExpr} : IsType ts type →
      IsPrimOp w (⟨s, .symbol name⟩ :: ⟨k, .colon⟩ :: ts) ⟨w, name, type⟩

/-- What stands between two parentheses that enclose a declaration at `w`. -/
inductive IsDeclarationForm (w : Span) : Phrases Declaration
  | definition {k : Span} {ts : Tokens} {d : Definition} : IsDefinition w ts d →
      IsDeclarationForm w (⟨k, .symbol "def"⟩ :: ts) (.definition d)
  | data {k : Span} {ts : Tokens} {d : DataDecl} : IsData w ts d →
      IsDeclarationForm w (⟨k, .symbol "data"⟩ :: ts) (.data d)
  | primType {k : Span} {ts : Tokens} {d : PrimTypeDecl} : IsPrimType w ts d →
      IsDeclarationForm w (⟨k, .symbol "prim-type"⟩ :: ts) (.primType d)
  | primOp {k : Span} {ts : Tokens} {d : PrimOpDecl} : IsPrimOp w ts d →
      IsDeclarationForm w (⟨k, .symbol "prim-op"⟩ :: ts) (.primOp d)

inductive IsDeclaration : Phrases Declaration
  | mk {o c : Span} {ts : Tokens} {d : Declaration} : IsDeclarationForm (o.cover c) ts d →
      IsDeclaration (parens o c ts) d

/-- Declarations, one behind the other. -/
def IsProgram : Phrases (List Declaration) := Each IsDeclaration

end PolyLambda.Surface.Grammar
