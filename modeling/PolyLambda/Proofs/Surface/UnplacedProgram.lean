import PolyLambda.Proofs.Surface.Balanced
import PolyLambda.Proofs.Surface.Unplaced

/-!
# Programs without places

Every form of types, expressions and declarations is read alike at all places. So tokens that differ
in nothing but their places are the same program, up to places, and are wrong in the same way
(`Parsed.ofTokens_unplaced`).
-/

namespace PolyLambda.Surface

namespace Parser

/-! ## Types -/

theorem unplaced_arrows (span : Span) (first : TypeExpr) (types : List TypeExpr) :
    (arrows span first types).unplaced =
      arrows .origin first.unplaced (types.map TypeExpr.unplaced) := by
  induction types generalizing first with
  | nil => rfl
  | cons second types ih => rw [arrows, TypeExpr.unplaced, ih, List.map_cons, arrows]

/-- A form with several binders is made of forms with one binder each. -/
theorem unplaced_foldr {α β γ : Type} {f : α → β → β} {f' : γ → β → β} {g : α → γ} {h : β → β}
    (hf : ∀ a b, h (f a b) = f' (g a) (h b)) (as : List α) (b : β) :
    h (as.foldr f b) = (as.map g).foldr f' (h b) := by
  induction as with
  | nil => rfl
  | cons a as ih => rw [List.foldr_cons, hf, ih, List.map_cons, List.foldr_cons]

section

variable {type : Parser TypeExpr} (htype : Forgets TypeExpr.unplaced type type) (start : Span)

include htype

theorem forgets_arrowForm :
    Forgets TypeExpr.unplaced (arrowForm type start) (arrowForm type .origin) :=
  htype.untilClose.bind fun types => by
    match types with
    | [] => exact forgets_fail start _
    | [_] => exact forgets_fail start _
    | first :: second :: others =>
      refine forgets_here.bind fun _ => forgets_pure ?_
      rw [unplaced_arrows]
      rfl

theorem forgets_allForm : Forgets TypeExpr.unplaced (allForm type start) (allForm type .origin) :=
  forgets_typeVars.bind fun vars => htype.bind fun body => forgets_here.bind fun _ =>
    forgets_pure <| by
      rw [unplaced_foldr (h := TypeExpr.unplaced) (g := id) (fun _ _ => rfl), List.map_id]
      rfl

theorem forgets_namedForm :
    Forgets TypeExpr.unplaced (namedForm type start) (namedForm type .origin) :=
  forgets_symbol.bind fun name => htype.untilClose.bind fun args =>
    (forgets_expect _).bind fun _ => forgets_pure <| by
      cases args with
      | nil => rfl
      | cons arg args =>
        change _ = TypeExpr.applied .origin name.val (TypeExpr.unplacedAll (arg :: args))
        rw [TypeExpr.unplacedAll_eq_map]
        rfl

end

theorem forgets_typeExpr (depth : Nat) :
    Forgets TypeExpr.unplaced (typeExpr depth) (typeExpr depth) := by
  induction depth with
  | zero => exact forgets_throw_nil
  | succ depth ih =>
    refine forgets_here.bind fun start => forgets_peek.bind fun found => ?_
    dsimp only [id]
    split
    next => exact forgets_throw_nil
    next => exact forgets_advance.bind fun _ => forgets_pure rfl
    next => exact forgets_advance.bind fun _ => forgets_pure rfl
    next =>
      refine forgets_advance.bind fun _ => forgets_peek.bind fun found => ?_
      dsimp only [id]
      split
      next =>
        exact forgets_advance.bind fun _ => (forgets_arrowForm ih start).closing.bind fun _ =>
          forgets_pure rfl
      next =>
        exact forgets_advance.bind fun _ => (forgets_allForm ih start).closing.bind fun _ =>
          forgets_pure rfl
      next => exact forgets_namedForm ih start
    next => exact forgets_fail start _

/-! ## Expressions -/

def Param.unplaced (p : Param) : Param :=
  { p with span := .origin, type := p.type.map TypeExpr.unplaced }

def Argument.unplaced : Argument → Argument
  | expr e => expr e.unplaced
  | type t => type t.unplaced

theorem Forgets.annotated {β γ : Type} {h : β → γ} {type : Parser TypeExpr}
    {q : Option TypeExpr → Parser β} {q' : Option TypeExpr → Parser γ}
    (htype : Forgets TypeExpr.unplaced type type)
    (hq : ∀ t, Forgets h (q t) (q' (t.map TypeExpr.unplaced))) :
    Forgets h (annotated type q) (annotated type q') :=
  (forgets_accept _).bind fun _ => Forgets.ite (htype.bind fun t => hq (some t)) (hq none)

theorem forgets_bareParam : Forgets Param.unplaced bareParam bareParam :=
  forgets_symbol.bind fun _ => forgets_pure rfl

theorem forgets_annotationAhead : Forgets id annotationAhead annotationAhead := by
  rintro ⟨prev, _ | ⟨t, _ | ⟨⟨_, token⟩, _ | ⟨⟨_, token'⟩, rest⟩⟩⟩⟩
  · rfl
  · rfl
  · cases token <;> rfl
  · cases token <;> try rfl
    cases token' <;> rfl

theorem exprArguments?_unplaced (args : List Argument) :
    exprArguments? (args.map Argument.unplaced) =
      (exprArguments? args).map (List.map Expr.unplaced) := by
  induction args with
  | nil => rfl
  | cons arg args ih =>
    cases arg with
    | expr e =>
      rw [List.map_cons, Argument.unplaced, exprArguments?, ih, exprArguments?, Option.map_map,
        Option.map_map]
      rfl
    | type t => rfl

theorem unplaced_foldl_applyTo (span : Span) (head : Expr) (args : List Argument) :
    (args.foldl (applyTo span) head).unplaced =
      (args.map Argument.unplaced).foldl (applyTo .origin) head.unplaced := by
  induction args generalizing head with
  | nil => rfl
  | cons arg args ih =>
    rw [List.foldl_cons, ih, List.map_cons, List.foldl_cons]
    cases arg <;> rfl

theorem unplaced_application (start stop : Span) (head : Expr) (args : List Argument) :
    (application start stop head args).unplaced =
      application .origin .origin head.unplaced (args.map Argument.unplaced) := by
  unfold application
  rw [exprArguments?_unplaced]
  cases args with
  | nil => rfl
  | cons arg args =>
    have hfold := unplaced_foldl_applyTo (start.cover stop) head (arg :: args)
    cases head with
    | con span name given =>
      cases given with
      | nil =>
        cases exprArguments? (arg :: args) with
        | none => exact hfold
        | some fields => exact congrArg _ (Expr.unplacedAll_eq_map fields)
      | cons => exact hfold
    | _ => exact hfold

section

variable {type : Parser TypeExpr} {expr : Parser Expr}
  (htype : Forgets TypeExpr.unplaced type type) (hexpr : Forgets Expr.unplaced expr expr)
  (start : Span)

include htype in
theorem forgets_annotatedParam :
    Forgets Param.unplaced (annotatedParam type) (annotatedParam type) := by
  rw [annotatedParam_eq]
  exact (forgets_expect _).bind fun _ => forgets_symbol.bind fun _ => htype.annotated fun _ =>
    forgets_string?.bind fun _ => (forgets_expect _).bind fun _ => forgets_pure rfl

include htype in
theorem forgets_param : Forgets Param.unplaced (param type) (param type) :=
  forgets_peek.bind fun found => by
    dsimp only [id]
    split
    · exact forgets_bareParam
    · exact forgets_annotatedParam htype

include htype in
theorem forgets_params : Forgets (List.map Param.unplaced) (params type) (params type) :=
  forgets_peek.bind fun found => by
    dsimp only [id]
    split
    next => exact forgets_bareParam.bind fun _ => forgets_pure rfl
    next =>
      exact forgets_annotationAhead.bind fun _ =>
        Forgets.ite ((forgets_annotatedParam htype).bind fun _ => forgets_pure rfl)
          (forgets_param htype).untilClose.enclosed

include htype hexpr in
theorem forgets_lambdaForm :
    Forgets Expr.unplaced (lambdaForm type expr start) (lambdaForm type expr .origin) :=
  (forgets_params htype).bind fun parameters => by
    rw [List.isEmpty_map]
    refine Forgets.ite (forgets_fail start _) (hexpr.bind fun body =>
      forgets_previous.bind fun _ => forgets_pure ?_)
    exact (unplaced_foldr (h := Expr.unplaced) (fun _ _ => rfl) parameters body).symm

include hexpr in
theorem forgets_typeLambdaForm :
    Forgets Expr.unplaced (typeLambdaForm expr start) (typeLambdaForm expr .origin) :=
  forgets_typeVars.bind fun vars => Forgets.ite (forgets_fail start _) <|
    hexpr.bind fun body => forgets_previous.bind fun _ => forgets_pure <| by
      rw [unplaced_foldr (h := Expr.unplaced) (g := id) (fun _ _ => rfl), List.map_id]
      rfl

include hexpr in
theorem forgets_binding :
    Forgets (fun b : String × Expr => (b.1, b.2.unplaced)) (binding expr) (binding expr) :=
  Forgets.enclosed <| forgets_symbol.bind fun _ => hexpr.bind fun _ => forgets_pure rfl

include hexpr in
theorem forgets_letForm :
    Forgets Expr.unplaced (letForm expr start) (letForm expr .origin) :=
  (forgets_binding hexpr).untilClose.enclosed.bind fun bindings => hexpr.bind fun body =>
    forgets_previous.bind fun _ => forgets_pure
      (unplaced_foldr (h := Expr.unplaced) (fun _ _ => rfl) bindings body).symm

include htype hexpr in
theorem forgets_annForm :
    Forgets Expr.unplaced (annForm type expr start) (annForm type expr .origin) :=
  htype.bind fun _ => hexpr.bind fun _ => forgets_pure rfl

theorem forgets_patternVar : Forgets id patternVar patternVar :=
  forgets_symbol.bind fun name =>
    Forgets.ite (forgets_fail name.span _) (forgets_pure rfl)

theorem forgets_pattern : Forgets Pattern.unplaced pattern pattern :=
  forgets_here.bind fun start => (forgets_accept _).bind fun _ => Forgets.ite
    (forgets_symbol.bind fun _ => forgets_patternVar.untilClose.bind fun vars =>
      (forgets_expect _).bind fun _ => forgets_pure <| by
        rw [List.map_id]
        rfl)
    (forgets_symbol.bind fun _ => forgets_pure rfl)

include hexpr in
theorem forgets_branch : Forgets Branch.unplaced (branch expr) (branch expr) :=
  (forgets_expect _).bind fun _ => forgets_pattern.bind fun _ => hexpr.bind fun _ =>
    (forgets_expect _).bind fun _ => forgets_pure rfl

include hexpr in
theorem forgets_caseForm : Forgets Expr.unplaced (caseForm expr start) (caseForm expr .origin) :=
  hexpr.bind fun _ => (forgets_branch hexpr).untilClose.bind fun branches =>
    forgets_pure (congrArg _ (Expr.unplacedBranches_eq_map branches).symm)

include hexpr in
theorem forgets_toolForm : Forgets Expr.unplaced (toolForm expr start) (toolForm expr .origin) :=
  forgets_symbol.bind fun _ => hexpr.untilClose.bind fun args =>
    forgets_pure (congrArg _ (Expr.unplacedAll_eq_map args).symm)

include hexpr in
theorem forgets_operatorForm :
    Forgets Expr.unplaced (operatorForm expr start) (operatorForm expr .origin) :=
  forgets_symbol.bind fun name => hexpr.untilClose.bind fun args => by
    rw [List.length_map]
    exact Forgets.ite (forgets_pure (congrArg _ (Expr.unplacedAll_eq_map args).symm))
      (forgets_fail name.span _)

include htype hexpr in
theorem forgets_argument : Forgets Argument.unplaced (argument type expr) (argument type expr) :=
  (forgets_accept _).bind fun _ => Forgets.ite (htype.bind fun _ => forgets_pure rfl)
    (hexpr.bind fun _ => forgets_pure rfl)

include htype hexpr in
theorem forgets_applicationForm :
    Forgets Expr.unplaced (applicationForm type expr start) (applicationForm type expr .origin) :=
  hexpr.bind fun head => (forgets_argument htype hexpr).untilClose.bind fun args =>
    forgets_previous.bind fun stop => forgets_pure (unplaced_application start stop head args).symm

include htype hexpr in
theorem forgets_form : Forgets Expr.unplaced (form type expr start) (form type expr .origin) :=
  forgets_peek.bind fun found => by
    dsimp only [id]
    split
    next => exact forgets_advance.bind fun _ => forgets_lambdaForm htype hexpr start
    next => exact forgets_advance.bind fun _ => forgets_typeLambdaForm hexpr start
    next => exact forgets_advance.bind fun _ => forgets_letForm hexpr start
    next => exact forgets_advance.bind fun _ => forgets_annForm htype hexpr start
    next => exact forgets_advance.bind fun _ => forgets_caseForm hexpr start
    next => exact forgets_advance.bind fun _ => forgets_toolForm hexpr start
    next =>
      exact Forgets.ite (forgets_operatorForm hexpr start)
        (forgets_applicationForm htype hexpr start)
    next => exact forgets_applicationForm htype hexpr start

include htype hexpr in
theorem forgets_parenForm :
    Forgets Expr.unplaced (parenForm type expr start) (parenForm type expr .origin) :=
  forgets_here.bind fun next => (forgets_accept _).bind fun _ => Forgets.ite
    (forgets_fail (start.cover next) _)
    ((forgets_form htype hexpr start).closing.bind fun r =>
      forgets_pure (Expr.unplaced_withSpan r.1 _).symm)

end

theorem forgets_expr (depth : Nat) : Forgets Expr.unplaced (expr depth) (expr depth) := by
  induction depth with
  | zero => exact forgets_throw_nil
  | succ depth ih =>
    refine forgets_here.bind fun start => forgets_peek.bind fun found => ?_
    dsimp only [id]
    split
    next => exact forgets_throw_nil
    next => exact forgets_advance.bind fun _ => forgets_parenForm (forgets_typeExpr depth) ih start
    next => exact forgets_advance.bind fun _ => forgets_pure rfl
    next => exact forgets_advance.bind fun _ => forgets_pure rfl
    next =>
      refine forgets_advance.bind fun _ => forgets_pure ?_
      split <;> rfl
    next => exact forgets_fail start _

/-! ## Declarations -/

theorem head?_unplaced (ts : List (Located Token)) :
    ((ts.map Located.unplaced).head?.map Located.val) = ts.head?.map Located.val := by
  cases ts <;> rfl

theorem preambleFrom_unplaced (p : Preamble) (prev : Span) (ts : List (Located Token)) :
    preambleFrom p .origin (ts.map Located.unplaced) =
      ((preambleFrom p prev ts).1, (preambleFrom p prev ts).2.unplaced) := by
  fun_induction preambleFrom p prev ts with
  | case1 p prev span text rest hbody =>
    rw [List.map_cons, Located.unplaced, preambleFrom, head?_unplaced, if_pos hbody]
    rfl
  | case2 p prev span text rest hdoc ih =>
    rw [List.map_cons, Located.unplaced, preambleFrom, head?_unplaced, if_neg hdoc, ih]
  | case3 p prev span text rest key value hsplit ih =>
    rw [List.map_cons, Located.unplaced, preambleFrom, hsplit]
    exact ih
  | case4 p prev ts hstring hpragma =>
    obtain _ | ⟨⟨span, token⟩, rest⟩ := ts
    · rfl
    · cases token with
      | string text => exact absurd rfl (hstring span text rest)
      | pragma text => exact absurd rfl (hpragma span text rest)
      | _ => rfl

theorem forgets_preamble : Forgets id preamble preamble := fun s =>
  congrArg (fun r : Preamble × Input => EStateM.Result.ok r.1 r.2)
    (preambleFrom_unplaced ⟨none, .empty⟩ s.prev s.rest)

theorem forgets_definition (depth : Nat) (start : Span) :
    Forgets Definition.unplaced (definition depth start) (definition depth .origin) := by
  rw [definition_eq, definition_eq]
  exact forgets_symbol.bind fun _ => (forgets_typeExpr depth).annotated fun _ =>
    forgets_preamble.bind fun _ => (forgets_expr depth).bind fun _ => forgets_here.bind fun _ =>
      forgets_pure rfl

theorem forgets_constructor (depth : Nat) :
    Forgets Constructor.unplaced (constructor depth) (constructor depth) :=
  forgets_here.bind fun _ => (forgets_accept _).bind fun _ => Forgets.ite
    (forgets_symbol.bind fun _ => (forgets_typeExpr depth).untilClose.bind fun _ =>
      (forgets_expect _).bind fun _ => forgets_pure rfl)
    (forgets_symbol.bind fun _ => forgets_pure rfl)

theorem forgets_dataHead : Forgets id dataHead dataHead :=
  forgets_peek.bind fun _ => Forgets.ite
    (Forgets.enclosed <| forgets_symbol.bind fun _ => forgets_typeVar.untilClose.bind fun vars =>
      forgets_pure <| by
        rw [List.map_id]
        rfl)
    (forgets_symbol.bind fun _ => forgets_pure rfl)

theorem forgets_dataDecl (depth : Nat) (start : Span) :
    Forgets DataDecl.unplaced (dataDecl depth start) (dataDecl depth .origin) :=
  forgets_dataHead.bind fun _ => (forgets_constructor depth).untilClose.bind fun _ =>
    forgets_here.bind fun _ => forgets_pure rfl

theorem forgets_primTypeDecl (start : Span) :
    Forgets PrimTypeDecl.unplaced (primTypeDecl start) (primTypeDecl .origin) :=
  forgets_symbol.bind fun _ => forgets_here.bind fun _ => forgets_pure rfl

theorem forgets_primOpDecl (depth : Nat) (start : Span) :
    Forgets PrimOpDecl.unplaced (primOpDecl depth start) (primOpDecl depth .origin) :=
  forgets_symbol.bind fun _ => (forgets_expect _).bind fun _ =>
  (forgets_typeExpr depth).bind fun _ =>
    forgets_here.bind fun _ => forgets_pure rfl

theorem skipFrom_unplaced (depth : Nat) (prev : Span) (ts : List (Located Token)) :
    skipFrom depth .origin (ts.map Located.unplaced) = (skipFrom depth prev ts).unplaced := by
  fun_induction skipFrom depth prev ts with
  | case1 => rfl
  | case2 depth prev span rest ih => exact ih
  | case3 prev span rest => rfl
  | case4 prev span rest outer ih => exact ih
  | case5 depth prev span token rest hopen hclose ih =>
    cases token with
    | openParen => exact absurd rfl hopen
    | closeParen => exact absurd rfl hclose
    | _ => exact ih

theorem skipToClose_unplaced (s : Input) : skipToClose s.unplaced = (skipToClose s).unplaced :=
  skipFrom_unplaced 0 s.prev s.rest

theorem forgets_skipToClose : Forgets id (modify skipToClose) (modify skipToClose) := fun s =>
  congrArg (EStateM.Result.ok ()) (skipToClose_unplaced s)

theorem Forgets.closingDeclaration {α β : Type} {g : α → β} {p : Parser α} {q : Parser β}
    (hp : Forgets g p q) : Forgets g (closingDeclaration p) (closingDeclaration q) := fun s => by
  rw [Parser.closingDeclaration, hp s, Parser.closingDeclaration]
  cases p s with
  | ok a s' =>
    dsimp only [unplacedResult]
    rw [s'.next?_unplaced, s'.tail_unplaced, s'.here_unplaced, skipToClose_unplaced]
    split <;> rfl
  | error errors s' =>
    dsimp only [unplacedResult]
    rw [s'.next?_unplaced, s'.tail_unplaced, s'.here_unplaced, skipToClose_unplaced]
    split
    · rfl
    · dsimp only
      rw [List.map_append]
      rfl

theorem forgets_declarationForm (depth : Nat) (start : Span) :
    Forgets Declaration.unplaced (declarationForm depth start) (declarationForm depth .origin) :=
  forgets_here.bind fun span => forgets_peek.bind fun found => by
    dsimp only [id]
    split
    next =>
      exact forgets_advance.bind fun _ => Forgets.closingDeclaration <|
        (forgets_definition depth start).bind fun _ => forgets_pure rfl
    next =>
      exact forgets_advance.bind fun _ => Forgets.closingDeclaration <|
        (forgets_dataDecl depth start).bind fun _ => forgets_pure rfl
    next =>
      exact forgets_advance.bind fun _ => Forgets.closingDeclaration <|
        (forgets_primTypeDecl start).bind fun _ => forgets_pure rfl
    next =>
      exact forgets_advance.bind fun _ => Forgets.closingDeclaration <|
        (forgets_primOpDecl depth start).bind fun _ => forgets_pure rfl
    next => exact forgets_skipToClose.bind fun _ => forgets_fail span _

theorem forgets_declaration (depth : Nat) :
    Forgets Declaration.unplaced (declaration depth) (declaration depth) :=
  forgets_here.bind fun start => (forgets_accept _).bind fun _ => Forgets.ite
    (forgets_declarationForm depth start)
    (forgets_advance.bind fun _ => forgets_fail start _)

end Parser

namespace Parsed

theorem within_unplaced (depth n : Nat) (s : Input) :
    within depth n s.unplaced = (within depth n s).unplaced := by
  induction n generalizing s with
  | zero => rfl
  | succ n ih =>
    obtain ⟨prev, _ | ⟨t, rest⟩⟩ := s
    · rfl
    · have hread := Parser.forgets_declaration depth ⟨prev, t :: rest⟩
      rw [within, within]
      dsimp only [Input.unplaced, List.map_cons] at hread ⊢
      rw [hread]
      cases Parser.declaration depth ⟨prev, t :: rest⟩ with
      | ok d s' =>
        dsimp only [Parser.unplacedResult]
        rw [ih s']
        rfl
      | error errors s' =>
        dsimp only [Parser.unplacedResult]
        rw [ih s']
        exact congrArg (mk _) List.map_append.symm

/-- Tokens at no places are read as they are anywhere, up to places. -/
theorem ofTokens_unplaced (tokens : List (Located Token)) :
    ofTokens (tokens.map Located.unplaced) = (ofTokens tokens).unplaced := by
  rw [ofTokens, List.length_map]
  exact within_unplaced _ _ ⟨.origin, tokens⟩

end Parsed

end PolyLambda.Surface
