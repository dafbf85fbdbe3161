import PolyLambda.Proofs.Surface.TypeExpr

/-!
# Reading expressions accepts the expressions

As for types, each parser accepts what the grammar says it should (`accepts_expr`). Three places
need more than the composition of rules: a single parameter with a type and several parameters both
begin with a parenthesis, and the parser looks two tokens further (`accepts_params`); an optional
type or string is told from what follows by its first token (`AcceptsUpTo.annotated`); and an
application is what does not begin with a keyword or an operator (`accepts_form`).
-/

namespace PolyLambda.Surface.Parser

open Grammar

variable {α β : Type} {n : Nat} {follow : Input → Prop}

/-! ## Parts of several forms -/

/-- Reads a name and parts behind it, in parentheses. -/
def group (part : Parser α) (f : Span → String → List α → β) : Parser β := do
  let o ← expect .openParen
  let name ← symbol
  let as ← untilClose part
  let c ← expect .closeParen
  return f (o.cover c) name.val as

/-- Reads a name alone. -/
def alone (f : Span → String → List α → β) : Parser β := do
  let name ← symbol
  return f name.span name.val []

theorem accepts_headed {part : Parser α} {P : Phrases α} {p : Parser β}
    {f : Span → String → List α → β} (hp : Chooses (· = .openParen) p (group part f) (alone f))
    (hpart : Accepts n part P) (hP : Proper P) : Accepts n p (Headed P f) := by
  have hgroup := (accepts_expect (n := n) .openParen).bind fun o =>
    accepts_symbol.bind fun name => (hpart.untilClose hP).close
      fun as c => f (o.cover c) name.val as
  have halone := (accepts_symbol (n := n)).map fun name => f name.span name.val []
  refine (AcceptsUpTo.choice hp hgroup halone ?_ ?_).congr fun _ ts b => ?_
  · rintro _ _ _ ⟨⟨⟩, -⟩
    exact ⟨_, _, rfl, rfl⟩
  · rintro _ _ _ ⟨_, ⟨⟩, rfl⟩
    exact ⟨_, _, rfl, by rintro ⟨⟩⟩
  · constructor
    · rintro (_ | ⟨h⟩)
      · exact .inr ⟨_, .mk, rfl⟩
      · exact .inl (then_token (then_symbol (.mk h)))
    · rintro (⟨⟨⟩, ⟨⟩, ⟨h⟩⟩ | ⟨_, ⟨⟩, rfl⟩)
      · exact .group h
      · exact .alone

theorem proper_headed {P : Phrases α} {f : Span → String → List α → β} : Proper (Headed P f) := by
  rintro _ _ (_ | _)
  all_goals exact ⟨_, _, rfl, by rintro ⟨⟩⟩

/-- Reads a type behind a colon if there is one, and goes on with it. -/
def annotated (type : Parser TypeExpr) (q : Option TypeExpr → Parser β) : Parser β :=
  accept .colon >>= fun b => if b = true then type >>= fun t => q (some t) else q none

theorem chooses_annotated {type : Parser TypeExpr} {q : Option TypeExpr → Parser β} :
    Chooses (· = .colon) (annotated type q)
      (expect .colon >>= fun _ => type >>= fun t => q (some t)) (q none) :=
  chooses_of_eq (fun _ _ _ => rfl) fun _ hs => accept_bind_of_not_next hs

theorem AcceptsUpTo.annotated {type : Parser TypeExpr} {q : Option TypeExpr → Parser β}
    {Q : Option TypeExpr → Span → Phrases β} (htype : Accepts n type IsType)
    (hq : ∀ t, AcceptsUpTo follow n (q t) (Q t)) (hnone : ∀ c, Begins (· ≠ .colon) (Q none c)) :
    AcceptsUpTo follow n (annotated type q) fun c => Then IsAnnotation fun t => Q t c := by
  have hcolon := (accepts_expect (n := n) .colon).bind fun _ => htype.bind fun t => hq (some t)
  refine (AcceptsUpTo.choice chooses_annotated hcolon (hq none) ?_ hnone).congr fun c ts b => ?_
  · rintro _ _ _ ⟨⟨⟩, -⟩
    exact ⟨_, _, rfl, by simp⟩
  · constructor
    · rintro ⟨_ | h, hQ⟩
      · exact .inr hQ
      · exact .inl (then_token (.mk h hQ))
    · rintro (@⟨_, _, k, _, ⟨⟩, ⟨h, hQ⟩⟩ | h)
      · have hthen : Then IsAnnotation (fun t => Q t c) _ b := .mk (.some (k := k) h) hQ
        exact hthen
      · exact Then.mk IsAnnotation.none h

theorem acceptsInside_string? : AcceptsInside n string? fun _ => IsDoc := by
  intro s _ doc s' hclose
  by_cases htext : ∃ span text rest, s.rest = ⟨span, .string text⟩ :: rest
  · obtain ⟨prev, rest⟩ := s
    obtain ⟨span, text, rest, ⟨⟩⟩ := htext
    constructor
    · rintro ⟨⟩
      exact ⟨_, ⟨rfl, rfl⟩, .some⟩
    · rintro ⟨ts, hreads, hdoc⟩
      cases hdoc with
      | none =>
        rw [Input.reads_nil_iff.1 hreads] at hclose
        cases hclose
      | some =>
        obtain ⟨⟨⟩, hnil⟩ := Input.reads_cons_iff.1 hreads
        rw [Input.reads_nil_iff.1 hnil]
        rfl
  · have hnone : string? s = .ok none s := by
      obtain ⟨prev, _ | ⟨⟨span, token⟩, rest⟩⟩ := s
      · rfl
      · cases token with
        | string text => exact absurd ⟨_, _, _, rfl⟩ htext
        | _ => rfl
    rw [hnone]
    constructor
    · rintro ⟨⟩
      exact ⟨_, Input.reads_nil_iff.2 rfl, .none⟩
    · rintro ⟨_, hreads, _ | _⟩
      · rw [Input.reads_nil_iff.1 hreads]
      · exact absurd ⟨_, _, _, hreads.rest⟩ htext

theorem accepts_bareParam : Accepts n bareParam IsBareParam := by
  refine (accepts_symbol.map fun name => Param.mk name.span name.val none none).congr
    fun _ ts p => ?_
  constructor
  · rintro ⟨⟩
    exact ⟨_, .mk, rfl⟩
  · rintro ⟨_, ⟨⟩, rfl⟩
    exact .mk

section

variable {type : Parser TypeExpr} (htype : Accepts n type IsType)

theorem annotatedParam_eq : annotatedParam type = (do
    let o ← expect .openParen
    let name ← symbol
    annotated type fun t => do
      let doc ← string?
      let c ← expect .closeParen
      return ⟨o.cover c, name.val, t, doc⟩) := rfl

include htype in
theorem accepts_annotatedParam : Accepts n (annotatedParam type) IsAnnotatedParam := by
  have htail (o : Span) (name : Located String) :=
    AcceptsUpTo.annotated htype (fun t => acceptsInside_string?.close
      fun doc c => Param.mk (o.cover c) name.val t doc) ?_
  · rw [annotatedParam_eq]
    refine ((accepts_expect .openParen).bind fun o => accepts_symbol.bind fun name =>
      htail o name).congr fun _ ts p => ?_
    constructor
    · rintro ⟨htype, hdoc⟩
      refine then_token (then_symbol ?_)
      simpa only [List.append_eq, List.append_assoc] using Then.mk htype (Closed.mk hdoc)
    · rintro ⟨⟨⟩, ⟨⟩, htype, ⟨hdoc⟩⟩
      simpa only [parens, List.cons_append, List.nil_append, List.append_assoc] using
        IsAnnotatedParam.mk htype hdoc
  · rintro _ _ _ ⟨_ | _⟩
    · exact ⟨_, _, rfl, by simp⟩
    · exact ⟨_, _, rfl, by simp⟩

theorem begins_isBareParam : Begins (∃ name, · = .symbol name) IsBareParam := by
  rintro _ _ ⟨⟩
  exact ⟨_, _, rfl, _, rfl⟩

theorem begins_isAnnotatedParam : Begins (· = .openParen) IsAnnotatedParam := by
  rintro _ _ ⟨⟩
  exact ⟨_, _, rfl, rfl⟩

theorem chooses_param : Chooses (∃ name, · = .symbol name) (param type) bareParam
    (annotatedParam type) where
  of_first := by
    rintro ⟨prev, rest⟩ _ hs ⟨name, rfl⟩
    obtain ⟨span, rest, ⟨⟩⟩ := Input.next?_eq_some_iff.1 hs
    rfl
  otherwise := by
    intro s hs
    have hnot : ∀ name, s.next? ≠ some (.symbol name) := fun name h => hs _ h ⟨name, rfl⟩
    simp only [param, peek_bind]

include htype in
theorem accepts_param : Accepts n (param type) IsParam := by
  refine (AcceptsUpTo.choice chooses_param accepts_bareParam (accepts_annotatedParam htype)
    (fun _ => begins_isBareParam) ?_).congr fun _ ts p => ?_
  · intro _ ts p h
    obtain ⟨t, us, rfl, ht⟩ := begins_isAnnotatedParam ts p h
    exact ⟨t, us, rfl, by rw [ht]; rintro ⟨_, ⟨⟩⟩⟩
  · constructor
    · rintro (h | h)
      · exact .inl h
      · exact .inr h
    · rintro (h | h)
      · exact .bare h
      · exact .annotated h

theorem proper_isParam : Proper IsParam := by
  rintro _ _ (⟨⟨⟩⟩ | ⟨⟨-, -⟩⟩)
  · exact ⟨_, _, rfl, by rintro ⟨⟩⟩
  · exact ⟨_, _, rfl, by rintro ⟨⟩⟩

/-- Behind the next token there are a name and a colon. -/
def Ahead (ts : Tokens) : Prop :=
  ∃ t k name l us, ts = t :: ⟨k, .symbol name⟩ :: ⟨l, .colon⟩ :: us

theorem annotationAhead_bind_of_ahead {q : Bool → Parser α} {s : Input} (h : Ahead s.rest) :
    (annotationAhead >>= q) s = q true s := by
  obtain ⟨prev, rest⟩ := s
  obtain ⟨t, k, name, l, us, ⟨⟩⟩ := h
  rfl

theorem annotationAhead_bind_of_not_ahead {q : Bool → Parser α} {s : Input} (h : ¬ Ahead s.rest) :
    (annotationAhead >>= q) s = q false s := by
  have hrun : annotationAhead s = .ok false s := by
    obtain ⟨prev, _ | ⟨t, _ | ⟨⟨k, token⟩, us⟩⟩⟩ := s
    · rfl
    · rfl
    · cases token with
      | symbol name =>
        obtain _ | ⟨⟨l, token⟩, us⟩ := us
        · rfl
        · cases token with
          | colon => exact absurd ⟨t, k, name, l, us, rfl⟩ h
          | _ => rfl
      | _ => rfl
  change annotationAhead.bind q s = _
  rw [EStateM.bind, hrun]

theorem type_ne_none_iff {ts rest : Tokens} {p : Param} (h : IsAnnotatedParam ts p)
    (hts : ts <+: rest) : p.type ≠ none ↔ Ahead rest := by
  obtain ⟨us, rfl⟩ := hts
  obtain ⟨_ | _, hdoc⟩ := h
  · refine iff_of_false (fun hne => hne rfl) ?_
    obtain _ | _ := hdoc
    · rintro ⟨_, _, _, _, _, ⟨⟩⟩
    · rintro ⟨_, _, _, _, _, ⟨⟩⟩
  · exact iff_of_true nofun ⟨_, _, _, _, _, rfl⟩

/-- Several parameters do not begin with a name and a colon. -/
theorem not_ahead_of_each {ts us : Tokens} {ps : List Param} {o c : Span}
    (h : Each IsParam ts ps) : ¬ Ahead (parens o c ts ++ us) := by
  obtain _ | ⟨hfirst, hothers⟩ := h
  · rintro ⟨_, _, _, _, _, ⟨⟩⟩
  · obtain ⟨⟨⟩⟩ | ⟨⟨-, -⟩⟩ := hfirst
    · obtain _ | ⟨hnext, -⟩ := hothers
      · rintro ⟨_, _, _, _, _, ⟨⟩⟩
      · obtain ⟨⟨⟩⟩ | ⟨⟨-, -⟩⟩ := hnext
        · rintro ⟨_, _, _, _, _, ⟨⟩⟩
        · rintro ⟨_, _, _, _, _, ⟨⟩⟩
    · rintro ⟨_, _, _, _, _, ⟨⟩⟩

theorem params_of_symbol {s : Input} {name : String} (h : s.next? = some (.symbol name)) :
    params type s = (bareParam >>= fun p => pure [p]) s := by
  simp only [params, peek_bind, h]

theorem params_of_ahead {s : Input} (hnot : ∀ name, s.next? ≠ some (.symbol name))
    (h : Ahead s.rest) : params type s = (annotatedParam type >>= fun p => pure [p]) s := by
  simp only [params, peek_bind, annotationAhead_bind_of_ahead h]
  rfl

theorem params_of_not_ahead {s : Input} (hnot : ∀ name, s.next? ≠ some (.symbol name))
    (h : ¬ Ahead s.rest) : params type s = enclosed (untilClose (param type)) s := by
  simp only [params, peek_bind, annotationAhead_bind_of_not_ahead h]
  rfl

include htype in
theorem accepts_params : Accepts n (params type) IsParams := by
  intro s hs
  by_cases hbare : ∃ name, s.next? = some (.symbol name)
  · obtain ⟨name, hname⟩ := hbare
    refine acceptsAt_of_eq (params_of_symbol hname) (accepts_bareParam.map (fun p => [p]) s hs)
      fun _ ts ps hts => ⟨?_, ?_⟩
    · rintro (h | ⟨⟨-, -⟩⟩ | -)
      · exact ⟨_, h, rfl⟩
      · cases hname.symm.trans (Input.next?_of_prefix hts)
      · cases hname.symm.trans (Input.next?_of_prefix hts)
    · rintro ⟨p, h, rfl⟩
      exact .bare h
  have hnot : ∀ name, s.next? ≠ some (.symbol name) := fun name h => hbare ⟨name, h⟩
  by_cases hahead : Ahead s.rest
  · refine acceptsAt_of_eq (params_of_ahead hnot hahead)
      ((accepts_annotatedParam htype).map (fun p => [p]) s hs) fun _ ts ps hts => ⟨?_, ?_⟩
    · rintro (⟨⟨⟩⟩ | ⟨h, -⟩ | h)
      · exact absurd (Input.next?_of_prefix hts) (hnot _)
      · exact ⟨_, h, rfl⟩
      · obtain ⟨us, hus⟩ := hts
        exact absurd (hus ▸ hahead) (not_ahead_of_each h)
    · rintro ⟨p, h, rfl⟩
      exact .annotated h ((type_ne_none_iff h hts).2 hahead)
  · refine acceptsAt_of_eq (params_of_not_ahead hnot hahead)
      (((accepts_param htype).untilClose proper_isParam).enclosed s hs)
      fun _ ts ps hts => ⟨?_, ?_⟩
    · rintro (⟨⟨⟩⟩ | ⟨h, htype⟩ | h)
      · exact absurd (Input.next?_of_prefix hts) (hnot _)
      · exact absurd ((type_ne_none_iff h hts).1 htype) hahead
      · exact ⟨h⟩
    · rintro ⟨h⟩
      exact .many h

end

/-! ## Forms -/

/-- The tokens that expressions begin with. -/
def beginsExpr : Token → Bool
  | .openParen | .int _ | .string _ | .symbol _ => true
  | _ => false

theorem begins_isExpr : Begins (beginsExpr · = true) IsExpr := by
  rintro _ _ (_ | _ | _ | _ | _)
  all_goals exact ⟨_, _, rfl, rfl⟩

theorem proper_isExpr : Proper IsExpr :=
  begins_isExpr.imp (by rintro _ h rfl; cases h)

theorem AcceptsUpTo.unlessEmpty {as : List α} {q : Parser β} {Q : Span → Phrases β} {span : Span}
    {cause : ParseError.Cause} (hq : AcceptsUpTo follow n q Q) :
    AcceptsUpTo follow n (if as.isEmpty = true then fail span cause else q) fun c ts b =>
      as ≠ [] ∧ Q c ts b := by
  cases as with
  | nil => exact acceptsUpTo_fail fun _ _ _ h => absurd rfl h.1
  | cons a as => exact hq.congr fun _ _ _ => and_iff_right (List.cons_ne_nil a as)

section

variable {type : Parser TypeExpr} (htype : Accepts n type IsType) {expr : Parser Expr}
  (hexpr : Accepts n expr IsExpr) (o : Span)

include htype hexpr in
theorem accepts_lambdaForm : Accepts n (lambdaForm type expr o) (IsLambda IsExpr) := by
  refine ((accepts_params htype).bind fun params => AcceptsUpTo.unlessEmpty <|
    hexpr.previous proper_isExpr fun body stop => params.foldr
      (fun p e => Expr.lam (p.span.cover stop) p.name p.type p.doc e) body).congr fun _ ts e => ?_
  constructor
  · rintro ⟨hparams, hne, hbody⟩
    exact .mk hparams ⟨hne, .mk hbody⟩
  · rintro ⟨hparams, hne, ⟨hbody⟩⟩
    exact .mk hparams hne hbody

include hexpr in
theorem accepts_typeLambdaForm : Accepts n (typeLambdaForm expr o) (IsTypeLambda IsExpr o) := by
  refine (accepts_typeVars.bind fun vars => AcceptsUpTo.unlessEmpty <|
    hexpr.previous proper_isExpr fun body stop =>
      vars.foldr (Expr.tlam (o.cover stop)) body).congr fun _ ts e => ?_
  constructor
  · rintro ⟨hvars, hne, hbody⟩
    exact .mk hvars ⟨hne, .mk hbody⟩
  · rintro ⟨hvars, hne, ⟨hbody⟩⟩
    exact .mk hvars hne hbody

include hexpr in
theorem accepts_binding : Accepts n (binding expr) (IsBinding IsExpr) := by
  refine (Accepts.inside (accepts_symbol.bind fun name => hexpr.map fun value =>
    (name.val, value))).enclosed.congr fun _ ts b => ?_
  constructor
  · rintro ⟨h⟩
    exact .mk (then_symbol ⟨_, h, rfl⟩)
  · rintro ⟨⟨⟩, _, h, rfl⟩
    exact .mk h

theorem proper_isBinding : Proper (IsBinding IsExpr) := by
  rintro _ _ ⟨-⟩
  exact ⟨_, _, rfl, by rintro ⟨⟩⟩

include hexpr in
theorem accepts_letForm : Accepts n (letForm expr o) (IsLet IsExpr o) := by
  refine (((accepts_binding hexpr).untilClose proper_isBinding).enclosed.bind fun bindings =>
    hexpr.previous proper_isExpr fun body stop =>
      bindings.foldr (fun b e => Expr.letIn (o.cover stop) b.1 b.2 e) body).congr fun _ ts e => ?_
  constructor
  · rintro ⟨hbindings, hbody⟩
    exact .mk (.mk hbindings) (.mk hbody)
  · rintro ⟨⟨hbindings⟩, ⟨hbody⟩⟩
    exact .mk hbindings hbody

include htype hexpr in
theorem accepts_annForm : Accepts n (annForm type expr o) (IsAnn IsExpr o) := by
  refine (htype.bind fun t => hexpr.map fun e => Expr.ann o t e).congr fun _ ts e => ?_
  constructor
  · rintro ⟨ht, he⟩
    exact .mk ht ⟨_, he, rfl⟩
  · rintro ⟨ht, _, he, rfl⟩
    exact .mk ht he

theorem accepts_patternVar : Accepts n patternVar IsPatternVar := by
  have hname (name : Located String) : Accepts n
      (if isConstructorName name.val = true then fail name.span (.nestedPattern name.val)
        else pure name.val) fun ts x => isConstructorName name.val = false ∧
          Empty name.val ts x := by
    split
    next h =>
      refine acceptsUpTo_fail ?_
      rintro _ _ _ ⟨hfalse, -⟩
      exact absurd h (Bool.eq_false_iff.1 hfalse)
    next h =>
      exact (accepts_pure name.val).congr fun _ _ _ => and_iff_right (Bool.eq_false_iff.2 h)
  refine (accepts_symbol.bind hname).congr fun _ ts x => ?_
  constructor
  · rintro ⟨h⟩
    exact then_symbol ⟨h, .mk⟩
  · rintro ⟨⟨⟩, h, ⟨⟩⟩
    exact .mk h

theorem proper_isPatternVar : Proper IsPatternVar := by
  rintro _ _ ⟨-⟩
  exact ⟨_, _, rfl, by rintro ⟨⟩⟩

theorem chooses_pattern : Chooses (· = .openParen) pattern (group patternVar Pattern.mk)
    (alone Pattern.mk) :=
  chooses_of_eq (fun _ _ _ => rfl) fun _ hs => accept_bind_of_not_next hs

theorem accepts_pattern : Accepts n pattern IsPattern :=
  accepts_headed chooses_pattern accepts_patternVar proper_isPatternVar

include hexpr in
theorem accepts_branch : Accepts n (branch expr) (IsBranch IsExpr) := by
  refine ((accepts_expect .openParen).bind fun o => accepts_pattern.bind fun p =>
    hexpr.inside.close fun body c => Branch.mk (o.cover c) p body).congr fun _ ts b => ?_
  constructor
  · rintro ⟨hp, hbody⟩
    refine then_token ?_
    simpa only [List.append_eq, List.append_assoc] using Then.mk hp (Closed.mk hbody)
  · rintro ⟨⟨⟩, hp, ⟨hbody⟩⟩
    simpa only [parens, List.cons_append, List.nil_append, List.append_assoc] using
      IsBranch.mk hp hbody

theorem proper_isBranch : Proper (IsBranch IsExpr) := by
  rintro _ _ ⟨-, -⟩
  exact ⟨_, _, rfl, by rintro ⟨⟩⟩

include hexpr in
theorem accepts_caseForm : AcceptsInside n (caseForm expr o) fun _ => IsCase IsExpr o := by
  refine (hexpr.bind fun scrutinee => ((accepts_branch hexpr).untilClose proper_isBranch).map
    fun branches => Expr.case o scrutinee branches).congr fun _ ts e => ?_
  constructor
  · rintro ⟨hscrutinee, hbranches⟩
    exact .mk hscrutinee ⟨_, hbranches, rfl⟩
  · rintro ⟨hscrutinee, _, hbranches, rfl⟩
    exact .mk hscrutinee hbranches

include hexpr in
theorem accepts_toolForm : AcceptsInside n (toolForm expr o) fun _ => IsTool IsExpr o := by
  refine (accepts_symbol.bind fun name => (hexpr.untilClose proper_isExpr).map
    fun args => Expr.tool o name.val args).congr fun _ ts e => ?_
  constructor
  · rintro ⟨hargs⟩
    exact then_symbol ⟨_, hargs, rfl⟩
  · rintro ⟨⟨⟩, _, hargs, rfl⟩
    exact .mk hargs

include hexpr in
theorem accepts_operatorForm :
    AcceptsInside n (operatorForm expr o) fun _ => IsOperation IsExpr o := by
  refine (accepts_symbol.bind fun name => (hexpr.untilClose proper_isExpr).finish
    (F := fun args _ e => (Operator.primitive? name.val args.length).isSome = true ∧
      e = .op o name.val args) fun args s e s' => ?_).congr fun _ ts e => ?_
  · split
    next h =>
      constructor
      · rintro ⟨⟩
        exact ⟨rfl, h, rfl⟩
      · rintro ⟨rfl, -, rfl⟩
        rfl
    next h =>
      constructor
      · rintro ⟨⟩
      · rintro ⟨-, h', -⟩
        exact absurd h' h
  · constructor
    · rintro ⟨hargs, hcount⟩
      exact then_symbol ⟨_, hargs, hcount, rfl⟩
    · rintro ⟨⟨⟩, _, hargs, hcount, rfl⟩
      exact .mk hargs hcount

theorem chooses_argument : Chooses (· = .atSign) (argument type expr)
    (expect .atSign >>= fun _ => type >>= fun t => pure (.type t))
    (expr >>= fun e => pure (.expr e)) :=
  chooses_of_eq (fun _ _ _ => rfl) fun _ hs => accept_bind_of_not_next hs

include htype hexpr in
theorem accepts_argument : Accepts n (argument type expr) (IsArgument IsExpr) := by
  have htypeArg := (accepts_expect (n := n) .atSign).bind fun _ => htype.map Argument.type
  refine (AcceptsUpTo.choice chooses_argument htypeArg (hexpr.map Argument.expr) ?_ ?_).congr
    fun _ ts a => ?_
  · rintro _ _ _ ⟨⟨⟩, -⟩
    exact ⟨_, _, rfl, rfl⟩
  · rintro _ ts _ ⟨e, he, rfl⟩
    obtain ⟨t, us, rfl, ht⟩ := begins_isExpr ts e he
    exact ⟨t, us, rfl, by rintro h; rw [h] at ht; cases ht⟩
  · constructor
    · rintro (h | h)
      · exact .inr ⟨_, h, rfl⟩
      · exact .inl (then_token ⟨_, h, rfl⟩)
    · rintro (⟨⟨⟩, _, h, rfl⟩ | ⟨_, h, rfl⟩)
      · exact .type h
      · exact .expr h

theorem proper_isArgument : Proper (IsArgument IsExpr) := by
  rintro _ _ (h | -)
  · exact proper_isExpr _ _ h
  · exact ⟨_, _, rfl, by rintro ⟨⟩⟩

/-- An expression and its arguments, whichever token it begins with. -/
inductive IsApplied : Phrases (Expr × List Argument)
  | mk {ts us : Tokens} {head : Expr} {args : List Argument} : IsExpr ts head →
      Each (IsArgument IsExpr) us args → IsApplied (ts ++ us) (head, args)

theorem begins_isApplied : Begins (beginsExpr · = true) IsApplied := by
  rintro _ _ ⟨hhead, -⟩
  obtain ⟨t, us, rfl, ht⟩ := begins_isExpr _ _ hhead
  exact ⟨_, _, rfl, ht⟩

include htype hexpr in
theorem accepts_applicationForm : AcceptsInside n (applicationForm type expr o) fun _ =>
    Placed (fun r stop => application o stop r.1 r.2) IsApplied := by
  have hparts : AcceptsInside n
      (expr >>= fun head => untilClose (argument type expr) >>= fun args => pure (head, args))
      fun _ => IsApplied := by
    refine (hexpr.bind fun head => ((accepts_argument htype hexpr).untilClose
      proper_isArgument).map fun args => (head, args)).congr fun _ ts r => ?_
    constructor
    · rintro ⟨hhead, hargs⟩
      exact .mk hhead ⟨_, hargs, rfl⟩
    · rintro ⟨hhead, _, hargs, rfl⟩
      exact .mk hhead hargs
  have heq : applicationForm type expr o =
      ((expr >>= fun head => untilClose (argument type expr) >>= fun args => pure (head, args)) >>=
        fun r => previous >>= fun stop => pure (application o stop r.1 r.2)) := by
    simp only [applicationForm, bind_assoc, pure_bind]
  rw [heq]
  exact hparts.previous (begins_isApplied.imp (by rintro _ h rfl; cases h)) _

end

/-! ## All forms -/

theorem isOperator_eq_false_of_mem {name : String} (h : name ∈ keywords) :
    Operator.isOperator name = false := by
  revert name
  decide

variable {o : Span} {ts : Tokens} {e : Expr}

theorem begins_isForm : Begins (beginsExpr · = true) (IsForm IsExpr o) := by
  rintro _ _ (_ | _ | _ | _ | _ | _ | ⟨-, -⟩ | ⟨-, hhead, -⟩)
  case app =>
    obtain ⟨t, us, rfl, ht⟩ := begins_isExpr _ _ hhead
    exact ⟨_, _, rfl, ht⟩
  all_goals exact ⟨_, _, rfl, rfl⟩

theorem not_isForm_nil : ¬ IsForm IsExpr o [] e := by
  intro h
  obtain ⟨_, _, ⟨⟩, -⟩ := begins_isForm _ _ h

theorem isForm_keyword {k : Span} {name : String} (h : IsForm IsExpr o (⟨k, .symbol name⟩ :: ts) e)
    (hname : name ∈ keywords) :
    name = "fn" ∧ IsLambda IsExpr ts e ∨ name = "tfn" ∧ IsTypeLambda IsExpr o ts e ∨
      name = "let" ∧ IsLet IsExpr o ts e ∨ name = "ann" ∧ IsAnn IsExpr o ts e ∨
      name = "case" ∧ IsCase IsExpr o ts e ∨ name = "tool" ∧ IsTool IsExpr o ts e := by
  generalize hws : (⟨k, .symbol name⟩ :: ts : Tokens) = ws at h
  obtain h | h | h | h | h | h | ⟨-, hcount⟩ | ⟨hfree, hhead, -⟩ := h
  · cases hws
    exact .inl ⟨rfl, h⟩
  · cases hws
    exact .inr (.inl ⟨rfl, h⟩)
  · cases hws
    exact .inr (.inr (.inl ⟨rfl, h⟩))
  · cases hws
    exact .inr (.inr (.inr (.inl ⟨rfl, h⟩)))
  · cases hws
    exact .inr (.inr (.inr (.inr (.inl ⟨rfl, h⟩))))
  · cases hws
    exact .inr (.inr (.inr (.inr (.inr ⟨rfl, h⟩))))
  · cases hws
    obtain ⟨p, hp⟩ := Option.isSome_iff_exists.1 hcount
    cases (isOperator_eq_false_of_mem hname).symm.trans (Operator.isOperator_of_primitive? hp)
  · obtain ⟨t, us, rfl, -⟩ := begins_isExpr _ _ hhead
    cases hws
    exact absurd ⟨k, name, rfl, .inl hname⟩ hfree

theorem isForm_not_keyword {s : Input} (h : IsForm IsExpr o ts e) (hts : ts <+: s.rest)
    (hnot : ∀ name ∈ keywords, s.next? ≠ some (.symbol name)) :
    IsOperation IsExpr o ts e ∨ IsApplication IsExpr o ts e := by
  have hnext {name : String} {k : Span} {us : Tokens} (hts : ⟨k, .symbol name⟩ :: us <+: s.rest) :
      name ∉ keywords := fun hname => hnot name hname (Input.next?_of_prefix hts)
  obtain h | h | h | h | h | h | h | h := h
  · exact absurd (by decide) (hnext hts)
  · exact absurd (by decide) (hnext hts)
  · exact absurd (by decide) (hnext hts)
  · exact absurd (by decide) (hnext hts)
  · exact absurd (by decide) (hnext hts)
  · exact absurd (by decide) (hnext hts)
  · exact .inl h
  · exact .inr h

section

variable {type : Parser TypeExpr} (htype : Accepts n type IsType) {expr : Parser Expr}
  (hexpr : Accepts n expr IsExpr)

theorem form_of_operator {s : Input} {name : String} (hname : s.next? = some (.symbol name))
    (hkey : name ∉ keywords) (hop : Operator.isOperator name = true) :
    form type expr o s = operatorForm expr o s := by
  simp only [keywords, List.mem_cons, not_or] at hkey
  obtain ⟨hfn, htfn, hlet, hann, hcase, htool, -⟩ := hkey
  simp only [form, peek_bind, hname, hop]
  rfl

theorem form_of_not_symbol {s : Input}
    (hkey : ¬ ∃ name, s.next? = some (.symbol name) ∧ name ∈ keywords)
    (hop : ¬ ∃ name, s.next? = some (.symbol name) ∧ Operator.isOperator name = true) :
    form type expr o s = applicationForm type expr o s := by
  by_cases hsymbol : ∃ name, s.next? = some (.symbol name)
  · obtain ⟨name, hname⟩ := hsymbol
    have hkey : name ∉ keywords := fun h => hkey ⟨name, hname, h⟩
    simp only [keywords, List.mem_cons, not_or] at hkey
    obtain ⟨hfn, htfn, hlet, hann, hcase, htool, -⟩ := hkey
    simp only [form, peek_bind, hname]
    rw [if_neg fun h => hop ⟨name, hname, h⟩]
  · obtain ⟨prev, _ | ⟨⟨span, token⟩, rest⟩⟩ := s
    · rfl
    · cases token with
      | symbol name => exact absurd ⟨name, rfl⟩ hsymbol
      | _ => rfl

include htype hexpr in
theorem accepts_form : AcceptsInside n (form type expr o) fun _ => IsForm IsExpr o := by
  intro s hs
  -- The first token decides: a keyword or an operator has its own form, all else is applied.
  by_cases hkey : ∃ name, s.next? = some (.symbol name) ∧ name ∈ keywords
  · obtain ⟨prev, rest⟩ := s
    obtain ⟨name, hname, hkey⟩ := hkey
    obtain ⟨k, rest, ⟨⟩⟩ := Input.next?_eq_some_iff.1 hname
    have hle : rest.length ≤ n := Nat.le_of_succ_le hs
    have hnil : ∀ (_ : Span) e, ¬ IsForm IsExpr o [] e := fun _ _ => not_isForm_nil
    have hform := hkey
    simp only [keywords, List.mem_cons, List.not_mem_nil, or_false] at hform
    obtain rfl | rfl | rfl | rfl | rfl | rfl := hform
    · refine acceptsAt_of_next hnil rfl ((accepts_lambdaForm htype hexpr o).inside ⟨k, rest⟩ hle)
        fun _ ts e => ⟨fun h => ?_, .lambda⟩
      simpa using isForm_keyword h hkey
    · refine acceptsAt_of_next hnil rfl ((accepts_typeLambdaForm hexpr o).inside ⟨k, rest⟩ hle)
        fun _ ts e => ⟨fun h => ?_, .typeLambda⟩
      simpa using isForm_keyword h hkey
    · refine acceptsAt_of_next hnil rfl ((accepts_letForm hexpr o).inside ⟨k, rest⟩ hle)
        fun _ ts e => ⟨fun h => ?_, .letIn⟩
      simpa using isForm_keyword h hkey
    · refine acceptsAt_of_next hnil rfl ((accepts_annForm htype hexpr o).inside ⟨k, rest⟩ hle)
        fun _ ts e => ⟨fun h => ?_, .ann⟩
      simpa using isForm_keyword h hkey
    · refine acceptsAt_of_next hnil rfl (accepts_caseForm hexpr o ⟨k, rest⟩ hle)
        fun _ ts e => ⟨fun h => ?_, .case⟩
      simpa using isForm_keyword h hkey
    · refine acceptsAt_of_next hnil rfl (accepts_toolForm hexpr o ⟨k, rest⟩ hle)
        fun _ ts e => ⟨fun h => ?_, .tool⟩
      simpa using isForm_keyword h hkey
  have hnot : ∀ name ∈ keywords, s.next? ≠ some (.symbol name) :=
    fun name hmem hname => hkey ⟨name, hname, hmem⟩
  by_cases hop : ∃ name, s.next? = some (.symbol name) ∧ Operator.isOperator name = true
  · obtain ⟨name, hname, hop⟩ := hop
    refine acceptsAt_of_eq ?_ (accepts_operatorForm hexpr o s hs) fun _ ts e hts => ⟨?_, .op⟩
    · exact form_of_operator hname (fun h => hkey ⟨name, hname, h⟩) hop
    · intro h
      obtain h | ⟨hfree, hhead, -⟩ := isForm_not_keyword h hts hnot
      · exact h
      · obtain ⟨⟨k, token⟩, us, rfl, -⟩ := begins_isExpr _ _ hhead
        cases hname.symm.trans (Input.next?_of_prefix hts)
        exact absurd ⟨k, name, rfl, .inr hop⟩ hfree
  · refine acceptsAt_of_eq ?_ (accepts_applicationForm htype hexpr o s hs)
      fun _ ts e hts => ⟨?_, ?_⟩
    · exact form_of_not_symbol hkey hop
    · intro h
      obtain ⟨-, hcount⟩ | ⟨-, hhead, hargs⟩ := isForm_not_keyword h hts hnot
      · obtain ⟨p, hp⟩ := Option.isSome_iff_exists.1 hcount
        exact absurd ⟨_, Input.next?_of_prefix hts, Operator.isOperator_of_primitive? hp⟩ hop
      · exact Placed.mk (IsApplied.mk hhead hargs)
    · rintro ⟨⟨hhead, hargs⟩⟩
      refine .app (.mk ?_ hhead hargs)
      obtain ⟨t, us, rfl, -⟩ := begins_isExpr _ _ hhead
      rintro ⟨k, name, ht, hname⟩
      cases ht
      rcases hname with hname | hname
      · exact hnot name hname (Input.next?_of_prefix hts)
      · exact hop ⟨name, Input.next?_of_prefix hts, hname⟩

theorem parenForm_of_ne {s : Input} (h : s.next? ≠ some .closeParen) :
    parenForm type expr o s =
      (closing (form type expr o) >>= fun r => pure (r.1.withSpan (o.cover r.2))) s :=
  accept_bind_of_not_next h

include htype hexpr in
theorem accepts_parenForm : Accepts n (parenForm type expr o)
    (Closed (fun e c => e.withSpan (o.cover c)) fun _ => IsForm IsExpr o) := by
  intro s hs
  by_cases hclose : s.next? = some .closeParen
  · obtain ⟨prev, rest⟩ := s
    obtain ⟨c, rest, ⟨⟩⟩ := Input.next?_eq_some_iff.1 hclose
    refine acceptsAt_of_error (fun _ _ => not_closed_nil) ⟨_, _, rfl⟩ fun _ ts e => ?_
    generalize hws : (⟨c, .closeParen⟩ :: ts : Tokens) = ws
    rintro ⟨h⟩
    obtain ⟨t, us, rfl, ht⟩ := begins_isForm _ _ h
    cases hws
    cases ht
  · refine acceptsAt_of_eq (parenForm_of_ne hclose)
      ((accepts_form htype hexpr).closing (fun e c => e.withSpan (o.cover c)) s hs)
      fun _ _ _ _ => Iff.rfl

end

/-- An expression of at most `d` tokens is read if nesting of depth `d` is allowed. -/
theorem accepts_expr (d : Nat) : Accepts d (expr d) IsExpr := by
  have hnil : ∀ (_ : Span) e, ¬ IsExpr [] e := by
    rintro _ _ h
    obtain ⟨_, _, ⟨⟩, -⟩ := proper_isExpr _ _ h
  induction d with
  | zero =>
    rintro ⟨prev, rest⟩ hs
    cases List.length_eq_zero_iff.1 (Nat.le_zero.1 hs)
    exact acceptsAt_of_nil hnil ⟨_, _, rfl⟩
  | succ d ih =>
    rintro ⟨prev, _ | ⟨⟨o, token⟩, rest⟩⟩ hs
    · exact acceptsAt_of_nil hnil ⟨_, _, rfl⟩
    · cases token with
      | openParen =>
        refine acceptsAt_of_next (q := parenForm (typeExpr d) (expr d) o) hnil rfl
          (accepts_parenForm (accepts_typeExpr d) ih ⟨o, rest⟩ (Nat.le_of_succ_le_succ hs))
          fun _ ts e => ?_
        constructor
        · generalize hws : (⟨o, .openParen⟩ :: ts : Tokens) = ws
          rintro (_ | _ | _ | _ | h)
          all_goals cases hws
          exact .mk h
        · rintro ⟨h⟩
          exact .paren h
      | int value =>
        refine acceptsAt_of_next hnil rfl (acceptsAt_pure (Expr.int o value)) fun _ _ _ => ?_
        constructor <;> rintro ⟨⟩ <;> constructor
      | string text =>
        refine acceptsAt_of_next hnil rfl (acceptsAt_pure (Expr.string o text)) fun _ _ _ => ?_
        constructor <;> rintro ⟨⟩ <;> constructor
      | symbol name =>
        refine acceptsAt_of_next hnil rfl
          (acceptsAt_pure (if isConstructorName name then Expr.con o name [] else .var o name))
          fun _ ts e => ?_
        constructor
        · generalize hws : (⟨o, .symbol name⟩ :: ts : Tokens) = ws
          rintro (h | h | _ | _ | _)
          all_goals cases hws
          · rw [h]
            exact .mk
          · rw [h]
            exact .mk
        · rintro ⟨⟩
          split
          next h => exact .con h
          next h => exact .var (Bool.eq_false_iff.2 h)
      | _ => exact acceptsAt_of_error hnil ⟨_, _, rfl⟩ nofun

end PolyLambda.Surface.Parser
