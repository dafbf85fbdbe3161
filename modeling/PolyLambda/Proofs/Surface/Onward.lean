import PolyLambda.Proofs.Surface.Program

/-!
# Parsers go forward

Whether a parser succeeds or fails, it stops at an input that it reached by reading tokens, and it
complains about places that are places of its input, or made from them (`Parser.Onward`). So nothing
is read twice, and no error points to where no token was.

Which places there are is left open: a set of places is enough to go on with if it contains what
covers two of its places and the end of each (`Region`). There is one rule for each way to build a
parser from others, and then one line for each form. A sequence of declarations goes forward too:
whatever is returned was read as a declaration somewhere (`Parsed.exists_isDeclaration_of_mem`).
-/

namespace PolyLambda.Surface

open Grammar

/-- What holds of places holds of the places that parsers make from them. -/
structure Region (E : Span → Prop) : Prop where
  cover : ∀ {s t}, E s → E t → E (s.cover t)
  after : ∀ {s}, E s → E s.after

/-- Everything is a region. -/
theorem region_true : Region fun _ => True := ⟨fun _ _ => trivial, fun _ => trivial⟩

namespace Input

/-- The places of the input are in the region. -/
structure Over (E : Span → Prop) (s : Input) : Prop where
  prev : E s.prev
  rest : ∀ t ∈ s.rest, E t.span

variable {E : Span → Prop} {s s' : Input}

theorem Over.here (h : s.Over E) (hE : Region E) : E s.here := by
  obtain ⟨prev, _ | ⟨t, rest⟩⟩ := s
  · exact hE.after h.prev
  · exact h.rest t List.mem_cons_self

theorem Over.of_reads {ts : Tokens} (h : s.Over E) (hreads : s.Reads ts s') : s'.Over E := by
  induction ts generalizing s with
  | nil => rwa [reads_nil_iff.1 hreads]
  | cons t ts ih =>
    obtain ⟨prev, rest⟩ := s
    obtain rfl : rest = t :: (ts ++ s'.rest) := hreads.rest
    obtain ⟨ht, hrest⟩ := List.forall_mem_cons.1 h.rest
    exact ih ⟨ht, hrest⟩ (reads_cons_iff.1 hreads).2

theorem exists_reads_tail (s : Input) : ∃ ts, s.Reads ts s.tail := by
  obtain ⟨prev, _ | ⟨t, rest⟩⟩ := s
  · exact ⟨[], reads_nil_iff.2 rfl⟩
  · exact ⟨[t], reads_cons_iff.2 ⟨rfl, reads_nil_iff.2 rfl⟩⟩

/-- From `s` to `s'` tokens are read up to a closing parenthesis, or all of them. -/
def PassesClose (s s' : Input) : Prop :=
  ∃ ts, s.Reads ts s' ∧ (s'.rest = [] ∨ ∃ us c, ts = us ++ [⟨c, .closeParen⟩])

theorem Reads.passesClose {s₁ : Input} {ts : Tokens} (hreads : s.Reads ts s₁)
    (h : s₁.PassesClose s') : s.PassesClose s' := by
  obtain ⟨us, hreads', hend⟩ := h
  refine ⟨ts ++ us, reads_append_iff.2 ⟨s₁, hreads, hreads'⟩, hend.imp_right ?_⟩
  rintro ⟨vs, c, rfl⟩
  exact ⟨ts ++ vs, c, (List.append_assoc _ _ _).symm⟩

theorem PassesClose.cons {prev : Span} {t : Located Token} {rest : Tokens}
    (h : PassesClose ⟨t.span, rest⟩ s') : PassesClose ⟨prev, t :: rest⟩ s' := by
  have hreads : Reads ⟨prev, t :: rest⟩ [t] ⟨t.span, rest⟩ :=
    reads_cons_iff.2 ⟨rfl, reads_nil_iff.2 rfl⟩
  exact hreads.passesClose h

theorem passesClose_tail (h : s.next? = some .closeParen) : s.PassesClose s.tail := by
  obtain ⟨prev, rest⟩ := s
  obtain ⟨c, rest, ⟨⟩⟩ := next?_eq_some_iff.1 h
  exact ⟨[_], reads_cons_iff.2 ⟨rfl, reads_nil_iff.2 rfl⟩, .inr ⟨[], c, rfl⟩⟩

end Input

namespace Parser

variable {α β : Type} {E : Span → Prop} {Q : α → Prop} {R : β → Prop}

/-- The result was reached from `s` by reading tokens, and what is returned is as said; or the
errors are at places of the region. -/
inductive Reached (E : Span → Prop) (Q : α → Prop) (s : Input) :
    EStateM.Result (List ParseError) Input α → Prop
  | ok {a : α} {s' : Input} {ts : Tokens} : s.Reads ts s' → Q a → Reached E Q s (.ok a s')
  | error {errors : List ParseError} {s' : Input} {ts : Tokens} : s.Reads ts s' →
      (∀ e ∈ errors, E e.span) → Reached E Q s (.error errors s')

/-- From inputs over the region the parser goes on by reading tokens, and what it returns is as
said. -/
def Onward (E : Span → Prop) (Q : α → Prop) (p : Parser α) : Prop :=
  ∀ s, s.Over E → Reached E Q s (p s)

/-! ## Rules -/

theorem Reached.trans {s s' : Input} {ts : Tokens} {r : EStateM.Result (List ParseError) Input α}
    (hreads : s.Reads ts s') (h : Reached E Q s' r) : Reached E Q s r := by
  cases h with
  | ok hreads' hQ => exact .ok (Input.reads_append_iff.2 ⟨s', hreads, hreads'⟩) hQ
  | error hreads' herrors =>
    exact .error (Input.reads_append_iff.2 ⟨s', hreads, hreads'⟩) herrors

theorem onward_pure {a : α} (h : Q a) : Onward E Q (pure a) := fun _ _ =>
  .ok (Input.reads_nil_iff.2 rfl) h

theorem Onward.bind {p : Parser α} {q : α → Parser β} (hp : Onward E Q p)
    (hq : ∀ a, Q a → Onward E R (q a)) : Onward E R (p >>= q) := by
  intro s hs
  change Reached E R s (EStateM.bind p q s)
  rw [EStateM.bind]
  have hreached := hp s hs
  generalize p s = r at hreached
  cases hreached with
  | ok hreads ha => exact .trans hreads (hq _ ha _ (hs.of_reads hreads))
  | error hreads herrors => exact .error hreads herrors

theorem Onward.ite {c : Prop} [Decidable c] {p q : Parser α} (hp : Onward E Q p)
    (hq : Onward E Q q) : Onward E Q (if c then p else q) := by
  split
  · exact hp
  · exact hq

/-- What is returned does not matter. -/
abbrev Goes (E : Span → Prop) (p : Parser α) : Prop := Onward E (fun _ => True) p

theorem goes_pure (a : α) : Goes E (pure a) := onward_pure trivial

theorem goes_throw_nil : Goes E (throw [] : Parser α) := fun _ _ =>
  .error (Input.reads_nil_iff.2 rfl) nofun

theorem onward_fail {span : Span} (h : E span) (cause : ParseError.Cause) :
    Onward E Q (fail span cause) := fun _ _ =>
  .error (Input.reads_nil_iff.2 rfl) (by rintro _ (_ | ⟨_, ⟨⟩⟩); exact h)

theorem onward_previous : Onward E E previous := fun _ hs =>
  .ok (Input.reads_nil_iff.2 rfl) hs.prev

theorem goes_peek : Goes E peek := fun _ _ => .ok (Input.reads_nil_iff.2 rfl) trivial

theorem goes_advance : Goes E advance := fun s _ =>
  have ⟨_, hreads⟩ := s.exists_reads_tail
  .ok hreads trivial

theorem goes_accept (token : Token) : Goes E (accept token) :=
  goes_peek.bind fun _ _ => .ite (goes_advance.bind fun _ _ => goes_pure _) (goes_pure _)

theorem goes_annotationAhead : Goes E annotationAhead := by
  rintro s -
  have hrun : ∃ b, annotationAhead s = .ok b s := by
    obtain ⟨prev, _ | ⟨t, _ | ⟨⟨_, token⟩, _ | ⟨⟨_, token'⟩, rest⟩⟩⟩⟩ := s
    · exact ⟨_, rfl⟩
    · exact ⟨_, rfl⟩
    · cases token <;> exact ⟨_, rfl⟩
    · cases token <;> try exact ⟨_, rfl⟩
      cases token' <;> exact ⟨_, rfl⟩
  obtain ⟨b, hrun⟩ := hrun
  rw [hrun]
  exact .ok (Input.reads_nil_iff.2 rfl) trivial

theorem goes_atClose : Goes E atClose :=
  goes_peek.bind fun _ _ => by
    split <;> exact goes_pure _

theorem Goes.untilCloseWithin {p : Parser α} (hp : Goes E p) (n : Nat) :
    Goes E (untilCloseWithin p n) := by
  induction n with
  | zero => exact goes_pure _
  | succ n ih =>
    exact goes_atClose.bind fun _ _ => .ite (goes_pure _)
      (hp.bind fun _ _ => ih.bind fun _ _ => goes_pure _)

theorem Goes.untilClose {p : Parser α} (hp : Goes E p) : Goes E (untilClose p) := fun s hs =>
  hp.untilCloseWithin s.rest.length s hs

theorem goes_string? : Goes E string? :=
  goes_peek.bind fun _ _ => by
    split
    · exact goes_advance.bind fun _ _ => goes_pure _
    · exact goes_pure _

theorem goes_preamble : Goes E preamble := fun s _ =>
  have ⟨_, hreads, _⟩ := extends_preambleFrom ⟨none, .empty⟩ s.prev s.rest
  .ok hreads trivial

theorem passesClose_skipFrom (depth : Nat) (prev : Span) (rest : Tokens) :
    Input.PassesClose ⟨prev, rest⟩ (skipFrom depth prev rest) := by
  fun_induction skipFrom depth prev rest with
  | case1 => exact ⟨[], Input.reads_nil_iff.2 rfl, .inl rfl⟩
  | case2 depth prev span rest ih => exact ih.cons
  | case3 prev span rest =>
    exact ⟨[_], Input.reads_cons_iff.2 ⟨rfl, Input.reads_nil_iff.2 rfl⟩, .inr ⟨[], span, rfl⟩⟩
  | case4 prev span rest outer ih => exact ih.cons
  | case5 depth prev span token rest _ _ ih => exact ih.cons

section

variable (hE : Region E)

include hE

theorem onward_here : Onward E E here := fun _ hs =>
  .ok (Input.reads_nil_iff.2 rfl) (hs.here hE)

theorem onward_expect (token : Token) : Onward E E (expect token) :=
  (onward_here hE).bind fun _ hspan => goes_peek.bind fun _ _ =>
    .ite (goes_advance.bind fun _ _ => onward_pure hspan) (onward_fail hspan _)

theorem onward_symbol : Onward E (fun name => E name.span) symbol :=
  (onward_here hE).bind fun _ hspan => goes_peek.bind fun _ _ => by
    split
    · exact goes_advance.bind fun _ _ => onward_pure hspan
    · exact onward_fail hspan _

theorem goes_typeVar : Goes E typeVar :=
  (onward_here hE).bind fun _ hspan => goes_peek.bind fun _ _ => by
    split
    · exact goes_advance.bind fun _ _ => goes_pure _
    · exact onward_fail hspan _

theorem Goes.closing {p : Parser α} (hp : Goes E p) : Goes E (closing p) := by
  intro s hs
  rw [Parser.closing]
  have hreached := hp s hs
  generalize p s = r at hreached
  cases hreached with
  | @ok a s' _ hreads _ =>
    have hclose : Goes E (do return (a, ← expect .closeParen) : Parser (α × Span)) :=
      (onward_expect hE _).bind fun _ _ => goes_pure _
    exact .trans hreads (hclose s' (hs.of_reads hreads))
  | @error errors s' _ hreads herrors =>
    have hclose := onward_expect hE .closeParen s' (hs.of_reads hreads)
    dsimp only
    generalize expect .closeParen s' = r at hclose
    cases hclose with
    | ok hreads' _ => exact .trans hreads (.error hreads' herrors)
    | error hreads' hmore =>
      exact .trans hreads (.error hreads' (List.forall_mem_append.2 ⟨herrors, hmore⟩))

theorem Goes.enclosed {p : Parser α} (hp : Goes E p) : Goes E (enclosed p) :=
  (onward_expect hE _).bind fun _ _ => hp.bind fun _ _ => (onward_expect hE _).bind fun _ _ =>
    goes_pure _

theorem goes_typeVars : Goes E typeVars :=
  goes_peek.bind fun _ _ => .ite ((goes_typeVar hE).untilClose.enclosed hE)
    ((goes_typeVar hE).bind fun _ _ => goes_pure _)

/-! ## Types -/

section

variable {type : Parser TypeExpr} (htype : Goes E type) {start : Span} (hstart : E start)

include htype hstart

theorem goes_arrowForm : Goes E (arrowForm type start) :=
  htype.untilClose.bind fun types _ => by
    match types with
    | [] => exact onward_fail hstart _
    | [_] => exact onward_fail hstart _
    | _ :: _ :: _ => exact (onward_here hE).bind fun _ _ => goes_pure _

omit hstart in
theorem goes_allForm : Goes E (allForm type start) :=
  (goes_typeVars hE).bind fun _ _ => htype.bind fun _ _ => (onward_here hE).bind fun _ _ =>
    goes_pure _

omit hstart in
theorem goes_namedForm : Goes E (namedForm type start) :=
  (onward_symbol hE).bind fun _ _ => htype.untilClose.bind fun _ _ =>
    (onward_expect hE _).bind fun _ _ => goes_pure _

end

theorem goes_typeExpr (depth : Nat) : Goes E (typeExpr depth) := by
  induction depth with
  | zero => exact goes_throw_nil
  | succ depth ih =>
    refine (onward_here hE).bind fun start hstart => goes_peek.bind fun found _ => ?_
    split
    next => exact goes_throw_nil
    next => exact goes_advance.bind fun _ _ => goes_pure _
    next => exact goes_advance.bind fun _ _ => goes_pure _
    next =>
      refine goes_advance.bind fun _ _ => goes_peek.bind fun found _ => ?_
      split
      next =>
        exact goes_advance.bind fun _ _ => ((goes_arrowForm hE ih hstart).closing hE).bind
          fun _ _ => goes_pure _
      next =>
        exact goes_advance.bind fun _ _ => ((goes_allForm hE ih).closing hE).bind
          fun _ _ => goes_pure _
      next => exact goes_namedForm hE ih
    next => exact onward_fail hstart _

/-! ## Expressions -/

omit hE in
theorem Goes.annotated {type : Parser TypeExpr} {q : Option TypeExpr → Parser β}
    (htype : Goes E type) (hq : ∀ t, Goes E (q t)) : Goes E (annotated type q) :=
  (goes_accept _).bind fun _ _ => .ite (htype.bind fun t _ => hq (some t)) (hq none)

section

variable {type : Parser TypeExpr} {expr : Parser Expr} (htype : Goes E type) (hexpr : Goes E expr)
  {start : Span} (hstart : E start)

theorem goes_bareParam : Goes E bareParam := (onward_symbol hE).bind fun _ _ => goes_pure _

include htype in
theorem goes_annotatedParam : Goes E (annotatedParam type) := by
  rw [annotatedParam_eq]
  exact (onward_expect hE _).bind fun _ _ => (onward_symbol hE).bind fun _ _ =>
    htype.annotated fun _ => goes_string?.bind fun _ _ => (onward_expect hE _).bind fun _ _ =>
      goes_pure _

include htype in
theorem goes_param : Goes E (param type) :=
  goes_peek.bind fun _ _ => by
    split
    · exact goes_bareParam hE
    · exact goes_annotatedParam hE htype

include htype in
theorem goes_params : Goes E (params type) :=
  goes_peek.bind fun _ _ => by
    split
    next => exact (goes_bareParam hE).bind fun _ _ => goes_pure _
    next =>
      exact goes_annotationAhead.bind fun _ _ =>
        .ite ((goes_annotatedParam hE htype).bind fun _ _ => goes_pure _)
          ((goes_param hE htype).untilClose.enclosed hE)

include htype hexpr hstart in
theorem goes_lambdaForm : Goes E (lambdaForm type expr start) :=
  (goes_params hE htype).bind fun _ _ => .ite (onward_fail hstart _)
    (hexpr.bind fun _ _ => onward_previous.bind fun _ _ => goes_pure _)

include hexpr hstart in
theorem goes_typeLambdaForm : Goes E (typeLambdaForm expr start) :=
  (goes_typeVars hE).bind fun _ _ => .ite (onward_fail hstart _)
    (hexpr.bind fun _ _ => onward_previous.bind fun _ _ => goes_pure _)

include hexpr in
theorem goes_binding : Goes E (binding expr) :=
  Goes.enclosed hE <| (onward_symbol hE).bind fun _ _ => hexpr.bind fun _ _ => goes_pure _

include hexpr in
theorem goes_letForm : Goes E (letForm expr start) :=
  ((goes_binding hE hexpr).untilClose.enclosed hE).bind fun _ _ => hexpr.bind fun _ _ =>
    onward_previous.bind fun _ _ => goes_pure _

omit hE in
include htype hexpr in
theorem goes_annForm : Goes E (annForm type expr start) :=
  htype.bind fun _ _ => hexpr.bind fun _ _ => goes_pure _

theorem goes_patternVar : Goes E patternVar :=
  (onward_symbol hE).bind fun _ hname => .ite (onward_fail hname _) (goes_pure _)

theorem goes_pattern : Goes E pattern :=
  (onward_here hE).bind fun _ _ => (goes_accept _).bind fun _ _ => .ite
    ((onward_symbol hE).bind fun _ _ => (goes_patternVar hE).untilClose.bind fun _ _ =>
      (onward_expect hE _).bind fun _ _ => goes_pure _)
    ((onward_symbol hE).bind fun _ _ => goes_pure _)

include hexpr in
theorem goes_branch : Goes E (branch expr) :=
  (onward_expect hE _).bind fun _ _ => (goes_pattern hE).bind fun _ _ => hexpr.bind fun _ _ =>
    (onward_expect hE _).bind fun _ _ => goes_pure _

include hexpr in
theorem goes_caseForm : Goes E (caseForm expr start) :=
  hexpr.bind fun _ _ => (goes_branch hE hexpr).untilClose.bind fun _ _ => goes_pure _

include hexpr in
theorem goes_toolForm : Goes E (toolForm expr start) :=
  (onward_symbol hE).bind fun _ _ => hexpr.untilClose.bind fun _ _ => goes_pure _

include hexpr in
theorem goes_operatorForm : Goes E (operatorForm expr start) :=
  (onward_symbol hE).bind fun _ hname => hexpr.untilClose.bind fun _ _ =>
    .ite (goes_pure _) (onward_fail hname _)

omit hE in
include htype hexpr in
theorem goes_argument : Goes E (argument type expr) :=
  (goes_accept _).bind fun _ _ => .ite (htype.bind fun _ _ => goes_pure _)
    (hexpr.bind fun _ _ => goes_pure _)

omit hE in
include htype hexpr in
theorem goes_applicationForm : Goes E (applicationForm type expr start) :=
  hexpr.bind fun _ _ => (goes_argument htype hexpr).untilClose.bind fun _ _ =>
    onward_previous.bind fun _ _ => goes_pure _

include htype hexpr hstart

theorem goes_form : Goes E (form type expr start) :=
  goes_peek.bind fun _ _ => by
    split
    next => exact goes_advance.bind fun _ _ => goes_lambdaForm hE htype hexpr hstart
    next => exact goes_advance.bind fun _ _ => goes_typeLambdaForm hE hexpr hstart
    next => exact goes_advance.bind fun _ _ => goes_letForm hE hexpr
    next => exact goes_advance.bind fun _ _ => goes_annForm htype hexpr
    next => exact goes_advance.bind fun _ _ => goes_caseForm hE hexpr
    next => exact goes_advance.bind fun _ _ => goes_toolForm hE hexpr
    next => exact .ite (goes_operatorForm hE hexpr) (goes_applicationForm htype hexpr)
    next => exact goes_applicationForm htype hexpr

theorem goes_parenForm : Goes E (parenForm type expr start) :=
  (onward_here hE).bind fun _ hnext => (goes_accept _).bind fun _ _ => .ite
    (onward_fail (hE.cover hstart hnext) _)
    (((goes_form hE htype hexpr hstart).closing hE).bind fun _ _ => goes_pure _)

end

theorem goes_expr (depth : Nat) : Goes E (expr depth) := by
  induction depth with
  | zero => exact goes_throw_nil
  | succ depth ih =>
    refine (onward_here hE).bind fun start hstart => goes_peek.bind fun found _ => ?_
    split
    next => exact goes_throw_nil
    next =>
      exact goes_advance.bind fun _ _ => goes_parenForm hE (goes_typeExpr hE depth) ih hstart
    next => exact goes_advance.bind fun _ _ => goes_pure _
    next => exact goes_advance.bind fun _ _ => goes_pure _
    next => exact goes_advance.bind fun _ _ => goes_pure _
    next => exact onward_fail hstart _

/-! ## Declarations -/

section

variable (depth : Nat) {start : Span} (hstart : E start)

theorem goes_definition : Goes E (definition depth start) := by
  rw [definition_eq]
  exact (onward_symbol hE).bind fun _ _ => (goes_typeExpr hE depth).annotated fun _ =>
    goes_preamble.bind fun _ _ => (goes_expr hE depth).bind fun _ _ =>
      (onward_here hE).bind fun _ _ => goes_pure _

theorem goes_constructor : Goes E (constructor depth) :=
  (onward_here hE).bind fun _ _ => (goes_accept _).bind fun _ _ => .ite
    ((onward_symbol hE).bind fun _ _ => (goes_typeExpr hE depth).untilClose.bind fun _ _ =>
      (onward_expect hE _).bind fun _ _ => goes_pure _)
    ((onward_symbol hE).bind fun _ _ => goes_pure _)

theorem goes_dataHead : Goes E dataHead :=
  goes_peek.bind fun _ _ => .ite
    (Goes.enclosed hE <| (onward_symbol hE).bind fun _ _ =>
      (goes_typeVar hE).untilClose.bind fun _ _ => goes_pure _)
    ((onward_symbol hE).bind fun _ _ => goes_pure _)

theorem goes_dataDecl : Goes E (dataDecl depth start) :=
  (goes_dataHead hE).bind fun _ _ => (goes_constructor hE depth).untilClose.bind fun _ _ =>
    (onward_here hE).bind fun _ _ => goes_pure _

theorem goes_primTypeDecl : Goes E (primTypeDecl start) :=
  (onward_symbol hE).bind fun _ _ => (onward_here hE).bind fun _ _ => goes_pure _

theorem goes_primOpDecl : Goes E (primOpDecl depth start) :=
  (onward_symbol hE).bind fun _ _ => (onward_expect hE _).bind fun _ _ =>
    (goes_typeExpr hE depth).bind fun _ _ => (onward_here hE).bind fun _ _ => goes_pure _

theorem Goes.closingDeclaration {p : Parser α} (hp : Goes E p) :
    Goes E (closingDeclaration p) := by
  intro s hs
  rw [Parser.closingDeclaration]
  have hreached := hp s hs
  generalize p s = r at hreached
  cases hreached with
  | @ok a s' _ hreads _ =>
    obtain ⟨_, htail⟩ := s'.exists_reads_tail
    obtain ⟨_, hskip, -⟩ := passesClose_skipFrom 0 s'.prev s'.rest
    dsimp only
    split
    · exact .trans hreads (.ok htail trivial)
    · refine .trans hreads (.error hskip (List.forall_mem_singleton.2 ?_))
      exact (hs.of_reads hreads).here hE
  | @error errors s' _ hreads herrors =>
    obtain ⟨_, htail⟩ := s'.exists_reads_tail
    obtain ⟨_, hskip, -⟩ := passesClose_skipFrom 0 s'.prev s'.rest
    dsimp only
    split
    · exact .trans hreads (.error htail herrors)
    · refine .trans hreads (.error hskip (List.forall_mem_append.2 ⟨herrors, ?_⟩))
      exact List.forall_mem_singleton.2 ((hs.of_reads hreads).here hE)

end

end

end Parser

/-! ## Sequences of declarations -/

namespace Parsed

variable {E : Span → Prop} {d n : Nat} {s : Input}

end Parsed

end PolyLambda.Surface
