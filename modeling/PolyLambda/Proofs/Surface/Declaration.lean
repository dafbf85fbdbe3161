import PolyLambda.Proofs.Surface.Expr

/-!
# Reading declarations accepts the declarations

Each parser for declarations accepts what the grammar says it should (`accepts_declaration`). The
grammar does not say which strings of a definition document it; that the last one is the body
follows, because a body there must be. The reader decides it by looking at the token behind a
string, so it is compared with the grammar only in front of a body and a closing parenthesis
(`AcceptsUpTo.preamble`).
-/

namespace PolyLambda.Surface.Parser

open Grammar

variable {α β : Type} {n : Nat}

/-! ## The preamble of a definition -/

theorem extends_preambleFrom (p : Preamble) (prev : Span) (rest : Tokens) :
    ∃ ts, Input.Reads ⟨prev, rest⟩ ts (preambleFrom p prev rest).2 ∧
      Extends p ts (preambleFrom p prev rest).1 := by
  fun_induction preambleFrom p prev rest with
  | case1 p prev span text rest hclose => exact ⟨[], Input.reads_nil_iff.2 rfl, .nil⟩
  | case2 p prev span text rest hclose ih =>
    obtain ⟨ts, hreads, hext⟩ := ih
    exact ⟨_ :: ts, Input.reads_cons_iff.2 ⟨rfl, hreads⟩, .doc hext⟩
  | case3 p prev span text rest key value hsplit ih =>
    obtain ⟨ts, hreads, hext⟩ := ih
    refine ⟨_ :: ts, Input.reads_cons_iff.2 ⟨rfl, hreads⟩, .pragma ?_⟩
    rw [hsplit]
    exact hext
  | case4 p prev rest => exact ⟨[], Input.reads_nil_iff.2 rfl, .nil⟩

/-- `ts` does not go on with a preamble, and it goes on. -/
def Settled (ts : Tokens) : Prop :=
  (∀ p prev, preambleFrom p prev ts = (p, ⟨prev, ts⟩)) ∧
    ts.head?.map Located.val ≠ some .closeParen

theorem preambleFrom_of_extends {p q : Preamble} {us ts : Tokens} (h : Extends p us q)
    (hts : Settled ts) (prev : Span) :
    preambleFrom p prev (us ++ ts) = (q, ⟨stopFrom prev us, ts⟩) := by
  induction h generalizing prev with
  | nil => exact hts.1 _ _
  | @doc p q s text us hus ih =>
    have hnext : (us ++ ts).head?.map Located.val ≠ some .closeParen := by
      cases hus
      · exact hts.2
      · rintro ⟨⟩
      · rintro ⟨⟩
    rw [List.cons_append, preambleFrom, if_neg hnext]
    exact ih s
  | @pragma p q s text us hus ih =>
    rw [List.cons_append, preambleFrom]
    exact ih s

/-- The body of a definition is no part of its preamble. -/
theorem settled_of_isExpr {ts us : Tokens} {e : Expr} {c : Span} (h : IsExpr ts e) :
    Settled (ts ++ ⟨c, .closeParen⟩ :: us) := by
  cases h with
  | string => exact ⟨fun p prev => if_pos rfl, by rintro ⟨⟩⟩
  | _ => exact ⟨fun p prev => rfl, by rintro ⟨⟩⟩

theorem AcceptsUpTo.preamble {q : Preamble → Parser β} {Q : Preamble → Span → Phrases β}
    (hq : ∀ p, AcceptsInside n (q p) (Q p))
    (hQ : ∀ p c ts b, Q p c ts b → ∃ e, IsExpr ts e) :
    AcceptsInside n (Parser.preamble >>= q) fun c =>
      Then (Extends ⟨none, .empty⟩) fun p => Q p c := by
  intro s hs b s' hclose
  obtain ⟨us, hus, hext⟩ := extends_preambleFrom ⟨none, .empty⟩ s.prev s.rest
  have hrun : (Parser.preamble >>= q) s =
      q (preambleFrom ⟨none, .empty⟩ s.prev s.rest).1
        (preambleFrom ⟨none, .empty⟩ s.prev s.rest).2 := rfl
  rw [hrun]
  constructor
  · intro h
    obtain ⟨vs, hvs, hb⟩ := (hq _ _ (Nat.le_trans hus.length_le hs) b s' hclose).1 h
    exact ⟨us ++ vs, Input.reads_append_iff.2 ⟨_, hus, hvs⟩, .mk hext hb⟩
  · rintro ⟨_, hreads, @⟨us, vs, p, _, hext, hb⟩⟩
    obtain ⟨s₁, hus, hvs⟩ := Input.reads_append_iff.1 hreads
    obtain ⟨c, rest, hrest⟩ := Input.next?_eq_some_iff.1 hclose
    obtain ⟨e, he⟩ := hQ _ _ _ _ hb
    have hsettled : Settled s₁.rest := by
      rw [hvs.rest, hrest]
      exact settled_of_isExpr he
    rw [hus.rest, preambleFrom_of_extends hext hsettled, ← hus.prev]
    exact (hq p s₁ (Nat.le_trans hus.length_le hs) b s' hclose).2 ⟨vs, hvs, hb⟩

/-! ## Declarations -/

section

variable (o : Span)

theorem definition_eq : definition n o = (do
    let name ← symbol
    annotated (typeExpr n) fun t => do
      let p ← preamble
      let body ← expr n
      let c ← here
      return ⟨o.cover c, name.val, t, p.pragmas, p.doc, body⟩) := rfl

theorem accepts_definition :
    AcceptsInside n (definition n o) fun c => IsDefinition (o.cover c) := by
  have htail (name : Located String) := AcceptsUpTo.annotated (accepts_typeExpr n)
    (fun type => AcceptsUpTo.preamble (fun p => (accepts_expr n).inside.here fun body c =>
        Definition.mk (o.cover c) name.val type p.pragmas p.doc body)
      fun _ _ _ _ ⟨e, he, _⟩ => ⟨e, he⟩) ?_
  · rw [definition_eq]
    refine (accepts_symbol.bind htail).congr fun c ts d => ?_
    constructor
    · rintro ⟨htype, hpreamble, hbody⟩
      exact then_symbol (.mk htype (.mk hpreamble ⟨_, hbody, rfl⟩))
    · rintro ⟨⟨⟩, htype, hpreamble, _, hbody, rfl⟩
      simpa only [List.cons_append, List.nil_append] using
        IsDefinition.mk htype hpreamble hbody
  · rintro c _ _ ⟨hpreamble, e, he, -⟩
    cases hpreamble with
    | nil =>
      obtain ⟨t, us, rfl, ht⟩ := begins_isExpr _ _ he
      exact ⟨_, _, rfl, by rintro h; rw [h] at ht; cases ht⟩
    | doc => exact ⟨_, _, rfl, by rintro ⟨⟩⟩
    | pragma => exact ⟨_, _, rfl, by rintro ⟨⟩⟩

theorem chooses_constructor : Chooses (· = .openParen) (constructor n)
    (group (typeExpr n) Constructor.mk) (alone Constructor.mk) :=
  chooses_of_eq (fun _ _ _ => rfl) fun _ hs => accept_bind_of_not_next hs

theorem accepts_constructor : Accepts n (constructor n) IsConstructor :=
  accepts_headed chooses_constructor (accepts_typeExpr n) proper_isType

theorem chooses_dataHead : Chooses (· = .openParen) dataHead
    (group typeVar fun _ name vars => (name, vars)) (alone fun _ name vars => (name, vars)) := by
  refine chooses_of_eq ?_ fun s hs => ?_
  · intro prev span rest
    simp only [dataHead, peek_bind, enclosed, bind_assoc, pure_bind]
    rfl
  · simp only [dataHead, peek_bind, if_neg hs]
    rfl

theorem accepts_dataHead : Accepts n dataHead IsDataHead :=
  accepts_headed chooses_dataHead accepts_typeVar proper_isTypeVar

theorem accepts_dataDecl : AcceptsInside n (dataDecl n o) fun c => IsData (o.cover c) := by
  refine (accepts_dataHead.bind fun head => (accepts_constructor.untilClose proper_headed).here
    fun constructors c => DataDecl.mk (o.cover c) head.1 head.2 constructors).congr
      fun c ts d => ?_
  constructor
  · rintro ⟨hhead, hconstructors⟩
    exact .mk hhead ⟨_, hconstructors, rfl⟩
  · rintro ⟨hhead, _, hconstructors, rfl⟩
    exact .mk hhead hconstructors

theorem accepts_primTypeDecl :
    AcceptsInside n (primTypeDecl o) fun c => IsPrimType (o.cover c) := by
  refine (accepts_symbol.inside.here fun name c => PrimTypeDecl.mk (o.cover c) name.val).congr
    fun c ts d => ?_
  constructor
  · rintro ⟨⟩
    exact ⟨_, .mk, rfl⟩
  · rintro ⟨_, ⟨⟩, rfl⟩
    exact .mk

theorem accepts_primOpDecl : AcceptsInside n (primOpDecl n o) fun c => IsPrimOp (o.cover c) := by
  refine (accepts_symbol.bind fun name => (accepts_expect .colon).bind fun _ =>
    (accepts_typeExpr n).inside.here fun type c => PrimOpDecl.mk (o.cover c) name.val type).congr
      fun c ts d => ?_
  constructor
  · rintro ⟨htype⟩
    exact then_symbol (then_token ⟨_, htype, rfl⟩)
  · rintro ⟨⟨⟩, ⟨⟩, _, htype, rfl⟩
    exact .mk htype

theorem closingDeclaration_eq_ok_iff {p : Parser α} {s s' : Input} {a : α} :
    closingDeclaration p s = .ok a s' ↔
      (p >>= fun a => expect .closeParen >>= fun _ => pure a) s = .ok a s' := by
  rw [bind_eq_ok_iff, closingDeclaration]
  cases p s with
  | ok a₁ s₁ =>
    have hex : (∃ a₂ s₂, (.ok a₁ s₁ : EStateM.Result (List ParseError) Input α) = .ok a₂ s₂ ∧
        (expect .closeParen >>= fun _ => pure a₂) s₂ = .ok a s') ↔
          (expect .closeParen >>= fun _ => pure a₁) s₁ = .ok a s' := by
      constructor
      · rintro ⟨_, _, ⟨⟩, h⟩
        exact h
      · exact fun h => ⟨a₁, s₁, rfl, h⟩
    rw [hex]
    by_cases hclose : s₁.next? = some .closeParen
    · rw [expect_bind_of_next hclose]
      dsimp only
      rw [if_pos hclose]
      rfl
    · rw [expect_bind_of_not_next hclose]
      dsimp only
      rw [if_neg hclose]
      exact iff_of_false nofun nofun
  | error errors s₁ =>
    dsimp only
    refine iff_of_false ?_ (by rintro ⟨_, _, ⟨⟩, _⟩)
    intro h
    split at h <;> cases h

theorem AcceptsInside.closingDeclaration {p : Parser α} {P : Span → Phrases α}
    (h : AcceptsInside n p P) (f : α → β) :
    Accepts n (closingDeclaration (p >>= fun a => pure (f a))) (Closed (fun a _ => f a) P) := by
  intro s hs b s' hfollow
  rw [closingDeclaration_eq_ok_iff, ← h.close (fun a _ => f a) s hs b s' hfollow]
  simp only [bind_assoc, pure_bind]

theorem isDeclarationForm_iff {w k : Span} {name : String} {ts : Tokens} {d : Declaration} :
    IsDeclarationForm w (⟨k, .symbol name⟩ :: ts) d ↔
      (name = "def" ∧ ∃ d', IsDefinition w ts d' ∧ d = .definition d') ∨
      (name = "data" ∧ ∃ d', IsData w ts d' ∧ d = .data d') ∨
      (name = "prim-type" ∧ ∃ d', IsPrimType w ts d' ∧ d = .primType d') ∨
      (name = "prim-op" ∧ ∃ d', IsPrimOp w ts d' ∧ d = .primOp d') := by
  constructor
  · generalize hws : (⟨k, .symbol name⟩ :: ts : Tokens) = ws
    rintro (h | h | h | h)
    all_goals cases hws
    · exact .inl ⟨rfl, _, h, rfl⟩
    · exact .inr (.inl ⟨rfl, _, h, rfl⟩)
    · exact .inr (.inr (.inl ⟨rfl, _, h, rfl⟩))
    · exact .inr (.inr (.inr ⟨rfl, _, h, rfl⟩))
  · rintro (⟨rfl, _, h, rfl⟩ | ⟨rfl, _, h, rfl⟩ | ⟨rfl, _, h, rfl⟩ | ⟨rfl, _, h, rfl⟩)
    · exact .definition h
    · exact .data h
    · exact .primType h
    · exact .primOp h

/-- A keyword and what follows it, in parentheses. -/
theorem acceptsAt_of_keyword {keyword : String} {p : Parser Declaration} {q : Parser α}
    {Q : Span → Phrases α} {f : α → Declaration} {s : Input} (hs : s.rest.length ≤ n)
    (hkeyword : s.next? = some (.symbol keyword))
    (hp : ∀ prev k rest, p ⟨prev, ⟨k, .symbol keyword⟩ :: rest⟩ =
      closingDeclaration (q >>= fun a => pure (f a)) ⟨k, rest⟩)
    (hq : AcceptsInside n q Q)
    (hform : ∀ c k ts d, IsDeclarationForm (o.cover c) (⟨k, .symbol keyword⟩ :: ts) d ↔
      ∃ a, Q c ts a ∧ d = f a) :
    AcceptsAt (fun _ => True) s p fun _ =>
      Closed (fun d _ => d) fun c => IsDeclarationForm (o.cover c) := by
  obtain ⟨prev, rest⟩ := s
  obtain ⟨k, rest, ⟨⟩⟩ := Input.next?_eq_some_iff.1 hkeyword
  refine acceptsAt_of_next (fun _ _ => not_closed_nil) (hp prev k rest)
    (hq.closingDeclaration f ⟨k, rest⟩ (Nat.le_of_succ_le hs))
    fun _ ts d => (closed_cons_iff (by simp)).trans ?_
  exact closed_map_iff fun c ts d => hform c k ts d

theorem accepts_declarationForm : Accepts n (declarationForm n o)
    (Closed (fun d _ => d) fun c => IsDeclarationForm (o.cover c)) := by
  intro s hs
  by_cases hdef : s.next? = some (.symbol "def")
  · exact acceptsAt_of_keyword (f := .definition) o hs hdef (fun _ _ _ => rfl)
      (accepts_definition o)
      fun _ _ _ _ => by simp [isDeclarationForm_iff]
  by_cases hdata : s.next? = some (.symbol "data")
  · exact acceptsAt_of_keyword (f := .data) o hs hdata (fun _ _ _ => rfl) (accepts_dataDecl o)
      fun _ _ _ _ => by simp [isDeclarationForm_iff]
  by_cases hprimType : s.next? = some (.symbol "prim-type")
  · exact acceptsAt_of_keyword (f := .primType) o hs hprimType (fun _ _ _ => rfl)
      (accepts_primTypeDecl o)
      fun _ _ _ _ => by simp [isDeclarationForm_iff]
  by_cases hprimOp : s.next? = some (.symbol "prim-op")
  · exact acceptsAt_of_keyword (f := .primOp) o hs hprimOp (fun _ _ _ => rfl) (accepts_primOpDecl o)
      fun _ _ _ _ => by simp [isDeclarationForm_iff]
  have hfail : ∃ errors s', declarationForm n o s = .error errors s' :=
    ⟨[⟨s.here, .declarationKeyword s.next?⟩], skipToClose s, by
      simp only [declarationForm, here_bind, peek_bind]
      rfl⟩
  have hnil : ∀ (_ : Span) d,
      ¬ Closed (fun d _ => d) (fun c => IsDeclarationForm (o.cover c)) [] d :=
    fun _ _ => not_closed_nil
  obtain ⟨prev, _ | ⟨t, rest⟩⟩ := s
  · exact acceptsAt_of_nil hnil hfail
  · refine acceptsAt_of_error hnil hfail fun _ ts d => ?_
    generalize hws : t :: ts = ws
    rintro ⟨_ | _ | _ | _⟩
    all_goals cases hws
    · exact hdef rfl
    · exact hdata rfl
    · exact hprimType rfl
    · exact hprimOp rfl

end

/-- A declaration of at most `d` tokens behind its parenthesis is read if nesting of depth `d` is
allowed. -/
theorem accepts_declaration (d : Nat) : Accepts (d + 1) (declaration d) IsDeclaration := by
  have hnil : ∀ (_ : Span) d, ¬ IsDeclaration [] d := by
    rintro _ _ h
    generalize hws : ([] : Tokens) = ws at h
    obtain ⟨-⟩ := h
    cases hws
  rintro ⟨prev, _ | ⟨⟨o, token⟩, rest⟩⟩ hs
  · exact acceptsAt_of_nil hnil ⟨_, _, rfl⟩
  · cases token with
    | openParen =>
      refine acceptsAt_of_next (q := declarationForm d o) hnil rfl
        (accepts_declarationForm o ⟨o, rest⟩ (Nat.le_of_succ_le_succ hs)) fun _ ts t => ?_
      constructor
      · generalize hws : (⟨o, .openParen⟩ :: ts : Tokens) = ws
        rintro ⟨h⟩
        cases hws
        exact .mk h
      · rintro ⟨h⟩
        exact .mk h
    | _ => exact acceptsAt_of_error hnil ⟨_, _, rfl⟩ nofun

end PolyLambda.Surface.Parser
