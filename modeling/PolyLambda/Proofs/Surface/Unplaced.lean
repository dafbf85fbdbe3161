import PolyLambda.Surface.Parser.Declaration

/-!
# Trees without places

The same tokens at other places of a source text make the same trees at other places, and the same
errors. Forgetting a place is to move it to the beginning of the source; as a span that covers two
forgotten ones is forgotten too, parsers commute with it: what a parser reads from tokens whose
places are forgotten is what it reads from the tokens, with all places forgotten (`Parser.Forgets`).
There is one rule for each way to build a parser from others.
-/

namespace PolyLambda

/-- A value at no place in particular. -/
def Located.unplaced {α : Type} (a : Located α) : Located α :=
  ⟨.origin, a.val⟩

namespace Surface

/-! ## Trees -/

mutual

def TypeExpr.unplaced : TypeExpr → TypeExpr
  | .var _ name => .var .origin name
  | .named _ name => .named .origin name
  | .arrow _ param result => .arrow .origin param.unplaced result.unplaced
  | .all _ v body => .all .origin v body.unplaced
  | .applied _ name args => .applied .origin name (TypeExpr.unplacedAll args)

def TypeExpr.unplacedAll : List TypeExpr → List TypeExpr
  | [] => []
  | type :: types => type.unplaced :: TypeExpr.unplacedAll types

end

theorem TypeExpr.unplacedAll_eq_map (types : List TypeExpr) :
    TypeExpr.unplacedAll types = types.map TypeExpr.unplaced := by
  induction types with
  | nil => rfl
  | cons type types ih => rw [TypeExpr.unplacedAll, ih, List.map_cons]

def Pattern.unplaced (p : Pattern) : Pattern :=
  { p with span := .origin }

mutual

def Expr.unplaced : Expr → Expr
  | .var _ name => .var .origin name
  | .lam _ param type doc body =>
    .lam .origin param (type.map TypeExpr.unplaced) doc body.unplaced
  | .app _ fn arg => .app .origin fn.unplaced arg.unplaced
  | .tlam _ param body => .tlam .origin param body.unplaced
  | .tapp _ fn type => .tapp .origin fn.unplaced type.unplaced
  | .letIn _ name value body => .letIn .origin name value.unplaced body.unplaced
  | .ann _ type expr => .ann .origin type.unplaced expr.unplaced
  | .con _ name args => .con .origin name (Expr.unplacedAll args)
  | .case _ scrutinee branches =>
    .case .origin scrutinee.unplaced (Expr.unplacedBranches branches)
  | .tool _ name args => .tool .origin name (Expr.unplacedAll args)
  | .int _ value => .int .origin value
  | .string _ text => .string .origin text
  | .op _ name args => .op .origin name (Expr.unplacedAll args)

def Expr.unplacedAll : List Expr → List Expr
  | [] => []
  | arg :: args => arg.unplaced :: Expr.unplacedAll args

def Expr.unplacedBranches : List Branch → List Branch
  | [] => []
  | .mk _ pattern body :: branches =>
    .mk .origin pattern.unplaced body.unplaced :: Expr.unplacedBranches branches

end

def Branch.unplaced : Branch → Branch
  | .mk _ pattern body => .mk .origin pattern.unplaced body.unplaced

theorem Expr.unplacedAll_eq_map (args : List Expr) :
    Expr.unplacedAll args = args.map Expr.unplaced := by
  induction args with
  | nil => rfl
  | cons arg args ih => rw [Expr.unplacedAll, ih, List.map_cons]

theorem Expr.unplacedBranches_eq_map (branches : List Branch) :
    Expr.unplacedBranches branches = branches.map Branch.unplaced := by
  induction branches with
  | nil => rfl
  | cons branch branches ih =>
    obtain ⟨span, pattern, body⟩ := branch
    rw [Expr.unplacedBranches, ih, List.map_cons, Branch.unplaced]

theorem Expr.unplaced_withSpan (e : Expr) (s : Span) :
    (e.withSpan s).unplaced = e.unplaced.withSpan .origin := by
  cases e <;> rfl

def Constructor.unplaced (c : Constructor) : Constructor :=
  ⟨.origin, c.name, c.fields.map TypeExpr.unplaced⟩

def DataDecl.unplaced (d : DataDecl) : DataDecl :=
  { d with span := .origin, constructors := d.constructors.map Constructor.unplaced }

def Definition.unplaced (d : Definition) : Definition :=
  { d with span := .origin, type := d.type.map TypeExpr.unplaced, body := d.body.unplaced }

def PrimTypeDecl.unplaced (d : PrimTypeDecl) : PrimTypeDecl :=
  { d with span := .origin }

def PrimOpDecl.unplaced (d : PrimOpDecl) : PrimOpDecl :=
  { d with span := .origin, type := d.type.unplaced }

def Declaration.unplaced : Declaration → Declaration
  | data d => data d.unplaced
  | definition d => definition d.unplaced
  | primType d => primType d.unplaced
  | primOp d => primOp d.unplaced

def ParseError.unplaced (e : ParseError) : ParseError :=
  { e with span := .origin }

def Parsed.unplaced (p : Parsed) : Parsed :=
  ⟨p.declarations.map Declaration.unplaced, p.errors.map ParseError.unplaced⟩

def Input.unplaced (s : Input) : Input :=
  ⟨.origin, s.rest.map Located.unplaced⟩

namespace Input

theorem here_unplaced (s : Input) : s.unplaced.here = .origin := by
  obtain ⟨prev, _ | ⟨t, rest⟩⟩ := s <;> rfl

theorem next?_unplaced (s : Input) : s.unplaced.next? = s.next? := by
  obtain ⟨prev, _ | ⟨t, rest⟩⟩ := s <;> rfl

theorem tail_unplaced (s : Input) : s.unplaced.tail = s.tail.unplaced := by
  obtain ⟨prev, _ | ⟨t, rest⟩⟩ := s <;> rfl

theorem length_unplaced (s : Input) : s.unplaced.rest.length = s.rest.length :=
  List.length_map _

end Input

namespace Parser

variable {α β γ δ : Type}

/-! ## Parsers -/

/-- The result with all places forgotten, where `g` forgets those of what was read. -/
def unplacedResult (g : α → β) :
    EStateM.Result (List ParseError) Input α → EStateM.Result (List ParseError) Input β
  | .ok a s => .ok (g a) s.unplaced
  | .error errors s => .error (errors.map ParseError.unplaced) s.unplaced

/-- With forgotten places `q` reads what `p` reads, with its places forgotten. -/
def Forgets (g : α → β) (p : Parser α) (q : Parser β) : Prop :=
  ∀ s, q s.unplaced = unplacedResult g (p s)

variable {g : α → β} {h : γ → δ} {p : Parser α} {q : Parser β}

theorem forgets_pure {a : α} {b : β} (hb : b = g a) : Forgets g (pure a) (pure b) := by
  rw [hb]
  exact fun _ => rfl

theorem Forgets.bind {f : α → Parser γ} {f' : β → Parser δ} (hp : Forgets g p q)
    (hf : ∀ a, Forgets h (f a) (f' (g a))) : Forgets h (p >>= f) (q >>= f') := by
  intro s
  change EStateM.bind q f' s.unplaced = unplacedResult h (EStateM.bind p f s)
  rw [EStateM.bind, hp s, EStateM.bind]
  cases p s with
  | ok a s' => exact hf a s'
  | error errors s' => rfl

theorem forgets_throw_nil : Forgets g (throw []) (throw []) := fun _ => rfl

theorem forgets_fail (span : Span) (cause : ParseError.Cause) :
    Forgets g (fail span cause) (fail .origin cause) := fun _ => rfl

theorem forgets_here : Forgets (fun _ => Span.origin) here here := fun s => by
  change EStateM.Result.ok s.unplaced.here s.unplaced = _
  rw [s.here_unplaced]
  rfl

theorem forgets_previous : Forgets (fun _ => Span.origin) previous previous := fun _ => rfl

theorem forgets_peek : Forgets id peek peek := fun s => by
  change EStateM.Result.ok s.unplaced.next? s.unplaced = _
  rw [s.next?_unplaced]
  rfl

theorem forgets_advance : Forgets id advance advance := fun s => by
  change EStateM.Result.ok () s.unplaced.tail = _
  rw [s.tail_unplaced]
  rfl

theorem Forgets.ite {c : Prop} [Decidable c] {p' : Parser α} {q' : Parser β} (hp : Forgets g p q)
    (hp' : Forgets g p' q') : Forgets g (if c then p else p') (if c then q else q') := by
  split
  · exact hp
  · exact hp'

theorem forgets_accept (token : Token) : Forgets id (accept token) (accept token) :=
  forgets_peek.bind fun _ =>
    Forgets.ite (forgets_advance.bind fun _ => forgets_pure rfl) (forgets_pure rfl)

theorem forgets_expect (token : Token) :
    Forgets (fun _ => Span.origin) (expect token) (expect token) :=
  forgets_here.bind fun span => forgets_peek.bind fun _ =>
    Forgets.ite (forgets_advance.bind fun _ => forgets_pure rfl) (forgets_fail span _)

theorem forgets_symbol : Forgets Located.unplaced symbol symbol :=
  forgets_here.bind fun span => forgets_peek.bind fun found => by
    dsimp only [id]
    split
    · exact forgets_advance.bind fun _ => forgets_pure rfl
    · exact forgets_fail span _

theorem forgets_typeVar : Forgets id typeVar typeVar :=
  forgets_here.bind fun span => forgets_peek.bind fun found => by
    dsimp only [id]
    split
    · exact forgets_advance.bind fun _ => forgets_pure rfl
    · exact forgets_fail span _

theorem forgets_string? : Forgets id string? string? :=
  forgets_peek.bind fun found => by
    dsimp only [id]
    split
    · exact forgets_advance.bind fun _ => forgets_pure rfl
    · exact forgets_pure rfl

theorem forgets_atClose : Forgets id atClose atClose :=
  forgets_peek.bind fun found => by
    dsimp only [id]
    split <;> exact forgets_pure rfl

theorem Forgets.untilCloseWithin (hp : Forgets g p q) (n : Nat) :
    Forgets (List.map g) (untilCloseWithin p n) (untilCloseWithin q n) := by
  induction n with
  | zero => exact forgets_pure rfl
  | succ n ih =>
    refine forgets_atClose.bind fun close => ?_
    exact Forgets.ite (forgets_pure rfl) (hp.bind fun _ => ih.bind fun _ => forgets_pure rfl)

theorem Forgets.untilClose (hp : Forgets g p q) :
    Forgets (List.map g) (untilClose p) (untilClose q) := fun s => by
  change Parser.untilCloseWithin q s.unplaced.rest.length s.unplaced = _
  rw [s.length_unplaced]
  exact hp.untilCloseWithin _ s

theorem Forgets.closing (hp : Forgets g p q) :
    Forgets (fun r => (g r.1, Span.origin)) (closing p) (closing q) := fun s => by
  rw [Parser.closing, hp s, Parser.closing]
  cases p s with
  | ok a s' =>
    have hclose : Forgets (fun r : α × Span => (g r.1, Span.origin))
        (do return (a, ← expect .closeParen)) (do return (g a, ← expect .closeParen)) :=
      (forgets_expect .closeParen).bind fun _ => forgets_pure rfl
    exact hclose s'
  | error errors s' =>
    dsimp only [unplacedResult]
    rw [forgets_expect .closeParen s']
    cases expect .closeParen s' with
    | ok _ s'' => rfl
    | error more s'' => exact congrArg (EStateM.Result.error · _) List.map_append.symm

theorem Forgets.enclosed (hp : Forgets g p q) : Forgets g (enclosed p) (enclosed q) :=
  (forgets_expect _).bind fun _ => hp.bind fun _ => (forgets_expect _).bind fun _ =>
    forgets_pure rfl

theorem forgets_typeVars : Forgets id typeVars typeVars := by
  refine forgets_peek.bind fun _ => Forgets.ite ?_ (forgets_typeVar.bind fun _ => forgets_pure rfl)
  have hvars := forgets_typeVar.untilClose.enclosed
  rwa [List.map_id_fun] at hvars

end Parser

end Surface

end PolyLambda
