import PolyLambda.Proofs.Surface.Expr

/-!
# Trees are nested as the source is

The trees of phrases whose tokens stand in order are nested (`Nested`): the place of every node lies
inside the place of the node above it. The places inside a form do not all come from its own tokens:
what it makes up shares a beginning with the form, or with a parameter, and an end with its last
part. What is said of a phrase is therefore only that its tree is nested in any stretch of the
source in which its tokens stand in order (`Nests`), and a stretch can be widened.
-/

namespace PolyLambda

theorem Span.cover_eq {s t : Span} (hstart : s.start ≤ t.start) (hstop : s.stop ≤ t.stop) :
    s.cover t = ⟨s.start, t.stop⟩ :=
  congr (congrArg Span.mk (if_pos hstart)) (if_pos hstop)

namespace Surface

open PolyLambda.Surface.Parser (Param Argument)

/-! ## Nodes -/

/-- What has a place in a declaration. -/
inductive Node where
  | type (t : TypeExpr)
  | pattern (p : Pattern)
  | expr (e : Expr)
  | branch (b : Branch)
  | constructor (c : Constructor)
  | declaration (d : Declaration)

def TypeExpr.parts : TypeExpr → List Node
  | var _ _ | named _ _ => []
  | arrow _ param result => [.type param, .type result]
  | all _ _ body => [.type body]
  | applied _ _ args => args.map .type

def Expr.parts : Expr → List Node
  | var _ _ | int _ _ | string _ _ => []
  | lam _ _ type _ body => .expr body :: type.toList.map .type
  | app _ fn arg => [.expr fn, .expr arg]
  | tlam _ _ body => [.expr body]
  | tapp _ fn type => [.expr fn, .type type]
  | letIn _ _ value body => [.expr value, .expr body]
  | ann _ type expr => [.type type, .expr expr]
  | case _ scrutinee branches => .expr scrutinee :: branches.map .branch
  | con _ _ args | tool _ _ args | op _ _ args => args.map .expr

theorem Expr.parts_withSpan (s : Span) (e : Expr) : (e.withSpan s).parts = e.parts := by
  cases e <;> rfl

def Declaration.parts : Declaration → List Node
  | data d => d.constructors.map .constructor
  | definition d => .expr d.body :: d.type.toList.map .type
  | primType _ => []
  | primOp d => [.type d.type]

namespace Node

def span : Node → Span
  | type t => t.span
  | pattern p => p.span
  | expr e => e.span
  | branch b => b.span
  | constructor c => c.span
  | declaration d => d.span

/-- The nodes right below. -/
def parts : Node → List Node
  | type t => t.parts
  | pattern _ => []
  | expr e => e.parts
  | branch b => [.pattern b.pattern, .expr b.body]
  | constructor c => c.fields.map .type
  | declaration d => d.parts

end Node

/-! ## Nesting -/

/-- A tree inside `outer`, every node of which lies inside the node above it. -/
inductive Nested : (outer : Span) → Node → Prop
  | mk {outer : Span} {n : Node} : n.span.start ≤ n.span.stop → n.span.Within outer →
      (∀ part ∈ n.parts, Nested n.span part) → Nested outer n

namespace Nested

variable {w outer : Span} {n : Node}

theorem mono (h : Nested w n) (hw : w.Within outer) : Nested outer n := by
  obtain ⟨hle, hwithin, hparts⟩ := h
  exact ⟨hle, hwithin.trans hw, hparts⟩

theorem le (h : Nested outer n) : outer.start ≤ outer.stop := by
  obtain ⟨hle, ⟨hstart, hstop⟩, -⟩ := h
  exact UInt32.le_trans hstart (UInt32.le_trans hle hstop)

/-- What is above a node lies around its parts too. -/
theorem parts (h : Nested outer n) : ∀ part ∈ n.parts, Nested outer part := by
  obtain ⟨-, hwithin, hparts⟩ := h
  exact fun part hpart => (hparts part hpart).mono hwithin

end Nested

namespace Grammar

/-! ## Tokens in order -/

/-- The tokens stand one behind the other between the bytes `lo` and `hi`. -/
def InOrder (lo : UInt32) : Tokens → (hi : UInt32) → Prop
  | [], hi => lo ≤ hi
  | t :: ts, hi => lo ≤ t.span.start ∧ t.span.start ≤ t.span.stop ∧ InOrder t.span.stop ts hi

section

variable {lo lo' hi hi' : UInt32} {t : Located Token} {ts us : Tokens} {o c : Span}

theorem InOrder.le (h : InOrder lo ts hi) : lo ≤ hi := by
  induction ts generalizing lo with
  | nil => exact h
  | cons t ts ih =>
    obtain ⟨hlo, ht, hts⟩ := h
    exact UInt32.le_trans hlo (UInt32.le_trans ht (ih hts))

theorem InOrder.mono (h : InOrder lo ts hi) (hlo : lo' ≤ lo) (hhi : hi ≤ hi') :
    InOrder lo' ts hi' := by
  induction ts generalizing lo lo' with
  | nil => exact UInt32.le_trans hlo (UInt32.le_trans h hhi)
  | cons t ts ih =>
    obtain ⟨hstart, ht, hts⟩ := h
    exact ⟨UInt32.le_trans hlo hstart, ht, ih hts (UInt32.le_refl _)⟩

theorem inOrder_append_iff : InOrder lo (ts ++ us) hi ↔
    ∃ mid, InOrder lo ts mid ∧ InOrder mid us hi := by
  induction ts generalizing lo with
  | nil =>
    exact ⟨fun h => ⟨lo, UInt32.le_refl _, h⟩, fun ⟨mid, hle, h⟩ => h.mono hle (UInt32.le_refl _)⟩
  | cons t ts ih =>
    rw [List.cons_append, InOrder, ih]
    exact ⟨fun ⟨hlo, ht, mid, hts, hus⟩ => ⟨mid, ⟨hlo, ht, hts⟩, hus⟩,
      fun ⟨mid, ⟨hlo, ht, hts⟩, hus⟩ => ⟨hlo, ht, mid, hts, hus⟩⟩

/-- Behind the first token. -/
theorem InOrder.tail (h : InOrder lo (t :: ts) hi) : InOrder lo ts hi := by
  obtain ⟨hlo, ht, hts⟩ := h
  exact hts.mono (UInt32.le_trans hlo ht) (UInt32.le_refl _)

theorem inOrder_parens_iff : InOrder lo (parens o c ts) hi ↔
    lo ≤ o.start ∧ o.start ≤ o.stop ∧ InOrder o.stop ts c.start ∧ c.start ≤ c.stop ∧
      c.stop ≤ hi := by
  rw [parens, InOrder, inOrder_append_iff]
  constructor
  · rintro ⟨hlo, ho, mid, hts, hc, hcc, hhi⟩
    exact ⟨hlo, ho, hts.mono (UInt32.le_refl _) hc, hcc, hhi⟩
  · rintro ⟨hlo, ho, hts, hcc, hhi⟩
    exact ⟨hlo, ho, c.start, hts, UInt32.le_refl _, hcc, hhi⟩

/-- A pair of parentheses takes one stretch of the source, and its content is inside. -/
theorem InOrder.parens (h : InOrder lo (parens o c ts) hi) :
    o.cover c = ⟨o.start, c.stop⟩ ∧ o.start ≤ c.stop ∧ Span.Within ⟨o.start, c.stop⟩ ⟨lo, hi⟩ ∧
      InOrder o.start ts c.stop := by
  obtain ⟨hlo, ho, hts, hc, hhi⟩ := inOrder_parens_iff.1 h
  have hstart : o.start ≤ c.start := UInt32.le_trans ho hts.le
  have hstop : o.stop ≤ c.stop := UInt32.le_trans hts.le hc
  exact ⟨Span.cover_eq hstart hstop, UInt32.le_trans ho hstop, ⟨hlo, hhi⟩, hts.mono ho hc⟩

theorem InOrder.stopFrom (prev : Span) (h : InOrder lo (t :: ts) hi) :
    InOrder lo (t :: ts) (stopFrom prev (t :: ts)).stop ∧ lo ≤ (stopFrom prev (t :: ts)).start ∧
      (stopFrom prev (t :: ts)).stop ≤ hi := by
  induction ts generalizing lo prev t with
  | nil => exact ⟨⟨h.1, h.2.1, UInt32.le_refl _⟩, h.1, h.2.2⟩
  | cons u ts ih =>
    obtain ⟨hlo, ht, hts⟩ := h
    obtain ⟨hreach, hstart, hstop⟩ := ih t.span hts
    exact ⟨⟨hlo, ht, hreach⟩, UInt32.le_trans hlo (UInt32.le_trans ht hstart), hstop⟩

/-- Tokens in order reach to the last one of them. -/
theorem InOrder.stop (h : InOrder lo ts hi) (hne : ts ≠ []) :
    InOrder lo ts (stop ts).stop ∧ lo ≤ (stop ts).start ∧ (stop ts).stop ≤ hi := by
  obtain ⟨t, us, rfl⟩ := List.exists_cons_of_ne_nil hne
  exact h.stopFrom .origin

end

/-! ## Phrases -/

section

variable {α β : Type} {P : Phrases α} {node : α → Node} {lo hi : UInt32} {ts us : Tokens}

/-- Wherever the tokens of a phrase stand in order, its tree is nested there. -/
def Nests (P : Phrases α) (node : α → Node) : Prop :=
  ∀ ⦃ts : Tokens⦄ ⦃a : α⦄, P ts a → ∀ ⦃lo hi : UInt32⦄, InOrder lo ts hi → Nested ⟨lo, hi⟩ (node a)

theorem Nests.each (h : Nests P node) {as : List α} (has : Each P ts as) (hts : InOrder lo ts hi) :
    ∀ part ∈ as.map node, Nested ⟨lo, hi⟩ part := by
  induction has generalizing lo with
  | nil => exact nofun
  | cons ha _ ih =>
    obtain ⟨mid, hfirst, hothers⟩ := inOrder_append_iff.1 hts
    refine List.forall_mem_cons.2 ⟨(h ha hfirst).mono ⟨UInt32.le_refl _, hothers.le⟩,
      fun part hpart => ?_⟩
    exact (ih hothers part hpart).mono ⟨hfirst.le, UInt32.le_refl _⟩

/-- The tree of a phrase at a place of the source that contains the trees below. -/
theorem nested_of_parts {n : Node} {w outer : Span} (hn : n.span = w) (hle : w.start ≤ w.stop)
    (hw : w.Within outer) (hparts : ∀ part ∈ n.parts, Nested w part) : Nested outer n := by
  subst hn
  exact ⟨hle, hw, hparts⟩

/-- A node without parts at a token. -/
theorem InOrder.nested {t : Located Token} {n : Node} (h : InOrder lo [t] hi) (hn : n.span = t.span)
    (hparts : n.parts = []) : Nested ⟨lo, hi⟩ n := by
  obtain ⟨hlo, ht, hhi⟩ := h
  refine nested_of_parts hn ht ⟨hlo, hhi⟩ ?_
  rw [hparts]
  exact nofun

theorem nests_headed {f : Span → String → List α → β} {node : β → Node}
    (hspan : ∀ s name as, (node (f s name as)).span = s)
    (hparts : ∀ {s name ts as lo hi}, Each P ts as → InOrder lo ts hi →
      ∀ part ∈ (node (f s name as)).parts, Nested ⟨lo, hi⟩ part) : Nests (Headed P f) node := by
  rintro ts b (_ | ⟨has⟩) lo hi hts
  · obtain ⟨hlo, hs, hhi⟩ := hts
    exact nested_of_parts (hspan _ _ _) hs ⟨hlo, hhi⟩ (hparts .nil hs)
  · obtain ⟨hcover, hle, hw, hinner⟩ := hts.parens
    exact nested_of_parts ((hspan _ _ _).trans hcover) hle hw (hparts has hinner.tail)

end

/-! ## Types -/

theorem nested_arrows {w : Span} (hw : w.start ≤ w.stop) {first : TypeExpr} {types : List TypeExpr}
    (h : ∀ t ∈ first :: types, Nested w (.type t)) :
    Nested w (.type (Parser.arrows w first types)) := by
  induction types generalizing first with
  | nil => exact h _ (List.mem_singleton_self _)
  | cons second types ih =>
    obtain ⟨hfirst, hothers⟩ := List.forall_mem_cons.1 h
    refine nested_of_parts rfl hw (.refl _) (List.forall_mem_cons.2 ⟨hfirst, ?_⟩)
    exact List.forall_mem_singleton.2 (ih hothers)

/-- Binders that all stand at the place of their form. -/
theorem nested_foldr {α β : Type} {w : Span} {node : β → Node} {f : α → β → β} {as : List α} {b : β}
    (hb : Nested w (node b)) (hf : ∀ a ∈ as, ∀ b, Nested w (node b) → Nested w (node (f a b))) :
    Nested w (node (as.foldr f b)) := by
  induction as with
  | nil => exact hb
  | cons a as ih =>
    obtain ⟨ha, has⟩ := List.forall_mem_cons.1 hf
    exact ha _ (ih has)

theorem nested_typeForm {T : Phrases TypeExpr} (hT : Nests T .type) {w : Span}
    (hw : w.start ≤ w.stop) {ts : Tokens} {t : TypeExpr} (h : IsTypeForm T w ts t)
    (hts : InOrder w.start ts w.stop) : Nested w (.type t) := by
  obtain (⟨⟨h⟩⟩ | ⟨@⟨_, us, _, _, _, hvars, hbody⟩⟩ | ⟨_ | ⟨-, -, hargs, -⟩⟩) := h
  · exact nested_arrows hw (List.forall_mem_map.1 (hT.each h hts.tail))
  · obtain ⟨mid, hvars, hbody'⟩ := inOrder_append_iff.1 hts.tail
    have hnested := hT hbody (hbody'.mono hvars.le (UInt32.le_refl _))
    refine nested_foldr hnested fun _ _ _ hb => ?_
    exact nested_of_parts rfl hw (.refl _) (List.forall_mem_singleton.2 hb)
  · exact nested_of_parts rfl hw (.refl _) nofun
  · exact nested_of_parts rfl hw (.refl _) (hT.each hargs hts.tail)

/-- Induction on types as they are written: of the types inside parentheses the statement is
known. -/
theorem IsType.induct {motive : Tokens → TypeExpr → Prop}
    (var : ∀ {s name}, motive [⟨s, .typeVar name⟩] (.var s name))
    (named : ∀ {s name}, motive [⟨s, .symbol name⟩] (.named s name))
    (paren : ∀ {o c ts t}, IsTypeForm motive (o.cover c) ts t → motive (parens o c ts) t)
    {ts : Tokens} {t : TypeExpr} (h : IsType ts t) : motive ts t :=
  @IsType.rec (fun ts t _ => motive ts t) (fun w ts t _ => IsTypeForm motive w ts t)
    (fun w ts t _ => IsArrow motive w ts t) (fun w ts t _ => IsAll motive w ts t)
    (fun w ts t _ => IsNamed motive w ts t) (fun ts types _ => Each motive ts types)
    var named (fun _ => paren) (fun _ => .arrow) (fun _ => .all) (fun _ => .named) (fun _ => .mk)
    (fun hvars _ => .mk hvars) .alone (fun h h' _ hne hargs => .applied h h' hargs hne) .nil
    (fun _ _ => .cons) _ _ h

theorem nests_isType : Nests IsType .type := by
  intro ts t h
  refine h.induct (motive := fun ts t => ∀ ⦃lo hi⦄, InOrder lo ts hi → Nested ⟨lo, hi⟩ (.type t))
    (fun hts => hts.nested rfl rfl) (fun hts => hts.nested rfl rfl) ?_
  intro o c ts t hform lo hi hts
  obtain ⟨hcover, hle, hw, hinner⟩ := hts.parens
  rw [hcover] at hform
  exact (nested_typeForm (fun _ _ h => h) hle hform hinner).mono hw

/-! ## Expressions -/

theorem nests_isPattern : Nests IsPattern .pattern :=
  nests_headed (fun _ _ _ => rfl) fun _ _ => nofun

/-- A parameter and its type. -/
structure ParamIn (w : Span) (p : Param) : Prop where
  le : p.span.start ≤ p.span.stop
  within : p.span.Within w
  type : ∀ t ∈ p.type, Nested p.span (.type t)

theorem IsBareParam.paramIn {ts : Tokens} {p : Param} (h : IsBareParam ts p) {lo hi : UInt32}
    (hts : InOrder lo ts hi) : ParamIn ⟨lo, hi⟩ p := by
  obtain ⟨⟩ := h
  obtain ⟨hlo, hs, hhi⟩ := hts
  exact ⟨hs, ⟨hlo, hhi⟩, nofun⟩

theorem IsAnnotatedParam.paramIn {ts : Tokens} {p : Param} (h : IsAnnotatedParam ts p)
    {lo hi : UInt32} (hts : InOrder lo ts hi) : ParamIn ⟨lo, hi⟩ p := by
  obtain ⟨htype, -⟩ := h
  obtain ⟨hcover, hle, hw, hinner⟩ := hts.parens
  obtain ⟨mid, htypes, hdoc⟩ := inOrder_append_iff.1 hinner.tail
  constructor
  · rwa [hcover]
  · rwa [hcover]
  · rw [hcover]
    rintro t ht
    obtain _ | htype := htype
    · cases ht
    · cases ht
      exact (nests_isType htype htypes.tail).mono ⟨UInt32.le_refl _, hdoc.le⟩

theorem IsParam.paramIn {ts : Tokens} {p : Param} (h : IsParam ts p) {lo hi : UInt32}
    (hts : InOrder lo ts hi) : ParamIn ⟨lo, hi⟩ p := by
  cases h with
  | bare h => exact h.paramIn hts
  | annotated h => exact h.paramIn hts

/-- A lambda reaches from its parameter to the end of its body. -/
theorem ParamIn.lam {lo mid : UInt32} {p : Param} (h : ParamIn ⟨lo, mid⟩ p) {z : Span} {e : Expr}
    (hz : mid ≤ z.start) (he : Nested ⟨mid, z.stop⟩ (.expr e)) :
    Nested ⟨lo, z.stop⟩ (.expr (.lam (p.span.cover z) p.name p.type p.doc e)) := by
  obtain ⟨hle, ⟨hlo, hmid⟩, htype⟩ := h
  have hstop : mid ≤ z.stop := he.le
  have hcover : p.span.cover z = ⟨p.span.start, z.stop⟩ :=
    Span.cover_eq (UInt32.le_trans hle (UInt32.le_trans hmid hz)) (UInt32.le_trans hmid hstop)
  refine nested_of_parts hcover (UInt32.le_trans hle (UInt32.le_trans hmid hstop))
    ⟨hlo, UInt32.le_refl _⟩ (List.forall_mem_cons.2 ⟨?_, fun part hpart => ?_⟩)
  · exact he.mono ⟨UInt32.le_trans hle hmid, UInt32.le_refl _⟩
  · obtain ⟨t, ht, rfl⟩ := List.mem_map.1 hpart
    exact (htype t (Option.mem_toList.1 ht)).mono ⟨UInt32.le_refl _, UInt32.le_trans hmid hstop⟩

theorem nested_lambdas {ts : Tokens} {params : List Param} (h : Each IsParam ts params)
    {lo mid : UInt32} (hts : InOrder lo ts mid) {z : Span} {body : Expr} (hz : mid ≤ z.start)
    (hbody : Nested ⟨mid, z.stop⟩ (.expr body)) : Nested ⟨lo, z.stop⟩
      (.expr (params.foldr (fun p e => .lam (p.span.cover z) p.name p.type p.doc e) body)) := by
  induction h generalizing lo with
  | nil => exact hbody.mono ⟨hts, UInt32.le_refl _⟩
  | cons hp _ ih =>
    obtain ⟨m, hfirst, hothers⟩ := inOrder_append_iff.1 hts
    exact (hp.paramIn hfirst).lam (UInt32.le_trans hothers.le hz) (ih hothers)

/-- Parameters stand one behind the other, with or without parentheses around them. -/
theorem IsParams.each {ts : Tokens} {params : List Param} (h : IsParams ts params) {lo hi : UInt32}
    (hts : InOrder lo ts hi) : ∃ us, Each IsParam us params ∧ InOrder lo us hi := by
  have hone {p : Param} (hp : IsParam ts p) : Each IsParam ts [p] := by
    simpa only [List.append_nil] using Each.cons hp .nil
  cases h with
  | bare hp => exact ⟨ts, hone (.bare hp), hts⟩
  | annotated hp _ => exact ⟨ts, hone (.annotated hp), hts⟩
  | many hps =>
    obtain ⟨-, -, ⟨hlo, hhi⟩, hinner⟩ := hts.parens
    exact ⟨_, hps, hinner.mono hlo hhi⟩

/-- The tree of an argument. -/
def argumentNode : Argument → Node
  | .expr e => .expr e
  | .type t => .type t

theorem nested_foldl_applyTo {w : Span} (hw : w.start ≤ w.stop) {head : Expr}
    (hhead : Nested w (.expr head)) {args : List Argument}
    (hargs : ∀ part ∈ args.map argumentNode, Nested w part) :
    Nested w (.expr (args.foldl (Parser.applyTo w) head)) := by
  induction args generalizing head with
  | nil => exact hhead
  | cons arg args ih =>
    obtain ⟨harg, hothers⟩ := List.forall_mem_cons.1 hargs
    refine ih ?_ hothers
    cases arg <;> exact nested_of_parts rfl hw (.refl _)
      (List.forall_mem_cons.2 ⟨hhead, List.forall_mem_singleton.2 harg⟩)

theorem map_argumentNode {args : List Argument} {fields : List Expr}
    (h : Parser.exprArguments? args = some fields) : args.map argumentNode = fields.map .expr := by
  induction args generalizing fields with
  | nil =>
    cases h
    rfl
  | cons arg args ih =>
    cases arg with
    | type t => cases h
    | expr e =>
      obtain ⟨others, hothers, rfl⟩ := Option.map_eq_some_iff.1 h
      rw [List.map_cons, List.map_cons, ih hothers, argumentNode]

theorem stop_append (ts : Tokens) {us : Tokens} (hne : us ≠ []) : stop (ts ++ us) = stop us := by
  obtain ⟨u, us, rfl⟩ := List.exists_cons_of_ne_nil hne
  rw [stop, stopFrom_append]
  rfl

/-- What a form that begins at `o` makes up covers its tokens, to the end of the last one. -/
theorem InOrder.cover_stop {o : Span} {ts : Tokens} {hi : UInt32} (h : InOrder o.stop ts hi)
    (hne : ts ≠ []) (ho : o.start ≤ o.stop) :
    o.cover (Grammar.stop ts) = ⟨o.start, (Grammar.stop ts).stop⟩ ∧
      InOrder o.start ts (Grammar.stop ts).stop ∧
      Span.Within ⟨o.start, (Grammar.stop ts).stop⟩ ⟨o.start, hi⟩ := by
  obtain ⟨hreach, hstart, hstop⟩ := h.stop hne
  exact ⟨Span.cover_eq (UInt32.le_trans ho hstart) hreach.le, hreach.mono ho (UInt32.le_refl _),
    UInt32.le_refl _, hstop⟩

section

variable {E : Phrases Expr} (hE : Nests E .expr) {lo hi : UInt32} {ts : Tokens} {e : Expr}

include hE

theorem nests_isBinding : Nests (IsBinding E) fun b => .expr b.2 := by
  rintro ts b ⟨hvalue⟩ lo hi hts
  obtain ⟨-, -, hw, hinner⟩ := hts.parens
  exact (hE hvalue hinner.tail).mono hw

theorem nests_isBranch : Nests (IsBranch E) .branch := by
  rintro ts b ⟨hpattern, hbody⟩ lo hi hts
  obtain ⟨hcover, hle, hw, hinner⟩ := hts.parens
  obtain ⟨mid, hps, hus⟩ := inOrder_append_iff.1 hinner
  refine nested_of_parts hcover hle hw (List.forall_mem_cons.2 ⟨?_, List.forall_mem_singleton.2 ?_⟩)
  · exact (nests_isPattern hpattern hps).mono ⟨UInt32.le_refl _, hus.le⟩
  · exact (hE hbody hus).mono ⟨hps.le, UInt32.le_refl _⟩

theorem nests_isArgument : Nests (IsArgument E) argumentNode := by
  rintro ts a (he | htype) lo hi hts
  · exact hE he hts
  · exact nests_isType htype hts.tail

section

variable (hproper : ∀ ts e, E ts e → ts ≠ [])

include hproper

theorem nested_lambda (h : IsLambda E ts e) (hts : InOrder lo ts hi) :
    Nested ⟨lo, hi⟩ (.expr e) := by
  obtain ⟨hparams, -, hbody⟩ := h
  obtain ⟨mid, hps, hus⟩ := inOrder_append_iff.1 hts
  obtain ⟨vs, hvs, hvs'⟩ := hparams.each hps
  obtain ⟨hreach, hstart, hstop⟩ := hus.stop (hproper _ _ hbody)
  exact (nested_lambdas hvs hvs' hstart (hE hbody hreach)).mono ⟨UInt32.le_refl _, hstop⟩

variable {o : Span} (ho : o.start ≤ o.stop) (hts : InOrder o.stop ts hi)

include ho hts

theorem nested_typeLambda (h : IsTypeLambda E o ts e) : Nested ⟨o.start, hi⟩ (.expr e) := by
  obtain @⟨ts, us, _, body, _, -, -, hbody⟩ := h
  have hne : us ≠ [] := hproper _ _ hbody
  obtain ⟨hcover, hreach, hw⟩ := hts.cover_stop (List.append_ne_nil_of_right_ne_nil _ hne) ho
  obtain ⟨mid, hvars, hus⟩ := inOrder_append_iff.1 hreach
  rw [← stop_append ts hne, hcover]
  have hnested : Nested ⟨o.start, (stop (ts ++ us)).stop⟩ (.expr body) :=
    (hE hbody hus).mono ⟨hvars.le, UInt32.le_refl _⟩
  refine (nested_foldr hnested fun _ _ _ hb => ?_).mono hw
  exact nested_of_parts rfl hreach.le (.refl _) (List.forall_mem_singleton.2 hb)

theorem nested_let (h : IsLet E o ts e) : Nested ⟨o.start, hi⟩ (.expr e) := by
  obtain @⟨p, q, ts, us, _, body, _, hbindings, hbody⟩ := h
  have hne : us ≠ [] := hproper _ _ hbody
  obtain ⟨hcover, hreach, hw⟩ := hts.cover_stop (List.append_ne_nil_of_right_ne_nil _ hne) ho
  obtain ⟨mid, hps, hus⟩ := inOrder_append_iff.1 hreach
  obtain ⟨-, -, ⟨hp, hq⟩, hinner⟩ := hps.parens
  rw [← stop_append (parens p q ts) hne, hcover]
  have hnested : Nested ⟨o.start, (stop (parens p q ts ++ us)).stop⟩ (.expr body) :=
    (hE hbody hus).mono ⟨hps.le, UInt32.le_refl _⟩
  refine (nested_foldr hnested fun b hb _ he => ?_).mono hw
  have hvalue := List.forall_mem_map.1 ((nests_isBinding hE).each hbindings hinner) b hb
  exact nested_of_parts rfl hreach.le (.refl _) (List.forall_mem_cons.2
    ⟨hvalue.mono ⟨hp, UInt32.le_trans hq hus.le⟩, List.forall_mem_singleton.2 he⟩)

theorem parts_application (h : IsApplication E o ts e) :
    ∀ part ∈ e.parts, Nested ⟨o.start, hi⟩ part := by
  obtain @⟨ts, us, head, args, _, -, hhead, hargs⟩ := h
  have hne : ts ++ us ≠ [] := List.append_ne_nil_of_left_ne_nil (hproper _ _ hhead) _
  obtain ⟨hcover, hreach, hw⟩ := hts.cover_stop hne ho
  obtain ⟨mid, hps, hus⟩ := inOrder_append_iff.1 hreach
  have hheads : Nested ⟨o.start, (stop (ts ++ us)).stop⟩ (.expr head) :=
    (hE hhead hps).mono ⟨UInt32.le_refl _, hus.le⟩
  have hall := (nests_isArgument hE).each hargs (hus.mono hps.le (UInt32.le_refl _))
  rw [Parser.application.eq_def]
  split
  next fields _ _ hfields =>
    rw [map_argumentNode hfields] at hall
    exact fun part hpart => (hall part hpart).mono hw
  next =>
    rw [hcover]
    exact ((nested_foldl_applyTo hreach.le hheads hall).mono hw).parts

/-- What a form that begins at `o` is made of is nested in the stretch from there to its end,
whatever place its own node is given in the end. -/
theorem parts_form (h : IsForm E o ts e) : ∀ part ∈ e.parts, Nested ⟨o.start, hi⟩ part := by
  cases h with
  | lambda h => exact (nested_lambda hE hproper h (hts.tail.mono ho (UInt32.le_refl _))).parts
  | typeLambda h => exact (nested_typeLambda hE hproper ho hts.tail h).parts
  | letIn h => exact (nested_let hE hproper ho hts.tail h).parts
  | ann h =>
    obtain ⟨htype, hexpr⟩ := h
    obtain ⟨mid, htypes, hus⟩ := inOrder_append_iff.1 hts.tail
    exact List.forall_mem_cons.2 ⟨(nests_isType htype htypes).mono ⟨ho, hus.le⟩,
      List.forall_mem_singleton.2
      ((hE hexpr hus).mono ⟨UInt32.le_trans ho htypes.le, UInt32.le_refl _⟩)⟩
  | case h =>
    obtain ⟨hscrutinee, hbranches⟩ := h
    obtain ⟨mid, hps, hus⟩ := inOrder_append_iff.1 hts.tail
    refine List.forall_mem_cons.2 ⟨(hE hscrutinee hps).mono ⟨ho, hus.le⟩, ?_⟩
    exact (nests_isBranch hE).each hbranches
      (hus.mono (UInt32.le_trans ho hps.le) (UInt32.le_refl _))
  | tool h =>
    obtain ⟨hargs⟩ := h
    exact hE.each hargs (hts.tail.tail.mono ho (UInt32.le_refl _))
  | op h =>
    obtain ⟨hargs, -⟩ := h
    exact hE.each hargs (hts.tail.mono ho (UInt32.le_refl _))
  | app h => exact parts_application hE hproper ho hts h

end

end

/-- Induction on expressions as they are written: of the expressions inside parentheses the
statement is known, besides that they are expressions. -/
theorem IsExpr.induct {motive : Tokens → Expr → Prop}
    (var : ∀ {s name}, motive [⟨s, .symbol name⟩] (.var s name))
    (con : ∀ {s name}, motive [⟨s, .symbol name⟩] (.con s name []))
    (int : ∀ {s value}, motive [⟨s, .int value⟩] (.int s value))
    (string : ∀ {s text}, motive [⟨s, .string text⟩] (.string s text))
    (paren : ∀ {o c ts e}, IsForm (fun ts e => IsExpr ts e ∧ motive ts e) o ts e →
      motive (parens o c ts) (e.withSpan (o.cover c)))
    {ts : Tokens} {e : Expr} (h : IsExpr ts e) : motive ts e := by
  let Known : Phrases Expr := fun ts e => IsExpr ts e ∧ motive ts e
  exact @IsExpr.rec (fun ts e _ => motive ts e) (fun o ts e _ => IsForm Known o ts e)
    (fun ts e _ => IsLambda Known ts e) (fun o ts e _ => IsTypeLambda Known o ts e)
    (fun o ts e _ => IsLet Known o ts e) (fun o ts e _ => IsAnn Known o ts e)
    (fun o ts e _ => IsCase Known o ts e) (fun o ts e _ => IsTool Known o ts e)
    (fun o ts e _ => IsOperation Known o ts e) (fun o ts e _ => IsApplication Known o ts e)
    (fun ts bs _ => Each (IsBinding Known) ts bs) (fun ts bs _ => Each (IsBranch Known) ts bs)
    (fun ts es _ => Each Known ts es) (fun ts args _ => Each (IsArgument Known) ts args)
    (fun ts b _ => IsBinding Known ts b) (fun ts b _ => IsBranch Known ts b)
    (fun ts a _ => IsArgument Known ts a)
    (fun _ => var) (fun _ => con) int string (fun _ => paren)
    (fun _ => .lambda) (fun _ => .typeLambda) (fun _ => .letIn) (fun _ => .ann) (fun _ => .case)
    (fun _ => .tool) (fun _ => .op) (fun _ => .app)
    (fun hparams hne hbody ih => .mk hparams hne ⟨hbody, ih⟩)
    (fun hvars hne hbody ih => .mk hvars hne ⟨hbody, ih⟩)
    (fun _ hbody hbindings ih => .mk hbindings ⟨hbody, ih⟩)
    (fun htype he ih => .mk htype ⟨he, ih⟩)
    (fun he _ ih hbranches => .mk ⟨he, ih⟩ hbranches)
    (fun _ hargs => .mk hargs) (fun _ hcount hargs => .mk hargs hcount)
    (fun hnot he _ ih hargs => .mk hnot ⟨he, ih⟩ hargs)
    .nil (fun _ _ => .cons) .nil (fun _ _ => .cons)
    .nil (fun he _ ih hothers => .cons ⟨he, ih⟩ hothers) .nil (fun _ _ => .cons)
    (fun he ih => .mk ⟨he, ih⟩) (fun hpattern he ih => .mk hpattern ⟨he, ih⟩)
    (fun he ih => .expr ⟨he, ih⟩) .type _ _ h

theorem nests_isExpr : Nests IsExpr .expr := by
  intro ts e h
  refine h.induct (motive := fun ts e => ∀ ⦃lo hi⦄, InOrder lo ts hi → Nested ⟨lo, hi⟩ (.expr e))
    (fun hts => hts.nested rfl rfl) (fun hts => hts.nested rfl rfl)
    (fun hts => hts.nested rfl rfl) (fun hts => hts.nested rfl rfl) ?_
  intro o c ts e hform lo hi hts
  obtain ⟨hcover, hle, hw, -⟩ := hts.parens
  obtain ⟨-, ho, hinner, hc, -⟩ := inOrder_parens_iff.1 hts
  have hparts := parts_form (fun _ _ h => h.2) (fun _ _ h => by
    obtain ⟨_, _, rfl, -⟩ := Parser.proper_isExpr _ _ h.1
    exact List.cons_ne_nil _ _) ho (hinner.mono (UInt32.le_refl _) hc) hform
  refine nested_of_parts ((Expr.span_withSpan _ e).trans hcover) hle hw ?_
  rw [Node.parts, Expr.parts_withSpan]
  exact hparts

/-! ## Declarations -/

theorem nests_isConstructor : Nests IsConstructor .constructor :=
  nests_headed (fun _ _ _ => rfl) nests_isType.each

theorem parts_declarationForm {w : Span} {ts : Tokens} {d : Declaration}
    (h : IsDeclarationForm w ts d) (hts : InOrder w.start ts w.stop) :
    ∀ part ∈ d.parts, Nested w part := by
  cases h with
  | definition h =>
    obtain ⟨htype, -, hbody⟩ := h
    obtain ⟨mid, htypes, hrest⟩ := inOrder_append_iff.1 hts.tail.tail
    obtain ⟨mid', hpreamble, hbodies⟩ := inOrder_append_iff.1 hrest
    have hle := hpreamble.le
    refine List.forall_mem_cons.2 ⟨?_, ?_⟩
    · exact (nests_isExpr hbody hbodies).mono ⟨UInt32.le_trans htypes.le hle, UInt32.le_refl _⟩
    · obtain _ | htype := htype
      · exact nofun
      · exact List.forall_mem_singleton.2
          ((nests_isType htype htypes.tail).mono ⟨UInt32.le_refl _, hrest.le⟩)
  | data h =>
    obtain ⟨-, hconstructors⟩ := h
    obtain ⟨mid, hhead, hus⟩ := inOrder_append_iff.1 hts.tail
    exact nests_isConstructor.each hconstructors (hus.mono hhead.le (UInt32.le_refl _))
  | primType => exact nofun
  | primOp h =>
    obtain ⟨htype⟩ := h
    exact List.forall_mem_singleton.2 (nests_isType htype hts.tail.tail.tail)

theorem IsDeclarationForm.span {w : Span} {ts : Tokens} {d : Declaration}
    (h : IsDeclarationForm w ts d) : d.span = w := by
  obtain ⟨⟨⟩⟩ | ⟨⟨⟩⟩ | ⟨⟨⟩⟩ | ⟨⟨⟩⟩ := h <;> rfl

theorem nests_isDeclaration : Nests IsDeclaration .declaration := by
  rintro ts d ⟨hform⟩ lo hi hts
  obtain ⟨hcover, hle, hw, hinner⟩ := hts.parens
  rw [hcover] at hform
  exact nested_of_parts hform.span hle hw (parts_declarationForm hform hinner)

end Grammar

end Surface

end PolyLambda
