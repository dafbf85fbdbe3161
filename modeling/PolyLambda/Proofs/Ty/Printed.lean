import PolyLambda.Module.Prelude
import PolyLambda.Proofs.Module.Closed
import PolyLambda.Proofs.Surface.Anywhere
import PolyLambda.Proofs.Surface.TypeExpr
import PolyLambda.Proofs.Token.Written

/-!
# Printed types read back

The text of a type that a source text can mean is read back as that type. Such a type is built of
names that can be written and that are found in the tables (`Ty.Expressible`). Its text is read as
the tokens of the type (`Ty.Expressible.isRead`), and these are a type expression that means the
type again (`Ty.Expressible.isMeant`). A chain of arrows is printed in one pair of parentheses, so
both statements speak of a type by itself and of a type that ends a chain.
-/

namespace PolyLambda

open Surface Surface.Grammar Token

namespace Ty

/-! ## Types that can be meant -/

/-- Where the type variables `vars` are bound, some type expression means the type. -/
inductive Expressible (sig : Signature) : List String → Ty → Prop
  | var {vars : List String} {name : String} : name ∈ vars → Writable (.typeVar name) →
      Expressible sig vars (.var name)
  | arrow {vars : List String} {p r : Ty} : Expressible sig vars p → Expressible sig vars r →
      Expressible sig vars (.arrow p r)
  | all {vars : List String} {v : String} {b : Ty} : Writable (.typeVar v) →
      Expressible sig (v :: vars) b → Expressible sig vars (.all v b)
  /-- Behind an opening parenthesis `->` and `forall` are keywords. -/
  | data {vars : List String} {name : String} {args : List Ty} : Writable (.symbol name) →
      (args ≠ [] → name ≠ "->" ∧ name ≠ "forall") →
      (∀ span, sig.resolveType span name args = .ok (.data name args)) →
      (∀ arg ∈ args, Expressible sig vars arg) → Expressible sig vars (.data name args)
  | prim {vars : List String} {name : String} : Writable (.symbol name) →
      (∀ span, sig.resolveType span name [] = .ok (.prim name)) → Expressible sig vars (.prim name)

variable {sig : Signature} {vars : List String}

theorem expressible_of_resolveType {span : Span} {name : String} {args : List Ty} {t : Ty}
    (h : sig.resolveType span name args = .ok t) (hname : Writable (.symbol name))
    (hne : args ≠ [] → name ≠ "->" ∧ name ≠ "forall")
    (hargs : ∀ arg ∈ args, Expressible sig vars arg) : Expressible sig vars t := by
  rw [Signature.resolveType] at h
  split at h
  next hprim =>
    split at h
    next hempty =>
      cases h
      exact .prim hname fun _ => by rw [Signature.resolveType, if_pos hprim]; rfl
    next => cases h
  next hprim =>
    split at h
    next d hd =>
      split at h
      next harity =>
        cases h
        refine .data hname hne (fun _ => ?_) hargs
        rw [Signature.resolveType, if_neg hprim, hd]
        exact if_pos harity
      next => cases h
    next => cases h

/-- Every type that the expression means is expressible. -/
def MeansExpressible (sig : Signature) (vars : List String) (e : TypeExpr) : Prop :=
  ∀ t, e.resolve sig vars = .ok t → Expressible sig vars t

theorem meansExpressible_arrows {w : Span} {first : TypeExpr} {others : List TypeExpr}
    (h : ∀ e ∈ first :: others, MeansExpressible sig vars e) :
    MeansExpressible sig vars (Parser.arrows w first others) := by
  induction others generalizing first with
  | nil => exact h first List.mem_cons_self
  | cons second others ih =>
    rw [List.forall_mem_cons] at h
    intro t ht
    rw [Parser.arrows, TypeExpr.resolve_arrow] at ht
    obtain ⟨p, hp, ht⟩ := bind_eq_ok_iff.1 ht
    obtain ⟨r, hr, ht⟩ := bind_eq_ok_iff.1 ht
    cases ht
    exact .arrow (h.1 p hp) (ih h.2 r hr)

theorem meansExpressible_alls {w : Span} {names : List String} {body : TypeExpr}
    (hnames : ∀ name ∈ names, Writable (.typeVar name))
    (hbody : ∀ vars, MeansExpressible sig vars body) :
    MeansExpressible sig vars (names.foldr (TypeExpr.all w) body) := by
  induction names generalizing vars with
  | nil => exact hbody vars
  | cons name names ih =>
    rw [List.forall_mem_cons] at hnames
    intro t ht
    rw [List.foldr_cons, TypeExpr.resolve_all] at ht
    obtain ⟨b, hb, ht⟩ := bind_eq_ok_iff.1 ht
    cases ht
    exact .all hnames.1 (ih hnames.2 b hb)

theorem expressible_of_resolveAll {es : List TypeExpr} {ts : List Ty}
    (h : TypeExpr.resolveAll sig vars es = .ok ts) (hes : ∀ e ∈ es, MeansExpressible sig vars e) :
    ∀ t ∈ ts, Expressible sig vars t := by
  induction es generalizing ts with
  | nil =>
    cases h
    exact nofun
  | cons e es ih =>
    rw [List.forall_mem_cons] at hes
    rw [TypeExpr.resolveAll_cons] at h
    obtain ⟨t, ht, h⟩ := bind_eq_ok_iff.1 h
    obtain ⟨ts, hts, h⟩ := bind_eq_ok_iff.1 h
    cases h
    exact List.forall_mem_cons.2 ⟨hes.1 t ht, ih hts hes.2⟩

theorem writable_of_isTypeVars {ts : Tokens} {names : List String} (h : IsTypeVars ts names)
    (hts : ∀ t ∈ ts, t.val.Writable) : ∀ name ∈ names, Writable (.typeVar name) := by
  have hone : ∀ us name, IsTypeVar us name → us <:+: ts → Writable (.typeVar name) := by
    rintro _ _ ⟨⟩ hus
    exact hts _ (hus.subset List.mem_cons_self)
  cases h with
  | one h => exact List.forall_mem_singleton.2 (hone _ _ h List.infix_rfl)
  | many h =>
    intro name hname
    obtain ⟨us, hus, hvar⟩ := h.exists_infix name hname
    exact hone us name hvar (hus.trans ⟨[_], [_], rfl⟩)

theorem meansExpressible_of_isTypeForm {w : Span} {ts : Tokens} {e : TypeExpr}
    (h : IsTypeForm IsType w ts e) (hts : ∀ t ∈ ts, t.val.Writable)
    (hparts : ∀ us, us <:+: ts → ∀ e, IsType us e → ∀ vars, MeansExpressible sig vars e) :
    MeansExpressible sig vars e := by
  cases h with
  | arrow h =>
    obtain ⟨hEach⟩ := h
    refine meansExpressible_arrows fun e he => ?_
    obtain ⟨us, hus, hP⟩ := hEach.exists_infix e he
    exact hparts us (hus.trans (List.suffix_cons _ _).isInfix) e hP vars
  | all h =>
    obtain @⟨us, vs, names, body, _, hnames, hbody⟩ := h
    refine meansExpressible_alls (writable_of_isTypeVars hnames fun t ht => hts t ?_) fun vars =>
      hparts vs ?_ body hbody vars
    · exact List.mem_cons_of_mem _ (List.mem_append_left _ ht)
    · exact ⟨_ :: us, [], (List.append_nil _).trans rfl⟩
  | named h =>
    cases h with
    | alone harrow hall =>
      exact fun t ht => expressible_of_resolveType ht (hts _ List.mem_cons_self) (absurd rfl) nofun
    | @applied s name us args _ harrow hall hEach =>
      intro t ht
      rw [TypeExpr.resolve_applied] at ht
      obtain ⟨types, htypes, ht⟩ := bind_eq_ok_iff.1 ht
      refine expressible_of_resolveType ht (hts _ List.mem_cons_self) (fun _ => ⟨harrow, hall⟩)
        (expressible_of_resolveAll htypes fun e he => ?_)
      obtain ⟨vs, hvs, hP⟩ := hEach.exists_infix e he
      exact hparts vs (hvs.trans (List.suffix_cons _ _).isInfix) e hP vars

/-- A type expression whose tokens can be written means expressible types. -/
theorem meansExpressible_of_isType {ts : Tokens} {e : TypeExpr} (h : IsType ts e)
    (hts : ∀ t ∈ ts, t.val.Writable) : MeansExpressible sig vars e := by
  -- The grammar of types is nested in itself, so the induction is on the number of tokens.
  induction hn : ts.length using Nat.strongRecOn generalizing ts e vars with
  | ind n ih =>
    subst hn
    cases h with
    | var =>
      intro t ht
      rw [TypeExpr.resolve_var] at ht
      split at ht
      next hmem =>
        cases ht
        exact .var hmem (hts _ List.mem_cons_self)
      next => cases ht
    | named =>
      exact fun t ht => expressible_of_resolveType ht (hts _ List.mem_cons_self) (absurd rfl) nofun
    | @paren o c us _ hform =>
      have hus : us <:+: parens o c us := ⟨[_], [_], rfl⟩
      refine meansExpressible_of_isTypeForm hform (fun t ht => hts t (hus.subset ht))
        fun vs hvs e he vars => ih vs.length ?_ he (fun t ht => ?_) rfl
      · have hle := hvs.length_le
        simp only [parens, List.length_cons, List.length_append]
        omega
      · exact hts t ((hvs.trans hus).subset ht)

/-! ## Tokens -/

mutual

/-- The tokens of a type, by itself or as the result that ends a chain of arrows. -/
def tokensAs (result : Bool) : Ty → List Token
  | .var name => [.typeVar name]
  | .arrow p r =>
    if result then tokensAs false p ++ tokensAs true r
    else .openParen :: .symbol "->" :: (tokensAs false p ++ tokensAs true r ++ [.closeParen])
  | .all v b =>
    .openParen :: .symbol "forall" :: .typeVar v :: (tokensAs false b ++ [.closeParen])
  | .data name [] => [.symbol name]
  | .data name (arg :: args) =>
    .openParen :: .symbol name :: (tokensAll (arg :: args) ++ [.closeParen])
  | .prim name => [.symbol name]

def tokensAll : List Ty → List Token
  | [] => []
  | t :: ts => tokensAs false t ++ tokensAll ts

end

/-! ## Reading the text -/

theorem apart_closeChain_true (text : String) : Apart (closeChain true text).toList := by
  rw [closeChain, if_pos rfl, String.append_assoc, String.toList_append]
  exact apart_cons rfl _

/-- The result of an arrow is written behind a space. -/
theorem apart_renderAs_true (t : Ty) : Apart (t.renderAs true).toList := by
  cases t with
  | arrow p r =>
    rw [renderAs, if_pos rfl, String.append_assoc, String.toList_append]
    exact apart_cons rfl _
  | data name args =>
    cases args with
    | nil => exact apart_closeChain_true _
    | cons => exact apart_closeChain_true _
  | _ => exact apart_closeChain_true _

theorem apart_renderArgs (args : List Ty) : Apart (renderArgs args).toList := by
  cases args with
  | nil => exact nofun
  | cons arg args =>
    rw [renderArgs, String.append_assoc, String.toList_append]
    exact apart_cons rfl _

/-- The text of the type is read as its tokens, alone and at the end of a chain of arrows. -/
def IsRead (t : Ty) : Prop :=
  Writes (t.renderAs false).toList (t.tokensAs false) ∧
    Writes (t.renderAs true).toList (t.tokensAs true ++ [.closeParen])

theorem writes_closeChain {text : String} {tokens : List Token} (h : Writes text.toList tokens) :
    Writes (closeChain false text).toList tokens ∧
      Writes (closeChain true text).toList (tokens ++ [.closeParen]) := by
  refine ⟨h, ?_⟩
  have htext : (closeChain true text).toList = ' ' :: (text.toList ++ [')']) := by
    simp [closeChain, String.toList_append]
  rw [htext]
  exact writes_space h.close

theorem writes_renderArgs {args : List Ty} (h : ∀ arg ∈ args, arg.IsRead) :
    Writes (renderArgs args).toList (tokensAll args) := by
  induction args with
  | nil => exact writes_nil
  | cons arg args ih =>
    rw [List.forall_mem_cons] at h
    rw [renderArgs, String.append_assoc, String.toList_append, String.toList_append]
    exact writes_space (h.1.1.append (ih h.2) (apart_renderArgs args))

theorem Expressible.isRead {t : Ty} (h : Expressible sig vars t) : t.IsRead := by
  induction h with
  | @var vars name hmem hname =>
    refine writes_closeChain ?_
    rw [String.toList_append]
    exact hname.writes rfl
  | @arrow vars p r hp hr ihp ihr =>
    -- What follows the opening parenthesis and `->` is written as it is behind another arrow.
    have hchain : Writes ((p.renderAs false).toList ++ (r.renderAs true).toList)
        (p.tokensAs false ++ r.tokensAs true ++ [.closeParen]) := by
      rw [List.append_assoc]
      exact ihp.1.append ihr.2 (apart_renderAs_true r)
    constructor
    · have htext : ("(-> " ++ p.renderAs false ++ r.renderAs true).toList =
          '(' ::
            ("->".toList ++ ' ' :: ((p.renderAs false).toList ++ (r.renderAs true).toList)) := by
        simp [String.toList_append]
      rw [renderAs, if_neg Bool.false_ne_true, htext]
      exact writes_openParen ((writes_word ⟨_, _, rfl, by decide⟩).space hchain)
    · rw [renderAs, if_pos rfl, String.append_assoc, String.toList_append, String.toList_append]
      exact writes_space hchain
  | @all vars v b hv hb ih =>
    have htext : ("(forall '" ++ v ++ " " ++ b.renderAs false ++ ")").toList =
        '(' :: ("forall".toList ++ ' ' :: ('\'' :: v.toList ++
          ' ' :: ((b.renderAs false).toList ++ [')']))) := by
      simp [String.toList_append]
    refine writes_closeChain ?_
    rw [htext]
    exact writes_openParen ((writes_word ⟨_, _, rfl, by decide⟩).space
      ((hv.writes rfl).space ih.1.close))
  | @data vars name args hname hne hresolve hargs ih =>
    cases args with
    | nil => exact writes_closeChain (hname.writes rfl)
    | cons arg args =>
      have htext : ("(" ++ name ++ renderArgs (arg :: args) ++ ")").toList =
          '(' :: (name.toList ++ ((renderArgs (arg :: args)).toList ++ [')'])) := by
        simp [String.toList_append]
      refine writes_closeChain ?_
      rw [htext]
      exact writes_openParen ((hname.writes rfl).append (writes_renderArgs ih).close
        ((apart_renderArgs _).append (apart_cons rfl [])))
  | @prim vars name hname hresolve => exact writes_closeChain (hname.writes rfl)

/-! ## Meaning of the tokens -/

/-- The tokens of the type are a type expression that means it, and at the end of a chain of arrows
they are types of which the chain makes it up. -/
def IsMeant (sig : Signature) (vars : List String) (t : Ty) : Prop :=
  Anywhere IsType (t.tokensAs false) (fun e => e.resolve sig vars = .ok t) ∧
    Anywhere (Each IsType) (t.tokensAs true) fun es => ∃ first others, es = first :: others ∧
      ∀ w, (Parser.arrows w first others).resolve sig vars = .ok t

/-- A type that is no arrow ends a chain as it stands. -/
theorem isMeant_of_alone {t : Ty} (htokens : t.tokensAs true = t.tokensAs false)
    (h : Anywhere IsType (t.tokensAs false) fun e => e.resolve sig vars = .ok t) :
    t.IsMeant sig vars := by
  refine ⟨h, ?_⟩
  rw [htokens]
  refine h.imp fun ts e hP he => ⟨[e], ?_, e, [], rfl, fun _ => he⟩
  rw [← List.append_nil ts]
  exact .cons hP .nil

theorem anywhere_parens {tokens : List Token} {F : TypeExpr → Prop}
    (h : ∀ w, Anywhere (IsTypeForm IsType w) tokens F) :
    Anywhere IsType (.openParen :: (tokens ++ [.closeParen])) F :=
  Anywhere.parens fun o c ts hts => by
    obtain ⟨e, hform, he⟩ := h (o.cover c) ts hts
    exact ⟨e, .paren hform, he⟩

theorem anywhere_tokensAll {args : List Ty} (h : ∀ arg ∈ args, arg.IsMeant sig vars) :
    Anywhere (Each IsType) (tokensAll args) fun es =>
    TypeExpr.resolveAll sig vars es = .ok args := by
  induction args with
  | nil =>
    refine anywhere_each_nil.imp fun ts es hP hes => ⟨es, hP, ?_⟩
    rw [hes]
    rfl
  | cons arg args ih =>
    rw [List.forall_mem_cons] at h
    refine (h.1.1.each (ih h.2)).imp fun ts es hP hes => ⟨es, hP, ?_⟩
    obtain ⟨e, es, rfl, he, hes⟩ := hes
    rw [TypeExpr.resolveAll_cons, he, hes]
    rfl

theorem anywhere_symbol {name : String} {t : Ty}
    (h : ∀ span, sig.resolveType span name [] = .ok t) :
    Anywhere IsType [.symbol name] fun e => e.resolve sig vars = .ok t :=
  anywhere_token fun s => ⟨_, .named, h s⟩

theorem Expressible.isMeant {t : Ty} (h : Expressible sig vars t) : t.IsMeant sig vars := by
  induction h with
  | var hmem hname =>
    refine isMeant_of_alone rfl (anywhere_token fun s => ⟨_, .var, ?_⟩)
    rw [TypeExpr.resolve_var, if_pos hmem]
  | arrow hp hr ihp ihr =>
    -- Arrows to the right of an arrow share its parentheses, so they are read as one chain.
    have hchain := ihp.1.each ihr.2
    constructor
    · refine anywhere_parens fun w => hchain.cons fun s ts es hP hes => ?_
      obtain ⟨e, _, rfl, he, first, others, rfl, hothers⟩ := hes
      refine ⟨_, .arrow (.mk hP), ?_⟩
      rw [Parser.arrows, TypeExpr.resolve_arrow, he, hothers]
      rfl
    · refine hchain.imp fun ts es hP hes => ⟨es, hP, ?_⟩
      obtain ⟨e, _, rfl, he, first, others, rfl, hothers⟩ := hes
      refine ⟨e, _, rfl, fun w => ?_⟩
      rw [Parser.arrows, TypeExpr.resolve_arrow, he, hothers]
      rfl
  | @all vars v b hv hb ih =>
    have hall : ∀ w, Anywhere (IsAll IsType w) (.typeVar v :: b.tokensAs false)
        fun e => e.resolve sig vars = .ok (.all v b) := fun w =>
      ih.1.cons fun s ts e hP he => by
        refine ⟨_, IsAll.mk (.one .mk) hP, ?_⟩
        rw [List.foldr_cons, List.foldr_nil, TypeExpr.resolve_all, he]
        rfl
    exact isMeant_of_alone rfl (anywhere_parens fun w =>
      (hall w).cons fun s ts e hP he => ⟨e, .all hP, he⟩)
  | @data vars name args hname hne hresolve hargs ih =>
    cases args with
    | nil => exact isMeant_of_alone rfl (anywhere_symbol hresolve)
    | cons arg args =>
      obtain ⟨harrow, hall⟩ := hne (List.cons_ne_nil _ _)
      refine isMeant_of_alone rfl (anywhere_parens fun w =>
        (anywhere_tokensAll ih).cons fun s ts es hP hes => ?_)
      -- In parentheses a name without arguments would be a type of its own form.
      have hcons : es ≠ [] := by
        rintro rfl
        cases hes
      refine ⟨_, .named (.applied harrow hall hP hcons), ?_⟩
      rw [TypeExpr.resolve_applied, hes]
      exact hresolve w
  | prim hname hresolve => exact isMeant_of_alone rfl (anywhere_symbol hresolve)

/-! ## There and back -/

/-- If a type expression in a source text means `t`, in some tables and among some type variables,
then the text of `t` is a type expression and means `t` there. The reader is given no less room for
nesting than there are tokens left, as it is in the reading of a program. -/
theorem typeExpr_render {source : String} {depth : Nat} {s s' : Input} {e : TypeExpr} {t : Ty}
    (hs : s.rest <:+ (lex source).tokens) (hdepth : s.rest.length ≤ depth)
    (hread : Parser.typeExpr depth s = .ok e s') (ht : e.resolve sig vars = .ok t) :
    (lex t.render).errors = [] ∧ ∃ e' s'',
      Parser.typeExpr (lex t.render).tokens.length ⟨.origin, (lex t.render).tokens⟩ = .ok e' s'' ∧
        s''.rest = [] ∧ e'.resolve sig vars = .ok t := by
  obtain ⟨ts, hts, htype⟩ := ((Parser.accepts_typeExpr depth).iff hdepth).1 hread
  have hwritable : ∀ u ∈ ts, u.val.Writable := fun u hu => by
    refine writable_of_mem_lex (hs.subset ?_)
    rw [hts.rest]
    exact List.mem_append_left _ hu
  -- The type was read from names that can be written, so its own text is read back.
  have hexpressible := meansExpressible_of_isType htype hwritable t ht
  obtain ⟨hclean, htokens⟩ := hexpressible.isRead.1.lex
  obtain ⟨e', htype', he'⟩ := hexpressible.isMeant.1 _ htokens
  refine ⟨hclean, e', ⟨stopFrom .origin (lex t.render).tokens, []⟩, ?_, rfl, he'⟩
  exact ((Parser.accepts_typeExpr _).iff (s := ⟨.origin, _⟩) (Nat.le_refl _)).2
    ⟨_, ⟨(List.append_nil _).symm, rfl⟩, htype'⟩

theorem typeExpr_render_arrows :
    ∃ e s, Parser.typeExpr (lex "(-> (-> 'a Int) Bool 'a)").tokens.length
        ⟨.origin, (lex "(-> (-> 'a Int) Bool 'a)").tokens⟩ = .ok e s ∧ s.rest = [] ∧
      e.resolve Prelude.signature ["a"] =
        .ok (.arrow (.arrow (.var "a") .int) (.arrow .bool (.var "a"))) := by
  have htokens : (lex "(-> (-> 'a Int) (-> Bool 'a))").tokens =
      [⟨⟨0, 1⟩, .openParen⟩, ⟨⟨1, 3⟩, .symbol "->"⟩, ⟨⟨4, 5⟩, .openParen⟩, ⟨⟨5, 7⟩, .symbol "->"⟩,
        ⟨⟨8, 10⟩, .typeVar "a"⟩, ⟨⟨11, 14⟩, .symbol "Int"⟩, ⟨⟨14, 15⟩, .closeParen⟩,
        ⟨⟨16, 17⟩, .openParen⟩, ⟨⟨17, 19⟩, .symbol "->"⟩, ⟨⟨20, 24⟩, .symbol "Bool"⟩,
        ⟨⟨25, 27⟩, .typeVar "a"⟩, ⟨⟨27, 28⟩, .closeParen⟩, ⟨⟨28, 29⟩, .closeParen⟩] := by
    decide +kernel
  have htext : (arrow (arrow (.var "a") .int) (arrow .bool (.var "a"))).render =
      "(-> (-> 'a Int) Bool 'a)" := by decide +kernel
  rw [← htext]
  exact (typeExpr_render (s := ⟨.origin, _⟩) ⟨[], htokens.symm⟩ (Nat.le_refl _) rfl rfl).2

end Ty

end PolyLambda
