import PolyLambda.Proofs.Module.Closed

/-!
# What an expression stands for

Resolving the names of an expression may fail, and `Expr.resolve` says how. Here is what it comes to
when it does not: a relation between a scope, an expression and a term, with one rule for each form
(`Scope.Resolves`). The function finds exactly the terms that are related (`Scope.resolves_iff`).

What holds of all resolved terms is shown by recursion on the rules. Each of them names the scope
that a part stands in and keeps what was checked on the way, so that no such proof follows the
function through its errors again.
-/

namespace PolyLambda

namespace Scope

open Surface (Expr TypeExpr)

mutual

/-- Whether an expression stands for a term in a scope. The variables of a binder come in front of
those in scope, and an annotation is a function that is applied. -/
inductive Resolves : Scope → Expr → Term → Prop where
  | localVar {scope : Scope} {span : Span} {name : String} {index : Nat}
    (hlocal : scope.locals.idxOf? name = some index) : Resolves scope (.var span name) (.var index)
  | global {scope : Scope} {span : Span} {name : String} (hlocal : scope.locals.idxOf? name = none)
    (hglobal : name ∈ scope.globals) : Resolves scope (.var span name) (.global name)
  | primitive {scope : Scope} {span : Span} {name : String}
    (hlocal : scope.locals.idxOf? name = none) (hglobal : name ∉ scope.globals)
    (hprimitive : scope.sig.primitiveTypes.contains name = true) :
    Resolves scope (.var span name) (.prim name)
  | bareCon {scope : Scope} {span : Span} {name : String} (hlocal : scope.locals.idxOf? name = none)
    (hglobal : name ∉ scope.globals) (hprimitive : ¬ scope.sig.primitiveTypes.contains name = true)
    (hname : scope.sig.constructorTypes.contains name = true) :
    Resolves scope (.var span name) (.con name [])
  | lam {scope : Scope} {span : Span} {param : String} {doc : Option String}
    {body : Expr} {b : Term} (hbody : Resolves (scope.bind [param]) body b) :
    Resolves scope (.lam span param none doc body) (.lam none b)
  | annotatedLam {scope : Scope} {span : Span} {param : String} {type : TypeExpr} {u : Ty}
    {doc : Option String} {body : Expr} {b : Term}
    (htype : type.resolve scope.sig scope.typeVars = .ok u)
    (hbody : Resolves (scope.bind [param]) body b) :
    Resolves scope (.lam span param (some type) doc body) (.lam (some u) b)
  | app {scope : Scope} {span : Span} {fn arg : Expr} {f a : Term} (hfn : Resolves scope fn f)
    (harg : Resolves scope arg a) : Resolves scope (.app span fn arg) (.app f a)
  | tlam {scope : Scope} {span : Span} {v : String} {body : Expr} {b : Term}
    (hbody : Resolves (scope.bindType v) body b) : Resolves scope (.tlam span v body) (.tlam v b)
  | tapp {scope : Scope} {span : Span} {fn : Expr} {type : TypeExpr} {f : Term} {u : Ty}
    (hfn : Resolves scope fn f) (htype : type.resolve scope.sig scope.typeVars = .ok u) :
    Resolves scope (.tapp span fn type) (.tapp f u)
  | letIn {scope : Scope} {span : Span} {name : String} {value body : Expr} {v b : Term}
    (hvalue : Resolves scope value v) (hbody : Resolves (scope.bind [name]) body b) :
    Resolves scope (.letIn span name value body) (.letIn name v b)
  | ann {scope : Scope} {span : Span} {type : TypeExpr} {expr : Expr} {u : Ty} {t : Term}
    (htype : type.resolve scope.sig scope.typeVars = .ok u) (hexpr : Resolves scope expr t) :
    Resolves scope (.ann span type expr) (.app (.lam (some u) (.var 0)) t)
  | con {scope : Scope} {span : Span} {name : String} {args : List Expr} {ts : List Term}
    (hname : scope.sig.constructorTypes.contains name = true) (hargs : ResolvesAll scope args ts) :
    Resolves scope (.con span name args) (.con name ts)
  | case {scope : Scope} {span : Span} {scrutinee : Expr}
    {branches : List Surface.Branch} {s : Term}
    {bs : List Branch} (hscrutinee : Resolves scope scrutinee s)
    (hbranches : ResolvesBranches scope branches bs) :
    Resolves scope (.case span scrutinee branches) (.case s bs)
  | tool {scope : Scope} {span : Span} {name : String} {args : List Expr} {ts : List Term}
    (hargs : ResolvesAll scope args ts) : Resolves scope (.tool span name args) (.tool name ts)
  | int {scope : Scope} {span : Span} {value : Int64} :
    Resolves scope (.int span value) (.int value)
  | string {scope : Scope} {span : Span} {text : String} :
    Resolves scope (.string span text) (.string text)
  | op {scope : Scope} {span : Span} {operator name : String} {args : List Expr} {ts : List Term}
    (hoperator : Surface.Operator.primitive? operator args.length = some name)
    (hprimitive : scope.sig.primitiveTypes.contains name = true)
    (hargs : ResolvesAll scope args ts) :
    Resolves scope (.op span operator args) (ts.foldl .app (.prim name))

/-- The arguments of a constructor, tool or operator are resolved in the scope that they share. -/
inductive ResolvesAll : Scope → List Expr → List Term → Prop where
  | nil {scope : Scope} : ResolvesAll scope [] []
  | cons {scope : Scope} {arg : Expr} {args : List Expr} {t : Term} {ts : List Term}
    (harg : Resolves scope arg t) (hargs : ResolvesAll scope args ts) :
    ResolvesAll scope (arg :: args) (t :: ts)

/-- A branch is resolved once its pattern is found to be one of the constructor's. -/
inductive ResolvesBranches : Scope → List Surface.Branch → List Branch → Prop where
  | nil {scope : Scope} : ResolvesBranches scope [] []
  | cons {scope : Scope} {span : Span} {pattern : Surface.Pattern} {body : Expr} {b : Term}
    {branches : List Surface.Branch} {bs : List Branch}
    (hpattern : scope.checkPattern pattern = .ok ())
    (hbody : Resolves (scope.bind pattern.vars) body b)
    (hbranches : ResolvesBranches scope branches bs) :
    ResolvesBranches scope (.mk span pattern body :: branches)
      (.mk pattern.constructor pattern.vars b :: bs)

end

/-! ## The function finds what an expression stands for -/

theorem resolves_of_resolveName {scope : Scope} {span : Span} {name : String} {t : Term}
    (h : scope.resolveName span name = .ok t) : scope.Resolves (.var span name) t := by
  rw [resolveName] at h
  split at h
  next index hlocal =>
    cases h
    exact .localVar hlocal
  next hlocal =>
    split at h
    next hglobal =>
      cases h
      exact .global hlocal hglobal
    next hglobal =>
      split at h
      next hprimitive =>
        cases h
        exact .primitive hlocal hglobal hprimitive
      next hprimitive =>
        split at h
        next hname =>
          cases h
          exact .bareCon hlocal hglobal hprimitive hname
        next => cases h

theorem resolveOperator_eq_ok_iff {scope : Scope} {span : Span} {operator : String} {count : Nat}
    {p : Term} : scope.resolveOperator span operator count = .ok p ↔
      ∃ name, Surface.Operator.primitive? operator count = some name ∧
        scope.sig.primitiveTypes.contains name = true ∧ p = .prim name := by
  rw [resolveOperator]
  constructor
  · intro h
    split at h
    next => cases h
    next name hname =>
      split at h
      next hprimitive =>
        cases h
        exact ⟨name, hname, hprimitive, rfl⟩
      next => cases h
  · rintro ⟨name, hname, hprimitive, rfl⟩
    rw [hname]
    exact if_pos hprimitive

mutual

theorem resolves_of_resolve : (e : Expr) → {scope : Scope} → {t : Term} → e.resolve scope = .ok t →
    scope.Resolves e t
  | .var _ _, _, _, h => by
    rw [Expr.resolve_var] at h
    exact resolves_of_resolveName h
  | .lam _ _ none _ body, _, _, h => by
    rw [Expr.resolve_lam] at h
    obtain ⟨b, hb, ⟨⟩⟩ := bind_eq_ok_iff.1 h
    exact .lam (resolves_of_resolve body hb)
  | .lam _ _ (some type) _ body, _, _, h => by
    rw [Expr.resolve_annotatedLam] at h
    obtain ⟨u, hu, h⟩ := bind_eq_ok_iff.1 h
    obtain ⟨b, hb, ⟨⟩⟩ := bind_eq_ok_iff.1 h
    exact .annotatedLam hu (resolves_of_resolve body hb)
  | .app _ fn arg, _, _, h => by
    rw [Expr.resolve_app] at h
    obtain ⟨f, hf, h⟩ := bind_eq_ok_iff.1 h
    obtain ⟨a, ha, ⟨⟩⟩ := bind_eq_ok_iff.1 h
    exact .app (resolves_of_resolve fn hf) (resolves_of_resolve arg ha)
  | .tlam _ v body, _, _, h => by
    rw [Expr.resolve_tlam] at h
    obtain ⟨b, hb, ⟨⟩⟩ := bind_eq_ok_iff.1 h
    exact .tlam (resolves_of_resolve body hb)
  | .tapp _ fn type, _, _, h => by
    rw [Expr.resolve_tapp] at h
    obtain ⟨f, hf, h⟩ := bind_eq_ok_iff.1 h
    obtain ⟨u, hu, ⟨⟩⟩ := bind_eq_ok_iff.1 h
    exact .tapp (resolves_of_resolve fn hf) hu
  | .letIn _ name value body, _, _, h => by
    rw [Expr.resolve_letIn] at h
    obtain ⟨v, hv, h⟩ := bind_eq_ok_iff.1 h
    obtain ⟨b, hb, ⟨⟩⟩ := bind_eq_ok_iff.1 h
    exact .letIn (resolves_of_resolve value hv) (resolves_of_resolve body hb)
  | .ann _ type expr, _, _, h => by
    rw [Expr.resolve_ann] at h
    obtain ⟨u, hu, h⟩ := bind_eq_ok_iff.1 h
    obtain ⟨t, ht, ⟨⟩⟩ := bind_eq_ok_iff.1 h
    exact .ann hu (resolves_of_resolve expr ht)
  | .con _ name args, _, _, h => by
    rw [Expr.resolve_con] at h
    split at h
    next hname =>
      obtain ⟨ts, hts, ⟨⟩⟩ := bind_eq_ok_iff.1 h
      exact .con hname (resolvesAll_of_resolveAll args hts)
    next => cases h
  | .case _ scrutinee branches, _, _, h => by
    rw [Expr.resolve_case] at h
    obtain ⟨s, hs, h⟩ := bind_eq_ok_iff.1 h
    obtain ⟨bs, hbs, ⟨⟩⟩ := bind_eq_ok_iff.1 h
    exact .case (resolves_of_resolve scrutinee hs)
      (resolvesBranches_of_resolveBranches branches hbs)
  | .tool _ name args, _, _, h => by
    rw [Expr.resolve_tool] at h
    obtain ⟨ts, hts, ⟨⟩⟩ := bind_eq_ok_iff.1 h
    exact .tool (resolvesAll_of_resolveAll args hts)
  | .int _ value, _, _, h => by
    rw [Expr.resolve_int] at h
    cases h
    exact .int
  | .string _ text, _, _, h => by
    rw [Expr.resolve_string] at h
    cases h
    exact .string
  | .op _ operator args, _, _, h => by
    rw [Expr.resolve_op] at h
    obtain ⟨p, hp, h⟩ := bind_eq_ok_iff.1 h
    obtain ⟨ts, hts, ⟨⟩⟩ := bind_eq_ok_iff.1 h
    obtain ⟨name, hoperator, hprimitive, rfl⟩ := resolveOperator_eq_ok_iff.1 hp
    exact .op hoperator hprimitive (resolvesAll_of_resolveAll args hts)

theorem resolvesAll_of_resolveAll : (es : List Expr) → {scope : Scope} → {ts : List Term} →
    Expr.resolveAll scope es = .ok ts → scope.ResolvesAll es ts
  | [], _, _, h => by
    rw [Expr.resolveAll_nil] at h
    cases h
    exact .nil
  | e :: es, _, _, h => by
    rw [Expr.resolveAll_cons] at h
    obtain ⟨t, ht, h⟩ := bind_eq_ok_iff.1 h
    obtain ⟨ts, hts, ⟨⟩⟩ := bind_eq_ok_iff.1 h
    exact .cons (resolves_of_resolve e ht) (resolvesAll_of_resolveAll es hts)

theorem resolvesBranches_of_resolveBranches : (branches : List Surface.Branch) → {scope : Scope} →
    {bs : List Branch} → Expr.resolveBranches scope branches = .ok bs →
    scope.ResolvesBranches branches bs
  | [], _, _, h => by
    rw [Expr.resolveBranches_nil] at h
    cases h
    exact .nil
  | .mk _ pattern body :: branches, _, _, h => by
    rw [Expr.resolveBranches_cons] at h
    obtain ⟨_, hpattern, h⟩ := bind_eq_ok_iff.1 h
    obtain ⟨b, hb, h⟩ := bind_eq_ok_iff.1 h
    obtain ⟨bs, hbs, ⟨⟩⟩ := bind_eq_ok_iff.1 h
    exact .cons hpattern (resolves_of_resolve body hb)
      (resolvesBranches_of_resolveBranches branches hbs)

end

mutual

theorem Resolves.resolve {scope : Scope} {e : Expr} {t : Term} :
    scope.Resolves e t → e.resolve scope = .ok t
  | .localVar hlocal => by rw [Expr.resolve_var, resolveName, hlocal]
  | .global hlocal hglobal => by
    rw [Expr.resolve_var, resolveName, hlocal]
    exact if_pos hglobal
  | .primitive hlocal hglobal hprimitive => by
    rw [Expr.resolve_var, resolveName, hlocal]
    exact (if_neg hglobal).trans (if_pos hprimitive)
  | .bareCon hlocal hglobal hprimitive hname => by
    rw [Expr.resolve_var, resolveName, hlocal]
    exact (if_neg hglobal).trans ((if_neg hprimitive).trans (if_pos hname))
  | .lam hbody => by
    rw [Expr.resolve_lam, hbody.resolve]
    rfl
  | .annotatedLam htype hbody => by
    rw [Expr.resolve_annotatedLam, htype, hbody.resolve]
    rfl
  | .app hfn harg => by
    rw [Expr.resolve_app, hfn.resolve, harg.resolve]
    rfl
  | .tlam hbody => by
    rw [Expr.resolve_tlam, hbody.resolve]
    rfl
  | .tapp hfn htype => by
    rw [Expr.resolve_tapp, hfn.resolve, htype]
    rfl
  | .letIn hvalue hbody => by
    rw [Expr.resolve_letIn, hvalue.resolve, hbody.resolve]
    rfl
  | .ann htype hexpr => by
    rw [Expr.resolve_ann, htype, hexpr.resolve]
    rfl
  | .con hname hargs => by
    rw [Expr.resolve_con, if_pos hname, hargs.resolveAll]
    rfl
  | .case hscrutinee hbranches => by
    rw [Expr.resolve_case, hscrutinee.resolve, hbranches.resolveBranches]
    rfl
  | .tool hargs => by
    rw [Expr.resolve_tool, hargs.resolveAll]
    rfl
  | .int => by rw [Expr.resolve_int]
  | .string => by rw [Expr.resolve_string]
  | .op hoperator hprimitive hargs => by
    rw [Expr.resolve_op, resolveOperator_eq_ok_iff.2 ⟨_, hoperator, hprimitive, rfl⟩,
      hargs.resolveAll]
    rfl

theorem ResolvesAll.resolveAll {scope : Scope} {es : List Expr} {ts : List Term} :
    scope.ResolvesAll es ts → Expr.resolveAll scope es = .ok ts
  | .nil => by rw [Expr.resolveAll_nil]
  | .cons harg hargs => by
    rw [Expr.resolveAll_cons, harg.resolve, hargs.resolveAll]
    rfl

theorem ResolvesBranches.resolveBranches {scope : Scope} {branches : List Surface.Branch}
    {bs : List Branch} :
    scope.ResolvesBranches branches bs → Expr.resolveBranches scope branches = .ok bs
  | .nil => by rw [Expr.resolveBranches_nil]
  | .cons hpattern hbody hbranches => by
    rw [Expr.resolveBranches_cons, hpattern, hbody.resolve, hbranches.resolveBranches]
    rfl

end

/-- The function finds exactly the terms that are related. -/
theorem resolves_iff {scope : Scope} {e : Expr} {t : Term} :
    scope.Resolves e t ↔ e.resolve scope = .ok t :=
  ⟨Resolves.resolve, resolves_of_resolve e⟩

end Scope

end PolyLambda
