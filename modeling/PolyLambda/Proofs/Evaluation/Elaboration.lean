import Mathlib.Data.List.Forall2
import PolyLambda.Proofs.Evaluation.Named
import PolyLambda.Proofs.Module.Atomic
import PolyLambda.Proofs.Term.Resolution

/-!
# Resolving names keeps the meaning

An expression whose names can be resolved comes to the same as the term that it is resolved to
(`evaluate_resolve`), with the same error if there is one, and in the same depth of recursion. The
values correspond too: a function with names stands for the closure of its resolved body.

The comparison is a relation between computations (`Refines`) that is kept by each step of them.
Names come in where a binder or a branch extends the environment in step with the scope, and where a
name is looked up: its distance in the scope is its place in the environment (`lookup_of_idxOf?`).
-/

namespace PolyLambda.Named

open Surface (Expr)

/-! ## Values with names resolved -/

section

variable (sig : Signature) (globals : List String)

/-- The scope in which the type variables `types` and the variables `names` are bound. -/
def scopeOf (types names : List String) : Scope := ⟨sig, globals, types, names⟩

/-- The term that an expression means, if it has no unknown names. -/
def resolved (types names : List String) (e : Expr) : Term :=
  match e.resolve (scopeOf sig globals types names) with
  | .ok t => t
  | .error _ => default

namespace Value

mutual

/-- The value of the core language that a value stands for. -/
def toCore : Value → PolyLambda.Value
  | .int value => .int value
  | .string text => .string text
  | .con name arity args => .con name arity (toCoreAll args)
  | .closure types vars param body =>
    .closure (toCoreVars vars) (resolved sig globals types (param :: vars.map Prod.fst) body)
  | .typeClosure types vars body =>
    .typeClosure (toCoreVars vars) (resolved sig globals types (vars.map Prod.fst) body)
  | .prim name op args => .prim name op (toCoreAll args)
  | .outer env body => .closure env body
  | .outerType env body => .typeClosure env body

def toCoreAll : List Value → List PolyLambda.Value
  | [] => []
  | v :: vs => toCore v :: toCoreAll vs

def toCoreVars : List (String × Value) → List PolyLambda.Value
  | [] => []
  | (_, v) :: vars => toCore v :: toCoreVars vars

end

mutual

/-- Whether the names in the functions that a value is made of can be resolved. -/
def Scoped : Value → Prop
  | .con _ _ args | .prim _ _ args => AllScoped args
  | .closure types vars param body =>
    (∃ t, body.resolve (scopeOf sig globals types (param :: vars.map Prod.fst)) = .ok t) ∧
      VarsScoped vars
  | .typeClosure types vars body =>
    (∃ t, body.resolve (scopeOf sig globals types (vars.map Prod.fst)) = .ok t) ∧ VarsScoped vars
  | _ => True

def AllScoped : List Value → Prop
  | [] => True
  | v :: vs => Scoped v ∧ AllScoped vs

def VarsScoped : List (String × Value) → Prop
  | [] => True
  | (_, v) :: vars => Scoped v ∧ VarsScoped vars

end

end Value

/-- Whether `v` has no unknown names and stands for `v'`. -/
def Elaborates (v : Value) (v' : PolyLambda.Value) : Prop :=
  v.Scoped sig globals ∧ v.toCore sig globals = v'

end

section

variable {sig : Signature} {globals : List String}

theorem resolved_eq {types names : List String} {e : Expr} {t : Term}
    (h : e.resolve (scopeOf sig globals types names) = .ok t) :
    resolved sig globals types names e = t := by
  rw [resolved, h]

mutual

theorem elaborates_ofCore : (v : PolyLambda.Value) → Elaborates sig globals (.ofCore v) v
  | .int _ | .string _ | .closure _ _ | .typeClosure _ _ => ⟨trivial, rfl⟩
  | .con name arity args => by
    obtain ⟨hscoped, hcore⟩ := elaborates_ofCoreAll args
    exact ⟨hscoped, congrArg (PolyLambda.Value.con name arity) hcore⟩
  | .prim name op args => by
    obtain ⟨hscoped, hcore⟩ := elaborates_ofCoreAll args
    exact ⟨hscoped, congrArg (PolyLambda.Value.prim name op) hcore⟩

theorem elaborates_ofCoreAll : (vs : List PolyLambda.Value) →
    Value.AllScoped sig globals (Value.ofCoreAll vs) ∧
      Value.toCoreAll sig globals (Value.ofCoreAll vs) = vs
  | [] => ⟨trivial, rfl⟩
  | v :: vs => by
    obtain ⟨hscoped, hcore⟩ := elaborates_ofCore v
    obtain ⟨hscopedAll, hcoreAll⟩ := elaborates_ofCoreAll vs
    refine ⟨⟨hscoped, hscopedAll⟩, ?_⟩
    rw [Value.ofCoreAll, Value.toCoreAll, hcore, hcoreAll]

end

/-- Values that stand for others, one by one. -/
theorem forall₂_elaborates_iff {vs : List Value} {vs' : List PolyLambda.Value} :
    List.Forall₂ (Elaborates sig globals) vs vs' ↔
      Value.AllScoped sig globals vs ∧ Value.toCoreAll sig globals vs = vs' := by
  induction vs generalizing vs' with
  | nil =>
    rw [List.forall₂_nil_left_iff, Value.toCoreAll, eq_comm]
    exact (and_iff_right trivial).symm
  | cons v vs ih =>
    rw [List.forall₂_cons_left_iff]
    constructor
    · rintro ⟨_, _, ⟨hscoped, rfl⟩, hrest, rfl⟩
      obtain ⟨hscopedAll, rfl⟩ := ih.1 hrest
      exact ⟨⟨hscoped, hscopedAll⟩, rfl⟩
    · rintro ⟨⟨hscoped, hscopedAll⟩, rfl⟩
      exact ⟨_, _, ⟨hscoped, rfl⟩, ih.2 ⟨hscopedAll, rfl⟩, rfl⟩

theorem vars_elaborate_iff {vars : List (String × Value)} {env : PolyLambda.Env} :
    List.Forall₂ (Elaborates sig globals) (vars.map Prod.snd) env ↔
      Value.VarsScoped sig globals vars ∧ Value.toCoreVars sig globals vars = env := by
  induction vars generalizing env with
  | nil =>
    rw [List.map_nil, List.forall₂_nil_left_iff, Value.toCoreVars, eq_comm]
    exact (and_iff_right trivial).symm
  | cons x vars ih =>
    rw [List.map_cons, List.forall₂_cons_left_iff]
    constructor
    · rintro ⟨_, _, ⟨hscoped, rfl⟩, hrest, rfl⟩
      obtain ⟨hscopedAll, rfl⟩ := ih.1 hrest
      exact ⟨⟨hscoped, hscopedAll⟩, rfl⟩
    · rintro ⟨⟨hscoped, hscopedAll⟩, rfl⟩
      exact ⟨_, _, ⟨hscoped, rfl⟩, ih.2 ⟨hscopedAll, rfl⟩, rfl⟩

end

/-! ## Computations in step -/

/-- Whether two computations come to an end together, with the same error or with results that `R`
relates. -/
def Refines {α β : Type} (R : α → β → Prop) (x : Eval α) (y : Eval β) : Prop :=
  ∀ history, match x.outcome? history with
    | none => y.outcome? history = none
    | some (.error e, history') => y.outcome? history = some (.error e, history')
    | some (.ok a, history') => ∃ b, R a b ∧ y.outcome? history = some (.ok b, history')

section

variable {α β γ δ : Type} {R : α → β → Prop} {S : γ → δ → Prop}

theorem refines_exhausted :
    Refines R (LimitedState.exhausted : Eval α) (LimitedState.exhausted : Eval β) := fun _ => rfl

theorem refines_pure {a : α} {b : β} (h : R a b) : Refines R (pure a) (pure b) :=
  fun _ => ⟨b, h, rfl⟩

theorem refines_throw (e : EvalError) : Refines R (throw e : Eval α) (throw e : Eval β) :=
  fun _ => rfl

theorem refines_refl (c : Eval α) : Refines Eq c c := by
  intro history
  split
  next h => exact h
  next h => exact h
  next a history' h => exact ⟨a, rfl, h⟩

theorem Refines.bind {x : Eval α} {y : Eval β} {f : α → Eval γ} {g : β → Eval δ}
    (h : Refines R x y) (hf : ∀ a b, R a b → Refines S (f a) (g b)) :
    Refines S (x >>= f) (y >>= g) := by
  intro history
  have hx := h history
  rw [LimitedState.outcome?_bind, LimitedState.outcome?_bind]
  cases houtcome : x.outcome? history with
  | none =>
    rw [houtcome] at hx
    simp only [hx]
  | some o =>
    obtain ⟨r, history'⟩ := o
    rw [houtcome] at hx
    cases r with
    | error e => simp only [show y.outcome? history = _ from hx]
    | ok a =>
      obtain ⟨b, hab, hy⟩ := hx
      simp only [hy]
      exact hf a b hab history'

/-- A computation that depends on no more than a result that is the same. -/
theorem refines_bind_same (c : Eval α) {f : α → Eval γ} {g : α → Eval δ}
    (h : ∀ a, Refines S (f a) (g a)) : Refines S (c >>= f) (c >>= g) :=
  (refines_refl c).bind fun a _ hab => hab ▸ h a

end

section

variable {m : Machine} {values : Machine.Globals} {sig : Signature} {globals : List String}

/-- What comes from outside is what it was. -/
theorem refines_ofCore (c : Eval PolyLambda.Value) :
    Refines (Elaborates sig globals) (do return .ofCore (← c)) c := by
  have h : Refines (Elaborates sig globals) (c >>= fun v => pure (.ofCore v)) (c >>= pure) :=
    refines_bind_same c fun v => refines_pure (elaborates_ofCore v)
  rwa [bind_pure] at h

variable (m values sig globals) in
/-- Evaluation in which values look outside as they do when all names are resolved. -/
def setting : Setting := ⟨m, values, sig, globals, Value.toCore sig globals⟩

theorem map_view {vs : List Value} {vs' : List PolyLambda.Value}
    (h : List.Forall₂ (Elaborates sig globals) vs vs') :
    vs.map (setting m values sig globals).view = vs' := by
  induction h with
  | nil => rfl
  | cons hv _ ih =>
    rw [List.map_cons, ih]
    exact congrArg (· :: _) hv.2

theorem refines_callPrimitive (name : String) (op : Operation) {vs : List Value}
    {vs' : List PolyLambda.Value} (h : List.Forall₂ (Elaborates sig globals) vs vs') :
    Refines (Elaborates sig globals) ((setting m values sig globals).callPrimitive name op vs)
      (m.callPrimitive name op vs') := by
  rw [Setting.callPrimitive, Machine.callPrimitive, h.length_eq, map_view h]
  obtain ⟨hscoped, hcore⟩ := forall₂_elaborates_iff.1 h
  split
  next => exact refines_pure ⟨hscoped, congrArg (PolyLambda.Value.prim name op) hcore⟩
  next => exact refines_ofCore _

theorem refines_primitive (name : String) (limit : Nat) (env : PolyLambda.Env) :
    Refines (Elaborates sig globals) ((setting m values sig globals).primitive name)
      (m.evaluate values (limit + 1) (.prim name) env) := by
  rw [Machine.evaluate]
  exact refines_bind_same _ fun op => refines_callPrimitive name op .nil

/-! ## Names -/

/-- The distance of a name in the scope is its place in the environment. -/
theorem lookup_of_idxOf? {vars : List (String × Value)} {env : PolyLambda.Env}
    (h : List.Forall₂ (Elaborates sig globals) (vars.map Prod.snd) env) (name : String) :
    match (vars.map Prod.fst).idxOf? name with
    | none => vars.lookup name = none
    | some index =>
      ∃ v v', vars.lookup name = some v ∧ env[index]? = some v' ∧ Elaborates sig globals v v' := by
  induction vars generalizing env with
  | nil => rfl
  | cons x vars ih =>
    obtain ⟨other, v⟩ := x
    obtain ⟨v', env', hv, hrest, rfl⟩ := List.forall₂_cons_left_iff.1 h
    rw [List.map_cons, List.idxOf?_cons, Table.lookup_cons]
    by_cases heq : other = name
    · subst heq
      rw [if_pos rfl, beq_self_eq_true, if_pos rfl]
      exact ⟨v, v', rfl, rfl, hv⟩
    · rw [beq_eq_false_iff_ne.2 heq, if_neg (Ne.symm heq), if_neg Bool.false_ne_true]
      have hrest := ih hrest
      split at hrest
      next hnone =>
        rw [hnone]
        exact hrest
      next index hindex =>
        rw [hindex]
        exact hrest

/-- Whether the variables of an environment stand, one by one, for the values of `env`. -/
def EnvElaborates (sig : Signature) (globals : List String) (e : Env) (env : PolyLambda.Env) :
    Prop :=
  List.Forall₂ (Elaborates sig globals) (e.vars.map Prod.snd) env

/-- The scope in which the names of an environment are bound. -/
def Env.scope (sig : Signature) (globals : List String) (e : Env) : Scope :=
  scopeOf sig globals e.types (e.vars.map Prod.fst)

theorem refines_lookUp {e : Env} {env : PolyLambda.Env} (henv : EnvElaborates sig globals e env)
    {span : Span} {name : String} {t : Term}
    (h : (e.scope sig globals).Resolves (.var span name) t) (limit : Nat) :
    Refines (Elaborates sig globals) ((setting m values sig globals).lookUp e name)
      (m.evaluate values (limit + 1) t env) := by
  have hplace := lookup_of_idxOf? henv name
  rw [Setting.lookUp]
  cases h with
  | localVar hlocal =>
    rw [show (e.vars.map Prod.fst).idxOf? name = _ from hlocal] at hplace
    obtain ⟨v, v', hlookup, hget, hv⟩ := hplace
    rw [hlookup, Machine.evaluate, hget]
    exact refines_pure hv
  | global hlocal hglobal =>
    rw [show (e.vars.map Prod.fst).idxOf? name = _ from hlocal] at hplace
    rw [show e.vars.lookup name = none from hplace, Machine.evaluate]
    exact (if_pos hglobal).symm ▸ refines_ofCore _
  | primitive hlocal hglobal hprimitive =>
    rw [show (e.vars.map Prod.fst).idxOf? name = _ from hlocal] at hplace
    rw [show e.vars.lookup name = none from hplace]
    exact ((if_neg hglobal).trans (if_pos hprimitive)).symm ▸ refines_primitive name limit env
  | bareCon hlocal hglobal hprimitive hname =>
    rw [show (e.vars.map Prod.fst).idxOf? name = _ from hlocal] at hplace
    rw [show e.vars.lookup name = none from hplace, Machine.evaluate]
    refine ((if_neg hglobal).trans ((if_neg hprimitive).trans (if_pos hname))).symm ▸ ?_
    exact refines_bind_same _ fun arity => refines_pure ⟨trivial, rfl⟩

theorem EnvElaborates.bind {e : Env} {env : PolyLambda.Env} (henv : EnvElaborates sig globals e env)
    {names : List String} {vs : List Value} {vs' : List PolyLambda.Value}
    (h : List.Forall₂ (Elaborates sig globals) vs vs') (hlength : names.length = vs.length) :
    EnvElaborates sig globals (e.bind names vs) (vs' ++ env) := by
  rw [EnvElaborates, Env.bind, List.map_append, List.map_snd_zip (Nat.le_of_eq hlength.symm)]
  exact List.rel_append h henv

theorem scope_bind (e : Env) {names : List String} {vs : List Value}
    (hlength : names.length = vs.length) :
    (e.bind names vs).scope sig globals = (e.scope sig globals).bind names := by
  rw [Env.scope, Env.bind, List.map_append, List.map_fst_zip (Nat.le_of_eq hlength)]
  rfl

/-! ## Functions -/

variable (m values sig globals) in
/-- Whether expressions and the terms that they are resolved to come to the same within `limit`. -/
def InStep (limit : Nat) : Prop :=
  ∀ (x : Expr) (t : Term) (e : Env) (env : PolyLambda.Env),
  x.resolve (e.scope sig globals) = .ok t →
    EnvElaborates sig globals e env → Refines (Elaborates sig globals)
      ((setting m values sig globals).evaluate limit x e) (m.evaluate values limit t env)

theorem refines_applyWith {limit : Nat} (hstep : InStep m values sig globals limit) {fn arg : Value}
    {fn' arg' : PolyLambda.Value} (hfn : Elaborates sig globals fn fn')
    (harg : Elaborates sig globals arg arg') :
    Refines (Elaborates sig globals)
      ((setting m values sig globals).applyWith ((setting m values sig globals).evaluate limit)
        (m.evaluate values limit) fn arg)
      (m.applyWith (m.evaluate values limit) fn' arg') := by
  obtain ⟨hscoped, rfl⟩ := hfn
  cases fn with
  | closure types vars param body =>
    obtain ⟨⟨t, ht⟩, hvars⟩ := hscoped
    have henv : EnvElaborates sig globals ⟨types, vars⟩ (Value.toCoreVars sig globals vars) :=
      vars_elaborate_iff.2 ⟨hvars, rfl⟩
    rw [Value.toCore, resolved_eq ht]
    exact hstep body t _ _ ht (henv.bind (.cons harg .nil) rfl)
  | prim name op args =>
    exact refines_callPrimitive name op
      (List.rel_append (forall₂_elaborates_iff.2 ⟨hscoped, rfl⟩) (.cons harg .nil))
  | con name arity args =>
    have hargs := forall₂_elaborates_iff.2 ⟨hscoped, rfl⟩
    have hmore := List.rel_append hargs (.cons harg .nil)
    obtain ⟨hscoped', hcore'⟩ := forall₂_elaborates_iff.1 hmore
    rw [Setting.applyWith.eq_def, Machine.applyWith.eq_def, Value.toCore]
    dsimp only
    rw [← hargs.length_eq]
    split
    next => exact refines_pure ⟨hscoped', congrArg (PolyLambda.Value.con name arity) hcore'⟩
    next => exact refines_throw _
  | outer env body =>
    obtain ⟨-, rfl⟩ := harg
    exact refines_ofCore _
  | int n => exact refines_throw _
  | string text => exact refines_throw _
  | typeClosure types vars body => exact refines_throw _
  | outerType env body => exact refines_throw _

theorem refines_applyTypeWith {limit : Nat} (hstep : InStep m values sig globals limit) {fn : Value}
    {fn' : PolyLambda.Value} (hfn : Elaborates sig globals fn fn') :
    Refines (Elaborates sig globals)
      ((setting m values sig globals).applyTypeWith ((setting m values sig globals).evaluate limit)
        (m.evaluate values limit) fn)
      (Machine.applyTypeWith (m.evaluate values limit) fn') := by
  obtain ⟨hscoped, rfl⟩ := hfn
  cases fn with
  | typeClosure types vars body =>
    obtain ⟨⟨t, ht⟩, hvars⟩ := hscoped
    rw [Value.toCore, resolved_eq ht]
    exact hstep body t ⟨types, vars⟩ _ ht (vars_elaborate_iff.2 ⟨hvars, rfl⟩)
  | prim name op args => exact refines_pure ⟨hscoped, rfl⟩
  | con name arity args => exact refines_pure ⟨hscoped, rfl⟩
  | outerType env body => exact refines_ofCore _
  | int n => exact refines_throw _
  | string text => exact refines_throw _
  | closure types vars param body => exact refines_throw _
  | outer env body => exact refines_throw _

/-! ## Lists of expressions -/

/-- Expressions are resolved to terms one by one. -/
theorem forall₂_of_resolvesAll {scope : Scope} {es : List Expr} {ts : List Term}
    (h : scope.ResolvesAll es ts) :
    List.Forall₂ (fun e t => Expr.resolve scope e = .ok t) es ts := by
  induction es generalizing ts with
  | nil =>
    cases h
    exact .nil
  | cons e es ih =>
    cases h with
    | cons harg hargs => exact .cons harg.resolve (ih hargs)

theorem refines_evaluateAll {limit : Nat} (hstep : InStep m values sig globals limit) {e : Env}
    {env : PolyLambda.Env} (henv : EnvElaborates sig globals e env) {es : List Expr}
    {ts : List Term}
    (h : List.Forall₂ (fun x t => Expr.resolve (e.scope sig globals) x = .ok t) es ts) :
    Refines (List.Forall₂ (Elaborates sig globals))
      (Setting.evaluateAll ((setting m values sig globals).evaluate limit · e) es)
      (Machine.evaluateAll (m.evaluate values limit · env) ts) := by
  induction h with
  | nil => exact refines_pure .nil
  | cons ht _ ih =>
    exact (hstep _ _ _ _ ht henv).bind fun v v' hv =>
      ih.bind fun vs vs' hvs => refines_pure (.cons hv hvs)

theorem refines_operate {limit : Nat} (hstep : ∀ l < limit, InStep m values sig globals l) {e : Env}
    {env : PolyLambda.Env} (henv : EnvElaborates sig globals e env) (name : String) {es : List Expr}
    {ts : List Term}
    (h : List.Forall₂ (fun x t => Expr.resolve (e.scope sig globals) x = .ok t) es ts) :
    Refines (Elaborates sig globals)
      ((setting m values sig globals).operate limit name es e)
      (m.evaluate values limit (ts.foldr (fun a f => .app f a) (.prim name)) env) := by
  induction limit generalizing es ts with
  | zero =>
    rw [Setting.operate, Machine.evaluate]
    exact refines_exhausted
  | succ limit ih =>
    have hlimit := hstep limit (Nat.lt_succ_self _)
    rw [Setting.operate]
    cases h with
    | nil => exact refines_primitive name limit env
    | cons hlast hothers =>
      rw [List.foldr_cons, Machine.evaluate]
      refine (ih (fun l hl => hstep l (Nat.lt_succ_of_lt hl)) hothers).bind fun f f' hf => ?_
      exact (hlimit _ _ _ _ hlast henv).bind fun a a' ha => refines_applyWith hlimit hf ha

/-! ## Branches -/

/-- Whether a branch is resolved to another one: its body, where the variables of its pattern are
bound. -/
def BranchResolves (scope : Scope) (b : Surface.Branch) (b' : Branch) : Prop :=
  b'.constructor = b.pattern.constructor ∧ b'.vars = b.pattern.vars ∧
    b.body.resolve (scope.bind b.pattern.vars) = .ok b'.body

theorem forall₂_of_resolvesBranches {scope : Scope} {bs : List Surface.Branch} {bs' : List Branch}
    (h : scope.ResolvesBranches bs bs') : List.Forall₂ (BranchResolves scope) bs bs' := by
  induction bs generalizing bs' with
  | nil =>
    cases h
    exact .nil
  | cons b bs ih =>
    cases h with
    | cons _ hbody hbranches => exact .cons ⟨rfl, rfl, hbody.resolve⟩ (ih hbranches)

/-- The first branch for a constructor is at the same place on both sides. -/
theorem find?_of_forall₂ {scope : Scope} {bs : List Surface.Branch} {bs' : List Branch}
    (h : List.Forall₂ (BranchResolves scope) bs bs') (name : String) :
    ((bs.find? fun b => b.pattern.constructor = name) = none ∧
        Machine.findBranch name bs' = none) ∨
      ∃ b b', (bs.find? fun b => b.pattern.constructor = name) = some b ∧
        Machine.findBranch name bs' = some b' ∧ BranchResolves scope b b' := by
  induction h with
  | nil => exact .inl ⟨rfl, rfl⟩
  | @cons b b' bs bs' hb _ ih =>
    rw [Machine.findBranch, List.find?_cons, List.find?_cons, hb.1]
    by_cases heq : b.pattern.constructor = name
    · simp only [heq, decide_true]
      exact .inr ⟨b, b', rfl, rfl, hb⟩
    · simp only [heq, decide_false]
      exact ih

theorem refines_selectBranch {scope : Scope} {v : Value} {v' : PolyLambda.Value}
    (hv : Elaborates sig globals v v') {bs : List Surface.Branch} {bs' : List Branch}
    (h : List.Forall₂ (BranchResolves scope) bs bs') :
    Refines (fun r r' => BranchResolves scope r.1 r'.1 ∧ r.1.pattern.vars.length = r.2.length ∧
        List.Forall₂ (Elaborates sig globals) r.2 r'.2)
      (liftM ((setting m values sig globals).selectBranch v bs))
      (liftM (Machine.selectBranch v' bs')) := by
  obtain ⟨hscoped, rfl⟩ := hv
  cases v with
  | con name arity args =>
    have hargs := forall₂_elaborates_iff.2 ⟨hscoped, rfl⟩
    rw [Setting.selectBranch.eq_def, Machine.selectBranch.eq_def, Value.toCore]
    dsimp only
    rw [← hargs.length_eq]
    split
    next hlength =>
      obtain ⟨hnone, hnone'⟩ | ⟨b, b', hb, hb', hresolves⟩ := find?_of_forall₂ h name
      · rw [hnone, hnone']
        exact refines_throw _
      · rw [hb, hb']
        dsimp only
        rw [hresolves.2.1]
        split
        next hvars => exact refines_pure ⟨hresolves, hvars, hargs⟩
        next => exact refines_throw _
    next => exact refines_throw _
  | int n => exact refines_throw _
  | string text => exact refines_throw _
  | prim name op args => exact refines_throw _
  | closure types vars param body => exact refines_throw _
  | typeClosure types vars body => exact refines_throw _
  | outer env body => exact refines_throw _
  | outerType env body => exact refines_throw _

/-! ## Expressions -/

/-- An annotation costs one level of recursion and does nothing. -/
theorem evaluate_annotated (m : Machine) (values : Machine.Globals) (limit : Nat) (type : Option Ty)
    (t : Term) (env : PolyLambda.Env) :
    m.evaluate values (limit + 1) (.app (.lam type (.var 0)) t) env =
    m.evaluate values limit t env := by
  rw [Machine.evaluate]
  cases limit with
  | zero =>
    rw [Machine.evaluate, Machine.evaluate]
    rfl
  | succ limit =>
    rw [Machine.evaluate, pure_bind]
    refine (bind_congr fun a => ?_).trans (bind_pure _)
    rw [Machine.applyWith, Machine.evaluate]
    rfl

theorem inStep_succ {limit : Nat} (hbelow : ∀ l < limit + 1, InStep m values sig globals l) :
    InStep m values sig globals (limit + 1) := by
  have hstep := hbelow limit (Nat.lt_succ_self _)
  intro x t e env h henv
  cases Scope.resolves_of_resolve x h with
  | localVar | global | primitive | bareCon =>
    rw [Setting.evaluate]
    exact refines_lookUp henv (Scope.resolves_of_resolve _ h) limit
  | lam hbody | annotatedLam _ hbody =>
    obtain ⟨hvars, rfl⟩ := vars_elaborate_iff.1 henv
    rw [Setting.evaluate, Machine.evaluate]
    exact refines_pure ⟨⟨⟨_, hbody.resolve⟩, hvars⟩,
      congrArg (PolyLambda.Value.closure _) (resolved_eq hbody.resolve)⟩
  | app hfn harg =>
    rw [Setting.evaluate, Machine.evaluate]
    exact (hstep _ _ e env hfn.resolve henv).bind fun _ _ hf =>
      (hstep _ _ e env harg.resolve henv).bind fun _ _ ha => refines_applyWith hstep hf ha
  | tlam hbody =>
    obtain ⟨hvars, rfl⟩ := vars_elaborate_iff.1 henv
    rw [Setting.evaluate, Machine.evaluate]
    exact refines_pure ⟨⟨⟨_, hbody.resolve⟩, hvars⟩,
      congrArg (PolyLambda.Value.typeClosure _) (resolved_eq hbody.resolve)⟩
  | tapp hfn _ =>
    rw [Setting.evaluate, Machine.evaluate]
    exact (hstep _ _ e env hfn.resolve henv).bind fun _ _ hf => refines_applyTypeWith hstep hf
  | letIn hvalue hbody =>
    rw [Setting.evaluate, Machine.evaluate]
    exact (hstep _ _ e env hvalue.resolve henv).bind fun _ _ hv =>
      hstep _ _ _ _ hbody.resolve (henv.bind (.cons hv .nil) rfl)
  | ann _ hexpr =>
    rw [Setting.evaluate, evaluate_annotated]
    exact hstep _ _ e env hexpr.resolve henv
  | @con _ _ name _ _ _ hargs =>
    have hall := forall₂_of_resolvesAll hargs
    rw [Setting.evaluate, Machine.evaluate, ← hall.length_eq]
    refine refines_bind_same _ fun arity => ?_
    refine (refines_evaluateAll hstep henv hall).bind fun vs vs' hvs => refines_pure ?_
    obtain ⟨hscoped, hcore⟩ := forall₂_elaborates_iff.1 hvs
    exact ⟨hscoped, congrArg (PolyLambda.Value.con name arity) hcore⟩
  | case hscrutinee hbranches =>
    rw [Setting.evaluate, Machine.evaluate]
    refine (hstep _ _ e env hscrutinee.resolve henv).bind fun v v' hv => ?_
    refine (refines_selectBranch hv (forall₂_of_resolvesBranches hbranches)).bind ?_
    rintro ⟨b, fields⟩ ⟨b', fields'⟩ ⟨⟨-, -, hbody⟩, hlength, hfields⟩
    refine hstep b.body b'.body _ _ ?_ (henv.bind hfields hlength)
    rwa [scope_bind e hlength]
  | tool hargs =>
    rw [Setting.evaluate, Machine.evaluate]
    refine (refines_evaluateAll hstep henv (forall₂_of_resolvesAll hargs)).bind fun vs vs' hvs => ?_
    rw [map_view hvs]
    exact refines_ofCore _
  | int | string =>
    rw [Setting.evaluate, Machine.evaluate]
    exact refines_pure ⟨trivial, rfl⟩
  | @op _ _ _ name _ _ hoperator _ hargs =>
    -- The operands are applied one after the other, so the last of them is the outermost argument.
    have hoperate :=
      refines_operate hbelow henv name (List.rel_reverse (forall₂_of_resolvesAll hargs))
    rw [Setting.operate, List.foldr_reverse] at hoperate
    rw [Setting.evaluate, hoperator]
    exact hoperate

theorem inStep (limit : Nat) : InStep m values sig globals limit := by
  induction limit using Nat.strongRecOn with
  | ind limit ih =>
    cases limit with
    | zero =>
      intro x t e env _ _
      rw [Setting.evaluate, Machine.evaluate]
      exact refines_exhausted
    | succ limit => exact inStep_succ ih

end

theorem Refines.outcome?_eq {sig : Signature} {globals : List String} {x : Eval Value}
    {y : Eval PolyLambda.Value} (h : Refines (Elaborates sig globals) x y) (history : History) :
    y.outcome? history =
      (x.outcome? history).map fun o => (o.1.map (Value.toCore sig globals), o.2) := by
  have hx := h history
  split at hx
  next hnone => rw [hx, hnone, Option.map_none]
  next e history' herror => rw [hx, herror]; rfl
  next v history' hok =>
    obtain ⟨v', ⟨-, rfl⟩, hy⟩ := hx
    rw [hy, hok]
    rfl

/-- An expression that is resolved to a term comes to the same as the term, for all values of the
names in scope and of the globals: both need more depth, both fail with the same error, or the value
of the term is the value of the expression with its names resolved. The calls of the model are the
same too. -/
theorem evaluate_resolve {scope : Scope} {e : Expr} {t : Term} (h : e.resolve scope = .ok t)
    {env : PolyLambda.Env} (hlength : env.length = scope.locals.length) (m : Machine)
    (values : Machine.Globals) (limit : Nat) (history : History) :
    (m.evaluate values limit t env).outcome? history =
      (((setting m values scope.sig scope.globals).evaluate limit e
        ⟨scope.typeVars, scope.locals.zip (Value.ofCoreAll env)⟩).outcome? history).map
          fun o => (o.1.map (Value.toCore scope.sig scope.globals), o.2) := by
  obtain ⟨sig, globals, types, names⟩ := scope
  have hall : List.Forall₂ (Elaborates sig globals) (Value.ofCoreAll env) env :=
    forall₂_elaborates_iff.2 (elaborates_ofCoreAll env)
  have hnames : names.length = (Value.ofCoreAll env).length :=
    hlength.symm.trans hall.length_eq.symm
  have henv : EnvElaborates sig globals ⟨types, names.zip (Value.ofCoreAll env)⟩ env := by
    rw [EnvElaborates, List.map_snd_zip (Nat.le_of_eq hnames.symm)]
    exact hall
  refine (inStep limit e t _ env ?_ henv).outcome?_eq history
  rw [Env.scope, List.map_fst_zip (Nat.le_of_eq hnames)]
  exact h

/-- Two binders of one name, the outer of which is also a global, and a data type for pairs. -/
def pairScope : Scope where
  sig := Prelude.signature.withData ⟨"Pair", ["a", "b"], [⟨"Pair", [.var "a", .var "b"]⟩]⟩
  globals := ["x"]
  typeVars := []
  locals := ["x", "y", "x"]

/-- `(case (Pair x y) ((Pair x x) (- x y)))` -/
def pairExpr : Expr :=
  .case .origin (.con .origin "Pair" [.var .origin "x", .var .origin "y"])
    [.mk .origin ⟨.origin, "Pair", ["x", "x"]⟩
      (.op .origin "-" [.var .origin "x", .var .origin "y"])]

def pairTerm : Term :=
  .case (.con "Pair" [.var 0, .var 1])
    [.mk "Pair" ["x", "x"] (.app (.app (.prim "$prim.int_minus") (.var 0)) (.var 3))]

def pairMachine : Machine := ⟨pairScope.sig, [], .standard⟩

theorem evaluate_resolve_pair :
    pairExpr.resolve pairScope = .ok pairTerm ∧
      (pairMachine.evaluate .empty 5 pairTerm [.int 7, .int 2, .int 3]).outcome? [] =
        some (.ok (.int 5), []) ∧
      (pairMachine.evaluate .empty 5 pairTerm [.int 7, .int 2, .int 3]).outcome? [] =
        (((setting pairMachine .empty pairScope.sig pairScope.globals).evaluate 5 pairExpr
          ⟨[], [("x", .int 7), ("y", .int 2), ("x", .int 3)]⟩).outcome? []).map
            fun o => (o.1.map (Value.toCore pairScope.sig pairScope.globals), o.2) :=
  have h : pairExpr.resolve pairScope = .ok pairTerm := rfl
  have hlength : [PolyLambda.Value.int 7, .int 2, .int 3].length = pairScope.locals.length := rfl
  ⟨h, rfl, evaluate_resolve h hlength pairMachine .empty 5 []⟩

end PolyLambda.Named
