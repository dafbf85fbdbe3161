import PolyLambda.Scope

/-!
# Names are taken off again

When a type or an expression is elaborated, its binders are put on the lists of bound names and
taken off again. Afterwards the lists are as they were, also when there was an error deep inside
(`Expr.keeps_elaborate`). So what becomes of one part has no influence on the scope of the next, and
each part is resolved in the scope that its place gives it. That is what the equations of
`Expr.resolve` and `TypeExpr.resolve` say, one for each form.
-/

namespace PolyLambda

namespace Stateful

variable {σ τ α β : Type}

/-- Whether the state is after a step from `s` what it was before. -/
def Keeps (step : Stateful σ α) (s : σ) : Prop :=
  (step.outcome s).2 = s

theorem Keeps.outcome_eq {step : Stateful σ α} {s : σ} (h : step.Keeps s) :
    step.outcome s = ((step.outcome s).1, s) :=
  Prod.ext rfl h

@[simp]
theorem keeps_pure (a : α) (s : σ) : Keeps (pure a) s := rfl

@[simp]
theorem keeps_throw (e : ScopeError) (s : σ) : Keeps (throw e : Stateful σ α) s := rfl

@[simp]
theorem keeps_liftM (r : Except ScopeError α) (s : σ) : Keeps (liftM r : Stateful σ α) s :=
  congrArg Prod.snd (outcome_liftM s r)

@[simp]
theorem keeps_get (s : σ) : Keeps (get : Stateful σ σ) s := rfl

theorem Keeps.bind {x : Stateful σ α} {f : α → Stateful σ β} {s : σ} (hx : x.Keeps s)
    (hf : ∀ a, (f a).Keeps s) : (x >>= f).Keeps s := by
  rw [Keeps, outcome_bind, hx.outcome_eq]
  cases (x.outcome s).1 with
  | error e => rfl
  | ok a => exact hf a

/-- What is put on for a step is gone after it. -/
theorem Keeps.between {enter leave : σ → σ} {step : Stateful σ α} {s : σ}
    (hstep : step.Keeps (enter s)) (hleave : leave (enter s) = s) :
    (between enter leave step).Keeps s := by
  rw [Keeps, outcome_between]
  exact (congrArg leave hstep).trans hleave

theorem Keeps.onPart {part : σ → τ} {put : τ → σ → σ} {step : Stateful τ α} {s : σ}
    (hstep : step.Keeps (part s)) (hput : put (part s) s = s) : (onPart part put step).Keeps s := by
  rw [Keeps, outcome_onPart]
  exact (congrArg (put · s) hstep).trans hput

/-- A step that keeps the state leaves it to the next one. -/
theorem fst_outcome_bind {x : Stateful σ α} {s : σ} (h : x.Keeps s) (f : α → Stateful σ β) :
    ((x >>= f).outcome s).1 = (x.outcome s).1 >>= fun a => ((f a).outcome s).1 := by
  rw [outcome_bind, h.outcome_eq]
  cases (x.outcome s).1 <;> rfl

theorem outcome_mapM {f : α → Stateful σ β} {g : α → Except ScopeError β} {s : σ}
    (h : ∀ a, (f a).outcome s = (g a, s)) (as : List α) :
    (as.mapM f).outcome s = (as.mapM g, s) := by
  induction as with
  | nil => rfl
  | cons a as ih =>
    rw [List.mapM_cons, List.mapM_cons, outcome_bind, h]
    cases g a with
    | error e => rfl
    | ok b =>
      dsimp only
      rw [outcome_bind, ih]
      cases as.mapM g <;> rfl

theorem fst_outcome_get_bind (f : σ → Stateful σ β) (s : σ) :
    ((get >>= f).outcome s).1 = ((f s).outcome s).1 := rfl

end Stateful

open Stateful (Keeps fst_outcome_bind fst_outcome_get_bind)

namespace Surface

/-! ## Types -/

section

variable (sig : Signature)

mutual

@[simp]
theorem TypeExpr.keeps_elaborate : (e : TypeExpr) → (vars : List String) →
    (e.elaborate sig).Keeps vars
  | .var _ name, vars => by
    rw [TypeExpr.elaborate]
    refine .bind (Stateful.keeps_get vars) fun vars' => ?_
    split
    next => exact Stateful.keeps_pure _ _
    next => exact Stateful.keeps_throw _ _
  | .named _ _, vars => by
    rw [TypeExpr.elaborate]
    exact Stateful.keeps_liftM _ _
  | .arrow _ param result, vars => by
    rw [TypeExpr.elaborate]
    exact .bind (TypeExpr.keeps_elaborate param vars) fun p =>
      .bind (TypeExpr.keeps_elaborate result vars) fun r => Stateful.keeps_pure _ _
  | .all _ v body, vars => by
    rw [TypeExpr.elaborate]
    exact .bind (.between (TypeExpr.keeps_elaborate body (v :: vars)) rfl) fun b =>
      Stateful.keeps_pure _ _
  | .applied _ _ args, vars => by
    rw [TypeExpr.elaborate]
    exact .bind (TypeExpr.keeps_elaborateAll args vars) fun ts => Stateful.keeps_liftM _ _

@[simp]
theorem TypeExpr.keeps_elaborateAll : (es : List TypeExpr) → (vars : List String) →
    (TypeExpr.elaborateAll sig es).Keeps vars
  | [], vars => by
    rw [TypeExpr.elaborateAll]
    exact Stateful.keeps_pure _ _
  | e :: es, vars => by
    rw [TypeExpr.elaborateAll]
    exact .bind (TypeExpr.keeps_elaborate e vars) fun t =>
      .bind (TypeExpr.keeps_elaborateAll es vars) fun ts => Stateful.keeps_pure _ _

end

variable (vars : List String)

theorem TypeExpr.resolve_var (span : Span) (name : String) :
    (TypeExpr.var span name).resolve sig vars =
      if name ∈ vars then .ok (.var name) else .error ⟨span, .undefinedTypeVariable name⟩ := by
  rw [TypeExpr.resolve, TypeExpr.elaborate, fst_outcome_get_bind]
  split <;> rfl

theorem TypeExpr.resolve_named (span : Span) (name : String) :
    (TypeExpr.named span name).resolve sig vars = sig.resolveType span name [] := by
  simp only [TypeExpr.resolve, TypeExpr.elaborate, Stateful.outcome_liftM]

theorem TypeExpr.resolve_arrow (span : Span) (param result : TypeExpr) :
    (TypeExpr.arrow span param result).resolve sig vars = do
      let p ← param.resolve sig vars
      let r ← result.resolve sig vars
      return .arrow p r := by
  simp only [TypeExpr.resolve, TypeExpr.elaborate, fst_outcome_bind, TypeExpr.keeps_elaborate]
  rfl

theorem TypeExpr.resolve_all (span : Span) (v : String) (body : TypeExpr) :
    (TypeExpr.all span v body).resolve sig vars = do
      let b ← body.resolve sig (v :: vars)
      return .all v b := by
  have hkeeps : (Stateful.between (v :: ·) List.tail (body.elaborate sig)).Keeps vars :=
    .between (body.keeps_elaborate sig (v :: vars)) rfl
  rw [TypeExpr.resolve, TypeExpr.elaborate, fst_outcome_bind hkeeps, Stateful.outcome_between]
  rfl

theorem TypeExpr.resolve_applied (span : Span) (name : String) (args : List TypeExpr) :
    (TypeExpr.applied span name args).resolve sig vars =
      TypeExpr.resolveAll sig vars args >>= sig.resolveType span name := by
  simp only [TypeExpr.resolve, TypeExpr.resolveAll, TypeExpr.elaborate, fst_outcome_bind,
    TypeExpr.keeps_elaborateAll, Stateful.outcome_liftM]

theorem TypeExpr.resolveAll_nil : TypeExpr.resolveAll sig vars [] = .ok [] := rfl

theorem TypeExpr.resolveAll_cons (e : TypeExpr) (es : List TypeExpr) :
    TypeExpr.resolveAll sig vars (e :: es) = do
      let t ← e.resolve sig vars
      let ts ← TypeExpr.resolveAll sig vars es
      return t :: ts := by
  simp only [TypeExpr.resolve, TypeExpr.resolveAll, TypeExpr.elaborateAll, fst_outcome_bind,
    TypeExpr.keeps_elaborate, TypeExpr.keeps_elaborateAll]
  rfl

end

/-! ## Expressions -/

open Scope (onTypeVars binding bindingType)

theorem keeps_onTypeVars {α : Type} {step : Signature → Stateful (List String) α} {scope : Scope}
    (h : (step scope.sig).Keeps scope.typeVars) : (onTypeVars step).Keeps scope :=
  show (Stateful.onPart Scope.typeVars Scope.withTypeVars (step scope.sig)).Keeps scope from
    .onPart h rfl

theorem keeps_binding {α : Type} {names : List String} {step : Stateful Scope α} {scope : Scope}
    (h : step.Keeps (scope.bind names)) : (binding names step).Keeps scope :=
  .between h (congrArg (fun locals => { scope with locals }) List.drop_left)

theorem keeps_bindingType {α : Type} {v : String} {step : Stateful Scope α} {scope : Scope}
    (h : step.Keeps (scope.bindType v)) : (bindingType v step).Keeps scope :=
  .between h rfl

mutual

/-- After an expression the scope is as it was before, with an error or without. -/
@[simp]
theorem Expr.keeps_elaborate : (e : Expr) → (scope : Scope) → e.elaborate.Keeps scope
  | .var _ _, scope => by
    rw [Expr.elaborate]
    exact .bind (Stateful.keeps_get scope) fun _ => Stateful.keeps_liftM _ _
  | .lam _ param none _ body, scope => by
    rw [Expr.elaborate]
    exact .bind (keeps_binding (Expr.keeps_elaborate body _)) fun b => Stateful.keeps_pure _ _
  | .lam _ param (some type) _ body, scope => by
    rw [Expr.elaborate]
    exact .bind (keeps_onTypeVars (type.keeps_elaborate _ _)) fun t =>
      .bind (keeps_binding (Expr.keeps_elaborate body _)) fun b => Stateful.keeps_pure _ _
  | .app _ fn arg, scope => by
    rw [Expr.elaborate]
    exact .bind (Expr.keeps_elaborate fn scope) fun f =>
      .bind (Expr.keeps_elaborate arg scope) fun a => Stateful.keeps_pure _ _
  | .tlam _ v body, scope => by
    rw [Expr.elaborate]
    exact .bind (keeps_bindingType (Expr.keeps_elaborate body _)) fun b => Stateful.keeps_pure _ _
  | .tapp _ fn type, scope => by
    rw [Expr.elaborate]
    exact .bind (Expr.keeps_elaborate fn scope) fun f =>
      .bind (keeps_onTypeVars (type.keeps_elaborate _ _)) fun t => Stateful.keeps_pure _ _
  | .letIn _ name value body, scope => by
    rw [Expr.elaborate]
    exact .bind (Expr.keeps_elaborate value scope) fun v =>
      .bind (keeps_binding (Expr.keeps_elaborate body _)) fun b => Stateful.keeps_pure _ _
  | .ann _ type e, scope => by
    rw [Expr.elaborate]
    exact .bind (keeps_onTypeVars (type.keeps_elaborate _ _)) fun t =>
      .bind (Expr.keeps_elaborate e scope) fun u => Stateful.keeps_pure _ _
  | .con _ name args, scope => by
    rw [Expr.elaborate]
    refine .bind (Stateful.keeps_get scope) fun scope' => ?_
    split
    next =>
      exact .bind (Expr.keeps_elaborateAll args scope) fun as => Stateful.keeps_pure _ _
    next => exact Stateful.keeps_throw _ _
  | .case _ scrutinee branches, scope => by
    rw [Expr.elaborate]
    exact .bind (Expr.keeps_elaborate scrutinee scope) fun s =>
      .bind (Expr.keeps_elaborateBranches branches scope) fun bs => Stateful.keeps_pure _ _
  | .tool _ _ args, scope => by
    rw [Expr.elaborate]
    exact .bind (Expr.keeps_elaborateAll args scope) fun as => Stateful.keeps_pure _ _
  | .int _ _, scope => by
    rw [Expr.elaborate]
    exact Stateful.keeps_pure _ _
  | .string _ _, scope => by
    rw [Expr.elaborate]
    exact Stateful.keeps_pure _ _
  | .op _ _ args, scope => by
    rw [Expr.elaborate]
    exact .bind (Stateful.keeps_get scope) fun _ => .bind (Stateful.keeps_liftM _ _) fun p =>
      .bind (Expr.keeps_elaborateAll args scope) fun as => Stateful.keeps_pure _ _

@[simp]
theorem Expr.keeps_elaborateAll : (es : List Expr) → (scope : Scope) →
    (Expr.elaborateAll es).Keeps scope
  | [], scope => by
    rw [Expr.elaborateAll]
    exact Stateful.keeps_pure _ _
  | e :: es, scope => by
    rw [Expr.elaborateAll]
    exact .bind (Expr.keeps_elaborate e scope) fun t =>
      .bind (Expr.keeps_elaborateAll es scope) fun ts => Stateful.keeps_pure _ _

@[simp]
theorem Expr.keeps_elaborateBranches : (branches : List Branch) → (scope : Scope) →
    (Expr.elaborateBranches branches).Keeps scope
  | [], scope => by
    rw [Expr.elaborateBranches]
    exact Stateful.keeps_pure _ _
  | .mk _ pattern body :: branches, scope => by
    rw [Expr.elaborateBranches]
    exact .bind (Stateful.keeps_get scope) fun _ => .bind (Stateful.keeps_liftM _ _) fun _ =>
      .bind (keeps_binding (Expr.keeps_elaborate body _)) fun b =>
        .bind (Expr.keeps_elaborateBranches branches scope) fun bs => Stateful.keeps_pure _ _

end

variable (scope : Scope)

/-- Types in an expression are resolved with the type variables in scope. -/
@[simp]
theorem keeps_elaborateType (type : TypeExpr) : (onTypeVars type.elaborate).Keeps scope :=
  keeps_onTypeVars (type.keeps_elaborate _ _)

@[simp]
theorem fst_outcome_elaborateType (type : TypeExpr) :
    ((onTypeVars type.elaborate).outcome scope).1 = type.resolve scope.sig scope.typeVars := rfl

/-- The body of a binder is resolved in the scope with the names bound. -/
@[simp]
theorem keeps_elaborateBody (names : List String) (body : Expr) :
    (binding names body.elaborate).Keeps scope :=
  keeps_binding (body.keeps_elaborate _)

@[simp]
theorem fst_outcome_elaborateBody (names : List String) (body : Expr) :
    ((binding names body.elaborate).outcome scope).1 = body.resolve (scope.bind names) := by
  rw [binding, Stateful.outcome_between]
  rfl

@[simp]
theorem keeps_elaborateTypeBody (v : String) (body : Expr) :
    (bindingType v body.elaborate).Keeps scope :=
  keeps_bindingType (body.keeps_elaborate _)

@[simp]
theorem fst_outcome_elaborateTypeBody (v : String) (body : Expr) :
    ((bindingType v body.elaborate).outcome scope).1 = body.resolve (scope.bindType v) := by
  rw [bindingType, Stateful.outcome_between]
  rfl

theorem Expr.resolve_var (span : Span) (name : String) :
    (Expr.var span name).resolve scope = scope.resolveName span name := by
  rw [Expr.resolve, Expr.elaborate, fst_outcome_get_bind, Stateful.outcome_liftM]

theorem Expr.resolve_lam (span : Span) (param : String) (doc : Option String) (body : Expr) :
    (Expr.lam span param none doc body).resolve scope = do
      let b ← body.resolve (scope.bind [param])
      return .lam none b := by
  simp only [Expr.resolve, Expr.elaborate, fst_outcome_bind, keeps_elaborateBody,
    fst_outcome_elaborateBody]
  rfl

theorem Expr.resolve_annotatedLam (span : Span) (param : String) (type : TypeExpr)
    (doc : Option String) (body : Expr) :
    (Expr.lam span param (some type) doc body).resolve scope = do
      let t ← type.resolve scope.sig scope.typeVars
      let b ← body.resolve (scope.bind [param])
      return .lam (some t) b := by
  simp only [Expr.resolve, Expr.elaborate, fst_outcome_bind, keeps_elaborateType,
    fst_outcome_elaborateType, keeps_elaborateBody, fst_outcome_elaborateBody]
  rfl

theorem Expr.resolve_app (span : Span) (fn arg : Expr) :
    (Expr.app span fn arg).resolve scope = do
      let f ← fn.resolve scope
      let a ← arg.resolve scope
      return .app f a := by
  simp only [Expr.resolve, Expr.elaborate, fst_outcome_bind, Expr.keeps_elaborate]
  rfl

theorem Expr.resolve_tlam (span : Span) (v : String) (body : Expr) :
    (Expr.tlam span v body).resolve scope = do
      let b ← body.resolve (scope.bindType v)
      return .tlam v b := by
  simp only [Expr.resolve, Expr.elaborate, fst_outcome_bind, keeps_elaborateTypeBody,
    fst_outcome_elaborateTypeBody]
  rfl

theorem Expr.resolve_tapp (span : Span) (fn : Expr) (type : TypeExpr) :
    (Expr.tapp span fn type).resolve scope = do
      let f ← fn.resolve scope
      let t ← type.resolve scope.sig scope.typeVars
      return .tapp f t := by
  simp only [Expr.resolve, Expr.elaborate, fst_outcome_bind, Expr.keeps_elaborate,
    keeps_elaborateType, fst_outcome_elaborateType]
  rfl

theorem Expr.resolve_letIn (span : Span) (name : String) (value body : Expr) :
    (Expr.letIn span name value body).resolve scope = do
      let v ← value.resolve scope
      let b ← body.resolve (scope.bind [name])
      return .letIn name v b := by
  simp only [Expr.resolve, Expr.elaborate, fst_outcome_bind, Expr.keeps_elaborate,
    keeps_elaborateBody, fst_outcome_elaborateBody]
  rfl

theorem Expr.resolve_ann (span : Span) (type : TypeExpr) (e : Expr) :
    (Expr.ann span type e).resolve scope = do
      let t ← type.resolve scope.sig scope.typeVars
      let u ← e.resolve scope
      return .app (.lam (some t) (.var 0)) u := by
  simp only [Expr.resolve, Expr.elaborate, fst_outcome_bind, Expr.keeps_elaborate,
    keeps_elaborateType, fst_outcome_elaborateType]
  rfl

theorem Expr.resolve_con (span : Span) (name : String) (args : List Expr) :
    (Expr.con span name args).resolve scope =
      if scope.sig.constructorTypes.contains name then do
        let as ← Expr.resolveAll scope args
        return .con name as
      else .error ⟨span, .undefinedConstructor name⟩ := by
  rw [Expr.resolve, Expr.elaborate, fst_outcome_get_bind]
  split
  next => rw [fst_outcome_bind (Expr.keeps_elaborateAll args scope)]; rfl
  next => rfl

theorem Expr.resolve_case (span : Span) (scrutinee : Expr) (branches : List Branch) :
    (Expr.case span scrutinee branches).resolve scope = do
      let s ← scrutinee.resolve scope
      let bs ← Expr.resolveBranches scope branches
      return .case s bs := by
  simp only [Expr.resolve, Expr.resolveBranches, Expr.elaborate, fst_outcome_bind,
    Expr.keeps_elaborate, Expr.keeps_elaborateBranches]
  rfl

theorem Expr.resolve_tool (span : Span) (name : String) (args : List Expr) :
    (Expr.tool span name args).resolve scope = do
      let as ← Expr.resolveAll scope args
      return .tool name as := by
  simp only [Expr.resolve, Expr.resolveAll, Expr.elaborate, fst_outcome_bind,
    Expr.keeps_elaborateAll]
  rfl

theorem Expr.resolve_int (span : Span) (value : Int64) :
    (Expr.int span value).resolve scope = .ok (.int value) := rfl

theorem Expr.resolve_string (span : Span) (text : String) :
    (Expr.string span text).resolve scope = .ok (.string text) := rfl

theorem Expr.resolve_op (span : Span) (operator : String) (args : List Expr) :
    (Expr.op span operator args).resolve scope = do
      let primitive ← scope.resolveOperator span operator args.length
      let as ← Expr.resolveAll scope args
      return as.foldl .app primitive := by
  rw [Expr.resolve, Expr.elaborate, fst_outcome_get_bind]
  simp only [Expr.resolveAll, fst_outcome_bind, Stateful.keeps_liftM, Stateful.outcome_liftM,
    Expr.keeps_elaborateAll]
  rfl

theorem Expr.resolveAll_nil : Expr.resolveAll scope [] = .ok [] := rfl

theorem Expr.resolveAll_cons (e : Expr) (es : List Expr) :
    Expr.resolveAll scope (e :: es) = do
      let t ← e.resolve scope
      let ts ← Expr.resolveAll scope es
      return t :: ts := by
  simp only [Expr.resolve, Expr.resolveAll, Expr.elaborateAll, fst_outcome_bind,
    Expr.keeps_elaborate, Expr.keeps_elaborateAll]
  rfl

theorem Expr.resolveBranches_nil : Expr.resolveBranches scope [] = .ok [] := rfl

theorem Expr.resolveBranches_cons (span : Span) (pattern : Pattern) (body : Expr)
    (branches : List Branch) :
    Expr.resolveBranches scope (.mk span pattern body :: branches) = do
      scope.checkPattern pattern
      let b ← body.resolve (scope.bind pattern.vars)
      let bs ← Expr.resolveBranches scope branches
      return .mk pattern.constructor pattern.vars b :: bs := by
  rw [Expr.resolveBranches, Expr.elaborateBranches, fst_outcome_get_bind]
  simp only [Expr.resolveBranches, fst_outcome_bind, Stateful.keeps_liftM, Stateful.outcome_liftM,
    keeps_elaborateBody, fst_outcome_elaborateBody, Expr.keeps_elaborateBranches]
  rfl

/-! ## Globals -/

section

variable {names names' : List String}

mutual

/-- It does not matter in which order the globals are listed, nor how often. -/
theorem Expr.resolve_globals (h : ∀ name, name ∈ names ↔ name ∈ names') : (e : Expr) →
    (scope : Scope) →
    e.resolve { scope with globals := names } = e.resolve { scope with globals := names' }
  | .var span name, scope => by
    rw [Expr.resolve_var, Expr.resolve_var, Scope.resolveName, Scope.resolveName]
    simp only [h]
  | .lam _ param none _ body, scope => by
    rw [Expr.resolve_lam, Expr.resolve_lam]
    exact congrArg (· >>= _) (Expr.resolve_globals h body (scope.bind [param]))
  | .lam _ param (some type) _ body, scope => by
    rw [Expr.resolve_annotatedLam, Expr.resolve_annotatedLam]
    refine congrArg (type.resolve scope.sig scope.typeVars >>= ·) (funext fun t => ?_)
    exact congrArg (· >>= _) (Expr.resolve_globals h body (scope.bind [param]))
  | .app _ fn arg, scope => by
    rw [Expr.resolve_app, Expr.resolve_app, Expr.resolve_globals h fn scope,
      Expr.resolve_globals h arg scope]
  | .tlam _ v body, scope => by
    rw [Expr.resolve_tlam, Expr.resolve_tlam]
    exact congrArg (· >>= _) (Expr.resolve_globals h body (scope.bindType v))
  | .tapp _ fn type, scope => by
    rw [Expr.resolve_tapp, Expr.resolve_tapp, Expr.resolve_globals h fn scope]
  | .letIn _ name value body, scope => by
    rw [Expr.resolve_letIn, Expr.resolve_letIn, Expr.resolve_globals h value scope]
    refine congrArg (_ >>= ·) (funext fun v => ?_)
    exact congrArg (· >>= _) (Expr.resolve_globals h body (scope.bind [name]))
  | .ann _ type e, scope => by
    rw [Expr.resolve_ann, Expr.resolve_ann, Expr.resolve_globals h e scope]
  | .con span name args, scope => by
    rw [Expr.resolve_con, Expr.resolve_con, Expr.resolveAll_globals h args scope]
  | .case _ scrutinee branches, scope => by
    rw [Expr.resolve_case, Expr.resolve_case, Expr.resolve_globals h scrutinee scope,
      Expr.resolveBranches_globals h branches scope]
  | .tool _ name args, scope => by
    rw [Expr.resolve_tool, Expr.resolve_tool, Expr.resolveAll_globals h args scope]
  | .int _ _, scope => rfl
  | .string _ _, scope => rfl
  | .op span operator args, scope => by
    rw [Expr.resolve_op, Expr.resolve_op, Expr.resolveAll_globals h args scope]
    rfl

theorem Expr.resolveAll_globals (h : ∀ name, name ∈ names ↔ name ∈ names') : (es : List Expr) →
    (scope : Scope) →
    Expr.resolveAll { scope with globals := names } es =
      Expr.resolveAll { scope with globals := names' } es
  | [], scope => rfl
  | e :: es, scope => by
    rw [Expr.resolveAll_cons, Expr.resolveAll_cons, Expr.resolve_globals h e scope,
      Expr.resolveAll_globals h es scope]

theorem Expr.resolveBranches_globals (h : ∀ name, name ∈ names ↔ name ∈ names') :
    (branches : List Branch) → (scope : Scope) →
    Expr.resolveBranches { scope with globals := names } branches =
      Expr.resolveBranches { scope with globals := names' } branches
  | [], scope => rfl
  | .mk _ pattern body :: branches, scope => by
    rw [Expr.resolveBranches_cons, Expr.resolveBranches_cons,
      Expr.resolveBranches_globals h branches scope]
    refine congrArg (scope.checkPattern pattern >>= ·) (funext fun _ => ?_)
    exact congrArg (· >>= _) (Expr.resolve_globals h body (scope.bind pattern.vars))

end

end

end Surface

end PolyLambda
