import PolyLambda.Evaluation

/-!
# Constructors that get their arguments one at a time

A constructor may have all its arguments in one node, or get some of them by application afterwards,
and types may be applied to in between (`Term.Chain`). Evaluation does not see the difference:
arguments are evaluated from left to right either way, and they are collected as long as some are
missing (`comes_to_chain_iff`). Only the recursion goes deeper along a chain than in a node, so this
is about what a term comes to with some limit; and for that it has to be known that a higher limit
never makes a difference (`extends_evaluate`).
-/

namespace PolyLambda

/-- Whether a term is the constructor `name` with the arguments `args`, of which the first stand in
a node and the others are applied to one at a time, with types anywhere in between. -/
inductive Term.Chain (name : String) : List Term → Term → Prop
  | con (args : List Term) : Chain name args (.con name args)
  | app {args : List Term} {t : Term} (h : Chain name args t) (arg : Term) :
    Chain name (args ++ [arg]) (.app t arg)
  | tapp {args : List Term} {t : Term} (h : Chain name args t) (type : Ty) :
    Chain name args (.tapp t type)

namespace Machine

/-! ## Raising the limit -/

section

variable {α β : Type}

/-- Whether `y` comes to the same as `x` wherever `x` comes to an end. -/
def Extends (x y : Eval α) : Prop :=
  ∀ history o, x.outcome? history = some o → y.outcome? history = some o

theorem Extends.refl (x : Eval α) : Extends x x :=
  fun _ _ => id

theorem Extends.trans {x y z : Eval α} (h : Extends x y) (h' : Extends y z) : Extends x z :=
  fun history o ho => h' history o (h history o ho)

theorem extends_exhausted (y : Eval α) : Extends LimitedState.exhausted y :=
  nofun

theorem Extends.bind {x y : Eval α} {f g : α → Eval β} (h : Extends x y)
    (hf : ∀ a, Extends (f a) (g a)) : Extends (x >>= f) (y >>= g) := by
  intro history o ho
  rw [LimitedState.outcome?_bind] at ho ⊢
  split at ho
  next => cases ho
  next e history₁ hx =>
    rw [h history _ hx]
    exact ho
  next a history₁ hx =>
    rw [h history _ hx]
    exact hf a history₁ o ho

end

section

variable {m : Machine} {globals : Globals} {eval eval' : Term → Env → Eval Value}

theorem extends_evaluateAll {step step' : Term → Eval Value} (h : ∀ t, Extends (step t) (step' t))
    (ts : List Term) : Extends (evaluateAll step ts) (evaluateAll step' ts) := by
  induction ts with
  | nil => exact .refl _
  | cons t ts ih => exact (h t).bind fun v => ih.bind fun vs => .refl _

theorem extends_applyWith (h : ∀ t env, Extends (eval t env) (eval' t env)) (fn arg : Value) :
    Extends (m.applyWith eval fn arg) (m.applyWith eval' fn arg) := by
  cases fn with
  | closure env body => exact h body (arg :: env)
  | _ => exact .refl _

theorem extends_applyTypeWith (h : ∀ t env, Extends (eval t env) (eval' t env)) (fn : Value) :
    Extends (applyTypeWith eval fn) (applyTypeWith eval' fn) := by
  cases fn with
  | typeClosure env body => exact h body env
  | _ => exact .refl _

theorem extends_evaluate_succ (limit : Nat) (t : Term) (env : Env) :
    Extends (m.evaluate globals limit t env) (m.evaluate globals (limit + 1) t env) := by
  induction limit generalizing t env with
  | zero => exact extends_exhausted _
  | succ limit ih =>
    cases t with
    | app fn arg =>
      exact (ih fn env).bind fun f => (ih arg env).bind fun a => extends_applyWith ih f a
    | tapp fn type => exact (ih fn env).bind fun f => extends_applyTypeWith ih f
    | con name args =>
      exact (Extends.refl _).bind fun arity =>
        (extends_evaluateAll (fun t => ih t env) args).bind fun vs => .refl _
    | case scrutinee branches =>
      exact (ih scrutinee env).bind fun v => (Extends.refl _).bind fun selected =>
        ih selected.1.body (selected.2 ++ env)
    | letIn name value body => exact (ih value env).bind fun v => ih body (v :: env)
    | tool name args =>
      exact (extends_evaluateAll (fun t => ih t env) args).bind fun vs => .refl _
    | _ => exact .refl _

/-- What a term comes to stays the same when the limit is raised. -/
theorem extends_evaluate {limit limit' : Nat} (hle : limit ≤ limit') (t : Term) (env : Env) :
    Extends (m.evaluate globals limit t env) (m.evaluate globals limit' t env) := by
  induction hle with
  | refl => exact .refl _
  | step _ ih => exact ih.trans (extends_evaluate_succ _ t env)

end

/-! ## Chains -/

/-- As many values are collected as there are terms. -/
theorem evaluateAll_bind_congr {β : Type} {step : Term → Eval Value} {ts : List Term}
    {f g : List Value → Eval β} (h : ∀ vs, vs.length = ts.length → f vs = g vs) :
    evaluateAll step ts >>= f = evaluateAll step ts >>= g := by
  induction ts generalizing f g with
  | nil => simpa only [evaluateAll, pure_bind] using h [] rfl
  | cons t ts ih =>
    simp only [evaluateAll, bind_assoc, pure_bind]
    refine bind_congr fun v => ih fun vs hvs => h (v :: vs) ?_
    rw [List.length_cons, List.length_cons, hvs]

theorem evaluateAll_concat (step : Term → Eval Value) (ts : List Term) (t : Term) :
    evaluateAll step (ts ++ [t]) = do
      let vs ← evaluateAll step ts
      let v ← step t
      return vs ++ [v] := by
  induction ts with
  | nil => simp only [List.nil_append, evaluateAll, pure_bind]
  | cons u us ih => simp only [List.cons_append, evaluateAll, ih, bind_assoc, pure_bind]

section

variable {m : Machine} {globals : Globals} {env : Env} {name : String} {arity : Nat}
  {args : List Term} {t : Term} (hname : m.sig.constructorArity? name = some arity)

include hname

/-- A node evaluates its arguments from left to right. -/
theorem evaluate_con (limit : Nat) (hlength : args.length ≤ arity) :
    m.evaluate globals (limit + 1) (.con name args) env = do
      let vs ← evaluateAll (m.evaluate globals limit · env) args
      return .con name arity vs := by
  rw [evaluate, constructorArity, hname]
  simp only [if_neg (Nat.not_lt.2 hlength)]
  rfl

/-- Its last argument may as well be applied to. -/
theorem evaluate_con_concat (limit limit' : Nat) (hlength : args.length < arity) (arg : Term) :
    m.evaluate globals (limit + 1) (.con name (args ++ [arg])) env =
      (do
        let f ← m.evaluate globals (limit + 1) (.con name args) env
        let a ← m.evaluate globals limit arg env
        m.applyWith (m.evaluate globals limit') f a) := by
  have hall : (args ++ [arg]).length ≤ arity := by
    rw [List.length_append]
    exact hlength
  rw [evaluate_con hname limit hall, evaluate_con hname limit (Nat.le_of_lt hlength),
    evaluateAll_concat]
  simp only [bind_assoc, pure_bind]
  refine evaluateAll_bind_congr fun vs hvs => bind_congr fun a => ?_
  rw [applyWith, if_pos (hvs ▸ hlength)]

/-- A constructor does not mind being applied to a type. -/
theorem evaluate_con_tapp (limit limit' : Nat) (hlength : args.length ≤ arity) :
    m.evaluate globals (limit + 1) (.con name args) env =
      (do
        let f ← m.evaluate globals (limit + 1) (.con name args) env
        applyTypeWith (m.evaluate globals limit') f) := by
  rw [evaluate_con hname limit hlength]
  simp only [bind_assoc, pure_bind]
  rfl

/-- What a chain comes to, the node with all the arguments comes to with the same limit. -/
theorem extends_con_of_chain (h : t.Chain name args) (hlength : args.length ≤ arity) (limit : Nat) :
    Extends (m.evaluate globals limit t env) (m.evaluate globals limit (.con name args) env) := by
  induction h generalizing limit with
  | con args => exact .refl _
  | app h arg ih =>
    rw [List.length_append] at hlength
    cases limit with
    | zero => exact extends_exhausted _
    | succ limit =>
      rw [evaluate_con_concat hname limit limit hlength]
      exact ((ih (Nat.le_of_lt hlength) limit).trans (extends_evaluate_succ _ _ _)).bind
        fun f => .refl _
  | tapp h type ih =>
    cases limit with
    | zero => exact extends_exhausted _
    | succ limit =>
      rw [evaluate_con_tapp hname limit limit hlength]
      exact ((ih hlength limit).trans (extends_evaluate_succ _ _ _)).bind fun f => .refl _

/-- What the node comes to, a chain comes to with a limit that is higher by its length. -/
theorem extends_chain_of_con (h : t.Chain name args) (hlength : args.length ≤ arity) :
    ∃ depth, ∀ limit,
      Extends (m.evaluate globals limit (.con name args) env)
      (m.evaluate globals (limit + depth) t env) := by
  induction h with
  | con args => exact ⟨0, fun limit => .refl _⟩
  | app h arg ih =>
    rw [List.length_append] at hlength
    obtain ⟨depth, ih⟩ := ih (Nat.le_of_lt hlength)
    refine ⟨depth + 1, fun limit => ?_⟩
    cases limit with
    | zero => exact extends_exhausted _
    | succ limit =>
      rw [evaluate_con_concat hname limit (limit + 1 + depth) hlength]
      have hle : limit ≤ limit + 1 + depth := by omega
      exact (ih (limit + 1)).bind fun f => (extends_evaluate hle arg env).bind fun a => .refl _
  | tapp h type ih =>
    obtain ⟨depth, ih⟩ := ih hlength
    refine ⟨depth + 1, fun limit => ?_⟩
    cases limit with
    | zero => exact extends_exhausted _
    | succ limit =>
      rw [evaluate_con_tapp hname limit (limit + 1 + depth) hlength]
      exact (ih (limit + 1)).bind fun f => .refl _

/-- A chain comes to the same value, or the same error, as the node with all the arguments. -/
theorem comes_to_chain_iff (h : t.Chain name args) (hlength : args.length ≤ arity)
    (history : History) (o : Except EvalError Value × History) :
    (∃ limit, (m.evaluate globals limit t env).outcome? history = some o) ↔
      ∃ limit, (m.evaluate globals limit (.con name args) env).outcome? history = some o := by
  constructor
  · rintro ⟨limit, ho⟩
    exact ⟨limit, extends_con_of_chain hname h hlength limit history o ho⟩
  · rintro ⟨limit, ho⟩
    obtain ⟨depth, hdepth⟩ := extends_chain_of_con hname h hlength
    exact ⟨limit + depth, hdepth limit history o ho⟩

end

end Machine

end PolyLambda
