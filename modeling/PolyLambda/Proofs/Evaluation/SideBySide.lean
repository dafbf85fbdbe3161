import PolyLambda.Proofs.Evaluation.Comparison

/-!
# Programs side by side

If two machines agree on what a term mentions (`Fair`), the evaluation of the term on one side
follows that on the other (`follows_evaluate`), and so do the definitions of a program one after the
other (`follows_evaluateDefinitions`): the same ones succeed, with values that are alike.

The depth of the recursion is the same on both sides. A model function runs where it is applied, and
the identity in its place evaluates one variable more, but an application whose function could be
evaluated has depth left for that.
-/

namespace PolyLambda

/-- Whether the primitive `name` takes one argument, if it can be used at all, and returns it. -/
def Machine.Returns (m : Machine) (name : String) : Prop :=
  ∀ op, m.operation name = .ok op →
    op.arity = 1 ∧ ∀ v, Comparison.Gives v (m.runPrimitive name op [v])

namespace Comparison

/-- Whether the two sides agree on all that terms may mention. -/
structure Fair (c : Comparison) : Prop where
  constructors : ∀ name, c.allowed (.constructor name) →
    c.left.sig.constructorArity? name = c.right.sig.constructorArity? name
  primitives : ∀ name, c.allowed (.primitive name) →
    Ends Eq (c.left.operation name) (c.right.operation name)
  run : ∀ names name op args args', c.StandsFor name op → c.AllAlike names args args' →
    c.Follows (c.Alike names) (c.left.runPrimitive name op args)
    (c.right.runPrimitive name op args')
  tools : ∀ names name args args', c.allowed (.tool name) → c.AllAlike names args args' →
    Ends (c.Alike names) (c.left.callTool name args) (c.right.callTool name args')
  models : ∀ name, c.models name = true → (∀ history history', c.histories history history') ∧
    c.left.Returns name ∧ c.right.Returns name
  /-- The identity cannot be applied to a type, a model function can. -/
  types : c.allowed .typeArgument → ∀ name, c.models name = false

/-- Whether the globals in `names` are there on both sides, without a value on both or with values
that are alike. -/
def GlobalsAlike (c : Comparison) (names : List String) (globals globals' : Machine.Globals) :
    Prop :=
  ∀ name ∈ names, (globals.get? name = some none ∧ globals'.get? name = some none) ∨
    ∃ v v', globals.get? name = some (some v) ∧ globals'.get? name = some (some v') ∧
      c.Alike names v v'

section

variable {c : Comparison} {names : List String} {globals globals' : Machine.Globals}

/-! ## Functions -/

theorem follows_callPrimitive (hc : c.Fair) {name : String} {op : Operation}
    {args args' : List Value} (hname : c.StandsFor name op) (hargs : c.AllAlike names args args') :
    c.Follows (c.Alike names) (c.left.callPrimitive name op args)
      (c.right.callPrimitive name op args') := by
  rw [Machine.callPrimitive, Machine.callPrimitive, ← hargs.length_eq]
  split
  next hlt => exact follows_pure (Built.prim hname hlt hargs).alike
  next => exact hc.run names name op args args' hname hargs

/-- Primitives follow each other where the functions of the hosts are the same and models compute
what they compute alike. -/
theorem follows_runPrimitive (hhosts : c.left.host.native = c.right.host.native) {name : String}
    {op : Operation} (hname : c.StandsFor name op) {args args' : List Value}
    (hargs : c.AllAlike names args args')
    (hrun : ∀ p, c.left.host.primitive? name = some p →
      Ends (c.Alike names) (p.run args) (p.run args'))
    (happly : ∀ f f', c.left.llmFunction? name = some f → c.right.llmFunction? name = some f' →
      ∀ input input', c.Alike names input input' →
        c.Follows (c.Alike names) (c.left.applyLlm f input) (c.right.applyLlm f' input')) :
    c.Follows (c.Alike names) (c.left.runPrimitive name op args)
      (c.right.runPrimitive name op args') := by
  rcases Machine.operation_eq_ok_iff.1 hname.1 with ⟨n, hn, rfl⟩ | ⟨-, hmodel, rfl⟩
  · have hp : c.left.host.primitive? name = some ⟨name, n.arity, c.left.host.native n⟩ := by
      rw [Host.primitive?, hn, Option.map_some]
    simp only [Machine.runPrimitive, Native.operation, ← hhosts]
    exact follows_liftM (hrun _ hp)
  · have hmodel' : (c.right.llmFunction? name).isSome = true := by
      rcases Machine.operation_eq_ok_iff.1 hname.2 with ⟨n, -, hn⟩ | ⟨-, hmodel', -⟩
      · cases congrArg Operation.imp hn
      · exact hmodel'
    obtain ⟨f, hf⟩ := Option.isSome_iff_exists.1 hmodel
    obtain ⟨f', hf'⟩ := Option.isSome_iff_exists.1 hmodel'
    cases args with
    | nil =>
      obtain rfl := List.length_eq_zero_iff.1 hargs.length_eq.symm
      exact follows_throw _ id
    | cons input rest =>
      obtain ⟨input', rest', rfl, hinput, -⟩ := hargs.of_cons
      simp only [Machine.runPrimitive, Operation.llm, hf, hf']
      exact happly f f' hf hf' input input' hinput

/-- What counts as the identity returns its argument. -/
theorem gives_applyWith {m : Machine} {models : String → Bool}
    (hmodels : ∀ name, models name = true → m.Returns name) {fn : Value}
    (hfn : fn.offline models = .identity)
    (hprim : ∀ name op args, fn = .prim name op args →
      m.operation name = .ok op ∧ args.length < op.arity) (limit : Nat) (v : Value) :
    Gives v (m.applyWith (m.evaluate globals (limit + 1)) fn v) := by
  cases fn with
  | closure env body =>
    obtain ⟨henv, rfl⟩ := Value.closure.inj hfn
    cases env with
    | nil => exact fun history => ⟨history, rfl⟩
    | cons => cases henv
  | prim name op args =>
    rw [Value.offline] at hfn
    split at hfn
    next hname =>
      obtain ⟨hop, hlength⟩ := hprim name op args rfl
      obtain ⟨harity, hgives⟩ := hmodels name hname op hop
      rw [harity] at hlength
      obtain rfl := List.length_eq_zero_iff.1 (Nat.lt_one_iff.1 hlength)
      rw [Machine.applyWith, Machine.callPrimitive, if_neg (harity ▸ Nat.lt_irrefl 1)]
      exact hgives v
    next => cases hfn
  | _ => cases hfn

/-- A function applied to an argument, where the bodies of functions follow each other. -/
theorem follows_applyWith (hc : c.Fair) {limit : Nat}
    (heval : ∀ (t : Term) (env env' : Env), t.Within c.allowed names env.length →
      c.AllAlike names env env' → c.Follows (c.Alike names)
        (c.left.evaluate globals (limit + 1) t env) (c.right.evaluate globals' (limit + 1) t env'))
    {fn fn' arg arg' : Value} (hfn : c.Alike names fn fn') (harg : c.Alike names arg arg') :
    c.Follows (c.Alike names) (c.left.applyWith (c.left.evaluate globals (limit + 1)) fn arg)
      (c.right.applyWith (c.right.evaluate globals' (limit + 1)) fn' arg') := by
  rcases hfn.built_or_identity with hbuilt | ⟨⟨name, hname⟩, hid, hid'⟩
  · cases hbuilt with
    | int value => exact follows_throw _ id
    | string text => exact follows_throw _ id
    | con name arity hargs =>
      rw [Machine.applyWith, Machine.applyWith, ← hargs.length_eq]
      split
      next =>
        exact follows_pure (Built.con name arity (hargs.append (harg.cons allAlike_nil))).alike
      next => exact follows_throw _ id
    | closure henv hbody => exact heval _ _ _ hbody (harg.cons henv)
    | typeClosure henv hbody => exact follows_throw _ id
    | prim hname hlength hargs =>
      exact follows_callPrimitive hc hname (hargs.append (harg.cons allAlike_nil))
  · have hleft : ∀ name op args, fn = .prim name op args →
        c.left.operation name = .ok op ∧ args.length < op.arity := by
      rintro name op args rfl
      cases hfn.left with
      | prim hname hlength => exact ⟨hname.1, hlength⟩
    have hright : ∀ name op args, fn' = .prim name op args →
        c.right.operation name = .ok op ∧ args.length < op.arity := by
      rintro name op args rfl
      cases hfn.right with
      | prim hname hlength => exact ⟨hname.2, hlength⟩
    refine Gives.follows (hc.models name hname).1 ?_ ?_ harg
    · exact gives_applyWith (fun name h => (hc.models name h).2.1) hid hleft limit arg
    · exact gives_applyWith (fun name h => (hc.models name h).2.2) hid' hright limit arg'

/-- A value applied to a type, where nothing counts as the identity. -/
theorem follows_applyTypeWith {limit : Nat} (hmodels : ∀ name, c.models name = false)
    (heval : ∀ (t : Term) (env env' : Env), t.Within c.allowed names env.length →
      c.AllAlike names env env' → c.Follows (c.Alike names)
        (c.left.evaluate globals limit t env) (c.right.evaluate globals' limit t env'))
    {fn fn' : Value} (hfn : c.Alike names fn fn') :
    c.Follows (c.Alike names) (Machine.applyTypeWith (c.left.evaluate globals limit) fn)
      (Machine.applyTypeWith (c.right.evaluate globals' limit) fn') := by
  rcases hfn.built_or_identity with hbuilt | ⟨⟨name, hname⟩, -, -⟩
  · cases hbuilt with
    | int value => exact follows_throw _ id
    | string text => exact follows_throw _ id
    | con name arity hargs => exact follows_pure hfn
    | closure henv hbody => exact follows_throw _ id
    | typeClosure henv hbody => exact heval _ _ _ hbody henv
    | prim hname hlength hargs => exact follows_pure hfn
  · rw [hmodels name] at hname
    cases hname

/-! ## Parts of terms -/

theorem ends_globalValue (hglobals : c.GlobalsAlike names globals globals') {name : String}
    (hname : name ∈ names) :
    Ends (c.Alike names) (Machine.globalValue globals name)
    (Machine.globalValue globals' name) := by
  rw [Machine.globalValue, Machine.globalValue]
  rcases hglobals name hname with ⟨h, h'⟩ | ⟨v, v', h, h', hv⟩
  · rw [h, h']
    exact id
  · rw [h, h']
    exact hv

theorem ends_constructorArity (hc : c.Fair) {name : String} (hname : c.allowed (.constructor name))
    (given : Nat) :
    Ends Eq (c.left.constructorArity name given) (c.right.constructorArity name given) := by
  rw [Machine.constructorArity, Machine.constructorArity, hc.constructors name hname]
  split
  next => exact id
  next =>
    split
    next => exact id
    next => rfl

/-- Values that are alike select the same branch, or none, and their fields are alike. -/
theorem ends_selectBranch {v v' : Value} (h : c.Alike names v v') (branches : List Branch) :
    Ends (fun r r' => r.1 = r'.1 ∧ r.1 ∈ branches ∧ r.1.vars.length = r.2.length ∧
        c.AllAlike names r.2 r'.2)
      (Machine.selectBranch v branches) (Machine.selectBranch v' branches) := by
  rcases h.built_or_identity with hbuilt | ⟨-, hid, hid'⟩
  · cases hbuilt with
    | @con name arity args args' hargs =>
      rw [Machine.selectBranch, Machine.selectBranch, ← hargs.length_eq]
      split
      next =>
        cases hb : Machine.findBranch name branches with
        | none => exact id
        | some b =>
          dsimp only
          split
          next hlength => exact ⟨rfl, List.mem_of_find?_eq_some hb, hlength, hargs⟩
          next => exact id
      next => exact id
    | _ => exact id
  · have hnot {v : Value} (hv : v.offline c.models = .identity) :
        Machine.selectBranch v branches = .error (.notData v) := by
      cases v with
      | con => cases hv
      | _ => rfl
    rw [hnot hid, hnot hid']
    exact id

theorem follows_evaluateAll {eval eval' : Term → Eval Value} {args : List Term}
    (heval : ∀ arg ∈ args, c.Follows (c.Alike names) (eval arg) (eval' arg)) :
    c.Follows (c.AllAlike names) (Machine.evaluateAll eval args)
    (Machine.evaluateAll eval' args) := by
  induction args with
  | nil => exact follows_pure allAlike_nil
  | cons arg args ih =>
    obtain ⟨harg, hargs⟩ := List.forall_mem_cons.1 heval
    refine harg.bind fun v v' hv => (ih hargs).bind fun vs vs' hvs => ?_
    exact follows_pure (hv.cons hvs)

/-! ## Terms -/

/-- The evaluation of a term follows that of the same term on the other side. -/
theorem follows_evaluate (hc : c.Fair) (hglobals : c.GlobalsAlike names globals globals')
    (limit : Nat) (t : Term) (env env' : Env) (ht : t.Within c.allowed names env.length)
    (henv : c.AllAlike names env env') :
    c.Follows (c.Alike names) (c.left.evaluate globals limit t env)
      (c.right.evaluate globals' limit t env') := by
  induction limit generalizing t env env' with
  | zero => exact follows_exhausted
  | succ limit ih =>
    cases t with
    | var index =>
      obtain ⟨v, v', hv, hv', halike⟩ := henv.exists_getElem? ht
      rw [Machine.evaluate, Machine.evaluate, hv, hv']
      exact follows_pure halike
    | global name => exact follows_liftM (ends_globalValue hglobals ht)
    | lam type body => exact follows_pure (Built.closure henv ht).alike
    | app fn arg =>
      -- Without depth for the function nothing is evaluated; otherwise some is left for its body.
      cases limit with
      | zero => exact follows_exhausted
      | succ limit =>
        refine (ih fn env env' ht.1 henv).bind fun f f' hf => ?_
        refine (ih arg env env' ht.2 henv).bind fun a a' ha => ?_
        exact follows_applyWith hc ih hf ha
    | tlam v body =>
      have hbody : body.Within c.allowed names env.length := ht
      exact follows_pure (Built.typeClosure henv hbody).alike
    | tapp fn type =>
      refine (ih fn env env' ht.2 henv).bind fun f f' hf => ?_
      exact follows_applyTypeWith (hc.types ht.1) ih hf
    | con name args =>
      refine (follows_liftM (ends_constructorArity hc ht.1 args.length)).bind ?_
      rintro arity _ rfl
      have hargs := follows_evaluateAll fun arg harg => ih arg env env' (ht.2.mem arg harg) henv
      exact hargs.bind fun vs vs' hvs => follows_pure (Built.con name arity hvs).alike
    | case scrutinee branches =>
      refine (ih scrutinee env env' ht.1 henv).bind fun v v' hv => ?_
      refine (follows_liftM (ends_selectBranch hv branches)).bind ?_
      rintro ⟨b, fields⟩ ⟨_, fields'⟩ ⟨rfl, hb, hlength, hfields⟩
      refine ih b.body (fields ++ env) (fields' ++ env') ?_ (hfields.append henv)
      have hbody := ht.2.mem b hb
      rwa [show b.vars.length = fields.length from hlength, ← List.length_append] at hbody
    | letIn name value body =>
      refine (ih value env env' ht.1 henv).bind fun v v' hv => ?_
      exact ih body (v :: env) (v' :: env') ht.2 (hv.cons henv)
    | int value => exact follows_pure (Built.int value).alike
    | string text => exact follows_pure (Built.string text).alike
    | prim name =>
      refine (follows_liftM (hc.primitives name ht).results).bind ?_
      rintro arity _ ⟨rfl, harity, harity'⟩
      exact follows_callPrimitive hc ⟨harity, harity'⟩ allAlike_nil
    | tool name args =>
      have hargs := follows_evaluateAll fun arg harg => ih arg env env' (ht.2.mem arg harg) henv
      exact hargs.bind fun vs vs' hvs => follows_liftM (hc.tools names name vs vs' ht.1 hvs)

end

/-! ## Programs -/

section

variable {c : Comparison} {names : List String} {limit : Nat}

/-- Whether the evaluation of one term follows that of another, where the globals are alike. -/
def BodiesAlike (c : Comparison) (names : List String) (limit : Nat) (t t' : Term) : Prop :=
  ∀ globals globals', c.GlobalsAlike names globals globals' →
    c.Follows (c.Alike names) (c.left.evaluate globals limit t [])
      (c.right.evaluate globals' limit t' [])

theorem bodiesAlike_refl (hc : c.Fair) {t : Term} (ht : t.Within c.allowed names 0) :
    c.BodiesAlike names limit t t :=
  fun _ _ hglobals => follows_evaluate hc hglobals limit t [] [] ht allAlike_nil

/-- Whether definitions correspond one by one: they have the same names, `D` relates them, and their
bodies are alike once they and those before them are entered. -/
def DefinitionsAlike (c : Comparison) (limit : Nat) (D : Definition → Definition → Prop) :
    List String → List Definition → List Definition → Prop
  | _, [], [] => True
  | names, d :: ds, d' :: ds' =>
    d.name = d'.name ∧ D d d' ∧ c.BodiesAlike (d.name :: names) limit d.body d'.body ∧
      c.DefinitionsAlike limit D (d.name :: names) ds ds'
  | _, _, _ => False

/-- Definitions in order are alike to themselves. -/
theorem definitionsAlike_refl (hc : c.Fair) {ds : List Definition}
    (h : Definition.InOrder c.allowed names ds) : c.DefinitionsAlike limit Eq names ds ds := by
  induction ds generalizing names with
  | nil => trivial
  | cons d ds ih => exact ⟨rfl, rfl, bodiesAlike_refl hc h.1, ih h.2⟩

/-- Whether two sessions have come equally far. -/
structure InStep (c : Comparison) (names : List String) (s s' : Session) : Prop where
  globals : c.GlobalsAlike names s.globals s'.globals
  history : c.histories s.history s'.history

theorem GlobalsAlike.insert {globals globals' : Machine.Globals}
    (h : c.GlobalsAlike names globals globals') (name : String) {o o' : Option Value}
    (ho : (o = none ∧ o' = none) ∨ ∃ v v', o = some v ∧ o' = some v' ∧
      c.Alike (name :: names) v v') :
    c.GlobalsAlike (name :: names) (globals.insert name o) (globals'.insert name o') := by
  intro other hother
  rw [Table.get?_insert, Table.get?_insert]
  split
  next =>
    rcases ho with ⟨rfl, rfl⟩ | ⟨v, v', rfl, rfl, hv⟩
    · exact .inl ⟨rfl, rfl⟩
    · exact .inr ⟨v, v', rfl, rfl, hv⟩
  next hne =>
    refine (h other ((List.mem_cons.1 hother).resolve_left hne)).imp_right ?_
    rintro ⟨v, v', hv, hv', halike⟩
    exact ⟨v, v', hv, hv', halike.mono (List.subset_cons_self _ _)⟩

/-- One definition follows the other, and the sessions stay in step if it has a value. -/
theorem follows_evaluateDefinition {d d' : Definition} (hname : d.name = d'.name)
    (hbody : c.BodiesAlike (d.name :: names) limit d.body d'.body) {s s' s₁ : Session}
    (hs : c.InStep names s s') {r : Except EvalError Value}
    (h : (Session.evaluateDefinition c.left limit d).outcome? s = some (r, s₁)) :
    ∃ r' s₁', (Session.evaluateDefinition c.right limit d').outcome? s' = some (r', s₁') ∧
      Ends (c.Alike (d.name :: names)) r r' ∧
      ((∃ v, r = .ok v) → c.InStep (d.name :: names) s₁ s₁') := by
  have hglobals := hs.globals.insert d.name (.inl ⟨rfl, rfl⟩)
  have hfollows := hbody _ _ hglobals s.history s'.history hs.history
  rw [Session.outcome?_evaluateDefinition] at h ⊢
  obtain ⟨⟨r, after⟩, houtcome, ⟨⟩⟩ := Option.map_eq_some_iff.1 h
  obtain ⟨r', after', houtcome', hafter, hends⟩ := hfollows r after houtcome
  rw [← hname, houtcome']
  refine ⟨r', _, rfl, hends, ?_⟩
  rintro ⟨v, rfl⟩
  rcases hends.ok_or_error with ⟨v, v', ⟨⟩, rfl, hv⟩ | ⟨e, e', ⟨⟩, -⟩
  exact ⟨hs.globals.insert d.name (.inr ⟨v, v', rfl, rfl, hv⟩), hafter⟩

/-- A program follows the other one: both have the same definitions evaluated, with values that are
alike, and where one fails so does the other, and not for want of something. -/
theorem follows_evaluateDefinitions {D : Definition → Definition → Prop} {ds ds' : List Definition}
    (hds : c.DefinitionsAlike limit D names ds ds') {s s' s₁ : Session} (hs : c.InStep names s s')
    {values : List (Definition × Value)} {failure : Option (Definition × EvalError)}
    (h : Session.evaluateDefinitions c.left limit ds s = some ((values, failure), s₁)) :
    ∃ values' failure' s₁',
      Session.evaluateDefinitions c.right limit ds' s' = some ((values', failure'), s₁') ∧
      List.Forall₂ (fun x x' => D x.1 x'.1 ∧ ∃ names, c.Alike names x.2 x'.2) values values' ∧
      Option.Rel (fun x x' => D x.1 x'.1 ∧ ¬ x.2.Dangling) failure failure' := by
  induction ds generalizing ds' names s s' s₁ values failure with
  | nil =>
    cases ds' with
    | cons d' ds' => exact hds.elim
    | nil =>
      cases h
      exact ⟨[], none, s', rfl, .nil, .none⟩
  | cons d ds ih =>
    cases ds' with
    | nil => exact hds.elim
    | cons d' ds' =>
      obtain ⟨hname, hD, hbody, hds⟩ := hds
      obtain ⟨e, hd, rfl, rfl⟩ | ⟨v, s₂, others, hd, hrest, rfl⟩ :=
        Session.evaluateDefinitions_cons_iff.1 h
      · obtain ⟨_, s₂', hd', hends, -⟩ := follows_evaluateDefinition hname hbody hs hd
        obtain ⟨_, _, ⟨⟩, -⟩ | ⟨_, e', ⟨⟩, rfl, he⟩ := hends.ok_or_error
        refine ⟨[], some (d', e'), s₂', ?_, .nil, .some ⟨hD, he⟩⟩
        exact Session.evaluateDefinitions_cons_iff.2 (.inl ⟨e', hd', rfl, rfl⟩)
      · obtain ⟨_, s₂', hd', hends, hstep⟩ := follows_evaluateDefinition hname hbody hs hd
        obtain ⟨_, v', ⟨⟩, rfl, hv⟩ | ⟨_, _, ⟨⟩, -⟩ := hends.ok_or_error
        obtain ⟨others', failure', s₃', hrest', hvalues, hfailure⟩ := ih hds (hstep ⟨v, rfl⟩) hrest
        refine ⟨(d', v') :: others', failure', s₃', ?_, .cons ⟨hD, _, hv⟩ hvalues, hfailure⟩
        exact Session.evaluateDefinitions_cons_iff.2 (.inr ⟨v', s₂', others', hd', hrest', rfl⟩)

end

end Comparison

end PolyLambda
