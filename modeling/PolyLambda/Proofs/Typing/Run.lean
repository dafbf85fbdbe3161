import PolyLambda.Proofs.Typing.Plan
import PolyLambda.Proofs.Unify.Step

/-!
# Runs of the checker

What a task comes to does not depend on the limit once it is high enough, and so a run can be spoken
of without it: a task returns a result (`Returns`), and it reaches other tasks in the states in
which it calls them, directly or through others (`Reaches`), whether or not it ever comes to an end
itself.

Two things hold of every run because tasks call only smaller ones. A task comes to an end exactly if
all the unifications that it reaches do (`halts_iff`). And what every plan establishes, if the tasks
that it calls do, holds throughout the run (`Verified.reaches`, `Verified.returns`).
-/

namespace PolyLambda.Checker

open Plan

/-! ## Calls go to smaller tasks -/

/-- Whether a step of checking learns nothing. -/
def KeepsSubst {α : Type} (m : Check α) : Prop :=
  ∀ c r c', m.outcome? c = some (r, c') → c'.subst = c.subst

section

variable {α β : Type}

theorem KeepsSubst.bind {m : Check α} {f : α → Check β} (h : KeepsSubst m)
    (hf : ∀ a, KeepsSubst (f a)) : KeepsSubst (m >>= f) := by
  intro c r c' hbind
  rw [LimitedState.outcome?_bind] at hbind
  split at hbind
  next => cases hbind
  next e c₁ hm =>
    cases hbind
    exact h c _ _ hm
  next a c₁ hm => exact (hf a c₁ r c' hbind).trans (h c _ _ hm)

theorem keepsSubst_pure (a : α) : KeepsSubst (pure a : Check α) := by
  rintro c r c' ⟨⟩
  rfl

theorem keepsSubst_throw (e : TypeError) : KeepsSubst (throw e : Check α) := by
  rintro c r c' ⟨⟩
  rfl

theorem keepsSubst_get : KeepsSubst (get : Check Checker) := by
  rintro c r c' ⟨⟩
  rfl

theorem keepsSubst_freshMeta : KeepsSubst freshMeta := by
  rintro c r c' ⟨⟩
  rfl

theorem keepsSubst_setGlobal (name : String) (t : Ty) : KeepsSubst (setGlobal name t) := by
  rintro c r c' ⟨⟩
  rfl

theorem keepsSubst_resolve (t : Ty) : KeepsSubst (resolve t) :=
  keepsSubst_get.bind fun _ => keepsSubst_pure _

theorem keepsSubst_globalType (name : String) : KeepsSubst (globalType name) := by
  refine keepsSubst_get.bind fun c => ?_
  cases c.globalType? name with
  | none => exact keepsSubst_throw _
  | some t => exact keepsSubst_pure t

theorem keepsSubst_constructorType (sig : Signature) (name : String) :
    KeepsSubst (constructorType sig name) := by
  rw [constructorType]
  split
  next => exact keepsSubst_pure _
  next => exact keepsSubst_throw _

theorem keepsSubst_primitiveType (sig : Signature) (name : String) :
    KeepsSubst (primitiveType sig name) := by
  rw [primitiveType]
  split
  next => exact keepsSubst_pure _
  next => exact keepsSubst_throw _

theorem keepsSubst_instantiate (t : Ty) : KeepsSubst (instantiate t) := by
  rw [instantiate]
  generalize t.splitAlls.1.length = n
  induction n generalizing t with
  | zero =>
    rw [instantiateWithin.eq_def]
    exact keepsSubst_pure t
  | succ n ih =>
    cases t with
    | all v body => exact keepsSubst_freshMeta.bind fun m => ih _
    | _ => exact keepsSubst_pure _

end

namespace Plan

variable {α β : Type}

/-- Whether a plan calls only tasks of a size below `n`, and leaves solving equations to them, so
that its own steps learn nothing. -/
def Below (n : Nat) : Plan α → Prop
  | done _ => True
  | act f k => (∀ c b c', f c = some (b, c') → c'.subst = c.subst) ∧ ∀ b, (k b).Below n
  | solve _ _ _ _ => False
  | call task k => task.size < n ∧ ∀ a, (k a).Below n

theorem Below.bind {n : Nat} {p : Plan α} {f : α → Plan β} (h : p.Below n)
    (hf : ∀ a, (f a).Below n) : (p >>= f).Below n := by
  induction p with
  | done a => exact hf a
  | act g k ih => exact ⟨h.1, fun b => ih b (h.2 b)⟩
  | solve => exact h.elim
  | call task k ih => exact ⟨h.1, fun a => ih a (h.2 a)⟩

theorem below_pure {n : Nat} (a : α) : (pure a : Plan α).Below n := trivial

theorem below_fail {n : Nat} : (fail : Plan α).Below n := ⟨nofun, fun _ => trivial⟩

theorem below_ofCheck {n : Nat} {m : Check α} (h : KeepsSubst m) : (ofCheck m).Below n := by
  refine ⟨fun c b c' hm => ?_, fun _ => trivial⟩
  obtain ⟨⟨r, c₁⟩, hr, hm⟩ := Option.bind_eq_some_iff.1 hm
  cases r with
  | error e => cases hm
  | ok a =>
    cases hm
    exact h c _ _ hr

theorem below_call {n : Nat} {task : Task} (h : task.size < n) : task.call.Below n :=
  ⟨h, fun _ => trivial⟩

end Plan

section

variable (sig : Signature)

theorem below_asArrow {n : Nat} (hn : 0 < n) (ctx : Context) (t : Ty) :
    (asArrowPlan ctx t).Below n := by
  cases t with
  | arrow => exact below_pure _
  | _ =>
    refine (below_ofCheck keepsSubst_freshMeta).bind fun _ =>
      (below_ofCheck keepsSubst_freshMeta).bind fun _ => ?_
    split
    next => exact (below_call hn).bind fun _ => below_pure _
    next => exact below_fail

theorem below_infer (ctx : Context) (t : Term) :
    (inferPlan sig ctx t).Below (Task.infer ctx t).size := by
  have hpos : 0 < t.size := by cases t <;> simp only [Term.size] <;> omega
  cases t with
  | var index =>
    rw [inferPlan]
    cases ctx.type? index with
    | some t => exact below_ofCheck (keepsSubst_resolve t)
    | none => exact below_fail
  | global name => exact below_ofCheck (keepsSubst_globalType name)
  | lam type body =>
    cases type with
    | some param =>
      refine (below_call ?_).bind fun _ => below_ofCheck (keepsSubst_resolve _)
      simp only [Task.size, Term.size]
      omega
    | none => exact below_fail
  | app fn arg =>
    refine (below_call ?_).bind fun f => (below_asArrow ?_ ctx f).bind fun _ =>
      (below_call ?_).bind fun _ => below_ofCheck (keepsSubst_resolve _)
    all_goals simp only [Task.size, Term.size]; omega
  | tlam v body =>
    refine (below_call ?_).bind fun _ => below_pure _
    simp only [Task.size, Term.size]
    omega
  | tapp fn arg =>
    refine (below_call ?_).bind fun t => ?_
    · simp only [Task.size, Term.size]
      omega
    · cases t with
      | all v body => exact below_pure _
      | _ => exact below_fail
  | con name args =>
    refine (below_ofCheck (keepsSubst_constructorType sig name)).bind fun t =>
      (below_ofCheck (keepsSubst_instantiate t)).bind fun t => ?_
    split
    next => exact below_fail
    next =>
      refine (below_call ?_).bind fun _ => below_ofCheck (keepsSubst_resolve _)
      simp only [Task.size, Term.size]
      omega
  | case scrutinee branches =>
    rw [inferPlan]
    split
    next => exact below_fail
    next =>
      refine (below_call ?_).bind fun _ => below_call ?_
      all_goals simp only [Task.size, Term.size]; omega
  | letIn name value body =>
    refine (below_call ?_).bind fun _ => below_call ?_
    all_goals simp only [Task.size, Term.size]; omega
  | int value => exact below_pure _
  | string text => exact below_pure _
  | prim name => exact below_ofCheck (keepsSubst_primitiveType sig name)
  | tool name args =>
    refine (below_call ?_).bind fun _ => below_ofCheck keepsSubst_freshMeta
    simp only [Task.size, Term.size]
    omega

theorem below_inferTypeFunction (ctx : Context) (t : Term) :
    (inferTypeFunctionPlan sig ctx t).Below (Task.inferTypeFunction ctx t).size := by
  have hinfer : (Task.infer ctx t).call.Below (Task.inferTypeFunction ctx t).size :=
    below_call (Nat.lt_succ_self _)
  cases t with
  | con name args =>
    cases args with
    | nil => exact below_ofCheck (keepsSubst_constructorType sig name)
    | cons arg args => exact hinfer
  | _ => exact hinfer

theorem below_check (ctx : Context) (t : Term) (expected : Ty) :
    (checkPlan ctx t expected).Below (Task.check ctx t expected).size := by
  refine (below_ofCheck (keepsSubst_resolve expected)).bind fun expected' => ?_
  have hother : (do
      let actual ← (Task.infer ctx t).call
      (Task.unify ctx expected' actual).call : Plan Unit).Below (Task.check ctx t expected).size :=
    (below_call (Nat.lt_succ_self _)).bind fun _ => below_call (Nat.succ_pos _)
  cases t with
  | lam type body =>
    cases type with
    | some declared =>
      cases expected' with
      | arrow param result =>
        refine (below_call (Nat.succ_pos _)).bind fun _ => below_call ?_
        simp only [Task.size, Term.size]
        omega
      | _ => exact hother
    | none =>
      cases expected' with
      | arrow param result =>
        refine below_call ?_
        simp only [Task.size, Term.size]
        omega
      | _ => exact hother
  | tlam v body =>
    cases expected' with
    | all w result =>
      refine below_call ?_
      simp only [Task.size, Term.size]
      omega
    | _ => exact hother
  | _ => exact hother

theorem below_checkArgs (ctx : Context) (args : List Term) (fields : List Ty) :
    (checkArgsPlan ctx args fields).Below (Task.checkArgs ctx args fields).size := by
  cases args with
  | nil => exact below_pure _
  | cons arg args =>
    cases fields with
    | nil => exact below_pure _
    | cons field fields =>
      refine (below_call ?_).bind fun _ => below_call ?_
      all_goals simp only [Task.size, Term.sizeArgs]; omega

theorem below_inferArgs (ctx : Context) (args : List Term) :
    (inferArgsPlan ctx args).Below (Task.inferArgs ctx args).size := by
  cases args with
  | nil => exact below_pure _
  | cons arg args =>
    refine (below_call ?_).bind fun _ => below_call ?_
    all_goals simp only [Task.size, Term.sizeArgs]; omega

theorem below_enterBranch {n : Nat} (hn : 0 < n) (ctx : Context) (scrutinee : Ty)
    (constructor : String) (vars : List String) :
    (enterBranchPlan sig ctx scrutinee constructor vars).Below n := by
  refine (below_ofCheck (keepsSubst_constructorType sig constructor)).bind fun t =>
    (below_ofCheck (keepsSubst_instantiate t)).bind fun t => ?_
  split
  next => exact below_fail
  next =>
    exact (below_call hn).bind fun _ => (below_ofCheck keepsSubst_get).bind fun _ => below_pure _

theorem below_inferBranches (ctx : Context) (scrutinee : Ty) (previous : Option Ty)
    (branches : List Branch) :
    (inferBranchesPlan sig ctx scrutinee previous branches).Below
      (Task.inferBranches ctx scrutinee previous branches).size := by
  cases branches with
  | nil =>
    cases previous with
    | some t => exact below_pure _
    | none => exact below_fail
  | cons branch branches =>
    obtain ⟨constructor, vars, body⟩ := branch
    refine (below_enterBranch sig ?_ ctx scrutinee constructor vars).bind fun inner =>
      (below_call ?_).bind fun t => Below.bind ?_ fun joined => below_call ?_
    case refine_3 =>
      cases previous with
      | none => exact below_pure _
      | some p =>
        refine (below_call ?_).bind fun _ => below_ofCheck (keepsSubst_resolve p)
        simp only [Task.size, Term.sizeBranches]
        omega
    all_goals simp only [Task.size, Term.sizeBranches]; omega

theorem below_checkDefinition (d : Definition) :
    (checkDefinitionPlan d).Below (Task.checkDefinition d).size := by
  refine Below.bind ?_ fun _ => (below_ofCheck (keepsSubst_setGlobal _ _)).bind fun _ =>
    Below.bind ?_ fun _ => (below_ofCheck (keepsSubst_setGlobal _ _)).bind fun _ => below_pure _
  · rw [placeholderPlan]
    cases d.type with
    | some t => exact below_pure _
    | none => exact below_ofCheck keepsSubst_freshMeta
  · rw [checkBodyPlan]
    cases d.type with
    | some t => exact (below_call (Nat.lt_succ_self _)).bind fun _ => below_pure _
    | none =>
      refine (below_call ?_).bind fun _ => (below_call (Nat.succ_pos _)).bind fun _ =>
        below_ofCheck (keepsSubst_resolve _)
      simp only [Task.size]
      omega

theorem below_checkDefinitions (types : Table Ty) (ds : List Definition) :
    (checkDefinitionsPlan types ds).Below (Task.checkDefinitions types ds).size := by
  cases ds with
  | nil => exact below_pure _
  | cons d ds =>
    refine (below_call ?_).bind fun _ => below_call ?_
    all_goals simp only [Task.size, List.map_cons, List.sum_cons]; omega

/-- Whether a task is to solve a single equation. -/
def Task.IsUnify : Task → Prop
  | unify _ _ _ => True
  | _ => False

/-- A task other than a unification calls smaller tasks. -/
theorem Task.below_plan (task : Task) (h : ¬ task.IsUnify) :
    (task.plan sig).Below task.size := by
  cases task with
  | infer ctx t => exact below_infer sig ctx t
  | inferTypeFunction ctx t => exact below_inferTypeFunction sig ctx t
  | check ctx t expected => exact below_check ctx t expected
  | checkArgs ctx args fields => exact below_checkArgs ctx args fields
  | inferArgs ctx args => exact below_inferArgs ctx args
  | inferBranches ctx scrutinee previous branches =>
    exact below_inferBranches sig ctx scrutinee previous branches
  | unify => exact absurd trivial h
  | checkDefinition d => exact below_checkDefinition d
  | checkDefinitions types ds => exact below_checkDefinitions types ds

end

/-! ## Raising the limit -/

section

variable {sig : Signature} {n m : Nat} {c c' : Checker} {task : Task}

theorem outcome?_unify_eq (ctx : Context) (left right : Ty) :
    (Task.unify ctx left right).outcome? sig n c =
      match (Ty.unify ctx.hasTypeVar n (c.resolved left) (c.resolved right)).outcome? with
      | none => none
      | some (.error _) => some none
      | some (.ok s) => some (some ((), { c with subst := s.compose c.subst })) := by
  have hplan : (Task.unify ctx left right).outcome? sig n c =
      (solve ctx.hasTypeVar (c.resolved left) (c.resolved right) fun s =>
        ofCheck (set { c with subst := s.compose c.subst })).run sig n c :=
    outcome?_eq_run sig n (.unify ctx left right) c
  rw [hplan, Plan.run]
  cases (Ty.unify ctx.hasTypeVar n (c.resolved left) (c.resolved right)).outcome? with
  | none => rfl
  | some o => cases o <;> rfl

theorem run_mono {α : Type} {p : Plan α} {k : Nat} (hp : p.Below k)
    (hcalls : ∀ (task : Task) c x, task.size < k → task.outcome? sig n c = some x →
      task.outcome? sig m c = some x)
    {x : Option (α × Checker)} (h : p.run sig n c = some x) : p.run sig m c = some x := by
  induction p generalizing c with
  | done a => exact h
  | act g p ih =>
    rw [Plan.run] at h ⊢
    cases hg : g c with
    | none => rwa [hg] at h
    | some r =>
      rw [hg] at h
      exact ih _ (hp.2 _) h
  | solve => exact hp.elim
  | call t p ih =>
    rw [Plan.run] at h ⊢
    cases ht : t.outcome? sig n c with
    | none =>
      rw [ht] at h
      cases h
    | some o =>
      rw [ht] at h
      rw [hcalls t c o hp.1 ht]
      cases o with
      | none => exact h
      | some r => exact ih _ (hp.2 _) h

/-- What a task comes to stays the same when the limit is raised. -/
theorem outcome?_mono (hle : n ≤ m) {x : Option (task.Result × Checker)}
    (h : task.outcome? sig n c = some x) : task.outcome? sig m c = some x := by
  induction hk : task.size using Nat.strongRecOn generalizing task c with
  | ind k ih =>
    subst hk
    by_cases hunify : task.IsUnify
    · obtain ⟨ctx, left, right, rfl⟩ : ∃ ctx left right, task = .unify ctx left right := by
        cases task <;> first | exact hunify.elim | exact ⟨_, _, _, rfl⟩
      rw [outcome?_unify_eq] at h ⊢
      cases hu : (Ty.unify ctx.hasTypeVar n (c.resolved left) (c.resolved right)).outcome? with
      | none =>
        rw [hu] at h
        cases h
      | some o =>
        rw [Ty.outcome?_unify_mono hle hu]
        rwa [hu] at h
    · rw [outcome?_eq_run] at h ⊢
      exact run_mono (task.below_plan sig hunify) (fun t c x ht hx => ih t.size ht hx rfl) h

/-! ## Returning and reaching -/

/-- Whether a task, called in the state `c`, succeeds with the result `a` and the state `c'`. -/
def Returns (sig : Signature) (task : Task) (c : Checker) (a : task.Result) (c' : Checker) :
    Prop :=
  ∃ limit, task.outcome? sig limit c = some (some (a, c'))

/-- Whether a task comes to an end, with a result or an error. -/
def Halts (sig : Signature) (task : Task) (c : Checker) : Prop :=
  ∃ limit, task.outcome? sig limit c ≠ none

theorem Returns.outcome? {a : task.Result} (h : Returns sig task c a c')
    {x : Option (task.Result × Checker)} (hx : task.outcome? sig n c = some x) :
    x = some (a, c') := by
  obtain ⟨m, hm⟩ := h
  have h1 := outcome?_mono (Nat.le_max_left n m) hx
  have h2 := outcome?_mono (Nat.le_max_right n m) hm
  rw [h1] at h2
  exact Option.some.inj h2

theorem returns_unify_iff {ctx : Context} {left right : Ty} {u : Unit} :
    Returns sig (.unify ctx left right) c u c' ↔
      ∃ s, Ty.Settles ctx.hasTypeVar (c.resolved left) (c.resolved right) (.ok s) ∧
        c' = { c with subst := s.compose c.subst } := by
  constructor
  · rintro ⟨limit, h⟩
    rw [outcome?_unify_eq] at h
    split at h
    next => cases h
    next => cases h
    next s hs =>
      cases h
      exact ⟨s, ⟨limit, hs⟩, rfl⟩
  · rintro ⟨s, ⟨limit, hs⟩, rfl⟩
    refine ⟨limit, ?_⟩
    rw [outcome?_unify_eq, hs]

theorem halts_unify_iff {ctx : Context} {left right : Ty} :
    Halts sig (.unify ctx left right) c ↔
      ∃ r, Ty.Settles ctx.hasTypeVar (c.resolved left) (c.resolved right) r := by
  constructor
  · rintro ⟨limit, h⟩
    rw [outcome?_unify_eq] at h
    cases hr : (Ty.unify ctx.hasTypeVar limit (c.resolved left) (c.resolved right)).outcome? with
    | none =>
      rw [hr] at h
      exact absurd rfl h
    | some r => exact ⟨r, limit, hr⟩
  · rintro ⟨r, limit, hr⟩
    refine ⟨limit, ?_⟩
    rw [outcome?_unify_eq, hr]
    cases r <;> rintro ⟨⟩

end

namespace Plan

variable {α β : Type}

/-- Whether a plan, followed from the state `c`, succeeds with the result `a` and the state `c'`. -/
def Returns (sig : Signature) : Plan α → Checker → α → Checker → Prop
  | done a, c, b, c' => b = a ∧ c' = c
  | act f k, c, a, c' => ∃ b c₁, f c = some (b, c₁) ∧ (k b).Returns sig c₁ a c'
  | solve rigid left right k, c, a, c' =>
    ∃ s, Ty.Settles rigid left right (.ok s) ∧ (k s).Returns sig c a c'
  | call task k, c, a, c' =>
    ∃ b c₁, Checker.Returns sig task c b c₁ ∧ (k b).Returns sig c₁ a c'

/-- Whether a plan, followed from the state `c`, calls `task` in the state `c'`. -/
def Calls (sig : Signature) : Plan α → Checker → Task → Checker → Prop
  | done _, _, _, _ => False
  | act f k, c, task, c' => ∃ b c₁, f c = some (b, c₁) ∧ (k b).Calls sig c₁ task c'
  | solve rigid left right k, c, task, c' =>
    ∃ s, Ty.Settles rigid left right (.ok s) ∧ (k s).Calls sig c task c'
  | call t k, c, task, c' =>
    (task = t ∧ c' = c) ∨ ∃ b c₁, Checker.Returns sig t c b c₁ ∧ (k b).Calls sig c₁ task c'

section

variable {sig : Signature} {p : Plan α} {c c' : Checker} {task : Task} {k : Nat}

theorem Below.size_lt (hp : p.Below k) (h : p.Calls sig c task c') : task.size < k := by
  induction p generalizing c with
  | done => exact h.elim
  | act g p ih =>
    obtain ⟨b, c₁, -, h⟩ := h
    exact ih b (hp.2 b) h
  | solve => exact hp.elim
  | call t p ih =>
    obtain ⟨rfl, -⟩ | ⟨b, c₁, -, h⟩ := h
    · exact hp.1
    · exact ih b (hp.2 b) h

theorem returns_of_run {limit : Nat} {a : α} (hp : p.Below k)
    (h : p.run sig limit c = some (some (a, c'))) : p.Returns sig c a c' := by
  induction p generalizing c with
  | done b =>
    cases h
    exact ⟨rfl, rfl⟩
  | act g p ih =>
    rw [run] at h
    cases hg : g c with
    | none =>
      rw [hg] at h
      cases h
    | some r =>
      rw [hg] at h
      exact ⟨r.1, r.2, hg, ih _ (hp.2 _) h⟩
  | solve => exact hp.elim
  | call t p ih =>
    rw [run] at h
    split at h
    next => cases h
    next => cases h
    next b c₁ hb => exact ⟨b, c₁, ⟨limit, hb⟩, ih b (hp.2 b) h⟩

theorem exists_run_of_returns {a : α} (hp : p.Below k) (h : p.Returns sig c a c') :
    ∃ limit, p.run sig limit c = some (some (a, c')) := by
  induction p generalizing c with
  | done b =>
    obtain ⟨rfl, rfl⟩ := h
    exact ⟨0, rfl⟩
  | act g p ih =>
    obtain ⟨b, c₁, hg, h⟩ := h
    simp only [run, hg]
    exact ih b (hp.2 b) h
  | solve => exact hp.elim
  | call t p ih =>
    obtain ⟨b, c₁, ⟨n, hn⟩, h⟩ := h
    obtain ⟨m, hm⟩ := ih b (hp.2 b) h
    refine ⟨max n m, ?_⟩
    rw [run, outcome?_mono (Nat.le_max_left n m) hn]
    exact run_mono (hp.2 b) (fun t c x _ h => outcome?_mono (Nat.le_max_right n m) h) hm

/-- If all that a plan calls comes to an end, then so does the plan. -/
theorem exists_run_ne_none (hp : p.Below k)
    (hcalls : ∀ task c', p.Calls sig c task c' → Halts sig task c') :
    ∃ limit, p.run sig limit c ≠ none := by
  induction p generalizing c with
  | done a => exact ⟨0, Option.some_ne_none _⟩
  | act g p ih =>
    simp only [run]
    cases hg : g c with
    | none => exact ⟨0, Option.some_ne_none _⟩
    | some r => exact ih r.1 (hp.2 r.1) fun t c' h => hcalls t c' ⟨r.1, r.2, hg, h⟩
  | solve => exact hp.elim
  | call t p ih =>
    simp only [run]
    obtain ⟨n, hn⟩ := hcalls t c (.inl ⟨rfl, rfl⟩)
    obtain ⟨o, ho⟩ := Option.ne_none_iff_exists'.1 hn
    cases o with
    | none =>
      refine ⟨n, ?_⟩
      rw [ho]
      rintro ⟨⟩
    | some r =>
      obtain ⟨m, hm⟩ := ih r.1 (hp.2 r.1) fun t' c' h => hcalls t' c' (.inr ⟨r.1, r.2, ⟨n, ho⟩, h⟩)
      refine ⟨max n m, ?_⟩
      rw [outcome?_mono (Nat.le_max_left n m) ho]
      obtain ⟨x, hx⟩ := Option.ne_none_iff_exists'.1 hm
      have hx' := run_mono (hp.2 r.1)
        (fun t c x _ h => outcome?_mono (Nat.le_max_right n m) h) hx
      simp only [hx']
      rintro ⟨⟩

/-- And the other way around, with the same limit. -/
theorem outcome?_ne_none_of_calls {limit : Nat} (hp : p.Below k) (h : p.run sig limit c ≠ none)
    (hcall : p.Calls sig c task c') : task.outcome? sig limit c' ≠ none := by
  induction p generalizing c with
  | done => exact hcall.elim
  | act g p ih =>
    obtain ⟨b, c₁, hg, hcall⟩ := hcall
    rw [run, hg] at h
    exact ih b (hp.2 b) h hcall
  | solve => exact hp.elim
  | call t p ih =>
    rw [run] at h
    obtain ⟨rfl, rfl⟩ | ⟨b, c₁, hb, hcall⟩ := hcall
    · intro hnone
      rw [hnone] at h
      exact h rfl
    · cases ht : t.outcome? sig limit c with
      | none =>
        rw [ht] at h
        exact absurd rfl h
      | some o =>
        rw [ht, hb.outcome? ht] at h
        exact ih b (hp.2 b) h hcall

end

end Plan

section

variable {sig : Signature} {task task' : Task} {c c' : Checker}

/-- A task, called in the state `c`, leads to the call of another one in the state `c'`. -/
inductive Reaches (sig : Signature) : Task → Checker → Task → Checker → Prop where
  | refl (task : Task) (c : Checker) : Reaches sig task c task c
  | step {task t task' : Task} {c c₁ c' : Checker} (h : (task.plan sig).Calls sig c t c₁)
    (h' : Reaches sig t c₁ task' c') : Reaches sig task c task' c'

theorem Reaches.trans {t : Task} {c₁ : Checker} (h : Reaches sig task c t c₁)
    (h' : Reaches sig t c₁ task' c') : Reaches sig task c task' c' := by
  induction h with
  | refl => exact h'
  | step hcall _ ih => exact .step hcall (ih h')

theorem Task.IsUnify.eq (h : task.IsUnify) : ∃ ctx left right, task = .unify ctx left right := by
  cases task with
  | unify ctx left right => exact ⟨ctx, left, right, rfl⟩
  | _ => exact h.elim

/-- A unification calls nothing. -/
theorem not_calls_unify {ctx : Context} {left right : Ty} :
    ¬ ((Task.unify ctx left right).plan sig).Calls sig c task c' := by
  rintro ⟨b, c₁, -, s, -, b', c₂, -, h⟩
  exact h

theorem Plan.Calls.size_lt (h : (task.plan sig).Calls sig c task' c') : task'.size < task.size := by
  by_cases hunify : task.IsUnify
  · obtain ⟨ctx, left, right, rfl⟩ := hunify.eq
    exact absurd h not_calls_unify
  · exact (task.below_plan sig hunify).size_lt h

/-- What a task returns, its plan returns. -/
theorem Returns.plan {a : task.Result} (h : Returns sig task c a c') :
    (task.plan sig).Returns sig c a c' := by
  by_cases hunify : task.IsUnify
  · obtain ⟨ctx, left, right, rfl⟩ := hunify.eq
    obtain ⟨s, hs, rfl⟩ := returns_unify_iff.1 h
    exact ⟨c, c, rfl, s, hs, (), _, rfl, rfl, rfl⟩
  · obtain ⟨limit, h⟩ := h
    rw [outcome?_eq_run] at h
    exact returns_of_run (task.below_plan sig hunify) h

/-- And the other way around. -/
theorem Returns.of_plan {a : task.Result} (htask : ¬ task.IsUnify)
    (h : (task.plan sig).Returns sig c a c') : Returns sig task c a c' := by
  obtain ⟨limit, h⟩ := exists_run_of_returns (task.below_plan sig htask) h
  refine ⟨limit, ?_⟩
  rwa [outcome?_eq_run]

/-- A task comes to an end exactly if every unification that it reaches does. -/
theorem halts_iff :
    Halts sig task c ↔
      ∀ ctx left right c', Reaches sig task c (.unify ctx left right) c' →
        ∃ r, Ty.Settles ctx.hasTypeVar (c'.resolved left) (c'.resolved right) r := by
  constructor
  · intro h ctx left right c' hreach
    generalize hunify : Task.unify ctx left right = t at hreach
    induction hreach with
    | refl =>
      subst hunify
      exact halts_unify_iff.1 h
    | @step task t task' c c₁ c' hcall _ ih =>
      refine ih ?_ hunify
      by_cases htask : task.IsUnify
      · obtain ⟨ctx, left, right, rfl⟩ := htask.eq
        exact absurd hcall not_calls_unify
      · obtain ⟨limit, h⟩ := h
        rw [outcome?_eq_run] at h
        exact ⟨limit, outcome?_ne_none_of_calls (task.below_plan sig htask) h hcall⟩
  · intro h
    induction hk : task.size using Nat.strongRecOn generalizing task c with
    | ind k ih =>
      subst hk
      by_cases htask : task.IsUnify
      · obtain ⟨ctx, left, right, rfl⟩ := htask.eq
        exact halts_unify_iff.2 (h ctx left right c (.refl _ _))
      · obtain ⟨limit, hlimit⟩ := exists_run_ne_none (task.below_plan sig htask)
          (fun t c₁ hcall => ih t.size hcall.size_lt
            (fun ctx left right c' hreach => h ctx left right c' (.step hcall hreach)) rfl)
        refine ⟨limit, ?_⟩
        rwa [outcome?_eq_run]

end

/-! ## Verifying runs -/

section

variable (sig : Signature) (assume : Task → Checker → Prop) (pre : Task → Checker → Prop)
  (post : (task : Task) → Checker → task.Result → Checker → Prop)

/-- Whether a plan, followed from the state `c`, calls tasks only where `pre` allows it and ends as
`Q` says, provided that what it calls ends as `post` says. The assumption `assume` may be made of
all tasks that are called. -/
def Plan.Meets {α : Type} : Plan α → (α → Checker → Prop) → Checker → Prop
  | done a, Q, c => Q a c
  | act f k, Q, c => ∀ b c₁, f c = some (b, c₁) → (k b).Meets Q c₁
  | solve rigid left right k, Q, c =>
    ∀ s, Ty.Settles rigid left right (.ok s) → (k s).Meets Q c
  | call task k, Q, c => assume task c → pre task c ∧
    ∀ b c₁, Checker.Returns sig task c b c₁ → post task c b c₁ → (k b).Meets Q c₁

/-- Whether every plan meets what is asked of its task. -/
def Verified : Prop :=
  ∀ task c, assume task c → pre task c →
    (task.plan sig).Meets sig assume pre post (post task c) c

end

section

variable {sig : Signature} {assume : Task → Checker → Prop} {pre : Task → Checker → Prop}
  {post : (task : Task) → Checker → task.Result → Checker → Prop} {α β : Type} {p : Plan α}
  {Q : α → Checker → Prop} {c c' : Checker} {task task' : Task}

theorem Plan.meets_bind {f : α → Plan β} {Q : β → Checker → Prop} :
    (p >>= f).Meets sig assume pre post Q c ↔
      p.Meets sig assume pre post (fun a c' => (f a).Meets sig assume pre post Q c') c := by
  show (p.bind f).Meets sig assume pre post Q c ↔ _
  induction p generalizing c with
  | done a => rfl
  | act g p ih => simp only [Plan.bind, Meets, ih]
  | solve rigid left right p ih => simp only [Plan.bind, Meets, ih]
  | call t p ih => simp only [Plan.bind, Meets, ih]

theorem Plan.Meets.returns (h : p.Meets sig assume pre post Q c)
    (hassume : ∀ t c', p.Calls sig c t c' → assume t c')
    (hcalls : ∀ t c', p.Calls sig c t c' → pre t c' →
      ∀ b c₁, Checker.Returns sig t c' b c₁ → post t c' b c₁)
    {a : α} (ha : p.Returns sig c a c') : Q a c' := by
  induction p generalizing c with
  | done b =>
    obtain ⟨rfl, rfl⟩ := ha
    exact h
  | act g p ih =>
    obtain ⟨b, c₁, hg, ha⟩ := ha
    exact ih b (h b c₁ hg) (fun t c' ht => hassume t c' ⟨b, c₁, hg, ht⟩)
      (fun t c' ht => hcalls t c' ⟨b, c₁, hg, ht⟩) ha
  | solve rigid left right p ih =>
    obtain ⟨s, hs, ha⟩ := ha
    exact ih s (h s hs) (fun t c' ht => hassume t c' ⟨s, hs, ht⟩)
      (fun t c' ht => hcalls t c' ⟨s, hs, ht⟩) ha
  | call t p ih =>
    obtain ⟨b, c₁, hb, ha⟩ := ha
    obtain ⟨hpre, hrest⟩ := h (hassume t c (.inl ⟨rfl, rfl⟩))
    have hpost := hcalls t c (.inl ⟨rfl, rfl⟩) hpre b c₁ hb
    exact ih b (hrest b c₁ hb hpost) (fun t' c' ht => hassume t' c' (.inr ⟨b, c₁, hb, ht⟩))
      (fun t' c' ht => hcalls t' c' (.inr ⟨b, c₁, hb, ht⟩)) ha

theorem Plan.Meets.calls (h : p.Meets sig assume pre post Q c)
    (hassume : ∀ t c', p.Calls sig c t c' → assume t c')
    (hcalls : ∀ t c', p.Calls sig c t c' → pre t c' →
      ∀ b c₁, Checker.Returns sig t c' b c₁ → post t c' b c₁)
    (htask : p.Calls sig c task c') : pre task c' := by
  induction p generalizing c with
  | done => exact htask.elim
  | act g p ih =>
    obtain ⟨b, c₁, hg, htask⟩ := htask
    exact ih b (h b c₁ hg) (fun t c' ht => hassume t c' ⟨b, c₁, hg, ht⟩)
      (fun t c' ht => hcalls t c' ⟨b, c₁, hg, ht⟩) htask
  | solve rigid left right p ih =>
    obtain ⟨s, hs, htask⟩ := htask
    exact ih s (h s hs) (fun t c' ht => hassume t c' ⟨s, hs, ht⟩)
      (fun t c' ht => hcalls t c' ⟨s, hs, ht⟩) htask
  | call t p ih =>
    obtain ⟨hpre, hrest⟩ := h (hassume t c (.inl ⟨rfl, rfl⟩))
    obtain ⟨rfl, rfl⟩ | ⟨b, c₁, hb, htask⟩ := htask
    · exact hpre
    · have hpost := hcalls t c (.inl ⟨rfl, rfl⟩) hpre b c₁ hb
      exact ih b (hrest b c₁ hb hpost) (fun t' c' ht => hassume t' c' (.inr ⟨b, c₁, hb, ht⟩))
        (fun t' c' ht => hcalls t' c' (.inr ⟨b, c₁, hb, ht⟩)) htask

/-- What the plans establish, results have. -/
theorem Verified.returns (h : Verified sig assume pre post)
    (hassume : ∀ t c', Reaches sig task c t c' → assume t c') (hpre : pre task c)
    {a : task.Result} (ha : Returns sig task c a c') : post task c a c' := by
  induction hk : task.size using Nat.strongRecOn generalizing task c c' with
  | ind k ih =>
    subst hk
    refine (h task c (hassume task c (.refl task c)) hpre).returns
      (fun t c' ht => hassume t c' (.step ht (.refl t c'))) (fun t c' ht hpre b c₁ hb => ?_) ha.plan
    exact ih t.size ht.size_lt (fun t' c'' hreach => hassume t' c'' (.step ht hreach)) hpre hb rfl

/-- What the plans establish, every task that is reached can rely on. -/
theorem Verified.reaches (h : Verified sig assume pre post)
    (hassume : ∀ t c', Reaches sig task c t c' → assume t c') (hpre : pre task c)
    (hreach : Reaches sig task c task' c') : pre task' c' := by
  induction hreach with
  | refl => exact hpre
  | @step task t task' c c₁ c' hcall _ ih =>
    refine ih (fun t' c'' ht => hassume t' c'' (.step hcall ht)) ?_
    refine (h task c (hassume task c (.refl task c)) hpre).calls
      (fun t c' ht => hassume t c' (.step ht (.refl t c'))) (fun t c' ht hpre b c₁ hb => ?_) hcall
    exact h.returns (fun t' c'' hr => hassume t' c'' (.step ht hr)) hpre hb

end

/-! ## What is to be verified of each step -/

section

variable {sig : Signature} {assume : Task → Checker → Prop} {pre : Task → Checker → Prop}
  {post : (task : Task) → Checker → task.Result → Checker → Prop} {α : Type} {c : Checker}
  {Q : α → Checker → Prop}

theorem meets_fail : (fail : Plan α).Meets sig assume pre post Q c ↔ True :=
  iff_true_intro nofun

theorem meets_call {task : Task} {Q : task.Result → Checker → Prop} :
    task.call.Meets sig assume pre post Q c ↔ (assume task c → pre task c ∧
      ∀ a c', Returns sig task c a c' → post task c a c' → Q a c') := Iff.rfl

theorem meets_ofCheck {m : Check α} :
    (ofCheck m).Meets sig assume pre post Q c ↔
      ∀ a c', m.outcome? c = some (.ok a, c') → Q a c' := by
  have hsuccess (a : α) (c' : Checker) :
      (m.outcome? c).bind success = some (a, c') ↔ m.outcome? c = some (.ok a, c') := by
    cases m.outcome? c with
    | none => exact iff_of_false nofun nofun
    | some o =>
      obtain ⟨r, c₁⟩ := o
      cases r <;> simp [success]
  show (∀ a c', (m.outcome? c).bind success = some (a, c') → Q a c') ↔ _
  simp only [hsuccess]

theorem meets_ofCheck_of_eq {m : Check α} {a : α} {c' : Checker}
    (h : m.outcome? c = some (.ok a, c')) :
    (ofCheck m).Meets sig assume pre post Q c ↔ Q a c' := by
  rw [meets_ofCheck, h]
  constructor
  · exact fun hQ => hQ a c' rfl
  · rintro hQ _ _ ⟨⟩
    exact hQ

theorem meets_freshMeta {Q : Ty → Checker → Prop} :
    (ofCheck freshMeta).Meets sig assume pre post Q c ↔
      Q (.var (metaName c.nextMeta)) { c with nextMeta := c.nextMeta + 1 } :=
  meets_ofCheck_of_eq rfl

theorem meets_resolve {t : Ty} {Q : Ty → Checker → Prop} :
    (ofCheck (resolve t)).Meets sig assume pre post Q c ↔ Q (c.resolved t) c :=
  meets_ofCheck_of_eq rfl

theorem meets_get {Q : Checker → Checker → Prop} :
    (ofCheck get).Meets sig assume pre post Q c ↔ Q c c :=
  meets_ofCheck_of_eq rfl

theorem meets_set {c' : Checker} {Q : PUnit → Checker → Prop} :
    (ofCheck (set c')).Meets sig assume pre post Q c ↔ Q ⟨⟩ c' :=
  meets_ofCheck_of_eq rfl

theorem meets_setGlobal {name : String} {t : Ty} {Q : Unit → Checker → Prop} :
    (ofCheck (setGlobal name t)).Meets sig assume pre post Q c ↔
      Q () { c with globals := c.globals.insert name t } :=
  meets_ofCheck_of_eq rfl

theorem meets_globalType {name : String} {Q : Ty → Checker → Prop} :
    (ofCheck (globalType name)).Meets sig assume pre post Q c ↔
      ∀ t, c.globals.get? name = some t → Q (c.resolved t) c := by
  rw [meets_ofCheck, outcome?_globalType, globalType?]
  cases c.globals.get? name with
  | none => simp
  | some t => simp

theorem meets_constructorType {name : String} {Q : Ty → Checker → Prop} :
    (ofCheck (constructorType sig name)).Meets sig assume pre post Q c ↔
      ∀ t, sig.constructorTypes.get? name = some t → Q t c := by
  rw [meets_ofCheck, constructorType]
  cases sig.constructorTypes.get? name with
  | none => simp
  | some t => simp

theorem meets_primitiveType {name : String} {Q : Ty → Checker → Prop} :
    (ofCheck (primitiveType sig name)).Meets sig assume pre post Q c ↔
      ∀ t, sig.primitiveTypes.get? name = some t → Q t c := by
  rw [meets_ofCheck, primitiveType]
  cases sig.primitiveTypes.get? name with
  | none => simp
  | some t => simp

/-- The body of `t` with the metas from number `m` on for its outermost quantifiers, at most `n` of
them. -/
def instanceFrom (m : Nat) : Nat → Ty → Ty
  | n + 1, .all v body => instanceFrom (m + 1) n (body.substitute v (.var (metaName m)))
  | _, t => t

theorem length_splitAlls_substitute_var (t : Ty) (x y : String) :
    (t.substitute x (.var y)).splitAlls.1.length = t.splitAlls.1.length := by
  induction t using Ty.renameInduct generalizing x y with
  | var name =>
    rw [Ty.substitute_var]
    split <;> rfl
  | all v b ih =>
    rw [Ty.substitute_all]
    split
    next => rfl
    next =>
      split
      next =>
        dsimp only
        rw [Ty.splitAlls, Ty.splitAlls, List.length_cons, List.length_cons,
          ih _ (Ty.size_substitute_var ..), ih b rfl]
      next => rw [Ty.splitAlls, Ty.splitAlls, List.length_cons, List.length_cons, ih b rfl]
  | arrow p r => rw [Ty.substitute_arrow]; rfl
  | data name args => rw [Ty.substitute_data]; rfl
  | prim name => rw [Ty.substitute_prim]

theorem outcome?_instantiateWithin {n : Nat} {t : Ty} (h : n = t.splitAlls.1.length)
    (c : Checker) :
    (instantiateWithin n t).outcome? c =
      some (.ok (instanceFrom c.nextMeta n t), { c with nextMeta := c.nextMeta + n }) := by
  induction n generalizing t c with
  | zero =>
    rw [instantiateWithin.eq_def, instanceFrom.eq_def]
    rfl
  | succ n ih =>
    cases t with
    | all v body =>
      have hn : n = (body.substitute v (.var (metaName c.nextMeta))).splitAlls.1.length := by
        rw [length_splitAlls_substitute_var]
        exact Nat.succ.inj h
      rw [instantiateWithin, LimitedState.outcome?_bind, instanceFrom]
      have hrest := ih hn { c with nextMeta := c.nextMeta + 1 }
      rw [Nat.add_right_comm, Nat.add_assoc] at hrest
      exact hrest
    | _ => cases h

/-- The body of `t` with the metas from number `m` on for its outermost quantifiers. -/
def instantiated (m : Nat) (t : Ty) : Ty :=
  instanceFrom m t.splitAlls.1.length t

theorem meets_instantiate {t : Ty} {Q : Ty → Checker → Prop} :
    (ofCheck (instantiate t)).Meets sig assume pre post Q c ↔
      Q (instantiated c.nextMeta t) { c with nextMeta := c.nextMeta + t.splitAlls.1.length } :=
  meets_ofCheck_of_eq (outcome?_instantiateWithin rfl c)

/-! ### Steps that are made of others -/

/-- A function type is taken apart. Any other type has to become one with two new metas. -/
theorem meets_asArrow {ctx : Context} {t : Ty} {Q : Ty × Ty → Checker → Prop}
    (harrow : ∀ param result, t = .arrow param result → Q (param, result) c)
    (hother : (Task.unify ctx t
      (.arrow (.var (metaName c.nextMeta)) (.var (metaName (c.nextMeta + 1))))).call.Meets sig
        assume
        pre post (fun _ => Q (.var (metaName c.nextMeta), .var (metaName (c.nextMeta + 1))))
        { c with nextMeta := c.nextMeta + 2 }) :
    (asArrowPlan ctx t).Meets sig assume pre post Q c := by
  cases t with
  | arrow param result => exact harrow param result rfl
  | _ =>
    refine Plan.meets_bind.2 (meets_freshMeta.2 (Plan.meets_bind.2 (meets_freshMeta.2 ?_)))
    split
    next => exact Plan.meets_bind.2 hother
    next => exact meets_fail.2 trivial

/-- The type of a constructor is looked up and gets new metas for its parameters. -/
theorem meets_instance {name : String} {p : Ty → Plan α} :
    Plan.Meets sig assume pre post (do
      let t ← ofCheck (constructorType sig name)
      let t ← ofCheck (instantiate t)
      p t) Q c ↔
    ∀ t, sig.constructorTypes.get? name = some t →
      (p (instantiated c.nextMeta t)).Meets sig assume pre post Q
        { c with nextMeta := c.nextMeta + t.splitAlls.1.length } := by
  simp only [Plan.meets_bind, meets_constructorType, meets_instantiate]

/-- A constructor by itself keeps its quantifiers. -/
theorem meets_inferTypeFunction {ctx : Context} {t : Term} {Q : Ty → Checker → Prop}
    (hcon : ∀ name u, t = .con name [] → sig.constructorTypes.get? name = some u → Q u c)
    (hother : (Task.infer ctx t).call.Meets sig assume pre post Q c) :
    (inferTypeFunctionPlan sig ctx t).Meets sig assume pre post Q c := by
  cases t with
  | con name args =>
    cases args with
    | nil => exact meets_constructorType.2 fun u hu => hcon name u rfl hu
    | cons arg args => exact hother
  | _ => exact hother

/-- An abstraction is compared with an expected type of its form part by part. The type of any other
term is inferred first. -/
theorem meets_check {ctx : Context} {t : Term} {expected : Ty} {Q : Unit → Checker → Prop}
    (hlam : ∀ declared body param result, t = .lam (some declared) body →
      c.resolved expected = .arrow param result →
      (Task.unify ctx param declared).call.Meets sig assume pre post
        (fun _ =>
          (Task.check (ctx.extend declared) body result).call.Meets sig assume pre post Q) c)
    (hbare : ∀ body param result, t = .lam none body → c.resolved expected = .arrow param result →
      (Task.check (ctx.extend param) body result).call.Meets sig assume pre post Q c)
    (htlam : ∀ v body w result, t = .tlam v body → c.resolved expected = .all w result →
      (Task.check (ctx.extendType v) body (underBinder v w result)).call.Meets sig assume
      pre post Q c)
    (hother : (Task.infer ctx t).call.Meets sig assume pre post (fun actual =>
      (Task.unify ctx (c.resolved expected) actual).call.Meets sig assume pre post Q) c) :
    (checkPlan ctx t expected).Meets sig assume pre post Q c := by
  rw [checkPlan.eq_def, Plan.meets_bind, meets_resolve]
  rw [← Plan.meets_bind] at hother
  cases t with
  | lam type body =>
    cases he : c.resolved expected with
    | arrow param result =>
      cases type with
      | some declared => exact Plan.meets_bind.2 (hlam declared body param result rfl he)
      | none => exact hbare body param result rfl he
    | _ =>
      rw [he] at hother
      cases type <;> exact hother
  | tlam v body =>
    cases he : c.resolved expected with
    | all w result => exact htlam v body w result rfl he
    | _ =>
      rw [he] at hother
      exact hother
  | _ => exact hother

end

/-! ## What is known changes only by unification -/

section

variable {sig : Signature} {I : Substitution → Prop}

theorem Plan.Below.meets {assume : Task → Checker → Prop} {α : Type} {p : Plan α} {n : Nat}
    (hp : p.Below n) {c : Checker} (hc : I c.subst) :
    p.Meets sig assume (fun _ c => I c.subst) (fun _ _ _ c' => I c'.subst)
      (fun _ c' => I c'.subst) c := by
  induction p generalizing c with
  | done a => exact hc
  | act f k ih =>
    intro b c' hf
    refine ih b (hp.2 b) ?_
    rw [hp.1 c b c' hf]
    exact hc
  | solve => exact hp.elim
  | call task k ih => exact fun _ => ⟨hc, fun a c' _ hc' => ih a (hp.2 a) hc'⟩

section

variable {task task' : Task} {c c' : Checker}
  (hunify : ∀ ctx left right c₁ c₂, Reaches sig task c (.unify ctx left right) c₁ → I c₁.subst →
    Returns sig (.unify ctx left right) c₁ () c₂ → I c₂.subst)

include hunify

theorem verified_subst :
    Verified sig (Reaches sig task c) (fun _ c => I c.subst) fun _ _ _ c' => I c'.subst := by
  intro t c₁ hreach hc₁
  by_cases ht : t.IsUnify
  · obtain ⟨ctx, left, right, rfl⟩ := ht.eq
    rw [Task.plan, unifyPlan, Plan.meets_bind, meets_get]
    intro s hs
    refine meets_set.2 (hunify ctx left right c₁ _ hreach hc₁ ?_)
    exact returns_unify_iff.2 ⟨s, hs, rfl⟩
  · exact (t.below_plan sig ht).meets hc₁

/-- What is kept by all unifications that a task reaches holds throughout. -/
theorem Reaches.subst_induct (hc : I c.subst) (h : Reaches sig task c task' c') : I c'.subst :=
  (verified_subst hunify).reaches (fun _ _ => id) hc h

/-- And it holds in the end. -/
theorem Returns.subst_induct (hc : I c.subst) {a : task.Result} (h : Returns sig task c a c') :
    I c'.subst :=
  (verified_subst hunify).returns (fun _ _ => id) hc h

end

end

end PolyLambda.Checker
