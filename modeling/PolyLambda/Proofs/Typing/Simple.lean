import PolyLambda.Proofs.Typing.Regular

/-!
# Soundness of inference on simple types

Whatever substitution knows all that the checker has learned from a term, under it the term has the
type that was inferred, by the rules. The invariant is one of every task: what a task has found out
is put as a statement about the substitutions that know it (`Task.Types`), and it holds of all those
that the state in the end admits.
-/

namespace PolyLambda

namespace Checker

/-! ## States that are reached -/

/-- The states of a checker that is used on types without quantifiers from its beginning on. -/
inductive Reached (sig : Signature) : Checker → Prop where
  | start : Reached sig (.ofSignature sig)
  | freshMeta {c c' : Checker} {t : Ty} (h : Reached sig c)
    (hstep : Checker.freshMeta.outcome? c = some (.ok t, c')) : Reached sig c'
  | setGlobal {c c' : Checker} {name : String} {t : Ty} (h : Reached sig c)
    (ht : Usable c.nextMeta t)
    (hstep : (Checker.setGlobal name t).outcome? c = some (.ok (), c')) : Reached sig c'
  | unify {c c' : Checker} {ctx : Context} {left right : Ty} (h : Reached sig c)
    (hleft : Usable c.nextMeta left) (hright : Usable c.nextMeta right)
    (hstep : Returns sig (.unify ctx left right) c () c') : Reached sig c'

section

variable {sig : Signature} {c c' : Checker} {ctx : Context} {left right : Ty}

theorem Reached.addMetas (h : Reached sig c) (n : Nat) :
    Reached sig { c with nextMeta := c.nextMeta + n } := by
  induction n with
  | zero => exact h
  | succ n ih => exact ih.freshMeta rfl

theorem Reached.regular (hsig : sig.Simple) (h : Reached sig c) : c.Regular := by
  induction h with
  | start =>
    refine ⟨Substitution.finished_empty, Substitution.over_empty, fun name t ht => ?_⟩
    exact usable_of_closed (hsig.globalTypes name t ht) (hsig.closed.globalTypes name t ht)
  | freshMeta _ hstep ih =>
    cases hstep
    exact ih.addMetas (Nat.le_succ _)
  | setGlobal _ ht hstep ih =>
    cases hstep
    exact ih.setGlobal _ ht
  | unify _ hleft hright hstep ih =>
    obtain ⟨s, hs, rfl⟩ := returns_unify_iff.1 hstep
    exact ih.unify hleft hright hs

end

/-! ## What a task is called with, and what it gives -/

/-- Whether all types around a term are usable, and no type variable in scope is solved. -/
structure Surrounds (sig : Signature) (ctx : Context) (c : Checker) : Prop where
  reached : Reached sig c
  locals : ∀ u ∈ ctx.terms, Usable c.nextMeta u
  scope : ∀ v ∈ ctx.typeVars, v ∉ c.subst.names ∧ Present c.nextMeta v

/-- Whether a checker has gone on from `c` to `c'` where the type variables `vars` are in scope. -/
structure Advances (sig : Signature) (vars : List String) (c c' : Checker) : Prop where
  reached : Reached sig c'
  nextMeta : c.nextMeta ≤ c'.nextMeta
  globals : c'.globals = c.globals
  scope : ∀ v ∈ vars, v ∉ c'.subst.names
  admits : ∀ θ, Admits vars c' θ → Admits vars c θ

namespace Task

/-- The type variables in scope of a task. -/
def typeVars : Task → List String
  | infer ctx _ | inferTypeFunction ctx _ | check ctx _ _ | checkArgs ctx _ _ | inferArgs ctx _
  | inferBranches ctx _ _ _ | unify ctx _ _ => ctx.typeVars
  | checkDefinition _ | checkDefinitions _ _ => []

/-- Whether a task is about simple terms and usable types. -/
def Simple (sig : Signature) : Task → Checker → Prop
  | infer ctx t, c =>
    Surrounds sig ctx c ∧ t.isSimple = true ∧ ∀ v ∈ t.freeTypeVars, Present c.nextMeta v
  | check ctx t expected, c =>
    Surrounds sig ctx c ∧ t.isSimple = true ∧ (∀ v ∈ t.freeTypeVars, Present c.nextMeta v) ∧
      Usable c.nextMeta expected
  | checkArgs ctx args fields, c =>
    Surrounds sig ctx c ∧ Term.areSimple args = true ∧
      (∀ v ∈ Term.freeTypeVarsAll args, Present c.nextMeta v) ∧
      (∀ t ∈ fields, Usable c.nextMeta t) ∧ args.length ≤ fields.length
  | inferBranches ctx scrutinee previous branches, c =>
    Surrounds sig ctx c ∧ Term.branchesAreSimple branches = true ∧
      (∀ v ∈ Term.freeTypeVarsBranches branches, Present c.nextMeta v) ∧
      Usable c.nextMeta scrutinee ∧ ∀ t ∈ previous, Filled c t
  | unify ctx left right, c =>
    Surrounds sig ctx c ∧ Usable c.nextMeta left ∧ Usable c.nextMeta right
  | _, _ => False

/-- What a task finds out, as far as the substitution `θ` knows. -/
def Types (sig : Signature) (globals : Table Ty) (θ : Substitution) :
    (task : Task) → task.Result → Prop
  | infer ctx t, type => t.HasTypeUnder sig globals θ (ctx.terms.map θ.apply) type
  | check ctx t expected, _ =>
    t.HasTypeUnder sig globals θ (ctx.terms.map θ.apply) (θ.apply expected)
  | checkArgs ctx args fields, _ => ∃ given rest, fields = given ++ rest ∧
    Term.HaveTypesUnder sig globals θ (ctx.terms.map θ.apply) args (given.map θ.apply)
  | inferBranches ctx scrutinee previous branches, type =>
    (previous = none → branches ≠ []) ∧ (∀ t ∈ previous, θ.apply t = type) ∧
      Term.BranchesHaveTypeUnder sig globals θ (ctx.terms.map θ.apply) (θ.apply scrutinee) branches
        type
  | unify _ left right, _ => θ.apply left = θ.apply right
  | _, _ => True

/-- The result of a task under a substitution. -/
def under (θ : Substitution) : (task : Task) → task.Result → task.Result
  | infer _ _, t | inferTypeFunction _ _, t | inferBranches _ _ _ _, t | checkDefinition _, t =>
    θ.apply t
  | check _ _ _, u | checkArgs _ _ _, u | inferArgs _ _, u | unify _ _ _, u => u
  | checkDefinitions _ _, types => types.map θ.apply

/-- Whether all that is known is filled in the result of a task. -/
def IsFilled (c : Checker) : (task : Task) → task.Result → Prop
  | infer _ _, t | inferTypeFunction _ _, t | inferBranches _ _ _ _, t | checkDefinition _, t =>
    Filled c t
  | check _ _ _, _ | checkArgs _ _ _, _ | inferArgs _ _, _ | unify _ _ _, _ => True
  | checkDefinitions _ _, types => types.All (Filled c)

/-- Whether a task, called in the state `c`, has found out what it says. -/
def Finds (sig : Signature) (task : Task) (c : Checker) (a : task.Result) (c' : Checker) : Prop :=
  Advances sig task.typeVars c c' ∧ task.IsFilled c' a ∧
    ∀ θ, Admits task.typeVars c' θ → task.Types sig c.globals θ (task.under θ a)

end Task

/-- Whether what a plan finds out is right if that of the tasks it calls is. -/
abbrev IsSound (sig : Signature) {α : Type} (p : Plan α) (Q : α → Checker → Prop) (c : Checker) :
    Prop :=
  p.Meets sig (fun _ _ => True) (Task.Simple sig) (Task.Finds sig) Q c

section

variable {sig : Signature} {ctx : Context} {vars : List String} {c c₁ c' : Checker} {t : Ty}
  {θ : Substitution}

theorem Advances.trans (h : Advances sig vars c c₁) (h' : Advances sig vars c₁ c') :
    Advances sig vars c c' where
  reached := h'.reached
  nextMeta := Nat.le_trans h.nextMeta h'.nextMeta
  globals := h'.globals.trans h.globals
  scope := h'.scope
  admits θ hθ := h.admits θ (h'.admits θ hθ)

theorem Surrounds.advances (h : Surrounds sig ctx c) : Advances sig ctx.typeVars c c where
  reached := h.reached
  nextMeta := Nat.le_refl _
  globals := rfl
  scope v hv := (h.scope v hv).1
  admits _ := id

theorem Surrounds.addMetas (h : Surrounds sig ctx c) (n : Nat) :
    Advances sig ctx.typeVars c { c with nextMeta := c.nextMeta + n } where
  reached := h.reached.addMetas n
  nextMeta := Nat.le_add_right _ _
  globals := rfl
  scope v hv := (h.scope v hv).1
  admits _ hθ := ⟨hθ.fixes, hθ.absorbs⟩

/-- What is around a term is still so when something is learned. -/
theorem Surrounds.after (h : Surrounds sig ctx c) (hadv : Advances sig ctx.typeVars c c') :
    Surrounds sig ctx c' where
  reached := hadv.reached
  locals u hu := (h.locals u hu).mono hadv.nextMeta
  scope v hv := ⟨hadv.scope v hv, (h.scope v hv).2.mono hadv.nextMeta⟩

theorem Surrounds.extend (h : Surrounds sig ctx c) (ht : Usable c.nextMeta t) :
    Surrounds sig (ctx.extend t) c where
  reached := h.reached
  locals := List.forall_mem_cons.2 ⟨ht, h.locals⟩
  scope := h.scope

theorem Surrounds.extendAll (h : Surrounds sig ctx c) {ts : List Ty}
    (hts : ∀ t ∈ ts, Usable c.nextMeta t) : Surrounds sig (ctx.extendAll ts) c where
  reached := h.reached
  locals := List.forall_mem_append.2 ⟨hts, h.locals⟩
  scope := h.scope

theorem Advances.present (h : Advances sig vars c c') {names : List String}
    (hnames : ∀ v ∈ names, Present c.nextMeta v) : ∀ v ∈ names, Present c'.nextMeta v :=
  fun v hv => (hnames v hv).mono h.nextMeta

theorem Advances.usable (h : Advances sig vars c c') (ht : Usable c.nextMeta t) :
    Usable c'.nextMeta t :=
  ht.mono h.nextMeta

end

/-! ## Parts of simple terms -/

namespace Task.Simple

section

variable {sig : Signature} {ctx : Context} {c c' : Checker} {t fn arg value body scrutinee : Term}
  {type : Option Ty} {name : String} {args : List Term} {branches : List Branch} {expected u : Ty}

theorem surrounds (h : (infer ctx t).Simple sig c) : Surrounds sig ctx c :=
  h.1

/-- A simple term is one still when something is learned. -/
theorem after (h : (infer ctx t).Simple sig c) (hadv : Advances sig ctx.typeVars c c') :
    (infer ctx t).Simple sig c' :=
  ⟨h.1.after hadv, h.2.1, hadv.present h.2.2⟩

theorem check (h : (infer ctx t).Simple sig c) (hexpected : Usable c.nextMeta expected) :
    (check ctx t expected).Simple sig c :=
  ⟨h.1, h.2.1, h.2.2, hexpected⟩

theorem extend (h : (infer ctx t).Simple sig c) (hu : Usable c.nextMeta u) :
    (infer (ctx.extend u) t).Simple sig c :=
  ⟨h.1.extend hu, h.2⟩

theorem extendAll (h : (infer ctx t).Simple sig c) {us : List Ty}
    (hus : ∀ u ∈ us, Usable c.nextMeta u) :
    (infer (ctx.extendAll us) t).Simple sig c :=
  ⟨h.1.extendAll hus, h.2⟩

theorem lam (h : (infer ctx (.lam type body)).Simple sig c) :
    ∃ param, type = some param ∧ Usable c.nextMeta param ∧ (infer ctx body).Simple sig c := by
  obtain ⟨hc, hsimple, hvars⟩ := h
  cases type with
  | some param =>
    rw [Term.isSimple, Bool.and_eq_true] at hsimple
    rw [Term.freeTypeVars, List.forall_mem_append] at hvars
    have hparam := usable_of_quantifierFree (of_decide_eq_true hsimple.1) hvars.1
    exact ⟨param, rfl, hparam, hc, hsimple.2, hvars.2⟩
  | none => cases hsimple

theorem app (h : (infer ctx (.app fn arg)).Simple sig c) :
    (infer ctx fn).Simple sig c ∧ (infer ctx arg).Simple sig c := by
  obtain ⟨hc, hsimple, hvars⟩ := h
  rw [Term.isSimple, Bool.and_eq_true] at hsimple
  rw [Term.freeTypeVars, List.forall_mem_append] at hvars
  exact ⟨⟨hc, hsimple.1, hvars.1⟩, hc, hsimple.2, hvars.2⟩

theorem con (h : (infer ctx (.con name args)).Simple sig c) :
    Term.areSimple args = true ∧ ∀ v ∈ Term.freeTypeVarsAll args, Present c.nextMeta v := by
  obtain ⟨-, hsimple, hvars⟩ := h
  rw [Term.isSimple] at hsimple
  exact ⟨hsimple, hvars⟩

theorem case (h : (infer ctx (.case scrutinee branches)).Simple sig c) :
    (infer ctx scrutinee).Simple sig c ∧ Term.branchesAreSimple branches = true ∧
      ∀ v ∈ Term.freeTypeVarsBranches branches, Present c.nextMeta v := by
  obtain ⟨hc, hsimple, hvars⟩ := h
  rw [Term.isSimple, Bool.and_eq_true] at hsimple
  rw [Term.freeTypeVars, List.forall_mem_append] at hvars
  exact ⟨⟨hc, hsimple.1, hvars.1⟩, hsimple.2, hvars.2⟩

theorem letIn (h : (infer ctx (.letIn name value body)).Simple sig c) :
    (infer ctx value).Simple sig c ∧ (infer ctx body).Simple sig c := by
  obtain ⟨hc, hsimple, hvars⟩ := h
  rw [Term.isSimple, Bool.and_eq_true] at hsimple
  rw [Term.freeTypeVars, List.forall_mem_append] at hvars
  exact ⟨⟨hc, hsimple.1, hvars.1⟩, hc, hsimple.2, hvars.2⟩

end

end Task.Simple

/-! ## Every task finds out what it says -/

section

variable {sig : Signature} {ctx : Context} {c c' : Checker}

theorem isSound_call {task : Task} {Q : task.Result → Checker → Prop} (htask : task.Simple sig c)
    (hQ : ∀ a c', task.Finds sig c a c' → Q a c') : IsSound sig task.call Q c :=
  meets_call.2 fun _ => ⟨htask, fun a c' _ h => hQ a c' h⟩

theorem isSound_asArrow {t : Ty} {Q : Ty × Ty → Checker → Prop} (hc : Surrounds sig ctx c)
    (ht : Usable c.nextMeta t)
    (hQ : ∀ param result c', Advances sig ctx.typeVars c c' → Usable c'.nextMeta param →
      Usable c'.nextMeta result →
      (∀ θ, Admits ctx.typeVars c' θ → θ.apply t = .arrow (θ.apply param) (θ.apply result)) →
      Q (param, result) c') :
    IsSound sig (asArrowPlan ctx t) Q c := by
  have hmetas := hc.addMetas 2
  have hmeta (i : Nat) (hi : i < c.nextMeta + 2) : Usable (c.nextMeta + 2) (.var (metaName i)) :=
    Ty.over_var_iff.2 (present_metaName hi)
  have hparam := hmeta c.nextMeta (by omega)
  have hresult := hmeta (c.nextMeta + 1) (by omega)
  refine meets_asArrow ?_ (isSound_call ⟨hc.after hmetas, hmetas.usable ht,
    Ty.over_arrow_iff.2 ⟨hparam, hresult⟩⟩ ?_)
  · rintro param result rfl
    obtain ⟨hparam, hresult⟩ := Ty.over_arrow_iff.1 ht
    exact hQ param result c hc.advances hparam hresult fun θ _ => θ.apply_arrow param result
  · rintro _ c' ⟨h, _, hequal⟩
    refine hQ _ _ c' (hmetas.trans h) (h.usable hparam) (h.usable hresult) fun θ hθ => ?_
    rw [← Substitution.apply_arrow]
    exact hequal θ hθ

theorem isSound_instance (hsig : sig.Simple) (name : String) {α : Type} {p : Ty → Plan α}
    {Q : α → Checker → Prop} (hc : Surrounds sig ctx c)
    (hp : ∀ t c', Advances sig ctx.typeVars c c' → (∀ f ∈ t.splitArrows.1, Usable c'.nextMeta f) →
      Usable c'.nextMeta t.splitArrows.2 →
      (∀ θ : Substitution, sig.Constructs name (t.splitArrows.1.map θ.apply)
        (θ.apply t.splitArrows.2)) → IsSound sig (p t) Q c') :
    IsSound sig (do
      let t ← Plan.ofCheck (constructorType sig name)
      let t ← Plan.ofCheck (instantiate t)
      p t) Q c := by
  refine meets_instance.2 fun t ht => ?_
  have hprenex := hsig.constructorTypes name t ht
  obtain ⟨hfields, hresult⟩ := Ty.over_splitArrows
    (usable_instantiated hprenex (hsig.closed.constructorTypes name t ht) c.nextMeta)
  exact hp _ _ (hc.addMetas _) hfields hresult (constructs_instantiated ht hprenex c.nextMeta)

/-! ### One form of terms at a time -/

section

variable {fn arg body value scrutinee : Term} {type : Option Ty} {name : String} {args : List Term}
  {branches : List Branch}

theorem isSound_lam (hsig : sig.Simple) (h : (Task.infer ctx (.lam type body)).Simple sig c) :
    IsSound sig (inferPlan sig ctx (.lam type body))
      ((Task.infer ctx (.lam type body)).Finds sig c) c := by
  obtain ⟨param, rfl, hparam, hbody⟩ := h.lam
  rw [inferPlan, IsSound, Plan.meets_bind]
  refine isSound_call (hbody.extend hparam) ?_
  rintro result c₁ ⟨h₁, hresult, hbody⟩
  have harrow : Usable c₁.nextMeta (.arrow param result) :=
    Ty.over_arrow_iff.2 ⟨Advances.usable h₁ hparam, Filled.usable hresult⟩
  refine meets_resolve.2 ⟨h₁, (h₁.reached.regular hsig).filled harrow, fun θ hθ => ?_⟩
  rw [Task.Types, Term.HasTypeUnder]
  refine ⟨θ.apply result, ?_, hbody θ hθ⟩
  exact (hθ.apply_resolved harrow.quantifierFree).trans (θ.apply_arrow param result)

theorem isSound_app (hsig : sig.Simple) (h : (Task.infer ctx (.app fn arg)).Simple sig c) :
    IsSound sig (inferPlan sig ctx (.app fn arg))
    ((Task.infer ctx (.app fn arg)).Finds sig c) c := by
  obtain ⟨hfn, harg⟩ := h.app
  rw [inferPlan, IsSound, Plan.meets_bind]
  refine isSound_call hfn ?_
  rintro f c₁ ⟨h₁, hf, hfn⟩
  rw [Plan.meets_bind]
  refine isSound_asArrow (h.surrounds.after h₁) hf.usable
    fun param result c₂ h₂ hparam hresult harrow => ?_
  have h₁₂ : Advances sig ctx.typeVars c c₂ := Advances.trans h₁ h₂
  rw [Plan.meets_bind]
  refine isSound_call ((harg.after h₁₂).check hparam) ?_
  rintro _ c₃ ⟨h₃, _, harg⟩
  have hresult := Advances.usable h₃ hresult
  refine meets_resolve.2 ⟨h₁₂.trans h₃, (h₃.reached.regular hsig).filled hresult, fun θ hθ => ?_⟩
  -- What is known in the end was not known when the function was looked at, so each part is read at
  -- the state that it left behind.
  have hθ₂ := h₃.admits θ hθ
  have hfn := hfn θ (h₂.admits θ hθ₂)
  have harg := harg θ hθ
  rw [Task.Types, Task.under, harrow θ hθ₂] at hfn
  rw [Task.Types, h₁₂.globals] at harg
  rw [Task.Types, Term.HasTypeUnder, Task.under, hθ.apply_resolved hresult.quantifierFree]
  exact ⟨θ.apply param, hfn, harg⟩

theorem isSound_con (hsig : sig.Simple) (h : (Task.infer ctx (.con name args)).Simple sig c) :
    IsSound sig (inferPlan sig ctx (.con name args))
    ((Task.infer ctx (.con name args)).Finds sig c) c := by
  obtain ⟨hsimple, hvars⟩ := h.con
  refine isSound_instance hsig name h.surrounds fun t c₁ h₁ hfields hresult hcon => ?_
  split
  next => exact meets_fail.2 trivial
  next hlength =>
    rw [IsSound, Plan.meets_bind]
    refine isSound_call ⟨h.surrounds.after h₁, hsimple, h₁.present hvars, hfields,
      Nat.le_of_not_lt hlength⟩ ?_
    rintro _ c₂ ⟨h₂, _, hargs⟩
    have hrest : Usable c₂.nextMeta
        (Ty.arrows (t.splitArrows.1.drop args.length) t.splitArrows.2) :=
      Ty.over_arrows (fun p hp => Advances.usable h₂ (hfields p (List.mem_of_mem_drop hp)))
        (Advances.usable h₂ hresult)
    refine meets_resolve.2 ⟨h₁.trans h₂, (h₂.reached.regular hsig).filled hrest, fun θ hθ => ?_⟩
    obtain ⟨given, rest, hsplit, hargs⟩ := hargs θ hθ
    have hdrop : t.splitArrows.1.drop args.length = rest := by
      have hgiven := hargs.length_eq
      rw [List.length_map] at hgiven
      rw [hsplit, hgiven, List.drop_left]
    have hcon := hcon θ
    rw [hsplit, List.map_append] at hcon
    rw [Task.Types, Term.HasTypeUnder, Task.under, hθ.apply_resolved hrest.quantifierFree, hdrop,
      Ty.apply_arrows]
    rw [h₁.globals] at hargs
    exact ⟨given.map θ.apply, rest.map θ.apply, θ.apply t.splitArrows.2, hcon, hargs, rfl⟩

theorem isSound_case (h : (Task.infer ctx (.case scrutinee branches)).Simple sig c) :
    IsSound sig (inferPlan sig ctx (.case scrutinee branches))
      ((Task.infer ctx (.case scrutinee branches)).Finds sig c) c := by
  obtain ⟨hscrutinee, hsimple, hvars⟩ := h.case
  rw [inferPlan]
  split
  next => exact meets_fail.2 trivial
  next hempty =>
    rw [IsSound, Plan.meets_bind]
    refine isSound_call hscrutinee ?_
    rintro s c₁ ⟨h₁, hs, hscrutinee⟩
    refine isSound_call ⟨h.surrounds.after h₁, hsimple, Advances.present h₁ hvars, hs.usable,
      by simp⟩ ?_
    rintro type c₂ ⟨h₂, htype, hbranches⟩
    refine ⟨Advances.trans h₁ h₂, htype, fun θ hθ => ?_⟩
    obtain ⟨-, -, hbranches⟩ := hbranches θ hθ
    rw [h₁.globals] at hbranches
    rw [Task.Types, Term.HasTypeUnder]
    refine ⟨θ.apply s, ?_, hscrutinee θ (h₂.admits θ hθ), hbranches⟩
    rintro rfl
    exact hempty rfl

theorem isSound_letIn (h : (Task.infer ctx (.letIn name value body)).Simple sig c) :
    IsSound sig (inferPlan sig ctx (.letIn name value body))
      ((Task.infer ctx (.letIn name value body)).Finds sig c) c := by
  rw [inferPlan, IsSound, Plan.meets_bind]
  refine isSound_call h.letIn.1 ?_
  rintro t c₁ ⟨h₁, ht, hvalue⟩
  refine isSound_call ((h.letIn.2.after h₁).extend ht.usable) ?_
  rintro type c₂ ⟨h₂, htype, hbody⟩
  refine ⟨Advances.trans h₁ h₂, htype, fun θ hθ => ?_⟩
  have hbody := hbody θ hθ
  rw [h₁.globals] at hbody
  rw [Task.Types, Term.HasTypeUnder]
  exact ⟨θ.apply t, hvalue θ (h₂.admits θ hθ), hbody⟩

end

theorem isSound_infer (hsig : sig.Simple) (ctx : Context) (t : Term)
    (h : (Task.infer ctx t).Simple sig c) :
    IsSound sig (inferPlan sig ctx t) ((Task.infer ctx t).Finds sig c) c := by
  have hc := h.surrounds
  have hregular := hc.reached.regular hsig
  cases t with
  | var index =>
    rw [inferPlan]
    cases hindex : ctx.type? index with
    | some t =>
      have ht := hc.locals t (List.mem_of_getElem? hindex)
      refine meets_resolve.2 ⟨hc.advances, hregular.filled ht, fun θ hθ => ?_⟩
      rw [Task.Types, Term.HasTypeUnder, List.getElem?_map, show ctx.terms[index]? =
        some t from hindex]
      exact congrArg some (hθ.apply_resolved ht.quantifierFree).symm
    | none => exact meets_fail.2 trivial
  | global name =>
    refine meets_globalType.2 fun t hname => ?_
    have ht := hregular.globals name t hname
    refine ⟨hc.advances, hregular.filled ht, fun θ hθ => ?_⟩
    rw [Task.Types, Term.HasTypeUnder]
    exact ⟨t, hname, hθ.apply_resolved ht.quantifierFree⟩
  | lam type body => exact isSound_lam hsig h
  | app fn arg => exact isSound_app hsig h
  | con name args => exact isSound_con hsig h
  | case scrutinee branches => exact isSound_case h
  | letIn name value body => exact isSound_letIn h
  | int value =>
    refine ⟨hc.advances, filled_of_closed rfl rfl, fun θ _ => ?_⟩
    rw [Task.Types, Term.HasTypeUnder]
    exact θ.apply_prim "Int"
  | string text =>
    refine ⟨hc.advances, filled_of_closed rfl rfl, fun θ _ => ?_⟩
    rw [Task.Types, Term.HasTypeUnder]
    exact θ.apply_prim "String"
  | prim name =>
    refine meets_primitiveType.2 fun t ht => ?_
    have hclosed := hsig.closed.primitiveTypes name t ht
    refine ⟨hc.advances, filled_of_closed (hsig.primitiveTypes name t ht) hclosed, fun θ _ => ?_⟩
    rw [Task.Types, Term.HasTypeUnder, Task.under, Substitution.apply_eq_self
      (by rw [hclosed]; rintro _ ⟨⟩)]
    exact ht
  | tlam | tapp | tool => cases h.2.1

theorem isSound_check (hsig : sig.Simple) (ctx : Context) (t : Term) (expected : Ty)
    (h : (Task.check ctx t expected).Simple sig c) :
    IsSound sig (checkPlan ctx t expected) ((Task.check ctx t expected).Finds sig c) c := by
  obtain ⟨hc, hsimple, hvars, hexpected⟩ := h
  have hfilled := (hc.reached.regular hsig).filled hexpected
  have hresolved {θ : Substitution} (hθ : Admits ctx.typeVars c θ) :
      θ.apply (c.resolved expected) = θ.apply expected :=
    hθ.apply_resolved hexpected.quantifierFree
  refine meets_check ?lam ?bare ?tlam ?other
  case lam =>
    rintro declared body param result rfl he
    rw [he] at hfilled hresolved
    obtain ⟨_, ⟨⟩, hdeclared, hbody⟩ := Task.Simple.lam ⟨hc, hsimple, hvars⟩
    obtain ⟨hparam, hresult⟩ := Ty.over_arrow_iff.1 hfilled.usable
    refine isSound_call ⟨hc, hparam, hdeclared⟩ ?_
    rintro _ c₁ ⟨h₁, _, hequal⟩
    refine isSound_call (((hbody.extend hdeclared).after h₁).check (Advances.usable h₁ hresult)) ?_
    rintro _ c₂ ⟨h₂, _, hbody⟩
    refine ⟨Advances.trans h₁ h₂, trivial, fun θ hθ => ?_⟩
    have hθ₁ := h₂.admits θ hθ
    have hequal : θ.apply param = θ.apply declared := hequal θ hθ₁
    have hbody := hbody θ hθ
    rw [Task.Types, h₁.globals] at hbody
    rw [Task.Types, Term.HasTypeUnder, ← hresolved (h₁.admits θ hθ₁),
      Substitution.apply_arrow, hequal]
    exact ⟨θ.apply result, rfl, hbody⟩
  case bare =>
    rintro body param result rfl
    cases hsimple
  case tlam =>
    rintro v body w result rfl
    cases hsimple
  case other =>
    refine isSound_call ⟨hc, hsimple, hvars⟩ ?_
    rintro actual c₁ ⟨h₁, hactual, htype⟩
    refine isSound_call ⟨hc.after h₁, Advances.usable h₁ hfilled.usable, hactual.usable⟩ ?_
    rintro _ c₂ ⟨h₂, _, hequal⟩
    refine ⟨Advances.trans h₁ h₂, trivial, fun θ hθ => ?_⟩
    have hθ₁ := h₂.admits θ hθ
    have hequal := hequal θ hθ
    rw [Task.Types, hresolved (h₁.admits θ hθ₁)] at hequal
    rw [Task.Types, hequal]
    exact htype θ hθ₁

theorem isSound_checkArgs (ctx : Context) (args : List Term) (fields : List Ty)
    (h : (Task.checkArgs ctx args fields).Simple sig c) :
    IsSound sig (checkArgsPlan ctx args fields)
    ((Task.checkArgs ctx args fields).Finds sig c) c := by
  obtain ⟨hc, hsimple, hvars, hfields, hlength⟩ := h
  cases args with
  | nil =>
    refine ⟨hc.advances, trivial, fun θ _ => ⟨[], fields, rfl, ?_⟩⟩
    rw [Term.HaveTypesUnder]
    rfl
  | cons arg args =>
    cases fields with
    | nil => cases hlength
    | cons field fields =>
      rw [Term.areSimple, Bool.and_eq_true] at hsimple
      rw [Term.freeTypeVarsAll, List.forall_mem_append] at hvars
      rw [List.forall_mem_cons] at hfields
      rw [checkArgsPlan, IsSound, Plan.meets_bind]
      refine isSound_call ⟨hc, hsimple.1, hvars.1, hfields.1⟩ ?_
      rintro _ c₁ ⟨h₁, _, harg⟩
      refine isSound_call ⟨hc.after h₁, hsimple.2, Advances.present h₁ hvars.2,
        fun t ht => Advances.usable h₁ (hfields.2 t ht), Nat.le_of_succ_le_succ hlength⟩ ?_
      rintro _ c₂ ⟨h₂, _, hfound⟩
      refine ⟨Advances.trans h₁ h₂, trivial, fun θ hθ => ?_⟩
      obtain ⟨given, rest, rfl, hargs⟩ := hfound θ hθ
      rw [h₁.globals] at hargs
      refine ⟨field :: given, rest, rfl, ?_⟩
      rw [List.map_cons, Term.HaveTypesUnder]
      exact ⟨_, _, rfl, harg θ (h₂.admits θ hθ), hargs⟩

theorem isSound_enterBranch (hsig : sig.Simple) (ctx : Context) {scrutinee : Ty}
    (constructor : String) (vars : List String) {Q : Context → Checker → Prop}
    (hc : Surrounds sig ctx c) (hscrutinee : Usable c.nextMeta scrutinee)
    (hQ : ∀ ts c', Advances sig ctx.typeVars c c' → (∀ t ∈ ts, Usable c'.nextMeta t) →
      ts.length = vars.length →
      (∀ θ, Admits ctx.typeVars c' θ →
        sig.Constructs constructor (ts.map θ.apply) (θ.apply scrutinee)) →
      Q (ctx.extendAll ts) c') :
    IsSound sig (enterBranchPlan sig ctx scrutinee constructor vars) Q c := by
  refine isSound_instance hsig constructor hc fun t c₁ h₁ hfields hresult hcon => ?_
  split
  next => exact meets_fail.2 trivial
  next hlength =>
    rw [IsSound, Plan.meets_bind]
    refine isSound_call ⟨hc.after h₁, hresult, h₁.usable hscrutinee⟩ ?_
    rintro _ c₂ ⟨h₂, _, hequal⟩
    rw [Plan.meets_bind, meets_get]
    have hregular := h₂.reached.regular hsig
    have hfields (f : Ty) (hf : f ∈ t.splitArrows.1) : Usable c₂.nextMeta f :=
      Advances.usable h₂ (hfields f hf)
    refine hQ _ c₂ (h₁.trans h₂) (fun u hu => ?_) ?_ fun θ hθ => ?_
    · obtain ⟨f, hf, rfl⟩ := List.mem_map.1 hu
      exact (hregular.filled (hfields f hf)).usable
    · rw [List.length_map]
      exact Decidable.not_not.1 hlength
    · have hmap : (t.splitArrows.1.map c₂.resolved).map θ.apply = t.splitArrows.1.map θ.apply := by
        rw [List.map_map]
        exact List.map_congr_left fun f hf => hθ.apply_resolved (hfields f hf).quantifierFree
      have hequal : θ.apply t.splitArrows.2 = θ.apply scrutinee := hequal θ hθ
      rw [hmap, ← hequal]
      exact hcon θ

theorem isSound_joinBranch (hsig : sig.Simple) (ctx : Context) {previous : Option Ty} {t : Ty}
    {Q : Ty → Checker → Prop} (hc : Surrounds sig ctx c)
    (hprevious : ∀ p ∈ previous, Usable c.nextMeta p) (ht : Filled c t)
    (hQ : ∀ joined c', Advances sig ctx.typeVars c c' → Filled c' joined →
      (∀ θ, Admits ctx.typeVars c' θ →
        θ.apply t = θ.apply joined ∧ ∀ p ∈ previous, θ.apply p = θ.apply joined) →
      Q joined c') :
    IsSound sig (joinBranchPlan ctx previous t) Q c := by
  cases previous with
  | none => exact hQ t c hc.advances ht fun θ _ => ⟨rfl, by simp⟩
  | some p =>
    have hp := hprevious p rfl
    rw [joinBranchPlan, IsSound, Plan.meets_bind]
    refine isSound_call ⟨hc, hp, ht.usable⟩ ?_
    rintro _ c₁ ⟨h₁, _, hequal⟩
    have hp := Advances.usable h₁ hp
    refine meets_resolve.2 (hQ _ c₁ h₁ ((h₁.reached.regular hsig).filled hp) fun θ hθ => ?_)
    have hequal : θ.apply p = θ.apply t := hequal θ hθ
    rw [hθ.apply_resolved hp.quantifierFree]
    refine ⟨hequal.symm, ?_⟩
    rintro _ ⟨⟩
    rfl

theorem isSound_inferBranches (hsig : sig.Simple) (ctx : Context) (scrutinee : Ty)
    (previous : Option Ty) (branches : List Branch)
    (h : (Task.inferBranches ctx scrutinee previous branches).Simple sig c) :
    IsSound sig (inferBranchesPlan sig ctx scrutinee previous branches)
      ((Task.inferBranches ctx scrutinee previous branches).Finds sig c) c := by
  obtain ⟨hc, hsimple, hvars, hscrutinee, hprevious⟩ := h
  cases branches with
  | nil =>
    cases previous with
    | some t =>
      refine ⟨hc.advances, hprevious t rfl, fun θ _ => ⟨nofun, ?_, ?_⟩⟩
      · rintro _ ⟨⟩
        rfl
      · rw [Term.BranchesHaveTypeUnder]
        trivial
    | none => exact meets_fail.2 trivial
  | cons branch branches =>
    obtain ⟨constructor, vars, body⟩ := branch
    rw [Term.branchesAreSimple, Bool.and_eq_true] at hsimple
    rw [Term.freeTypeVarsBranches, List.forall_mem_append] at hvars
    rw [inferBranchesPlan, IsSound, Plan.meets_bind]
    refine isSound_enterBranch hsig ctx constructor vars hc hscrutinee
      fun ts c₁ h₁ hts hlength hcon => ?_
    rw [Plan.meets_bind]
    refine isSound_call ⟨(hc.after h₁).extendAll hts, hsimple.1, h₁.present hvars.1⟩ ?_
    rintro t c₂ ⟨h₂, ht, hbody⟩
    have h₁₂ : Advances sig ctx.typeVars c c₂ := h₁.trans h₂
    rw [Plan.meets_bind]
    refine isSound_joinBranch hsig ctx (hc.after h₁₂)
      (fun p hp => h₁₂.usable (hprevious p hp).usable) ht fun joined c₃ h₃ hjoined hequal => ?_
    have h₁₃ := h₁₂.trans h₃
    refine isSound_call ⟨hc.after h₁₃, hsimple.2, h₁₃.present hvars.2, h₁₃.usable hscrutinee, ?_⟩ ?_
    · rintro _ ⟨⟩
      exact hjoined
    · rintro type c₄ ⟨h₄, htype, hrest⟩
      refine ⟨h₁₃.trans h₄, htype, fun θ hθ => ?_⟩
      have hθ₃ := h₄.admits θ hθ
      have hθ₂ := h₃.admits θ hθ₃
      obtain ⟨ht, hprevious⟩ := hequal θ hθ₃
      obtain ⟨-, hjoined, hrest⟩ := hrest θ hθ
      have hjoined : θ.apply joined = θ.apply type := hjoined joined rfl
      have hbody := hbody θ hθ₂
      rw [Task.Types, Task.under, ht, hjoined, h₁.globals] at hbody
      rw [h₁₃.globals] at hrest
      refine ⟨fun _ => List.cons_ne_nil _ _, fun p hp => (hprevious p hp).trans hjoined, ?_⟩
      rw [Term.BranchesHaveTypeUnder]
      refine ⟨⟨ts.map θ.apply, hcon θ (h₂.admits θ hθ₂), by
        rw [List.length_map, hlength], ?_⟩, hrest⟩
      rwa [Context.extendAll, List.map_append] at hbody

theorem isSound_unify (hsig : sig.Simple) (ctx : Context) (left right : Ty)
    (h : (Task.unify ctx left right).Simple sig c) :
    IsSound sig (unifyPlan ctx left right) ((Task.unify ctx left right).Finds sig c) c := by
  obtain ⟨hc, hleft, hright⟩ := h
  have hregular := hc.reached.regular hsig
  rw [unifyPlan, IsSound, Plan.meets_bind, meets_get]
  intro s hs
  have hadmits {θ : Substitution} :=
    (admits_unify_iff (θ := θ) hregular hleft hright hs).1
  refine meets_set.2 ⟨?_, trivial, fun θ hθ => (hadmits hθ).2⟩
  constructor
  case reached => exact hc.reached.unify hleft hright (returns_unify_iff.2 ⟨s, hs, rfl⟩)
  case nextMeta => exact Nat.le_refl _
  case globals => rfl
  case scope =>
    intro v hv hname
    rcases Substitution.mem_names_compose.1 hname with hname | hname
    · exact (hc.scope v hv).1 hname
    · exact Context.hasTypeVar_eq_false_iff.1 (hs.mem_names hname).1 hv
  case admits => exact fun θ hθ => (hadmits hθ).1

/-- Every task on simple types finds out what it says. -/
theorem verified_simple (hsig : sig.Simple) :
    Verified sig (fun _ _ => True) (Task.Simple sig) (Task.Finds sig) := by
  intro task c _ h
  cases task with
  | infer ctx t => exact isSound_infer hsig ctx t h
  | inferTypeFunction ctx t => exact h.elim
  | check ctx t expected => exact isSound_check hsig ctx t expected h
  | checkArgs ctx args fields => exact isSound_checkArgs ctx args fields h
  | inferArgs ctx args => exact h.elim
  | inferBranches ctx scrutinee previous branches =>
    exact isSound_inferBranches hsig ctx scrutinee previous branches h
  | unify ctx left right => exact isSound_unify hsig ctx left right h
  | checkDefinition d => exact h.elim
  | checkDefinitions types ds => exact h.elim

/-- What a task returns has been found out. -/
theorem Returns.finds (hsig : sig.Simple) {task : Task} {a : task.Result}
    (h : Returns sig task c a c') (htask : task.Simple sig c) : task.Finds sig c a c' :=
  (verified_simple hsig).returns (fun _ _ _ => trivial) htask h

/-- Every task on simple types comes to an end. -/
theorem halts_of_simple (hsig : sig.Simple) {task : Task} (htask : task.Simple sig c) :
    Halts sig task c := by
  rw [halts_iff]
  intro ctx left right c' hreach
  obtain ⟨hc, hleft, hright⟩ :=
    (verified_simple hsig).reaches (fun _ _ _ => trivial) htask hreach
  have hregular := hc.reached.regular hsig
  exact Ty.exists_settles_of_quantifierFree (hregular.filled hleft).usable.quantifierFree
    (hregular.filled hright).usable.quantifierFree

end

end Checker

end PolyLambda
