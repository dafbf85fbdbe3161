import PolyLambda.Proofs.Typing.Simple

/-!
# Completeness of inference on simple types

If a substitution that knows what the checker knows gives a term a type by the rules, then inference
succeeds on the term. The substitution is carried along: where metas are handed out it gets the
values for them that the rules ask for, and since it solves every equation that comes up, it still
knows all that is learned. In the end it makes of the inferred type the one that it was to give.
-/

namespace PolyLambda

namespace Checker

/-! ## Plans that succeed -/

section

variable {sig : Signature} {α β : Type} {p : Plan α} {c c' : Checker}

theorem Plan.returns_bind {f : α → Plan β} {b : β} :
    (p >>= f).Returns sig c b c' ↔
      ∃ a c₁, p.Returns sig c a c₁ ∧ (f a).Returns sig c₁ b c' := by
  show (p.bind f).Returns sig c b c' ↔ _
  induction p generalizing c with
  | done a =>
    constructor
    · exact fun h => ⟨a, c, ⟨rfl, rfl⟩, h⟩
    · rintro ⟨_, _, ⟨rfl, rfl⟩, h⟩
      exact h
  | act g k ih =>
    simp only [Plan.bind, Plan.Returns, ih]
    grind
  | solve rigid left right k ih =>
    simp only [Plan.bind, Plan.Returns, ih]
    grind
  | call task k ih =>
    simp only [Plan.bind, Plan.Returns, ih]
    grind

/-- Whether a plan, followed from the state `c`, succeeds and ends as `Q` says. -/
def Plan.Succeeds (sig : Signature) (p : Plan α) (Q : α → Checker → Prop) (c : Checker) : Prop :=
  ∃ a c', p.Returns sig c a c' ∧ Q a c'

theorem Plan.succeeds_bind {f : α → Plan β} {Q : β → Checker → Prop} :
    (p >>= f).Succeeds sig Q c ↔ p.Succeeds sig (fun a c' => (f a).Succeeds sig Q c') c := by
  simp only [Plan.Succeeds, Plan.returns_bind]
  grind

theorem succeeds_pure {a : α} {Q : α → Checker → Prop} (h : Q a c) :
    (pure a : Plan α).Succeeds sig Q c :=
  ⟨a, c, ⟨rfl, rfl⟩, h⟩

theorem succeeds_ofCheck {m : Check α} {a : α} {Q : α → Checker → Prop}
    (hm : m.outcome? c = some (.ok a, c')) (h : Q a c') : (Plan.ofCheck m).Succeeds sig Q c := by
  refine ⟨a, c', ⟨a, c', ?_, rfl, rfl⟩, h⟩
  show (m.outcome? c).bind success = _
  rw [hm]
  rfl

theorem succeeds_resolve {t : Ty} {Q : Ty → Checker → Prop} (h : Q (c.resolved t) c) :
    (Plan.ofCheck (resolve t)).Succeeds sig Q c :=
  succeeds_ofCheck rfl h

end

/-! ## Carrying a substitution along -/

/-- Whether a checker has gone on from `c` to `c'`, and the substitution `θ'`, which knows what `c'`
knows, is `θ` with values for the metas handed out in between. -/
structure Carries (sig : Signature) (vars : List String) (c : Checker) (θ : Substitution)
    (c' : Checker) (θ' : Substitution) : Prop extends Advances sig vars c c' where
  agree : Agree c.nextMeta c'.nextMeta θ θ'
  knows : Admits vars c' θ'

/-- Whether a task succeeds wherever some substitution has what it is to find out, and finds out no
less than that. -/
def Task.Completes (sig : Signature) (task : Task) : Prop :=
  ∀ c θ u, task.Simple sig c → Admits task.typeVars c θ → task.Types sig c.globals θ u →
    ∃ a c' θ', Returns sig task c a c' ∧ Carries sig task.typeVars c θ c' θ' ∧ task.under θ' a = u

section

variable {sig : Signature} {ctx : Context} {vars : List String} {c c₁ c' : Checker}
  {θ θ₁ θ' : Substitution} {t : Ty}

theorem Carries.trans (h : Carries sig vars c θ c₁ θ₁) (h' : Carries sig vars c₁ θ₁ c' θ') :
    Carries sig vars c θ c' θ' where
  toAdvances := h.toAdvances.trans h'.toAdvances
  agree := h.agree.trans h'.agree h.nextMeta h'.nextMeta
  knows := h'.knows

theorem Surrounds.carries (hc : Surrounds sig ctx c) (hθ : Admits ctx.typeVars c θ) :
    Carries sig ctx.typeVars c θ c θ :=
  ⟨hc.advances, agree_refl _ _ _, hθ⟩

theorem Carries.apply_eq (h : Carries sig vars c θ c' θ') (ht : Usable c.nextMeta t) :
    θ'.apply t = θ.apply t :=
  ht.apply_eq h.agree

theorem Carries.map_apply_eq (h : Carries sig vars c θ c' θ') {ts : List Ty}
    (hts : ∀ t ∈ ts, Usable c.nextMeta t) : ts.map θ'.apply = ts.map θ.apply :=
  Usable.map_apply_eq hts h.agree

theorem Carries.apply_resolved (h : Carries sig vars c θ c' θ') (ht : Usable c.nextMeta t) :
    θ'.apply (c'.resolved t) = θ.apply t :=
  (h.knows.apply_resolved ht.quantifierFree).trans (h.apply_eq ht)

theorem Carries.globals_apply_eq (h : Carries sig vars c θ c' θ') (hc : c.Regular) :
    c.globals.All fun t => θ.apply t = θ'.apply t :=
  fun name t ht => (h.apply_eq (hc.globals name t ht)).symm

theorem Carries.vars_apply_eq (h : Carries sig vars c θ c' θ') {names : List String}
    (hnames : ∀ v ∈ names, Present c.nextMeta v) :
    ∀ v ∈ names, θ.apply (.var v) = θ'.apply (.var v) :=
  fun v hv => ((hnames v hv).apply_eq h.agree).symm

theorem Carries.hasTypeUnder (h : Carries sig vars c θ c' θ') (hc : c.Regular) {t : Term}
    (hsimple : t.isSimple = true) (hvars : ∀ v ∈ t.freeTypeVars, Present c.nextMeta v)
    {locals : List Ty} {type : Ty} (ht : t.HasTypeUnder sig c.globals θ locals type) :
    t.HasTypeUnder sig c'.globals θ' locals type := by
  rw [h.globals]
  exact ht.congr (h.globals_apply_eq hc) t hsimple (h.vars_apply_eq hvars)

theorem Carries.haveTypesUnder (h : Carries sig vars c θ c' θ') (hc : c.Regular) {args : List Term}
    (hsimple : Term.areSimple args = true)
    (hvars : ∀ v ∈ Term.freeTypeVarsAll args, Present c.nextMeta v) {locals types : List Ty}
    (hargs : Term.HaveTypesUnder sig c.globals θ locals args types) :
    Term.HaveTypesUnder sig c'.globals θ' locals args types := by
  rw [h.globals]
  exact hargs.congr (h.globals_apply_eq hc) args hsimple (h.vars_apply_eq hvars)

theorem Carries.branchesHaveTypeUnder (h : Carries sig vars c θ c' θ') (hc : c.Regular)
    {branches : List Branch} (hsimple : Term.branchesAreSimple branches = true)
    (hvars : ∀ v ∈ Term.freeTypeVarsBranches branches, Present c.nextMeta v) {locals : List Ty}
    {scrutinee type : Ty}
    (hbranches : Term.BranchesHaveTypeUnder sig c.globals θ locals scrutinee branches type) :
    Term.BranchesHaveTypeUnder sig c'.globals θ' locals scrutinee branches type := by
  rw [h.globals]
  exact hbranches.congr (h.globals_apply_eq hc) branches hsimple (h.vars_apply_eq hvars)

/-! ## Steps of a plan -/

theorem succeeds_call (hsig : sig.Simple) {task : Task} {u : task.Result}
    {Q : task.Result → Checker → Prop} (hcompletes : task.Completes sig) (htask : task.Simple sig c)
    (hθ : Admits task.typeVars c θ) (htypes : task.Types sig c.globals θ u)
    (hQ : ∀ a c' θ', Carries sig task.typeVars c θ c' θ' → task.IsFilled c' a →
      task.under θ' a = u → Q a c') : task.call.Succeeds sig Q c := by
  obtain ⟨a, c', θ', hreturns, hcarries, ha⟩ := hcompletes c θ u htask hθ htypes
  exact ⟨a, c', ⟨a, c', hreturns, rfl, rfl⟩,
    hQ a c' θ' hcarries (hreturns.finds hsig htask).2.1 ha⟩

/-- More metas, with values for them. -/
theorem Surrounds.carries_addMetas (hsig : sig.Simple) (hc : Surrounds sig ctx c)
    (hθ : Admits ctx.typeVars c θ) {n : Nat} (hagree : Agree c.nextMeta (c.nextMeta + n) θ θ') :
    Carries sig ctx.typeVars c θ { c with nextMeta := c.nextMeta + n } θ' where
  toAdvances := hc.addMetas n
  agree := hagree
  knows := by
    have hadmits := hθ.agree (hc.reached.regular hsig) (fun v hv => (hc.scope v hv).2) hagree
    exact ⟨hadmits.fixes, hadmits.absorbs⟩

/-- A new meta may get any value. -/
theorem succeeds_freshMeta (hsig : sig.Simple) (hc : Surrounds sig ctx c)
    (hθ : Admits ctx.typeVars c θ) (u : Ty) {Q : Ty → Checker → Prop}
    (hQ : ∀ t c' θ', Carries sig ctx.typeVars c θ c' θ' → Usable c'.nextMeta t → θ'.apply t = u →
      Q t c') :
    (Plan.ofCheck freshMeta).Succeeds sig Q c := by
  refine succeeds_ofCheck rfl (hQ _ _ _ (hc.carries_addMetas hsig hθ (agree_assign _ θ u)) ?_ ?_)
  · exact Ty.over_var_iff.2 (present_metaName (Nat.lt_succ_self _))
  · exact θ.apply_assign_self _ u

theorem completes_unify (hsig : sig.Simple) (ctx : Context) (left right : Ty) :
    (Task.unify ctx left right).Completes sig := by
  rintro c θ ⟨⟩ ⟨hc, hleft, hright⟩ hθ heq
  have hregular := hc.reached.regular hsig
  obtain ⟨s, hs⟩ := Admits.exists_settles hregular hleft hright hθ heq
  have hreturns : Returns sig (.unify ctx left right) c () { c with subst := s.compose c.subst } :=
    returns_unify_iff.2 ⟨s, hs, rfl⟩
  obtain ⟨hadv, -, -⟩ := hreturns.finds hsig ⟨hc, hleft, hright⟩
  refine ⟨(), _, θ, hreturns, ⟨hadv, agree_refl _ _ _, ?_⟩, rfl⟩
  exact (admits_unify_iff hregular hleft hright hs).2 ⟨hθ, heq⟩

section

variable {Q : Unit → Checker → Prop} {locals : List Ty}

theorem succeeds_infer_call (hsig : sig.Simple) {t : Term} {u : Ty} {Q : Ty → Checker → Prop}
    (hcompletes : (Task.infer ctx t).Completes sig) (h : (Task.infer ctx t).Simple sig c)
    (hθ : Admits ctx.typeVars c θ) (hlocals : ctx.terms.map θ.apply = locals)
    (htype : t.HasTypeUnder sig c.globals θ locals u)
    (hQ : ∀ a c' θ', Carries sig ctx.typeVars c θ c' θ' → Filled c' a → θ'.apply a = u → Q a c') :
    (Task.infer ctx t).call.Succeeds sig Q c := by
  subst hlocals
  exact succeeds_call hsig hcompletes h hθ htype hQ

theorem succeeds_check_call (hsig : sig.Simple) {t : Term} {expected : Ty}
    (hcompletes : (Task.check ctx t expected).Completes sig)
    (h : (Task.check ctx t expected).Simple sig c) (hθ : Admits ctx.typeVars c θ)
    (hlocals : ctx.terms.map θ.apply = locals)
    (htype : t.HasTypeUnder sig c.globals θ locals (θ.apply expected))
    (hQ : ∀ c' θ', Carries sig ctx.typeVars c θ c' θ' → Q () c') :
    (Task.check ctx t expected).call.Succeeds sig Q c := by
  subst hlocals
  exact succeeds_call hsig hcompletes h hθ (u := ()) htype fun _ c' θ' h' _ _ => hQ c' θ' h'

theorem succeeds_unify_call (hsig : sig.Simple) {left right : Ty}
    (h : (Task.unify ctx left right).Simple sig c) (hθ : Admits ctx.typeVars c θ)
    (heq : θ.apply left = θ.apply right)
    (hQ : ∀ c' θ', Carries sig ctx.typeVars c θ c' θ' → Q () c') :
    (Task.unify ctx left right).call.Succeeds sig Q c :=
  succeeds_call hsig (completes_unify hsig ctx left right) h hθ (u := ()) heq
    fun _ c' θ' h' _ _ => hQ c' θ' h'

end

theorem succeeds_asArrow (hsig : sig.Simple) {t param result : Ty} {Q : Ty × Ty → Checker → Prop}
    (hc : Surrounds sig ctx c) (ht : Usable c.nextMeta t) (hθ : Admits ctx.typeVars c θ)
    (heq : θ.apply t = .arrow param result)
    (hQ : ∀ p r c' θ', Carries sig ctx.typeVars c θ c' θ' → Usable c'.nextMeta p →
      Usable c'.nextMeta r → θ'.apply p = param → θ'.apply r = result → Q (p, r) c') :
    (asArrowPlan ctx t).Succeeds sig Q c := by
  cases t with
  | arrow p r =>
    obtain ⟨hp, hr⟩ := Ty.over_arrow_iff.1 ht
    rw [Substitution.apply_arrow] at heq
    cases heq
    exact succeeds_pure (hQ p r c θ (hc.carries hθ) hp hr rfl rfl)
  | var v =>
    have hflexible : (Ty.flexible? ctx.hasTypeVar (.var v)).isSome = true := by
      rw [Ty.flexible?]
      split
      next hrigid =>
        rw [hθ.respects v hrigid] at heq
        cases heq
      next => rfl
    rw [asArrowPlan, Plan.succeeds_bind]
    · refine succeeds_freshMeta hsig hc hθ param fun p c₁ θ₁ h₁ hp hpval => ?_
      rw [Plan.succeeds_bind]
      refine succeeds_freshMeta hsig (hc.after h₁.toAdvances) h₁.knows result
        fun r c₂ θ₂ h₂ hr hrval => ?_
      have h₁₂ := h₁.trans h₂
      have hpval : θ₂.apply p = param := (h₂.apply_eq hp).trans hpval
      have hp := h₂.usable hp
      rw [if_pos hflexible, Plan.succeeds_bind]
      refine succeeds_unify_call hsig
        ⟨hc.after h₁₂.toAdvances, h₁₂.usable ht, Ty.over_arrow_iff.2 ⟨hp, hr⟩⟩ h₁₂.knows ?_
        fun c₃ θ₃ h₃ => ?_
      · rw [h₁₂.apply_eq ht, heq, Substitution.apply_arrow, hpval, hrval]
      · exact succeeds_pure (hQ p r c₃ θ₃ (h₁₂.trans h₃) (h₃.usable hp) (h₃.usable hr)
          ((h₃.apply_eq hp).trans hpval) ((h₃.apply_eq hr).trans hrval))
    · rintro _ _ ⟨⟩
  | all v b => exact absurd ht.quantifierFree Ty.not_quantifierFree_all
  | data name args =>
    rw [Substitution.apply_data] at heq
    cases heq
  | prim name =>
    rw [Substitution.apply_prim] at heq
    cases heq

theorem succeeds_instance (hsig : sig.Simple) {name : String} {fields : List Ty} {result : Ty}
    (hcon : sig.Constructs name fields result) {α : Type} {p : Ty → Plan α}
    {Q : α → Checker → Prop} (hc : Surrounds sig ctx c) (hθ : Admits ctx.typeVars c θ)
    (hp : ∀ t c' θ', Carries sig ctx.typeVars c θ c' θ' →
      (∀ f ∈ t.splitArrows.1, Usable c'.nextMeta f) → Usable c'.nextMeta t.splitArrows.2 →
      t.splitArrows.1.map θ'.apply = fields → θ'.apply t.splitArrows.2 = result →
      (p t).Succeeds sig Q c') :
    Plan.Succeeds sig (do
      let t ← Plan.ofCheck (constructorType sig name)
      let t ← Plan.ofCheck (instantiate t)
      p t) Q c := by
  obtain ⟨t, σ, hname, -⟩ := id hcon
  have hprenex := hsig.constructorTypes name t hname
  have hclosed := hsig.closed.constructorTypes name t hname
  have htype : (constructorType sig name).outcome? c = some (.ok t, c) := by
    rw [constructorType, hname]
    rfl
  rw [Plan.succeeds_bind]
  refine succeeds_ofCheck htype ?_
  rw [Plan.succeeds_bind]
  refine succeeds_ofCheck (outcome?_instantiateWithin rfl c) ?_
  obtain ⟨θ', hagree, hfields, hresult⟩ :=
    exists_agree_of_constructs hcon hname hprenex hclosed c.nextMeta θ
  obtain ⟨hfieldsUsable, hresultUsable⟩ :=
    Ty.over_splitArrows (usable_instantiated hprenex hclosed c.nextMeta)
  exact hp _ _ θ' (hc.carries_addMetas hsig hθ hagree) hfieldsUsable hresultUsable hfields hresult

theorem succeeds_enterBranch (hsig : sig.Simple) {constructor : String} {vars : List String}
    {scrutinee : Ty} {fields : List Ty}
    (hcon : sig.Constructs constructor fields (θ.apply scrutinee))
    (hlength : fields.length = vars.length) {Q : Context → Checker → Prop}
    (hc : Surrounds sig ctx c) (hscrutinee : Usable c.nextMeta scrutinee)
    (hθ : Admits ctx.typeVars c θ)
    (hQ : ∀ ts c' θ', Carries sig ctx.typeVars c θ c' θ' → (∀ t ∈ ts, Usable c'.nextMeta t) →
      ts.map θ'.apply = fields → Q (ctx.extendAll ts) c') :
    (enterBranchPlan sig ctx scrutinee constructor vars).Succeeds sig Q c := by
  refine succeeds_instance hsig hcon hc hθ fun t c₁ θ₁ h₁ hfields hresult hfieldVals hresultVal =>
    ?_
  have hcount : t.splitArrows.1.length = vars.length := by
    rw [← hlength, ← hfieldVals, List.length_map]
  rw [if_neg (not_not_intro hcount), Plan.succeeds_bind]
  refine succeeds_unify_call hsig
    ⟨hc.after h₁.toAdvances, hresult, h₁.usable hscrutinee⟩ h₁.knows ?_
    fun c₂ θ₂ h₂ => ?_
  · rw [hresultVal, h₁.apply_eq hscrutinee]
  · rw [Plan.succeeds_bind]
    refine succeeds_ofCheck rfl (succeeds_pure (hQ _ c₂ θ₂ (h₁.trans h₂) (fun u hu => ?_) ?_))
    · obtain ⟨f, hf, rfl⟩ := List.mem_map.1 hu
      exact ((h₂.reached.regular hsig).filled (h₂.usable (hfields f hf))).usable
    · rw [List.map_map, ← hfieldVals]
      exact List.map_congr_left fun f hf => h₂.apply_resolved (hfields f hf)

theorem succeeds_joinBranch (hsig : sig.Simple) {previous : Option Ty} {t u : Ty}
    {Q : Ty → Checker → Prop} (hc : Surrounds sig ctx c) (hθ : Admits ctx.typeVars c θ)
    (hprevious : ∀ p ∈ previous, Usable c.nextMeta p ∧ θ.apply p = u) (ht : Filled c t)
    (htval : θ.apply t = u)
    (hQ : ∀ joined c' θ', Carries sig ctx.typeVars c θ c' θ' → Filled c' joined →
      θ'.apply joined = u → Q joined c') :
    (joinBranchPlan ctx previous t).Succeeds sig Q c := by
  cases previous with
  | none => exact succeeds_pure (hQ t c θ (hc.carries hθ) ht htval)
  | some p =>
    obtain ⟨hp, hpval⟩ := hprevious p rfl
    rw [joinBranchPlan, Plan.succeeds_bind]
    refine succeeds_unify_call hsig ⟨hc, hp, ht.usable⟩ hθ (hpval.trans htval.symm)
      fun c₁ θ₁ h₁ => succeeds_resolve ?_
    exact hQ _ c₁ θ₁ h₁ ((h₁.reached.regular hsig).filled (h₁.usable hp))
      ((h₁.apply_resolved hp).trans hpval)

end

/-! ## Every task succeeds where it can -/

section

variable {sig : Signature} {c : Checker} {θ : Substitution}

/-- Whether a task has gone on to a result of which `θ`, with values for new metas, makes `u`. -/
def Task.Achieves (sig : Signature) (task : Task) (c : Checker) (θ : Substitution)
    (u a : task.Result) (c' : Checker) : Prop :=
  ∃ θ', Carries sig task.typeVars c θ c' θ' ∧ task.under θ' a = u

/-- Whether a task that is not an equation completes if all smaller ones do: the tasks that its plan
calls are smaller than itself. -/
def Task.PlanCompletes (sig : Signature) (task : Task) : Prop :=
  (∀ task' : Task, task'.size < task.size → task'.Completes sig) →
    ∀ c θ u, task.Simple sig c → Admits task.typeVars c θ → task.Types sig c.globals θ u →
      (task.plan sig).Succeeds sig (task.Achieves sig c θ u) c

/-! ### One form of terms at a time -/

section

variable {ctx : Context} {fn arg body value scrutinee : Term} {type : Option Ty} {name : String}
  {args : List Term} {branches : List Branch}

theorem planCompletes_lam (hsig : sig.Simple) :
    (Task.infer ctx (.lam type body)).PlanCompletes sig := by
  intro hsmaller c θ u h hθ htype
  obtain ⟨param, rfl, hparam, hbody⟩ := h.lam
  rw [Task.Types, Term.HasTypeUnder] at htype
  obtain ⟨result, rfl, hresult⟩ := htype
  have hsize : (Task.infer (ctx.extend param) body).size <
      (Task.infer ctx (.lam (some param) body)).size := by
    simp only [Task.size, Term.size]
    omega
  rw [Task.plan, inferPlan, Plan.succeeds_bind]
  refine succeeds_infer_call hsig (hsmaller _ hsize) (hbody.extend hparam) hθ rfl hresult
    fun r c₁ θ₁ h₁ hr hrval => succeeds_resolve ⟨θ₁, h₁, ?_⟩
  have harrow : Usable c₁.nextMeta (.arrow param r) :=
    Ty.over_arrow_iff.2 ⟨Advances.usable h₁.toAdvances hparam, hr.usable⟩
  rw [Task.under, h₁.knows.apply_resolved harrow.quantifierFree, Substitution.apply_arrow,
    h₁.apply_eq hparam, hrval]

theorem planCompletes_app (hsig : sig.Simple) :
    (Task.infer ctx (.app fn arg)).PlanCompletes sig := by
  intro hsmaller c θ u h hθ htype
  obtain ⟨hfn, harg⟩ := h.app
  rw [Task.Types, Term.HasTypeUnder] at htype
  obtain ⟨param, hfnType, hargType⟩ := htype
  have hsize (p : Ty) : (Task.infer ctx fn).size < (Task.infer ctx (.app fn arg)).size ∧
      (Task.check ctx arg p).size < (Task.infer ctx (.app fn arg)).size := by
    simp only [Task.size, Term.size]
    omega
  rw [Task.plan, inferPlan, Plan.succeeds_bind]
  refine succeeds_infer_call hsig (hsmaller _ (hsize u).1) hfn hθ rfl hfnType
    fun f c₁ θ₁ h₁ hf hfval => ?_
  rw [Plan.succeeds_bind]
  refine succeeds_asArrow hsig (h.surrounds.after h₁.toAdvances) hf.usable h₁.knows hfval
    fun p r c₂ θ₂ h₂ hp hr hpval hrval => ?_
  have h₁₂ := h₁.trans h₂
  rw [Plan.succeeds_bind]
  refine succeeds_check_call hsig (hsmaller _ (hsize p).2) ((harg.after h₁₂.toAdvances).check hp)
    h₁₂.knows (h₁₂.map_apply_eq h.surrounds.locals) ?_
    fun c₃ θ₃ h₃ => succeeds_resolve ⟨θ₃, h₁₂.trans h₃, (h₃.apply_resolved hr).trans hrval⟩
  rw [hpval]
  exact h₁₂.hasTypeUnder (h.surrounds.reached.regular hsig) harg.2.1 harg.2.2 hargType

theorem planCompletes_con (hsig : sig.Simple) :
    (Task.infer ctx (.con name args)).PlanCompletes sig := by
  intro hsmaller c θ u h hθ htype
  obtain ⟨hsimple, hvars⟩ := h.con
  have hc := h.surrounds
  rw [Task.Types, Term.HasTypeUnder] at htype
  obtain ⟨given, rest, result, hcon, hargs, rfl⟩ := htype
  have hsize (fields : List Ty) :
      (Task.checkArgs ctx args fields).size < (Task.infer ctx (.con name args)).size := by
    simp only [Task.size, Term.size]
    omega
  refine succeeds_instance hsig hcon hc hθ
    fun t c₁ θ₁ h₁ hfields hresult hfieldVals hresultVal => ?_
  -- The arguments are as many as the rules give types to, so those fields are left over that the
  -- rules leave over.
  obtain ⟨gs, rs, hsplit, hgs, hrs⟩ := List.map_eq_append_iff.1 hfieldVals
  have hlength : args.length = gs.length := by
    rw [hargs.length_eq, ← hgs, List.length_map]
  have hcount : ¬ t.splitArrows.1.length < args.length := by
    rw [hsplit, List.length_append, hlength]
    omega
  have hrestUsable : ∀ f ∈ rs, Usable c₁.nextMeta f := by
    rw [hsplit, List.forall_mem_append] at hfields
    exact hfields.2
  have hdrop : t.splitArrows.1.drop args.length = rs := by
    rw [hsplit, hlength, List.drop_left]
  rw [if_neg hcount, Plan.succeeds_bind]
  refine succeeds_call hsig (hsmaller _ (hsize _)) (u := ())
    ⟨hc.after h₁.toAdvances, hsimple, h₁.present hvars, hfields, Nat.le_of_not_lt hcount⟩
    h₁.knows ⟨gs, rs, hsplit, ?_⟩
    fun _ c₂ θ₂ h₂ _ _ => succeeds_resolve ⟨θ₂, h₁.trans h₂, ?_⟩
  · rw [hgs, h₁.map_apply_eq hc.locals]
    exact h₁.haveTypesUnder (hc.reached.regular hsig) hsimple hvars hargs
  · rw [Task.under, hdrop, h₂.apply_resolved (Ty.over_arrows hrestUsable hresult), Ty.apply_arrows,
      hrs, hresultVal]

theorem planCompletes_case (hsig : sig.Simple) :
    (Task.infer ctx (.case scrutinee branches)).PlanCompletes sig := by
  intro hsmaller c θ (u : Ty) h hθ htype
  obtain ⟨hscrutinee, hsimple, hvars⟩ := h.case
  rw [Task.Types, Term.HasTypeUnder] at htype
  obtain ⟨s, hne, hscrutineeType, hbranchesType⟩ := htype
  have hempty : ¬ branches.isEmpty = true := by
    rwa [List.isEmpty_iff]
  have hsize (a : Ty) :
      (Task.infer ctx scrutinee).size < (Task.infer ctx (.case scrutinee branches)).size ∧
      (Task.inferBranches ctx a none branches).size <
        (Task.infer ctx (.case scrutinee branches)).size := by
    simp only [Task.size, Term.size]
    omega
  rw [Task.plan, inferPlan, if_neg hempty, Plan.succeeds_bind]
  refine succeeds_infer_call hsig (hsmaller _ (hsize u).1) hscrutinee hθ rfl hscrutineeType
    fun a c₁ θ₁ h₁ ha haval => ?_
  have hbranches : (Task.inferBranches ctx a none branches).Types sig c₁.globals θ₁ u := by
    refine ⟨fun _ => hne, by simp, ?_⟩
    rw [haval, h₁.map_apply_eq h.surrounds.locals]
    exact h₁.branchesHaveTypeUnder (h.surrounds.reached.regular hsig) hsimple hvars hbranchesType
  exact succeeds_call hsig (hsmaller _ (hsize a).2)
    ⟨h.surrounds.after h₁.toAdvances, hsimple, h₁.present hvars, ha.usable, by simp⟩ h₁.knows
    hbranches fun b c₂ θ₂ h₂ _ hbval => ⟨θ₂, h₁.trans h₂, hbval⟩

theorem planCompletes_letIn (hsig : sig.Simple) :
    (Task.infer ctx (.letIn name value body)).PlanCompletes sig := by
  intro hsmaller c θ u h hθ htype
  obtain ⟨hvalue, hbody⟩ := h.letIn
  rw [Task.Types, Term.HasTypeUnder] at htype
  obtain ⟨t, hvalueType, hbodyType⟩ := htype
  have hsize (a : Ty) :
      (Task.infer ctx value).size < (Task.infer ctx (.letIn name value body)).size ∧
      (Task.infer (ctx.extend a) body).size <
        (Task.infer ctx (.letIn name value body)).size := by
    simp only [Task.size, Term.size]
    omega
  rw [Task.plan, inferPlan, Plan.succeeds_bind]
  refine succeeds_infer_call hsig (hsmaller _ (hsize u).1) hvalue hθ rfl hvalueType
    fun a c₁ θ₁ h₁ ha haval => ?_
  have hextend : (ctx.extend a).terms.map θ₁.apply = t :: ctx.terms.map θ.apply := by
    rw [Context.extend, List.map_cons, haval, h₁.map_apply_eq h.surrounds.locals]
  exact succeeds_infer_call hsig (hsmaller _ (hsize a).2)
    ((hbody.after h₁.toAdvances).extend ha.usable) h₁.knows hextend
    (h₁.hasTypeUnder (h.surrounds.reached.regular hsig) hbody.2.1 hbody.2.2 hbodyType)
    fun b c₂ θ₂ h₂ _ hbval => ⟨θ₂, h₁.trans h₂, hbval⟩

end

theorem planCompletes_infer (hsig : sig.Simple) (ctx : Context) (t : Term) :
    (Task.infer ctx t).PlanCompletes sig := by
  cases t with
  | var index =>
    intro _ c θ u h hθ htype
    have hrefl := h.surrounds.carries hθ
    rw [Task.Types, Term.HasTypeUnder, List.getElem?_map, Option.map_eq_some_iff] at htype
    obtain ⟨t, hindex, rfl⟩ := htype
    have ht := h.surrounds.locals t (List.mem_of_getElem? hindex)
    rw [Task.plan, inferPlan, show ctx.type? index = some t from hindex]
    exact succeeds_resolve ⟨θ, hrefl, hrefl.apply_resolved ht⟩
  | global name =>
    intro _ c θ u h hθ htype
    have hrefl := h.surrounds.carries hθ
    rw [Task.Types, Term.HasTypeUnder] at htype
    obtain ⟨t, hname, rfl⟩ := htype
    have hglobal : (globalType name).outcome? c = some (.ok (c.resolved t), c) := by
      rw [outcome?_globalType, globalType?, hname]
      rfl
    have ht := (h.surrounds.reached.regular hsig).globals name t hname
    exact succeeds_ofCheck hglobal ⟨θ, hrefl, hrefl.apply_resolved ht⟩
  | lam type body => exact planCompletes_lam hsig
  | app fn arg => exact planCompletes_app hsig
  | con name args => exact planCompletes_con hsig
  | case scrutinee branches => exact planCompletes_case hsig
  | letIn name value body => exact planCompletes_letIn hsig
  | int value =>
    intro _ c θ u h hθ htype
    rw [Task.Types, Term.HasTypeUnder] at htype
    exact succeeds_pure ⟨θ, h.surrounds.carries hθ, (θ.apply_prim "Int").trans htype.symm⟩
  | string text =>
    intro _ c θ u h hθ htype
    rw [Task.Types, Term.HasTypeUnder] at htype
    exact succeeds_pure ⟨θ, h.surrounds.carries hθ, (θ.apply_prim "String").trans htype.symm⟩
  | prim name =>
    intro _ c θ u h hθ htype
    rw [Task.Types, Term.HasTypeUnder] at htype
    have hprimitive : (primitiveType sig name).outcome? c = some (.ok u, c) := by
      rw [primitiveType, htype]
      rfl
    refine succeeds_ofCheck hprimitive
      ⟨θ, h.surrounds.carries hθ, Substitution.apply_eq_self ?_⟩
    rw [hsig.closed.primitiveTypes name u htype]
    exact List.forall_mem_nil _
  | tlam | tapp | tool => exact fun _ c θ u h => absurd h.2.1 Bool.false_ne_true

theorem planCompletes_check (hsig : sig.Simple) (ctx : Context) (t : Term) (expected : Ty) :
    (Task.check ctx t expected).PlanCompletes sig := by
  rintro hsmaller c θ ⟨⟩ ⟨hc, hsimple, hvars, hexpected⟩ hθ htype
  have hregular := hc.reached.regular hsig
  have hfilled := hregular.filled hexpected
  rw [Task.Types, ← hθ.apply_resolved hexpected.quantifierFree] at htype
  rw [Task.plan, checkPlan.eq_def, Plan.succeeds_bind]
  refine succeeds_resolve ?_
  -- Unless a function meets an arrow, the type that is found is compared with the expected one.
  have hother : Plan.Succeeds sig (do
      let actual ← (Task.infer ctx t).call
      (Task.unify ctx (c.resolved expected) actual).call)
      ((Task.check ctx t expected).Achieves sig c θ ()) c := by
    rw [Plan.succeeds_bind]
    refine succeeds_infer_call hsig (hsmaller _ (Nat.lt_succ_self _)) ⟨hc, hsimple, hvars⟩ hθ rfl
      htype fun a c₁ θ₁ h₁ ha haval => ?_
    refine succeeds_unify_call hsig
      ⟨hc.after h₁.toAdvances, h₁.usable hfilled.usable, ha.usable⟩ h₁.knows ?_
      fun c₂ θ₂ h₂ => ⟨θ₂, h₁.trans h₂, rfl⟩
    rw [h₁.apply_eq hfilled.usable, haval]
  cases t with
  | lam type body =>
    obtain ⟨declared, rfl, hdeclared, hbody⟩ := Task.Simple.lam ⟨hc, hsimple, hvars⟩
    cases he : c.resolved expected with
    | arrow param result =>
      rw [he] at hfilled htype
      rw [Term.HasTypeUnder, Substitution.apply_arrow] at htype
      obtain ⟨type, heq, hbodyType⟩ := htype
      obtain ⟨hparamVal, rfl⟩ := Ty.arrow.inj heq
      obtain ⟨hparam, hresult⟩ := Ty.over_arrow_iff.1 hfilled.usable
      have hsize : (Task.check (ctx.extend declared) body result).size <
          (Task.check ctx (.lam (some declared) body) expected).size := by
        simp only [Task.size, Term.size]
        omega
      dsimp only
      rw [Plan.succeeds_bind]
      refine succeeds_unify_call hsig ⟨hc, hparam, hdeclared⟩ hθ hparamVal fun c₁ θ₁ h₁ => ?_
      have hextend : (ctx.extend declared).terms.map θ₁.apply =
          θ.apply declared :: ctx.terms.map θ.apply := by
        rw [Context.extend, List.map_cons, h₁.apply_eq hdeclared, h₁.map_apply_eq hc.locals]
      refine succeeds_check_call hsig (hsmaller _ hsize)
        (((hbody.extend hdeclared).after h₁.toAdvances).check (h₁.usable hresult))
        h₁.knows hextend ?_
        fun c₂ θ₂ h₂ => ⟨θ₂, h₁.trans h₂, rfl⟩
      rw [h₁.apply_eq hresult]
      exact h₁.hasTypeUnder hregular hbody.2.1 hbody.2.2 hbodyType
    | _ =>
      rw [he] at hother
      exact hother
  | tlam v body => cases hsimple
  | _ => exact hother

theorem planCompletes_checkArgs (hsig : sig.Simple) (ctx : Context) (args : List Term)
    (fields : List Ty) : (Task.checkArgs ctx args fields).PlanCompletes sig := by
  rintro hsmaller c θ ⟨⟩ ⟨hc, hsimple, hvars, hfields, hlength⟩ hθ htypes
  cases args with
  | nil => exact succeeds_pure ⟨θ, hc.carries hθ, rfl⟩
  | cons arg args =>
    obtain ⟨given, rest, rfl, hargs⟩ := htypes
    rw [Term.HaveTypesUnder] at hargs
    obtain ⟨u, us, hgiven, harg, hrest⟩ := hargs
    obtain ⟨field, given, rfl, rfl, rfl⟩ := List.map_eq_cons_iff.1 hgiven
    rw [Term.areSimple, Bool.and_eq_true] at hsimple
    rw [Term.freeTypeVarsAll, List.forall_mem_append] at hvars
    rw [List.cons_append, List.forall_mem_cons] at hfields
    have hsize : (Task.check ctx arg field).size <
          (Task.checkArgs ctx (arg :: args) (field :: given ++ rest)).size ∧
        (Task.checkArgs ctx args (given ++ rest)).size <
          (Task.checkArgs ctx (arg :: args) (field :: given ++ rest)).size := by
      simp only [Task.size, Term.sizeArgs]
      omega
    rw [Task.plan, List.cons_append, checkArgsPlan, Plan.succeeds_bind]
    refine succeeds_check_call hsig (hsmaller _ hsize.1)
      ⟨hc, hsimple.1, hvars.1, hfields.1⟩ hθ rfl harg
      fun c₁ θ₁ h₁ => ?_
    refine succeeds_call hsig (hsmaller _ hsize.2) (u := ()) ⟨hc.after h₁.toAdvances, hsimple.2,
      h₁.present hvars.2, fun t ht => h₁.usable (hfields.2 t ht), Nat.le_of_succ_le_succ hlength⟩
      h₁.knows ⟨given, rest, rfl, ?_⟩ fun _ c₂ θ₂ h₂ _ _ => ⟨θ₂, h₁.trans h₂, rfl⟩
    rw [h₁.map_apply_eq hc.locals,
      h₁.map_apply_eq fun t ht => hfields.2 t (List.mem_append_left rest ht)]
    exact h₁.haveTypesUnder (hc.reached.regular hsig) hsimple.2 hvars.2 hrest

theorem planCompletes_inferBranches (hsig : sig.Simple) (ctx : Context) (scrutinee : Ty)
    (previous : Option Ty) (branches : List Branch) :
    (Task.inferBranches ctx scrutinee previous branches).PlanCompletes sig := by
  rintro hsmaller c θ (u : Ty) ⟨hc, hsimple, hvars, hscrutinee, hprevious⟩ hθ
    ⟨hne, hpreviousVal, htypes⟩
  have hregular := hc.reached.regular hsig
  cases branches with
  | nil =>
    cases previous with
    | some t => exact succeeds_pure ⟨θ, hc.carries hθ, hpreviousVal t rfl⟩
    | none => exact absurd rfl (hne rfl)
  | cons branch branches =>
    obtain ⟨constructor, vars, body⟩ := branch
    rw [Term.branchesAreSimple, Bool.and_eq_true] at hsimple
    rw [Term.freeTypeVarsBranches, List.forall_mem_append] at hvars
    rw [Term.BranchesHaveTypeUnder] at htypes
    obtain ⟨⟨fields, hcon, hlength, hbody⟩, hrest⟩ := htypes
    have hsize (inner : Context) (joined : Ty) : (Task.infer inner body).size <
          (Task.inferBranches ctx scrutinee previous (.mk constructor vars body :: branches)).size ∧
        (Task.inferBranches ctx scrutinee (some joined) branches).size <
          (Task.inferBranches ctx scrutinee previous
            (.mk constructor vars body :: branches)).size := by
      simp only [Task.size, Term.sizeBranches]
      omega
    rw [Task.plan, inferBranchesPlan, Plan.succeeds_bind]
    refine succeeds_enterBranch hsig hcon hlength hc hscrutinee hθ fun ts c₁ θ₁ h₁ hts htsVal => ?_
    have hinner : (ctx.extendAll ts).terms.map θ₁.apply = fields ++ ctx.terms.map θ.apply := by
      rw [Context.extendAll, List.map_append, htsVal, h₁.map_apply_eq hc.locals]
    rw [Plan.succeeds_bind]
    refine succeeds_infer_call hsig (hsmaller _ (hsize _ u).1)
      ⟨(hc.after h₁.toAdvances).extendAll hts, hsimple.1, h₁.present hvars.1⟩ h₁.knows hinner
      (h₁.hasTypeUnder hregular hsimple.1 hvars.1 hbody) fun t c₂ θ₂ h₂ ht htval => ?_
    have h₁₂ : Carries sig ctx.typeVars c θ c₂ θ₂ := h₁.trans h₂
    rw [Plan.succeeds_bind]
    refine succeeds_joinBranch hsig (hc.after h₁₂.toAdvances) h₁₂.knows
      (fun p hp => ⟨h₁₂.usable (hprevious p hp).usable,
        (h₁₂.apply_eq (hprevious p hp).usable).trans (hpreviousVal p hp)⟩) ht htval
      fun joined c₃ θ₃ h₃ hjoined hjoinedVal => ?_
    have h₁₃ := h₁₂.trans h₃
    refine succeeds_call hsig (hsmaller _ (hsize ctx joined).2) (u := u)
      ⟨hc.after h₁₃.toAdvances, hsimple.2, h₁₃.present hvars.2, h₁₃.usable hscrutinee, ?_⟩ h₁₃.knows
      ⟨by simp, ?_, ?_⟩ ?_
    · rintro _ ⟨⟩
      exact hjoined
    · rintro _ ⟨⟩
      exact hjoinedVal
    · rw [h₁₃.map_apply_eq hc.locals, h₁₃.apply_eq hscrutinee]
      exact h₁₃.branchesHaveTypeUnder hregular hsimple.2 hvars.2 hrest
    · exact fun t c₄ θ₄ h₄ _ htval => ⟨θ₄, h₁₃.trans h₄, htval⟩

/-- Inference is complete, and what it finds is most general: every task succeeds wherever some
substitution has what it is to find out. -/
theorem completes (hsig : sig.Simple) (task : Task) : task.Completes sig := by
  induction hn : task.size using Nat.strongRecOn generalizing task with
  | ind n ih =>
    subst hn
    intro c θ u htask hθ htypes
    have hsmaller (task' : Task) (hlt : task'.size < task.size) : task'.Completes sig :=
      ih task'.size hlt task' rfl
    by_cases hunify : task.IsUnify
    · obtain ⟨ctx, left, right, rfl⟩ := hunify.eq
      exact completes_unify hsig ctx left right c θ u htask hθ htypes
    · have hplan : task.PlanCompletes sig := by
        cases task with
        | infer ctx t => exact planCompletes_infer hsig ctx t
        | check ctx t expected => exact planCompletes_check hsig ctx t expected
        | checkArgs ctx args fields => exact planCompletes_checkArgs hsig ctx args fields
        | inferBranches ctx scrutinee previous branches =>
          exact planCompletes_inferBranches hsig ctx scrutinee previous branches
        | unify ctx left right => exact absurd trivial hunify
        | _ => exact htask.elim
      obtain ⟨a, c', hreturns, θ', hcarries, ha⟩ := hplan hsmaller c θ u htask hθ htypes
      exact ⟨a, c', θ', .of_plan hunify hreturns, hcarries, ha⟩

end

end Checker

end PolyLambda
