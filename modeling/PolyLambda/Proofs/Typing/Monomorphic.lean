import PolyLambda.Proofs.Module.Monomorphic
import PolyLambda.Proofs.Typing.Instance
import PolyLambda.Proofs.Typing.Plain
import PolyLambda.Proofs.Unify.FirstOrder

/-!
# The checker on types without quantifiers

A checker that knows only types without quantifiers, and at once all that follows from what it
knows, stays that way on terms without explicit polymorphism (`verified_monomorphic`). Names of
metas may be written in the program, and type variables may be in scope. What such a checker learns
refines what it knew before, so that types that have been filled in earlier need not be looked at
again (`Refines.resolved`).

Where two quantified types have been compared this fails, even if no quantifier is left in what is
known: a solution may mention a variable that has been solved by then.
-/

namespace PolyLambda

/-! ## Idempotent substitutions -/

namespace Substitution

variable {s d : Substitution}

/-- Whether a substitution changes nothing more in what it has given. -/
def Idempotent (s : Substitution) : Prop :=
  s.Absorbs s

theorem idempotent_empty : Idempotent empty :=
  absorbs_empty empty

theorem Finished.idempotent (h : s.Finished) : s.Idempotent :=
  fun v => apply_eq_self (h.eliminates (.var v))

/-- A type without quantifiers that stays as it is has only variables that stay as they are. -/
theorem apply_var_eq_self_of_apply_eq_self {t : Ty} (ht : t.QuantifierFree) (h : s.apply t = t) :
    ∀ v ∈ t.freeVars, s.apply (.var v) = .var v := by
  refine ht.induct (motive := fun t => s.apply t = t → ∀ v ∈ t.freeVars, s.apply (.var v) = .var v)
    (fun w h v hv => ?_) (fun p r ihp ihr h v hv => ?_) (fun name args ih h v hv => ?_)
    (fun name _ => nofun) h
  · rwa [List.mem_singleton.1 hv]
  · rw [apply_arrow] at h
    obtain ⟨hp, hr⟩ := Ty.arrow.inj h
    exact (List.mem_append.1 hv).elim (ihp hp v) (ihr hr v)
  · rw [apply_data] at h
    obtain ⟨arg, harg, hv⟩ := Ty.mem_freeVarsAll.1 hv
    exact ih arg harg
      (List.map_inj_left.1 ((Ty.data.inj h).2.trans (List.map_id args).symm) arg harg) v hv

/-- What is learned about variables that are not solved yet refines what was known. -/
theorem Idempotent.compose {rigid : String → Bool} {es : List (Ty × Ty)} (hs : s.Idempotent)
    (hquantifierFree : s.QuantifierFree) (hd : Ty.MostGeneral rigid es d)
    (hes : ∀ v ∈ Ty.equationVars es, s.apply (.var v) = .var v) : (d.compose s).Idempotent := by
  intro v
  have hv := quantifierFree_apply hquantifierFree (Ty.quantifierFree_var v)
  have hfixed : s.apply (d.apply (s.apply (.var v))) = d.apply (s.apply (.var v)) := by
    have hsame : ∀ w ∈ (d.apply (s.apply (.var v))).freeVars,
        s.apply (.var w) = empty.apply (.var w) := by
      intro w hw
      rcases (hd.eliminates _ w hw).2 with hw | hw
      · exact apply_var_eq_self_of_apply_eq_self hv (hs v) w hw
      · exact hes w hw
    exact apply_congr_freeVars (quantifierFree_apply hd.quantifierFree hv) hsame
  rw [apply_compose, apply_compose, hfixed]
  exact hd.idempotent _

theorem quantifierFree_of_all (h : ∀ layer ∈ s.layers, Table.All Ty.QuantifierFree layer) :
    s.QuantifierFree := by
  intro layer hlayer v
  rw [Layer.apply_var]
  cases hv : layer.get? v with
  | none => exact Ty.quantifierFree_var v
  | some t => exact h layer hlayer v t hv

end Substitution

/-! ## Parts of types without quantifiers -/

namespace Ty

theorem over_iff_quantifierFree {t : Ty} :
    t.Over (fun _ => True) (fun _ => False) ↔ t.QuantifierFree :=
  ⟨fun h => binders_eq_nil_iff.1 h.binders_eq_nil,
    fun h => over_of_binders_eq_nil (binders_eq_nil_iff.2 h) fun _ _ => trivial⟩

theorem quantifierFree_splitArrows {t : Ty} (ht : t.QuantifierFree) :
    (∀ p ∈ t.splitArrows.1, p.QuantifierFree) ∧ t.splitArrows.2.QuantifierFree := by
  obtain ⟨hparams, hresult⟩ := over_splitArrows (over_iff_quantifierFree.2 ht)
  exact ⟨fun p hp => over_iff_quantifierFree.1 (hparams p hp), over_iff_quantifierFree.1 hresult⟩

theorem quantifierFree_arrows {params : List Ty} {t : Ty} (hparams : ∀ p ∈ params, p.QuantifierFree)
    (ht : t.QuantifierFree) : (arrows params t).QuantifierFree :=
  over_iff_quantifierFree.1 (over_arrows (fun p hp => over_iff_quantifierFree.2 (hparams p hp))
    (over_iff_quantifierFree.2 ht))

end Ty

/-- Whether the types in a signature have quantifiers only in front of the types of constructors. -/
structure Signature.Monomorphic (sig : Signature) : Prop where
  constructorTypes : sig.constructorTypes.All Ty.Prenex
  primitiveTypes : sig.primitiveTypes.All Ty.QuantifierFree

/-- Whether no type around a term has quantifiers. -/
def Context.Monomorphic (ctx : Context) : Prop :=
  ∀ u ∈ ctx.terms, u.QuantifierFree

namespace Checker

theorem quantifierFree_instantiated {t : Ty} (ht : t.Prenex) (m : Nat) :
    (instantiated m t).QuantifierFree := by
  refine Ty.over_iff_quantifierFree.1 (over_instanceFrom primeClosed_empty (fun _ _ => trivial)
    (fun _ _ => trivial) ?_)
  rw [Ty.dropAlls_length, Ty.binders_eq_nil_iff.2 ht]
  exact List.forall_mem_nil _

/-! ## States -/

/-- Whether a checker knows no quantified types, and all that it knows about a variable is filled in
at once. -/
structure Monomorphic (c : Checker) : Prop where
  globals : c.globals.All Ty.QuantifierFree
  quantifierFree : c.subst.QuantifierFree
  idempotent : c.subst.Idempotent

/-- Whether a checker has gone on from `c` without forgetting, and without quantified types. -/
structure Refines (c c' : Checker) : Prop where
  monomorphic : c'.Monomorphic
  absorbs : c'.subst.Absorbs c.subst

section

variable {c c₁ c' : Checker} {left right t : Ty}

/-- A checker that has not seen any definition yet knows the types of globals only. -/
theorem monomorphic_ofSignature {sig : Signature} (h : sig.globalTypes.All Ty.QuantifierFree) :
    (ofSignature sig).Monomorphic :=
  ⟨h, Substitution.quantifierFree_empty, Substitution.idempotent_empty⟩

theorem Monomorphic.refines (h : c.Monomorphic) : Refines c c :=
  ⟨h, h.idempotent⟩

theorem Monomorphic.addMetas (h : c.Monomorphic) (n : Nat) : Refines c { c with nextMeta := n } :=
  ⟨⟨h.globals, h.quantifierFree, h.idempotent⟩, h.idempotent⟩

theorem Monomorphic.resolved (h : c.Monomorphic) (ht : t.QuantifierFree) :
    (c.resolved t).QuantifierFree :=
  Substitution.quantifierFree_apply h.quantifierFree ht

/-- What has been filled in before is filled in again with what has been learned since. -/
theorem Refines.resolved (h : Refines c c') (ht : t.QuantifierFree) :
    c'.resolved (c.resolved t) = c'.resolved t :=
  h.absorbs.apply ht

theorem Refines.trans (hc : c.Monomorphic) (h : Refines c c₁) (h' : Refines c₁ c') :
    Refines c c' where
  monomorphic := h'.monomorphic
  absorbs v := by
    have hv := hc.resolved (Ty.quantifierFree_var v)
    show c'.resolved (c.resolved (.var v)) = c'.resolved (.var v)
    rw [← h'.resolved hv, h.resolved (Ty.quantifierFree_var v),
      h'.resolved (Ty.quantifierFree_var v)]

/-- A comparison of types without quantifiers refines what is known. -/
theorem Monomorphic.unify {rigid : String → Bool} {s : Substitution} (hc : c.Monomorphic)
    (hleft : left.QuantifierFree) (hright : right.QuantifierFree)
    (hs : Ty.Settles rigid (c.resolved left) (c.resolved right) (.ok s)) :
    Refines c { c with subst := s.compose c.subst } := by
  have hl := hc.resolved hleft
  have hr := hc.resolved hright
  have hgeneral : Ty.MostGeneral rigid [(c.resolved left, c.resolved right)] s :=
    hs.answers hl hr
  refine ⟨⟨hc.globals, hgeneral.quantifierFree.compose hc.quantifierFree, ?_⟩, fun v => ?_⟩
  · refine hc.idempotent.compose hc.quantifierFree hgeneral fun v hv => ?_
    rcases Ty.mem_equationVars_singleton.1 hv with hv | hv
    · exact Substitution.apply_var_eq_self_of_apply_eq_self hl (hc.refines.resolved hleft) v hv
    · exact Substitution.apply_var_eq_self_of_apply_eq_self hr (hc.refines.resolved hright) v hv
  · rw [Substitution.apply_compose, hc.idempotent v, Substitution.apply_compose]

end

/-! ## What a task is called with, and what it gives -/

section

variable (sig : Signature)

/-- Whether a task is about types without quantifiers and terms without explicit polymorphism. -/
def Task.Monomorphic : Task → Prop
  | infer ctx t => ctx.Monomorphic ∧ t.isMonomorphic = true
  | check ctx t expected => ctx.Monomorphic ∧ t.isMonomorphic = true ∧ expected.QuantifierFree
  | checkArgs ctx args fields =>
    ctx.Monomorphic ∧ Term.areMonomorphic args = true ∧ ∀ t ∈ fields, t.QuantifierFree
  | inferArgs ctx args => ctx.Monomorphic ∧ Term.areMonomorphic args = true
  | inferBranches ctx scrutinee previous branches =>
    ctx.Monomorphic ∧ scrutinee.QuantifierFree ∧ (∀ t ∈ previous, t.QuantifierFree) ∧
      Term.branchesAreMonomorphic branches = true
  | unify _ left right => left.QuantifierFree ∧ right.QuantifierFree
  | _ => False

/-- Whether the result of a task has no quantifiers. -/
def Task.ResultMonomorphic : (task : Task) → task.Result → Prop
  | infer _ _, t | inferTypeFunction _ _, t | inferBranches _ _ _ _, t | checkDefinition _, t =>
    t.QuantifierFree
  | check _ _ _, _ | checkArgs _ _ _, _ | inferArgs _ _, _ | unify _ _ _, _ => True
  | checkDefinitions _ _, types => types.All Ty.QuantifierFree

/-- Whether a task, called in the state `c`, refines what is known and has a result without
quantifiers. -/
def Task.Refines (task : Task) (c : Checker) (a : task.Result) (c' : Checker) : Prop :=
  Checker.Refines c c' ∧ task.ResultMonomorphic a

/-- Whether a plan refines what is known if what it calls does. -/
abbrev IsRefining {α : Type} (p : Plan α) (Q : α → Checker → Prop) (c : Checker) : Prop :=
  p.Meets sig (fun _ _ => True) (fun task c => c.Monomorphic ∧ task.Monomorphic) Task.Refines Q c

end

/-! ## Every task refines what is known -/

section

variable {sig : Signature} {ctx : Context} {c : Checker}

theorem isRefining_call {task : Task} {Q : task.Result → Checker → Prop} (hc : c.Monomorphic)
    (htask : task.Monomorphic)
    (hQ : ∀ a c', Refines c c' → task.ResultMonomorphic a → Q a c') :
    IsRefining sig task.call Q c :=
  meets_call.2 fun _ => ⟨⟨hc, htask⟩, fun a c' _ h => hQ a c' h.1 h.2⟩

theorem isRefining_freshMeta {Q : Ty → Checker → Prop} (hc : c.Monomorphic)
    (hQ : ∀ t c', Refines c c' → t.QuantifierFree → Q t c') :
    IsRefining sig (Plan.ofCheck freshMeta) Q c :=
  meets_freshMeta.2 (hQ _ _ (hc.addMetas _) (Ty.quantifierFree_var _))

theorem isRefining_asArrow {t : Ty} {Q : Ty × Ty → Checker → Prop} (hc : c.Monomorphic)
    (ht : t.QuantifierFree)
    (hQ : ∀ param result c', Refines c c' → param.QuantifierFree → result.QuantifierFree →
      Q (param, result) c') : IsRefining sig (asArrowPlan ctx t) Q c := by
  have hmetas : Refines c { c with nextMeta := c.nextMeta + 2 } := hc.addMetas _
  have hmeta (i : Nat) : (Ty.var (metaName i)).QuantifierFree := Ty.quantifierFree_var _
  refine meets_asArrow ?_ (isRefining_call hmetas.monomorphic
    ⟨ht, Ty.quantifierFree_arrow_iff.2 ⟨hmeta _, hmeta _⟩⟩ fun _ c' h _ => ?_)
  · rintro param result rfl
    obtain ⟨hparam, hresult⟩ := Ty.quantifierFree_arrow_iff.1 ht
    exact hQ param result c hc.refines hparam hresult
  · exact hQ _ _ c' (hmetas.trans hc h) (hmeta _) (hmeta _)

theorem isRefining_instance (hsig : sig.Monomorphic) (name : String) {α : Type} {p : Ty → Plan α}
    {Q : α → Checker → Prop} (hc : c.Monomorphic)
    (hp : ∀ t c', Refines c c' → (∀ f ∈ t.splitArrows.1, f.QuantifierFree) →
      t.splitArrows.2.QuantifierFree → IsRefining sig (p t) Q c') :
    IsRefining sig (do
      let t ← Plan.ofCheck (constructorType sig name)
      let t ← Plan.ofCheck (instantiate t)
      p t) Q c := by
  refine meets_instance.2 fun t ht => ?_
  obtain ⟨hfields, hresult⟩ := Ty.quantifierFree_splitArrows
    (quantifierFree_instantiated (hsig.constructorTypes name t ht) c.nextMeta)
  exact hp _ _ (hc.addMetas _) hfields hresult

theorem isRefining_infer (hsig : sig.Monomorphic) (ctx : Context) (t : Term) (hc : c.Monomorphic)
    (h : (Task.infer ctx t).Monomorphic) :
    IsRefining sig (inferPlan sig ctx t) ((Task.infer ctx t).Refines c) c := by
  obtain ⟨hctx, ht⟩ := h
  cases t with
  | var index =>
    rw [inferPlan]
    cases hindex : ctx.type? index with
    | some u =>
      exact meets_resolve.2 ⟨hc.refines, hc.resolved (hctx u (List.mem_of_getElem? hindex))⟩
    | none => exact meets_fail.2 trivial
  | global name =>
    exact meets_globalType.2 fun t ht => ⟨hc.refines, hc.resolved (hc.globals name t ht)⟩
  | lam type body =>
    rw [Term.isMonomorphic, Bool.and_eq_true] at ht
    cases type with
    | some param =>
      have hparam : param.QuantifierFree := of_decide_eq_true ht.1
      rw [inferPlan, IsRefining, Plan.meets_bind]
      refine isRefining_call hc ⟨List.forall_mem_cons.2 ⟨hparam, hctx⟩, ht.2⟩ fun r c₁ h₁ hr => ?_
      exact meets_resolve.2
        ⟨h₁, h₁.monomorphic.resolved (Ty.quantifierFree_arrow_iff.2 ⟨hparam, hr⟩)⟩
    | none => exact meets_fail.2 trivial
  | app fn arg =>
    rw [Term.isMonomorphic, Bool.and_eq_true] at ht
    rw [inferPlan, IsRefining, Plan.meets_bind]
    refine isRefining_call hc ⟨hctx, ht.1⟩ fun f c₁ h₁ hf => ?_
    rw [Plan.meets_bind]
    refine isRefining_asArrow h₁.monomorphic hf fun param result c₂ h₂ hparam hresult => ?_
    rw [Plan.meets_bind]
    refine isRefining_call h₂.monomorphic ⟨hctx, ht.2, hparam⟩ fun _ c₃ h₃ _ => ?_
    exact meets_resolve.2 ⟨(h₁.trans hc h₂).trans hc h₃, h₃.monomorphic.resolved hresult⟩
  | tlam v body => cases ht
  | tapp fn type => cases ht
  | con name args =>
    rw [Term.isMonomorphic] at ht
    refine isRefining_instance hsig name hc fun t c₁ h₁ hfields hresult => ?_
    split
    next => exact meets_fail.2 trivial
    next =>
      rw [IsRefining, Plan.meets_bind]
      refine isRefining_call h₁.monomorphic ⟨hctx, ht, hfields⟩ fun _ c₂ h₂ _ => ?_
      refine meets_resolve.2
        ⟨h₁.trans hc h₂, h₂.monomorphic.resolved (Ty.quantifierFree_arrows ?_ hresult)⟩
      exact fun f hf => hfields f (List.mem_of_mem_drop hf)
  | case scrutinee branches =>
    rw [Term.isMonomorphic, Bool.and_eq_true] at ht
    rw [inferPlan]
    split
    next => exact meets_fail.2 trivial
    next =>
      rw [IsRefining, Plan.meets_bind]
      refine isRefining_call hc ⟨hctx, ht.1⟩ fun s c₁ h₁ hs => ?_
      refine isRefining_call h₁.monomorphic ⟨hctx, hs, fun u hu =>
        absurd hu (Option.not_mem_none u), ht.2⟩
        fun t c₂ h₂ ht => ?_
      exact ⟨h₁.trans hc h₂, ht⟩
  | letIn name value body =>
    rw [Term.isMonomorphic, Bool.and_eq_true] at ht
    rw [inferPlan, IsRefining, Plan.meets_bind]
    refine isRefining_call hc ⟨hctx, ht.1⟩ fun v c₁ h₁ hv => ?_
    refine isRefining_call h₁.monomorphic ⟨List.forall_mem_cons.2 ⟨hv, hctx⟩, ht.2⟩
      fun t c₂ h₂ ht => ?_
    exact ⟨h₁.trans hc h₂, ht⟩
  | int value => exact ⟨hc.refines, rfl⟩
  | string text => exact ⟨hc.refines, rfl⟩
  | prim name => exact meets_primitiveType.2 fun t ht => ⟨hc.refines, hsig.primitiveTypes name t ht⟩
  | tool name args =>
    rw [Term.isMonomorphic] at ht
    rw [inferPlan, IsRefining, Plan.meets_bind]
    refine isRefining_call hc ⟨hctx, ht⟩ fun _ c₁ h₁ _ => ?_
    refine isRefining_freshMeta h₁.monomorphic fun t c₂ h₂ ht => ?_
    exact ⟨h₁.trans hc h₂, ht⟩

theorem isRefining_check (ctx : Context) (t : Term) (expected : Ty) (hc : c.Monomorphic)
    (h : (Task.check ctx t expected).Monomorphic) :
    IsRefining sig (checkPlan ctx t expected) ((Task.check ctx t expected).Refines c) c := by
  obtain ⟨hctx, ht, hexpected⟩ := h
  have he := hc.resolved hexpected
  refine meets_check ?lam ?bare ?tlam ?other
  case lam =>
    rintro declared body param result rfl heq
    rw [heq] at he
    obtain ⟨hparam, hresult⟩ := Ty.quantifierFree_arrow_iff.1 he
    rw [Term.isMonomorphic, Bool.and_eq_true] at ht
    have hdeclared : declared.QuantifierFree := of_decide_eq_true ht.1
    refine isRefining_call hc ⟨hparam, hdeclared⟩ fun _ c₁ h₁ _ => ?_
    exact isRefining_call h₁.monomorphic ⟨List.forall_mem_cons.2 ⟨hdeclared, hctx⟩, ht.2, hresult⟩
      fun _ c₂ h₂ _ => ⟨h₁.trans hc h₂, trivial⟩
  case bare =>
    rintro body param result rfl heq
    rw [heq] at he
    obtain ⟨hparam, hresult⟩ := Ty.quantifierFree_arrow_iff.1 he
    rw [Term.isMonomorphic, Bool.and_eq_true] at ht
    exact isRefining_call hc ⟨List.forall_mem_cons.2 ⟨hparam, hctx⟩, ht.2, hresult⟩
      fun _ c₁ h₁ _ => ⟨h₁, trivial⟩
  case tlam =>
    rintro v body w result rfl
    cases ht
  case other =>
    refine isRefining_call hc ⟨hctx, ht⟩ fun actual c₁ h₁ hactual => ?_
    exact isRefining_call h₁.monomorphic ⟨he, hactual⟩ fun _ c₂ h₂ _ => ⟨h₁.trans hc h₂, trivial⟩

theorem isRefining_checkArgs (ctx : Context) (args : List Term) (fields : List Ty)
    (hc : c.Monomorphic) (h : (Task.checkArgs ctx args fields).Monomorphic) :
    IsRefining sig (checkArgsPlan ctx args fields)
    ((Task.checkArgs ctx args fields).Refines c) c := by
  obtain ⟨hctx, hargs, hfields⟩ := h
  cases args with
  | nil => exact ⟨hc.refines, trivial⟩
  | cons arg args =>
    cases fields with
    | nil => exact ⟨hc.refines, trivial⟩
    | cons field fields =>
      rw [Term.areMonomorphic, Bool.and_eq_true] at hargs
      rw [List.forall_mem_cons] at hfields
      rw [checkArgsPlan, IsRefining, Plan.meets_bind]
      refine isRefining_call hc ⟨hctx, hargs.1, hfields.1⟩ fun _ c₁ h₁ _ => ?_
      exact isRefining_call h₁.monomorphic ⟨hctx, hargs.2, hfields.2⟩ fun _ c₂ h₂ _ =>
        ⟨h₁.trans hc h₂, trivial⟩

theorem isRefining_inferArgs (ctx : Context) (args : List Term) (hc : c.Monomorphic)
    (h : (Task.inferArgs ctx args).Monomorphic) :
    IsRefining sig (inferArgsPlan ctx args) ((Task.inferArgs ctx args).Refines c) c := by
  obtain ⟨hctx, hargs⟩ := h
  cases args with
  | nil => exact ⟨hc.refines, trivial⟩
  | cons arg args =>
    rw [Term.areMonomorphic, Bool.and_eq_true] at hargs
    rw [inferArgsPlan, IsRefining, Plan.meets_bind]
    refine isRefining_call hc ⟨hctx, hargs.1⟩ fun _ c₁ h₁ _ => ?_
    exact isRefining_call h₁.monomorphic ⟨hctx, hargs.2⟩ fun _ c₂ h₂ _ => ⟨h₁.trans hc h₂, trivial⟩

theorem isRefining_enterBranch (hsig : sig.Monomorphic) (ctx : Context) {scrutinee : Ty}
    (constructor : String) (vars : List String) {Q : Context → Checker → Prop} (hc : c.Monomorphic)
    (hctx : ctx.Monomorphic) (hscrutinee : scrutinee.QuantifierFree)
    (hQ : ∀ inner c', Refines c c' → inner.Monomorphic → Q inner c') :
    IsRefining sig (enterBranchPlan sig ctx scrutinee constructor vars) Q c := by
  refine isRefining_instance hsig constructor hc fun t c₁ h₁ hfields hresult => ?_
  split
  next => exact meets_fail.2 trivial
  next =>
    rw [IsRefining, Plan.meets_bind]
    refine isRefining_call h₁.monomorphic ⟨hresult, hscrutinee⟩ fun _ c₂ h₂ _ => ?_
    rw [Plan.meets_bind, meets_get]
    refine hQ _ c₂ (h₁.trans hc h₂) (List.forall_mem_append.2 ⟨?_, hctx⟩)
    exact List.forall_mem_map.2 fun f hf => h₂.monomorphic.resolved (hfields f hf)

theorem isRefining_joinBranch (ctx : Context) {previous : Option Ty} {t : Ty}
    {Q : Ty → Checker → Prop}
    (hc : c.Monomorphic) (hprevious : ∀ t ∈ previous, t.QuantifierFree) (ht : t.QuantifierFree)
    (hQ : ∀ joined c', Refines c c' → joined.QuantifierFree → Q joined c') :
    IsRefining sig (joinBranchPlan ctx previous t) Q c := by
  cases previous with
  | none => exact hQ t c hc.refines ht
  | some p =>
    have hp := hprevious p rfl
    rw [joinBranchPlan, IsRefining, Plan.meets_bind]
    refine isRefining_call hc ⟨hp, ht⟩ fun _ c₁ h₁ _ => ?_
    exact meets_resolve.2 (hQ _ c₁ h₁ (h₁.monomorphic.resolved hp))

theorem isRefining_inferBranches (hsig : sig.Monomorphic) (ctx : Context) (scrutinee : Ty)
    (previous : Option Ty) (branches : List Branch) (hc : c.Monomorphic)
    (h : (Task.inferBranches ctx scrutinee previous branches).Monomorphic) :
    IsRefining sig (inferBranchesPlan sig ctx scrutinee previous branches)
      ((Task.inferBranches ctx scrutinee previous branches).Refines c) c := by
  obtain ⟨hctx, hscrutinee, hprevious, hbranches⟩ := h
  cases branches with
  | nil =>
    cases previous with
    | some t => exact ⟨hc.refines, hprevious t rfl⟩
    | none => exact meets_fail.2 trivial
  | cons branch branches =>
    obtain ⟨constructor, vars, body⟩ := branch
    rw [Term.branchesAreMonomorphic, Bool.and_eq_true] at hbranches
    rw [inferBranchesPlan, IsRefining, Plan.meets_bind]
    refine isRefining_enterBranch hsig ctx constructor vars hc hctx hscrutinee
      fun inner c₁ h₁ hinner => ?_
    rw [Plan.meets_bind]
    refine isRefining_call h₁.monomorphic ⟨hinner, hbranches.1⟩ fun t c₂ h₂ ht => ?_
    rw [Plan.meets_bind]
    refine isRefining_joinBranch ctx h₂.monomorphic hprevious ht fun joined c₃ h₃ hjoined => ?_
    have h₁₃ := (h₁.trans hc h₂).trans hc h₃
    refine isRefining_call h₃.monomorphic ⟨hctx, hscrutinee, ?_, hbranches.2⟩
      fun t c₄ h₄ ht => ⟨h₁₃.trans hc h₄, ht⟩
    rintro _ ⟨⟩
    exact hjoined

theorem isRefining_unify (ctx : Context) (left right : Ty) (hc : c.Monomorphic)
    (h : (Task.unify ctx left right).Monomorphic) :
    IsRefining sig (unifyPlan ctx left right) ((Task.unify ctx left right).Refines c) c := by
  rw [unifyPlan, IsRefining, Plan.meets_bind, meets_get]
  intro s hs
  exact meets_set.2 ⟨hc.unify h.1 h.2 hs, trivial⟩

/-- Every task on types without quantifiers refines what is known. -/
theorem verified_monomorphic (hsig : sig.Monomorphic) :
    Verified sig (fun _ _ => True) (fun task c => c.Monomorphic ∧ task.Monomorphic)
    Task.Refines := by
  rintro task c _ ⟨hc, h⟩
  cases task with
  | infer ctx t => exact isRefining_infer hsig ctx t hc h
  | inferTypeFunction ctx t => exact h.elim
  | check ctx t expected => exact isRefining_check ctx t expected hc h
  | checkArgs ctx args fields => exact isRefining_checkArgs ctx args fields hc h
  | inferArgs ctx args => exact isRefining_inferArgs ctx args hc h
  | inferBranches ctx scrutinee previous branches =>
    exact isRefining_inferBranches hsig ctx scrutinee previous branches hc h
  | unify ctx left right => exact isRefining_unify ctx left right hc h
  | checkDefinition d => exact h.elim
  | checkDefinitions types ds => exact h.elim

/-- What a task without quantified types returns has been learned besides what was known. -/
theorem refines_of_outcome? (hsig : sig.Monomorphic) (task : Task) {limit : Nat} {a : task.Result}
    {c' : Checker} (hc : c.Monomorphic) (htask : task.Monomorphic)
    (h : (task.run sig limit).outcome? c = some (.ok a, c')) : Refines c c' := by
  have hreturns : Returns sig task c a c' := ⟨limit, by rw [Task.outcome?, h]; rfl⟩
  exact ((verified_monomorphic hsig).returns (fun _ _ _ => trivial) ⟨hc, htask⟩ hreturns).1

end

end Checker

end PolyLambda
