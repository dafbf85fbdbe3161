import PolyLambda.Proofs.Module.Signature
import PolyLambda.Proofs.Typing.Run
import PolyLambda.Proofs.Unify.Solved

/-!
# The names that a run of the checker meets

A run of the checker handles no type variables but the metas that it has handed out and those that
the program writes, with or without primes. This is an invariant of every task: a task may rely on
it when it is called, and it keeps it.
-/

namespace PolyLambda

/-! ## The type variables of a program -/

/-- All names in a type. -/
def Ty.names (t : Ty) : List String :=
  t.freeVars ++ t.binders

theorem Ty.over_iff_names {N : String → Prop} {t : Ty} : t.Over N N ↔ ∀ v ∈ t.names, N v := by
  simp only [names, List.mem_append]
  exact ⟨fun ⟨hf, hb⟩ v hv => hv.elim (hf v) (hb v),
    fun h => ⟨fun v hv => h v (.inl hv), fun v hv => h v (.inr hv)⟩⟩

namespace Term

section

variable (params : List String)

mutual

/-- The type variables that a term binds or mentions. Where a term is applied to a type it may be a
constructor that keeps its quantifiers, and so the parameters `params` of constructors count too. -/
def typeNames : Term → List String
  | .var _ | .global _ | .int _ | .string _ | .prim _ => []
  | .lam type body => type.elim [] Ty.names ++ body.typeNames
  | .app fn arg => fn.typeNames ++ arg.typeNames
  | .tlam v body => v :: body.typeNames
  | .tapp fn type => fn.typeNames ++ type.names ++ params
  | .con _ args => typeNamesAll args
  | .case scrutinee branches => scrutinee.typeNames ++ typeNamesBranches branches
  | .letIn _ value body => value.typeNames ++ body.typeNames
  | .tool _ args => typeNamesAll args

def typeNamesAll : List Term → List String
  | [] => []
  | arg :: args => arg.typeNames ++ typeNamesAll args

def typeNamesBranches : List Branch → List String
  | [] => []
  | .mk _ _ body :: branches => body.typeNames ++ typeNamesBranches branches

end

end

end Term

def Definition.typeNames (params : List String) (d : Definition) : List String :=
  d.type.elim [] Ty.names ++ d.body.typeNames params

namespace Signature

/-- The parameters of all constructors. -/
def paramNames (sig : Signature) : List String :=
  sig.constructorTypes.values.flatMap fun t => t.splitAlls.1

/-- The type variables in the types of a signature, but for the parameters of constructors, which
are replaced by metas when a constructor is used. -/
def typeNames (sig : Signature) : List String :=
  sig.constructorTypes.values.flatMap (fun t => t.splitAlls.2.binders) ++
    sig.primitiveTypes.values.flatMap Ty.names ++ sig.globalTypes.values.flatMap Ty.names

end Signature

/-- The type variables that a module writes. -/
def Module.typeNames (m : Module) : List String :=
  m.toSignature.typeNames ++ m.definitions.flatMap (Definition.typeNames m.paramNames)

/-- Whether the types of a signature are over the names in `N`, and those of its constructors
closed. -/
structure Signature.Over (N : String → Prop) (sig : Signature) : Prop where
  closed : sig.constructorTypes.All fun t => t.freeVars = []
  constructorTypes : sig.constructorTypes.All fun t => ∀ v ∈ t.splitAlls.2.binders, N v
  primitiveTypes : sig.primitiveTypes.All (Ty.Over N N)
  globalTypes : sig.globalTypes.All (Ty.Over N N)

/-! ## Instances -/

namespace Ty

theorem over_splitArrows {P N : String → Prop} {t : Ty} (h : t.Over P N) :
    (∀ p ∈ t.splitArrows.1, p.Over P N) ∧ t.splitArrows.2.Over P N := by
  fun_induction splitArrows t with
  | case1 p r ih =>
    rw [over_arrow_iff] at h
    exact ⟨List.forall_mem_cons.2 ⟨h.1, (ih h.2).1⟩, (ih h.2).2⟩
  | case2 t => exact ⟨List.forall_mem_nil _, h⟩

theorem over_arrows {P N : String → Prop} {params : List Ty} {t : Ty}
    (hparams : ∀ p ∈ params, p.Over P N) (ht : t.Over P N) : (arrows params t).Over P N := by
  induction params with
  | nil => exact ht
  | cons p params ih =>
    rw [List.forall_mem_cons] at hparams
    exact over_arrow_iff.2 ⟨hparams.1, ih hparams.2⟩

/-- A type without its outermost quantifiers, at most `n` of them. -/
def dropAlls : Nat → Ty → Ty
  | n + 1, .all _ b => dropAlls n b
  | _, t => t

theorem mem_binders_alls {vars : List String} {t : Ty} {v : String} :
    v ∈ (alls vars t).binders ↔ v ∈ vars ∨ v ∈ t.binders := by
  induction vars with
  | nil => simp [alls]
  | cons w vars ih =>
    have hcons : alls (w :: vars) t = .all w (alls vars t) := rfl
    rw [hcons, binders, List.mem_cons, ih, List.mem_cons, or_assoc]

theorem dropAlls_length (t : Ty) : dropAlls t.splitAlls.1.length t = t.splitAlls.2 := by
  fun_induction splitAlls t with
  | case1 v b ih => exact ih
  | case2 t h => cases t <;> rfl

theorem binders_dropAlls_substitute {N : String → Prop} (hN : PrimeClosed N) {n : Nat} {t : Ty}
    (ht : ∀ v ∈ (dropAlls n t).binders, N v) (x y : String) :
    ∀ v ∈ (dropAlls n (t.substitute x (.var y))).binders, N v := by
  have hvar : ∀ v ∈ (Ty.var y).binders, N v := List.forall_mem_nil _
  induction n generalizing t x y with
  | zero =>
    have hzero (t : Ty) : dropAlls 0 t = t := by cases t <;> rfl
    rw [hzero] at ht ⊢
    exact binders_substitute hN ht hvar x
  | succ n ih =>
    cases t with
    | all w b =>
      have hrename (z : String) : ∀ v ∈ (Ty.var z).binders, N v := List.forall_mem_nil _
      rw [substitute_all]
      split
      next => exact ht
      next =>
        split
        next => exact ih (ih ht _ _ (hrename _)) x y hvar
        next => exact ih ht x y hvar
    | var name =>
      rw [substitute_var]
      split
      next => exact hvar
      next => exact ht
    | arrow p r =>
      have h := binders_substitute hN (t := .arrow p r) ht hvar x
      rw [substitute_arrow] at h ⊢
      exact h
    | data name args =>
      have h := binders_substitute hN (t := .data name args) ht hvar x
      rw [substitute_data] at h ⊢
      exact h
    | prim name =>
      rw [substitute_prim]
      exact ht

end Ty

namespace Checker

theorem over_instanceFrom {P N : String → Prop} (hN : PrimeClosed N) {m n : Nat} {t : Ty}
    (hfree : ∀ v ∈ t.freeVars, P v) (hmetas : ∀ i < m + n, P (metaName i))
    (hbinders : ∀ v ∈ (t.dropAlls n).binders, N v) : (instanceFrom m n t).Over P N := by
  induction n generalizing m t with
  | zero => cases t <;> exact ⟨hfree, hbinders⟩
  | succ n ih =>
    cases t with
    | all v b =>
      refine ih (fun w hw => ?_) (fun i hi => hmetas i (by omega))
        (Ty.binders_dropAlls_substitute hN (t := b) hbinders v _)
      rcases (Ty.mem_freeVars_substitute b v _ w).1 hw with ⟨hw, hne⟩ | ⟨-, hw⟩
      · exact hfree w (List.mem_filter.2 ⟨hw, decide_eq_true hne⟩)
      · rw [List.mem_singleton.1 hw]
        exact hmetas m (by omega)
    | _ => exact ⟨hfree, hbinders⟩

/-! ## The invariant -/

theorem metaName_injective : Function.Injective metaName := by
  intro i j h
  have hlists := congrArg String.toList h
  rw [metaName, metaName, String.toList_append, String.toList_append, List.append_cancel_left_eq,
    Nat.toString_eq_repr, Nat.toString_eq_repr, Nat.toList_repr, Nat.toList_repr] at hlists
  rw [← Nat.ofDigitChars_ten_toDigits (n := i), hlists, Nat.ofDigitChars_ten_toDigits]

theorem ne_metaName {v : String} (h : ¬ "_t".toList <+: v.toList) (n : Nat) : v ≠ metaName n := by
  rintro rfl
  exact h ⟨(toString n).toList, String.toList_append.symm⟩

/-- The names that may occur free when `n` metas have been handed out. -/
def Known (N : String → Prop) (n : Nat) (v : String) : Prop :=
  (∃ i < n, v = metaName i) ∨ N v

theorem Known.mono {N : String → Prop} {n m : Nat} (h : n ≤ m) {v : String} (hv : Known N n v) :
    Known N m v := by
  rcases hv with ⟨i, hi, rfl⟩ | hv
  · exact .inl ⟨i, by omega, rfl⟩
  · exact .inr hv

theorem known_metaName {N : String → Prop} {n i : Nat} (h : i < n) : Known N n (metaName i) :=
  .inl ⟨i, h, rfl⟩

/-- Whether a type has known names only. -/
def Handled (N : String → Prop) (n : Nat) (t : Ty) : Prop :=
  t.Over (Known N n) N

theorem Handled.mono {N : String → Prop} {n m : Nat} (h : n ≤ m) {t : Ty} (ht : Handled N n t) :
    Handled N m t :=
  Ty.Over.mono ht (fun _ => Known.mono h) fun _ => id

theorem handled_of_names {N : String → Prop} {n : Nat} {t : Ty} (h : t.Over N N) : Handled N n t :=
  h.mono (fun _ => .inr) fun _ => id

theorem handled_metaName {N : String → Prop} {n i : Nat} (h : i < n) :
    Handled N n (.var (metaName i)) :=
  Ty.over_var_iff.2 (known_metaName h)

/-- Whether a checker has learned known names only. -/
structure Over (N : String → Prop) (c : Checker) : Prop where
  globals : c.globals.All (Handled N c.nextMeta)
  subst : c.subst.Over (Known N c.nextMeta) N

variable {N : String → Prop} {c c' : Checker}

theorem Over.resolved (hN : PrimeClosed N) (h : c.Over N) {t : Ty} (ht : Handled N c.nextMeta t) :
    Handled N c.nextMeta (c.resolved t) :=
  h.subst.apply hN ht

/-- More metas do no harm. -/
theorem Over.addMetas (h : c.Over N) {n : Nat} (hn : c.nextMeta ≤ n) :
    Over N { c with nextMeta := n } where
  globals name t ht := (h.globals name t ht).mono hn
  subst := h.subst.mono (fun _ => Known.mono hn) fun _ => id

theorem Over.setGlobal (h : c.Over N) (name : String) {t : Ty} (ht : Handled N c.nextMeta t) :
    Over N { c with globals := c.globals.insert name t } where
  globals := h.globals.insert name ht
  subst := h.subst

/-! ## What a task is called with, and what it gives -/

section

variable (sig : Signature) (N : String → Prop) (n : Nat)

/-- Whether a task is about known names only. -/
def Task.Over : Task → Prop
  | infer ctx t => (∀ u ∈ ctx.terms, Handled N n u) ∧ ∀ v ∈ t.typeNames sig.paramNames, N v
  | inferTypeFunction ctx t =>
    (∀ u ∈ ctx.terms, Handled N n u) ∧ (∀ v ∈ t.typeNames sig.paramNames, N v) ∧
      ∀ v ∈ sig.paramNames, N v
  | check ctx t expected =>
    (∀ u ∈ ctx.terms, Handled N n u) ∧ (∀ v ∈ t.typeNames sig.paramNames, N v) ∧
      Handled N n expected
  | checkArgs ctx args fields =>
    (∀ u ∈ ctx.terms, Handled N n u) ∧ (∀ v ∈ Term.typeNamesAll sig.paramNames args, N v) ∧
      ∀ t ∈ fields, Handled N n t
  | inferArgs ctx args =>
    (∀ u ∈ ctx.terms, Handled N n u) ∧ ∀ v ∈ Term.typeNamesAll sig.paramNames args, N v
  | inferBranches ctx scrutinee previous branches =>
    (∀ u ∈ ctx.terms, Handled N n u) ∧ Handled N n scrutinee ∧
      (∀ t ∈ previous, Handled N n t) ∧
      ∀ v ∈ Term.typeNamesBranches sig.paramNames branches, N v
  | unify _ left right => Handled N n left ∧ Handled N n right
  | checkDefinition d => ∀ v ∈ d.typeNames sig.paramNames, N v
  | checkDefinitions types ds =>
    types.All (Handled N n) ∧ ∀ d ∈ ds, ∀ v ∈ d.typeNames sig.paramNames, N v

/-- Whether the result of a task has known names only. -/
def Task.ResultOver : (task : Task) → task.Result → Prop
  | infer _ _, t | inferTypeFunction _ _, t | inferBranches _ _ _ _, t | checkDefinition _, t =>
    Handled N n t
  | check _ _ _, _ | checkArgs _ _ _, _ | inferArgs _ _, _ | unify _ _ _, _ => True
  | checkDefinitions _ _, types => types.All (Handled N n)

/-- Whether a task is called with known names only. -/
def Task.Starts (task : Task) (c : Checker) : Prop :=
  c.Over N ∧ task.Over sig N c.nextMeta

/-- Whether a checker has gone on from `c` with known names only. -/
structure Follows (c c' : Checker) : Prop where
  nextMeta : c.nextMeta ≤ c'.nextMeta
  known : c'.Over N

/-- Whether a task, called in the state `c`, ends with known names only. -/
def Task.Ends (task : Task) (c : Checker) (a : task.Result) (c' : Checker) : Prop :=
  Follows N c c' ∧ task.ResultOver N c'.nextMeta a

/-- Whether a plan keeps to known names if what it calls does. -/
abbrev Keeps {α : Type} (p : Plan α) (Q : α → Checker → Prop) (c : Checker) : Prop :=
  p.Meets sig (fun _ _ => True) (Task.Starts sig N) (Task.Ends N) Q c

end

theorem Follows.trans {c c₁ c' : Checker} (h : Follows N c c₁) (h' : Follows N c₁ c') :
    Follows N c c' :=
  ⟨Nat.le_trans h.nextMeta h'.nextMeta, h'.known⟩

theorem Over.follows (h : c.Over N) : Follows N c c :=
  ⟨Nat.le_refl _, h⟩

theorem Follows.handled (h : Follows N c c') {t : Ty} (ht : Handled N c.nextMeta t) :
    Handled N c'.nextMeta t :=
  ht.mono h.nextMeta

theorem Follows.handled_all (h : Follows N c c') {ts : List Ty}
    (hts : ∀ t ∈ ts, Handled N c.nextMeta t) : ∀ t ∈ ts, Handled N c'.nextMeta t :=
  fun t ht => h.handled (hts t ht)

/-! ## Every task keeps to known names -/

section

variable {sig : Signature} (hN : PrimeClosed N) (hsig : sig.Over N)

theorem keeps_call {task : Task} {Q : task.Result → Checker → Prop} (hc : c.Over N)
    (htask : task.Over sig N c.nextMeta)
    (hQ : ∀ a c', Follows N c c' → task.ResultOver N c'.nextMeta a → Q a c') :
    Keeps sig N task.call Q c :=
  meets_call.2 fun _ => ⟨⟨hc, htask⟩, fun a c' _ h => hQ a c' h.1 h.2⟩

theorem keeps_freshMeta {Q : Ty → Checker → Prop} (hc : c.Over N)
    (hQ : ∀ t c', Follows N c c' → Handled N c'.nextMeta t → Q t c') :
    Keeps sig N (Plan.ofCheck freshMeta) Q c :=
  meets_freshMeta.2 (hQ _ _ ⟨Nat.le_succ _, hc.addMetas (Nat.le_succ _)⟩
    (handled_metaName (Nat.lt_succ_self _)))

theorem keeps_asArrow (ctx : Context) {t : Ty} {Q : Ty × Ty → Checker → Prop} (hc : c.Over N)
    (ht : Handled N c.nextMeta t)
    (hQ : ∀ param result c', Follows N c c' → Handled N c'.nextMeta param →
      Handled N c'.nextMeta result → Q (param, result) c') :
    Keeps sig N (asArrowPlan ctx t) Q c := by
  have hmetas : Follows N c { c with nextMeta := c.nextMeta + 2 } :=
    ⟨Nat.le_add_right _ _, hc.addMetas (Nat.le_add_right _ _)⟩
  have hmeta (i : Nat) (hi : i < c.nextMeta + 2) : Handled N (c.nextMeta + 2) (.var (metaName i)) :=
    handled_metaName hi
  have hparam := hmeta c.nextMeta (by omega)
  have hresult := hmeta (c.nextMeta + 1) (by omega)
  refine meets_asArrow ?_ (keeps_call hmetas.known ⟨hmetas.handled ht,
    Ty.over_arrow_iff.2 ⟨hparam, hresult⟩⟩ fun _ c' h _ => ?_)
  · rintro param result rfl
    obtain ⟨hparam, hresult⟩ := Ty.over_arrow_iff.1 ht
    exact hQ param result c hc.follows hparam hresult
  · exact hQ _ _ c' (hmetas.trans h) (h.handled hparam) (h.handled hresult)

include hN

theorem keeps_resolve {t : Ty} {Q : Ty → Checker → Prop} (hc : c.Over N)
    (ht : Handled N c.nextMeta t) (hQ : ∀ t, Handled N c.nextMeta t → Q t c) :
    Keeps sig N (Plan.ofCheck (resolve t)) Q c :=
  meets_resolve.2 (hQ _ (hc.resolved hN ht))

include hsig

theorem keeps_instance (name : String) {α : Type} {p : Ty → Plan α} {Q : α → Checker → Prop}
    (hc : c.Over N)
    (hp : ∀ t c', Follows N c c' → (∀ f ∈ t.splitArrows.1, Handled N c'.nextMeta f) →
      Handled N c'.nextMeta t.splitArrows.2 → Keeps sig N (p t) Q c') :
    Keeps sig N (do
      let t ← Plan.ofCheck (constructorType sig name)
      let t ← Plan.ofCheck (instantiate t)
      p t) Q c := by
  refine meets_instance.2 fun t ht => ?_
  have hle : c.nextMeta ≤ c.nextMeta + t.splitAlls.1.length := Nat.le_add_right _ _
  have hbinders : ∀ v ∈ t.splitAlls.2.binders, N v := hsig.constructorTypes name t ht
  rw [← Ty.dropAlls_length] at hbinders
  have hover : Handled N (c.nextMeta + t.splitAlls.1.length) (instantiated c.nextMeta t) := by
    refine over_instanceFrom hN (fun v hv => ?_) (fun i hi => known_metaName hi) hbinders
    rw [hsig.closed name t ht] at hv
    exact absurd hv List.not_mem_nil
  obtain ⟨hfields, hresult⟩ := Ty.over_splitArrows hover
  exact hp _ _ ⟨hle, hc.addMetas hle⟩ hfields hresult

theorem keeps_infer (ctx : Context) (t : Term) (h : (Task.infer ctx t).Starts sig N c) :
    Keeps sig N (inferPlan sig ctx t) ((Task.infer ctx t).Ends N c) c := by
  obtain ⟨hc, hctx, ht⟩ := h
  cases t with
  | var index =>
    rw [inferPlan]
    cases hindex : ctx.type? index with
    | some u =>
      refine keeps_resolve hN hc (hctx u (List.mem_of_getElem? hindex)) fun t ht => ?_
      exact ⟨hc.follows, ht⟩
    | none => exact meets_fail.2 trivial
  | global name =>
    refine meets_globalType.2 fun t ht => ⟨hc.follows, ?_⟩
    exact hc.resolved hN (hc.globals name t ht)
  | lam type body =>
    cases type with
    | some param =>
      simp only [Term.typeNames, Option.elim_some, List.forall_mem_append] at ht
      have hparam := handled_of_names (n := c.nextMeta) (Ty.over_iff_names.2 ht.1)
      rw [inferPlan, Keeps, Plan.meets_bind]
      refine keeps_call hc ⟨List.forall_mem_cons.2 ⟨hparam, hctx⟩, ht.2⟩ fun r c₁ h₁ hr => ?_
      refine keeps_resolve hN h₁.known (Ty.over_arrow_iff.2 ⟨h₁.handled hparam, hr⟩) fun t ht => ?_
      exact ⟨h₁, ht⟩
    | none => exact meets_fail.2 trivial
  | app fn arg =>
    simp only [Term.typeNames, List.forall_mem_append] at ht
    rw [inferPlan, Keeps, Plan.meets_bind]
    refine keeps_call hc ⟨hctx, ht.1⟩ fun f c₁ h₁ hf => ?_
    rw [Plan.meets_bind]
    refine keeps_asArrow ctx h₁.known hf fun param result c₂ h₂ hparam hresult => ?_
    have h₁₂ := h₁.trans h₂
    rw [Plan.meets_bind]
    refine keeps_call h₂.known ⟨h₁₂.handled_all hctx, ht.2, hparam⟩ fun _ c₃ h₃ _ => ?_
    refine keeps_resolve hN h₃.known (h₃.handled hresult) fun t ht => ?_
    exact ⟨h₁₂.trans h₃, ht⟩
  | tlam v body =>
    simp only [Term.typeNames, List.forall_mem_cons] at ht
    rw [inferPlan, Keeps, Plan.meets_bind]
    refine keeps_call hc ⟨hctx, ht.2⟩ fun t c₁ h₁ hbody => ?_
    refine ⟨h₁, Ty.over_all_iff.2 ⟨ht.1, ?_⟩⟩
    exact Ty.Over.mono hbody (fun _ => .inl) fun _ => id
  | tapp fn arg =>
    simp only [Term.typeNames, List.forall_mem_append] at ht
    rw [inferPlan, Keeps, Plan.meets_bind]
    refine keeps_call hc ⟨hctx, ht.1.1, ht.2⟩ fun t c₁ h₁ hfn => ?_
    cases t with
    | all v body =>
      obtain ⟨-, hbody⟩ := Ty.over_all_iff.1 hfn
      exact ⟨h₁, hbody.substitute hN (handled_of_names (Ty.over_iff_names.2 ht.1.2))⟩
    | _ => exact meets_fail.2 trivial
  | con name args =>
    refine keeps_instance hN hsig name hc fun t c₁ h₁ hfields hresult => ?_
    split
    next => exact meets_fail.2 trivial
    next =>
      rw [Keeps, Plan.meets_bind]
      refine keeps_call h₁.known ⟨h₁.handled_all hctx, ht, hfields⟩ fun _ c₂ h₂ _ => ?_
      refine keeps_resolve hN h₂.known (Ty.over_arrows ?_ (h₂.handled hresult)) fun t ht => ?_
      · exact fun p hp => h₂.handled (hfields p (List.mem_of_mem_drop hp))
      · exact ⟨h₁.trans h₂, ht⟩
  | case scrutinee branches =>
    simp only [Term.typeNames, List.forall_mem_append] at ht
    rw [inferPlan]
    split
    next => exact meets_fail.2 trivial
    next =>
      rw [Keeps, Plan.meets_bind]
      refine keeps_call hc ⟨hctx, ht.1⟩ fun s c₁ h₁ hs => ?_
      refine keeps_call h₁.known ⟨h₁.handled_all hctx, hs, by simp, ht.2⟩ fun t c₂ h₂ ht => ?_
      exact ⟨h₁.trans h₂, ht⟩
  | letIn name value body =>
    simp only [Term.typeNames, List.forall_mem_append] at ht
    rw [inferPlan, Keeps, Plan.meets_bind]
    refine keeps_call hc ⟨hctx, ht.1⟩ fun s c₁ h₁ hs => ?_
    refine keeps_call h₁.known ⟨List.forall_mem_cons.2 ⟨hs, h₁.handled_all hctx⟩, ht.2⟩
      fun t c₂ h₂ ht => ?_
    exact ⟨h₁.trans h₂, ht⟩
  | int value => exact ⟨hc.follows, Ty.over_prim _⟩
  | string text => exact ⟨hc.follows, Ty.over_prim _⟩
  | prim name =>
    refine meets_primitiveType.2 fun t ht => ⟨hc.follows, ?_⟩
    exact handled_of_names (hsig.primitiveTypes name t ht)
  | tool name args =>
    rw [inferPlan, Keeps, Plan.meets_bind]
    refine keeps_call hc ⟨hctx, ht⟩ fun _ c₁ h₁ _ => ?_
    refine keeps_freshMeta h₁.known fun t c₂ h₂ ht => ?_
    exact ⟨h₁.trans h₂, ht⟩

omit hN in
theorem keeps_inferTypeFunction (ctx : Context) (t : Term)
    (h : (Task.inferTypeFunction ctx t).Starts sig N c) :
    Keeps sig N (inferTypeFunctionPlan sig ctx t) ((Task.inferTypeFunction ctx t).Ends N c) c := by
  obtain ⟨hc, hctx, ht, hparams⟩ := h
  refine meets_inferTypeFunction ?_ (keeps_call hc ⟨hctx, ht⟩ fun t c' h ht => ⟨h, ht⟩)
  rintro name u rfl hu
  refine ⟨hc.follows, ⟨fun v hv => ?_, fun v hv => ?_⟩⟩
  · rw [hsig.closed name u hu] at hv
    exact absurd hv List.not_mem_nil
  · rw [← Ty.alls_splitAlls u] at hv
    rcases Ty.mem_binders_alls.1 hv with hv | hv
    · exact hparams v (List.mem_flatMap.2 ⟨u, Table.mem_values_iff.2 ⟨name, hu⟩, hv⟩)
    · exact hsig.constructorTypes name u hu v hv

omit hsig in
theorem keeps_check (ctx : Context) (t : Term) (expected : Ty)
    (h : (Task.check ctx t expected).Starts sig N c) :
    Keeps sig N (checkPlan ctx t expected) ((Task.check ctx t expected).Ends N c) c := by
  obtain ⟨hc, hctx, ht, hexpected⟩ := h
  have he := hc.resolved hN hexpected
  refine meets_check ?lam ?bare ?tlam ?other
  case lam =>
    rintro declared body param result rfl heq
    rw [heq] at he
    obtain ⟨hparam, hresult⟩ := Ty.over_arrow_iff.1 he
    simp only [Term.typeNames, Option.elim_some, List.forall_mem_append] at ht
    have hdeclared := handled_of_names (n := c.nextMeta) (Ty.over_iff_names.2 ht.1)
    refine keeps_call hc ⟨hparam, hdeclared⟩ fun _ c₁ h₁ _ => ?_
    refine keeps_call h₁.known ⟨List.forall_mem_cons.2
      ⟨h₁.handled hdeclared, h₁.handled_all hctx⟩, ht.2, h₁.handled hresult⟩ fun _ c₂ h₂ _ => ?_
    exact ⟨h₁.trans h₂, trivial⟩
  case bare =>
    rintro body param result rfl heq
    rw [heq] at he
    obtain ⟨hparam, hresult⟩ := Ty.over_arrow_iff.1 he
    exact keeps_call hc ⟨List.forall_mem_cons.2 ⟨hparam, hctx⟩, ht, hresult⟩
      fun _ c₁ h₁ _ => ⟨h₁, trivial⟩
  case tlam =>
    rintro v body w result rfl heq
    rw [heq] at he
    simp only [Term.typeNames, List.forall_mem_cons] at ht
    obtain ⟨hw, hresult⟩ := Ty.over_all_iff.1 he
    refine keeps_call hc ⟨hctx, ht.2, ?_⟩ fun _ c₁ h₁ _ => ⟨h₁, trivial⟩
    rw [underBinder]
    split
    next => exact hresult.mono (fun x hx => hx.elim id fun h => h ▸ .inr hw) fun _ => id
    next => exact hresult.substitute hN (Ty.over_var_iff.2 (.inr ht.1))
  case other =>
    refine keeps_call hc ⟨hctx, ht⟩ fun actual c₁ h₁ hactual => ?_
    refine keeps_call h₁.known ⟨h₁.handled he, hactual⟩ fun _ c₂ h₂ _ => ?_
    exact ⟨h₁.trans h₂, trivial⟩

omit hN hsig in
theorem keeps_checkArgs (ctx : Context) (args : List Term) (fields : List Ty)
    (h : (Task.checkArgs ctx args fields).Starts sig N c) :
    Keeps sig N (checkArgsPlan ctx args fields) ((Task.checkArgs ctx args fields).Ends N c) c := by
  obtain ⟨hc, hctx, hargs, hfields⟩ := h
  cases args with
  | nil => exact ⟨hc.follows, trivial⟩
  | cons arg args =>
    cases fields with
    | nil => exact ⟨hc.follows, trivial⟩
    | cons field fields =>
      simp only [Term.typeNamesAll, List.forall_mem_append] at hargs
      rw [List.forall_mem_cons] at hfields
      rw [checkArgsPlan, Keeps, Plan.meets_bind]
      refine keeps_call hc ⟨hctx, hargs.1, hfields.1⟩ fun _ c₁ h₁ _ => ?_
      refine keeps_call h₁.known ⟨h₁.handled_all hctx, hargs.2, h₁.handled_all hfields.2⟩
        fun _ c₂ h₂ _ => ?_
      exact ⟨h₁.trans h₂, trivial⟩

omit hN hsig in
theorem keeps_inferArgs (ctx : Context) (args : List Term)
    (h : (Task.inferArgs ctx args).Starts sig N c) :
    Keeps sig N (inferArgsPlan ctx args) ((Task.inferArgs ctx args).Ends N c) c := by
  obtain ⟨hc, hctx, hargs⟩ := h
  cases args with
  | nil => exact ⟨hc.follows, trivial⟩
  | cons arg args =>
    simp only [Term.typeNamesAll, List.forall_mem_append] at hargs
    rw [inferArgsPlan, Keeps, Plan.meets_bind]
    refine keeps_call hc ⟨hctx, hargs.1⟩ fun _ c₁ h₁ _ => ?_
    refine keeps_call h₁.known ⟨h₁.handled_all hctx, hargs.2⟩ fun _ c₂ h₂ _ => ?_
    exact ⟨h₁.trans h₂, trivial⟩

theorem keeps_enterBranch (ctx : Context) {scrutinee : Ty} (constructor : String)
    (vars : List String) {Q : Context → Checker → Prop} (hc : c.Over N)
    (hctx : ∀ u ∈ ctx.terms, Handled N c.nextMeta u) (hscrutinee : Handled N c.nextMeta scrutinee)
    (hQ : ∀ inner c', Follows N c c' → (∀ u ∈ inner.terms, Handled N c'.nextMeta u) → Q inner c') :
    Keeps sig N (enterBranchPlan sig ctx scrutinee constructor vars) Q c := by
  refine keeps_instance hN hsig constructor hc fun t c₁ h₁ hfields hresult => ?_
  split
  next => exact meets_fail.2 trivial
  next =>
    rw [Keeps, Plan.meets_bind]
    refine keeps_call h₁.known ⟨hresult, h₁.handled hscrutinee⟩ fun _ c₂ h₂ _ => ?_
    rw [Plan.meets_bind, meets_get]
    refine hQ _ c₂ (h₁.trans h₂) fun u hu => ?_
    rcases List.mem_append.1 hu with hu | hu
    · obtain ⟨f, hf, rfl⟩ := List.mem_map.1 hu
      exact h₂.known.resolved hN (h₂.handled (hfields f hf))
    · exact (h₁.trans h₂).handled (hctx u hu)

omit hsig in
theorem keeps_joinBranch (ctx : Context) {previous : Option Ty} {t : Ty}
    {Q : Ty → Checker → Prop} (hc : c.Over N) (hprevious : ∀ t ∈ previous, Handled N c.nextMeta t)
    (ht : Handled N c.nextMeta t)
    (hQ : ∀ joined c', Follows N c c' → Handled N c'.nextMeta joined → Q joined c') :
    Keeps sig N (joinBranchPlan ctx previous t) Q c := by
  cases previous with
  | none => exact hQ t c hc.follows ht
  | some p =>
    have hp := hprevious p rfl
    rw [joinBranchPlan, Keeps, Plan.meets_bind]
    refine keeps_call hc ⟨hp, ht⟩ fun _ c₁ h₁ _ => ?_
    exact keeps_resolve hN h₁.known (h₁.handled hp) fun joined hjoined => hQ joined c₁ h₁ hjoined

theorem keeps_inferBranches (ctx : Context) (scrutinee : Ty) (previous : Option Ty)
    (branches : List Branch)
    (h : (Task.inferBranches ctx scrutinee previous branches).Starts sig N c) :
    Keeps sig N (inferBranchesPlan sig ctx scrutinee previous branches)
      ((Task.inferBranches ctx scrutinee previous branches).Ends N c) c := by
  obtain ⟨hc, hctx, hscrutinee, hprevious, hbranches⟩ := h
  cases branches with
  | nil =>
    cases previous with
    | some t => exact ⟨hc.follows, hprevious t rfl⟩
    | none => exact meets_fail.2 trivial
  | cons branch branches =>
    obtain ⟨constructor, vars, body⟩ := branch
    simp only [Term.typeNamesBranches, List.forall_mem_append] at hbranches
    rw [inferBranchesPlan, Keeps, Plan.meets_bind]
    refine keeps_enterBranch hN hsig ctx constructor vars hc hctx hscrutinee
      fun inner c₁ h₁ hinner => ?_
    rw [Plan.meets_bind]
    refine keeps_call h₁.known ⟨hinner, hbranches.1⟩ fun t c₂ h₂ ht => ?_
    have h₁₂ := h₁.trans h₂
    rw [Plan.meets_bind]
    refine keeps_joinBranch hN ctx h₂.known (fun t ht => h₁₂.handled (hprevious t ht)) ht
      fun joined c₃ h₃ hjoined => ?_
    have h₁₃ := h₁₂.trans h₃
    refine keeps_call h₃.known ⟨h₁₃.handled_all hctx, h₁₃.handled hscrutinee, ?_, hbranches.2⟩
      fun t c₄ h₄ ht => ⟨h₁₃.trans h₄, ht⟩
    rintro _ ⟨⟩
    exact hjoined

omit hsig in
theorem keeps_unify (ctx : Context) (left right : Ty)
    (h : (Task.unify ctx left right).Starts sig N c) :
    Keeps sig N (unifyPlan ctx left right) ((Task.unify ctx left right).Ends N c) c := by
  obtain ⟨hc, hleft, hright⟩ := h
  rw [unifyPlan, Keeps, Plan.meets_bind, meets_get]
  intro s hs
  refine meets_set.2 ⟨⟨Nat.le_refl _, hc.globals, ?_⟩, trivial⟩
  have hover := (hs.over hN (fun _ => .inr) (hc.resolved hN hleft) (hc.resolved hN hright)).1
  exact hover.compose hc.subst

omit hsig in
theorem keeps_checkBody (d : Definition) {placeholder : Ty} {Q : Ty → Checker → Prop}
    (hc : c.Over N) (hd : ∀ v ∈ d.typeNames sig.paramNames, N v)
    (hplaceholder : Handled N c.nextMeta placeholder)
    (hQ : ∀ t c', Follows N c c' → Handled N c'.nextMeta t → Q t c') :
    Keeps sig N (checkBodyPlan d placeholder) Q c := by
  rw [Definition.typeNames, List.forall_mem_append] at hd
  rw [checkBodyPlan]
  split
  next t htype =>
    rw [htype, Option.elim_some] at hd
    have ht := handled_of_names (n := c.nextMeta) (Ty.over_iff_names.2 hd.1)
    rw [Keeps, Plan.meets_bind]
    exact keeps_call hc ⟨List.forall_mem_nil _, hd.2, ht⟩ fun _ c₁ h₁ _ =>
      hQ t c₁ h₁ (h₁.handled ht)
  next =>
    rw [Keeps, Plan.meets_bind]
    refine keeps_call hc ⟨List.forall_mem_nil _, hd.2⟩ fun t c₁ h₁ ht => ?_
    rw [Plan.meets_bind]
    refine keeps_call h₁.known ⟨h₁.handled hplaceholder, ht⟩ fun _ c₂ h₂ _ => ?_
    exact keeps_resolve hN h₂.known (h₂.handled ht) fun t ht => hQ t c₂ (h₁.trans h₂) ht

omit hsig in
theorem keeps_checkDefinition (d : Definition) (h : (Task.checkDefinition d).Starts sig N c) :
    Keeps sig N (checkDefinitionPlan d) ((Task.checkDefinition d).Ends N c) c := by
  obtain ⟨hc, hd⟩ := h
  have hrest (placeholder : Ty) (c₁ : Checker) (h₁ : Follows N c c₁)
      (hplaceholder : Handled N c₁.nextMeta placeholder) :
      Keeps sig N (do
        Plan.ofCheck (setGlobal d.name placeholder)
        let t ← checkBodyPlan d placeholder
        Plan.ofCheck (setGlobal d.name t)
        return t) ((Task.checkDefinition d).Ends N c) c₁ := by
    rw [Keeps, Plan.meets_bind, meets_setGlobal, Plan.meets_bind]
    refine keeps_checkBody hN d (h₁.known.setGlobal d.name hplaceholder) hd hplaceholder
      fun t c₂ h₂ ht => ?_
    rw [Plan.meets_bind, meets_setGlobal]
    exact ⟨⟨Nat.le_trans h₁.nextMeta h₂.nextMeta, h₂.known.setGlobal d.name ht⟩, ht⟩
  rw [checkDefinitionPlan, placeholderPlan, Keeps, Plan.meets_bind]
  split
  next t htype =>
    rw [Task.Over, Definition.typeNames, List.forall_mem_append, htype, Option.elim_some] at hd
    exact hrest t c hc.follows (handled_of_names (Ty.over_iff_names.2 hd.1))
  next => exact keeps_freshMeta hc hrest

omit hN hsig in
theorem keeps_checkDefinitions (types : Table Ty) (ds : List Definition)
    (h : (Task.checkDefinitions types ds).Starts sig N c) :
    Keeps sig N (checkDefinitionsPlan types ds) ((Task.checkDefinitions types ds).Ends N c) c := by
  obtain ⟨hc, htypes, hds⟩ := h
  cases ds with
  | nil => exact ⟨hc.follows, htypes⟩
  | cons d ds =>
    rw [List.forall_mem_cons] at hds
    rw [checkDefinitionsPlan, Keeps, Plan.meets_bind]
    refine keeps_call hc hds.1 fun t c₁ h₁ ht => ?_
    have hinsert : (types.insert d.name t).All (Handled N c₁.nextMeta) :=
      Table.All.insert (fun name u hu => h₁.handled (htypes name u hu)) d.name ht
    exact keeps_call h₁.known ⟨hinsert, hds.2⟩ fun types c₂ h₂ htypes => ⟨h₁.trans h₂, htypes⟩

/-- Every task keeps to known names. -/
theorem verified_names : Verified sig (fun _ _ => True) (Task.Starts sig N) (Task.Ends N) := by
  intro task c _ h
  cases task with
  | infer ctx t => exact keeps_infer hN hsig ctx t h
  | inferTypeFunction ctx t => exact keeps_inferTypeFunction hsig ctx t h
  | check ctx t expected => exact keeps_check hN ctx t expected h
  | checkArgs ctx args fields => exact keeps_checkArgs ctx args fields h
  | inferArgs ctx args => exact keeps_inferArgs ctx args h
  | inferBranches ctx scrutinee previous branches =>
    exact keeps_inferBranches hN hsig ctx scrutinee previous branches h
  | unify ctx left right => exact keeps_unify hN ctx left right h
  | checkDefinition d => exact keeps_checkDefinition hN d h
  | checkDefinitions types ds => exact keeps_checkDefinitions types ds h

end

end Checker

end PolyLambda
