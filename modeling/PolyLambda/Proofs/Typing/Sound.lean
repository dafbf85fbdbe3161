import PolyLambda.Proofs.Typing.Faithful
import PolyLambda.Proofs.Typing.Judgment

/-!
# Soundness of the checker

In a faithful run every type that is found for a term is a type of the term, whatever the metas are
that are still unknown in the end.

What a task gives is said under every valuation that is a model of the substitution at its end
(`Task.Gives`). Learning more only takes models away (`Learns`), so what an earlier step has given
is not lost by a later one. The one step that is not of this kind is a type abstraction, which needs
the generalization that a faithful run permits (`Generalizes.justifies`).
-/

namespace PolyLambda

/-! ## Instances of constructors -/

namespace Nameless

/-- Whether a type becomes another one when its outermost quantifiers, so many of them, are replaced
by closed types. -/
def Opens : Nat → Nameless → Nameless → Prop
  | 0, t, t' => t = t'
  | n + 1, t, t' => ∃ (b : Nameless) (a : ClosedType), t = .all b ∧ Opens n (openAt a.type 0 b) t'

theorem Opens.exists_under {vars : List String} {b : Ty} {ρ : Valuation} {t : Nameless}
    (h : Opens vars.length ((Ty.alls vars b).under ρ) t) : ∃ ρ' : Valuation, b.under ρ' = t := by
  induction vars generalizing ρ with
  | nil => exact ⟨ρ, h⟩
  | cons v vars ih =>
    obtain ⟨b', a, hall, h⟩ := h
    obtain ⟨body, hbody, hopen⟩ := Ty.exists_under_all ρ v (Ty.alls vars b)
    have hcons : Ty.alls (v :: vars) b = .all v (Ty.alls vars b) := rfl
    rw [hcons, hbody] at hall
    cases hall
    rw [hopen] at h
    exact ih h

/-- A type that is no function type. -/
def NotArrow (t : Nameless) : Prop :=
  ∀ p r, t ≠ .arrow p r

theorem arrows_inj {params params' : List Nameless} {result result' : Nameless}
    (hresult : result.NotArrow) (hresult' : result'.NotArrow)
    (h : arrows params result = arrows params' result') : params = params' ∧ result = result' := by
  induction params generalizing params' with
  | nil =>
    cases params' with
    | nil => exact ⟨rfl, h⟩
    | cons p params' => exact absurd h (hresult _ _)
  | cons p params ih =>
    cases params' with
    | nil => exact absurd h.symm (hresult' _ _)
    | cons p' params' =>
      obtain ⟨rfl, hrest⟩ := Nameless.arrow.inj h
      obtain ⟨rfl, rfl⟩ := ih hrest
      exact ⟨rfl, rfl⟩

theorem arrows_inj_of_length_eq {params params' : List Nameless} {result result' : Nameless}
    (hlength : params.length = params'.length)
    (h : arrows params result = arrows params' result') : params = params' ∧ result = result' := by
  induction params generalizing params' with
  | nil =>
    obtain rfl := List.length_eq_zero_iff.1 hlength.symm
    exact ⟨rfl, h⟩
  | cons p params ih =>
    cases params' with
    | nil => cases hlength
    | cons p' params' =>
      obtain ⟨rfl, hrest⟩ := Nameless.arrow.inj h
      obtain ⟨rfl, rfl⟩ := ih (Nat.succ.inj hlength) hrest
      exact ⟨rfl, rfl⟩

end Nameless

namespace Checker

theorem opens_instanceFrom {n m : Nat} {t : Ty} (h : n = t.splitAlls.1.length) (ρ : Valuation) :
    (t.under ρ).Opens n ((instanceFrom m n t).under ρ) := by
  induction n generalizing m t with
  | zero => cases t <;> exact rfl
  | succ n ih =>
    cases t with
    | all v b =>
      have hn : n = (b.substitute v (.var (metaName m))).splitAlls.1.length := by
        rw [length_splitAlls_substitute_var]
        exact Nat.succ.inj h
      obtain ⟨body, hbody, hopen⟩ := Ty.exists_under_all ρ v b
      refine ⟨body, ρ (metaName m), hbody, ?_⟩
      rw [hopen, ← Ty.under_substitute b v (.var (metaName m)) ρ (Ty.under_var ρ _)]
      exact ih hn
    | _ => cases h

theorem notArrow_splitArrows (t : Ty) : (t.splitArrows.2.under .names).NotArrow := by
  fun_induction Ty.splitArrows t with
  | case1 p r ih => exact ih
  | case2 t ht =>
    cases t with
    | arrow p r => exact absurd rfl (ht p r)
    | var v => rw [Ty.under_var]; rintro _ _ ⟨⟩
    | all v b =>
      obtain ⟨body, hbody, -⟩ := Ty.exists_under_all .names v b
      rw [hbody]
      rintro _ _ ⟨⟩
    | data name args => rw [Ty.under_data]; rintro _ _ ⟨⟩
    | prim name => rw [Ty.under_prim]; rintro _ _ ⟨⟩

/-- What a constructor is instantiated to is an instance of it. -/
theorem exists_instance {sig : Signature} (hsig : sig.WellFormed) {name : String} {t : Ty}
    (ht : sig.constructorTypes.get? name = some t) (m : Nat) (ρ : Valuation) :
    ∃ i : sig.Instance name, (instantiated m t).splitArrows.1.map (Ty.under ρ) = i.fields ∧
      (instantiated m t).splitArrows.2.under ρ = i.result := by
  obtain ⟨d, c, rfl, hclosed⟩ := hsig.constructorTypes name t ht
  have hparams : (d.constructorType c).splitAlls.1 = d.params := by
    rw [d.splitAlls_constructorType]
  have hunder (ρ : Valuation) : ∃ ρ' : Valuation,
      Nameless.arrows (c.fields.map (Ty.under ρ')) (d.result.under ρ') =
        Nameless.arrows ((instantiated m (d.constructorType c)).splitArrows.1.map (Ty.under ρ))
          ((instantiated m (d.constructorType c)).splitArrows.2.under ρ) := by
    have hopens := opens_instanceFrom (m := m) (t := d.constructorType c) rfl ρ
    rw [hparams] at hopens
    obtain ⟨ρ', hρ'⟩ := hopens.exists_under
    refine ⟨ρ', ?_⟩
    rw [← Ty.under_arrows, ← Ty.under_arrows, hρ', Ty.arrows_splitArrows, instantiated, hparams]
  -- The number of fields can be seen where variables are no functions.
  have hlength : c.fields.length = (instantiated m (d.constructorType c)).splitArrows.1.length := by
    obtain ⟨ρ', hρ'⟩ := hunder .names
    have hresult : (d.result.under ρ').NotArrow := by
      rw [DataDecl.result, Ty.under_data]
      rintro _ _ ⟨⟩
    have hfields := (Nameless.arrows_inj hresult (notArrow_splitArrows _) hρ').1
    simpa only [List.length_map] using congrArg List.length hfields
  obtain ⟨ρ', hρ'⟩ := hunder ρ
  obtain ⟨hfields, hresult⟩ := Nameless.arrows_inj_of_length_eq
    (by rw [List.length_map, List.length_map, hlength]) hρ'
  exact ⟨⟨d, c, ρ', ht, hclosed⟩, hfields.symm, hresult.symm⟩

/-! ## What a task is called with, and what it gives -/

/-- The types of the globals where variables stand for what `ρ` says. -/
def globalsUnder (c : Checker) (ρ : Valuation) : String → Option Nameless :=
  fun name => (c.globals.get? name).map (Ty.under ρ)

/-- Whether a checker has gone on from `c` without a change of globals, and has learned only
more. -/
structure Learns (rounds : Nat) (c c' : Checker) : Prop where
  globals : c'.globals = c.globals
  coherent : c'.Coherent rounds
  models : ∀ ρ, Models ρ c'.subst → Models ρ c.subst

section

variable (sig : Signature) (rounds : Nat)

/-- Whether what is known makes `type` the type of a term. -/
def Justifies (c : Checker) (ctx : Context) (t : Term) (type : Ty) : Prop :=
  ∀ ρ, Models ρ c.subst →
    t.HasType sig (c.globalsUnder ρ) (ctx.terms.map (Ty.under ρ)) (type.under ρ)

/-- Whether no term that a task is about calls a tool, and definitions mention no later ones. -/
def Task.Plain : Task → Prop
  | infer _ t | inferTypeFunction _ t | check _ t _ => t.tools = []
  | checkArgs _ args _ => Term.toolsAll args = []
  | inferArgs _ _ => False
  | inferBranches _ _ _ branches => Term.toolsBranches branches = []
  | unify _ _ _ => True
  | checkDefinition d => d.body.tools = []
  | checkDefinitions _ ds => (∃ seen, Definition.Scoped seen ds) ∧ ∀ d ∈ ds, d.body.tools = []

/-- Whether a task is called where what is known can be relied on. -/
def Task.Ready (task : Task) (c : Checker) : Prop :=
  c.Coherent rounds ∧ task.Plain

/-- What a task establishes. -/
def Task.Gives : (task : Task) → Checker → task.Result → Checker → Prop
  | infer ctx t, c, type, c' | inferTypeFunction ctx t, c, type, c' =>
    Learns rounds c c' ∧ c'.Justifies sig ctx t type
  | check ctx t expected, c, _, c' => Learns rounds c c' ∧ c'.Justifies sig ctx t expected
  | checkArgs ctx args fields, c, _, c' =>
    Learns rounds c c' ∧ (args.length ≤ fields.length → ∀ ρ, Models ρ c'.subst →
      Term.HaveTypes sig (c'.globalsUnder ρ) (ctx.terms.map (Ty.under ρ)) args
        ((fields.take args.length).map (Ty.under ρ)))
  | inferArgs _ _, _, _, _ => False
  | inferBranches ctx scrutinee previous branches, c, type, c' =>
    Learns rounds c c' ∧ ∀ ρ, Models ρ c'.subst →
      (∀ t ∈ previous, t.under ρ = type.under ρ) ∧
      Term.BranchesHaveType sig (c'.globalsUnder ρ) (ctx.terms.map (Ty.under ρ))
        (scrutinee.under ρ) branches (type.under ρ)
  | unify _ left right, c, _, c' =>
    Learns rounds c c' ∧ ∀ ρ, Models ρ c'.subst → left.under ρ = right.under ρ
  | checkDefinition d, c, type, c' =>
    c'.globals = c.globals.insert d.name type ∧ c'.Coherent rounds ∧
      (∀ ρ, Models ρ c'.subst → Models ρ c.subst) ∧ c'.Justifies sig .empty d.body type
  | checkDefinitions types ds, c, types', c' =>
    (∀ name ∉ ds.map Definition.name, c'.globals.get? name = c.globals.get? name ∧
        types'.get? name = types.get? name) ∧
      c'.Coherent rounds ∧ (∀ ρ, Models ρ c'.subst → Models ρ c.subst) ∧
      ∀ d ∈ ds, ∃ t, c'.globals.get? d.name = some t ∧ types'.get? d.name = some t ∧
        c'.Justifies sig .empty d.body t

/-- Whether a plan establishes `Q` in a faithful run if what it calls does what it should. -/
abbrev Proves {α : Type} (p : Plan α) (Q : α → Checker → Prop) (c : Checker) : Prop :=
  p.Meets sig (Task.Faithful sig rounds) (Task.Ready rounds) (Task.Gives sig rounds) Q c

end

section

variable {sig : Signature} {rounds : Nat} {c c₁ c' : Checker}

theorem Coherent.learns (h : c.Coherent rounds) : Learns rounds c c :=
  ⟨rfl, h, fun _ => id⟩

theorem Learns.trans (h : Learns rounds c c₁) (h' : Learns rounds c₁ c') : Learns rounds c c' :=
  ⟨h'.globals.trans h.globals, h'.coherent, fun ρ hρ => h.models ρ (h'.models ρ hρ)⟩

theorem Learns.globalsUnder (h : Learns rounds c c') (ρ : Valuation) :
    c'.globalsUnder ρ = c.globalsUnder ρ := by
  funext name
  show (c'.globals.get? name).map _ = (c.globals.get? name).map _
  rw [h.globals]

/-- What is learned later leaves types of terms what they are. -/
theorem Learns.justifies (h : Learns rounds c c') {ctx : Context} {t : Term} {type : Ty}
    (ht : c.Justifies sig ctx t type) : c'.Justifies sig ctx t type := by
  intro ρ hρ
  rw [h.globalsUnder]
  exact ht ρ (h.models ρ hρ)

/-- More metas do no harm. -/
theorem Coherent.addMetas (h : c.Coherent rounds) (n : Nat) :
    Learns rounds c { c with nextMeta := n } :=
  ⟨rfl, h.congr rfl, fun _ => id⟩

theorem proves_call {task : Task} {Q : task.Result → Checker → Prop} (hc : c.Coherent rounds)
    (htask : task.Plain) (hQ : ∀ a c', Returns sig task c a c' → task.Gives sig rounds c a c' →
      Q a c') : Proves sig rounds task.call Q c :=
  meets_call.2 fun _ => ⟨⟨hc, htask⟩, hQ⟩

theorem proves_freshMeta {Q : Ty → Checker → Prop} (hc : c.Coherent rounds)
    (hQ : ∀ t c', Learns rounds c c' → Q t c') :
    Proves sig rounds (Plan.ofCheck freshMeta) Q c :=
  meets_freshMeta.2 (hQ _ _ (hc.addMetas _))

theorem proves_unify {ctx : Context} {left right : Ty} {Q : Unit → Checker → Prop}
    (hc : c.Coherent rounds)
    (hQ : ∀ c', Learns rounds c c' →
      (∀ ρ, Models ρ c'.subst → left.under ρ = right.under ρ) → Q () c') :
    Proves sig rounds (Task.unify ctx left right).call Q c :=
  proves_call hc trivial fun _ c' _ h => hQ c' h.1 h.2

theorem proves_asArrow (ctx : Context) (t : Ty) {Q : Ty × Ty → Checker → Prop}
    (hc : c.Coherent rounds)
    (hQ : ∀ param result c', Learns rounds c c' →
      (∀ ρ, Models ρ c'.subst → t.under ρ = .arrow (param.under ρ) (result.under ρ)) →
      Q (param, result) c') :
    Proves sig rounds (asArrowPlan ctx t) Q c := by
  have hmetas : Learns rounds c { c with nextMeta := c.nextMeta + 2 } := hc.addMetas _
  refine meets_asArrow ?_ (proves_unify hmetas.coherent fun c' h heq => ?_)
  · rintro param result rfl
    exact hQ param result c hc.learns fun ρ _ => Ty.under_arrow ρ _ _
  · refine hQ _ _ c' (hmetas.trans h) fun ρ hρ => ?_
    rw [heq ρ hρ, Ty.under_arrow]

/-- The type of a type abstraction means the same whatever its variable stands for elsewhere. -/
theorem Generalizes.under_eq {ctx : Context} {v : String} {t : Ty}
    (h : Generalizes rounds ctx v t c) (hc : c.Coherent rounds) {ρ : Valuation}
    (hρ : Models ρ c.subst) (a : ClosedType) :
    ∃ ρ' : Valuation, Models ρ' c.subst ∧ ρ' v = a ∧ t.under ρ' = t.under ρ ∧
      ctx.terms.map (Ty.under ρ') = ctx.terms.map (Ty.under ρ) ∧
      c.globalsUnder ρ' = c.globalsUnder ρ := by
  have hsame {u : Ty} (hu : v ∉ (c.settled rounds u).freeVars) :
      u.under (c.valuation rounds (ρ.set v a)) = u.under ρ := by
    rw [← under_settled, ← hρ.under_settled rounds u]
    refine Ty.under_congr fun w hw => ?_
    rw [Valuation.set, if_neg]
    rintro rfl
    exact hu hw
  refine ⟨c.valuation rounds (ρ.set v a), hc.models _, ClosedType.ext ?_, hsame h.type,
    List.map_congr_left fun u hu => hsame (h.locals u hu), funext fun name => ?_⟩
  · show (c.settled rounds (.var v)).under _ = a.type
    rw [h.unsolved, Ty.under_var, Valuation.set, if_pos rfl]
  · show (c.globals.get? name).map _ = (c.globals.get? name).map _
    cases hname : c.globals.get? name with
    | none => rfl
    | some u => exact congrArg some (hsame (h.globals name u hname))

theorem Valuation.set_self {ρ : Valuation} {v : String} {a : ClosedType} (h : ρ v = a) :
    ρ.set v a = ρ := by
  funext w
  rw [Valuation.set]
  split
  next hw => rw [hw, h]
  next => rfl

/-- A type abstraction has the quantified type. -/
theorem Generalizes.justifies {ctx : Context} {v : String} {body : Term} {t : Ty}
    (h : Generalizes rounds ctx v (.all v t) c) (hc : c.Coherent rounds)
    (hbody : c.Justifies sig (ctx.extendType v) body t) :
    c.Justifies sig ctx (.tlam v body) (.all v t) := by
  intro ρ hρ
  obtain ⟨b, hb, -⟩ := Ty.exists_under_all ρ v t
  rw [Term.HasType]
  refine ⟨b, hb, fun a => ?_⟩
  obtain ⟨ρ', hρ', hv, htype, hlocals, hglobals⟩ := h.under_eq hc hρ a
  obtain ⟨b', hb', hopen⟩ := Ty.exists_under_all ρ' v t
  rw [hb, hb', Nameless.all.injEq] at htype
  have hbody' := hbody ρ' hρ'
  rw [hglobals] at hbody'
  rw [← hlocals, ← htype, hopen, Valuation.set_self hv]
  exact hbody'

/-- So it has if that type is expected of it. -/
theorem Generalizes.justifies_expected {ctx : Context} {v w : String} {body : Term}
    {expected t : Ty} (h : Generalizes rounds ctx v expected c) (hc : c.Coherent rounds)
    (hexpected : ∀ ρ, Models ρ c.subst → expected.under ρ = (Ty.all w t).under ρ)
    (hbody : c.Justifies sig (ctx.extendType v) body (underBinder v w t)) :
    c.Justifies sig ctx (.tlam v body) expected := by
  intro ρ hρ
  obtain ⟨b, hb, -⟩ := Ty.exists_under_all ρ w t
  rw [Term.HasType, hexpected ρ hρ]
  refine ⟨b, hb, fun a => ?_⟩
  obtain ⟨ρ', hρ', hv, htype, hlocals, hglobals⟩ := h.under_eq hc hρ a
  obtain ⟨b', hb', hopen⟩ := Ty.exists_under_all ρ' w t
  rw [hexpected ρ' hρ', hexpected ρ hρ, hb, hb', Nameless.all.injEq] at htype
  have hbinder : (underBinder v w t).under ρ' = t.under (ρ'.set w a) := by
    rw [underBinder]
    split
    next hvw => rw [← hvw, Valuation.set_self hv]
    next => exact Ty.under_substitute t w (.var v) ρ' (by rw [Ty.under_var, hv])
  have hbody' := hbody ρ' hρ'
  rw [hglobals, hbinder, ← hopen] at hbody'
  rw [← hlocals, ← htype]
  exact hbody'

theorem Returns.infer_tlam {ctx : Context} {v : String} {body : Term} {t : Ty}
    (h : Returns sig (.infer (ctx.extendType v) body) c t c') :
    Returns sig (.infer ctx (.tlam v body)) c (.all v t) c' :=
  .of_plan id ⟨t, c', h, rfl, rfl⟩

theorem Returns.check_tlam {ctx : Context} {v w : String} {body : Term} {expected t : Ty}
    (hexpected : c.resolved expected = .all w t)
    (h : Returns sig (.check (ctx.extendType v) body (underBinder v w t)) c () c') :
    Returns sig (.check ctx (.tlam v body) expected) c () c' := by
  refine .of_plan id ⟨.all w t, c, ?_, (), c', h, rfl, rfl⟩
  show some (c.resolved expected, c) = _
  rw [hexpected]

end

/-! ## Every task gives what it should -/

section

variable {sig : Signature} {rounds : Nat} {c c' : Checker} (hsig : sig.WellFormed)

section

include hsig

theorem proves_instance (name : String) {α : Type} {p : Ty → Plan α} {Q : α → Checker → Prop}
    (hc : c.Coherent rounds)
    (hp : ∀ t c', Learns rounds c c' →
      (∀ ρ, ∃ i : sig.Instance name, t.splitArrows.1.map (Ty.under ρ) = i.fields ∧
        t.splitArrows.2.under ρ = i.result) → Proves sig rounds (p t) Q c') :
    Proves sig rounds (do
      let t ← Plan.ofCheck (constructorType sig name)
      let t ← Plan.ofCheck (instantiate t)
      p t) Q c :=
  meets_instance.2 fun _ ht =>
    hp _ _ (hc.addMetas _) fun ρ => exists_instance hsig ht c.nextMeta ρ

section

variable {ctx : Context} {fn arg scrutinee : Term} {type : Ty} {name : String} {args : List Term}
  {branches : List Branch}

omit hsig in
theorem proves_app (h : (Task.infer ctx (.app fn arg)).Ready rounds c) :
    Proves sig rounds (inferPlan sig ctx (.app fn arg))
      ((Task.infer ctx (.app fn arg)).Gives sig rounds c) c := by
  obtain ⟨hc, htools⟩ := h
  rw [Task.Plain, Term.tools, List.append_eq_nil_iff] at htools
  rw [inferPlan, Proves, Plan.meets_bind]
  refine proves_call hc htools.1 ?_
  rintro f c₁ _ ⟨h₁, hf⟩
  rw [Plan.meets_bind]
  refine proves_asArrow ctx f h₁.coherent fun param result c₂ h₂ harrow => ?_
  rw [Plan.meets_bind]
  refine proves_call h₂.coherent htools.2 ?_
  rintro _ c₃ _ ⟨h₃, harg⟩
  refine meets_resolve.2 ⟨(h₁.trans h₂).trans h₃, fun ρ hρ => ?_⟩
  have hfn := (h₂.trans h₃).justifies hf ρ hρ
  rw [harrow ρ (h₃.models ρ hρ)] at hfn
  rw [Term.HasType, hρ.under_resolved]
  exact ⟨_, hfn, harg ρ hρ⟩

omit hsig in
theorem proves_tapp (h : (Task.infer ctx (.tapp fn type)).Ready rounds c) :
    Proves sig rounds (inferPlan sig ctx (.tapp fn type))
      ((Task.infer ctx (.tapp fn type)).Gives sig rounds c) c := by
  obtain ⟨hc, htools⟩ := h
  rw [inferPlan, Proves, Plan.meets_bind]
  refine proves_call hc htools ?_
  rintro t c₁ _ ⟨h₁, hfn⟩
  cases t with
  | all v body =>
    refine ⟨h₁, fun ρ hρ => ?_⟩
    obtain ⟨b, hb, hopen⟩ := Ty.exists_under_all ρ v body
    have hfn := hfn ρ hρ
    rw [hb] at hfn
    rw [Term.HasType, Ty.under_substitute body v type ρ (a := type.closed ρ) rfl, ← hopen]
    exact ⟨b, type.closed ρ, rfl, hfn⟩
  | _ => exact meets_fail.2 trivial

theorem proves_con (h : (Task.infer ctx (.con name args)).Ready rounds c) :
    Proves sig rounds (inferPlan sig ctx (.con name args))
      ((Task.infer ctx (.con name args)).Gives sig rounds c) c := by
  obtain ⟨hc, htools⟩ := h
  refine proves_instance hsig name hc fun t c₁ h₁ hinstance => ?_
  split
  next => exact meets_fail.2 trivial
  next hlength =>
    rw [Proves, Plan.meets_bind]
    refine proves_call h₁.coherent htools ?_
    rintro _ c₂ _ ⟨h₂, hargs⟩
    refine meets_resolve.2 ⟨h₁.trans h₂, fun ρ hρ => ?_⟩
    have hargs := hargs (Nat.not_lt.1 hlength) ρ hρ
    obtain ⟨i, hfields, hresult⟩ := hinstance ρ
    rw [List.map_take, hfields] at hargs
    rw [Term.HasType, hρ.under_resolved, Ty.under_arrows, List.map_drop, hfields, hresult]
    refine ⟨i, [], .inl rfl, (i.partialType_nil _).symm, ?_, hargs⟩
    rw [← hfields, List.length_map]
    exact Nat.not_lt.1 hlength

omit hsig in
theorem proves_case (h : (Task.infer ctx (.case scrutinee branches)).Ready rounds c) :
    Proves sig rounds (inferPlan sig ctx (.case scrutinee branches))
      ((Task.infer ctx (.case scrutinee branches)).Gives sig rounds c) c := by
  obtain ⟨hc, htools⟩ := h
  rw [Task.Plain, Term.tools, List.append_eq_nil_iff] at htools
  rw [inferPlan]
  split
  next => exact meets_fail.2 trivial
  next hbranches =>
    rw [Proves, Plan.meets_bind]
    refine proves_call hc htools.1 ?_
    rintro s c₁ _ ⟨h₁, hs⟩
    refine proves_call h₁.coherent htools.2 ?_
    rintro t c₂ _ ⟨h₂, ht⟩
    refine ⟨h₁.trans h₂, fun ρ hρ => ?_⟩
    rw [Term.HasType]
    refine ⟨s.under ρ, ?_, h₂.justifies hs ρ hρ, (ht ρ hρ).2⟩
    rintro rfl
    exact hbranches rfl

end

theorem proves_infer (ctx : Context) (t : Term)
    (hfaithful : (Task.infer ctx t).Faithful sig rounds c)
    (h : (Task.infer ctx t).Ready rounds c) :
    Proves sig rounds (inferPlan sig ctx t) ((Task.infer ctx t).Gives sig rounds c) c := by
  obtain ⟨hc, htools⟩ := id h
  rw [Task.Plain] at htools
  cases t with
  | var index =>
    rw [inferPlan]
    cases hindex : ctx.type? index with
    | some u =>
      refine meets_resolve.2 ⟨hc.learns, fun ρ hρ => ?_⟩
      rw [Term.HasType, hρ.under_resolved, List.getElem?_map, show ctx.terms[index]? =
        _ from hindex,
        Option.map_some]
    | none => exact meets_fail.2 trivial
  | global name =>
    refine meets_globalType.2 fun t ht => ⟨hc.learns, fun ρ hρ => ?_⟩
    rw [Term.HasType, hρ.under_resolved, globalsUnder, ht, Option.map_some]
  | lam type body =>
    cases type with
    | some param =>
      rw [inferPlan, Proves, Plan.meets_bind]
      refine proves_call hc htools ?_
      rintro result c₁ _ ⟨h₁, hbody⟩
      refine meets_resolve.2 ⟨h₁, fun ρ hρ => ?_⟩
      rw [Term.HasType, hρ.under_resolved, Ty.under_arrow]
      exact ⟨_, _, rfl, hbody ρ hρ⟩
    | none => exact meets_fail.2 trivial
  | app fn arg => exact proves_app h
  | tlam v body =>
    rw [inferPlan, Proves, Plan.meets_bind]
    refine proves_call hc htools ?_
    rintro t c₁ hreturns ⟨h₁, hbody⟩
    refine ⟨h₁, ?_⟩
    exact (hfaithful _ _ hreturns.infer_tlam).justifies h₁.coherent hbody
  | tapp fn type => exact proves_tapp h
  | con name args => exact proves_con hsig h
  | case scrutinee branches => exact proves_case h
  | letIn name value body =>
    rw [Term.tools, List.append_eq_nil_iff] at htools
    rw [inferPlan, Proves, Plan.meets_bind]
    refine proves_call hc htools.1 ?_
    rintro s c₁ _ ⟨h₁, hs⟩
    refine proves_call h₁.coherent htools.2 ?_
    rintro t c₂ _ ⟨h₂, ht⟩
    refine ⟨h₁.trans h₂, fun ρ hρ => ?_⟩
    rw [Term.HasType]
    exact ⟨s.under ρ, h₂.justifies hs ρ hρ, ht ρ hρ⟩
  | int value =>
    refine ⟨hc.learns, fun ρ _ => ?_⟩
    rw [Term.HasType]
    exact Ty.under_prim ρ _
  | string text =>
    refine ⟨hc.learns, fun ρ _ => ?_⟩
    rw [Term.HasType]
    exact Ty.under_prim ρ _
  | prim name =>
    refine meets_primitiveType.2 fun t ht => ⟨hc.learns, fun ρ _ => ?_⟩
    rw [Term.HasType]
    refine ⟨t, ht, Ty.under_congr fun v hv => ?_⟩
    rw [hsig.primitiveTypes name t ht] at hv
    exact absurd hv List.not_mem_nil
  | tool name args => cases htools

theorem proves_inferTypeFunction (ctx : Context) (t : Term)
    (h : (Task.inferTypeFunction ctx t).Ready rounds c) :
    Proves sig rounds (inferTypeFunctionPlan sig ctx t)
      ((Task.inferTypeFunction ctx t).Gives sig rounds c) c := by
  obtain ⟨hc, htools⟩ := h
  refine meets_inferTypeFunction ?_ (proves_call hc htools fun t c' _ h => h)
  rintro name u rfl hu
  refine ⟨hc.learns, fun ρ _ => ?_⟩
  obtain ⟨d, constructor, rfl, hclosed⟩ := hsig.constructorTypes name u hu
  rw [Term.HasType]
  exact ⟨⟨d, constructor, ρ, hu, hclosed⟩, d.params, .inr rfl, rfl, Nat.zero_le _, rfl⟩

end

theorem proves_check (ctx : Context) (t : Term) (expected : Ty)
    (hfaithful : (Task.check ctx t expected).Faithful sig rounds c)
    (h : (Task.check ctx t expected).Ready rounds c) :
    Proves sig rounds (checkPlan ctx t expected) ((Task.check ctx t expected).Gives sig rounds c)
      c := by
  obtain ⟨hc, htools⟩ := h
  rw [Task.Plain] at htools
  have hresolved (ρ : Valuation) (hρ : Models ρ c.subst) :
      expected.under ρ = (c.resolved expected).under ρ := (hρ.under_resolved expected).symm
  refine meets_check ?lam ?bare ?tlam ?other
  case lam =>
    rintro declared body param result rfl he
    rw [he] at hresolved
    refine proves_unify hc fun c₁ h₁ heq => ?_
    refine proves_call h₁.coherent htools ?_
    rintro _ c₂ _ ⟨h₂, hbody⟩
    refine ⟨h₁.trans h₂, fun ρ hρ => ?_⟩
    rw [Term.HasType, hresolved ρ ((h₁.trans h₂).models ρ hρ), Ty.under_arrow,
      heq ρ (h₂.models ρ hρ)]
    exact ⟨_, _, rfl, hbody ρ hρ⟩
  case bare =>
    rintro body param result rfl he
    rw [he] at hresolved
    refine proves_call hc htools ?_
    rintro _ c₁ _ ⟨h₁, hbody⟩
    refine ⟨h₁, fun ρ hρ => ?_⟩
    rw [Term.HasType, hresolved ρ (h₁.models ρ hρ), Ty.under_arrow]
    exact ⟨_, _, rfl, hbody ρ hρ⟩
  case tlam =>
    rintro v body w result rfl he
    rw [he] at hresolved
    refine proves_call hc htools ?_
    rintro _ c₁ hreturns ⟨h₁, hbody⟩
    refine ⟨h₁, ?_⟩
    exact (hfaithful _ (hreturns.check_tlam he)).justifies_expected h₁.coherent
      (fun ρ hρ => hresolved ρ (h₁.models ρ hρ)) hbody
  case other =>
    refine proves_call hc htools ?_
    rintro actual c₁ _ ⟨h₁, ht⟩
    refine proves_unify h₁.coherent fun c₂ h₂ heq => ⟨h₁.trans h₂, fun ρ hρ => ?_⟩
    rw [hresolved ρ ((h₁.trans h₂).models ρ hρ), heq ρ hρ]
    exact h₂.justifies ht ρ hρ

theorem proves_checkArgs (ctx : Context) (args : List Term) (fields : List Ty)
    (h : (Task.checkArgs ctx args fields).Ready rounds c) :
    Proves sig rounds (checkArgsPlan ctx args fields)
      ((Task.checkArgs ctx args fields).Gives sig rounds c) c := by
  obtain ⟨hc, htools⟩ := h
  cases args with
  | nil => exact ⟨hc.learns, fun _ ρ _ => rfl⟩
  | cons arg args =>
    cases fields with
    | nil => exact ⟨hc.learns, nofun⟩
    | cons field fields =>
      rw [Task.Plain, Term.toolsAll, List.append_eq_nil_iff] at htools
      rw [checkArgsPlan, Proves, Plan.meets_bind]
      refine proves_call hc htools.1 ?_
      rintro _ c₁ _ ⟨h₁, harg⟩
      refine proves_call h₁.coherent htools.2 ?_
      rintro _ c₂ _ ⟨h₂, hargs⟩
      refine ⟨h₁.trans h₂, fun hlength ρ hρ => ?_⟩
      rw [Term.HaveTypes]
      exact ⟨_, _, rfl, h₂.justifies harg ρ hρ, hargs (Nat.le_of_succ_le_succ hlength) ρ hρ⟩

include hsig in
theorem proves_enterBranch (ctx : Context) (scrutinee : Ty) (constructor : String)
    (vars : List String) {Q : Context → Checker → Prop} (hc : c.Coherent rounds)
    (hQ : ∀ inner c', Learns rounds c c' →
      (∀ ρ, Models ρ c'.subst → ∃ i : sig.Instance constructor, i.result = scrutinee.under ρ ∧
        i.fields.length = vars.length ∧
        inner.terms.map (Ty.under ρ) = i.fields ++ ctx.terms.map (Ty.under ρ)) → Q inner c') :
    Proves sig rounds (enterBranchPlan sig ctx scrutinee constructor vars) Q c := by
  refine proves_instance hsig constructor hc fun t c₁ h₁ hinstance => ?_
  split
  next => exact meets_fail.2 trivial
  next hlength =>
    rw [Proves, Plan.meets_bind]
    refine proves_unify h₁.coherent fun c₂ h₂ heq => ?_
    rw [Plan.meets_bind, meets_get]
    refine hQ _ c₂ (h₁.trans h₂) fun ρ hρ => ?_
    obtain ⟨i, hfields, hresult⟩ := hinstance ρ
    refine ⟨i, by rw [← hresult, heq ρ hρ], ?_, ?_⟩
    · rw [← hfields, List.length_map]
      exact not_ne_iff.1 hlength
    · rw [← hfields, Context.extendAll, List.map_append, List.map_map]
      congr 1
      exact List.map_congr_left fun u _ => hρ.under_resolved u

theorem proves_joinBranch (ctx : Context) (previous : Option Ty) (t : Ty)
    {Q : Ty → Checker → Prop} (hc : c.Coherent rounds)
    (hQ : ∀ joined c', Learns rounds c c' → (∀ ρ, Models ρ c'.subst →
      t.under ρ = joined.under ρ ∧ ∀ p ∈ previous, p.under ρ = joined.under ρ) → Q joined c') :
    Proves sig rounds (joinBranchPlan ctx previous t) Q c := by
  cases previous with
  | none => exact hQ t c hc.learns fun ρ _ => ⟨rfl, by simp⟩
  | some p =>
    rw [joinBranchPlan, Proves, Plan.meets_bind]
    refine proves_unify hc fun c₁ h₁ heq => ?_
    refine meets_resolve.2 (hQ _ c₁ h₁ fun ρ hρ => ?_)
    rw [hρ.under_resolved]
    refine ⟨(heq ρ hρ).symm, ?_⟩
    rintro _ ⟨⟩
    rfl

include hsig in
theorem proves_inferBranches (ctx : Context) (scrutinee : Ty) (previous : Option Ty)
    (branches : List Branch)
    (h : (Task.inferBranches ctx scrutinee previous branches).Ready rounds c) :
    Proves sig rounds (inferBranchesPlan sig ctx scrutinee previous branches)
      ((Task.inferBranches ctx scrutinee previous branches).Gives sig rounds c) c := by
  obtain ⟨hc, htools⟩ := h
  cases branches with
  | nil =>
    cases previous with
    | some t =>
      refine ⟨hc.learns, fun ρ _ => ⟨?_, trivial⟩⟩
      rintro _ ⟨⟩
      rfl
    | none => exact meets_fail.2 trivial
  | cons branch branches =>
    obtain ⟨constructor, vars, body⟩ := branch
    rw [Task.Plain, Term.toolsBranches, List.append_eq_nil_iff] at htools
    rw [inferBranchesPlan, Proves, Plan.meets_bind]
    refine proves_enterBranch hsig ctx scrutinee constructor vars hc fun inner c₁ h₁ hinner => ?_
    rw [Plan.meets_bind]
    refine proves_call h₁.coherent htools.1 ?_
    rintro t c₂ _ ⟨h₂, ht⟩
    rw [Plan.meets_bind]
    refine proves_joinBranch ctx previous t h₂.coherent fun joined c₃ h₃ hjoined => ?_
    refine proves_call h₃.coherent htools.2 ?_
    rintro type c₄ _ ⟨h₄, hbranches⟩
    refine ⟨((h₁.trans h₂).trans h₃).trans h₄, fun ρ hρ => ?_⟩
    obtain ⟨hrest, hbranches⟩ := hbranches ρ hρ
    obtain ⟨htype, hprevious⟩ := hjoined ρ (h₄.models ρ hρ)
    have hjoin := hrest joined rfl
    refine ⟨fun p hp => (hprevious p hp).trans hjoin, ?_⟩
    have hbody := (h₃.trans h₄).justifies ht ρ hρ
    obtain ⟨i, hresult, hlength, hlocals⟩ := hinner ρ (((h₂.trans h₃).trans h₄).models ρ hρ)
    rw [htype, hjoin, hlocals] at hbody
    rw [Term.BranchesHaveType]
    exact ⟨⟨i, hresult, hlength, hbody⟩, hbranches⟩

theorem proves_unifyPlan (ctx : Context) (left right : Ty)
    (hfaithful : (Task.unify ctx left right).Faithful sig rounds c) :
    Proves sig rounds (unifyPlan ctx left right) ((Task.unify ctx left right).Gives sig rounds c)
      c := by
  rw [unifyPlan, Proves, Plan.meets_bind, meets_get]
  intro s hs
  refine meets_set.2 ?_
  obtain ⟨hcoherent, hequal⟩ := hfaithful _ (returns_unify_iff.2 ⟨s, hs, rfl⟩)
  refine ⟨⟨rfl, hcoherent, fun ρ hρ => (models_compose_iff.1 hρ).1⟩, fun ρ hρ => ?_⟩
  rw [← Models.under_settled (c := { c with subst := s.compose c.subst }) hρ rounds left,
    Ty.under_eq_of_nameless_eq hequal ρ]
  exact Models.under_settled (c := { c with subst := s.compose c.subst }) hρ rounds right

/-- The global's own type has changed only its form. -/
theorem justifies_setGlobal {name : String} {placeholder type : Ty} {globals : Table Ty} {t : Term}
    {u : Ty} (hglobals : c.globals = globals.insert name placeholder)
    (h : c.Justifies sig .empty t u)
    (heq : ∀ ρ, Models ρ c.subst → placeholder.under ρ = type.under ρ) :
    Justifies sig { c with globals := c.globals.insert name type } .empty t u := by
  intro ρ hρ
  have hsame : globalsUnder { c with globals := c.globals.insert name type } ρ =
      c.globalsUnder ρ := by
    funext other
    show ((c.globals.insert name type).get? other).map _ = (c.globals.get? other).map _
    rw [Table.get?_insert]
    split
    next hother =>
      rw [hother, hglobals, Table.get?_insert, if_pos rfl, Option.map_some, Option.map_some,
        heq ρ hρ]
    next => rfl
  rw [hsame]
  exact h ρ hρ

theorem proves_checkBody (d : Definition) (placeholder : Ty) {Q : Ty → Checker → Prop}
    (hc : c.Coherent rounds) (htools : d.body.tools = [])
    (hplaceholder : ∀ t ∈ d.type, t = placeholder)
    (hQ : ∀ t c', Learns rounds c c' → c'.Justifies sig .empty d.body t →
      (∀ ρ, Models ρ c'.subst → placeholder.under ρ = t.under ρ) → Q t c') :
    Proves sig rounds (checkBodyPlan d placeholder) Q c := by
  rw [checkBodyPlan]
  split
  next t htype =>
    obtain rfl := hplaceholder t htype
    rw [Proves, Plan.meets_bind]
    refine proves_call hc htools ?_
    rintro _ c₁ _ ⟨h₁, hbody⟩
    exact hQ t c₁ h₁ hbody fun _ _ => rfl
  next =>
    rw [Proves, Plan.meets_bind]
    refine proves_call hc htools ?_
    rintro t c₁ _ ⟨h₁, hbody⟩
    rw [Plan.meets_bind]
    refine proves_unify h₁.coherent fun c₂ h₂ heq => meets_resolve.2 ?_
    refine hQ _ c₂ (h₁.trans h₂) (fun ρ hρ => ?_) fun ρ hρ => ?_
    · rw [hρ.under_resolved]
      exact h₂.justifies hbody ρ hρ
    · rw [hρ.under_resolved]
      exact heq ρ hρ

theorem proves_checkDefinition (d : Definition)
    (h : (Task.checkDefinition d).Ready rounds c) :
    Proves sig rounds (checkDefinitionPlan d) ((Task.checkDefinition d).Gives sig rounds c) c := by
  obtain ⟨hc, htools⟩ := h
  have hrest (placeholder : Ty) (c₁ : Checker) (h₁ : Learns rounds c c₁)
      (hplaceholder : ∀ t ∈ d.type, t = placeholder) :
      Proves sig rounds (do
        Plan.ofCheck (setGlobal d.name placeholder)
        let t ← checkBodyPlan d placeholder
        Plan.ofCheck (setGlobal d.name t)
        return t) ((Task.checkDefinition d).Gives sig rounds c) c₁ := by
    rw [Proves, Plan.meets_bind, meets_setGlobal, Plan.meets_bind]
    refine proves_checkBody d placeholder (h₁.coherent.congr rfl) htools hplaceholder
      fun t c₂ h₂ hbody heq => ?_
    rw [Plan.meets_bind, meets_setGlobal]
    have hglobals : c₂.globals = c.globals.insert d.name placeholder := by
      rw [h₂.globals, h₁.globals]
    refine ⟨?_, h₂.coherent.congr rfl, fun ρ hρ => h₁.models ρ (h₂.models ρ hρ),
      justifies_setGlobal hglobals hbody heq⟩
    show c₂.globals.insert d.name t = _
    rw [hglobals, Table.insert_insert]
  rw [checkDefinitionPlan, placeholderPlan, Proves, Plan.meets_bind]
  split
  next t htype =>
    refine hrest t c hc.learns fun u hu => ?_
    rw [htype] at hu
    exact (Option.some.inj hu).symm
  next htype =>
    refine proves_freshMeta hc fun t c₁ h₁ => hrest t c₁ h₁ fun u hu => ?_
    rw [htype] at hu
    cases hu

theorem proves_checkDefinitions (types : Table Ty) (ds : List Definition)
    (h : (Task.checkDefinitions types ds).Ready rounds c) :
    Proves sig rounds (checkDefinitionsPlan types ds)
      ((Task.checkDefinitions types ds).Gives sig rounds c) c := by
  obtain ⟨hc, ⟨seen, hscoped⟩, htools⟩ := h
  cases ds with
  | nil => exact ⟨fun _ _ => ⟨rfl, rfl⟩, hc, fun _ => id, List.forall_mem_nil _⟩
  | cons d ds =>
    obtain ⟨hd, hmentions, hscoped⟩ := hscoped
    rw [List.forall_mem_cons] at htools
    rw [checkDefinitionsPlan, Proves, Plan.meets_bind]
    refine proves_call hc htools.1 ?_
    rintro t c₁ _ ⟨hglobals, h₁, hmodels, hbody⟩
    refine proves_call h₁ ⟨⟨_, hscoped⟩, htools.2⟩ ?_
    rintro types' c₂ _ ⟨hsame, h₂, hmodels', hbodies⟩
    have hother {name : String} (hname : name ∈ d.name :: seen) :
        c₂.globals.get? name = c₁.globals.get? name ∧
          types'.get? name = (types.insert d.name t).get? name := by
      refine hsame name fun hmem => ?_
      obtain ⟨d', hd', rfl⟩ := List.mem_map.1 hmem
      exact hscoped.name_not_mem hd' hname
    obtain ⟨hglobal, htype⟩ := hother List.mem_cons_self
    refine ⟨fun name hname => ?_, h₂, fun ρ hρ => hmodels ρ (hmodels' ρ hρ),
      List.forall_mem_cons.2 ⟨⟨t, ?_, ?_, fun ρ hρ => ?_⟩, hbodies⟩⟩
    · rw [List.map_cons, List.mem_cons, not_or] at hname
      obtain ⟨hglobal, htype⟩ := hsame name hname.2
      rw [hglobal, htype, hglobals, Table.get?_insert, Table.get?_insert, if_neg hname.1,
        if_neg hname.1]
      exact ⟨rfl, rfl⟩
    · rw [hglobal, hglobals, Table.get?_insert, if_pos rfl]
    · rw [htype, Table.get?_insert, if_pos rfl]
    · refine Term.HasType.mono d.body (fun name hname u hu => ?_) (hbody ρ (hmodels' ρ hρ))
      rwa [globalsUnder, (hother (hmentions name hname)).1]

include hsig in
/-- In a faithful run every task gives what it should. -/
theorem verified_types :
    Verified sig (Task.Faithful sig rounds) (Task.Ready rounds) (Task.Gives sig rounds) := by
  intro task c hfaithful h
  cases task with
  | infer ctx t => exact proves_infer hsig ctx t hfaithful h
  | inferTypeFunction ctx t => exact proves_inferTypeFunction hsig ctx t h
  | check ctx t expected => exact proves_check ctx t expected hfaithful h
  | checkArgs ctx args fields => exact proves_checkArgs ctx args fields h
  | inferArgs ctx args => exact h.2.elim
  | inferBranches ctx scrutinee previous branches =>
    exact proves_inferBranches hsig ctx scrutinee previous branches h
  | unify ctx left right => exact proves_unifyPlan ctx left right hfaithful
  | checkDefinition d => exact proves_checkDefinition d h
  | checkDefinitions types ds => exact proves_checkDefinitions types ds h

end

end Checker

end PolyLambda
