import PolyLambda.Module.Prelude
import PolyLambda.Module.OfSurface
import PolyLambda.Proofs.Typing.Complete

/-!
# Principal types

Inference on simple types comes to an end. It succeeds on a term exactly if some substitution that
knows what the checker knows gives the term a type by the rules, and then what it has learned and
the type that it returns are most general. Two things are taken for granted: names of metas are not
used for type variables before the metas are handed out, and type variables in scope stand for
themselves.
-/

namespace PolyLambda

namespace Checker

/-- Whether a substitution that goes beyond what the checker knows, but leaves type variables in
scope alone, gives a term a type. -/
structure Typing (sig : Signature) (ctx : Context) (c : Checker) (t : Term) (θ : Substitution)
    (type : Ty) : Prop where
  factors : θ.FactorsThrough c.subst
  respects : θ.Respects ctx.hasTypeVar
  hasType : t.HasTypeUnder sig c.globals θ (ctx.terms.map θ.apply) type

section

variable {sig : Signature} {ctx : Context} {c c' : Checker} {t : Term}
    {θ : Substitution} {type : Ty}

theorem Regular.absorbs (hc : c.Regular) (h : θ.FactorsThrough c.subst) : θ.Absorbs c.subst :=
  h.absorbs (fun v => hc.quantifierFree_resolved (Ty.quantifierFree_var v))
    fun v => hc.idempotent (.var v)

theorem Typing.admits (hc : c.Regular) (h : Typing sig ctx c t θ type) :
    Admits ctx.typeVars c θ where
  fixes v hv := h.respects v (Context.hasTypeVar_iff.2 hv)
  absorbs := hc.absorbs h.factors

/-- What a checker knows itself. -/
theorem Regular.admits_subst (hc : c.Regular) {vars : List String}
    (hvars : ∀ v ∈ vars, v ∉ c.subst.names) : Admits vars c c.subst where
  fixes v hv := Substitution.apply_var_eq_self (hvars v hv)
  absorbs v := hc.idempotent (.var v)

/-- The type that is returned is that of the term, as far as it is known. -/
theorem Returns.typing (hsig : sig.Simple) (htask : (Task.infer ctx t).Simple sig c)
    (h : Returns sig (.infer ctx t) c type c') : Typing sig ctx c t c'.subst type := by
  obtain ⟨hadv, hfilled, hfound⟩ := h.finds hsig htask
  have hadmits := (hadv.reached.regular hsig).admits_subst hadv.scope
  have htype := hfound c'.subst hadmits
  rw [Task.under, show c'.subst.apply type = type from Filled.resolved hfilled] at htype
  exact ⟨(hadv.admits _ hadmits).absorbs.factorsThrough, hadmits.respects, htype⟩

/-- And it is the most general one. -/
theorem Returns.exists_instance (hsig : sig.Simple) (htask : (Task.infer ctx t).Simple sig c)
    (h : Returns sig (.infer ctx t) c type c') {u : Ty} (hu : Typing sig ctx c t θ u) :
    ∃ q : Substitution, (∀ v, (∀ i, c.nextMeta ≤ i → i < c'.nextMeta → v ≠ metaName i) →
      θ.apply (.var v) = q.apply (c'.subst.apply (.var v))) ∧ u = q.apply type := by
  have hregular := htask.1.reached.regular hsig
  obtain ⟨a, c₁, θ', hreturns, hcarries, ha⟩ :=
    completes hsig (.infer ctx t) c θ u htask (hu.admits hregular) hu.hasType
  obtain ⟨limit, hlimit⟩ := h
  obtain ⟨rfl, rfl⟩ := Prod.mk.inj (Option.some.inj (hreturns.outcome? hlimit))
  refine ⟨θ', fun v hv => ?_, ha.symm⟩
  rw [← hcarries.agree v hv]
  exact (hcarries.knows.absorbs v).symm

/-- For all limits from some point on inference returns a type or an error: a type exactly if the
term has one in some extension of what is known; and then what is known afterwards gives the term
the type that is returned, and every other extension and type of the term are an instance of these,
but for the metas that were handed out on the way. -/
theorem infer_principal (hsig : sig.Simple) (hc : Reached sig c)
    (hlocals : ∀ u ∈ ctx.terms, Usable c.nextMeta u)
    (hscope : ∀ v ∈ ctx.typeVars, c.resolved (.var v) = .var v ∧ Present c.nextMeta v)
    (ht : t.isSimple = true) (hvars : ∀ v ∈ t.freeTypeVars, Present c.nextMeta v) :
    ∃ bound, ∀ limit ≥ bound, ∃ r c', (infer sig limit ctx t).outcome? c = some (r, c') ∧
      ((∃ type, r = .ok type) ↔ ∃ θ type, Typing sig ctx c t θ type) ∧
      ∀ type, r = .ok type → Reached sig c' ∧ Typing sig ctx c t c'.subst type ∧
        ∀ θ u, Typing sig ctx c t θ u → ∃ q : Substitution,
          (∀ v, (∀ i, c.nextMeta ≤ i → i < c'.nextMeta → v ≠ metaName i) →
            θ.apply (.var v) = q.apply (c'.subst.apply (.var v))) ∧ u = q.apply type := by
  have hregular := hc.regular hsig
  have hunsolved (v : String) (hv : v ∈ ctx.typeVars) : v ∉ c.subst.names := by
    refine hregular.finished.eliminates (.var v) v ?_
    rw [show c.subst.apply (.var v) = .var v from (hscope v hv).1]
    exact List.mem_cons_self
  have htask : (Task.infer ctx t).Simple sig c :=
    ⟨⟨hc, hlocals, fun v hv => ⟨hunsolved v hv, (hscope v hv).2⟩⟩, ht, hvars⟩
  -- Simple tasks end, and a higher limit changes nothing about how.
  obtain ⟨bound, hbound⟩ := halts_of_simple hsig htask
  obtain ⟨x, hx⟩ := Option.ne_none_iff_exists'.1 hbound
  refine ⟨bound, fun limit hle => ?_⟩
  have houtcome : ((infer sig limit ctx t).outcome? c).map success = some x := outcome?_mono hle hx
  obtain ⟨⟨r, c'⟩, hr, rfl⟩ := Option.map_eq_some_iff.1 houtcome
  have hreturns {type : Ty} (h : r = .ok type) : Returns sig (.infer ctx t) c type c' :=
    ⟨limit, houtcome.trans (by rw [h]; rfl)⟩
  refine ⟨r, c', hr, ⟨?_, ?_⟩, fun type h => ⟨?_, (hreturns h).typing hsig htask, fun θ u hu => ?_⟩⟩
  · rintro ⟨type, h⟩
    exact ⟨c'.subst, type, (hreturns h).typing hsig htask⟩
  · rintro ⟨θ, u, hu⟩
    obtain ⟨a, c₁, θ', ha, -⟩ :=
      completes hsig (.infer ctx t) c θ u htask (hu.admits hregular) hu.hasType
    cases r with
    | ok type => exact ⟨type, rfl⟩
    | error e => cases ha.outcome? houtcome
  · exact ((hreturns h).finds hsig htask).1.reached
  · exact (hreturns h).exists_instance hsig htask hu

end

/-! ## Lists -/

/-- What every program starts with, and lists. -/
def listSignature : Signature :=
  Prelude.signature.withData
    ⟨"List", ["a"], [⟨"Nil", []⟩, ⟨"Cons", [.var "a", .data "List" [.var "a"]]⟩]⟩

theorem simple_listSignature : listSignature.Simple where
  closed := Module.closed_withData Module.closed_prelude (by decide)
  constructorTypes := Table.all_iff_values.2 (by decide)
  globalTypes := Table.all_empty
  primitiveTypes := Table.all_iff_values.2 (by decide)

theorem constructs_nil (t : Ty) : listSignature.Constructs "Nil" [] (.data "List" [t]) := by
  refine ⟨.all "a" (.data "List" [.var "a"]), .singleton "a" t, by decide, rfl, ?_⟩
  show _ = (Substitution.singleton "a" t).apply (.data "List" [.var "a"])
  rw [Substitution.apply_data, List.map_singleton, Ty.apply_singleton_var, if_pos rfl]

theorem constructs_cons (t : Ty) :
    listSignature.Constructs "Cons" [t, .data "List" [t]] (.data "List" [t]) := by
  refine ⟨.all "a" (.arrow (.var "a") (.arrow (.data "List" [.var "a"]) (.data "List" [.var "a"]))),
    .singleton "a" t, by decide, ?_, ?_⟩
  · show _ = [(Substitution.singleton "a" t).apply (.var "a"),
      (Substitution.singleton "a" t).apply (.data "List" [.var "a"])]
    rw [Substitution.apply_data, List.map_singleton, Ty.apply_singleton_var, if_pos rfl]
  · show _ = (Substitution.singleton "a" t).apply (.data "List" [.var "a"])
    rw [Substitution.apply_data, List.map_singleton, Ty.apply_singleton_var, if_pos rfl]

/-- A list with one element has elements of its type. -/
theorem hasTypeUnder_cons {globals : Table Ty} {θ : Substitution} {locals : List Ty}
    {head tail : Term} {t : Ty} (hhead : head.HasTypeUnder listSignature globals θ locals t)
    (htail : tail.HasTypeUnder listSignature globals θ locals (.data "List" [t])) :
    (Term.con "Cons" [head, tail]).HasTypeUnder listSignature globals θ locals
    (.data "List" [t]) := by
  simp only [Term.HasTypeUnder, Term.HaveTypesUnder]
  exact ⟨[t, .data "List" [t]], [], _, constructs_cons t,
    ⟨_, _, rfl, hhead, _, _, rfl, htail, rfl⟩, rfl⟩

theorem hasTypeUnder_nil {globals : Table Ty} {θ : Substitution} {locals : List Ty} (t : Ty) :
    (Term.con "Nil" []).HasTypeUnder listSignature globals θ locals (.data "List" [t]) := by
  simp only [Term.HasTypeUnder, Term.HaveTypesUnder]
  exact ⟨[], [], _, constructs_nil t, rfl, rfl⟩

/-- A list of a variable in scope and something of which nothing is known yet. -/
theorem infer_principal_cons :
    let c : Checker := { Checker.ofSignature listSignature with nextMeta := 1 }
    let ctx : Context := ⟨[.var "_t0", .var "r"], ["r"]⟩
    let t : Term := .con "Cons" [.var 0, .con "Cons" [.var 1, .con "Nil" []]]
    (listSignature.Simple ∧ Reached listSignature c ∧ (∀ u ∈ ctx.terms, Usable c.nextMeta u) ∧
      (∀ v ∈ ctx.typeVars, c.resolved (.var v) = .var v ∧ Present c.nextMeta v) ∧
      t.isSimple = true ∧ ∀ v ∈ t.freeTypeVars, Present c.nextMeta v) ∧
    ∃ bound, ∀ limit ≥ bound, ∃ type c',
      (infer listSignature limit ctx t).outcome? c = some (.ok type, c') ∧
      Typing listSignature ctx c t c'.subst type ∧
      ∃ q : Substitution, .data "List" [.var "r"] = q.apply type := by
  intro c ctx t
  have hc : Reached listSignature c := .freshMeta .start rfl
  have hr : Present 1 "r" := fun i _ => ne_metaName (by decide) i
  have hlocals : ∀ u ∈ ctx.terms, Usable c.nextMeta u := by
    refine List.forall_mem_cons.2 ⟨?_, List.forall_mem_cons.2 ⟨?_, List.forall_mem_nil _⟩⟩
    · exact Ty.over_var_iff.2 (present_metaName (i := 0) Nat.one_pos)
    · exact Ty.over_var_iff.2 hr
  have hscope : ∀ v ∈ ctx.typeVars, c.resolved (.var v) = .var v ∧ Present c.nextMeta v :=
    List.forall_mem_cons.2 ⟨⟨rfl, hr⟩, List.forall_mem_nil _⟩
  have hvars : ∀ v ∈ t.freeTypeVars, Present c.nextMeta v := List.forall_mem_nil _
  refine ⟨⟨simple_listSignature, hc, hlocals, hscope, rfl, hvars⟩, ?_⟩
  have hsimple : t.isSimple = true := rfl
  obtain ⟨bound, hbound⟩ := infer_principal simple_listSignature hc hlocals hscope hsimple hvars
  have htyping : Typing listSignature ctx c t (.singleton "_t0" (.var "r"))
    (.data "List" [.var "r"]) := by
    refine ⟨(Substitution.absorbs_empty _).factorsThrough, fun v hv => ?_, ?_⟩
    · obtain rfl : v = "r" := List.mem_singleton.1 (Context.hasTypeVar_iff.1 hv)
      decide
    · refine hasTypeUnder_cons ?_ (hasTypeUnder_cons ?_ (hasTypeUnder_nil _))
      all_goals rw [Term.HasTypeUnder]; decide
  refine ⟨bound, fun limit hle => ?_⟩
  obtain ⟨r, c', hr, hok, hprincipal⟩ := hbound limit hle
  obtain ⟨type, rfl⟩ := hok.2 ⟨_, _, htyping⟩
  obtain ⟨-, htypes, hgeneral⟩ := hprincipal type rfl
  obtain ⟨q, -, hq⟩ := hgeneral _ _ htyping
  exact ⟨type, c', hr, htypes, q, hq⟩

/-! ## Names of metas -/

/-- What becomes of the two conditions. A type variable that is called like a meta to come is taken
for it when it comes, and then the type that is returned is not most general. And where it is not
required of a substitution that type variables in scope stand for themselves, there may be a type
where inference fails. -/
theorem infer_not_principal :
    (let c := Checker.ofSignature listSignature
      let ctx : Context := ⟨[.var "_t0", .int], []⟩
      let t : Term := .letIn "z" (.con "Cons" [.var 1, .con "Nil" []]) (.var 1)
      Reached listSignature c ∧ (∀ u ∈ ctx.terms, u.QuantifierFree) ∧ t.isSimple = true ∧
        (∃ limit c', (infer listSignature limit ctx t).outcome? c = some (.ok .int, c')) ∧
        Typing listSignature ctx c t .empty (.var "_t0") ∧
        ∀ q : Substitution, Ty.var "_t0" ≠ q.apply .int) ∧
    (let c := Checker.ofSignature listSignature
      let ctx : Context := ⟨[.var "a"], ["a"]⟩
      let t : Term := .app (.lam (some .int) (.var 0)) (.var 0)
      Reached listSignature c ∧ (∀ u ∈ ctx.terms, u.QuantifierFree) ∧ t.isSimple = true ∧
        (∃ θ : Substitution, θ.FactorsThrough c.subst ∧
          t.HasTypeUnder listSignature c.globals θ (ctx.terms.map θ.apply) .int) ∧
        ∀ limit type c', (infer listSignature limit ctx t).outcome? c ≠ some (.ok type, c')) := by
  constructor
  · intro c ctx t
    have hrun : ((infer listSignature 9 ctx t).outcome? c).any (fun r =>
        decide (r.1.toOption = some .int)) = true := by decide +kernel
    refine ⟨.start, by decide, rfl, ?_, ⟨(Substitution.absorbs_empty _).factorsThrough,
      fun _ _ => rfl, ?_⟩, ?_⟩
    · obtain ⟨⟨r, c'⟩, h, hr⟩ := (Option.any_eq_true _ _).1 hrun
      cases r with
      | ok type =>
        obtain rfl := Option.some.inj (of_decide_eq_true hr)
        exact ⟨9, c', h⟩
      | error e => cases of_decide_eq_true hr
    · rw [Term.HasTypeUnder]
      refine ⟨.data "List" [.int], hasTypeUnder_cons ?_ (hasTypeUnder_nil _), ?_⟩
      all_goals rw [Term.HasTypeUnder]; decide
    · intro q
      rw [Ty.int, Substitution.apply_prim]
      rintro ⟨⟩
  · intro c ctx t
    have hrun : ((Task.infer ctx t).outcome? listSignature 9 c).map Option.isSome = some false := by
      decide +kernel
    refine ⟨.start, by decide, rfl, ⟨.singleton "a" .int,
      (Substitution.absorbs_empty _).factorsThrough, ?_⟩, fun limit type c' h => ?_⟩
    · simp only [t, Term.HasTypeUnder]
      exact ⟨.int, ⟨.int, by decide, by decide⟩, by decide⟩
    · have hreturns : Returns listSignature (.infer ctx t) c type c' := by
        refine ⟨limit, ?_⟩
        show ((infer listSignature limit ctx t).outcome? c).map success = _
        rw [h]
        rfl
      obtain ⟨x, hx, hnone⟩ := Option.map_eq_some_iff.1 hrun
      rw [hreturns.outcome? hx] at hnone
      cases hnone

end Checker

end PolyLambda
