import PolyLambda.Proofs.Typing.Solved

/-!
# What is free in the reported types

The type that is reported for a definition may have free variables: metas that nothing is known
about. Another variable is free in it only if it leaks (`metas_of_reported_freeVars`). The checker
accepts programs with leaks (`escapes`): a type abstraction makes its variable rigid, but does not
look at what has become of the metas around it, and a comparison does not look at what becomes of
the variables that the two quantifiers bind.
-/

namespace PolyLambda

open Checker

namespace Module

/-- Whether a module is accepted with types and leaves a checker. -/
def Reports (m : Module) (types : Table Ty) (c : Checker) : Prop :=
  ∃ limit, (checkProgram m.toSignature limit m.definitions).outcome? m.initial = some (.ok types, c)

end Module

/-- The free variables of a reported type are metas that the check handed out, and such variables of
the program as leak. -/
theorem metas_of_reported_freeVars (ds : List Surface.Declaration) {types : Table Ty} {c : Checker}
    (h : (Module.ofSurface ds).Reports types c) :
    let m := Module.ofSurface ds
    ∀ name t, types.get? name = some t → ∀ v ∈ t.freeVars,
      (∃ i < c.nextMeta, v = metaName i) ∨ (m.Writes v ∧ m.Leaks v) := by
  intro m name t ht v hv
  obtain ⟨limit, hrun⟩ := h
  obtain ⟨types', hreturns, rfl⟩ := Module.exists_returns_of_checkProgram hrun
  rw [Table.get?_map] at ht
  obtain ⟨t', ht', rfl⟩ := Option.map_eq_some_iff.1 ht
  have hprimes := primeClosed_withPrimes (· ∈ m.typeNames)
  by_cases hleaks : m.Leaks v
  · have hends := (verified_names hprimes (Module.over_ofSurface ds)).returns (fun _ _ _ => trivial)
      (Module.starts_task (Module.over_ofSurface ds)) hreturns
    have hknown : Known m.Writes c.nextMeta v :=
      (hends.1.known.resolved hprimes (hends.2 name t' ht')).freeVars v hv
    exact hknown.imp_right fun hwrites => ⟨hwrites, hleaks⟩
  · obtain ⟨hextends, -, htypes⟩ := Module.leaves_of_not_leaks hleaks (.refl _ _) hreturns
    have hclear := Within.resolved hprimes hextends.stable (htypes name t' ht')
    have hscope := (hclear.freeVars v hv).1.hides (Substitution.reveals_self _ _)
    exact .inl (hscope.resolve_right List.not_mem_nil)

namespace Module

/-- What is reported for a source without errors, found with a limit. -/
def report? (limit : Nat) (source : String) : Option (Table Ty × Checker) :=
  let m := Module.recover source
  match (Surface.parse source).errors.isEmpty && !m.hasErrors,
    (checkProgram m.toSignature limit m.definitions).outcome? m.initial with
  | true, some (.ok types, c) => some (types, c)
  | _, _ => none

theorem reports_of_report? {limit : Nat} {source : String} {types : Table Ty} {c : Checker}
    (h : report? limit source = some (types, c)) :
    ofSource source = .ok (.recover source) ∧ (Module.recover source).Reports types c := by
  rw [report?] at h
  split at h
  next types' c' herrors hrun =>
    obtain ⟨rfl, rfl⟩ := Prod.mk.inj (Option.some.inj h)
    rw [Bool.and_eq_true, Bool.not_eq_true'] at herrors
    exact ⟨ofSource_eq_ok herrors.1 herrors.2, limit, hrun⟩
  next => cases h

end Module

theorem metas_of_reported_freeVars_scoped :
    ∃ m types c, Module.ofSource scopedSource = .ok m ∧ m.Reports types c ∧ (∀ x, ¬ m.Leaks x) ∧
      types.get? "fs" = some (.data "List" [.all "a" (.arrow (.var "a") (.var "a"))]) ∧
      ∃ t, types.get? "n" = some t ∧ t.freeVars ≠ [] ∧
        ∀ v ∈ t.freeVars, ∃ i < c.nextMeta, v = metaName i := by
  obtain ⟨hreport, htight⟩ : (Module.report? 9 scopedSource).any (fun (types, _) =>
        decide (types.get? "fs" =
          some (.data "List" [.all "a" (.arrow (.var "a") (.var "a"))])) &&
        (types.get? "n").any fun t => decide (t.freeVars ≠ [])) = true ∧
      (Module.recover scopedSource).tightWithin 9 = true := by decide +kernel
  have hleaks := Module.not_leaks_of_tightWithin htight
  obtain ⟨⟨types, c⟩, hr, hany⟩ := (Option.any_eq_true _ _).1 hreport
  obtain ⟨hlists, hn⟩ := Bool.and_eq_true_iff.1 hany
  obtain ⟨hm, hreports⟩ := Module.reports_of_report? hr
  obtain ⟨t, ht, hfree⟩ := (Option.any_eq_true _ _).1 hn
  refine ⟨_, types, c, hm, hreports, hleaks, of_decide_eq_true hlists, t, ht,
    of_decide_eq_true hfree, fun v hv => ?_⟩
  exact (metas_of_reported_freeVars _ hreports "n" t ht v hv).resolve_right fun h => hleaks v h.2

/-- The list `n` is of what the variable of `f` stands for. -/
def earlierSource : String :=
  "(data (List 'a) Nil (Cons 'a (List 'a)))
(def n Nil)
(def f (tfn 'b (fn (x : 'b) (Cons x n))))"

/-- A quantified type is compared with one of another quantifier. -/
def openedSource : String :=
  "(data (P 'b) (MkP (forall 'a 'b)))
(def e : (forall 'a 'a) e)
(def p (MkP e))"

/-- The type variable of `g` is called like the meta that is made for `f`. -/
def borrowedSource : String :=
  "(data (List 'a) Nil (Cons 'a (List 'a)))
(def f (tfn 'b (fn (x : 'b) (Cons x Nil))))
(def g (tfn '_t1 (fn (y : '_t1) y)))"

/-- The variable `v` is free in the type that is reported for `name`. The program writes it, and no
meta is called like it. -/
def Escapes (source name v : String) : Prop :=
  ∃ m types c t, Module.ofSource source = .ok m ∧ m.Reports types c ∧ types.get? name = some t ∧
    v ∈ t.freeVars ∧ v ∈ m.typeNames ∧ ∀ n, v ≠ metaName n

theorem escapes_of_report? {source name v : String}
    (hreport : (Module.report? 9 source).any (fun (types, _) =>
      (types.get? name).any fun t => decide (v ∈ t.freeVars)) = true)
    (hwritten : v ∈ (Module.recover source).typeNames) (hname : ¬ "_t".toList <+: v.toList) :
    Escapes source name v := by
  obtain ⟨⟨types, c⟩, hfound, hany⟩ := (Option.any_eq_true _ _).1 hreport
  obtain ⟨t, ht, hfree⟩ := (Option.any_eq_true _ _).1 hany
  obtain ⟨hm, hrun⟩ := Module.reports_of_report? hfound
  exact ⟨_, types, c, t, hm, hrun, ht, of_decide_eq_true hfree, hwritten, ne_metaName hname⟩

/-- A variable that no meta is called like can be free in a reported type: one that a type
abstraction or a quantifier of the program binds. -/
theorem escapes :
    Escapes earlierSource "n" "b" ∧ Escapes openedSource "p" "a" ∧
    Escapes borrowedSource "g" "b" := by
  refine ⟨?_, ?_, ?_⟩
  all_goals exact escapes_of_report? (by decide +kernel) (by decide +kernel) (by decide)

end PolyLambda
