import PolyLambda.Proofs.Typing.Leaks

/-!
# Which variables a checker solves

A checker is meant to solve its metas only. It may solve another variable where that leaks:
quantifiers are opened without renaming when two types are compared, and a meta that was made
outside of a type abstraction may come to stand for its variable, which then is solved where it is
not rigid (`solves_variable`). There are no other ways, and no variable is solved while it is in
scope (`solved_variables`).
-/

namespace PolyLambda

open Checker

/-- Where a variable does not leak, it has no meaning at any point of the check, unless it is a
meta. -/
theorem resolved_of_not_leaks {ds : List Surface.Declaration} {v : String}
    (hleaks : ¬ (Module.ofSurface ds).Leaks v) {c : Checker}
    (hvisits : (Module.ofSurface ds).Visits c) (hmeta : ¬ ∃ i < c.nextMeta, v = metaName i) :
    c.resolved (.var v) = .var v :=
  Substitution.apply_var_eq_self fun hname =>
    hmeta ((Module.stable_of_visits hleaks hvisits).solved hname)

/-- What one unification solves is in scope at no place around it. It is a variable of the two types
that are compared, or a name that a quantifier in them binds, perhaps with primes. -/
theorem solved_of_returns_unify {sig : Signature} {ctx : Context} {left right : Ty}
    {c c' : Checker} (hreturns : Returns sig (.unify ctx left right) c () c') {v : String}
    (hbefore : c.resolved (.var v) = .var v) (hafter : c'.resolved (.var v) ≠ .var v) :
    v ∉ ctx.typeVars ∧ (v ∈ (c.resolved left).freeVars ∨ v ∈ (c.resolved right).freeVars ∨
      withPrimes (fun w => w ∈ (c.resolved left).binders ∨ w ∈ (c.resolved right).binders) v) := by
  obtain ⟨s, hs, rfl⟩ := returns_unify_iff.1 hreturns
  have hnames : v ∈ s.names := by
    by_contra hnot
    refine hafter ?_
    show (s.compose c.subst).apply (.var v) = .var v
    rw [Substitution.apply_compose, show c.subst.apply (.var v) = .var v from hbefore]
    exact Substitution.apply_var_eq_self hnot
  obtain ⟨hflexible, hwritten⟩ := hs.mem_names hnames
  exact ⟨Context.hasTypeVar_eq_false_iff.1 hflexible, hwritten⟩

/-- Which variables a check solves, at any of its points: its metas, and such variables of the
program as leak. So what is learned before a definition gives no meaning to a variable that the
definition writes, unless that leaks; and no unification solves a variable that is in scope there,
or one that the two types do not mention. -/
theorem solved_variables (ds : List Surface.Declaration) :
    let m := Module.ofSurface ds
    (∀ c, m.Visits c → ∀ v, c.resolved (.var v) ≠ .var v →
      (∃ i < c.nextMeta, v = metaName i) ∨ (m.Writes v ∧ m.Leaks v)) ∧
    (∀ d c, Reaches m.toSignature m.task m.initial (.checkDefinition d) c →
      ∀ v ∈ d.typeNames m.paramNames, (¬ ∃ i < c.nextMeta, v = metaName i) → ¬ m.Leaks v →
        c.resolved (.var v) = .var v) ∧
    ∀ ctx left right c c', Reaches m.toSignature m.task m.initial (.unify ctx left right) c →
      Returns m.toSignature (.unify ctx left right) c () c' →
      ∀ v, c.resolved (.var v) = .var v → c'.resolved (.var v) ≠ .var v →
        v ∉ ctx.typeVars ∧ (v ∈ (c.resolved left).freeVars ∨ v ∈ (c.resolved right).freeVars ∨
          withPrimes (fun w => w ∈ (c.resolved left).binders ∨
            w ∈ (c.resolved right).binders) v) := by
  refine ⟨fun c hvisits v hsolved => ?_, fun d c hreach v _ hmeta hleaks => ?_,
    fun _ _ _ _ _ _ hreturns _ => solved_of_returns_unify hreturns⟩
  · refine or_iff_not_imp_left.2 fun hmeta => ?_
    refine ⟨(known_of_resolved_ne hvisits hsolved).resolve_left hmeta, ?_⟩
    by_contra hleaks
    exact hsolved (resolved_of_not_leaks hleaks hvisits hmeta)
  · exact resolved_of_not_leaks hleaks ⟨_, c, hreach, .inl rfl⟩ hmeta

/-- A list that nothing tells the type of, a list of identities, one more name for the identity, a
list that is made inside of a type abstraction, and a function that takes the identity. -/
def scopedSource : String :=
  "(data (List 'a) Nil (Cons 'a (List 'a)))
(def n Nil)
(def id (tfn 'a (fn (x : 'a) x)))
(def fs (Cons id Nil))
(def same : (forall 'a (-> 'a 'a)) id)
(def unit (tfn 'a (fn (x : 'a) (Cons x Nil))))
(def one ((fn (f : (forall 'a (-> 'a 'a))) (f @Int 1)) same))"

/-- Whether a definition of that name is come to when the first meta is solved, and writes `a`. -/
def Checker.Task.comesTo (params : List String) (name : String) : Task → Checker → Bool
  | .checkDefinition d, c => decide (d.name = name ∧ "a" ∈ d.typeNames params ∧
    c.resolved (.var (metaName 0)) ≠ .var (metaName 0))
  | _, _ => false

theorem solved_variables_scoped :
    ∃ m, Module.ofSource scopedSource = .ok m ∧ m.errors = [] ∧ (∀ x, ¬ m.Leaks x) ∧
      ∃ d c, Reaches m.toSignature m.task m.initial (.checkDefinition d) c ∧ d.name = "unit" ∧
        "a" ∈ d.typeNames m.paramNames ∧ c.resolved (.var "a") = .var "a" ∧
        (∃ v, c.resolved (.var v) ≠ .var v) ∧
        ∀ v, c.resolved (.var v) ≠ .var v → ∃ i < c.nextMeta, v = metaName i := by
  obtain ⟨hparse, hscope, herrors, hcomes, htight⟩ :
      (Surface.parse scopedSource).errors.isEmpty = true ∧
        (Module.recover scopedSource).hasErrors = false ∧
        (Module.recover scopedSource).errors = [] ∧
        ((Module.recover scopedSource).trace 9).any (fun r =>
          r.1.comesTo (Module.recover scopedSource).paramNames "unit" r.2) = true ∧
        (Module.recover scopedSource).tightWithin 9 = true := by decide +kernel
  have hleaks := Module.not_leaks_of_tightWithin htight
  obtain ⟨⟨task, c⟩, hmem, hcomes⟩ := List.any_eq_true.1 hcomes
  have hreach := Module.reaches_of_mem_trace htight hmem
  cases task with
  | checkDefinition d =>
    obtain ⟨hname, hwritten, hsolved⟩ := of_decide_eq_true hcomes
    obtain ⟨hvisited, hbefore, -⟩ := solved_variables _
    refine ⟨_, ofSource_eq_ok hparse hscope, herrors, hleaks, d, c, hreach, hname, hwritten,
      hbefore d c hreach "a" hwritten ?_ (hleaks "a"), ⟨_, hsolved⟩, fun v h => ?_⟩
    · rintro ⟨i, -, hi⟩
      exact ne_metaName (by decide) i hi
    · exact (hvisited c ⟨_, c, hreach, .inl rfl⟩ v h).resolve_right fun h => hleaks v h.2
  | _ => cases hcomes

/-! ## Type variables that are solved -/

/-- The second definition opens the quantifier in the type of the first one. -/
def capturingSource : String :=
  "(def id (tfn 'a (fn (x : 'a) x)))
(def bad : (forall 'z (-> 'z Int)) id)"

/-- The list `n` is of what the variable of `f` stands for, and is found to be of numbers later. -/
def sharedSource : String :=
  "(data (List 'a) Nil (Cons 'a (List 'a)))
(def n Nil)
(def f (tfn 'b (fn (x : 'b) (Cons x n))))
(def g (Cons 1 n))"

/-- The variable `v` means `Int` at some point of a check. The program writes it, and no meta is
called like it. -/
def Solves (source v : String) : Prop :=
  ∃ m, Module.ofSource source = .ok m ∧ m.errors = [] ∧ v ∈ m.typeNames ∧
    (∀ n, v ≠ metaName n) ∧ ∃ c, m.Visits c ∧ c.resolved (.var v) = .int

theorem solves_of_outcome? {source v : String}
    (hsource : ((Surface.parse source).errors.isEmpty = true ∧
      (Module.recover source).hasErrors = false) ∧ (Module.recover source).errors = [])
    (hrun : ((Module.recover source).task.outcome? (Module.recover source).toSignature 9
      (Module.recover source).initial).join.any (fun r =>
        decide (r.2.resolved (.var v) = .int)) = true)
    (hwritten : v ∈ (Module.recover source).typeNames) (hname : ¬ "_t".toList <+: v.toList) :
    Solves source v := by
  obtain ⟨⟨a, c⟩, hjoin, hsolved⟩ := (Option.any_eq_true _ _).1 hrun
  have hc := Option.join_eq_some_iff.1 hjoin
  exact ⟨_, ofSource_eq_ok hsource.1.1 hsource.1.2, hsource.2, hwritten, ne_metaName hname, c,
    ⟨_, _, .refl _ _, .inr ⟨a, 9, hc⟩⟩, of_decide_eq_true hsolved⟩

/-- A variable of the program can be solved that no meta is called like: one that a quantifier
binds, or a type abstraction. -/
theorem solves_variable : Solves capturingSource "a" ∧ Solves sharedSource "b" := by
  constructor
  all_goals
    exact solves_of_outcome? (by decide +kernel) (by decide +kernel) (by decide +kernel) (by decide)

end PolyLambda
