import PolyLambda.Proofs.Typing.Scopes
import PolyLambda.Proofs.Typing.Trace
import PolyLambda.Proofs.Typing.Written

/-!
# Leaks

In the check of a module a type variable gets out of its scope only where a single unification lets
it out (`Module.Leaks`). For every other variable the whole check keeps to its scope. Whether there
are leaks at all can be seen from the trace of a check that comes to an end.
-/

namespace PolyLambda

open Checker

namespace Module

/-- The ways for a type variable to get out of its scope in the check of a module: a comparison
opens a quantifier of it, or a unification inside a type abstraction of it makes a name that was
known before stand for a type with it. -/
inductive Leaks (m : Module) (x : String) : Prop where
  | opened (ctx : Context) (left right : Ty) (c : Checker)
    (hreach : Reaches m.toSignature m.task m.initial (.unify ctx left right) c)
    (hopens : Opens x ctx left right c)
  | exposed (ctx : Context) (task body : Task) (c : Checker) (w : String)
    (hreach : Reaches m.toSignature m.task m.initial task c)
    (habstracts : Abstracts x ctx c task body) (hscope : x ∉ ctx.typeVars)
    (hknown : Known m.Writes c.nextMeta w) (hexposes : Exposes m.toSignature x w body c)

section

variable {ds : List Surface.Declaration} {x : String}

/-- No type variable is in scope where the check of a module begins. -/
theorem scoped_task (ds : List Surface.Declaration) (x : String) :
    (ofSurface ds).task.Scoped (ofSurface ds).Writes x (ofSurface ds).initial := by
  have hover := over_ofSurface ds
  have hclosed := (closed_ofSurface ds).globalTypes
  have hempty (w : String) : Substitution.empty.Reveals w x → w = x := fun h =>
    (h.eq_of_not_mem List.not_mem_nil).symm
  have htidy : Tidy (ofSurface ds).Writes x [] (ofSurface ds).initial :=
    { subst := Substitution.over_empty
      eliminates := Substitution.eliminates_empty
      solved := fun h => absurd h List.not_mem_nil
      written := fun w hw hne => ⟨.inr hw, fun h => absurd (hempty w h) hne⟩ }
  refine ⟨⟨htidy, List.forall_mem_nil _, fun name t ht => ?_⟩, Table.all_empty,
    typeClosed_ofSurface ds⟩
  exact (clear_of_closed (hclosed name t ht) (hover.globalTypes name t ht).binders).within

variable (hleaks : ¬ (ofSurface ds).Leaks x) {task : Task} {c c' : Checker}
  (hreach : Reaches (ofSurface ds).toSignature (ofSurface ds).task (ofSurface ds).initial task c)

include hleaks hreach

/-- Where a variable does not leak, no task lets it out of its scope. -/
theorem confined_of_not_leaks :
    task.Confined (ofSurface ds).toSignature (ofSurface ds).Writes x c where
  starts := (verified_names (primeClosed_withPrimes _) (over_ofSurface ds)).reaches
    (fun _ _ _ => trivial) (starts_task (over_ofSurface ds)) hreach
  shut := by
    rintro ctx left right rfl hopens
    exact hleaks (.opened ctx left right c hreach hopens)
  kept ctx body habstracts hscope w hknown hexposes :=
    hleaks (.exposed ctx task body c w hreach habstracts hscope hknown hexposes)

theorem scoped_of_not_leaks : task.Scoped (ofSurface ds).Writes x c :=
  (verified_scopes (primeClosed_withPrimes _) (over_ofSurface ds) (closed_ofSurface ds)).reaches
    (fun _ _ => confined_of_not_leaks hleaks) (scoped_task ds x) hreach

theorem leaves_of_not_leaks {a : task.Result}
    (hreturns : Returns (ofSurface ds).toSignature task c a c') :
    task.Leaves (ofSurface ds).Writes x c a c' :=
  (verified_scopes (primeClosed_withPrimes _) (over_ofSurface ds) (closed_ofSurface ds)).returns
    (fun _ _ hrest => confined_of_not_leaks hleaks (hreach.trans hrest))
    (scoped_of_not_leaks hleaks hreach) hreturns

end

/-- Where a variable does not leak, it is never solved, unless it is a meta. -/
theorem stable_of_visits {ds : List Surface.Declaration} {x : String}
    (hleaks : ¬ (ofSurface ds).Leaks x) {c : Checker} (h : (ofSurface ds).Visits c) :
    Stable (ofSurface ds).Writes x c := by
  obtain ⟨task, c₀, hreach, hc⟩ := h
  rcases hc with rfl | ⟨a, ha⟩
  · exact (scoped_of_not_leaks hleaks hreach).stable
  · exact (leaves_of_not_leaks hleaks hreach ha).stable

end Module

/-! ## Finding out whether anything leaks -/

namespace Checker

variable {sig : Signature} {limit : Nat} {task : Task} {c : Checker} {x w : String}

/-- Whether what is known is seen not to make a name of those that `known` accepts stand for a type
with `x`. -/
def hides (known : String → Bool) (x : String) (c : Checker) : Bool :=
  c.subst.names.all fun w => !known w || decide (w = x) ||
    decide (∀ u ∈ (c.resolved (.var w)).freeVars, u ∉ c.subst.names ∧ u ≠ x)

theorem eq_of_reveals {known : String → Bool} (h : c.hides known x = true) (hw : known w = true)
    (hreveals : c.subst.Reveals w x) : w = x := by
  by_contra hne
  by_cases hmem : w ∈ c.subst.names
  · have hw' := List.all_eq_true.1 h w hmem
    simp only [hw, hne, Bool.not_true, decide_false, Bool.or_self, Bool.false_or,
      decide_eq_true_eq] at hw'
    exact Substitution.not_reveals hne hw' hreveals
  · exact hne (hreveals.eq_of_not_mem hmem).symm

namespace Task

/-- Whether that is so after every unification in a task, with a limit. -/
def hidesWithin (sig : Signature) (limit : Nat) (known : String → Bool) (x : String) (task : Task)
    (c : Checker) : Bool :=
  (task.outcome? sig limit c).isSome &&
    (task.trace sig limit task.size c).all fun
      | (unify ctx left right, c₁) =>
        (unify ctx left right).givesWithin sig limit c₁ fun _ c₂ => c₂.hides known x
      | _ => true

theorem not_exposes_of_hidesWithin {known : String → Bool}
    (h : task.hidesWithin sig limit known x c = true) (hw : known w = true) :
    ¬ Exposes sig x w task c := by
  rw [hidesWithin, Bool.and_eq_true, Option.isSome_iff_ne_none, List.all_eq_true] at h
  rintro ⟨ctx, left, right, c₁, c₂, hreach, hunify, hbefore, hafter⟩
  have hmem := (Task.mem_trace_iff (Nat.le_refl _) h.1).2 hreach
  have hhides := (givesWithin_iff (hreach.outcome?_ne_none h.1)).1 (h.2 _ hmem) () c₂ hunify
  obtain rfl := eq_of_reveals hhides hw hafter
  exact hbefore (Substitution.reveals_self _ _)

/-- Whether a unification is seen to be about variables that are in scope or free in the types. -/
def shutWithin (limit : Nat) (ctx : Context) (left right : Ty) (c : Checker) : Bool :=
  let (left, right) := (c.resolved left, c.resolved right)
  match (Ty.unify ctx.hasTypeVar limit left right).outcome? with
  | some (.ok s) => s.mentioned.all fun v =>
    decide (v ∈ ctx.typeVars ∨ v ∈ left.freeVars ∨ v ∈ right.freeVars)
  | _ => true

theorem not_opens_of_shutWithin {ctx : Context} {left right : Ty}
    (houtcome : (unify ctx left right).outcome? sig limit c ≠ none)
    (h : shutWithin limit ctx left right c = true) : ¬ Opens x ctx left right c := by
  rintro ⟨hscope, hleft, hright, s, hs, hmentioned⟩
  rw [outcome?_unify_eq] at houtcome
  cases ho : (Ty.unify ctx.hasTypeVar limit (c.resolved left) (c.resolved right)).outcome? with
  | none =>
    rw [ho] at houtcome
    exact houtcome rfl
  | some o =>
    obtain rfl : o = .ok s := Ty.Settles.unique ⟨limit, ho⟩ hs
    simp only [shutWithin, ho, List.all_eq_true, decide_eq_true_eq] at h
    exact (h x hmentioned).elim hscope fun hfree => hfree.elim hleft hright

end Task

end Checker

namespace Module

/-- Whether a name may be one that is known when `n` metas have been handed out: it is one of them,
or begins with a name that the program writes. -/
def mayKnow (m : Module) (n : Nat) (w : String) : Bool :=
  decide (∃ i < n, w = metaName i) || m.typeNames.any fun v => v.toList.isPrefixOf w.toList

theorem mayKnow_of_known {m : Module} {n : Nat} {w : String} (h : Known m.Writes n w) :
    m.mayKnow n w = true := by
  rw [mayKnow, Bool.or_eq_true, decide_eq_true_eq, List.any_eq_true]
  rcases h with hmeta | ⟨v, k, hv, rfl⟩
  · exact .inl hmeta
  · exact .inr ⟨v, hv, List.isPrefixOf_iff_prefix.2 (prefix_primed v k)⟩

/-- Whether a task is seen to let no variable out of its scope, with a limit. -/
def tightAt (m : Module) (limit : Nat) : Task → Checker → Bool
  | .unify ctx left right, c => Task.shutWithin limit ctx left right c
  | .infer ctx (.tlam v body), c => ctx.hasTypeVar v ||
    (Task.infer (ctx.extendType v) body).hidesWithin m.toSignature limit (m.mayKnow c.nextMeta) v c
  | .check ctx (.tlam v body) expected, c => ctx.hasTypeVar v ||
    match c.resolved expected with
    | .all w result => (Task.check (ctx.extendType v) body (underBinder v w result)).hidesWithin
      m.toSignature limit (m.mayKnow c.nextMeta) v c
    | _ => true
  | _, _ => true

theorem not_exposes_of_tightAt {m : Module} {limit : Nat} {x w : String} {ctx : Context}
    {task body : Task} {c : Checker} (habstracts : Abstracts x ctx c task body)
    (hscope : x ∉ ctx.typeVars) (hknown : Known m.Writes c.nextMeta w)
    (h : m.tightAt limit task c = true) : ¬ Exposes m.toSignature x w body c := by
  have hnot := Context.hasTypeVar_eq_false_iff.2 hscope
  have hw := mayKnow_of_known hknown
  cases habstracts with
  | infer body =>
    simp only [tightAt, hnot, Bool.false_or] at h
    exact Task.not_exposes_of_hidesWithin h hw
  | check body he =>
    simp only [tightAt, hnot, Bool.false_or, he] at h
    exact Task.not_exposes_of_hidesWithin h hw

/-- All that the check of a module reaches, with a limit. -/
def trace (m : Module) (limit : Nat) : List (Task × Checker) :=
  m.task.trace m.toSignature limit m.task.size m.initial

/-- Whether the check of a module is seen to come to an end without leaks. -/
def tightWithin (m : Module) (limit : Nat) : Bool :=
  (m.task.outcome? m.toSignature limit m.initial).isSome &&
    (m.trace limit).all fun (task, c) => m.tightAt limit task c

theorem reaches_of_mem_trace {m : Module} {limit : Nat} (h : m.tightWithin limit = true)
    {task : Task} {c : Checker} (hmem : (task, c) ∈ m.trace limit) :
    Reaches m.toSignature m.task m.initial task c := by
  rw [tightWithin, Bool.and_eq_true, Option.isSome_iff_ne_none] at h
  exact (Task.mem_trace_iff (Nat.le_refl _) h.1).1 hmem

theorem not_leaks_of_tightWithin {m : Module} {limit : Nat} (h : m.tightWithin limit = true)
    (x : String) : ¬ m.Leaks x := by
  rw [tightWithin, Bool.and_eq_true, Option.isSome_iff_ne_none, List.all_eq_true] at h
  have htight {task : Task} {c : Checker}
      (hreach : Reaches m.toSignature m.task m.initial task c) : m.tightAt limit task c = true :=
    h.2 (task, c) ((Task.mem_trace_iff (Nat.le_refl _) h.1).2 hreach)
  rintro (⟨ctx, left, right, c, hreach, hopens⟩ |
    ⟨ctx, task, body, c, w, hreach, habstracts, hscope, hknown, hexposes⟩)
  · exact Task.not_opens_of_shutWithin (hreach.outcome?_ne_none h.1) (htight hreach) hopens
  · exact not_exposes_of_tightAt habstracts hscope hknown (htight hreach) hexposes

end Module

end PolyLambda
