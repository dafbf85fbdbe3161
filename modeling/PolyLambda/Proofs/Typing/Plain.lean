import PolyLambda.Proofs.Typing.Faithful
import PolyLambda.Proofs.Typing.Written
import PolyLambda.Proofs.Unify.Finished

/-!
# Runs without comparisons of quantified types

What is learned can be relied on as long as no two quantified types are compared. So all of it can
be in a program that writes no type variables, apart from the parameters of data types.
-/

namespace PolyLambda

namespace Checker

variable {sig : Signature} {ctx : Context} {left right : Ty} {c c' : Checker}

/-- Where all is filled in, one round is enough. -/
theorem coherent_of_finished (h : c.subst.Finished) : c.Coherent 1 :=
  fun layer hlayer v t hv => congrArg Ty.nameless (h.equal layer hlayer v t hv)

/-- A plain comparison leaves all filled in and makes the types equal. -/
theorem finished_of_returns_unify (hc : c.subst.Finished)
    (hplain : Ty.Plain ctx.hasTypeVar (c.resolved left) (c.resolved right))
    (h : Returns sig (.unify ctx left right) c () c') :
    c'.subst.Finished ∧ c'.resolved left = c'.resolved right := by
  obtain ⟨s, hs, rfl⟩ := returns_unify_iff.1 h
  obtain ⟨hfinished, hover, heq⟩ := hs.learned hplain (hc.eliminates left) (hc.eliminates right)
  refine ⟨hc.compose hfinished hover, ?_⟩
  show (s.compose c.subst).apply left = (s.compose c.subst).apply right
  rw [Substitution.apply_compose, Substitution.apply_compose]
  exact heq

end Checker

open Checker

namespace Module

/-- Whether no two quantified types are compared in the check of a module. -/
def ComparesPlainly (m : Module) : Prop :=
  ∀ ctx left right c, Reaches m.toSignature m.task m.initial (.unify ctx left right) c →
    Ty.Plain ctx.hasTypeVar (c.resolved left) (c.resolved right)

/-- Then what is known is filled in, at every point of the check. -/
theorem ComparesPlainly.finished {m : Module} (h : m.ComparesPlainly) {task : Task} {c : Checker}
    (hreach : Reaches m.toSignature m.task m.initial task c) : c.subst.Finished :=
  hreach.subst_induct (fun ctx left right c₁ _ hreach hc₁ hreturns =>
    (finished_of_returns_unify hc₁ (h ctx left right c₁ hreach) hreturns).1)
      Substitution.finished_empty

theorem ComparesPlainly.finished_of_visits {m : Module} (h : m.ComparesPlainly) {c : Checker}
    (hvisits : m.Visits c) : c.subst.Finished := by
  obtain ⟨task, c₀, hreach, rfl | ⟨a, ha⟩⟩ := hvisits
  · exact h.finished hreach
  · exact ha.subst_induct (fun ctx left right c₁ _ hreach' hc₁ hreturns =>
      (finished_of_returns_unify hc₁ (h ctx left right c₁ (hreach.trans hreach')) hreturns).1)
      (h.finished hreach)

/-- And the equations of the check are faithful. -/
theorem ComparesPlainly.faithful_unify {m : Module} (h : m.ComparesPlainly) {ctx : Context}
    {left right : Ty} {c : Checker}
    (hreach : Reaches m.toSignature m.task m.initial (.unify ctx left right) c) :
    (Task.unify ctx left right).Faithful m.toSignature 1 c := by
  intro c' hreturns
  obtain ⟨hc', heq⟩ :=
    finished_of_returns_unify (h.finished hreach) (h ctx left right c hreach) hreturns
  exact ⟨coherent_of_finished hc', congrArg Ty.nameless heq⟩

/-- The tasks of a program without type variables are about types without quantifiers and terms
without type abstractions. -/
theorem starts_of_typeNames_eq_nil {ds : List Surface.Declaration}
    (h : (ofSurface ds).typeNames = []) {task : Task} {c : Checker}
    (hreach : Reaches (ofSurface ds).toSignature (ofSurface ds).task
      (ofSurface ds).initial task c) :
    task.Starts (ofSurface ds).toSignature (fun _ => False) c := by
  have hnone : (ofSurface ds).Writes = fun _ => False := by
    funext v
    refine eq_false ?_
    rintro ⟨w, k, hw, -⟩
    rw [h] at hw
    exact List.not_mem_nil hw
  have hverified := verified_names (primeClosed_withPrimes _) (over_ofSurface ds)
  have hstarts := hverified.reaches (fun _ _ _ => trivial) (starts_task (over_ofSurface ds)) hreach
  change task.Starts _ (ofSurface ds).Writes c at hstarts
  rwa [hnone] at hstarts

theorem comparesPlainly_of_typeNames_eq_nil {ds : List Surface.Declaration}
    (h : (ofSurface ds).typeNames = []) : (ofSurface ds).ComparesPlainly := by
  intro ctx left right c hreach
  obtain ⟨hc, hleft, hright⟩ := starts_of_typeNames_eq_nil h hreach
  exact .inl ⟨(hc.resolved primeClosed_empty hleft).binders_eq_nil,
    (hc.resolved primeClosed_empty hright).binders_eq_nil⟩

/-- So is the whole check if its type abstractions are faithful. -/
theorem ComparesPlainly.faithful {m : Module} (h : m.ComparesPlainly)
    (hother : ∀ task c, ¬ task.IsUnify → Reaches m.toSignature m.task m.initial task c →
      task.Faithful m.toSignature 1 c) : m.Faithful 1 := by
  intro task c hreach
  by_cases hunify : task.IsUnify
  · obtain ⟨ctx, left, right, rfl⟩ := hunify.eq
    exact h.faithful_unify hreach
  · exact hother task c hunify hreach

theorem faithful_of_typeNames_eq_nil {ds : List Surface.Declaration}
    (h : (ofSurface ds).typeNames = []) : (ofSurface ds).Faithful 1 := by
  refine (comparesPlainly_of_typeNames_eq_nil h).faithful fun task c hunify hreach => ?_
  have hstarts := starts_of_typeNames_eq_nil h hreach
  cases task with
  | infer ctx t =>
    cases t with
    | tlam v body => exact (hstarts.2.2 v List.mem_cons_self).elim
    | _ => trivial
  | check ctx t expected =>
    cases t with
    | tlam v body => exact (hstarts.2.2.1 v List.mem_cons_self).elim
    | _ => trivial
  | unify => exact absurd trivial hunify
  | _ => trivial

end Module

end PolyLambda
