import PolyLambda.Proofs.Module.Signature
import PolyLambda.Proofs.Ty.Nameless
import PolyLambda.Proofs.Typing.Termination

/-!
# Faithful runs

A run of the checker is faithful if what it learns can be relied on: two types that were compared
are the same when all that is known is filled in, and the variable of a type abstraction is not free
in the types around the abstraction. The checker sees to neither in general, because it opens
quantifiers without renaming, because a type abstraction may bind a name that is in scope already,
and because a meta that was made outside a type abstraction may come to stand for its variable.

Since solutions may mention other variables that are solved, all that is known has been filled in
only after some rounds.
-/

namespace PolyLambda

namespace Checker

/-! ## Valuations that agree with what is known -/

/-- Whether every solved variable stands for its solution. -/
def Models (ρ : Valuation) (s : Substitution) : Prop :=
  ∀ layer ∈ s.layers, ∀ v t, layer.get? v = some t → (ρ v).type = t.under ρ

theorem models_compose_iff {ρ : Valuation} {l r : Substitution} :
    Models ρ (l.compose r) ↔ Models ρ r ∧ Models ρ l :=
  List.forall_mem_append

/-- What is known does not change the meaning of a type. -/
theorem Models.under_apply {ρ : Valuation} {s : Substitution} (h : Models ρ s) (t : Ty) :
    (s.apply t).under ρ = t.under ρ := by
  obtain ⟨layers⟩ := s
  induction layers generalizing t with
  | nil => rfl
  | cons layer layers ih =>
    obtain ⟨hlayer, hlayers⟩ := List.forall_mem_cons.1 h
    rw [Substitution.apply_cons, ih _ hlayers, Ty.under, Ty.place_layer]
    refine Ty.place_congr fun v _ => ?_
    funext n
    rw [Ty.place_eq_under, Layer.apply_var]
    cases hv : layer.get? v with
    | none => rw [Option.getD_none, Ty.under_var]
    | some t => rw [Option.getD_some, hlayer v t hv]

theorem Models.under_resolved {ρ : Valuation} {c : Checker} (h : Models ρ c.subst) (t : Ty) :
    (c.resolved t).under ρ = t.under ρ :=
  h.under_apply t

/-! ## Filling in all that is known -/

/-- The type `t` with all that is known about its metas filled in, and again in the result, for a
number of rounds. -/
def settled (c : Checker) : Nat → Ty → Ty
  | 0, t => t
  | rounds + 1, t => c.resolved (c.settled rounds t)

/-- The meanings of variables when all that is known is filled in and `ρ` is for the others. -/
def valuation (c : Checker) (rounds : Nat) (ρ : Valuation) : Valuation :=
  fun v => (c.settled rounds (.var v)).closed ρ

theorem Models.under_settled {ρ : Valuation} {c : Checker} (h : Models ρ c.subst) (rounds : Nat)
    (t : Ty) : (c.settled rounds t).under ρ = t.under ρ := by
  induction rounds with
  | zero => rfl
  | succ rounds ih => rw [settled, h.under_resolved, ih]

theorem under_settled (c : Checker) (rounds : Nat) (t : Ty) (ρ : Valuation) :
    (c.settled rounds t).under ρ = t.under (c.valuation rounds ρ) := by
  induction rounds generalizing ρ with
  | zero =>
    refine Ty.under_congr fun v _ => ClosedType.ext ?_
    exact (Ty.under_var ρ v).symm
  | succ rounds ih =>
    rw [settled, resolved, Ty.under_apply c.subst _ ρ (fun v => (c.subst.apply (.var v)).closed ρ)
      fun _ => rfl, ih]
    refine Ty.under_congr fun v _ => ClosedType.ext ?_
    exact (Ty.under_apply c.subst (c.settled rounds (.var v)) ρ
      (fun w => (c.subst.apply (.var w)).closed ρ) fun _ => rfl).symm

/-- Whether every solved variable is the same as its solution when all that is known is filled
in. -/
def Coherent (rounds : Nat) (c : Checker) : Prop :=
  ∀ layer ∈ c.subst.layers, ∀ v t, layer.get? v = some t →
    (c.settled rounds (.var v)).nameless = (c.settled rounds t).nameless

/-- What is known is all in the substitution. -/
theorem Coherent.congr {rounds : Nat} {c c' : Checker} (h : c.Coherent rounds)
    (hsubst : c'.subst = c.subst) : c'.Coherent rounds := by
  have hsettled (k : Nat) (t : Ty) : c'.settled k t = c.settled k t := by
    induction k with
    | zero => rfl
    | succ k ih => rw [settled, settled, ih, resolved, resolved, hsubst]
  intro layer hlayer v t hv
  rw [hsubst] at hlayer
  rw [hsettled, hsettled]
  exact h layer hlayer v t hv

theorem Coherent.models {rounds : Nat} {c : Checker} (h : c.Coherent rounds) (ρ : Valuation) :
    Models (c.valuation rounds ρ) c.subst := by
  intro layer hlayer v t hv
  rw [← under_settled]
  exact Ty.under_eq_of_nameless_eq (h layer hlayer v t hv) ρ

/-! ## Faithful tasks -/

/-- Whether the variable of a type abstraction of the type `t` stands for itself and is not free in
the types around the abstraction. -/
structure Generalizes (rounds : Nat) (ctx : Context) (v : String) (t : Ty) (c : Checker) :
    Prop where
  unsolved : c.settled rounds (.var v) = .var v
  type : v ∉ (c.settled rounds t).freeVars
  locals : ∀ u ∈ ctx.terms, v ∉ (c.settled rounds u).freeVars
  globals : c.globals.All fun u => v ∉ (c.settled rounds u).freeVars

/-- Whether what a task learns can be relied on: that types are equal where it compares them, and
that the type of a type abstraction holds for all values of its variable. -/
def Task.Faithful (sig : Signature) (rounds : Nat) : Task → Checker → Prop
  | .unify ctx left right, c => ∀ c', Returns sig (.unify ctx left right) c () c' →
    c'.Coherent rounds ∧ (c'.settled rounds left).nameless = (c'.settled rounds right).nameless
  | .infer ctx (.tlam v body), c => ∀ t c', Returns sig (.infer ctx (.tlam v body)) c t c' →
    Generalizes rounds ctx v t c'
  | .check ctx (.tlam v body) expected, c => ∀ c',
    Returns sig (.check ctx (.tlam v body) expected) c () c' → Generalizes rounds ctx v expected c'
  | _, _ => True

end Checker

/-- Whether all that is learned in the check of a module can be relied on. -/
def Module.Faithful (m : Module) (rounds : Nat) : Prop :=
  ∀ task c, Checker.Reaches m.toSignature m.task m.initial task c →
    task.Faithful m.toSignature rounds c

end PolyLambda
