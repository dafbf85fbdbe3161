import PolyLambda.Module.OfSource
import PolyLambda.Proofs.Typing.Run
import PolyLambda.Proofs.Unify.Divergence

/-!
# When checking a program ends

The checker recurses on terms and solves equations on the way, so it comes to an end exactly if the
solution of each equation does that it gets to.
-/

namespace PolyLambda

open Checker

namespace Module

/-- The task of checking a module. -/
def task (m : Module) : Task :=
  .checkDefinitions .empty m.definitions

/-- The state in which the check of a module begins. -/
def initial (m : Module) : Checker :=
  .ofSignature m.toSignature

/-- The check of a module comes to an end exactly if its task does. -/
theorem exists_check_iff (m : Module) :
    (∃ limit r, (m.check limit).outcome? = some r) ↔
      Halts m.toSignature m.task m.initial := by
  have hcheck (limit : Nat) : (m.check limit).outcome? = none ↔
      m.task.outcome? m.toSignature limit m.initial = none := by
    show (m.check limit).outcome? = none ↔
      ((checkDefinitions m.toSignature limit .empty m.definitions).outcome? m.initial).map
        success = none
    rw [outcome?_check, Option.map_eq_none_iff, Option.map_eq_none_iff]
    rfl
  constructor
  · rintro ⟨limit, r, h⟩
    refine ⟨limit, fun hnone => ?_⟩
    rw [← hcheck, h] at hnone
    cases hnone
  · rintro ⟨limit, h⟩
    rw [ne_eq, ← hcheck] at h
    obtain ⟨r, hr⟩ := Option.ne_none_iff_exists'.1 h
    exact ⟨limit, r, hr⟩

/-- What an accepted module is reported to have is what its task gives with all that is known filled
in. -/
theorem exists_returns_of_checkProgram {m : Module} {limit : Nat} {types : Table Ty} {c : Checker}
    (h : (checkProgram m.toSignature limit m.definitions).outcome? m.initial =
      some (.ok types, c)) :
    ∃ types' : Table Ty, Returns m.toSignature m.task m.initial types' c ∧
      types = types'.map c.resolved := by
  obtain ⟨types', c', hrun, h⟩ := LimitedState.outcome?_bind_eq_ok_iff.1 h
  cases h
  refine ⟨types', ⟨limit, ?_⟩, rfl⟩
  show ((checkDefinitions m.toSignature limit .empty m.definitions).outcome?
    m.initial).map success = _
  rw [hrun]
  rfl

end Module

/-- Comparing two types comes to an end exactly if the number of quantifiers in the solutions found
along the way is bounded; and checking a module does exactly if that holds of all equations that it
gets to. -/
theorem ends_iff_bounded (rigid : String → Bool) (t t' : Ty) (m : Module) :
    ((∃ limit r, (Ty.unify rigid limit t t').outcome? = some r) ↔
      ∃ k, Ty.Bounded rigid k [(t, t')]) ∧
    ((∃ limit r, (m.check limit).outcome? = some r) ↔
      ∀ ctx left right c, Reaches m.toSignature m.task m.initial (.unify ctx left right) c →
        ∃ k, Ty.Bounded ctx.hasTypeVar k [(c.resolved left, c.resolved right)]) := by
  constructor
  · rw [← Ty.settles_iff_bounded]
    exact exists_comm
  · rw [m.exists_check_iff, halts_iff]
    simp only [Ty.settles_iff_bounded]

/-! ## A program that is checked for ever -/

/-- The second definition has the first one for a body, but with another type. -/
def swingSource : String :=
  "(def n : (forall 'y (-> (forall 'x (-> 'x (forall 'y (-> 'x 'y 'y)) 'x)) 'y 'y)) n)
(def m : (forall 'x (-> 'x (forall 'y (-> 'x 'y 'y)) 'x)) n)"

def swingModule : Module :=
  .recover swingSource

/-- What is known when the second body is checked. -/
def swingState : Checker :=
  { swingModule.initial with
    globals := (swingModule.initial.globals.insert "n" Ty.swingBack).insert "m" Ty.swing }

theorem ofSource_eq_ok {source : String} (hparse : (Surface.parse source).errors.isEmpty = true)
    (hscope : (Module.recover source).hasErrors = false) :
    Module.ofSource source = .ok (.recover source) := by
  rw [Module.ofSource]
  dsimp only
  rw [if_pos hparse, if_neg]
  · rfl
  · exact ne_true_of_eq_false hscope

theorem of_ofSource_eq_ok {source : String} {m : Module} (h : Module.ofSource source = .ok m) :
    (Surface.parse source).errors = [] ∧ m = .recover source ∧ m.errors = [] := by
  rw [Module.ofSource] at h
  dsimp only at h
  split at h
  next hparse =>
    split at h
    next => cases h
    next herrors =>
      cases h
      rw [Module.hasErrors, Bool.not_eq_true, Bool.not_eq_false', List.isEmpty_iff] at herrors
      exact ⟨List.isEmpty_iff.1 hparse, rfl, herrors⟩
  next => cases h

theorem ofSource_swingSource : Module.ofSource swingSource = .ok swingModule := by
  obtain ⟨hparse, hscope⟩ : (Surface.parse swingSource).errors.isEmpty = true ∧
      (Module.recover swingSource).hasErrors = false := by decide +kernel
  exact ofSource_eq_ok hparse hscope

theorem reaches_swing :
    Reaches swingModule.toSignature swingModule.task swingModule.initial
      (.unify .empty Ty.swing Ty.swingBack) swingState := by
  obtain ⟨hlength, hfirst, hsecond⟩ : swingModule.definitions.length = 2 ∧
      swingModule.definitions.head?.all (fun d =>
        decide ((Task.checkDefinition d).outcome? swingModule.toSignature 9 swingModule.initial =
          some (some (Ty.swingBack, { swingModule.initial with
            globals := swingModule.initial.globals.insert "n" Ty.swingBack })))) = true ∧
      swingModule.definitions.getLast?.all (fun e =>
        e.name == "m" && decide (e.type = some Ty.swing) &&
          (match e.body with | .global name => name == "n" | _ => false)) = true := by
    decide +kernel
  obtain ⟨d, e, hde⟩ := List.length_eq_two.1 hlength
  rw [hde] at hfirst hsecond
  simp only [List.head?_cons, Option.all_some, decide_eq_true_eq] at hfirst
  simp only [List.getLast?_cons_cons, List.getLast?_singleton, Option.all_some, Bool.and_eq_true,
    decide_eq_true_eq] at hsecond
  obtain ⟨⟨hname, htype⟩, hbody⟩ := hsecond
  split at hbody
  next name he =>
    obtain rfl : name = "n" := eq_of_beq hbody
    have hinfer : Returns swingModule.toSignature (.infer .empty (.global "n")) swingState
        Ty.swingBack swingState := ⟨0, by decide +kernel⟩
    have hcheck : ((Task.checkDefinition e).plan swingModule.toSignature).Calls
        swingModule.toSignature { swingModule.initial with
          globals := swingModule.initial.globals.insert "n" Ty.swingBack }
        (.check .empty (.global "n") Ty.swing) swingState := by
      rw [← he]
      simp only [Task.plan, checkDefinitionPlan, placeholderPlan, checkBodyPlan, htype,
        eq_of_beq hname]
      exact ⟨(), swingState, rfl, .inl ⟨rfl, rfl⟩⟩
    rw [Module.task, hde]
    refine .step (.inr ⟨Ty.swingBack, _, ⟨9, hfirst⟩, .inl ⟨rfl, rfl⟩⟩) ?_
    refine .step (.inl ⟨rfl, rfl⟩) (.step hcheck ?_)
    exact .step ⟨Ty.swing, swingState, rfl, .inr ⟨Ty.swingBack, swingState, hinfer,
      .inl ⟨rfl, rfl⟩⟩⟩ (.refl _ _)
  next => cases hbody

/-- The check of the second definition compares the types that cannot be compared. -/
theorem not_ends_swing :
    (¬ ∃ limit r, (Ty.unify (fun _ => false) limit Ty.swing Ty.swingBack).outcome? = some r) ∧
      ∃ m, Module.ofSource swingSource = .ok m ∧
        ¬ ∃ limit r, (m.check limit).outcome? = some r := by
  have hpair := Ty.not_settles_swing
  refine ⟨fun ⟨limit, r, h⟩ => hpair ⟨r, limit, h⟩, swingModule, ofSource_swingSource, ?_⟩
  rw [Module.exists_check_iff, halts_iff]
  exact fun h => hpair (h _ _ _ _ reaches_swing)

end PolyLambda
