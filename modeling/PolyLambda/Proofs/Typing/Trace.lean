import PolyLambda.Proofs.Typing.Faithful
import PolyLambda.Proofs.Typing.Termination

/-!
# Traces

The tasks that a run reaches can be listed if the run comes to an end with a limit that is known. So
it can be decided whether such a run is faithful.
-/

namespace PolyLambda

namespace Checker

variable {sig : Signature} {limit : Nat} {task task' : Task} {c c' : Checker}

namespace Plan

variable {α : Type}

/-- The tasks that a plan calls, with the states in which it calls them. -/
def trace (sig : Signature) (limit : Nat) : Plan α → Checker → List (Task × Checker)
  | done _, _ => []
  | act f k, c =>
    match f c with
    | none => []
    | some (b, c') => (k b).trace sig limit c'
  | solve rigid left right k, c =>
    match (Ty.unify rigid limit left right).outcome? with
    | some (.ok s) => (k s).trace sig limit c
    | _ => []
  | call task k, c =>
    (task, c) ::
      match task.outcome? sig limit c with
      | some (some (a, c')) => (k a).trace sig limit c'
      | _ => []

/-- If the limit is high enough, the trace of a plan is all that it calls. -/
theorem mem_trace_iff {p : Plan α} {k : Nat} (hp : p.Below k) (h : p.run sig limit c ≠ none) :
    (task, c') ∈ p.trace sig limit c ↔ p.Calls sig c task c' := by
  induction p generalizing c with
  | done a => exact iff_of_false List.not_mem_nil id
  | act f k ih =>
    rw [run] at h
    rw [trace, Calls]
    cases hf : f c with
    | none =>
      refine iff_of_false List.not_mem_nil ?_
      rintro ⟨_, _, ⟨⟩, -⟩
    | some r =>
      rw [hf] at h
      rw [ih r.1 (hp.2 r.1) h]
      refine ⟨fun hcalls => ⟨r.1, r.2, rfl, hcalls⟩, ?_⟩
      rintro ⟨b, c₁, ⟨⟩, hcalls⟩
      exact hcalls
  | solve => exact hp.elim
  | call t k ih =>
    rw [run] at h
    rw [trace, Calls, List.mem_cons, Prod.mk.injEq]
    refine or_congr Iff.rfl ?_
    cases ht : t.outcome? sig limit c with
    | none =>
      rw [ht] at h
      exact absurd rfl h
    | some o =>
      rw [ht] at h
      cases o with
      | none =>
        refine iff_of_false List.not_mem_nil ?_
        rintro ⟨b, c₁, hb, -⟩
        cases hb.outcome? ht
      | some r =>
        rw [ih r.1 (hp.2 r.1) h]
        refine ⟨fun hcalls => ⟨r.1, r.2, ⟨limit, ht⟩, hcalls⟩, ?_⟩
        rintro ⟨b, c₁, hb, hcalls⟩
        obtain rfl := Option.some.inj (hb.outcome? ht)
        exact hcalls

end Plan

/-- The tasks that a task reaches in calls of at most the given depth. -/
def Task.trace (sig : Signature) (limit : Nat) : Nat → Task → Checker → List (Task × Checker)
  | 0, task, c => [(task, c)]
  | depth + 1, task, c =>
    (task, c) :: ((task.plan sig).trace sig limit c).flatMap fun (t, c') =>
      t.trace sig limit depth c'

theorem trace_unifyPlan (ctx : Context) (left right : Ty) :
    (unifyPlan ctx left right).trace sig limit c = [] := by
  show (Plan.solve ctx.hasTypeVar (c.resolved left) (c.resolved right) fun s =>
    Plan.ofCheck (set { c with subst := s.compose c.subst })).trace sig limit c = []
  rw [Plan.trace]
  split <;> rfl

/-- The limit that is high enough for a task is so for all that it reaches. -/
theorem Reaches.outcome?_ne_none (hreach : Reaches sig task c task' c')
    (h : task.outcome? sig limit c ≠ none) : task'.outcome? sig limit c' ≠ none := by
  induction hreach with
  | refl => exact h
  | @step task t task' c c₁ c' hcall _ ih =>
    by_cases hunify : task.IsUnify
    · obtain ⟨ctx, left, right, rfl⟩ := hunify.eq
      exact absurd hcall not_calls_unify
    · rw [outcome?_eq_run] at h
      exact ih (Plan.outcome?_ne_none_of_calls (task.below_plan sig hunify) h hcall)

/-- If the limit is high enough, the trace of a task is all that it reaches. -/
theorem Task.mem_trace_iff {depth : Nat} (hdepth : task.size ≤ depth)
    (h : task.outcome? sig limit c ≠ none) :
    (task', c') ∈ task.trace sig limit depth c ↔ Reaches sig task c task' c' := by
  have hself : (task', c') = (task, c) → Reaches sig task c task' c' := by
    rintro ⟨⟩
    exact .refl task c
  induction depth generalizing task c with
  | zero =>
    rw [trace, List.mem_singleton]
    refine ⟨hself, fun hreach => ?_⟩
    cases hreach with
    | refl => rfl
    | step hcall _ => exact absurd hcall.size_lt (by omega)
  | succ depth ih =>
    rw [trace, List.mem_cons, List.mem_flatMap]
    by_cases hunify : task.IsUnify
    · obtain ⟨ctx, left, right, rfl⟩ := hunify.eq
      rw [plan, trace_unifyPlan]
      refine ⟨fun hmem => hself (hmem.resolve_right (by simp)), fun hreach => ?_⟩
      cases hreach with
      | refl => exact .inl rfl
      | step hcall _ => exact absurd hcall not_calls_unify
    · have hbelow := task.below_plan sig hunify
      rw [outcome?_eq_run] at h
      -- What is called is smaller than the caller, so the remaining depth suffices for it.
      have hcalls (t : Task) (c₁ : Checker) (hcall : (task.plan sig).Calls sig c t c₁) :
          (task', c') ∈ t.trace sig limit depth c₁ ↔ Reaches sig t c₁ task' c' := by
        refine ih ?_ (Plan.outcome?_ne_none_of_calls hbelow h hcall) ?_
        · have := hcall.size_lt
          omega
        · rintro ⟨⟩
          exact .refl _ _
      constructor
      · rintro (hmem | ⟨⟨t, c₁⟩, ht, hmem⟩)
        · exact hself hmem
        · have hcall := (Plan.mem_trace_iff hbelow h).1 ht
          exact .step hcall ((hcalls t c₁ hcall).1 hmem)
      · intro hreach
        cases hreach with
        | refl => exact .inl rfl
        | @step _ t _ _ c₁ _ hcall hrest =>
          exact .inr ⟨(t, c₁), (Plan.mem_trace_iff hbelow h).2 hcall, (hcalls t c₁ hcall).2 hrest⟩

/-! ## Deciding faithfulness -/

instance (rounds : Nat) (c : Checker) : Decidable (c.Coherent rounds) :=
  decidable_of_iff (∀ layer ∈ c.subst.layers, ∀ e ∈ layer.entries,
      (c.settled rounds (.var e.1)).nameless = (c.settled rounds e.2).nameless)
    ⟨fun h layer hlayer v t hv => h layer hlayer (v, t) (Table.mem_entries_iff.2 hv),
      fun h layer hlayer e he => h layer hlayer e.1 e.2 (Table.mem_entries_iff.1 he)⟩

instance (rounds : Nat) (ctx : Context) (v : String) (t : Ty) (c : Checker) :
    Decidable (Generalizes rounds ctx v t c) :=
  decidable_of_iff (c.settled rounds (.var v) = .var v ∧ v ∉ (c.settled rounds t).freeVars ∧
      (∀ u ∈ ctx.terms, v ∉ (c.settled rounds u).freeVars) ∧
      ∀ u ∈ c.globals.values, v ∉ (c.settled rounds u).freeVars)
    ⟨fun ⟨hunsolved, htype, hlocals, hglobals⟩ =>
        ⟨hunsolved, htype, hlocals, Table.all_iff_values.2 hglobals⟩,
      fun ⟨hunsolved, htype, hlocals, hglobals⟩ =>
        ⟨hunsolved, htype, hlocals, Table.all_iff_values.1 hglobals⟩⟩

namespace Task

/-- Whether a task fails or gives what `P` says, with a limit. -/
def givesWithin (sig : Signature) (limit : Nat) (task : Task) (c : Checker)
    (P : task.Result → Checker → Bool) : Bool :=
  match task.outcome? sig limit c with
  | some (some (a, c')) => P a c'
  | _ => true

theorem givesWithin_iff (h : task.outcome? sig limit c ≠ none) {P : task.Result → Checker → Bool} :
    task.givesWithin sig limit c P = true ↔ ∀ a c', Returns sig task c a c' → P a c' = true := by
  rw [givesWithin]
  split
  next a c₁ ha =>
    refine ⟨fun hP a' c' hreturns => ?_, fun hall => hall a c₁ ⟨limit, ha⟩⟩
    cases hreturns.outcome? ha
    exact hP
  next hnot =>
    refine iff_of_true rfl fun a c' hreturns => ?_
    obtain ⟨o, ho⟩ := Option.ne_none_iff_exists'.1 h
    rw [hreturns.outcome? ho] at ho
    exact absurd ho (hnot a c')

/-- Whether a task is faithful, decided with a limit. -/
def faithfulWithin (sig : Signature) (limit rounds : Nat) : Task → Checker → Bool
  | unify ctx left right, c => (unify ctx left right).givesWithin sig limit c fun _ c' =>
    decide (c'.Coherent rounds ∧
      (c'.settled rounds left).nameless = (c'.settled rounds right).nameless)
  | infer ctx (.tlam v body), c => (infer ctx (.tlam v body)).givesWithin sig limit c fun t c' =>
    decide (Generalizes rounds ctx v t c')
  | check ctx (.tlam v body) expected, c =>
    (check ctx (.tlam v body) expected).givesWithin sig limit c fun _ c' =>
      decide (Generalizes rounds ctx v expected c')
  | _, _ => true

theorem faithfulWithin_iff {rounds : Nat} (h : task.outcome? sig limit c ≠ none) :
    task.faithfulWithin sig limit rounds c = true ↔ task.Faithful sig rounds c := by
  cases task with
  | unify ctx left right =>
    rw [faithfulWithin, givesWithin_iff h]
    simp only [decide_eq_true_eq]
    exact ⟨fun hall c' => hall () c', fun hall _ c' => hall c'⟩
  | infer ctx t =>
    cases t with
    | tlam v body =>
      rw [faithfulWithin, givesWithin_iff h]
      simp only [decide_eq_true_eq]
      rfl
    | _ => exact iff_of_true rfl trivial
  | check ctx t expected =>
    cases t with
    | tlam v body =>
      rw [faithfulWithin, givesWithin_iff h]
      simp only [decide_eq_true_eq]
      exact ⟨fun hall c' => hall () c', fun hall _ c' => hall c'⟩
    | _ => exact iff_of_true rfl trivial
  | _ => exact iff_of_true rfl trivial

end Task

end Checker

namespace Module

open Checker

/-- Whether the check of a module comes to an end with a limit and is faithful. -/
def faithfulWithin (m : Module) (limit rounds : Nat) : Bool :=
  (m.task.outcome? m.toSignature limit m.initial).isSome &&
    (m.task.trace m.toSignature limit m.task.size m.initial).all fun (task, c) =>
      task.faithfulWithin m.toSignature limit rounds c

/-- That can be decided for every module whose check comes to an end. -/
theorem faithfulWithin_iff {m : Module} {limit rounds : Nat} :
    m.faithfulWithin limit rounds = true ↔
      m.task.outcome? m.toSignature limit m.initial ≠ none ∧ m.Faithful rounds := by
  rw [faithfulWithin, Bool.and_eq_true, Option.isSome_iff_ne_none, List.all_eq_true]
  refine and_congr_right fun h => ⟨fun hall task c hreach => ?_, ?_⟩
  · refine (Task.faithfulWithin_iff (hreach.outcome?_ne_none h)).1 (hall (task, c) ?_)
    exact (Task.mem_trace_iff (Nat.le_refl _) h).2 hreach
  · rintro hfaithful ⟨task, c⟩ hmem
    have hreach := (Task.mem_trace_iff (Nat.le_refl _) h).1 hmem
    exact (Task.faithfulWithin_iff (hreach.outcome?_ne_none h)).2 (hfaithful task c hreach)

end Module

end PolyLambda
