import PolyLambda.Proofs.Typing.Names
import PolyLambda.Proofs.Typing.Termination

/-!
# The type variables that a check is about

A checker passes through states in which it calls a task and states in which one returns. In all of
them it knows of no type variables but its metas and those that the program writes.
-/

namespace PolyLambda

open Checker

namespace Module

/-- The states that the check of a module passes through: those in which a task is called, and those
in which one returns. -/
def Visits (m : Module) (c : Checker) : Prop :=
  ∃ task c₀, Reaches m.toSignature m.task m.initial task c₀ ∧
    (c = c₀ ∨ ∃ a, Returns m.toSignature task c₀ a c)

/-- The names that the program writes as type variables, with or without primes. -/
def Writes (m : Module) : String → Prop :=
  withPrimes (· ∈ m.typeNames)

theorem writes_of_mem {m : Module} {v : String} (h : v ∈ m.typeNames) : m.Writes v :=
  withPrimes_of_mem h

theorem over_ofSurface (ds : List Surface.Declaration) :
    (ofSurface ds).toSignature.Over (ofSurface ds).Writes := by
  have hclosed := closed_ofSurface ds
  generalize ofSurface ds = m at hclosed
  have hvalue {t : Ty} {name : String} {table : Table Ty} (ht : table.get? name = some t)
      (htable : ∀ v ∈ table.values.flatMap Ty.names, m.Writes v) :
      t.Over m.Writes m.Writes :=
    Ty.over_iff_names.2 fun v hv =>
      htable v (List.mem_flatMap.2 ⟨t, Table.mem_values_iff.2 ⟨name, ht⟩, hv⟩)
  have hsig : ∀ v ∈ m.toSignature.typeNames, m.Writes v :=
    fun v hv => writes_of_mem (List.mem_append_left _ hv)
  rw [Signature.typeNames, List.forall_mem_append, List.forall_mem_append] at hsig
  obtain ⟨⟨hconstructors, hprimitives⟩, hglobals⟩ := hsig
  refine ⟨hclosed.constructorTypes, fun name t ht v hv => ?_, fun name t ht => ?_,
    fun name t ht => ?_⟩
  · exact hconstructors v (List.mem_flatMap.2 ⟨t, Table.mem_values_iff.2 ⟨name, ht⟩, hv⟩)
  · exact hvalue ht hprimitives
  · exact hvalue ht hglobals

theorem starts_task {m : Module} (h : m.toSignature.Over m.Writes) :
    m.task.Starts m.toSignature m.Writes m.initial := by
  refine ⟨⟨fun name t ht => handled_of_names (h.globalTypes name t ht), Substitution.over_empty⟩,
    Table.all_empty, fun d hd v hv => ?_⟩
  exact writes_of_mem (List.mem_append_right _ (List.mem_flatMap.2 ⟨d, hd, hv⟩))

/-- All that is learned in a check is about metas and names that the program writes. -/
theorem over_of_visits {ds : List Surface.Declaration} {c : Checker} (h : (ofSurface ds).Visits c) :
    c.Over (ofSurface ds).Writes := by
  obtain ⟨task, c₀, hreach, hc⟩ := h
  have hverified := verified_names (primeClosed_withPrimes _) (over_ofSurface ds)
  have hstarts := hverified.reaches (fun _ _ _ => trivial) (starts_task (over_ofSurface ds)) hreach
  rcases hc with rfl | ⟨a, ha⟩
  · exact hstarts.1
  · exact (hverified.returns (fun _ _ _ => trivial) hstarts ha).1.known

end Module

/-- At every point of a check the variables that are solved are metas that were handed out and names
that the program writes. -/
theorem known_of_resolved_ne {ds : List Surface.Declaration} {c : Checker}
    (hvisits : (Module.ofSurface ds).Visits c) {v : String} (h : c.resolved (.var v) ≠ .var v) :
    Known (Module.ofSurface ds).Writes c.nextMeta v := by
  refine (Module.over_of_visits hvisits).subst.names v ?_
  by_contra hnot
  exact h (Substitution.apply_var_eq_self hnot)

end PolyLambda
