import PolyLambda.Proofs.Module.WrittenTypes

/-!
# The type variables of a resolved term

A type that is written in a term mentions no other type variables than those of the type
abstractions around it. So the body of a definition has no free ones.
-/

namespace PolyLambda

namespace Term

mutual

/-- The free type variables of a term. -/
def freeTypeVars : Term → List String
  | .var _ | .global _ | .int _ | .string _ | .prim _ => []
  | .lam type body => type.elim [] Ty.freeVars ++ body.freeTypeVars
  | .app fn arg => fn.freeTypeVars ++ arg.freeTypeVars
  | .tlam v body => body.freeTypeVars.filter (· ≠ v)
  | .tapp fn type => fn.freeTypeVars ++ type.freeVars
  | .con _ args => freeTypeVarsAll args
  | .case scrutinee branches => scrutinee.freeTypeVars ++ freeTypeVarsBranches branches
  | .letIn _ value body => value.freeTypeVars ++ body.freeTypeVars
  | .tool _ args => freeTypeVarsAll args

def freeTypeVarsAll : List Term → List String
  | [] => []
  | arg :: args => arg.freeTypeVars ++ freeTypeVarsAll args

def freeTypeVarsBranches : List Branch → List String
  | [] => []
  | .mk _ _ body :: branches => body.freeTypeVars ++ freeTypeVarsBranches branches

end

mutual

/-- A type variable that is free in a term is free in a type that is written there, and bound around
the term. -/
theorem mem_of_mem_freeTypeVars : (t : Term) → {vars : List String} →
    (∀ p ∈ t.writtenTypes vars, ∀ v ∈ p.2.freeVars, v ∈ p.1) → ∀ v ∈ t.freeTypeVars, v ∈ vars
  | .var _, _, _ | .global _, _, _ | .int _, _, _ | .string _, _, _ | .prim _, _, _ => nofun
  | .lam none body, vars, h => mem_of_mem_freeTypeVars body h
  | .lam (some type) body, vars, h => by
    rw [writtenTypes, List.forall_mem_append] at h
    rw [freeTypeVars, List.forall_mem_append]
    exact ⟨List.forall_mem_singleton.1 h.1, mem_of_mem_freeTypeVars body h.2⟩
  | .app fn arg, vars, h => by
    rw [writtenTypes, List.forall_mem_append] at h
    rw [freeTypeVars, List.forall_mem_append]
    exact ⟨mem_of_mem_freeTypeVars fn h.1, mem_of_mem_freeTypeVars arg h.2⟩
  | .tlam w body, vars, h => by
    intro v hv
    obtain ⟨hv, hne⟩ := List.mem_filter.1 hv
    have hbody : ∀ v ∈ body.freeTypeVars, v ∈ w :: vars := mem_of_mem_freeTypeVars body h
    exact (List.mem_cons.1 (hbody v hv)).resolve_left (of_decide_eq_true hne)
  | .tapp fn type, vars, h => by
    rw [writtenTypes, List.forall_mem_append] at h
    rw [freeTypeVars, List.forall_mem_append]
    exact ⟨mem_of_mem_freeTypeVars fn h.1, List.forall_mem_singleton.1 h.2⟩
  | .con _ args, vars, h => mem_of_mem_freeTypeVarsAll args h
  | .case scrutinee branches, vars, h => by
    rw [writtenTypes, List.forall_mem_append] at h
    rw [freeTypeVars, List.forall_mem_append]
    exact ⟨mem_of_mem_freeTypeVars scrutinee h.1, mem_of_mem_freeTypeVarsBranches branches h.2⟩
  | .letIn _ value body, vars, h => by
    rw [writtenTypes, List.forall_mem_append] at h
    rw [freeTypeVars, List.forall_mem_append]
    exact ⟨mem_of_mem_freeTypeVars value h.1, mem_of_mem_freeTypeVars body h.2⟩
  | .tool _ args, vars, h => mem_of_mem_freeTypeVarsAll args h

theorem mem_of_mem_freeTypeVarsAll : (args : List Term) → {vars : List String} →
    (∀ p ∈ writtenTypesAll vars args, ∀ v ∈ p.2.freeVars, v ∈ p.1) →
    ∀ v ∈ freeTypeVarsAll args, v ∈ vars
  | [], _, _ => nofun
  | arg :: args, vars, h => by
    rw [writtenTypesAll, List.forall_mem_append] at h
    rw [freeTypeVarsAll, List.forall_mem_append]
    exact ⟨mem_of_mem_freeTypeVars arg h.1, mem_of_mem_freeTypeVarsAll args h.2⟩

theorem mem_of_mem_freeTypeVarsBranches : (branches : List Branch) → {vars : List String} →
    (∀ p ∈ writtenTypesBranches vars branches, ∀ v ∈ p.2.freeVars, v ∈ p.1) →
    ∀ v ∈ freeTypeVarsBranches branches, v ∈ vars
  | [], _, _ => nofun
  | .mk _ _ body :: branches, vars, h => by
    rw [writtenTypesBranches, List.forall_mem_append] at h
    rw [freeTypeVarsBranches, List.forall_mem_append]
    exact ⟨mem_of_mem_freeTypeVars body h.1, mem_of_mem_freeTypeVarsBranches branches h.2⟩

end

end Term

/-! ## Definitions -/

/-- Whether no type variable is free in a definition. -/
structure Definition.TypeClosed (d : Definition) : Prop where
  type : ∀ t ∈ d.type, t.freeVars = []
  body : d.body.freeTypeVars = []

namespace Module

/-- The type variables of what is written in a program are bound where they stand. -/
theorem bound_ofSurface (ds : List Surface.Declaration) :
    ∀ d ∈ (ofSurface ds).declarations, ∀ p ∈ d.writtenTypes, ∀ v ∈ p.2.freeVars, v ∈ p.1 := by
  refine ofSurface_induct (P := fun m => ∀ d ∈ m.declarations, ∀ p ∈ d.writtenTypes,
    ∀ v ∈ p.2.freeVars, v ∈ p.1) (List.forall_mem_nil _) ?_ ds
  intro m m' hm h d hd p hp
  rcases Declares.writtenTypes hm d hd with hold | ⟨-, hresolves⟩
  · exact h d hold p hp
  · exact (hresolves p hp).freeVars

/-- No type variable is free in a definition of a module. -/
theorem typeClosed_ofSurface (ds : List Surface.Declaration) :
    ∀ d ∈ (ofSurface ds).definitions, d.TypeClosed := by
  intro d hd
  have hbound := bound_ofSurface ds _ (mem_definitions_iff.1 hd)
  rw [Declaration.writtenTypes, List.forall_mem_append] at hbound
  constructor
  · intro t ht
    have hmem : ([], t) ∈ d.type.toList.map (Prod.mk ([] : List String)) :=
      List.mem_map_of_mem (Option.mem_toList.2 ht)
    exact List.eq_nil_iff_forall_not_mem.2 fun v hv => List.not_mem_nil (hbound.1 _ hmem v hv)
  · refine List.eq_nil_iff_forall_not_mem.2 fun v hv => ?_
    exact List.not_mem_nil (d.body.mem_of_mem_freeTypeVars hbound.2 v hv)

end Module

end PolyLambda
