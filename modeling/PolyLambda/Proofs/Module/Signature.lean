import PolyLambda.Proofs.Module.Declare

/-!
# The tables of a module

Whatever declarations a module is made of, the types in its tables are closed.
-/

namespace PolyLambda

/-! ## Chains of arrows and quantifiers -/

namespace Ty

theorem mem_freeVars_alls {vars : List String} {t : Ty} {v : String} :
    v ∈ (alls vars t).freeVars ↔ v ∈ t.freeVars ∧ v ∉ vars := by
  induction vars with
  | nil => simp [alls]
  | cons w vars ih =>
    have hcons : alls (w :: vars) t = .all w (alls vars t) := rfl
    rw [hcons, freeVars, List.mem_filter, ih]
    simp only [decide_eq_true_eq, List.mem_cons, not_or]
    grind

theorem mem_freeVars_arrows {params : List Ty} {t : Ty} {v : String} :
    v ∈ (arrows params t).freeVars ↔ v ∈ freeVarsAll params ∨ v ∈ t.freeVars := by
  induction params with
  | nil => simp [arrows, freeVarsAll]
  | cons p params ih =>
    have hcons : arrows (p :: params) t = .arrow p (arrows params t) := rfl
    rw [hcons, freeVars, List.mem_append, ih, freeVarsAll, List.mem_append, or_assoc]

end Ty

/-- The type of a constructor is closed if its fields have no other variables than the
parameters. -/
theorem DataDecl.freeVars_constructorType {d : DataDecl} {c : ConstructorDecl}
    (h : ∀ v ∈ Ty.freeVarsAll c.fields, v ∈ d.params) : (d.constructorType c).freeVars = [] := by
  refine List.eq_nil_iff_forall_not_mem.2 fun v hv => ?_
  obtain ⟨hv, hnot⟩ := Ty.mem_freeVars_alls.1 hv
  rcases Ty.mem_freeVars_arrows.1 hv with hv | hv
  · exact hnot (h v hv)
  · obtain ⟨t, ht, hv⟩ := Ty.mem_freeVarsAll.1 hv
    obtain ⟨p, hp, rfl⟩ := List.mem_map.1 ht
    rw [List.mem_singleton.1 hv] at hnot
    exact hnot hp

/-! ## Closed tables -/

/-- Whether all types in the tables are closed. -/
structure Signature.Closed (sig : Signature) : Prop where
  constructorTypes : sig.constructorTypes.All fun t => t.freeVars = []
  globalTypes : sig.globalTypes.All fun t => t.freeVars = []
  primitiveTypes : sig.primitiveTypes.All fun t => t.freeVars = []

/-- Whether the constructors of a signature have the types that constructors of data types have, and
its primitives closed types. -/
structure Signature.WellFormed (sig : Signature) : Prop where
  constructorTypes : sig.constructorTypes.All fun t => ∃ (d : DataDecl) (c : ConstructorDecl),
    t = d.constructorType c ∧ ∀ v ∈ Ty.freeVarsAll c.fields, v ∈ d.params
  primitiveTypes : sig.primitiveTypes.All fun t => t.freeVars = []

namespace Module

theorem closed_withData {sig : Signature} (h : sig.Closed) {d : DataDecl}
    (hfields : ∀ c ∈ d.constructors, ∀ v ∈ Ty.freeVarsAll c.fields, v ∈ d.params) :
    (sig.withData d).Closed where
  constructorTypes := h.constructorTypes.foldl_insert ConstructorDecl.name d.constructorType
    fun c hc => DataDecl.freeVars_constructorType (hfields c hc)
  globalTypes := h.globalTypes
  primitiveTypes := h.primitiveTypes

theorem closed_withGlobal {sig : Signature} (h : sig.Closed) (name : String) {type : Option Ty}
    (htype : ∀ t ∈ type, t.freeVars = []) : (sig.withGlobal name type).Closed := by
  cases type with
  | none => exact h
  | some t =>
    exact ⟨h.constructorTypes, h.globalTypes.insert name (htype t rfl), h.primitiveTypes⟩

theorem closed_prelude : Prelude.signature.Closed where
  constructorTypes := Table.all_iff_values.2 (by decide)
  globalTypes := Table.all_empty
  primitiveTypes := Table.all_iff_values.2 (by decide)

/-- The tables of a module hold closed types only. -/
theorem closed_ofSurface (ds : List Surface.Declaration) : (ofSurface ds).toSignature.Closed := by
  refine ofSurface_induct (P := fun m => m.toSignature.Closed) closed_prelude ?_ ds
  intro m m' hm h
  cases hm with
  | unchanged => exact h
  | data d _ hfields => exact closed_withData h hfields.freeVars
  | redeclared d old _ hfields =>
    have hcleared : (m.withoutConstructors old).Closed :=
      ⟨h.constructorTypes.foldl_erase ConstructorDecl.name, h.globalTypes, h.primitiveTypes⟩
    exact closed_withData hcleared hfields.freeVars
  | primType name => exact ⟨h.constructorTypes, h.globalTypes, h.primitiveTypes⟩
  | primOp name type htype =>
    exact ⟨h.constructorTypes, h.globalTypes, h.primitiveTypes.insert name htype.closed⟩
  | definition d e more _ htype _ =>
    exact closed_withGlobal h d.name fun t ht => (htype t ht).closed
  | llm d f type more _ _ _ htype _ =>
    exact ⟨h.constructorTypes, h.globalTypes.insert f.name htype.closed,
      h.primitiveTypes.insert f.primitive htype.closed⟩

/-- The constructors of a module belong to data types. -/
theorem wellFormed_ofSurface (ds : List Surface.Declaration) :
    (ofSurface ds).toSignature.WellFormed := by
  refine ⟨?_, (closed_ofSurface ds).primitiveTypes⟩
  refine ofSurface_induct (P := fun m => m.constructorTypes.All fun t => ∃ d c,
    t = DataDecl.constructorType d c ∧ ∀ v ∈ Ty.freeVarsAll c.fields, v ∈ d.params) ?_ ?_ ds
  · refine Table.all_iff_values.2 fun t ht =>
      ⟨Prelude.boolDecl, ⟨"True", []⟩, ?_, List.forall_mem_nil _⟩
    revert t
    decide
  · intro m m' hm h
    cases hm with
    | data d _ hfields =>
      exact h.foldl_insert ConstructorDecl.name d.constructorType fun c hc =>
        ⟨d, c, rfl, hfields.freeVars c hc⟩
    | redeclared d old _ hfields =>
      exact (h.foldl_erase ConstructorDecl.name).foldl_insert ConstructorDecl.name d.constructorType
        fun c hc => ⟨d, c, rfl, hfields.freeVars c hc⟩
    | definition d e more _ htype _ =>
      show (m.withGlobal d.name d.type).constructorTypes.All _
      cases d.type <;> exact h
    | _ => exact h

end Module

end PolyLambda
