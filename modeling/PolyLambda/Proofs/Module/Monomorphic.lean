import PolyLambda.Proofs.Module.FreeTypeVars
import PolyLambda.Proofs.Module.Signature
import PolyLambda.Proofs.Typing.Judgment
import PolyLambda.Proofs.Typing.Names
import PolyLambda.Proofs.Unify.Finished

/-!
# Programs without explicit polymorphism

A program without type abstractions, type applications and quantifiers writes no type variables,
apart from the parameters of data types.
-/

namespace PolyLambda

namespace Term

mutual

/-- Whether a term has no type abstractions, no type applications and no quantifiers. -/
def isMonomorphic : Term → Bool
  | .var _ | .global _ | .int _ | .string _ | .prim _ => true
  | .lam type body => type.all (fun t => decide t.QuantifierFree) && body.isMonomorphic
  | .app fn arg => fn.isMonomorphic && arg.isMonomorphic
  | .tlam _ _ | .tapp _ _ => false
  | .con _ args | .tool _ args => areMonomorphic args
  | .case scrutinee branches => scrutinee.isMonomorphic && branchesAreMonomorphic branches
  | .letIn _ value body => value.isMonomorphic && body.isMonomorphic

def areMonomorphic : List Term → Bool
  | [] => true
  | arg :: args => arg.isMonomorphic && areMonomorphic args

def branchesAreMonomorphic : List Branch → Bool
  | [] => true
  | .mk _ _ body :: branches => body.isMonomorphic && branchesAreMonomorphic branches

end

end Term

/-- Whether a declaration has no type abstractions, no type applications and no quantifiers. -/
def Declaration.isMonomorphic : Declaration → Bool
  | .data d => d.constructors.all fun c => c.fields.all fun t => decide t.QuantifierFree
  | .definition d => d.type.all (fun t => decide t.QuantifierFree) && d.body.isMonomorphic
  | .primType _ => true
  | .primOp _ type => decide type.QuantifierFree

/-- Whether a program has no type abstractions, no type applications and no quantifiers. -/
def Module.Monomorphic (m : Module) : Prop :=
  ∀ d ∈ m.declarations, d.isMonomorphic = true

instance (m : Module) : Decidable m.Monomorphic :=
  inferInstanceAs (Decidable (∀ d ∈ m.declarations, _))

namespace Module

variable {m : Module}

theorem Monomorphic.fields (h : m.Monomorphic) {d : DataDecl} (hd : .data d ∈ m.declarations) :
    ∀ c ∈ d.constructors, ∀ t ∈ c.fields, t.QuantifierFree := by
  have hall := h _ hd
  simp only [Declaration.isMonomorphic, List.all_eq_true, decide_eq_true_eq] at hall
  exact hall

theorem Monomorphic.definition (h : m.Monomorphic) {d : Definition} (hd : d ∈ m.definitions) :
    (∀ t ∈ d.type, t.QuantifierFree) ∧ d.body.isMonomorphic = true := by
  have hall := h _ (mem_definitions_iff.1 hd)
  simp only [Declaration.isMonomorphic, Bool.and_eq_true, Option.all_eq_true,
    decide_eq_true_eq] at hall
  exact hall

end Module

/-! ## Type variables -/

theorem Ty.names_eq_nil {t : Ty} (hquantifierFree : t.QuantifierFree) (hclosed : t.freeVars = []) :
    t.names = [] := by
  rw [names, hclosed, binders_eq_nil_iff.2 hquantifierFree, List.append_nil]

namespace Term

variable {params : List String}

mutual

theorem typeNames_eq_nil : (t : Term) → t.isMonomorphic = true → t.freeTypeVars = [] →
    t.typeNames params = []
  | .var _, _, _ | .global _, _, _ | .int _, _, _ | .string _, _, _ | .prim _, _, _ => by
    rw [typeNames]
  | .lam type body, hmono, hclosed => by
    rw [isMonomorphic, Bool.and_eq_true] at hmono
    rw [freeTypeVars, List.append_eq_nil_iff] at hclosed
    rw [typeNames, typeNames_eq_nil body hmono.2 hclosed.2, List.append_nil]
    cases type with
    | none => rfl
    | some t => exact Ty.names_eq_nil (of_decide_eq_true hmono.1) hclosed.1
  | .app fn arg, hmono, hclosed => by
    rw [isMonomorphic, Bool.and_eq_true] at hmono
    rw [freeTypeVars, List.append_eq_nil_iff] at hclosed
    rw [typeNames, typeNames_eq_nil fn hmono.1 hclosed.1, typeNames_eq_nil arg hmono.2 hclosed.2,
      List.append_nil]
  | .tlam _ _, hmono, _ | .tapp _ _, hmono, _ => by
    rw [isMonomorphic] at hmono
    cases hmono
  | .con _ args, hmono, hclosed | .tool _ args, hmono, hclosed => by
    rw [isMonomorphic] at hmono
    rw [freeTypeVars] at hclosed
    rw [typeNames, typeNamesAll_eq_nil args hmono hclosed]
  | .case scrutinee branches, hmono, hclosed => by
    rw [isMonomorphic, Bool.and_eq_true] at hmono
    rw [freeTypeVars, List.append_eq_nil_iff] at hclosed
    rw [typeNames, typeNames_eq_nil scrutinee hmono.1 hclosed.1,
      typeNamesBranches_eq_nil branches hmono.2 hclosed.2, List.append_nil]
  | .letIn _ value body, hmono, hclosed => by
    rw [isMonomorphic, Bool.and_eq_true] at hmono
    rw [freeTypeVars, List.append_eq_nil_iff] at hclosed
    rw [typeNames, typeNames_eq_nil value hmono.1 hclosed.1,
      typeNames_eq_nil body hmono.2 hclosed.2, List.append_nil]

theorem typeNamesAll_eq_nil : (ts : List Term) → areMonomorphic ts = true →
    freeTypeVarsAll ts = [] → typeNamesAll params ts = []
  | [], _, _ => by rw [typeNamesAll]
  | t :: ts, hmono, hclosed => by
    rw [areMonomorphic, Bool.and_eq_true] at hmono
    rw [freeTypeVarsAll, List.append_eq_nil_iff] at hclosed
    rw [typeNamesAll, typeNames_eq_nil t hmono.1 hclosed.1,
      typeNamesAll_eq_nil ts hmono.2 hclosed.2, List.append_nil]

theorem typeNamesBranches_eq_nil : (branches : List Branch) →
    branchesAreMonomorphic branches = true → freeTypeVarsBranches branches = [] →
    typeNamesBranches params branches = []
  | [], _, _ => by rw [typeNamesBranches]
  | .mk _ _ body :: branches, hmono, hclosed => by
    rw [branchesAreMonomorphic, Bool.and_eq_true] at hmono
    rw [freeTypeVarsBranches, List.append_eq_nil_iff] at hclosed
    rw [typeNamesBranches, typeNames_eq_nil body hmono.1 hclosed.1,
      typeNamesBranches_eq_nil branches hmono.2 hclosed.2, List.append_nil]

end

end Term

/-! ## The tables of a module -/

namespace Module

/-- Whether the tables of constructors and globals hold no more than what is declared. -/
structure Tabulates (m : Module) : Prop where
  constructorTypes : m.constructorTypes.All fun t => ∃ (d : DataDecl) (c : ConstructorDecl),
    c ∈ d.constructors ∧ t = d.constructorType c ∧
      (d = Prelude.boolDecl ∨ .data d ∈ m.declarations)
  globalTypes : m.globalTypes.All fun t => ∃ d ∈ m.definitions, d.type = some t

/-- What the tables have after one more declaration that they did not have before has to be declared
by it. -/
theorem Tabulates.accept {m : Module} (h : m.Tabulates) {d : Declaration} {sig : Signature}
    {warnings : List Warning}
    (hconstructors : sig.constructorTypes.All fun t =>
      (∃ name, m.constructorTypes.get? name = some t) ∨
        ∃ (decl : DataDecl) (c : ConstructorDecl), d = .data decl ∧ c ∈ decl.constructors ∧
          t = decl.constructorType c)
    (hglobals : sig.globalTypes.All fun t => (∃ name, m.globalTypes.get? name = some t) ∨
      ∃ definition : Definition, d = .definition definition ∧ definition.type = some t) :
    (m.accept d sig warnings).Tabulates := by
  constructor
  · intro name t ht
    rcases hconstructors name t ht with ⟨name, ht⟩ | ⟨decl, c, rfl, hc, heq⟩
    · obtain ⟨decl, c, hc, heq, hdecl⟩ := h.constructorTypes name t ht
      exact ⟨decl, c, hc, heq, hdecl.imp_right (List.mem_append_left _)⟩
    · exact ⟨decl, c, hc, heq, .inr (List.mem_append_right _ List.mem_cons_self)⟩
  · intro name t ht
    simp only [definitions_accept, List.mem_append]
    rcases hglobals name t ht with ⟨name, ht⟩ | ⟨definition, rfl, htype⟩
    · obtain ⟨definition, hdefinition, htype⟩ := h.globalTypes name t ht
      exact ⟨definition, .inl hdefinition, htype⟩
    · exact ⟨definition, .inr List.mem_cons_self, htype⟩

theorem tabulates_prelude : Prelude.emptyModule.Tabulates where
  constructorTypes := by
    refine Table.all_iff_values.2 fun t ht => ?_
    have hbools : ∀ t ∈ Prelude.signature.constructorTypes.values,
        ∃ c ∈ Prelude.boolDecl.constructors, t = Prelude.boolDecl.constructorType c := by decide
    obtain ⟨c, hc, heq⟩ := hbools t ht
    exact ⟨Prelude.boolDecl, c, hc, heq, .inl rfl⟩
  globalTypes := Table.all_empty

theorem tabulates_ofSurface (ds : List Surface.Declaration) : (ofSurface ds).Tabulates := by
  refine ofSurface_induct tabulates_prelude (fun m m' hm h => ?_) ds
  cases hm with
  | unchanged => exact ⟨h.constructorTypes, h.globalTypes⟩
  | data d =>
    refine h.accept (Table.All.foldl_insert ConstructorDecl.name d.constructorType
      (fun name t ht => .inl ⟨name, ht⟩) fun c hc => ?_) fun name t ht => .inl ⟨name, ht⟩
    exact .inr ⟨d, c, rfl, hc, rfl⟩
  | redeclared d old =>
    refine h.accept (Table.All.foldl_insert ConstructorDecl.name d.constructorType
      (Table.All.foldl_erase ConstructorDecl.name fun name t ht => .inl ⟨name, ht⟩) fun c hc => ?_)
      fun name t ht => .inl ⟨name, ht⟩
    exact .inr ⟨d, c, rfl, hc, rfl⟩
  | primType name =>
    exact h.accept (fun name t ht => .inl ⟨name, ht⟩) fun name t ht => .inl ⟨name, ht⟩
  | primOp name type =>
    exact h.accept (fun name t ht => .inl ⟨name, ht⟩) fun name t ht => .inl ⟨name, ht⟩
  | definition d =>
    refine h.accept ?_ ?_
    · rw [show (m.withGlobal d.name d.type).constructorTypes = m.constructorTypes by
        cases d.type <;> rfl]
      exact fun name t ht => .inl ⟨name, ht⟩
    · cases htype : d.type with
      | none => exact fun name t ht => .inl ⟨name, ht⟩
      | some t =>
        exact Table.All.insert (fun name t ht => .inl ⟨name, ht⟩) d.name (.inr ⟨d, rfl, htype⟩)
  | llm d f type more _ _ hdeclared =>
    exact h.accept (fun name t ht => .inl ⟨name, ht⟩)
      (Table.All.insert (fun name t ht => .inl ⟨name, ht⟩) f.name (.inr ⟨d, rfl, hdeclared⟩))

/-- A program without explicit polymorphism writes no type variables but the parameters of data
types. -/
theorem Monomorphic.typeNames_eq_nil {ds : List Surface.Declaration}
    (h : (ofSurface ds).Monomorphic)
    (hprimitives : (ofSurface ds).primitiveTypes = Prelude.signature.primitiveTypes) :
    (ofSurface ds).typeNames = [] := by
  have htables := tabulates_ofSurface ds
  have hclosed := typeClosed_ofSurface ds
  have htypes : ∀ d ∈ (ofSurface ds).definitions, ∀ t ∈ d.type, t.names = [] :=
    fun d hd t ht => Ty.names_eq_nil ((h.definition hd).1 t ht) ((hclosed d hd).type t ht)
  rw [typeNames, Signature.typeNames, List.append_eq_nil_iff, List.append_eq_nil_iff,
    List.append_eq_nil_iff, List.flatMap_eq_nil_iff, List.flatMap_eq_nil_iff,
    List.flatMap_eq_nil_iff, List.flatMap_eq_nil_iff, hprimitives]
  refine ⟨⟨⟨Table.all_iff_values.1 fun name t ht => ?_, by decide⟩,
    Table.all_iff_values.1 fun name t ht => ?_⟩, fun d hd => ?_⟩
  · obtain ⟨d, c, hc, rfl, hd⟩ := htables.constructorTypes name t ht
    have hfields : ∀ t ∈ c.fields, t.QuantifierFree := by
      rcases hd with rfl | hd
      · have hnone : ∀ c ∈ Prelude.boolDecl.constructors, c.fields = [] := by decide
        rw [hnone c hc]
        exact nofun
      · exact h.fields hd c hc
    have hresult : d.result.QuantifierFree :=
      Ty.quantifierFree_data_iff.2 (List.forall_mem_map.2 fun v _ => Ty.quantifierFree_var v)
    have hover {t : Ty} (ht : t.QuantifierFree) : t.Over (fun _ => True) fun _ => False :=
      Ty.over_of_binders_eq_nil (Ty.binders_eq_nil_iff.2 ht) fun _ _ => trivial
    rw [DataDecl.splitAlls_constructorType]
    exact (Ty.over_arrows (fun t ht => hover (hfields t ht)) (hover hresult)).binders_eq_nil
  · obtain ⟨d, hd, htype⟩ := htables.globalTypes name t ht
    exact htypes d hd t htype
  · rw [Definition.typeNames, Term.typeNames_eq_nil d.body (h.definition hd).2 (hclosed d hd).body,
      List.append_nil]
    cases htype : d.type with
    | none => rfl
    | some t => exact htypes d hd t htype

end Module

end PolyLambda
