import PolyLambda.Proofs.Module.Scoped
import PolyLambda.Proofs.Term.Mentions

/-!
# What the definitions of a module use

Names are resolved against the tables as they are where a definition stands, but looked up later in
the tables of the whole module. Constructors may have gone by then; definitions and primitives have
not: a module only gains them as declarations are added (`Extends`). So every definition uses only
itself, those before it and primitives of the module (`inOrder_ofSurface`), each of which the
language, a model or a declaration stands for (`exists_of_primitiveTypes`).
-/

namespace PolyLambda

/-! ## Resolved terms -/

/-- Whether the primitives that are mentioned have a type. -/
def Signature.Admits (sig : Signature) : Mention → Prop
  | .primitive name => sig.primitiveTypes.contains name = true
  | _ => True

/-- Whether a term uses what is in scope. -/
def Scope.Has (scope : Scope) (t : Term) : Prop :=
  t.Within scope.sig.Admits scope.globals scope.locals.length

/-- Inside binders of some variables there are so many more. -/
theorem has_bind_iff {scope : Scope} {vars : List String} {t : Term} :
    (scope.bind vars).Has t ↔
      t.Within scope.sig.Admits scope.globals (vars.length + scope.locals.length) := by
  rw [Scope.Has, Scope.bind, List.length_append]

namespace Scope

open Surface (Expr)

mutual

/-- A resolved term uses what is in scope. -/
theorem Resolves.has {scope : Scope} {e : Expr} {t : Term} : scope.Resolves e t → scope.Has t
  | .localVar hlocal => (List.idxOf?_eq_some_iff.1 hlocal).1
  | .global _ hglobal => hglobal
  | .primitive _ _ hprimitive => hprimitive
  | .bareCon .. => ⟨trivial, trivial⟩
  | .lam hbody | .annotatedLam _ hbody => hbody.has
  | .app hfn harg => ⟨hfn.has, harg.has⟩
  | .tlam hbody => hbody.has
  | .tapp hfn _ => ⟨trivial, hfn.has⟩
  | .letIn hvalue hbody => ⟨hvalue.has, hbody.has⟩
  | .ann _ hexpr => ⟨Nat.succ_pos _, hexpr.has⟩
  | .con _ hargs => ⟨trivial, hargs.has⟩
  | .case hscrutinee hbranches => ⟨hscrutinee.has, hbranches.has⟩
  | .tool hargs => ⟨trivial, hargs.has⟩
  | .int | .string => trivial
  | .op _ hprimitive hargs => Term.AllWithin.foldl_app (t := .prim _) hprimitive hargs.has

theorem ResolvesAll.has {scope : Scope} {es : List Expr} {ts : List Term} :
    scope.ResolvesAll es ts → Term.AllWithin scope.sig.Admits scope.globals scope.locals.length ts
  | .nil => trivial
  | .cons harg hargs => ⟨harg.has, hargs.has⟩

theorem ResolvesBranches.has {scope : Scope} {branches : List Surface.Branch} {bs : List Branch} :
    scope.ResolvesBranches branches bs →
      Term.BranchesWithin scope.sig.Admits scope.globals scope.locals.length bs
  | .nil => trivial
  | .cons _ hbody hbranches => ⟨trivial, has_bind_iff.1 hbody.has, hbranches.has⟩

end

end Scope

namespace Module

/-! ## What a module gains -/

/-- Whether a module has all errors, definitions and primitives of another one, in the same
order. -/
structure Extends (m m' : Module) : Prop where
  errors : m.errors <+: m'.errors
  definitions : m.definitions <+: m'.definitions
  primitiveTypes : ∀ name, m.primitiveTypes.contains name = true →
    m'.primitiveTypes.contains name = true
  llmFunctions : ∀ name, m.llmFunctions.contains name = true → m'.llmFunctions.contains name = true

theorem Extends.refl (m : Module) : m.Extends m :=
  ⟨List.prefix_rfl, List.prefix_rfl, fun _ => id, fun _ => id⟩

theorem Extends.trans {m₁ m₂ m₃ : Module} (h : m₁.Extends m₂) (h' : m₂.Extends m₃) :
    m₁.Extends m₃ where
  errors := h.errors.trans h'.errors
  definitions := h.definitions.trans h'.definitions
  primitiveTypes name hname := h'.primitiveTypes name (h.primitiveTypes name hname)
  llmFunctions name hname := h'.llmFunctions name (h.llmFunctions name hname)

/-- An accepted declaration extends a module if its tables keep primitives and model functions. -/
theorem extends_accept (m : Module) (d : Declaration) {sig : Signature} (warnings : List Warning)
    (hprimitives : ∀ name, m.primitiveTypes.contains name = true →
      sig.primitiveTypes.contains name = true)
    (hllm : ∀ name, m.llmFunctions.contains name = true → sig.llmFunctions.contains name = true) :
    m.Extends (m.accept d sig warnings) where
  errors := List.prefix_rfl
  definitions := by
    rw [definitions_accept]
    exact List.prefix_append _ _
  primitiveTypes := hprimitives
  llmFunctions := hllm

theorem withGlobal_primitiveTypes (sig : Signature) (name : String) (type : Option Ty) :
    (sig.withGlobal name type).primitiveTypes = sig.primitiveTypes ∧
      (sig.withGlobal name type).llmFunctions = sig.llmFunctions := by
  cases type <;> exact ⟨rfl, rfl⟩

theorem Declares.extends {m m' : Module} (h : Declares m m') : m.Extends m' := by
  cases h with
  | unchanged errors warnings =>
    exact ⟨List.prefix_append _ _, List.prefix_rfl, fun _ => id, fun _ => id⟩
  | data => exact extends_accept m _ _ (fun _ => id) fun _ => id
  | redeclared => exact extends_accept m _ _ (fun _ => id) fun _ => id
  | primType => exact extends_accept m _ _ (fun _ => id) fun _ => id
  | primOp name type =>
    exact extends_accept m _ _ (fun other h => (Table.contains_insert other).2 (.inr h)) fun _ => id
  | definition d =>
    obtain ⟨hprimitives, hllm⟩ := withGlobal_primitiveTypes m.toSignature d.name d.type
    refine extends_accept m _ _ ?_ ?_
    · rw [hprimitives]
      exact fun _ => id
    · rw [hllm]
      exact fun _ => id
  | llm d f type =>
    exact extends_accept m _ _ (fun other h => (Table.contains_insert other).2 (.inr h))
      fun other h => (Table.contains_insert other).2 (.inr h)

/-- Further declarations extend a module. -/
theorem extends_ofSurface (ds more : List Surface.Declaration) :
    (ofSurface ds).Extends (ofSurface (ds ++ more)) := by
  have hfold (m : Module) : m.Extends (more.foldl declare m) := by
    induction more generalizing m with
    | nil => exact Extends.refl m
    | cons d more ih => exact (Declares.extends (m.declares d)).trans (ih _)
  rw [ofSurface_append]
  exact hfold _

theorem Extends.admits {m m' : Module} (h : m.Extends m') (x : Mention) (hx : m.Admits x) :
    m'.Admits x := by
  cases x with
  | primitive name => exact h.primitiveTypes name hx
  | _ => trivial

/-! ## What the definitions of a module use -/

/-- The definitions of a module use only themselves, those before them and primitives of the
module. -/
theorem inOrder_ofSurface (ds : List Surface.Declaration) :
    Definition.InOrder (ofSurface ds).Admits [] (ofSurface ds).definitions := by
  refine ofSurface_induct (P := fun m => Definition.InOrder m.Admits [] m.definitions) trivial ?_ ds
  intro m m' hm h
  have hkept : Definition.InOrder m'.Admits [] m.definitions :=
    h.mono fun _ _ x _ => (Declares.extends hm).admits x
  have hnew (d : Definition) (hd : d.body.Within m'.Admits (d.name :: m.globals) 0) :
      Definition.InOrder m'.Admits [] (m.definitions ++ [d]) := by
    refine Definition.inOrder_append_iff.2 ⟨hkept, hd.mono ?_ _ fun _ _ => id, trivial⟩
    simp [globals]
  have hadmits (x : Mention) : m.Admits x → m'.Admits x := (Declares.extends hm).admits x
  cases hm with
  | unchanged => exact hkept
  | data | redeclared | primType | primOp =>
    simp only [addPrimType, addPrimOp, definitions_accept]
    exact (List.append_nil m.definitions).symm ▸ hkept
  | definition d e more _ _ hbody =>
    rw [definitions_accept]
    exact hnew d ((Scope.resolves_of_resolve e hbody).has.mono (List.Subset.refl _) _
      fun x _ => hadmits x)
  | llm d f type more _ hname _ _ hbody =>
    rw [definitions_accept]
    refine hnew d ?_
    rw [hbody]
    show (m.primitiveTypes.insert f.primitive type).contains f.primitive = true
    rw [Table.contains, Table.get?_insert, if_pos rfl]
    rfl

/-! ## What stands for a primitive -/

/-- Whether model functions are kept under their names. -/
def LlmKeyed (m : Module) : Prop :=
  ∀ name f, m.llmFunctions.get? name = some f → f.name = name

theorem llmKeyed_ofSurface (ds : List Surface.Declaration) : (ofSurface ds).LlmKeyed := by
  refine ofSurface_induct (P := LlmKeyed) nofun ?_ ds
  intro m m' hm h
  cases hm with
  | definition d =>
    rw [LlmKeyed]
    show ∀ name f, (m.withGlobal d.name d.type).llmFunctions.get? name = some f → f.name = name
    rw [(withGlobal_primitiveTypes m.toSignature d.name d.type).2]
    exact h
  | llm d f type =>
    intro name g hg
    have hg : (m.llmFunctions.insert f.name f).get? name = some g := hg
    rw [Table.get?_insert] at hg
    split at hg
    next heq =>
      cases hg
      exact heq.symm
    next => exact h name g hg
  | _ => exact h

/-- A machine has a model function for the primitives of the functions in the table, and no
others. -/
theorem isSome_llmFunction?_iff {m : Module} (h : m.LlmKeyed) (host : Host) {name : String} :
    ((Machine.ofModule m host).llmFunction? name).isSome = true ↔
      ∃ key, m.llmFunctions.contains key = true ∧ name = llmPrimitive key := by
  rw [Machine.llmFunction?, List.find?_isSome]
  constructor
  · rintro ⟨f, hf, hname⟩
    obtain ⟨key, hkey⟩ := Table.mem_values_iff.1 hf
    refine ⟨key, Option.isSome_of_eq_some hkey, ?_⟩
    rw [← h key f hkey]
    exact (of_decide_eq_true hname).symm
  · rintro ⟨key, hkey, rfl⟩
    obtain ⟨f, hf⟩ := Option.isSome_iff_exists.1 hkey
    refine ⟨f, Table.mem_values_iff.2 ⟨key, hf⟩, decide_eq_true ?_⟩
    rw [LlmFunction.primitive, h key f hf]

/-- A primitive of a module is one of the language, computes a model function, or was declared. -/
theorem exists_of_primitiveTypes (ds : List Surface.Declaration) {name : String}
    (hname : (ofSurface ds).primitiveTypes.contains name = true) :
    name ∈ Primitive.builtins.map Primitive.name ∨
      (∃ key, (ofSurface ds).llmFunctions.contains key = true ∧ name = llmPrimitive key) ∨
      name ∈ (ofSurface ds).primOps := by
  refine ofSurface_induct (P := fun m => ∀ name, m.primitiveTypes.contains name = true →
    name ∈ Primitive.builtins.map Primitive.name ∨
      (∃ key, m.llmFunctions.contains key = true ∧ name = llmPrimitive key) ∨ name ∈ m.primOps)
    ?_ ?_ ds name hname
  · intro name hname
    obtain ⟨t, ht⟩ := Option.isSome_iff_exists.1 hname
    have hmem := List.mem_map_of_mem (f := Prod.fst) (Table.mem_of_get?_ofList ht)
    exact .inl hmem
  · intro m m' hm h name hname
    have hold : m.primitiveTypes.contains name = true →
        name ∈ Primitive.builtins.map Primitive.name ∨
          (∃ key, m'.llmFunctions.contains key = true ∧ name = llmPrimitive key) ∨
          name ∈ m.primOps := by
      intro hname
      refine (h name hname).imp_right (Or.imp_left ?_)
      rintro ⟨key, hkey, rfl⟩
      exact ⟨key, (Declares.extends hm).llmFunctions key hkey, rfl⟩
    cases hm with
    | unchanged => exact hold hname
    | data | redeclared | primType =>
      simp only [addPrimType, primOps_accept, List.mem_append]
      exact (hold hname).imp_right (Or.imp_right .inl)
    | primOp other type =>
      simp only [addPrimOp, primOps_accept, List.mem_append]
      rcases (Table.contains_insert name).1 hname with rfl | hname
      · exact .inr (.inr (.inr List.mem_cons_self))
      · exact (hold hname).imp_right (Or.imp_right .inl)
    | definition d =>
      simp only [primOps_accept, List.mem_append]
      have hname : (m.withGlobal d.name d.type).primitiveTypes.contains name = true := hname
      rw [(withGlobal_primitiveTypes m.toSignature d.name d.type).1] at hname
      exact (hold hname).imp_right (Or.imp_right .inl)
    | llm d f type =>
      simp only [primOps_accept, List.mem_append]
      rcases (Table.contains_insert name).1 hname with rfl | hname
      · exact .inr (.inl ⟨f.name, (Table.contains_insert f.name).2 (.inl rfl), rfl⟩)
      · exact (hold hname).imp_right (Or.imp_right .inl)

/-- A definition that a model is to compute has its primitive as its body, and is known to be
one. -/
theorem body_eq_of_pragma (ds : List Surface.Declaration) {d : Definition}
    (hd : d ∈ (ofSurface ds).definitions) (hpragma : (d.pragmas.get? llmPragma).isSome = true) :
    d.body = .prim (llmPrimitive d.name) ∧ (ofSurface ds).llmFunctions.contains d.name = true := by
  refine ofSurface_induct (P := fun m => ∀ d ∈ m.definitions,
    (d.pragmas.get? llmPragma).isSome = true →
      d.body = .prim (llmPrimitive d.name) ∧ m.llmFunctions.contains d.name = true)
    nofun ?_ ds d hd hpragma
  intro m m' hm h d hd hpragma
  have hold : d ∈ m.definitions →
      d.body = .prim (llmPrimitive d.name) ∧ m'.llmFunctions.contains d.name = true :=
    fun hd => (h d hd hpragma).imp_right ((Declares.extends hm).llmFunctions d.name)
  cases hm with
  | unchanged => exact hold hd
  | data | redeclared | primType | primOp =>
    simp only [addPrimType, addPrimOp, definitions_accept] at hd
    exact hold ((List.append_nil m.definitions) ▸ hd)
  | definition new e more _ _ _ hnone =>
    rw [definitions_accept] at hd
    rcases List.mem_append.1 hd with hd | hd
    · exact hold hd
    · rw [List.mem_singleton.1 hd, hnone] at hpragma
      cases hpragma
  | llm new f type more _ hname _ _ hbody =>
    rw [definitions_accept] at hd
    rcases List.mem_append.1 hd with hd | hd
    · exact hold hd
    · rw [List.mem_singleton.1 hd, hbody, LlmFunction.primitive, hname]
      refine ⟨rfl, (Table.contains_insert new.name).2 (.inl hname)⟩

end Module

end PolyLambda
