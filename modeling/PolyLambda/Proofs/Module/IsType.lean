import PolyLambda.Proofs.Module.Signature

/-!
# Types over the tables of a program

A type is resolved only if its variables are bound, its data types are declared, with as many
parameters as they are given arguments, and its primitive types are declared too
(`Signature.IsType`). It stays a type as long as the tables keep primitive types and the number of
parameters of data types (`Signature.KeepsTypes`).
-/

namespace PolyLambda

namespace Signature

/-! ## Types over a signature -/

/-- Whether each data type that occurs in a type is in the tables, with as many parameters as it has
arguments, and each primitive type that occurs there is too. -/
inductive Registers (sig : Signature) : Ty → Prop where
  | var (name : String) : sig.Registers (.var name)
  | arrow {param result : Ty} (hparam : sig.Registers param) (hresult : sig.Registers result) :
    sig.Registers (.arrow param result)
  | all (v : String) {body : Ty} (hbody : sig.Registers body) : sig.Registers (.all v body)
  | data {name : String} {args : List Ty} {d : DataDecl} (hd : sig.dataTypes.get? name = some d)
    (hlength : args.length = d.params.length) (hargs : ∀ t ∈ args, sig.Registers t) :
    sig.Registers (.data name args)
  | prim {name : String} (hname : sig.primitiveTypeNames.contains name = true) :
    sig.Registers (.prim name)

/-- Whether a type is one of the program where the type variables `vars` are bound. -/
structure IsType (sig : Signature) (vars : List String) (t : Ty) : Prop where
  bound : ∀ v ∈ t.freeVars, v ∈ vars
  registered : sig.Registers t

section

variable {sig : Signature} {vars : List String} {t : Ty}

theorem Registers.alls (h : sig.Registers t) (vars : List String) :
    sig.Registers (Ty.alls vars t) := by
  induction vars with
  | nil => exact h
  | cons v vars ih => exact .all v ih

theorem Registers.arrows {params : List Ty} (hparams : ∀ p ∈ params, sig.Registers p)
    (h : sig.Registers t) : sig.Registers (Ty.arrows params t) := by
  induction params with
  | nil => exact h
  | cons p params ih =>
    rw [List.forall_mem_cons] at hparams
    exact .arrow hparams.1 (ih hparams.2)

/-- The type of a constructor is one of the program if its fields are, over the parameters. -/
theorem isType_constructorType {d : DataDecl} {c : ConstructorDecl}
    (hd : sig.dataTypes.get? d.name = some d) (hfields : ∀ t ∈ c.fields, sig.IsType d.params t) :
    sig.IsType [] (d.constructorType c) where
  bound := by
    have hvars : ∀ v ∈ Ty.freeVarsAll c.fields, v ∈ d.params := by
      intro v hv
      obtain ⟨t, ht, hv⟩ := Ty.mem_freeVarsAll.1 hv
      exact (hfields t ht).bound v hv
    rw [DataDecl.freeVars_constructorType hvars]
    exact nofun
  registered := by
    have hresult : sig.Registers d.result := by
      refine .data hd (List.length_map _) fun t ht => ?_
      obtain ⟨p, -, rfl⟩ := List.mem_map.1 ht
      exact .var p
    exact (Registers.arrows (fun t ht => (hfields t ht).registered) hresult).alls d.params

end

/-! ## Resolved types -/

section

variable {sig : Signature}

theorem registers_resolveType {span : Span} {name : String} {args : List Ty} {t : Ty}
    (hargs : ∀ arg ∈ args, sig.Registers arg) (h : sig.resolveType span name args = .ok t) :
    sig.Registers t := by
  rw [resolveType] at h
  split at h
  next hprim =>
    split at h
    next =>
      cases h
      exact .prim hprim
    next => cases h
  next =>
    split at h
    next d hd =>
      split at h
      next hlength =>
        cases h
        exact .data hd hlength.symm hargs
      next => cases h
    next => cases h

open Surface in
mutual

theorem registers_resolve : (e : TypeExpr) → {vars : List String} → {t : Ty} →
    e.resolve sig vars = .ok t → sig.Registers t
  | .var span name, vars, t, h => by
    rw [TypeExpr.resolve_var] at h
    split at h
    next =>
      cases h
      exact .var name
    next => cases h
  | .named span name, vars, t, h => by
    rw [TypeExpr.resolve_named] at h
    exact registers_resolveType (List.forall_mem_nil _) h
  | .arrow _ param result, vars, t, h => by
    rw [TypeExpr.resolve_arrow] at h
    obtain ⟨p, hp, h⟩ := bind_eq_ok_iff.1 h
    obtain ⟨r, hr, h⟩ := bind_eq_ok_iff.1 h
    cases h
    exact .arrow (registers_resolve param hp) (registers_resolve result hr)
  | .all _ v body, vars, t, h => by
    rw [TypeExpr.resolve_all] at h
    obtain ⟨b, hb, h⟩ := bind_eq_ok_iff.1 h
    cases h
    exact .all v (registers_resolve body hb)
  | .applied span name args, vars, t, h => by
    rw [TypeExpr.resolve_applied] at h
    obtain ⟨ts, hts, h⟩ := bind_eq_ok_iff.1 h
    exact registers_resolveType (registers_resolveAll args hts) h

theorem registers_resolveAll : (es : List TypeExpr) → {vars : List String} → {ts : List Ty} →
    TypeExpr.resolveAll sig vars es = .ok ts → ∀ t ∈ ts, sig.Registers t
  | [], vars, ts, h => by
    rw [TypeExpr.resolveAll_nil] at h
    cases h
    exact List.forall_mem_nil _
  | e :: es, vars, ts, h => by
    rw [TypeExpr.resolveAll_cons] at h
    obtain ⟨t, ht, h⟩ := bind_eq_ok_iff.1 h
    obtain ⟨us, hus, h⟩ := bind_eq_ok_iff.1 h
    cases h
    exact List.forall_mem_cons.2 ⟨registers_resolve e ht, registers_resolveAll es hus⟩

end

/-- What a type expression is resolved as is a type. -/
theorem Resolves.isType {vars : List String} {t : Ty} (h : sig.Resolves vars t) :
    sig.IsType vars t := by
  obtain ⟨e, he⟩ := h
  exact ⟨freeVars_resolve sig e he, registers_resolve e he⟩

end

/-! ## Tables that grow -/

/-- Whether data types keep the number of their parameters and primitive types stay. -/
structure KeepsTypes (sig sig' : Signature) : Prop where
  dataTypes : ∀ name d, sig.dataTypes.get? name = some d →
    ∃ d', sig'.dataTypes.get? name = some d' ∧ d'.params.length = d.params.length
  primitiveTypeNames : ∀ name, sig.primitiveTypeNames.contains name = true →
    sig'.primitiveTypeNames.contains name = true

section

variable {sig sig' sig'' : Signature}

theorem keepsTypes_of_eq (hdata : sig'.dataTypes = sig.dataTypes)
    (hprim : sig'.primitiveTypeNames = sig.primitiveTypeNames) : sig.KeepsTypes sig' where
  dataTypes _ d hd := ⟨d, hdata ▸ hd, rfl⟩
  primitiveTypeNames _ hname := hprim ▸ hname

theorem KeepsTypes.trans (h : sig.KeepsTypes sig') (h' : sig'.KeepsTypes sig'') :
    sig.KeepsTypes sig'' where
  dataTypes name d hd := by
    obtain ⟨d', hd', hlength⟩ := h.dataTypes name d hd
    obtain ⟨d'', hd'', hlength'⟩ := h'.dataTypes name d' hd'
    exact ⟨d'', hd'', hlength'.trans hlength⟩
  primitiveTypeNames name hname := h'.primitiveTypeNames name (h.primitiveTypeNames name hname)

/-- A new data type keeps the others, and the one of its name if it has as many parameters. -/
theorem keepsTypes_withData {d : DataDecl}
    (h : ∀ old, sig.dataTypes.get? d.name = some old → old.params.length = d.params.length) :
    sig.KeepsTypes (sig.withData d) where
  dataTypes name old hold := by
    show ∃ d', (sig.dataTypes.insert d.name d).get? name = some d' ∧ _
    rw [Table.get?_insert]
    split
    next heq => exact ⟨d, rfl, (h old (heq ▸ hold)).symm⟩
    next => exact ⟨old, hold, rfl⟩
  primitiveTypeNames _ := id

/-- Where its constructors are resolved, a data type has the parameters that it has later. -/
theorem keepsTypes_announcing (sig : Signature) (d : DataDecl) :
    (sig.announcing d).KeepsTypes (sig.withData d) where
  dataTypes name old hold := by
    have hold : (sig.dataTypes.insert d.name ⟨d.name, d.params, []⟩).get? name = some old := hold
    show ∃ d', (sig.dataTypes.insert d.name d).get? name = some d' ∧ _
    rw [Table.get?_insert] at hold ⊢
    split at hold
    next heq =>
      cases hold
      exact ⟨d, if_pos heq, rfl⟩
    next hne => exact ⟨old, (if_neg hne).trans hold, rfl⟩
  primitiveTypeNames _ := id

theorem keepsTypes_withGlobal (sig : Signature) (name : String) (type : Option Ty) :
    sig.KeepsTypes (sig.withGlobal name type) := by
  cases type <;> exact keepsTypes_of_eq rfl rfl

theorem keepsTypes_addPrimType (m : Module) (name : String) :
    m.KeepsTypes (m.addPrimType name).toSignature where
  dataTypes _ d hd := ⟨d, hd, rfl⟩
  primitiveTypeNames _ hname := (Table.contains_insert _).2 (.inr hname)

theorem Registers.mono {t : Ty} (h : sig.Registers t) (hkeeps : sig.KeepsTypes sig') :
    sig'.Registers t := by
  induction h with
  | var name => exact .var name
  | arrow _ _ ihparam ihresult => exact .arrow ihparam ihresult
  | all v _ ih => exact .all v ih
  | data hd hlength _ ih =>
    obtain ⟨d', hd', hparams⟩ := hkeeps.dataTypes _ _ hd
    exact .data hd' (hlength.trans hparams.symm) ih
  | prim hname => exact .prim (hkeeps.primitiveTypeNames _ hname)

theorem IsType.mono {vars : List String} {t : Ty} (h : sig.IsType vars t)
    (hkeeps : sig.KeepsTypes sig') : sig'.IsType vars t :=
  ⟨h.bound, h.registered.mono hkeeps⟩

end

end Signature

end PolyLambda
