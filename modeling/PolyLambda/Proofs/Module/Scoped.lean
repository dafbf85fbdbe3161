import PolyLambda.Evaluation
import PolyLambda.Proofs.Module.Signature
import PolyLambda.Proofs.Term.Resolution
import PolyLambda.Proofs.Typing.Judgment

/-!
# Modules without warnings

Definitions mention only themselves and what is defined before them. Where no warning was given,
they have different names as well, and the truth values are the constructors that every program
starts with.
-/

namespace PolyLambda

/-! ## The globals of a resolved term -/

theorem Term.mem_globals_foldl_app {name : String} {args : List Term} {t : Term}
    (h : name ∈ (args.foldl .app t).globals) : name ∈ t.globals ∨ name ∈ Term.globalsAll args := by
  induction args generalizing t with
  | nil => exact .inl h
  | cons arg args ih =>
    rw [Term.globalsAll, List.mem_append]
    rcases ih h with h | h
    · rw [Term.globals, List.mem_append] at h
      exact h.imp_right .inl
    · exact .inr (.inr h)

namespace Scope

open Surface (Expr)

mutual

/-- A resolved term mentions only globals in scope. -/
theorem Resolves.globals_subset {scope : Scope} {e : Expr} {t : Term} :
    scope.Resolves e t → t.globals ⊆ scope.globals
  | .localVar _ | .primitive .. | .bareCon .. => List.nil_subset _
  | .global _ hglobal => List.cons_subset.2 ⟨hglobal, List.nil_subset _⟩
  | .lam hbody | .annotatedLam _ hbody => hbody.globals_subset
  | .app hfn harg => List.append_subset.2 ⟨hfn.globals_subset, harg.globals_subset⟩
  | .tlam hbody => hbody.globals_subset
  | .tapp hfn _ => hfn.globals_subset
  | .letIn hvalue hbody => List.append_subset.2 ⟨hvalue.globals_subset, hbody.globals_subset⟩
  | .ann _ hexpr => hexpr.globals_subset
  | .con _ hargs => hargs.globals_subset
  | .case hscrutinee hbranches =>
    List.append_subset.2 ⟨hscrutinee.globals_subset, hbranches.globals_subset⟩
  | .tool hargs => hargs.globals_subset
  | .int | .string => List.nil_subset _
  | .op _ _ hargs => fun _ hn => (Term.mem_globals_foldl_app hn).elim nofun (hargs.globals_subset ·)

theorem ResolvesAll.globals_subset {scope : Scope} {es : List Expr} {ts : List Term} :
    scope.ResolvesAll es ts → Term.globalsAll ts ⊆ scope.globals
  | .nil => List.nil_subset _
  | .cons harg hargs => List.append_subset.2 ⟨harg.globals_subset, hargs.globals_subset⟩

theorem ResolvesBranches.globals_subset {scope : Scope} {branches : List Surface.Branch}
    {bs : List Branch} :
    scope.ResolvesBranches branches bs → Term.globalsBranches bs ⊆ scope.globals
  | .nil => List.nil_subset _
  | .cons _ hbody hbranches => List.append_subset.2 ⟨hbody.globals_subset, hbranches.globals_subset⟩

end

end Scope

/-! ## Definitions in order -/

theorem Definition.Scoped.append {seen : List String} {ds : List Definition} {d : Definition}
    (h : Scoped seen ds) (hnew : d.name ∉ seen ∧ d.name ∉ ds.map Definition.name)
    (hmentions : ∀ name ∈ d.body.globals, name = d.name ∨ name ∈ seen ∨
      name ∈ ds.map Definition.name) :
    Scoped seen (ds ++ [d]) := by
  induction ds generalizing seen with
  | nil =>
    refine ⟨hnew.1, fun name hname => List.mem_cons.2 ?_, trivial⟩
    exact (hmentions name hname).imp_right fun h => h.resolve_right List.not_mem_nil
  | cons first ds ih =>
    obtain ⟨hfirst, hfirstMentions, hds⟩ := h
    rw [List.map_cons, List.mem_cons, not_or] at hnew
    refine ⟨hfirst, hfirstMentions, ih hds ⟨?_, hnew.2.2⟩ fun name hname => ?_⟩
    · rw [List.mem_cons, not_or]
      exact ⟨hnew.2.1, hnew.1⟩
    · have hmem := hmentions name hname
      rw [List.map_cons, List.mem_cons] at hmem
      rw [List.mem_cons]
      tauto

namespace Module

/-- Whether definitions mention only themselves and those before them, have different names, and the
truth values are as every program starts with them. -/
structure Orderly (m : Module) : Prop where
  ordered : Definition.Scoped [] m.definitions
  boolDecl : m.dataTypes.get? "Bool" = some Prelude.boolDecl
  bools : ∀ c ∈ Prelude.boolDecl.constructors,
    m.constructorTypes.get? c.name = some (Prelude.boolDecl.constructorType c)

/-- A declaration of another kind than data and definitions keeps the order. -/
theorem Orderly.other {m : Module} (h : m.Orderly) {d : Declaration} {sig : Signature}
    {warnings : List Warning} (hd : d.definition? = none) (hdata : sig.dataTypes = m.dataTypes)
    (hconstructors : sig.constructorTypes = m.constructorTypes) :
    (m.accept d sig warnings).Orderly where
  ordered := by
    rw [definitions_accept, hd, Option.toList_none, List.append_nil]
    exact h.ordered
  boolDecl := (congrArg (Table.get? · "Bool") hdata).trans h.boolDecl
  bools c hc := (congrArg (Table.get? · c.name) hconstructors).trans (h.bools c hc)

/-- A definition that is accepted without a warning keeps the order. -/
theorem Orderly.define {m : Module} (h : m.Orderly) {d : Definition} {sig : Signature}
    {warnings : List Warning} (hnew : d.name ∉ m.globals)
    (hmentions : ∀ name ∈ d.body.globals, name ∈ d.name :: m.globals)
    (hdata : sig.dataTypes = m.dataTypes)
    (hconstructors : sig.constructorTypes = m.constructorTypes) :
    (m.accept (.definition d) sig warnings).Orderly where
  ordered := by
    rw [definitions_accept]
    refine h.ordered.append ⟨List.not_mem_nil, hnew⟩ fun name hname => ?_
    exact (List.mem_cons.1 (hmentions name hname)).imp_right .inr
  boolDecl := (congrArg (Table.get? · "Bool") hdata).trans h.boolDecl
  bools c hc := (congrArg (Table.get? · c.name) hconstructors).trans (h.bools c hc)

/-- A data type that shadows no constructor leaves the truth values alone. -/
theorem lists_eq_false_of_shadowed {sig : Signature} {d owner : DataDecl} {name : String}
    (howner : sig.dataTypes.get? name = some owner) (hne : name ≠ d.name)
    (h : sig.shadowed d = []) : ∀ c ∈ d.constructors, owner.lists c.name = false := by
  intro c hc
  have hnone := List.filterMap_eq_nil_iff.1 h c hc
  rw [Option.map_eq_none_iff, List.head?_eq_none_iff, Signature.ownersOf,
    List.filter_eq_nil_iff] at hnone
  refine Bool.eq_false_iff.2 (hnone owner (Table.mem_values_iff.2 ⟨name, ?_⟩))
  rw [Table.get?_erase, if_neg hne, howner]

theorem get?_foldl_insert_of_forall_ne {α β : Type} {key : β → String} {f : β → α} {bs : List β}
    {t : Table α} {name : String} (h : ∀ b ∈ bs, name ≠ key b) :
    (bs.foldl (fun t b => t.insert (key b) (f b)) t).get? name = t.get? name := by
  induction bs generalizing t with
  | nil => rfl
  | cons b bs ih =>
    obtain ⟨hb, hbs⟩ := List.forall_mem_cons.1 h
    refine (ih hbs).trans ?_
    rw [Table.get?_insert, if_neg hb]

theorem Orderly.addData {m : Module} (h : m.Orderly) {d : DataDecl} {warnings : List Warning}
    (hnew : m.dataTypes.get? d.name = none) (hshadowed : m.shadowed d = []) :
    (m.accept (.data d) (m.withData d) warnings).Orderly := by
  have hne : "Bool" ≠ d.name := by
    intro heq
    rw [← heq, h.boolDecl] at hnew
    cases hnew
  refine ⟨?_, ?_, fun c hc => ?_⟩
  · rw [definitions_accept]
    exact (List.append_nil _).symm ▸ h.ordered
  · show (m.dataTypes.insert d.name d).get? "Bool" = _
    rw [Table.get?_insert, if_neg hne, h.boolDecl]
  · have hlists := lists_eq_false_of_shadowed h.boolDecl hne hshadowed
    refine (get?_foldl_insert_of_forall_ne fun c' hc' heq => ?_).trans (h.bools c hc)
    have hfalse := hlists c' hc'
    rw [DataDecl.lists, List.any_eq_false] at hfalse
    exact hfalse c hc (decide_eq_true heq)

theorem eq_nil_of_ite_append {α : Type} {p : Prop} [Decidable p] {as bs : List α}
    (h : (if p then as ++ bs else as) = []) : as = [] := by
  split at h
  next => exact (List.append_eq_nil_iff.1 h).1
  next => exact h

/-- A module without errors and warnings is orderly. -/
theorem orderly_ofSurface (ds : List Surface.Declaration) (herrors : (ofSurface ds).errors = [])
    (hwarnings : (ofSurface ds).warnings = []) : (ofSurface ds).Orderly := by
  refine ofSurface_induct (P := fun m => m.errors = [] → m.warnings = [] → m.Orderly) ?_ ?_ ds
    herrors hwarnings
  · exact fun _ _ => ⟨trivial, rfl, by decide⟩
  · intro m m' hm h herrors hwarnings
    cases hm with
    | unchanged errors warnings hkeep =>
      obtain ⟨hm, rfl⟩ := List.append_eq_nil_iff.1 herrors
      have hsame := h hm ((hkeep rfl).symm.trans hwarnings)
      exact ⟨hsame.ordered, hsame.boolDecl, hsame.bools⟩
    | data d hnew _ =>
      obtain ⟨hm, hshadowed⟩ := List.append_eq_nil_iff.1 hwarnings
      exact (h herrors hm).addData hnew hshadowed
    | redeclared d old =>
      cases (List.append_eq_nil_iff.1 hwarnings).2
    | primType name =>
      refine (h herrors ?_).other rfl rfl rfl
      exact eq_nil_of_ite_append hwarnings
    | primOp name type =>
      refine (h herrors ?_).other rfl rfl rfl
      exact eq_nil_of_ite_append hwarnings
    | definition d e more hnew _ hbody =>
      obtain ⟨hm, hmore⟩ := List.append_eq_nil_iff.1 hwarnings
      refine (h herrors hm).define (hnew hmore)
        (Scope.resolves_of_resolve e hbody).globals_subset ?_ ?_
      · cases d.type <;> rfl
      · cases d.type <;> rfl
    | llm d f type more hnew _ _ _ hbody =>
      obtain ⟨hm, hmore⟩ := List.append_eq_nil_iff.1 hwarnings
      refine (h herrors hm).define (hnew hmore) ?_ rfl rfl
      rw [hbody]
      exact nofun

/-- The names of the primitive operations that a module declares. -/
def primOps (m : Module) : List String :=
  m.declarations.filterMap Machine.declaredPrimitive?

theorem primOps_accept (m : Module) (d : Declaration) (sig : Signature) (warnings : List Warning) :
    (m.accept d sig warnings).primOps = m.primOps ++ (Machine.declaredPrimitive? d).toList := by
  rw [primOps, accept, List.filterMap_append]
  cases h : Machine.declaredPrimitive? d <;> simp [primOps, h]

/-- Without model functions and declared primitives there are only the primitives that every program
starts with. -/
theorem primitiveTypes_ofSurface (ds : List Surface.Declaration)
    (hllm : (ofSurface ds).llmFunctions.names = []) (hprimOps : (ofSurface ds).primOps = []) :
    (ofSurface ds).primitiveTypes = Prelude.signature.primitiveTypes := by
  refine ofSurface_induct (P := fun m => m.llmFunctions.names = [] → m.primOps = [] →
    m.primitiveTypes = Prelude.signature.primitiveTypes) ?_ ?_ ds hllm hprimOps
  · exact fun _ _ => rfl
  · intro m m' hm h hllm hprimOps
    have hbefore {d : Declaration} {sig : Signature} {warnings : List Warning}
        (h : (m.accept d sig warnings).primOps = []) : m.primOps = [] := by
      rw [primOps_accept] at h
      exact (List.append_eq_nil_iff.1 h).1
    cases hm with
    | unchanged => exact h hllm hprimOps
    | data | redeclared | primType => exact h hllm (hbefore hprimOps)
    | primOp name type =>
      rw [addPrimOp, primOps_accept] at hprimOps
      cases (List.append_eq_nil_iff.1 hprimOps).2
    | definition d =>
      have hsame : (m.withGlobal d.name d.type).llmFunctions = m.llmFunctions ∧
          (m.withGlobal d.name d.type).primitiveTypes = m.primitiveTypes := by
        cases d.type <;> exact ⟨rfl, rfl⟩
      refine hsame.2.trans (h ?_ (hbefore hprimOps))
      rw [← hsame.1]
      exact hllm
    | llm d f type =>
      have hmem : f.name ∈ (m.llmFunctions.insert f.name f).names :=
        Table.mem_names_iff.2 ⟨f, by rw [Table.get?_insert, if_pos rfl]⟩
      rw [show (m.llmFunctions.insert f.name f).names = [] from hllm] at hmem
      cases hmem

end Module

end PolyLambda
