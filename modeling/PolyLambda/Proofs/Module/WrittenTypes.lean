import PolyLambda.Proofs.Module.IsType
import PolyLambda.Proofs.Term.Resolution

/-!
# The types that are written in a program

A type stands in a term where a parameter is annotated with it or where a term is applied to it, and
type abstractions bind variables of it. Each of these types is what an expression of the source
stands for, in the scope of just those variables (`Scope.Resolves.writtenTypes`). Besides, types are
written in the fields of data types and where declarations are annotated.
-/

namespace PolyLambda

namespace Term

mutual

/-- The types that are written in a term, each with the type variables that are bound where it
stands, innermost first: those of the type abstractions around it, and `vars`. -/
def writtenTypes : List String → Term → List (List String × Ty)
  | _, .var _ | _, .global _ | _, .int _ | _, .string _ | _, .prim _ => []
  | vars, .lam type body => type.toList.map (Prod.mk vars) ++ writtenTypes vars body
  | vars, .app fn arg => writtenTypes vars fn ++ writtenTypes vars arg
  | vars, .tlam v body => writtenTypes (v :: vars) body
  | vars, .tapp fn type => writtenTypes vars fn ++ [(vars, type)]
  | vars, .con _ args => writtenTypesAll vars args
  | vars, .case scrutinee branches =>
    writtenTypes vars scrutinee ++ writtenTypesBranches vars branches
  | vars, .letIn _ value body => writtenTypes vars value ++ writtenTypes vars body
  | vars, .tool _ args => writtenTypesAll vars args

def writtenTypesAll : List String → List Term → List (List String × Ty)
  | _, [] => []
  | vars, arg :: args => writtenTypes vars arg ++ writtenTypesAll vars args

def writtenTypesBranches : List String → List Branch → List (List String × Ty)
  | _, [] => []
  | vars, .mk _ _ body :: branches => writtenTypes vars body ++ writtenTypesBranches vars branches

end

variable {vars : List String}

theorem mem_writtenTypes_foldl_app {p : List String × Ty} {args : List Term} {t : Term}
    (h : p ∈ (args.foldl .app t).writtenTypes vars) :
    p ∈ t.writtenTypes vars ∨ p ∈ writtenTypesAll vars args := by
  induction args generalizing t with
  | nil => exact .inl h
  | cons arg args ih =>
    rw [writtenTypesAll, List.mem_append]
    rcases ih h with h | h
    · rw [writtenTypes, List.mem_append] at h
      exact h.imp_right .inl
    · exact .inr (.inr h)

end Term

/-! ## Resolved terms -/

namespace Scope

open Surface (Expr)

mutual

/-- The types that are written in a resolved term are resolved in the scope of the type variables
that are bound where they stand. -/
theorem Resolves.writtenTypes {scope : Scope} {e : Expr} {t : Term} :
    scope.Resolves e t → ∀ p ∈ t.writtenTypes scope.typeVars, scope.sig.Resolves p.1 p.2
  | .localVar _ | .global .. | .primitive .. | .bareCon .. => nofun
  | .lam hbody => hbody.writtenTypes
  | .annotatedLam htype hbody =>
    List.forall_mem_append.2 ⟨List.forall_mem_singleton.2 ⟨_, htype⟩, hbody.writtenTypes⟩
  | .app hfn harg => List.forall_mem_append.2 ⟨hfn.writtenTypes, harg.writtenTypes⟩
  | .tlam hbody => hbody.writtenTypes
  | .tapp hfn htype =>
    List.forall_mem_append.2 ⟨hfn.writtenTypes, List.forall_mem_singleton.2 ⟨_, htype⟩⟩
  | .letIn hvalue hbody => List.forall_mem_append.2 ⟨hvalue.writtenTypes, hbody.writtenTypes⟩
  | .ann htype hexpr =>
    List.forall_mem_append.2 ⟨List.forall_mem_singleton.2 ⟨_, htype⟩, hexpr.writtenTypes⟩
  | .con _ hargs => hargs.writtenTypes
  | .case hscrutinee hbranches =>
    List.forall_mem_append.2 ⟨hscrutinee.writtenTypes, hbranches.writtenTypes⟩
  | .tool hargs => hargs.writtenTypes
  | .int | .string => nofun
  | .op _ _ hargs =>
    fun p hp => (Term.mem_writtenTypes_foldl_app hp).elim nofun (hargs.writtenTypes p)

theorem ResolvesAll.writtenTypes {scope : Scope} {es : List Expr} {ts : List Term} :
    scope.ResolvesAll es ts →
      ∀ p ∈ Term.writtenTypesAll scope.typeVars ts, scope.sig.Resolves p.1 p.2
  | .nil => nofun
  | .cons harg hargs => List.forall_mem_append.2 ⟨harg.writtenTypes, hargs.writtenTypes⟩

theorem ResolvesBranches.writtenTypes {scope : Scope} {branches : List Surface.Branch}
    {bs : List Branch} : scope.ResolvesBranches branches bs →
      ∀ p ∈ Term.writtenTypesBranches scope.typeVars bs, scope.sig.Resolves p.1 p.2
  | .nil => nofun
  | .cons _ hbody hbranches => List.forall_mem_append.2 ⟨hbody.writtenTypes, hbranches.writtenTypes⟩

end

end Scope

/-! ## Declarations -/

/-- The type that a declaration is annotated with. -/
def Declaration.declaredType? : Declaration → Option Ty
  | .definition d => d.type
  | .primOp _ type => some type
  | _ => none

/-- The types that are written in a declaration, each with the type variables that are bound where
it stands: the fields of a data type, annotations, and what is written in a body. -/
def Declaration.writtenTypes : Declaration → List (List String × Ty)
  | .data d => d.constructors.flatMap fun c => c.fields.map (Prod.mk d.params)
  | .definition d => d.type.toList.map (Prod.mk []) ++ d.body.writtenTypes []
  | .primOp _ type => [([], type)]
  | .primType _ => []

theorem Declaration.mem_writtenTypes_of_declaredType {d : Declaration} {t : Ty}
    (h : t ∈ d.declaredType?) : ([], t) ∈ d.writtenTypes := by
  cases d with
  | definition d =>
    refine List.mem_append_left _ (List.mem_map_of_mem ?_)
    rwa [Option.mem_toList]
  | primOp name type =>
    cases h
    exact List.mem_singleton_self _
  | _ => cases h

/-- The tables in which the types of a declaration are resolved. -/
def Signature.around (sig : Signature) : Declaration → Signature
  | .data d => sig.announcing d
  | _ => sig

namespace Module

open Signature

/-- The types that are written in a declaration that is accepted are resolved in the tables around
it, and the tables after it keep these types. -/
theorem Declares.writtenTypes {m m' : Module} (hm : Declares m m') :
    ∀ d ∈ m'.declarations, d ∈ m.declarations ∨
      (m.around d).KeepsTypes m'.toSignature ∧
      ∀ p ∈ d.writtenTypes, (m.around d).Resolves p.1 p.2 := by
  have haccept {d : Declaration} (hkeeps : (m.around d).KeepsTypes m'.toSignature)
      (hresolves : ∀ p ∈ d.writtenTypes, (m.around d).Resolves p.1 p.2) :
      ∀ d' ∈ m.declarations ++ [d], d' ∈ m.declarations ∨
        (m.around d').KeepsTypes m'.toSignature ∧
          ∀ p ∈ d'.writtenTypes, (m.around d').Resolves p.1 p.2 := by
    rw [List.forall_mem_append, List.forall_mem_singleton]
    exact ⟨fun _ => .inl, .inr ⟨hkeeps, hresolves⟩⟩
  have hfields {d : DataDecl} (h : m.ResolvesFields d) :
      ∀ p ∈ (Declaration.data d).writtenTypes, (m.announcing d).Resolves p.1 p.2 := by
    intro p hp
    obtain ⟨c, hc, hp⟩ := List.mem_flatMap.1 hp
    obtain ⟨t, ht, rfl⟩ := List.mem_map.1 hp
    exact h c hc t ht
  have htypes {type : Option Ty} (h : ∀ t ∈ type, m.Resolves [] t) :
      ∀ p ∈ type.toList.map (Prod.mk []), m.Resolves p.1 p.2 := by
    intro p hp
    obtain ⟨t, ht, rfl⟩ := List.mem_map.1 hp
    exact h t (Option.mem_toList.1 ht)
  cases hm with
  | unchanged => exact fun _ => .inl
  | data d _ h | redeclared d _ _ h =>
    exact haccept ((keepsTypes_announcing _ d).trans (keepsTypes_of_eq rfl rfl)) (hfields h)
  | primType name => exact haccept (keepsTypes_addPrimType m name) nofun
  | primOp name type htype =>
    exact haccept (keepsTypes_of_eq rfl rfl) (List.forall_mem_singleton.2 htype)
  | definition d e more _ htype hbody =>
    refine haccept (keepsTypes_withGlobal _ d.name d.type) ?_
    exact List.forall_mem_append.2 ⟨htypes htype, (Scope.resolves_of_resolve e hbody).writtenTypes⟩
  | llm d f type more _ _ hdeclared htype hbody =>
    refine haccept (keepsTypes_of_eq rfl rfl) (List.forall_mem_append.2 ⟨htypes ?_, ?_⟩)
    · rw [hdeclared]
      rintro _ ⟨⟩
      exact htype
    · rw [hbody]
      exact nofun

end Module

end PolyLambda
