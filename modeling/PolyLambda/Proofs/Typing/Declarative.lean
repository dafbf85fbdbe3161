import PolyLambda.Proofs.Module.FreeTypeVars
import PolyLambda.Proofs.Module.Signature
import PolyLambda.Proofs.Ty.Absorb

/-!
# The rules of simple types

Terms without explicit polymorphism have simple types, by one rule for each kind of term. The only
types with quantifiers are those of constructors, and a constructor may be used at any types for its
parameters. The rules are about types without unknowns, and so they are read under a substitution
that says what the variables in written types stand for.
-/

namespace PolyLambda

namespace Term

/-! ## Terms without explicit polymorphism -/

mutual

/-- Whether a term abstracts from no types, is applied to none and calls no tools, and all its
functions have types without quantifiers for their parameters. -/
def isSimple : Term → Bool
  | .var _ | .global _ | .int _ | .string _ | .prim _ => true
  | .lam type body => type.any (fun t => decide t.QuantifierFree) && body.isSimple
  | .app fn arg => fn.isSimple && arg.isSimple
  | .tlam _ _ | .tapp _ _ | .tool _ _ => false
  | .con _ args => areSimple args
  | .case scrutinee branches => scrutinee.isSimple && branchesAreSimple branches
  | .letIn _ value body => value.isSimple && body.isSimple

def areSimple : List Term → Bool
  | [] => true
  | arg :: args => arg.isSimple && areSimple args

def branchesAreSimple : List Branch → Bool
  | [] => true
  | .mk _ _ body :: branches => body.isSimple && branchesAreSimple branches

end

end Term

/-! ## The rules -/

/-- Whether the constructor `name`, for some types of its parameters, makes values of the type
`result` from fields of the types `fields`. -/
def Signature.Constructs (sig : Signature) (name : String) (fields : List Ty) (result : Ty) :
    Prop :=
  ∃ (t : Ty) (σ : Substitution), sig.constructorTypes.get? name = some t ∧
    fields = t.splitAlls.2.splitArrows.1.map σ.apply ∧ result = σ.apply t.splitAlls.2.splitArrows.2

namespace Term

section

variable (sig : Signature) (globals : Table Ty) (θ : Substitution)

mutual

/-- Whether a term has a type where the variables in scope have the types `vars`, and the type
variables in the types of globals and in written types stand for what `θ` has for them. -/
def HasTypeUnder : List Ty → Term → Ty → Prop
  | vars, .var index, type => vars[index]? = some type
  | _, .global name, type => ∃ t, globals.get? name = some t ∧ type = θ.apply t
  | vars, .lam (some param) body, type =>
    ∃ result, type = .arrow (θ.apply param) result ∧
    HasTypeUnder (θ.apply param :: vars) body result
  | vars, .app fn arg, type =>
    ∃ param, HasTypeUnder vars fn (.arrow param type) ∧ HasTypeUnder vars arg param
  | vars, .con name args, type =>
    ∃ given rest result, sig.Constructs name (given ++ rest) result ∧
      HaveTypesUnder vars args given ∧ type = Ty.arrows rest result
  | vars, .case scrutinee branches, type =>
    ∃ s, branches ≠ [] ∧ HasTypeUnder vars scrutinee s ∧ BranchesHaveTypeUnder vars s branches type
  | vars, .letIn _ value body, type =>
    ∃ t, HasTypeUnder vars value t ∧ HasTypeUnder (t :: vars) body type
  | _, .int _, type => type = .int
  | _, .string _, type => type = .string
  | _, .prim name, type => sig.primitiveTypes.get? name = some type
  | _, .lam none _, _ | _, .tlam _ _, _ | _, .tapp _ _, _ | _, .tool _ _, _ => False

/-- Whether each of the terms has the type in its place. -/
def HaveTypesUnder : List Ty → List Term → List Ty → Prop
  | _, [], types => types = []
  | vars, arg :: args, types =>
    ∃ t ts, types = t :: ts ∧ HasTypeUnder vars arg t ∧ HaveTypesUnder vars args ts

/-- Whether the branches match values of the type `scrutinee` and have the type `type`. -/
def BranchesHaveTypeUnder : List Ty → Ty → List Branch → Ty → Prop
  | _, _, [], _ => True
  | vars, scrutinee, .mk constructor names body :: branches, type =>
    (∃ fields, sig.Constructs constructor fields scrutinee ∧ fields.length = names.length ∧
      HasTypeUnder (fields ++ vars) body type) ∧ BranchesHaveTypeUnder vars scrutinee branches type

end

theorem HaveTypesUnder.length_eq {sig : Signature} {globals : Table Ty} {θ : Substitution}
    {vars types : List Ty} {args : List Term} (h : HaveTypesUnder sig globals θ vars args types) :
    args.length = types.length := by
  induction args generalizing types with
  | nil =>
    rw [HaveTypesUnder] at h
    rw [h]
    rfl
  | cons arg args ih =>
    rw [HaveTypesUnder] at h
    obtain ⟨t, ts, rfl, -, hargs⟩ := h
    rw [List.length_cons, List.length_cons, ih hargs]

end

/-! ## The substitution matters only for what is written -/

section

variable {sig : Signature} {globals : Table Ty} {θ θ' : Substitution}

mutual

theorem HasTypeUnder.congr (hglobals : globals.All fun t => θ.apply t = θ'.apply t) :
    (t : Term) → {vars : List Ty} → {type : Ty} → t.isSimple = true →
    (∀ v ∈ t.freeTypeVars, θ.apply (.var v) = θ'.apply (.var v)) →
    t.HasTypeUnder sig globals θ vars type → t.HasTypeUnder sig globals θ' vars type
  | .var _, _, _, _, _, h => h
  | .global name, _, _, _, _, h => by
    rw [HasTypeUnder] at h ⊢
    obtain ⟨t, ht, rfl⟩ := h
    exact ⟨t, ht, hglobals name t ht⟩
  | .lam (some param) body, _, _, hsimple, hvars, h => by
    rw [isSimple, Bool.and_eq_true] at hsimple
    rw [freeTypeVars, List.forall_mem_append] at hvars
    have hparam : θ.apply param = θ'.apply param :=
      Substitution.apply_congr_freeVars (of_decide_eq_true hsimple.1) hvars.1
    rw [HasTypeUnder] at h ⊢
    rw [← hparam]
    obtain ⟨result, rfl, hbody⟩ := h
    exact ⟨result, rfl, HasTypeUnder.congr hglobals body hsimple.2 hvars.2 hbody⟩
  | .app fn arg, _, _, hsimple, hvars, h => by
    rw [isSimple, Bool.and_eq_true] at hsimple
    rw [freeTypeVars, List.forall_mem_append] at hvars
    rw [HasTypeUnder] at h ⊢
    obtain ⟨param, hfn, harg⟩ := h
    exact ⟨param, HasTypeUnder.congr hglobals fn hsimple.1 hvars.1 hfn,
      HasTypeUnder.congr hglobals arg hsimple.2 hvars.2 harg⟩
  | .con _ args, _, _, hsimple, hvars, h => by
    rw [isSimple] at hsimple
    rw [HasTypeUnder] at h ⊢
    obtain ⟨given, rest, result, hcon, hargs, rfl⟩ := h
    exact ⟨given, rest, result, hcon, HaveTypesUnder.congr hglobals args hsimple hvars hargs, rfl⟩
  | .case scrutinee branches, _, _, hsimple, hvars, h => by
    rw [isSimple, Bool.and_eq_true] at hsimple
    rw [freeTypeVars, List.forall_mem_append] at hvars
    rw [HasTypeUnder] at h ⊢
    obtain ⟨s, hne, hs, hbranches⟩ := h
    exact ⟨s, hne, HasTypeUnder.congr hglobals scrutinee hsimple.1 hvars.1 hs,
      BranchesHaveTypeUnder.congr hglobals branches hsimple.2 hvars.2 hbranches⟩
  | .letIn _ value body, _, _, hsimple, hvars, h => by
    rw [isSimple, Bool.and_eq_true] at hsimple
    rw [freeTypeVars, List.forall_mem_append] at hvars
    rw [HasTypeUnder] at h ⊢
    obtain ⟨t, hvalue, hbody⟩ := h
    exact ⟨t, HasTypeUnder.congr hglobals value hsimple.1 hvars.1 hvalue,
      HasTypeUnder.congr hglobals body hsimple.2 hvars.2 hbody⟩
  | .int _, _, _, _, _, h => h
  | .string _, _, _, _, _, h => h
  | .prim _, _, _, _, _, h => h
  | .lam none _, _, _, hsimple, _, _ => nomatch hsimple
  | .tlam _ _, _, _, hsimple, _, _ => nomatch hsimple
  | .tapp _ _, _, _, hsimple, _, _ => nomatch hsimple
  | .tool _ _, _, _, hsimple, _, _ => nomatch hsimple

theorem HaveTypesUnder.congr (hglobals : globals.All fun t => θ.apply t = θ'.apply t) :
    (args : List Term) → {vars types : List Ty} →
    areSimple args = true → (∀ v ∈ freeTypeVarsAll args, θ.apply (.var v) = θ'.apply (.var v)) →
    HaveTypesUnder sig globals θ vars args types → HaveTypesUnder sig globals θ' vars args types
  | [], _, _, _, _, h => h
  | arg :: args, _, _, hsimple, hvars, h => by
    rw [areSimple, Bool.and_eq_true] at hsimple
    rw [freeTypeVarsAll, List.forall_mem_append] at hvars
    rw [HaveTypesUnder] at h ⊢
    obtain ⟨t, ts, rfl, harg, hargs⟩ := h
    exact ⟨t, ts, rfl, HasTypeUnder.congr hglobals arg hsimple.1 hvars.1 harg,
      HaveTypesUnder.congr hglobals args hsimple.2 hvars.2 hargs⟩

theorem BranchesHaveTypeUnder.congr (hglobals : globals.All fun t => θ.apply t = θ'.apply t) :
    (branches : List Branch) → {vars : List Ty} →
    {scrutinee type : Ty} → branchesAreSimple branches = true →
    (∀ v ∈ freeTypeVarsBranches branches, θ.apply (.var v) = θ'.apply (.var v)) →
    BranchesHaveTypeUnder sig globals θ vars scrutinee branches type →
    BranchesHaveTypeUnder sig globals θ' vars scrutinee branches type
  | [], _, _, _, _, _, h => h
  | .mk _ _ body :: branches, _, _, _, hsimple, hvars, h => by
    rw [branchesAreSimple, Bool.and_eq_true] at hsimple
    rw [freeTypeVarsBranches, List.forall_mem_append] at hvars
    rw [BranchesHaveTypeUnder] at h ⊢
    obtain ⟨⟨fields, hcon, hlength, hbody⟩, hbranches⟩ := h
    exact ⟨⟨fields, hcon, hlength, HasTypeUnder.congr hglobals body hsimple.1 hvars.1 hbody⟩,
      BranchesHaveTypeUnder.congr hglobals branches hsimple.2 hvars.2 hbranches⟩

end

end

end Term

end PolyLambda
