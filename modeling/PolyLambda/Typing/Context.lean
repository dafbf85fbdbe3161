import PolyLambda.Ty.Basic

/-!
# Typing contexts

The types of the local variables, innermost first, and the type variables bound around a term.
-/

namespace PolyLambda

structure Context where
  terms : List Ty
  typeVars : List String
  deriving DecidableEq, Inhabited

namespace Context

def empty : Context := ⟨[], []⟩

/-- The context inside a binder of a variable of type `t`, which gets the index 0. -/
def extend (ctx : Context) (t : Ty) : Context :=
  { ctx with terms := t :: ctx.terms }

/-- The context inside binders of variables of the types `ts`, the first of which gets the
index 0. -/
def extendAll (ctx : Context) (ts : List Ty) : Context :=
  { ctx with terms := ts ++ ctx.terms }

/-- The context inside a binder of the type variable `v`. -/
def extendType (ctx : Context) (v : String) : Context :=
  { ctx with typeVars := v :: ctx.typeVars }

/-- The type of the variable with the given index. -/
def type? (ctx : Context) (index : Nat) : Option Ty :=
  ctx.terms[index]?

/-- Whether `v` is bound. -/
def hasTypeVar (ctx : Context) (v : String) : Bool :=
  ctx.typeVars.contains v

theorem hasTypeVar_iff {ctx : Context} {v : String} : ctx.hasTypeVar v = true ↔ v ∈ ctx.typeVars :=
  List.contains_iff_mem

theorem hasTypeVar_eq_false_iff {ctx : Context} {v : String} :
    ctx.hasTypeVar v = false ↔ v ∉ ctx.typeVars := by
  rw [← hasTypeVar_iff, Bool.not_eq_true]

/-- The number of local variables. -/
def depth (ctx : Context) : Nat :=
  ctx.terms.length

end Context

end PolyLambda
