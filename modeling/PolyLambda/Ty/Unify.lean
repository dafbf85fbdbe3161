import PolyLambda.Limited
import PolyLambda.Ty.Substitution

/-!
# Unification

`unify` looks for a substitution that makes two types equal. Rigid variables are never solved: a
rigid variable equals itself and whatever a flexible variable may stand for. Quantified types are
compared by their bodies, in which the bound names count as variables like all others.

Solutions are put into what is still to be compared, which may grow by them, so the depth of the
recursion is not bounded by the size of the two types. Unification takes a limit on it.
-/

namespace PolyLambda

/-- Why two types have no common instance. -/
inductive UnifyError where
  /-- The types differ where neither side is a variable to be solved. -/
  | mismatch (left right : Ty)
  /-- The variable occurs inside the type that it would have to equal. -/
  | occurs (v : String) (type : Ty)
  deriving DecidableEq, Inhabited

namespace Ty

/-- The variable that `t` is, if it may be solved. -/
def flexible? (rigid : String → Bool) : Ty → Option String
  | .var v => if rigid v then none else some v
  | _ => none

/-- The solution of the equation between the variable `v` and `t`. -/
def solve (v : String) (t : Ty) : Except UnifyError Substitution :=
  if t.occursIn v then .error (.occurs v t) else .ok (.singleton v t)

/-- A common solution of the equations between the types of two lists, pair by pair, where `s`
solves the pairs before them. -/
def unifyArgs (unify : Ty → Ty → Limited UnifyError Substitution) (s : Substitution) :
    List Ty → List Ty → Limited UnifyError Substitution
  | t :: ts, t' :: ts' => do
    let step ← unify (s.apply t) (s.apply t')
    unifyArgs unify (step.compose s) ts ts'
  | _, _ => return s

/-- A most general substitution that makes `t` and `t'` equal and leaves rigid variables alone. -/
def unify (rigid : String → Bool) : Nat → Ty → Ty → Limited UnifyError Substitution
  | 0, _, _ => Limited.exhausted
  | limit + 1, t, t' =>
    if t = t' ∧ t matches .var _ then return .empty
    else
      match flexible? rigid t, flexible? rigid t' with
      | some v, _ => liftM (solve v t')
      | none, some v => liftM (solve v t)
      | none, none =>
        match t, t' with
        | .arrow p r, .arrow p' r' => do
          let s ← unify rigid limit p p'
          let step ← unify rigid limit (s.apply r) (s.apply r')
          return step.compose s
        | .all _ b, .all _ b' => unify rigid limit b b'
        | .data n args, .data n' args' =>
          if n = n' ∧ args.length = args'.length then
            unifyArgs (unify rigid limit) .empty args args'
          else throw (.mismatch t t')
        | .prim n, .prim n' => if n = n' then return .empty else throw (.mismatch t t')
        | _, _ => throw (.mismatch t t')

end Ty

end PolyLambda
