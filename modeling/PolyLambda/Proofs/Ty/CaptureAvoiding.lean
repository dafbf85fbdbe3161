import Mathlib.Data.Finset.Basic
import PolyLambda.Proofs.Ty.Nameless

/-!
# Substitution captures nothing

Substituting in a type whose bound variables have names is, once the names are forgotten, to put one
nameless type in for the free variable of another, where there is nothing to capture and nothing to
rename (`Ty.substitute_avoids_capture`). The free variables of the result follow from it.

The substitution recurses on a body that it has just renamed, and the renaming may rename binders in
its turn. The relation `Ty.Substitutes` is that recursion without a bound on its depth: it relates a
type to a result exactly if the recursion comes to an end with it. It always does, since a renamed
body is no larger than it was.
-/

namespace PolyLambda

/-- The type with `a` for its free variable `x`. -/
def Nameless.substitute (t : Nameless) (x : String) (a : Nameless) : Nameless :=
  t.replace fun v => if v = x then a else .free v

namespace Ty

/-! ## The recursion -/

mutual

/-- Putting `s` in for `x` ends, and makes the second type of the first. -/
inductive Substitutes : (x : String) → (s : Ty) → Ty → Ty → Prop
  | found {x : String} {s : Ty} : Substitutes x s (.var x) s
  | var {x name : String} {s : Ty} : name ≠ x → Substitutes x s (.var name) (.var name)
  | arrow {x : String} {s p p' r r' : Ty} : Substitutes x s p p' → Substitutes x s r r' →
      Substitutes x s (.arrow p r) (.arrow p' r')
  | shadowed {x : String} {s b : Ty} : Substitutes x s (.all x b) (.all x b)
  /-- The quantifier would capture a variable of `s`: its variable is renamed in the body, and the
  substitution goes on in the renamed body. -/
  | renamed {x v : String} {s b b' b'' : Ty} : v ≠ x → v ∈ s.freeVars → x ∈ b.freeVars →
      Substitutes v (.var (freshName v (s.freeVars ++ b.freeVars))) b b' → Substitutes x s b' b'' →
      Substitutes x s (.all v b) (.all (freshName v (s.freeVars ++ b.freeVars)) b'')
  | all {x v : String} {s b b' : Ty} : v ≠ x → ¬ (v ∈ s.freeVars ∧ x ∈ b.freeVars) →
      Substitutes x s b b' → Substitutes x s (.all v b) (.all v b')
  | data {x name : String} {s : Ty} {args args' : List Ty} : SubstituteAll x s args args' →
      Substitutes x s (.data name args) (.data name args')
  | prim {x name : String} {s : Ty} : Substitutes x s (.prim name) (.prim name)

inductive SubstituteAll : (x : String) → (s : Ty) → List Ty → List Ty → Prop
  | nil {x : String} {s : Ty} : SubstituteAll x s [] []
  | cons {x : String} {s t t' : Ty} {ts ts' : List Ty} : Substitutes x s t t' →
      SubstituteAll x s ts ts' → SubstituteAll x s (t :: ts) (t' :: ts')

end

mutual

/-- What the recursion ends with is the result of the substitution. -/
theorem Substitutes.eq {x : String} {s t u : Ty} : Substitutes x s t u → u = t.substitute x s
  | .found => by rw [substitute_var, if_pos rfl]
  | .var hne => by rw [substitute_var, if_neg hne]
  | .arrow hp hr => by rw [substitute_arrow, hp.eq, hr.eq]
  | .shadowed => by rw [substitute_all, if_pos rfl]
  | .renamed hne hv hx hb hb' => by
    rw [substitute_all, if_neg hne, if_pos ⟨hv, hx⟩, hb'.eq, hb.eq]
  | .all hne hcapture hb => by rw [substitute_all, if_neg hne, if_neg hcapture, hb.eq]
  | .data hargs => by rw [substitute_data, hargs.eq]
  | .prim => (substitute_prim x s _).symm

theorem SubstituteAll.eq {x : String} {s : Ty} {ts us : List Ty} :
    SubstituteAll x s ts us → us = ts.map (·.substitute x s)
  | .nil => rfl
  | .cons ht hts => by rw [List.map_cons, ht.eq, hts.eq]

end

/-- The recursion ends on a list of types if it does on each of them. -/
theorem substituteAll_map {x : String} {s : Ty} {ts : List Ty}
    (h : ∀ t ∈ ts, Substitutes x s t (t.substitute x s)) :
    SubstituteAll x s ts (ts.map (·.substitute x s)) := by
  induction ts with
  | nil => exact .nil
  | cons t ts ih =>
    rw [List.forall_mem_cons] at h
    exact .cons h.1 (ih h.2)

/-- The recursion ends, since renaming keeps the size. -/
theorem substitutes_substitute (t : Ty) (x : String) (s : Ty) :
    Substitutes x s t (t.substitute x s) := by
  induction t using renameInduct generalizing x s with
  | var name =>
    rw [substitute_var]
    split
    next h =>
      subst h
      exact .found
    next h => exact .var h
  | arrow p r ihp ihr =>
    rw [substitute_arrow]
    exact .arrow (ihp x s) (ihr x s)
  | all v b ih =>
    have hb := ih b rfl
    rw [substitute_all]
    split
    next h =>
      subst h
      exact .shadowed
    next hne =>
      split
      next hcapture =>
        exact .renamed hne hcapture.1 hcapture.2 (hb v _) (ih _ (size_substitute_var ..) x s)
      next hcapture => exact .all hne hcapture (hb x s)
  | data name args ih =>
    rw [substitute_data]
    exact .data (substituteAll_map fun arg harg => ih arg harg x s)
  | prim name => exact .prim

theorem substitutes_iff {x : String} {s t u : Ty} : Substitutes x s t u ↔ u = t.substitute x s := by
  constructor
  · exact Substitutes.eq
  · rintro rfl
    exact substitutes_substitute t x s

/-! ## The nameless type -/

theorem nameless_substitute (t : Ty) (x : String) (s : Ty) :
    (t.substitute x s).nameless = t.nameless.substitute x s.nameless := by
  rw [nameless, under, place_substitute, nameless, under, Nameless.substitute, replace_place]
  refine place_congr fun v _ => ?_
  funext n
  rw [Valuation.names, Nameless.replace]
  split
  next => exact place_eq_under .names s n
  next => rfl

/-! ## Free variables -/

/-- A variable that is replaced gives way to the free variables of what replaces it. -/
theorem toFinset_freeVars_substitute (t : Ty) (x : String) (s : Ty) :
    (t.substitute x s).freeVars.toFinset =
      if x ∈ t.freeVars then t.freeVars.toFinset.erase x ∪ s.freeVars.toFinset
      else t.freeVars.toFinset := by
  split
  next hx =>
    ext w
    rw [List.mem_toFinset, mem_freeVars_substitute, Finset.mem_union, Finset.mem_erase,
      List.mem_toFinset, List.mem_toFinset, and_comm (a := w ≠ x)]
    exact or_congr_right (and_iff_right hx)
  next hx => rw [substitute_eq_self s hx]

/-- Substitution ends, with one result, which is that of substituting in the nameless type; and a
variable that is replaced gives way to the free variables of what replaces it. -/
theorem substitute_avoids_capture (t : Ty) (x : String) (s : Ty) :
    (∀ u, Substitutes x s t u ↔ u = t.substitute x s) ∧
      (t.substitute x s).nameless = t.nameless.substitute x s.nameless ∧
      (t.substitute x s).freeVars.toFinset =
        if x ∈ t.freeVars then t.freeVars.toFinset.erase x ∪ s.freeVars.toFinset
        else t.freeVars.toFinset :=
  ⟨fun _ => substitutes_iff, nameless_substitute t x s, toFinset_freeVars_substitute t x s⟩

end Ty

end PolyLambda
