import PolyLambda.Ty.Basic
import PolyLambda.Ty.FreshName

/-!
# Substituting for one variable

Substitution renames a quantified variable that would capture a variable of the substituted type,
and substitutes in the renamed body. Renaming keeps the size of a type, so its size bounds the depth
of the recursion. `substitute` hides that bound: any bound that is large enough gives the same type
(`substituteWithin_eq_substitute`), and there is one equation for each kind of type.
-/

namespace PolyLambda.Ty

/-- What `substitute` computes, for types of a size up to the given bound. -/
def substituteWithin : Nat → String → Ty → Ty → Ty
  | 0, _, _, t => t
  | n + 1, x, s, t =>
    match t with
    | .var name => if name = x then s else .var name
    | .arrow p r => .arrow (substituteWithin n x s p) (substituteWithin n x s r)
    | .all v b =>
      if v = x then .all v b
      else if v ∈ s.freeVars ∧ x ∈ b.freeVars then
        let fresh := freshName v (s.freeVars ++ b.freeVars)
        .all fresh (substituteWithin n x s (substituteWithin n v (.var fresh) b))
      else .all v (substituteWithin n x s b)
    | .data name args => .data name (args.map (substituteWithin n x s))
    | .prim name => .prim name

/-- The type `t` with its free occurrences of `x` replaced by `s`. -/
def substitute (t : Ty) (x : String) (s : Ty) : Ty :=
  substituteWithin t.size x s t

/-! ## The bound does not matter -/

section

variable (n : Nat) (x : String) (s : Ty)

theorem substituteWithin_var (name : String) :
    substituteWithin (n + 1) x s (.var name) = if name = x then s else .var name := rfl

theorem substituteWithin_arrow (p r : Ty) :
    substituteWithin (n + 1) x s (.arrow p r) =
      .arrow (substituteWithin n x s p) (substituteWithin n x s r) := rfl

theorem substituteWithin_all (v : String) (b : Ty) :
    substituteWithin (n + 1) x s (.all v b) =
      if v = x then .all v b
      else if v ∈ s.freeVars ∧ x ∈ b.freeVars then
        let fresh := freshName v (s.freeVars ++ b.freeVars)
        .all fresh (substituteWithin n x s (substituteWithin n v (.var fresh) b))
      else .all v (substituteWithin n x s b) := rfl

theorem substituteWithin_data (name : String) (args : List Ty) :
    substituteWithin (n + 1) x s (.data name args) =
      .data name (args.map (substituteWithin n x s)) := rfl

end

/-- Renaming keeps the size of a type. -/
theorem size_substituteWithin_var (n : Nat) (x y : String) (t : Ty) :
    (substituteWithin n x (.var y) t).size = t.size := by
  induction n generalizing x y t with
  | zero => rfl
  | succ n ih =>
    cases t with
    | var name =>
      rw [substituteWithin_var]
      split <;> rfl
    | arrow p r => rw [substituteWithin_arrow, size, size, ih, ih]
    | all v b =>
      rw [substituteWithin_all]
      split
      · rfl
      · split <;> simp only [size, ih]
    | data name args =>
      rw [substituteWithin_data, size, size]
      induction args with
      | nil => rfl
      | cons arg args ihArgs =>
        simp only [List.map_cons, sizes, ih]
        omega
    | prim name => rfl

theorem substituteWithin_congr {n m : Nat} (x : String) (s : Ty) {t : Ty} (hn : t.size ≤ n)
    (hm : t.size ≤ m) : substituteWithin n x s t = substituteWithin m x s t := by
  induction n generalizing m x s t with
  | zero => exact absurd (size_pos t) (by omega)
  | succ n ih =>
    cases m with
    | zero => exact absurd (size_pos t) (by omega)
    | succ m =>
      cases t with
      | var name => rfl
      | arrow p r =>
        simp only [size] at hn hm
        rw [substituteWithin_arrow, substituteWithin_arrow, ih (m := m) x s (by omega) (by omega),
          ih (m := m) x s (by omega) (by omega)]
      | all v b =>
        simp only [size] at hn hm
        have hb (y : String) (u : Ty) : substituteWithin n y u b = substituteWithin m y u b :=
          ih y u (by omega) (by omega)
        rw [substituteWithin_all, substituteWithin_all]
        simp only [hb]
        split
        · rfl
        · split
          · refine congrArg _ (ih x s ?_ ?_) <;> rw [size_substituteWithin_var] <;> omega
          · rfl
      | data name args =>
        simp only [size] at hn hm
        rw [substituteWithin_data, substituteWithin_data]
        refine congrArg _ (List.map_congr_left fun arg h => ?_)
        have hArg := size_le_sizes h
        exact ih x s (by omega) (by omega)
      | prim name => rfl

/-- A bound that is large enough gives the substituted type. -/
theorem substituteWithin_eq_substitute {n : Nat} (x : String) (s : Ty) {t : Ty} (h : t.size ≤ n) :
    substituteWithin n x s t = t.substitute x s :=
  substituteWithin_congr x s h (Nat.le_refl _)

@[simp]
theorem size_substitute_var (t : Ty) (x y : String) :
    (t.substitute x (.var y)).size = t.size :=
  size_substituteWithin_var _ x y t

/-! ## Equations -/

section

variable (x : String) (s : Ty)

theorem substitute_var (name : String) :
    (var name).substitute x s = if name = x then s else .var name := rfl

theorem substitute_arrow (p r : Ty) :
    (arrow p r).substitute x s = .arrow (p.substitute x s) (r.substitute x s) := by
  have h : (arrow p r).size ≤ p.size + r.size + 1 := by simp only [size]; omega
  rw [← substituteWithin_eq_substitute x s h, substituteWithin_arrow,
    substituteWithin_eq_substitute x s (Nat.le_add_right _ _),
    substituteWithin_eq_substitute x s (Nat.le_add_left _ _)]

/-- A quantifier of `x` keeps `x` away; another one is renamed if it would capture a variable. -/
theorem substitute_all (v : String) (b : Ty) :
    (all v b).substitute x s =
      if v = x then .all v b
      else if v ∈ s.freeVars ∧ x ∈ b.freeVars then
        let fresh := freshName v (s.freeVars ++ b.freeVars)
        .all fresh ((b.substitute v (.var fresh)).substitute x s)
      else .all v (b.substitute x s) := by
  have h : (all v b).size ≤ b.size + 1 := by simp only [size]; omega
  have hb (y : String) (u : Ty) : substituteWithin b.size y u b = b.substitute y u := rfl
  rw [← substituteWithin_eq_substitute x s h, substituteWithin_all]
  simp only [hb]
  split
  · rfl
  · split
    · refine congrArg _ (substituteWithin_eq_substitute x s ?_)
      exact Nat.le_of_eq (size_substituteWithin_var _ _ _ _)
    · rfl

theorem substitute_data (name : String) (args : List Ty) :
    (data name args).substitute x s = .data name (args.map (·.substitute x s)) := by
  have h : (data name args).size ≤ sizes args + 1 := by simp only [size]; omega
  rw [← substituteWithin_eq_substitute x s h, substituteWithin_data]
  refine congrArg _ (List.map_congr_left fun arg hArg => ?_)
  exact substituteWithin_eq_substitute x s (size_le_sizes hArg)

theorem substitute_prim (name : String) : (prim name).substitute x s = .prim name := rfl

end

end PolyLambda.Ty
