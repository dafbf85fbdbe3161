import PolyLambda.Ty.Substitute

/-!
# Substitutions

A substitution is a sequence of layers, each a finite map from variables to types. A layer acts on
all its variables at once; the layers act one after the other. So the composition of two
substitutions is, by definition, one after the other, also under a quantifier that shadows a
variable of one of them.

As with the substitution for one variable, the size of a type bounds the depth of the recursion, and
the equations for each kind of type do not mention that bound.
-/

namespace PolyLambda

/-- Types for some of the variables. -/
abbrev Layer := Table Ty

namespace Layer

/-- Whether replacing the free variables of `body` would bring `v` under a quantifier of `v`. -/
def captures (layer : Layer) (v : String) (body : Ty) : Bool :=
  layer.entries.any fun (name, t) => name ∈ body.freeVars && v ∈ t.freeVars

/-- The names that a fresh variable must avoid above `body`. -/
def avoid (layer : Layer) (body : Ty) : List String :=
  body.freeVars ++ layer.names ++ Ty.freeVarsAll (layer.values)

/-- What `apply` computes, for types of a size up to the given bound. -/
def applyWithin : Nat → Layer → Ty → Ty
  | 0, _, t => t
  | n + 1, layer, t =>
    match t with
    | .var name => (layer.get? name).getD (.var name)
    | .arrow p r => .arrow (applyWithin n layer p) (applyWithin n layer r)
    | .all v b =>
      let inner := layer.erase v
      if captures inner v b then
        let fresh := freshName v (avoid inner b)
        .all fresh (applyWithin n inner (b.substitute v (.var fresh)))
      else .all v (applyWithin n inner b)
    | .data name args => .data name (args.map (applyWithin n layer))
    | .prim name => .prim name

/-- The type `t` with all free variables that the layer knows replaced at once. -/
def apply (layer : Layer) (t : Ty) : Ty :=
  applyWithin t.size layer t

section

variable (n : Nat) (layer : Layer)

theorem applyWithin_arrow (p r : Ty) :
    applyWithin (n + 1) layer (.arrow p r) =
      .arrow (applyWithin n layer p) (applyWithin n layer r) := rfl

theorem applyWithin_all (v : String) (b : Ty) :
    applyWithin (n + 1) layer (.all v b) =
      let inner := layer.erase v
      if captures inner v b then
        let fresh := freshName v (avoid inner b)
        .all fresh (applyWithin n inner (b.substitute v (.var fresh)))
      else .all v (applyWithin n inner b) := rfl

theorem applyWithin_data (name : String) (args : List Ty) :
    applyWithin (n + 1) layer (.data name args) = .data name (args.map (applyWithin n layer)) := rfl

end

theorem applyWithin_congr {n m : Nat} (layer : Layer) {t : Ty} (hn : t.size ≤ n)
    (hm : t.size ≤ m) : applyWithin n layer t = applyWithin m layer t := by
  induction n generalizing m layer t with
  | zero => exact absurd t.size_pos (by omega)
  | succ n ih =>
    cases m with
    | zero => exact absurd t.size_pos (by omega)
    | succ m =>
      cases t with
      | var name => rfl
      | arrow p r =>
        simp only [Ty.size] at hn hm
        rw [applyWithin_arrow, applyWithin_arrow, ih (m := m) layer (by omega) (by omega),
          ih (m := m) layer (by omega) (by omega)]
      | all v b =>
        simp only [Ty.size] at hn hm
        rw [applyWithin_all, applyWithin_all]
        dsimp only
        split
        · refine congrArg _ (ih _ ?_ ?_) <;> rw [Ty.size_substitute_var] <;> omega
        · exact congrArg _ (ih _ (by omega) (by omega))
      | data name args =>
        simp only [Ty.size] at hn hm
        rw [applyWithin_data, applyWithin_data]
        refine congrArg _ (List.map_congr_left fun arg h => ?_)
        have hArg := Ty.size_le_sizes h
        exact ih layer (by omega) (by omega)
      | prim name => rfl

/-- A bound that is large enough gives the type with the layer applied. -/
theorem applyWithin_eq_apply {n : Nat} (layer : Layer) {t : Ty} (h : t.size ≤ n) :
    applyWithin n layer t = layer.apply t :=
  applyWithin_congr layer h (Nat.le_refl _)

section

variable (layer : Layer)

theorem apply_var (name : String) :
    layer.apply (.var name) = (layer.get? name).getD (.var name) := rfl

theorem apply_arrow (p r : Ty) :
    layer.apply (.arrow p r) = .arrow (layer.apply p) (layer.apply r) := by
  have h : (Ty.arrow p r).size ≤ p.size + r.size + 1 := by simp only [Ty.size]; omega
  rw [← applyWithin_eq_apply layer h, applyWithin_arrow,
    applyWithin_eq_apply layer (Nat.le_add_right _ _),
    applyWithin_eq_apply layer (Nat.le_add_left _ _)]

/-- The layer does not know a quantified variable in its scope, and the variable is renamed if it
would be captured. -/
theorem apply_all (v : String) (b : Ty) :
    layer.apply (.all v b) =
      let inner := layer.erase v
      if captures inner v b then
        let fresh := freshName v (avoid inner b)
        .all fresh (apply inner (b.substitute v (.var fresh)))
      else .all v (apply inner b) := by
  have h : (Ty.all v b).size ≤ b.size + 1 := by simp only [Ty.size]; omega
  rw [← applyWithin_eq_apply layer h, applyWithin_all]
  dsimp only
  split
  · refine congrArg _ (applyWithin_eq_apply _ ?_)
    exact Nat.le_of_eq (Ty.size_substitute_var _ _ _)
  · rfl

theorem apply_data (name : String) (args : List Ty) :
    layer.apply (.data name args) = .data name (args.map layer.apply) := by
  have h : (Ty.data name args).size ≤ Ty.sizes args + 1 := by simp only [Ty.size]; omega
  rw [← applyWithin_eq_apply layer h, applyWithin_data]
  refine congrArg _ (List.map_congr_left fun arg hArg => ?_)
  exact applyWithin_eq_apply layer (Ty.size_le_sizes hArg)

theorem apply_prim (name : String) : layer.apply (.prim name) = .prim name := rfl

end

end Layer

/-- Layers that act from the first to the last. -/
structure Substitution where
  layers : List Layer
  deriving DecidableEq, Inhabited

namespace Substitution

/-- The substitution that changes nothing. -/
def empty : Substitution := ⟨[]⟩

/-- The substitution of `t` for `x`. -/
def singleton (x : String) (t : Ty) : Substitution :=
  ⟨[Table.empty.insert x t]⟩

/-- The substitution of all the types in `pairs` at once; a later pair wins. -/
def ofList (pairs : List (String × Ty)) : Substitution :=
  if pairs.isEmpty then empty else ⟨[Table.ofList pairs]⟩

/-- Whether the substitution has no layer. -/
def isEmpty (s : Substitution) : Bool :=
  s.layers.isEmpty

/-- The type `t` with the layers applied in order. -/
def apply (s : Substitution) (t : Ty) : Ty :=
  s.layers.foldl (fun t layer => layer.apply t) t

/-- The substitution `r` followed by `l`. -/
def compose (l r : Substitution) : Substitution :=
  ⟨r.layers ++ l.layers⟩

@[simp]
theorem apply_empty (t : Ty) : empty.apply t = t := rfl

@[simp]
theorem compose_empty (s : Substitution) : s.compose empty = s := rfl

@[simp]
theorem empty_compose (s : Substitution) : empty.compose s = s :=
  congrArg mk (List.append_nil s.layers)

theorem compose_assoc (s r q : Substitution) :
    (s.compose r).compose q = s.compose (r.compose q) :=
  congrArg mk (List.append_assoc q.layers r.layers s.layers).symm

@[simp]
theorem apply_compose (l r : Substitution) (t : Ty) :
    (l.compose r).apply t = l.apply (r.apply t) := by
  simp [apply, compose, List.foldl_append]

end Substitution

end PolyLambda
