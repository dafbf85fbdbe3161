import PolyLambda.Proofs.Ty.FreshName
import PolyLambda.Ty.Substitution

/-!
# Free variables under substitution

Substitution does to the free variables of a type what it should: each is exchanged for the free
variables of what is put in its place, and nothing is captured. That holds for the substitution for
one variable, for a layer and for a sequence of layers, and it is all that is said here about how
binders are renamed.

A substitution that knows none of the free variables of a type leaves the type as it is, down to the
names of its binders.
-/

namespace PolyLambda

namespace Ty

/-! ## One variable -/

/-- Substitution exchanges a variable for the free variables of what is put in its place. -/
theorem mem_freeVars_substitute (t : Ty) (x : String) (s : Ty) (w : String) :
    w ∈ (t.substitute x s).freeVars ↔
      (w ∈ t.freeVars ∧ w ≠ x) ∨ (x ∈ t.freeVars ∧ w ∈ s.freeVars) := by
  induction t using renameInduct generalizing x s w with
  | var name =>
    rw [substitute_var]
    split
    next h => simp only [h, freeVars, List.mem_singleton]; grind
    next h => simp only [freeVars, List.mem_singleton]; grind
  | arrow p r ihp ihr =>
    rw [substitute_arrow]
    simp only [freeVars, List.mem_append, ihp, ihr]
    grind
  | all v b ih =>
    have hb := ih b rfl
    rw [substitute_all]
    split
    next h => simp only [freeVars, List.mem_filter, decide_eq_true_eq]; grind
    next h =>
      split
      next hcap =>
        -- The new name is neither free in the body nor in `s`, and so it is not `x` either.
        have hfresh := freshName_not_mem v (s.freeVars ++ b.freeVars)
        generalize freshName v (s.freeVars ++ b.freeVars) = fresh at hfresh ⊢
        have hrenamed := ih (b.substitute v (.var fresh)) (size_substitute_var ..)
        simp only [freeVars, List.mem_filter, decide_eq_true_eq, hrenamed, hb, List.mem_singleton]
        grind
      next hcap =>
        simp only [freeVars, List.mem_filter, decide_eq_true_eq, hb]
        grind
  | data name args ih =>
    rw [substitute_data]
    simp only [freeVars, mem_freeVarsAll, List.mem_map, exists_exists_and_eq_and]
    grind
  | prim name =>
    rw [substitute_prim]
    simp [freeVars]

theorem substitute_eq_self {t : Ty} {x : String} (s : Ty) (h : x ∉ t.freeVars) :
    t.substitute x s = t := by
  induction t with
  | var name =>
    rw [freeVars, List.mem_singleton] at h
    rw [substitute_var, if_neg (Ne.symm h)]
  | arrow p r ihp ihr =>
    rw [freeVars, List.mem_append, not_or] at h
    rw [substitute_arrow, ihp h.1, ihr h.2]
  | all v b ih =>
    rw [substitute_all]
    split
    next => rfl
    next hne =>
      have hb : x ∉ b.freeVars := fun hx =>
        h (List.mem_filter.2 ⟨hx, decide_eq_true (Ne.symm hne)⟩)
      rw [if_neg fun hcap => hb hcap.2, ih hb]
  | data name args ih =>
    rw [freeVars, mem_freeVarsAll] at h
    rw [substitute_data, List.map_congr_left fun arg harg => ih arg harg fun hx =>
      h ⟨arg, harg, hx⟩, List.map_id']
  | prim name => rw [substitute_prim]

end Ty

/-! ## One layer -/

namespace Layer

variable {layer : Layer}

theorem captures_eq_true_iff {v : String} {b : Ty} :
    layer.captures v b = true ↔
      ∃ x t, layer.get? x = some t ∧ x ∈ b.freeVars ∧ v ∈ t.freeVars := by
  simp only [captures, List.any_eq_true, Bool.and_eq_true, decide_eq_true_eq, Prod.exists,
    Table.mem_entries_iff]

theorem mem_avoid_iff {b : Ty} {w : String} :
    w ∈ layer.avoid b ↔
      w ∈ b.freeVars ∨ (∃ t, layer.get? w = some t) ∨
        ∃ x t, layer.get? x = some t ∧ w ∈ t.freeVars := by
  simp only [avoid, List.mem_append, Table.mem_names_iff, Ty.mem_freeVarsAll, Table.mem_values_iff]
  grind

theorem mem_freeVars_apply_var {v w : String} :
    w ∈ (layer.apply (.var v)).freeVars ↔
      (∃ t, layer.get? v = some t ∧ w ∈ t.freeVars) ∨ (layer.get? v = none ∧ w = v) := by
  rw [apply_var]
  cases layer.get? v with
  | none => simp [Ty.freeVars]
  | some t => simp

/-- The free variables of a type under a layer are those that the layer puts in the place of its
free variables. -/
theorem mem_freeVars_apply (layer : Layer) (t : Ty) (w : String) :
    w ∈ (layer.apply t).freeVars ↔ ∃ v ∈ t.freeVars, w ∈ (layer.apply (.var v)).freeVars := by
  induction t using Ty.renameInduct generalizing layer w with
  | var name => simp only [Ty.freeVars, List.mem_singleton, exists_eq_left]
  | arrow p r ihp ihr =>
    rw [apply_arrow]
    simp only [Ty.freeVars, List.mem_append, ihp, ihr]
    grind
  | all v b ih =>
    have hb := ih b rfl
    rw [apply_all]
    dsimp only
    split
    next =>
      -- The layer does not know the new name, and replaces nothing by a type it occurs in.
      have hfresh := freshName_not_mem v (avoid (layer.erase v) b)
      generalize freshName v (avoid (layer.erase v) b) = fresh at hfresh ⊢
      have hrenamed := ih (b.substitute v (.var fresh)) (Ty.size_substitute_var ..)
      simp only [mem_avoid_iff, Table.get?_erase] at hfresh
      simp only [Ty.freeVars, List.mem_filter, decide_eq_true_eq, hrenamed,
        Ty.mem_freeVars_substitute, mem_freeVars_apply_var, Table.get?_erase, List.mem_singleton]
      grind
    next hcap =>
      simp only [captures_eq_true_iff, Table.get?_erase] at hcap
      simp only [Ty.freeVars, List.mem_filter, decide_eq_true_eq, hb, mem_freeVars_apply_var,
        Table.get?_erase]
      grind
  | data name args ih =>
    rw [apply_data]
    simp only [Ty.freeVars, Ty.mem_freeVarsAll, List.mem_map, exists_exists_and_eq_and]
    grind
  | prim name => simp [apply_prim, Ty.freeVars]

/-- A layer that knows no free variable of a type leaves it alone. -/
theorem apply_eq_self {t : Ty} (h : ∀ v ∈ t.freeVars, layer.get? v = none) :
    layer.apply t = t := by
  induction t generalizing layer with
  | var name =>
    rw [apply_var, h name List.mem_cons_self]
    rfl
  | arrow p r ihp ihr =>
    simp only [Ty.freeVars, List.mem_append] at h
    rw [apply_arrow, ihp fun v hv => h v (.inl hv), ihr fun v hv => h v (.inr hv)]
  | all v b ih =>
    have hb : ∀ x ∈ b.freeVars, (layer.erase v).get? x = none := by
      intro x hx
      rw [Table.get?_erase]
      split
      next => rfl
      next hne => exact h x (List.mem_filter.2 ⟨hx, decide_eq_true hne⟩)
    have hcap : ¬ captures (layer.erase v) v b = true := by
      rw [captures_eq_true_iff]
      rintro ⟨x, t, hget, hx, -⟩
      rw [hb x hx] at hget
      cases hget
    rw [apply_all]
    dsimp only
    rw [if_neg hcap, ih hb]
  | data name args ih =>
    rw [Ty.freeVars] at h
    rw [apply_data, List.map_congr_left fun arg harg =>
      ih arg harg fun v hv => h v (Ty.mem_freeVarsAll.2 ⟨arg, harg, hv⟩), List.map_id']
  | prim name => rw [apply_prim]

end Layer

/-! ## Layer after layer -/

namespace Substitution

variable (s : Substitution)

/-- The substitution that begins with the layer `layer`. -/
theorem apply_cons (layer : Layer) (layers : List Layer) (t : Ty) :
    apply ⟨layer :: layers⟩ t = apply ⟨layers⟩ (layer.apply t) := rfl

theorem apply_arrow (p r : Ty) : s.apply (.arrow p r) = .arrow (s.apply p) (s.apply r) := by
  obtain ⟨layers⟩ := s
  induction layers generalizing p r with
  | nil => rfl
  | cons layer layers ih => rw [apply_cons, Layer.apply_arrow, ih, ← apply_cons, ← apply_cons]

theorem apply_data (name : String) (args : List Ty) :
    s.apply (.data name args) = .data name (args.map s.apply) := by
  obtain ⟨layers⟩ := s
  induction layers generalizing args with
  | nil => exact congrArg (Ty.data name) (List.map_id args).symm
  | cons layer layers ih =>
    rw [apply_cons, Layer.apply_data, ih, List.map_map]
    rfl

theorem apply_prim (name : String) : s.apply (.prim name) = .prim name := by
  obtain ⟨layers⟩ := s
  induction layers with
  | nil => rfl
  | cons layer layers ih => rw [apply_cons, Layer.apply_prim, ih]

theorem mem_freeVars_apply (t : Ty) (w : String) :
    w ∈ (s.apply t).freeVars ↔ ∃ v ∈ t.freeVars, w ∈ (s.apply (.var v)).freeVars := by
  obtain ⟨layers⟩ := s
  induction layers generalizing t with
  | nil =>
    show w ∈ t.freeVars ↔ ∃ v ∈ t.freeVars, w ∈ Ty.freeVars (.var v)
    simp [Ty.freeVars]
  | cons layer layers ih =>
    rw [apply_cons, ih]
    simp only [apply_cons, Layer.mem_freeVars_apply layer t, ih (layer.apply (.var _))]
    grind

/-- The variables that the substitution knows, layer by layer. -/
def names : List String :=
  s.layers.flatMap Table.names

theorem mem_names_compose {l r : Substitution} {v : String} :
    v ∈ (l.compose r).names ↔ v ∈ r.names ∨ v ∈ l.names := by
  simp only [names, compose, List.flatMap_append, List.mem_append]

theorem mem_names_singleton {x v : String} {t : Ty} :
    v ∈ (singleton x t).names ↔ v = x := by
  simp only [names, singleton, List.flatMap_cons, List.flatMap_nil, List.append_nil,
    Table.mem_names_iff, Table.get?_insert, Table.get?_empty]
  split
  next h => simp [h]
  next h => simp [h]

variable {s}

theorem apply_eq_self {t : Ty} (h : ∀ v ∈ t.freeVars, v ∉ s.names) : s.apply t = t := by
  obtain ⟨layers⟩ := s
  induction layers with
  | nil => rfl
  | cons layer layers ih =>
    simp only [names, List.flatMap_cons, List.mem_append, not_or] at h
    have hlayer : layer.apply t = t := by
      refine Layer.apply_eq_self fun v hv => ?_
      have hnone := (h v hv).1
      rw [Table.mem_names_iff, not_exists] at hnone
      exact Option.eq_none_iff_forall_ne_some.2 hnone
    rw [apply_cons, hlayer]
    exact ih fun v hv => (h v hv).2

theorem apply_var_eq_self {v : String} (h : v ∉ s.names) : s.apply (.var v) = .var v :=
  apply_eq_self fun w hw => by rwa [List.mem_singleton.1 hw]

end Substitution

end PolyLambda
