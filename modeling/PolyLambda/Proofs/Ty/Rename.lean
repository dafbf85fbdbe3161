import PolyLambda.Proofs.Ty.Nameless

/-!
# Renaming type variables

A renaming gives every name another one, different names for different names, and a name with a
prime the new name with a prime. All that is done with types commutes with it: fresh names are found
by adding primes until a name is not in use, and otherwise names are only compared.
-/

namespace PolyLambda

/-- New names for all names. -/
structure Renaming where
  name : String → String
  injective : Function.Injective name
  prime : ∀ v, name (v ++ "'") = name v ++ "'"

namespace Renaming

instance : CoeFun Renaming fun _ => String → String := ⟨name⟩

variable (π : Renaming)

theorem eq_iff {v w : String} : π v = π w ↔ v = w :=
  π.injective.eq_iff

theorem mem_map_iff {v : String} {names : List String} : π v ∈ names.map π ↔ v ∈ names :=
  List.mem_map_of_injective π.injective

theorem primed (v : String) (k : Nat) : π (primed v k) = PolyLambda.primed (π v) k := by
  induction k with
  | zero => rfl
  | succ k ih => rw [PolyLambda.primed, π.prime, ih, PolyLambda.primed]

end Renaming

/-- A fresh name is renamed to the fresh name among renamed ones. -/
theorem freshName_rename (π : Renaming) {base : String} {avoid avoid' : List String}
    (h : ∀ v, π v ∈ avoid' ↔ v ∈ avoid) : freshName (π base) avoid' = π (freshName base avoid) := by
  have hprimed (k : Nat) : primed (π base) k ∈ avoid' ↔ primed base k ∈ avoid := by
    rw [← π.primed]
    exact h _
  obtain ⟨m, hm, hm'⟩ := exists_freshName_eq_of_iff hprimed
  rw [hm, hm', π.primed]

namespace Ty

mutual

/-- The type with new names for all its variables, free and bound. -/
def rename (π : Renaming) : Ty → Ty
  | .var name => .var (π name)
  | .arrow p r => .arrow (p.rename π) (r.rename π)
  | .all v b => .all (π v) (b.rename π)
  | .data name args => .data name (renameAll π args)
  | .prim name => .prim name

def renameAll (π : Renaming) : List Ty → List Ty
  | [] => []
  | t :: ts => t.rename π :: renameAll π ts

end

variable (π : Renaming)

@[simp]
theorem renameAll_eq_map (ts : List Ty) : renameAll π ts = ts.map (rename π) := by
  induction ts with
  | nil => rfl
  | cons t ts ih => rw [renameAll, ih, List.map_cons]

/-! ## Equations -/

@[simp]
theorem rename_var (name : String) : (var name).rename π = .var (π name) := rfl

@[simp]
theorem rename_arrow (p r : Ty) : (arrow p r).rename π = .arrow (p.rename π) (r.rename π) := rfl

@[simp]
theorem rename_all (v : String) (b : Ty) : (all v b).rename π = .all (π v) (b.rename π) := rfl

@[simp]
theorem rename_data (name : String) (args : List Ty) :
    (data name args).rename π = .data name (args.map (rename π)) :=
  congrArg _ (renameAll_eq_map π args)

@[simp]
theorem rename_prim (name : String) : (prim name).rename π = .prim name := rfl

/-! ## Size and variables -/

@[simp]
theorem size_rename (t : Ty) : (t.rename π).size = t.size := by
  induction t with
  | var name => rfl
  | arrow p r ihp ihr => rw [rename_arrow, size, size, ihp, ihr]
  | all v b ih => rw [rename_all, size, size, ih]
  | data name args ih =>
    rw [rename_data, size, size]
    refine congrArg _ ?_
    induction args with
    | nil => rfl
    | cons arg args ihArgs =>
      obtain ⟨harg, hargs⟩ := List.forall_mem_cons.1 ih
      rw [List.map_cons, sizes, sizes, harg, ihArgs hargs]
  | prim name => rfl

theorem rename_injective : Function.Injective (rename π) := by
  intro t t' h
  induction t generalizing t' with
  | var name =>
    cases t' <;> simp only [rename_var, rename_arrow, rename_all, rename_data, rename_prim,
      reduceCtorEq, var.injEq] at h
    exact congrArg _ (π.injective h)
  | arrow p r ihp ihr =>
    cases t' <;> simp only [rename_var, rename_arrow, rename_all, rename_data, rename_prim,
      reduceCtorEq, arrow.injEq] at h
    rw [ihp h.1, ihr h.2]
  | all v b ih =>
    cases t' <;> simp only [rename_var, rename_arrow, rename_all, rename_data, rename_prim,
      reduceCtorEq, all.injEq] at h
    rw [π.injective h.1, ih h.2]
  | data name args ih =>
    cases t' <;> simp only [rename_var, rename_arrow, rename_all, rename_data, rename_prim,
      reduceCtorEq, data.injEq] at h
    next name' args' =>
      refine congr (congrArg _ h.1) ?_
      replace h := h.2
      induction args generalizing args' with
      | nil => exact (List.map_eq_nil_iff.1 h.symm).symm
      | cons arg args ihArgs =>
        obtain ⟨harg, hargs⟩ := List.forall_mem_cons.1 ih
        cases args' with
        | nil => cases h
        | cons arg' args' =>
          obtain ⟨hhead, htail⟩ := List.cons.inj h
          rw [harg hhead, ihArgs hargs args' htail]
  | prim name =>
    cases t' <;> simp only [rename_var, rename_arrow, rename_all, rename_data, rename_prim,
      reduceCtorEq] at h
    exact h

theorem freeVars_rename (t : Ty) : (t.rename π).freeVars = t.freeVars.map π := by
  induction t with
  | var name => rfl
  | arrow p r ihp ihr => rw [rename_arrow, freeVars, freeVars, List.map_append, ihp, ihr]
  | all v b ih =>
    rw [rename_all, freeVars, freeVars, ih, List.filter_map]
    refine congrArg _ (List.filter_congr fun w _ => ?_)
    simp only [Function.comp_apply, ne_eq, π.eq_iff]
  | data name args ih =>
    rw [rename_data, freeVars, freeVars]
    induction args with
    | nil => rfl
    | cons arg args ihArgs =>
      obtain ⟨harg, hargs⟩ := List.forall_mem_cons.1 ih
      rw [List.map_cons, freeVarsAll, freeVarsAll, List.map_append, harg, ihArgs hargs]
  | prim name => rfl

@[simp]
theorem mem_freeVars_rename {t : Ty} {v : String} :
    π v ∈ (t.rename π).freeVars ↔ v ∈ t.freeVars := by
  rw [freeVars_rename, π.mem_map_iff]

/-! ## Chains of arrows and quantifiers -/

theorem rename_arrows (params : List Ty) (result : Ty) :
    (arrows params result).rename π = arrows (params.map (rename π)) (result.rename π) := by
  induction params with
  | nil => rfl
  | cons p params ih =>
    have hcons (p : Ty) (params : List Ty) (result : Ty) :
        arrows (p :: params) result = .arrow p (arrows params result) := rfl
    rw [List.map_cons, hcons, hcons, rename_arrow, ih]

theorem splitArrows_rename (t : Ty) :
    (t.rename π).splitArrows = (t.splitArrows.1.map (rename π), t.splitArrows.2.rename π) := by
  fun_induction splitArrows t with
  | case1 p r ih => rw [rename_arrow, splitArrows, ih, List.map_cons]
  | case2 t h =>
    cases t with
    | arrow p r => exact absurd rfl (h p r)
    | _ => rfl

theorem splitAlls_rename (t : Ty) :
    (t.rename π).splitAlls = (t.splitAlls.1.map π, t.splitAlls.2.rename π) := by
  fun_induction splitAlls t with
  | case1 v b ih => rw [rename_all, splitAlls, ih, List.map_cons]
  | case2 t h =>
    cases t with
    | all v b => exact absurd rfl (h v b)
    | _ => rfl

/-! ## One variable -/

theorem substitute_rename (t : Ty) (x : String) (s : Ty) :
    (t.rename π).substitute (π x) (s.rename π) = (t.substitute x s).rename π := by
  induction t using renameInduct generalizing x s with
  | var name =>
    rw [rename_var, substitute_var, substitute_var]
    simp only [π.eq_iff]
    split <;> rfl
  | arrow p r ihp ihr =>
    rw [rename_arrow, substitute_arrow, substitute_arrow, rename_arrow, ihp, ihr]
  | all v b ih =>
    have hb := ih b rfl
    have hfresh : freshName (π v) ((s.rename π).freeVars ++ (b.rename π).freeVars) =
        π (freshName v (s.freeVars ++ b.freeVars)) := by
      refine freshName_rename π fun w => ?_
      simp only [List.mem_append, mem_freeVars_rename]
    rw [rename_all, substitute_all, substitute_all]
    simp only [π.eq_iff, mem_freeVars_rename]
    split
    next => rfl
    next =>
      split
      next =>
        rw [hfresh, rename_all]
        refine congrArg _ ?_
        rw [← ih _ (size_substitute_var ..), ← hb, rename_var]
      next => rw [rename_all, hb]
  | data name args ih =>
    rw [rename_data, substitute_data, substitute_data, rename_data, List.map_map, List.map_map]
    exact congrArg _ (List.map_congr_left fun arg harg => ih arg harg x s)
  | prim name => rfl

/-! ## Meanings -/

theorem place_rename (t : Ty) (depth : Nat) (σ : Placement) :
    (t.rename π).place depth σ = t.place depth fun v => σ (π v) := by
  induction t generalizing depth σ with
  | var name => rfl
  | arrow p r ihp ihr => rw [rename_arrow, place_arrow, place_arrow, ihp, ihr]
  | all v b ih =>
    rw [rename_all, place_all, place_all, ih]
    refine congrArg _ (place_congr fun w _ => ?_)
    by_cases hne : w = v
    · rw [hne, Placement.bind_self, Placement.bind_self]
    · rw [Placement.bind_of_ne _ hne, Placement.bind_of_ne _ fun h => hne (π.injective h)]
  | data name args ih =>
    rw [rename_data, place_data, place_data, List.map_map]
    exact congrArg _ (List.map_congr_left fun arg harg => ih arg harg depth σ)
  | prim name => rfl

/-- Where a renaming keeps the free variables of a type, it renames no more than bound ones. -/
theorem nameless_rename {t : Ty} (h : ∀ v ∈ t.freeVars, π v = v) :
    (t.rename π).nameless = t.nameless := by
  rw [nameless, under, place_rename]
  exact place_congr fun v hv => by rw [h v hv]

end Ty

/-! ## Layers and substitutions -/

namespace Layer

variable (π : Renaming)

/-- The layer with new names, for its variables and in its types. -/
def rename (layer : Layer) : Layer :=
  Table.ofList (layer.entries.map fun (v, t) => (π v, t.rename π))

variable {layer : Layer}

theorem get?_rename_eq_some_iff {w : String} {u : Ty} :
    (layer.rename π).get? w = some u ↔
      ∃ v t, layer.get? v = some t ∧ w = π v ∧ u = t.rename π := by
  have hnodup : ((layer.entries.map fun (v, t) => (π v, t.rename π)).map Prod.fst).Nodup := by
    have hnames : (layer.entries.map Prod.fst).Nodup := by
      refine List.pairwise_map.2 (layer.sorted.imp fun {e f} hlt heq => ?_)
      rw [heq] at hlt
      exact String.lt_irrefl _ hlt
    rw [List.map_map]
    have hcomp : (Prod.fst ∘ fun e : String × Ty => (π e.1, e.2.rename π)) = π ∘ Prod.fst := rfl
    rw [show (Prod.fst ∘ fun (v, t) => (π v, Ty.rename π t)) = π ∘ Prod.fst from hcomp,
      ← List.map_map]
    exact hnames.map π.injective
  constructor
  · intro h
    obtain ⟨⟨v, t⟩, hmem, heq⟩ := List.mem_map.1 (Table.mem_of_get?_ofList h)
    obtain ⟨rfl, rfl⟩ := Prod.mk.inj heq
    exact ⟨v, t, Table.mem_entries_iff.1 hmem, rfl, rfl⟩
  · rintro ⟨v, t, ht, rfl, rfl⟩
    exact Table.get?_ofList_of_mem hnodup
      (List.mem_map.2 ⟨(v, t), Table.mem_entries_iff.2 ht, rfl⟩)

theorem get?_rename (layer : Layer) (v : String) :
    (layer.rename π).get? (π v) = (layer.get? v).map (Ty.rename π) := by
  refine Option.ext fun u => ?_
  rw [get?_rename_eq_some_iff, Option.map_eq_some_iff]
  constructor
  · rintro ⟨w, t, ht, hw, rfl⟩
    exact ⟨t, π.injective hw ▸ ht, rfl⟩
  · rintro ⟨t, ht, rfl⟩
    exact ⟨v, t, ht, rfl, rfl⟩

theorem erase_rename (layer : Layer) (v : String) :
    Table.erase (layer.rename π) (π v) = rename π (Table.erase layer v) := by
  refine Table.ext fun w => Option.ext fun u => ?_
  rw [get?_rename_eq_some_iff, Table.get?_erase]
  constructor
  · intro h
    split at h
    next => cases h
    next hne =>
      obtain ⟨x, t, ht, rfl, rfl⟩ := (get?_rename_eq_some_iff π).1 h
      refine ⟨x, t, ?_, rfl, rfl⟩
      rw [Table.get?_erase, if_neg fun heq => hne (congrArg π heq), ht]
  · rintro ⟨x, t, ht, rfl, rfl⟩
    rw [Table.get?_erase] at ht
    split at ht
    next => cases ht
    next hne =>
      rw [if_neg fun heq => hne (π.injective heq)]
      exact (get?_rename_eq_some_iff π).2 ⟨x, t, ht, rfl, rfl⟩

theorem captures_rename (layer : Layer) (v : String) (b : Ty) :
    (layer.rename π).captures (π v) (b.rename π) = layer.captures v b := by
  rw [Bool.eq_iff_iff, captures_eq_true_iff, captures_eq_true_iff]
  constructor
  · rintro ⟨_, _, hget, hx, hv⟩
    obtain ⟨x, t, ht, rfl, rfl⟩ := (get?_rename_eq_some_iff π).1 hget
    exact ⟨x, t, ht, (Ty.mem_freeVars_rename π).1 hx, (Ty.mem_freeVars_rename π).1 hv⟩
  · rintro ⟨x, t, ht, hx, hv⟩
    exact ⟨π x, t.rename π, (get?_rename_eq_some_iff π).2 ⟨x, t, ht, rfl, rfl⟩,
      (Ty.mem_freeVars_rename π).2 hx, (Ty.mem_freeVars_rename π).2 hv⟩

theorem mem_avoid_rename {b : Ty} {v : String} :
    π v ∈ (layer.rename π).avoid (b.rename π) ↔ v ∈ layer.avoid b := by
  have htype {x : String} : (∃ t, (layer.rename π).get? (π x) = some t) ↔
      ∃ t, layer.get? x = some t := by
    rw [get?_rename]
    cases layer.get? x <;> simp
  have hvalues : (∃ x t, (layer.rename π).get? x = some t ∧ π v ∈ t.freeVars) ↔
      ∃ x t, layer.get? x = some t ∧ v ∈ t.freeVars := by
    constructor
    · rintro ⟨_, _, hget, hv⟩
      obtain ⟨x, t, ht, rfl, rfl⟩ := (get?_rename_eq_some_iff π).1 hget
      exact ⟨x, t, ht, (Ty.mem_freeVars_rename π).1 hv⟩
    · rintro ⟨x, t, ht, hv⟩
      exact ⟨π x, t.rename π, (get?_rename_eq_some_iff π).2 ⟨x, t, ht, rfl, rfl⟩,
        (Ty.mem_freeVars_rename π).2 hv⟩
  rw [mem_avoid_iff, mem_avoid_iff, Ty.mem_freeVars_rename, htype, hvalues]

theorem apply_rename (layer : Layer) (t : Ty) :
    (layer.rename π).apply (t.rename π) = (layer.apply t).rename π := by
  induction t using Ty.renameInduct generalizing layer with
  | var name =>
    rw [Ty.rename_var, apply_var, apply_var, get?_rename]
    cases layer.get? name <;> rfl
  | arrow p r ihp ihr => rw [Ty.rename_arrow, apply_arrow, apply_arrow, Ty.rename_arrow, ihp, ihr]
  | all v b ih =>
    have hfresh : freshName (π v) (avoid (rename π (Table.erase layer v)) (b.rename π)) =
        π (freshName v (avoid (Table.erase layer v) b)) :=
      freshName_rename π fun w => mem_avoid_rename π
    rw [Ty.rename_all, apply_all, apply_all]
    dsimp only
    rw [erase_rename, captures_rename]
    split
    next =>
      rw [hfresh, Ty.rename_all]
      refine congrArg _ ?_
      rw [← ih _ (Ty.size_substitute_var ..), ← Ty.substitute_rename, Ty.rename_var]
    next => rw [Ty.rename_all, ih b rfl]
  | data name args ih =>
    rw [Ty.rename_data, apply_data, apply_data, Ty.rename_data, List.map_map, List.map_map]
    exact congrArg _ (List.map_congr_left fun arg harg => ih arg harg layer)
  | prim name => rfl

end Layer

namespace Substitution

variable (π : Renaming)

/-- The substitution with new names. -/
def rename (s : Substitution) : Substitution :=
  ⟨s.layers.map (Layer.rename π)⟩

theorem rename_compose (l r : Substitution) :
    (l.compose r).rename π = (l.rename π).compose (r.rename π) :=
  congrArg mk List.map_append

theorem apply_rename (s : Substitution) (t : Ty) :
    (s.rename π).apply (t.rename π) = (s.apply t).rename π := by
  obtain ⟨layers⟩ := s
  induction layers generalizing t with
  | nil => rfl
  | cons layer layers ih =>
    rw [rename, List.map_cons, apply_cons, apply_cons, Layer.apply_rename]
    exact ih _

end Substitution

end PolyLambda
