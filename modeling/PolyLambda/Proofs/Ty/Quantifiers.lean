import PolyLambda.Proofs.Ty.FreeVars

/-!
# Counting quantifiers

Types without quantifiers are first-order terms: a substitution passes through them down to their
variables, so that two substitutions that agree on variables agree on them. The number of
quantifiers of a type in general does not change under a substitution that puts no quantifier in.
-/

namespace PolyLambda

namespace Ty

mutual

/-- The number of quantifiers in a type. -/
def quantifiers : Ty → Nat
  | .var _ => 0
  | .arrow p r => p.quantifiers + r.quantifiers
  | .all _ b => b.quantifiers + 1
  | .data _ args => quantifiersAll args
  | .prim _ => 0

def quantifiersAll : List Ty → Nat
  | [] => 0
  | t :: ts => t.quantifiers + quantifiersAll ts

end

/-- Whether no quantifier occurs in a type. -/
def QuantifierFree (t : Ty) : Prop :=
  t.quantifiers = 0

instance (t : Ty) : Decidable t.QuantifierFree :=
  inferInstanceAs (Decidable (_ = _))

theorem quantifiersAll_eq_zero_iff {ts : List Ty} :
    quantifiersAll ts = 0 ↔ ∀ t ∈ ts, t.QuantifierFree := by
  induction ts with
  | nil => simp [quantifiersAll]
  | cons t ts ih => simp [quantifiersAll, ih, QuantifierFree]

theorem quantifiersAll_map {f : Ty → Ty} {ts : List Ty}
    (h : ∀ t ∈ ts, (f t).quantifiers = t.quantifiers) :
    quantifiersAll (ts.map f) = quantifiersAll ts := by
  induction ts with
  | nil => rfl
  | cons t ts ih =>
    rw [List.forall_mem_cons] at h
    rw [List.map_cons, quantifiersAll, quantifiersAll, h.1, ih h.2]

theorem quantifierFree_var (v : String) : (var v).QuantifierFree := rfl

theorem quantifierFree_arrow_iff {p r : Ty} :
    (arrow p r).QuantifierFree ↔ p.QuantifierFree ∧ r.QuantifierFree := by
  simp only [QuantifierFree, quantifiers, Nat.add_eq_zero_iff]

theorem not_quantifierFree_all {v : String} {b : Ty} : ¬ (all v b).QuantifierFree :=
  Nat.succ_ne_zero _

theorem QuantifierFree.ne_all {t : Ty} (ht : t.QuantifierFree) (v : String) (b : Ty) :
    t ≠ .all v b := by
  rintro rfl
  exact not_quantifierFree_all ht

theorem quantifierFree_data_iff {name : String} {args : List Ty} :
    (data name args).QuantifierFree ↔ ∀ arg ∈ args, arg.QuantifierFree := by
  rw [QuantifierFree, quantifiers, quantifiersAll_eq_zero_iff]

/-- Induction on types without quantifiers. -/
theorem QuantifierFree.induct {motive : Ty → Prop} (var : ∀ v, motive (.var v))
    (arrow : ∀ p r, motive p → motive r → motive (.arrow p r))
    (data : ∀ name args, (∀ arg ∈ args, motive arg) → motive (.data name args))
    (prim : ∀ name, motive (.prim name)) {t : Ty} (ht : t.QuantifierFree) : motive t := by
  induction t with
  | var v => exact var v
  | arrow p r ihp ihr =>
    rw [quantifierFree_arrow_iff] at ht
    exact arrow p r (ihp ht.1) (ihr ht.2)
  | all v b => exact absurd ht not_quantifierFree_all
  | data name args ih =>
    rw [quantifierFree_data_iff] at ht
    exact data name args fun arg harg => ih arg harg (ht arg harg)
  | prim name => exact prim name

/-- Renaming a variable keeps the number of quantifiers. -/
theorem quantifiers_substitute {s : Ty} (hs : s.QuantifierFree) (t : Ty) (x : String) :
    (t.substitute x s).quantifiers = t.quantifiers := by
  induction t using renameInduct generalizing s x with
  | var name =>
    rw [substitute_var]
    split
    next => exact hs
    next => rfl
  | arrow p r ihp ihr => rw [substitute_arrow, quantifiers, quantifiers, ihp hs, ihr hs]
  | all v b ih =>
    rw [substitute_all]
    split
    next => rfl
    next =>
      split
      next =>
        dsimp only
        rw [quantifiers, quantifiers, ih _ (size_substitute_var ..) hs,
          ih b rfl (quantifierFree_var _)]
      next => rw [quantifiers, quantifiers, ih b rfl hs]
  | data name args ih =>
    rw [substitute_data, quantifiers, quantifiers,
      quantifiersAll_map fun arg harg => ih arg harg hs x]
  | prim name => rfl

end Ty

/-! ## Layers and substitutions without quantifiers -/

/-- Whether a layer puts only types without quantifiers in the place of variables. -/
def Layer.QuantifierFree (layer : Layer) : Prop :=
  ∀ v, (layer.apply (.var v)).QuantifierFree

theorem Layer.QuantifierFree.erase {layer : Layer} (h : layer.QuantifierFree) (v : String) :
    Layer.QuantifierFree (Table.erase layer v) := by
  intro x
  have hx := h x
  rw [Layer.apply_var] at hx ⊢
  rw [Table.get?_erase]
  split
  next => exact Ty.quantifierFree_var x
  next => exact hx

theorem Layer.quantifiers_apply {layer : Layer} (h : layer.QuantifierFree) (t : Ty) :
    (layer.apply t).quantifiers = t.quantifiers := by
  induction t using Ty.renameInduct generalizing layer with
  | var name => exact h name
  | arrow p r ihp ihr => rw [apply_arrow, Ty.quantifiers, Ty.quantifiers, ihp h, ihr h]
  | all v b ih =>
    rw [apply_all]
    dsimp only
    split
    next =>
      rw [Ty.quantifiers, Ty.quantifiers, ih _ (Ty.size_substitute_var ..) (h.erase v),
        Ty.quantifiers_substitute (Ty.quantifierFree_var _)]
    next => rw [Ty.quantifiers, Ty.quantifiers, ih b rfl (h.erase v)]
  | data name args ih =>
    rw [apply_data, Ty.quantifiers, Ty.quantifiers,
      Ty.quantifiersAll_map fun arg harg => ih arg harg h]
  | prim name => rfl

namespace Substitution

/-- Whether all layers put only types without quantifiers in the place of variables. -/
def QuantifierFree (s : Substitution) : Prop :=
  ∀ layer ∈ s.layers, layer.QuantifierFree

theorem quantifierFree_empty : empty.QuantifierFree :=
  fun _ h => absurd h List.not_mem_nil

theorem QuantifierFree.compose {l r : Substitution} (hl : l.QuantifierFree)
    (hr : r.QuantifierFree) : (l.compose r).QuantifierFree := by
  intro layer h
  rcases List.mem_append.1 h with h | h
  · exact hr layer h
  · exact hl layer h

theorem quantifierFree_singleton {x : String} {t : Ty} (ht : t.QuantifierFree) :
    (singleton x t).QuantifierFree := by
  intro layer h v
  rw [List.mem_singleton.1 h, Layer.apply_var, Table.get?_insert, Table.get?_empty]
  split
  next => exact ht
  next => exact Ty.quantifierFree_var v

theorem quantifiers_apply {s : Substitution} (hs : s.QuantifierFree) (t : Ty) :
    (s.apply t).quantifiers = t.quantifiers := by
  obtain ⟨layers⟩ := s
  induction layers generalizing t with
  | nil => rfl
  | cons layer layers ih =>
    rw [apply_cons, ih _ fun l hl => hs l (List.mem_cons_of_mem _ hl),
      Layer.quantifiers_apply (hs layer List.mem_cons_self)]

theorem quantifierFree_apply {s : Substitution} (hs : s.QuantifierFree) {t : Ty}
    (ht : t.QuantifierFree) : (s.apply t).QuantifierFree :=
  (quantifiers_apply hs t).trans ht

/-- What two substitutions do to the variables decides what they do to a type without
quantifiers. -/
theorem apply_congr_of_quantifierFree {s s' r r' : Substitution}
    (h : ∀ v, s.apply (r.apply (.var v)) = s'.apply (r'.apply (.var v))) {t : Ty}
    (ht : t.QuantifierFree) : s.apply (r.apply t) = s'.apply (r'.apply t) := by
  refine ht.induct (motive := fun t => s.apply (r.apply t) = s'.apply (r'.apply t)) h
    (fun p q ihp ihq => ?_) (fun name args ih => ?_) fun name => ?_
  · simp only [apply_arrow, ihp, ihq]
  · simp only [apply_data, List.map_map]
    exact congrArg _ (List.map_congr_left ih)
  · simp only [apply_prim]

end Substitution

end PolyLambda
