import Mathlib.Data.List.Dedup
import PolyLambda.Proofs.Ty.Quantifiers

/-!
# Substitutions that know what another one knows

A substitution factors through another one if it is that one followed by something. Where the other
one is filled in, this is the same as that it makes no difference between a variable and what the
other one has for it: it absorbs the other one. In this form no third substitution has to be spoken
of, and so equations are solved by what absorbs their most general solution.
-/

namespace PolyLambda

namespace Substitution

variable {θ θ' s : Substitution}

/-- Whether `θ` is `s` followed by another substitution, as far as variables can tell. -/
def FactorsThrough (θ s : Substitution) : Prop :=
  ∃ q : Substitution, ∀ v, θ.apply (.var v) = q.apply (s.apply (.var v))

/-- Whether `θ` makes the same of a variable and of what `s` has for it. -/
def Absorbs (θ s : Substitution) : Prop :=
  ∀ v, θ.apply (s.apply (.var v)) = θ.apply (.var v)

theorem absorbs_empty (θ : Substitution) : θ.Absorbs empty :=
  fun _ => rfl

theorem Absorbs.apply (h : θ.Absorbs s) {t : Ty} (ht : t.QuantifierFree) :
    θ.apply (s.apply t) = θ.apply t := by
  have hvar (v : String) : θ.apply (s.apply (.var v)) = θ.apply (empty.apply (.var v)) := h v
  exact apply_congr_of_quantifierFree hvar ht

theorem Absorbs.factorsThrough (h : θ.Absorbs s) : θ.FactorsThrough s :=
  ⟨θ, fun v => (h v).symm⟩

/-- What a filled-in substitution has for a variable is not changed by it any more. -/
theorem FactorsThrough.absorbs (h : θ.FactorsThrough s)
    (hquantifierFree : ∀ v, (s.apply (.var v)).QuantifierFree)
    (hidempotent : ∀ v, s.apply (s.apply (.var v)) = s.apply (.var v)) : θ.Absorbs s := by
  obtain ⟨q, hq⟩ := h
  intro v
  have hvar (w : String) : θ.apply (empty.apply (.var w)) = q.apply (s.apply (.var w)) := hq w
  calc θ.apply (s.apply (.var v))
      = q.apply (s.apply (s.apply (.var v))) :=
        apply_congr_of_quantifierFree hvar (hquantifierFree v)
    _ = q.apply (s.apply (.var v)) := by rw [hidempotent]
    _ = θ.apply (.var v) := (hq v).symm

/-! ## Free variables decide -/

theorem apply_congr_freeVars {t : Ty} (ht : t.QuantifierFree)
    (h : ∀ v ∈ t.freeVars, θ.apply (.var v) = θ'.apply (.var v)) : θ.apply t = θ'.apply t := by
  refine ht.induct (motive := fun t => (∀ v ∈ t.freeVars, θ.apply (.var v) = θ'.apply (.var v)) →
    θ.apply t = θ'.apply t) (fun v h => h v List.mem_cons_self) (fun p r ihp ihr h => ?_)
    (fun name args ih h => ?_) (fun name _ => by rw [apply_prim, apply_prim]) h
  · simp only [Ty.freeVars, List.mem_append] at h
    rw [apply_arrow, apply_arrow, ihp fun v hv => h v (.inl hv), ihr fun v hv => h v (.inr hv)]
  · rw [apply_data, apply_data]
    refine congrArg _ (List.map_congr_left fun arg harg => ih arg harg fun v hv => h v ?_)
    exact Ty.mem_freeVarsAll.2 ⟨arg, harg, hv⟩

/-! ## Another type for one variable -/

/-- What `θ` does to variables in a single layer, but for `v`, which becomes `t`. -/
def assign (θ : Substitution) (v : String) (t : Ty) : Substitution :=
  ⟨[(Table.ofList (θ.names.dedup.map fun w => (w, θ.apply (.var w)))).insert v t]⟩

theorem apply_assign_var (θ : Substitution) (v w : String) (t : Ty) :
    (θ.assign v t).apply (.var w) = if w = v then t else θ.apply (.var w) := by
  have hnames : (θ.names.dedup.map (fun w => (w, θ.apply (.var w))) |>.map Prod.fst).Nodup := by
    rw [List.map_map, show Prod.fst ∘ (fun w => (w, θ.apply (.var w))) = id from rfl, List.map_id]
    exact List.nodup_dedup _
  show (((Table.ofList _).insert v t).get? w).getD (.var w) = _
  rw [Table.get?_insert]
  split
  next => rfl
  next =>
    cases hw : (Table.ofList (θ.names.dedup.map fun w => (w, θ.apply (.var w)))).get? w with
    | some u =>
      obtain ⟨x, -, hx⟩ := List.mem_map.1 (Table.mem_of_get?_ofList hw)
      cases hx
      rfl
    | none =>
      refine (apply_var_eq_self fun hmem => ?_).symm
      have hentry :=
        List.mem_map_of_mem (f := fun w => (w, θ.apply (.var w))) (List.mem_dedup.2 hmem)
      rw [Table.get?_ofList_of_mem hnames hentry] at hw
      cases hw

theorem apply_assign_self (θ : Substitution) (v : String) (t : Ty) :
    (θ.assign v t).apply (.var v) = t := by
  rw [apply_assign_var, if_pos rfl]

theorem apply_assign_ne {v w : String} (hne : w ≠ v) (t : Ty) :
    (θ.assign v t).apply (.var w) = θ.apply (.var w) := by
  rw [apply_assign_var, if_neg hne]

end Substitution

end PolyLambda
