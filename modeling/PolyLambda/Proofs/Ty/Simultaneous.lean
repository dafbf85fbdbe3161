import PolyLambda.Proofs.Ty.AlphaEq

/-!
# Substitutions act at once

A substitution is a sequence of layers, and every layer renames quantifiers on its own. Without the
names of bound variables nothing of that is left: a type under a substitution is the type with each
of its free variables replaced by what the substitution makes of that variable, all at once
(`Substitution.apply_simultaneous`). So a substitution is determined by what it does to variables,
and however many layers it has, on a given type one layer does the same.

Where there is one variable to replace, the substitution with one layer and the substitution for a
variable make the same type, down to the names of its quantifiers (`Substitution.apply_singleton`).
They look for captured variables in different ways and list different names to avoid, but a
quantifier is renamed only where the variable occurs, and there the lists hold the same names.
-/

namespace PolyLambda

namespace Layer

/-! ## One variable -/

section

variable {layer : Layer} {x : String} {r : Ty}
  (hlayer : ∀ v, layer.get? v = if v = x then some r else none)

include hlayer

theorem erase_of_ne {v : String} (hne : v ≠ x) : Table.erase layer v = layer := by
  refine Table.ext fun w => ?_
  rw [Table.get?_erase]
  split
  next h => rw [h, hlayer, if_neg hne]
  next => rfl

theorem captures_iff_of_single {v : String} {b : Ty} :
    layer.captures v b = true ↔ v ∈ r.freeVars ∧ x ∈ b.freeVars := by
  simp only [captures_eq_true_iff, hlayer]
  constructor
  · rintro ⟨w, t, hget, hw, hv⟩
    obtain ⟨rfl, ⟨⟩⟩ := Option.ite_none_right_eq_some.1 hget
    exact ⟨hv, hw⟩
  · rintro ⟨hv, hx⟩
    exact ⟨x, r, if_pos rfl, hx, hv⟩

/-- Where `x` occurs the layer and the substitution for `x` avoid the same names. -/
theorem mem_avoid_of_single {b : Ty} (hx : x ∈ b.freeVars) {w : String} :
    w ∈ layer.avoid b ↔ w ∈ r.freeVars ++ b.freeVars := by
  simp only [mem_avoid_iff, hlayer, Option.ite_none_right_eq_some, Option.some.injEq,
    List.mem_append]
  constructor
  · rintro (hw | ⟨_, rfl, -⟩ | ⟨_, _, ⟨-, rfl⟩, hw⟩)
    · exact .inr hw
    · exact .inr hx
    · exact .inl hw
  · rintro (hw | hw)
    · exact .inr (.inr ⟨x, r, ⟨rfl, rfl⟩, hw⟩)
    · exact .inl hw

/-- The layer that knows `x` alone is the substitution for `x`. -/
theorem apply_eq_substitute (t : Ty) : layer.apply t = t.substitute x r := by
  induction t using Ty.renameInduct with
  | var name =>
    rw [apply_var, hlayer, Ty.substitute_var]
    split <;> rfl
  | arrow p q ihp ihq => rw [apply_arrow, Ty.substitute_arrow, ihp, ihq]
  | all v b ih =>
    rw [Ty.substitute_all]
    split
    next hvx =>
      -- The quantifier keeps `x` away from both.
      refine apply_eq_self fun w hw => ?_
      have hwv : w ≠ v := of_decide_eq_true (List.mem_filter.1 hw).2
      rw [hlayer, if_neg (hvx ▸ hwv)]
    next hvx =>
      rw [apply_all]
      dsimp only
      rw [erase_of_ne hlayer hvx]
      by_cases hcapture : v ∈ r.freeVars ∧ x ∈ b.freeVars
      · have hfresh : freshName v (layer.avoid b) = freshName v (r.freeVars ++ b.freeVars) :=
          freshName_congr fun w => (mem_avoid_of_single hlayer hcapture.2).symm
        rw [if_pos ((captures_iff_of_single hlayer).2 hcapture), if_pos hcapture, hfresh]
        exact congrArg _ (ih _ (Ty.size_substitute_var ..))
      · rw [if_neg (mt (captures_iff_of_single hlayer).1 hcapture), if_neg hcapture]
        exact congrArg _ (ih b rfl)
  | data name args ih =>
    rw [apply_data, Ty.substitute_data]
    exact congrArg _ (List.map_congr_left ih)
  | prim name => rw [apply_prim, Ty.substitute_prim]

end

end Layer

namespace Substitution

/-! ## What a substitution does to variables -/

/-- What the substitution makes of each variable. -/
def meaning (s : Substitution) : Valuation := fun v => Ty.closed .names (s.apply (.var v))

theorem type_meaning (s : Substitution) (v : String) :
    (s.meaning v).type = (s.apply (.var v)).nameless := rfl

theorem nameless_apply_eq_under (s : Substitution) (t : Ty) :
    (s.apply t).nameless = t.under s.meaning :=
  Ty.under_apply s t .names s.meaning s.type_meaning

theorem nameless_apply (s : Substitution) (t : Ty) :
    (s.apply t).nameless = t.nameless.replace fun v => (s.apply (.var v)).nameless := by
  rw [nameless_apply_eq_under, ← Ty.replace_nameless]
  rfl

theorem nameless_apply_congr {s r : Substitution} {t : Ty}
    (h : ∀ v ∈ t.freeVars, (s.apply (.var v)).nameless = (r.apply (.var v)).nameless) :
    (s.apply t).nameless = (r.apply t).nameless := by
  rw [nameless_apply_eq_under, nameless_apply_eq_under]
  exact Ty.under_congr fun v hv => ClosedType.ext (h v hv)

/-! ## One layer for many -/

/-- The single layer that does to the variables `vars` what `s` does. -/
def restrict (s : Substitution) (vars : List String) : Substitution :=
  ofList (vars.map fun v => (v, s.apply (.var v)))

theorem apply_restrict_var (s : Substitution) {vars : List String} {v : String} (hv : v ∈ vars) :
    (s.restrict vars).apply (.var v) = s.apply (.var v) := by
  have hne : (vars.map fun v => (v, s.apply (.var v))).isEmpty = false := by
    rw [List.isEmpty_map]
    exact List.isEmpty_eq_false_iff.2 (List.ne_nil_of_mem hv)
  rw [restrict, ofList, hne]
  change Layer.apply _ (.var v) = _
  rw [Layer.apply_var, Table.get?_ofList_map, if_pos hv, Option.getD_some]

/-- A substitution replaces the free variables of a type at once, captures nothing, and depends on
nothing but what it does to them. -/
theorem apply_simultaneous (s : Substitution) (t : Ty) :
    (s.apply t).nameless = t.nameless.replace (fun v => (s.apply (.var v)).nameless) ∧
      (∀ t', Ty.AlphaEq t t' → Ty.AlphaEq (s.apply t) (s.apply t')) ∧
      (∀ r : Substitution, (∀ v ∈ t.freeVars, Ty.AlphaEq (s.apply (.var v)) (r.apply (.var v))) →
        Ty.AlphaEq (s.apply t) (r.apply t)) ∧
      Ty.AlphaEq (s.apply t) ((s.restrict t.freeVars).apply t) := by
  simp only [Ty.alphaEq_iff]
  refine ⟨nameless_apply s t, fun t' ht => ?_, fun r => nameless_apply_congr, ?_⟩
  · rw [nameless_apply, ht, nameless_apply]
  · exact nameless_apply_congr fun v hv => by rw [apply_restrict_var s hv]

/-- The type `(forall 'v (-> 'v 'c))`. -/
def arrowToC (v : String) : Ty := .all v (.arrow (.var v) (.var "c"))

/-- First `'b` for `'c`, and then `'a` for `'b`. -/
def inTwoLayers : Substitution := (singleton "b" (.var "a")).compose (singleton "c" (.var "b"))

/-- Two layers put `'a` in for `'c`, as one does. Where the quantifier binds `'a` it is renamed, and
where it binds `'d` it is not, and the results are the same type up to that. -/
theorem apply_simultaneous_capture :
    inTwoLayers.apply (arrowToC "a") = .all "a'" (.arrow (.var "a'") (.var "a")) ∧
      inTwoLayers.apply (arrowToC "d") = .all "d" (.arrow (.var "d") (.var "a")) ∧
      Ty.AlphaEq (arrowToC "a") (arrowToC "d") ∧
      Ty.AlphaEq (inTwoLayers.apply (arrowToC "a")) (inTwoLayers.apply (arrowToC "d")) ∧
      (∀ v ∈ (arrowToC "d").freeVars, Ty.AlphaEq (inTwoLayers.apply (.var v))
        ((singleton "c" (.var "a")).apply (.var v))) ∧
      Ty.AlphaEq (inTwoLayers.apply (arrowToC "d"))
        ((singleton "c" (.var "a")).apply (arrowToC "d")) := by
  have halpha : Ty.AlphaEq (arrowToC "a") (arrowToC "d") := Ty.alphaEq_iff.2 (by decide)
  have hagree : ∀ v ∈ (arrowToC "d").freeVars, Ty.AlphaEq (inTwoLayers.apply (.var v))
      ((singleton "c" (.var "a")).apply (.var v)) := by
    simp only [Ty.alphaEq_iff]
    decide
  exact ⟨rfl, rfl, halpha, (apply_simultaneous inTwoLayers (arrowToC "a")).2.1 _ halpha, hagree,
    (apply_simultaneous inTwoLayers (arrowToC "d")).2.2.1 _ hagree⟩

/-! ## One variable -/

/-- The substitution of `r` for `x` makes the same type as replacing `x` by `r`, down to the names
of its quantifiers. -/
theorem apply_singleton (x : String) (r t : Ty) : (singleton x r).apply t = t.substitute x r :=
  Layer.apply_eq_substitute
    (fun v => by rw [Table.get?_insert, Table.get?_empty]) t

end Substitution

end PolyLambda
