import PolyLambda.Proofs.Term.Stacks

/-!
# Resolved types are closed

A type variable is resolved only where a binder of it encloses it. So the types in the tables of a
module are closed, and so are the types in the body of a definition, apart from the variables of the
type abstractions around them.
-/

namespace PolyLambda

/-! ## Types -/

section

variable (sig : Signature)

theorem freeVars_resolveType {span : Span} {name : String} {args : List Ty} {t : Ty}
    (h : sig.resolveType span name args = .ok t) :
    ∀ v ∈ t.freeVars, v ∈ Ty.freeVarsAll args := by
  rw [Signature.resolveType] at h
  split at h
  next =>
    split at h
    next => cases h; exact nofun
    next => cases h
  next =>
    split at h
    next =>
      split at h
      next => cases h; exact fun v hv => hv
      next => cases h
    next => cases h

/-- A computation with an error in front succeeds only if both of its parts do. -/
theorem bind_eq_ok_iff {ε α β : Type} {x : Except ε α} {f : α → Except ε β} {b : β} :
    (x >>= f) = .ok b ↔ ∃ a, x = .ok a ∧ f a = .ok b := by
  cases x with
  | error e => exact iff_of_false nofun nofun
  | ok a => exact ⟨fun h => ⟨a, rfl, h⟩, fun ⟨_, ha, h⟩ => Except.ok.inj ha ▸ h⟩

open Surface in
mutual

theorem freeVars_resolve : (e : TypeExpr) → {vars : List String} → {t : Ty} →
    e.resolve sig vars = .ok t → ∀ v ∈ t.freeVars, v ∈ vars
  | .var span name, vars, t, h => by
    rw [TypeExpr.resolve_var] at h
    split at h
    next hmem =>
      cases h
      intro v hv
      rwa [List.mem_singleton.1 hv]
    next => cases h
  | .named span name, vars, t, h => by
    rw [TypeExpr.resolve_named] at h
    intro v hv
    cases freeVars_resolveType sig h v hv
  | .arrow _ param result, vars, t, h => by
    rw [TypeExpr.resolve_arrow] at h
    obtain ⟨p, hp, h⟩ := bind_eq_ok_iff.1 h
    obtain ⟨r, hr, h⟩ := bind_eq_ok_iff.1 h
    cases h
    intro v hv
    exact (List.mem_append.1 hv).elim (freeVars_resolve param hp v) (freeVars_resolve result hr v)
  | .all _ w body, vars, t, h => by
    rw [TypeExpr.resolve_all] at h
    obtain ⟨b, hb, h⟩ := bind_eq_ok_iff.1 h
    cases h
    intro v hv
    obtain ⟨hv, hne⟩ := List.mem_filter.1 hv
    exact (List.mem_cons.1 (freeVars_resolve body hb v hv)).resolve_left (of_decide_eq_true hne)
  | .applied span name args, vars, t, h => by
    rw [TypeExpr.resolve_applied] at h
    obtain ⟨ts, hts, h⟩ := bind_eq_ok_iff.1 h
    intro v hv
    exact freeVars_resolveAll args hts v (freeVars_resolveType sig h v hv)

theorem freeVars_resolveAll : (es : List TypeExpr) → {vars : List String} → {ts : List Ty} →
    TypeExpr.resolveAll sig vars es = .ok ts → ∀ v ∈ Ty.freeVarsAll ts, v ∈ vars
  | [], vars, ts, h => by
    rw [TypeExpr.resolveAll_nil] at h
    cases h
    exact nofun
  | e :: es, vars, ts, h => by
    rw [TypeExpr.resolveAll_cons] at h
    obtain ⟨t, ht, h⟩ := bind_eq_ok_iff.1 h
    obtain ⟨us, hus, h⟩ := bind_eq_ok_iff.1 h
    cases h
    intro v hv
    exact (List.mem_append.1 hv).elim (freeVars_resolve e ht v) (freeVars_resolveAll es hus v)

end

end

/-! ## Types that are written -/

/-- Whether a type is what some expression stands for where the type variables `vars` are bound. -/
def Signature.Resolves (sig : Signature) (vars : List String) (t : Ty) : Prop :=
  ∃ e : Surface.TypeExpr, e.resolve sig vars = .ok t

namespace Signature

variable {sig : Signature} {vars : List String} {t : Ty}

theorem Resolves.freeVars (h : sig.Resolves vars t) : ∀ v ∈ t.freeVars, v ∈ vars := by
  obtain ⟨e, he⟩ := h
  exact freeVars_resolve sig e he

theorem Resolves.closed (h : sig.Resolves [] t) : t.freeVars = [] :=
  List.eq_nil_iff_forall_not_mem.2 fun v hv => List.not_mem_nil (h.freeVars v hv)

theorem resolves_of_resolveAll {es : List Surface.TypeExpr} {ts : List Ty}
    (h : Surface.TypeExpr.resolveAll sig vars es = .ok ts) : ∀ t ∈ ts, sig.Resolves vars t := by
  induction es generalizing ts with
  | nil =>
    rw [Surface.TypeExpr.resolveAll_nil] at h
    cases h
    exact nofun
  | cons e es ih =>
    rw [Surface.TypeExpr.resolveAll_cons] at h
    obtain ⟨t, ht, h⟩ := bind_eq_ok_iff.1 h
    obtain ⟨ts, hts, h⟩ := bind_eq_ok_iff.1 h
    cases h
    exact List.forall_mem_cons.2 ⟨⟨e, ht⟩, ih hts⟩

end Signature

end PolyLambda
