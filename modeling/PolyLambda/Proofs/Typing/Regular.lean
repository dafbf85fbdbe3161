import PolyLambda.Proofs.Typing.Instance
import PolyLambda.Proofs.Unify.Finished
import PolyLambda.Proofs.Unify.FirstOrder

/-!
# States of a checker on simple types

As long as a checker is used on types without quantifiers, what it learns is filled in, is about no
metas that are still to come, and is exactly what the equations demand: the substitutions that know
all of it are those that knew what was known before and solve the equation (`admits_unify_iff`).
-/

namespace PolyLambda

/-- Whether the types in a signature are closed, and have quantifiers only in front of the types of
constructors. -/
structure Signature.Simple (sig : Signature) : Prop where
  closed : sig.Closed
  constructorTypes : sig.constructorTypes.All Ty.Prenex
  globalTypes : sig.globalTypes.All Ty.QuantifierFree
  primitiveTypes : sig.primitiveTypes.All Ty.QuantifierFree

namespace Checker

/-! ## Types -/

/-- Whether `v` is no meta that is still to come when `n` of them have been handed out. -/
def Present (n : Nat) (v : String) : Prop :=
  ∀ i, n ≤ i → v ≠ metaName i

/-- Whether a type has no quantifiers and mentions no metas that are still to come. -/
def Usable (n : Nat) (t : Ty) : Prop :=
  t.Over (Present n) fun _ => False

/-- Whether all that is known about a usable type is filled in. -/
def Filled (c : Checker) (t : Ty) : Prop :=
  t.Over (fun v => v ∉ c.subst.names ∧ Present c.nextMeta v) fun _ => False

section

variable {n m : Nat} {t : Ty} {v : String} {c : Checker} {θ θ' : Substitution}

theorem Present.mono (h : Present n v) (hnm : n ≤ m) : Present m v :=
  fun i hi => h i (Nat.le_trans hnm hi)

theorem present_metaName {i : Nat} (h : i < n) : Present n (metaName i) := by
  intro j hj heq
  have := metaName_injective heq
  omega

theorem Present.apply_eq (h : Present n v) (hagree : Agree n m θ θ') :
    θ'.apply (.var v) = θ.apply (.var v) :=
  hagree v fun i hi _ => h i hi

theorem Usable.mono (h : Usable n t) (hnm : n ≤ m) : Usable m t :=
  Ty.Over.mono h (fun _ hv => hv.mono hnm) fun _ => id

theorem Usable.quantifierFree (h : Usable n t) : t.QuantifierFree :=
  Ty.binders_eq_nil_iff.1 h.binders_eq_nil

theorem usable_of_quantifierFree (ht : t.QuantifierFree) (h : ∀ v ∈ t.freeVars, Present n v) :
    Usable n t :=
  Ty.over_of_binders_eq_nil (Ty.binders_eq_nil_iff.2 ht) h

theorem usable_of_closed (ht : t.QuantifierFree) (h : t.freeVars = []) : Usable n t :=
  usable_of_quantifierFree ht (by rw [h]; exact nofun)

/-- On usable types substitutions agree if they do but for metas to come. -/
theorem Usable.apply_eq (h : Usable n t) (hagree : Agree n m θ θ') : θ'.apply t = θ.apply t :=
  Substitution.apply_congr_freeVars h.quantifierFree fun v hv => (h.freeVars v hv).apply_eq hagree

theorem Usable.map_apply_eq {ts : List Ty} (h : ∀ t ∈ ts, Usable n t) (hagree : Agree n m θ θ') :
    ts.map θ'.apply = ts.map θ.apply :=
  List.map_congr_left fun t ht => (h t ht).apply_eq hagree

theorem Filled.usable (h : Filled c t) : Usable c.nextMeta t :=
  Ty.Over.mono h (fun _ hv => hv.2) fun _ => id

theorem Filled.resolved (h : Filled c t) : c.resolved t = t :=
  Substitution.apply_eq_self fun v hv => (h.freeVars v hv).1

theorem filled_of_closed (ht : t.QuantifierFree) (h : t.freeVars = []) : Filled c t :=
  Ty.over_of_binders_eq_nil (Ty.binders_eq_nil_iff.2 ht) (by rw [h]; exact List.forall_mem_nil _)

theorem usable_instantiated {t : Ty} (ht : t.Prenex) (hclosed : t.freeVars = []) (m : Nat) :
    Usable (m + t.splitAlls.1.length) (instantiated m t) := by
  refine over_instanceFrom primeClosed_empty (by rw [hclosed]; exact List.forall_mem_nil _)
    (fun i hi => present_metaName hi) ?_
  rw [Ty.dropAlls_length, Ty.binders_eq_nil_iff.2 ht]
  exact List.forall_mem_nil _

end

/-! ## States -/

/-- Whether what a checker knows is filled in and about usable types. -/
structure Regular (c : Checker) : Prop where
  finished : c.subst.Finished
  subst : c.subst.Over (Present c.nextMeta) fun _ => False
  globals : c.globals.All (Usable c.nextMeta)

/-- Whether a substitution knows what the checker knows, and leaves the variables `vars` alone. -/
structure Admits (vars : List String) (c : Checker) (θ : Substitution) : Prop where
  fixes : ∀ v ∈ vars, θ.apply (.var v) = .var v
  absorbs : θ.Absorbs c.subst

section

variable {vars : List String} {c : Checker} {ctx : Context} {left right t : Ty}
  {θ θ' s : Substitution} {n : Nat}

theorem Regular.filled (hc : c.Regular) (ht : Usable c.nextMeta t) : Filled c (c.resolved t) := by
  have hover := hc.subst.apply primeClosed_empty ht
  exact ⟨fun v hv => ⟨hc.finished.eliminates t v hv, hover.freeVars v hv⟩, hover.binders⟩

theorem Regular.addMetas (hc : c.Regular) (hn : c.nextMeta ≤ n) :
    Regular { c with nextMeta := n } where
  finished := hc.finished
  subst := hc.subst.mono (fun _ hv => hv.mono hn) fun _ => id
  globals name t ht := (hc.globals name t ht).mono hn

theorem Regular.setGlobal (hc : c.Regular) (name : String) (ht : Usable c.nextMeta t) :
    Regular { c with globals := c.globals.insert name t } where
  finished := hc.finished
  subst := hc.subst
  globals := hc.globals.insert name ht

theorem Regular.idempotent (hc : c.Regular) (t : Ty) : c.resolved (c.resolved t) = c.resolved t :=
  Substitution.apply_eq_self fun v hv => hc.finished.eliminates t v hv

theorem Regular.quantifierFree_resolved (hc : c.Regular) (ht : t.QuantifierFree) :
    (c.resolved t).QuantifierFree := by
  have hover : t.Over (fun _ => True) fun _ => False :=
    Ty.over_of_binders_eq_nil (Ty.binders_eq_nil_iff.2 ht) fun _ _ => trivial
  have hsubst : c.subst.Over (fun _ => True) fun _ => False :=
    hc.subst.mono (fun _ _ => trivial) fun _ => id
  exact Ty.binders_eq_nil_iff.1 (hsubst.apply primeClosed_empty hover).binders_eq_nil

theorem Admits.respects (h : Admits ctx.typeVars c θ) : θ.Respects ctx.hasTypeVar := by
  intro v hv
  exact h.fixes v (Context.hasTypeVar_iff.1 hv)

theorem Admits.apply_resolved (h : Admits vars c θ) (ht : t.QuantifierFree) :
    θ.apply (c.resolved t) = θ.apply t :=
  h.absorbs.apply ht

/-- What a checker knows does not depend on metas that are still to come. -/
theorem Admits.agree (h : Admits vars c θ) (hc : c.Regular)
    (hvars : ∀ v ∈ vars, Present c.nextMeta v) (hagree : Agree c.nextMeta n θ θ') :
    Admits vars c θ' where
  fixes v hv := by rw [(hvars v hv).apply_eq hagree, h.fixes v hv]
  absorbs v := by
    by_cases hv : v ∈ c.subst.names
    · have hfilled := hc.filled (Ty.over_var_iff.2 (hc.subst.names v hv))
      show θ'.apply (c.resolved (.var v)) = _
      rw [hfilled.usable.apply_eq hagree, (hc.subst.names v hv).apply_eq hagree]
      exact h.absorbs v
    · rw [Substitution.apply_var_eq_self hv]

/-! ## Equations -/

section

variable (hc : c.Regular) (hleft : Usable c.nextMeta left) (hright : Usable c.nextMeta right)

include hc hleft hright

theorem Regular.unify {rigid : String → Bool}
    (hs : Ty.Settles rigid (c.resolved left) (c.resolved right) (.ok s)) :
    Regular { c with subst := s.compose c.subst } := by
  have hl := hc.filled hleft
  have hr := hc.filled hright
  have hover := (hs.over primeClosed_empty (fun _ => False.elim) hl hr).1
  have hfinished := Ty.finished_of_settles hs hl.binders_eq_nil hr.binders_eq_nil
  constructor
  case finished => exact hc.finished.compose hfinished (hover.mono (fun _ hv => hv.1) fun _ => id)
  case subst => exact (hover.mono (fun _ hv => hv.2) fun _ => id).compose hc.subst
  case globals => exact hc.globals

/-- An equation that some substitution with the same knowledge solves is solved. -/
theorem Admits.exists_settles (h : Admits ctx.typeVars c θ) (heq : θ.apply left = θ.apply right) :
    ∃ s, Ty.Settles ctx.hasTypeVar (c.resolved left) (c.resolved right) (.ok s) := by
  have hl := (hc.filled hleft).usable.quantifierFree
  have hr := (hc.filled hright).usable.quantifierFree
  obtain ⟨r, hr'⟩ : ∃ r, Ty.Settles ctx.hasTypeVar (c.resolved left) (c.resolved right) r :=
    Ty.exists_settles_of_quantifierFree hl hr
  cases r with
  | ok s => exact ⟨s, hr'⟩
  | error e =>
    refine absurd ?_ (hr'.answers hl hr θ h.respects)
    rw [Ty.solves_singleton_iff, h.apply_resolved hleft.quantifierFree,
      h.apply_resolved hright.quantifierFree, heq]

/-- What is learned from an equation is the equation. -/
theorem admits_unify_iff
    (hs : Ty.Settles ctx.hasTypeVar (c.resolved left) (c.resolved right) (.ok s)) :
    Admits ctx.typeVars { c with subst := s.compose c.subst } θ ↔
      Admits ctx.typeVars c θ ∧ θ.apply left = θ.apply right := by
  have hl := (hc.filled hleft).usable.quantifierFree
  have hr := (hc.filled hright).usable.quantifierFree
  have hgeneral : Ty.MostGeneral ctx.hasTypeVar [(c.resolved left, c.resolved right)] s :=
    hs.answers hl hr
  have hsolves := Ty.solves_singleton_iff.1 hgeneral.solves
  constructor
  · rintro ⟨hfixes, habsorbs⟩
    have hwhole {u : Ty} (hu : u.QuantifierFree) :
        θ.apply (s.apply (c.resolved u)) = θ.apply u := by
      rw [← Substitution.Absorbs.apply habsorbs hu, Substitution.apply_compose]
      rfl
    refine ⟨⟨hfixes, fun v => ?_⟩, ?_⟩
    · have hv := hc.quantifierFree_resolved (Ty.quantifierFree_var v)
      calc θ.apply (c.resolved (.var v))
          = θ.apply (s.apply (c.resolved (c.resolved (.var v)))) := (hwhole hv).symm
        _ = θ.apply (s.apply (c.resolved (.var v))) := by rw [hc.idempotent]
        _ = θ.apply (.var v) := hwhole (Ty.quantifierFree_var v)
    · rw [← hwhole hleft.quantifierFree, hsolves, hwhole hright.quantifierFree]
  · rintro ⟨h, heq⟩
    refine ⟨h.fixes, fun v => ?_⟩
    rw [Substitution.apply_compose]
    have hθ : θ.Solves [(c.resolved left, c.resolved right)] := by
      rw [Ty.solves_singleton_iff, h.apply_resolved hleft.quantifierFree,
        h.apply_resolved hright.quantifierFree, heq]
    calc θ.apply (s.apply (c.resolved (.var v)))
        = θ.apply (c.resolved (.var v)) :=
          hgeneral.apply_eq h.respects hθ (hc.quantifierFree_resolved (Ty.quantifierFree_var v))
      _ = θ.apply (.var v) := h.absorbs v

end

end

end Checker

end PolyLambda
