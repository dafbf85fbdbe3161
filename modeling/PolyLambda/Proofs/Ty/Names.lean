import PolyLambda.Proofs.Ty.FreeVars

/-!
# The names in a type

A substitution brings no names into a type but those of what it puts in, and primed ones where it
has to rename a binder. So a set of names that contains all primed variants of its members is not
left by it. Free variables and binders are told apart, because a type may well be over some free
variables and bind none.
-/

namespace PolyLambda

/-- Whether a set of names contains every name that is made from one of its members by adding
primes. -/
def PrimeClosed (N : String → Prop) : Prop :=
  ∀ v, N v → ∀ avoid, N (freshName v avoid)

/-- The names in `N` with any number of primes. -/
def withPrimes (N : String → Prop) (name : String) : Prop :=
  ∃ v k, N v ∧ name = primed v k

theorem primed_primed (v : String) (k m : Nat) : primed (primed v k) m = primed v (k + m) := by
  induction m with
  | zero => rfl
  | succ m ih => rw [primed, ih, ← Nat.add_assoc, primed]

theorem primeClosed_withPrimes (N : String → Prop) : PrimeClosed (withPrimes N) := by
  rintro _ ⟨v, k, hv, rfl⟩ avoid
  obtain ⟨m, hm, -⟩ := exists_freshName_eq (primed v k) avoid
  exact ⟨v, k + m, hv, by rw [hm, primed_primed]⟩

theorem withPrimes_of_mem {N : String → Prop} {v : String} (h : N v) : withPrimes N v :=
  ⟨v, 0, h, rfl⟩

theorem primeClosed_empty : PrimeClosed fun _ => False :=
  fun _ h => h.elim

namespace Ty

mutual

/-- The names that quantifiers in a type bind. -/
def binders : Ty → List String
  | .var _ => []
  | .arrow p r => p.binders ++ r.binders
  | .all v b => v :: b.binders
  | .data _ args => bindersAll args
  | .prim _ => []

def bindersAll : List Ty → List String
  | [] => []
  | t :: ts => t.binders ++ bindersAll ts

end

theorem mem_bindersAll {v : String} {ts : List Ty} :
    v ∈ bindersAll ts ↔ ∃ t ∈ ts, v ∈ t.binders := by
  induction ts with
  | nil => simp [bindersAll]
  | cons t ts ih => simp [bindersAll, ih]

/-- Whether the free variables of a type are in `P`, and its binders in `N`. -/
structure Over (P N : String → Prop) (t : Ty) : Prop where
  freeVars : ∀ v ∈ t.freeVars, P v
  binders : ∀ v ∈ t.binders, N v

section

variable {P N : String → Prop}

theorem over_var_iff {v : String} : (var v).Over P N ↔ P v := by
  constructor
  · exact fun h => h.freeVars v List.mem_cons_self
  · refine fun h => ⟨fun w hw => ?_, List.forall_mem_nil _⟩
    rwa [List.mem_singleton.1 hw]

theorem over_arrow_iff {p r : Ty} : (arrow p r).Over P N ↔ p.Over P N ∧ r.Over P N := by
  constructor
  · rintro ⟨hf, hb⟩
    simp only [Ty.freeVars, Ty.binders, List.mem_append] at hf hb
    exact ⟨⟨fun v hv => hf v (.inl hv), fun v hv => hb v (.inl hv)⟩,
      ⟨fun v hv => hf v (.inr hv), fun v hv => hb v (.inr hv)⟩⟩
  · rintro ⟨hp, hr⟩
    refine ⟨fun v hv => ?_, fun v hv => ?_⟩
    · exact (List.mem_append.1 hv).elim (hp.freeVars v) (hr.freeVars v)
    · exact (List.mem_append.1 hv).elim (hp.binders v) (hr.binders v)

theorem over_all_iff {v : String} {b : Ty} :
    (all v b).Over P N ↔ N v ∧ b.Over (fun w => P w ∨ w = v) N := by
  constructor
  · rintro ⟨hf, hb⟩
    simp only [Ty.freeVars, Ty.binders, List.mem_filter, decide_eq_true_eq, List.mem_cons] at hf hb
    refine ⟨hb v (.inl rfl), fun w hw => ?_, fun w hw => hb w (.inr hw)⟩
    exact or_iff_not_imp_right.2 fun hne => hf w ⟨hw, hne⟩
  · rintro ⟨hv, hb⟩
    refine ⟨fun w hw => ?_, fun w hw => ?_⟩
    · obtain ⟨hw, hne⟩ := List.mem_filter.1 hw
      exact (hb.freeVars w hw).resolve_right (of_decide_eq_true hne)
    · rcases List.mem_cons.1 hw with rfl | hw
      · exact hv
      · exact hb.binders w hw

theorem over_data_iff {name : String} {args : List Ty} :
    (data name args).Over P N ↔ ∀ arg ∈ args, arg.Over P N := by
  constructor
  · rintro ⟨hf, hb⟩ arg harg
    exact ⟨fun v hv => hf v (mem_freeVarsAll.2 ⟨arg, harg, hv⟩),
      fun v hv => hb v (mem_bindersAll.2 ⟨arg, harg, hv⟩)⟩
  · refine fun h => ⟨fun v hv => ?_, fun v hv => ?_⟩
    · obtain ⟨arg, harg, hv⟩ := mem_freeVarsAll.1 hv
      exact (h arg harg).freeVars v hv
    · obtain ⟨arg, harg, hv⟩ := mem_bindersAll.1 hv
      exact (h arg harg).binders v hv

theorem over_prim (name : String) : (prim name).Over P N :=
  ⟨List.forall_mem_nil _, List.forall_mem_nil _⟩

theorem Over.mono {P' N' : String → Prop} {t : Ty} (h : t.Over P N) (hP : ∀ v, P v → P' v)
    (hN : ∀ v, N v → N' v) : t.Over P' N' :=
  ⟨fun v hv => hP v (h.freeVars v hv), fun v hv => hN v (h.binders v hv)⟩

/-- The binders of a type under the substitution for one variable. -/
theorem binders_substitute (hN : PrimeClosed N) {t s : Ty} (ht : ∀ v ∈ t.binders, N v)
    (hs : ∀ v ∈ s.binders, N v) (x : String) : ∀ v ∈ (t.substitute x s).binders, N v := by
  induction t using renameInduct generalizing s x with
  | var name =>
    rw [substitute_var]
    split
    next => exact hs
    next => exact ht
  | arrow p r ihp ihr =>
    rw [substitute_arrow]
    simp only [Ty.binders, List.mem_append] at ht ⊢
    rintro v (hv | hv)
    · exact ihp (fun v hv => ht v (.inl hv)) hs x v hv
    · exact ihr (fun v hv => ht v (.inr hv)) hs x v hv
  | all w b ih =>
    simp only [Ty.binders, List.mem_cons] at ht
    have hb {s : Ty} (hs : ∀ v ∈ s.binders, N v) (y : String) :=
      ih b rfl (fun v hv => ht v (.inr hv)) hs y
    rw [substitute_all]
    split
    next =>
      intro v hv
      exact ht v (List.mem_cons.1 hv)
    next =>
      split
      next =>
        intro v hv
        -- The new name is the old one with primes, and renaming puts only a variable into the body.
        rcases List.mem_cons.1 hv with rfl | hv
        · exact hN w (ht w (.inl rfl)) _
        · exact ih _ (size_substitute_var ..) (hb (s := .var _) (List.forall_mem_nil _) w) hs x v hv
      next =>
        intro v hv
        rcases List.mem_cons.1 hv with rfl | hv
        · exact ht v (.inl rfl)
        · exact hb hs x v hv
  | data name args ih =>
    rw [substitute_data]
    intro v hv
    simp only [Ty.binders, mem_bindersAll, List.mem_map, exists_exists_and_eq_and] at ht hv
    obtain ⟨arg, harg, hv⟩ := hv
    exact ih arg harg (fun v hv => ht v ⟨arg, harg, hv⟩) hs x v hv
  | prim name => exact ht

theorem Over.substitute (hN : PrimeClosed N) {t s : Ty} {x : String}
    (ht : t.Over (fun v => P v ∨ v = x) N) (hs : s.Over P N) : (t.substitute x s).Over P N := by
  refine ⟨fun v hv => ?_, binders_substitute hN ht.binders hs.binders x⟩
  rcases (mem_freeVars_substitute t x s v).1 hv with ⟨hv, hne⟩ | ⟨-, hv⟩
  · exact (ht.freeVars v hv).resolve_right hne
  · exact hs.freeVars v hv

end

end Ty

/-! ## Layers and substitutions -/

section

variable {P N : String → Prop}

/-- Whether all types of a layer are over `P` and `N`. -/
def Layer.Over (P N : String → Prop) (layer : Layer) : Prop :=
  ∀ x t, layer.get? x = some t → t.Over P N

theorem Layer.Over.erase {layer : Layer} (h : layer.Over P N) (v : String) :
    Layer.Over P N (Table.erase layer v) := by
  intro x t hx
  rw [Table.get?_erase] at hx
  split at hx
  next => cases hx
  next => exact h x t hx

theorem Layer.binders_apply (hN : PrimeClosed N) {layer : Layer} (h : layer.Over P N) {t : Ty}
    (ht : ∀ v ∈ t.binders, N v) : ∀ v ∈ (layer.apply t).binders, N v := by
  induction t using Ty.renameInduct generalizing layer with
  | var name =>
    rw [apply_var]
    cases hname : layer.get? name with
    | none => exact ht
    | some t => exact (h name t hname).binders
  | arrow p r ihp ihr =>
    rw [apply_arrow]
    simp only [Ty.binders, List.mem_append] at ht ⊢
    rintro v (hv | hv)
    · exact ihp h (fun v hv => ht v (.inl hv)) v hv
    · exact ihr h (fun v hv => ht v (.inr hv)) v hv
  | all w b ih =>
    simp only [Ty.binders, List.mem_cons] at ht
    rw [apply_all]
    dsimp only
    split
    next =>
      intro v hv
      rcases List.mem_cons.1 hv with rfl | hv
      · exact hN w (ht w (.inl rfl)) _
      · refine ih _ (Ty.size_substitute_var ..) (h.erase w) ?_ v hv
        exact Ty.binders_substitute hN (fun v hv => ht v (.inr hv)) (s := .var _)
          (List.forall_mem_nil _) w
    next =>
      intro v hv
      rcases List.mem_cons.1 hv with rfl | hv
      · exact ht v (.inl rfl)
      · exact ih b rfl (h.erase w) (fun v hv => ht v (.inr hv)) v hv
  | data name args ih =>
    rw [apply_data]
    intro v hv
    simp only [Ty.binders, Ty.mem_bindersAll, List.mem_map, exists_exists_and_eq_and] at ht hv
    obtain ⟨arg, harg, hv⟩ := hv
    exact ih arg harg h (fun v hv => ht v ⟨arg, harg, hv⟩) v hv
  | prim name => exact ht

theorem Layer.Over.apply (hN : PrimeClosed N) {layer : Layer} (h : layer.Over P N) {t : Ty}
    (ht : t.Over P N) : (layer.apply t).Over P N := by
  refine ⟨fun v hv => ?_, Layer.binders_apply hN h ht.binders⟩
  obtain ⟨w, hw, hv⟩ := (mem_freeVars_apply layer t v).1 hv
  obtain ⟨s, hs, hv⟩ | ⟨-, rfl⟩ := mem_freeVars_apply_var.1 hv
  · exact (h w s hs).freeVars v hv
  · exact ht.freeVars v hw

namespace Substitution

/-- Whether the variables that a substitution knows are in `P`, and its types over `P` and `N`. -/
structure Over (P N : String → Prop) (s : Substitution) : Prop where
  names : ∀ v ∈ s.names, P v
  types : ∀ layer ∈ s.layers, layer.Over P N

theorem over_empty : empty.Over P N where
  names _ h := absurd h List.not_mem_nil
  types _ h := absurd h List.not_mem_nil

theorem Over.compose {l r : Substitution} (hl : l.Over P N) (hr : r.Over P N) :
    (l.compose r).Over P N where
  names v hv := (mem_names_compose.1 hv).elim (hr.names v) (hl.names v)
  types layer h := (List.mem_append.1 h).elim (hr.types layer) (hl.types layer)

theorem over_singleton {x : String} {t : Ty} (hx : P x) (ht : t.Over P N) :
    (singleton x t).Over P N where
  names v hv := by rwa [mem_names_singleton.1 hv]
  types layer h y u hu := by
    rw [List.mem_singleton.1 h, Table.get?_insert, Table.get?_empty] at hu
    split at hu
    next =>
      obtain rfl := Option.some.inj hu
      exact ht
    next => cases hu

theorem Over.mono {P' N' : String → Prop} {s : Substitution} (h : s.Over P N)
    (hP : ∀ v, P v → P' v) (hN : ∀ v, N v → N' v) : s.Over P' N' where
  names v hv := hP v (h.names v hv)
  types layer hl x t hx := (h.types layer hl x t hx).mono hP hN

theorem Over.apply (hN : PrimeClosed N) {s : Substitution} (h : s.Over P N) {t : Ty}
    (ht : t.Over P N) : (s.apply t).Over P N := by
  have htypes := h.types
  clear h
  obtain ⟨layers⟩ := s
  induction layers generalizing t with
  | nil => exact ht
  | cons layer layers ih =>
    rw [apply_cons]
    exact ih ((htypes layer List.mem_cons_self).apply hN ht)
      fun l hl => htypes l (List.mem_cons_of_mem _ hl)

end Substitution

end

end PolyLambda
