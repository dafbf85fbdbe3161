import PolyLambda.Proofs.Typing.Declarative
import PolyLambda.Proofs.Typing.Names

/-!
# Instances of the types of constructors

To use a constructor the checker puts metas in the place of its parameters. Whatever the metas come
to stand for, that is an instance of the type of the constructor, and every instance is what becomes
of it for some values of the metas. A parameter may be called like a meta. Then it is renamed on the
way, which is why instances are compared by what they mean under a substitution.
-/

namespace PolyLambda

namespace Ty

/-- Whether a type has quantifiers only in front. -/
def Prenex (t : Ty) : Prop :=
  t.splitAlls.2.QuantifierFree

instance (t : Ty) : Decidable t.Prenex :=
  inferInstanceAs (Decidable t.splitAlls.2.QuantifierFree)

theorem quantifiers_eq_splitAlls (t : Ty) :
    t.quantifiers = t.splitAlls.1.length + t.splitAlls.2.quantifiers := by
  fun_induction splitAlls t with
  | case1 v b ih => rw [quantifiers, ih, List.length_cons, Nat.add_right_comm]
  | case2 t h => rw [List.length_nil, Nat.zero_add]

theorem Prenex.substitute_var {t : Ty} (h : t.Prenex) (x y : String) :
    (t.substitute x (.var y)).Prenex := by
  have hbefore := t.quantifiers_eq_splitAlls
  have hafter := (t.substitute x (.var y)).quantifiers_eq_splitAlls
  rw [quantifiers_substitute (quantifierFree_var y),
    Checker.length_splitAlls_substitute_var] at hafter
  rw [Prenex, QuantifierFree] at h ⊢
  omega

theorem splitAlls_of_length_eq_zero {t : Ty} (h : 0 = t.splitAlls.1.length) :
    t.splitAlls = ([], t) := by
  cases t with
  | all v b => cases h
  | _ => rfl

/-- The type under the outermost quantifiers of `t` with the types `args` for their variables and
what `θ` has for all others. -/
def instanceAt : Substitution → List Ty → Ty → Ty
  | θ, arg :: args, .all v b => instanceAt (θ.assign v arg) args b
  | θ, _, t => θ.apply t

theorem instanceAt_nil (θ : Substitution) (t : Ty) : instanceAt θ [] t = θ.apply t := by
  rw [instanceAt]
  exact nofun

section

variable {θ θ' σ : Substitution} {args : List Ty} {t b : Ty}

theorem instanceAt_congr (hn : args.length = t.splitAlls.1.length) (ht : t.Prenex)
    (h : ∀ v ∈ t.freeVars, θ.apply (.var v) = θ'.apply (.var v)) :
    instanceAt θ args t = instanceAt θ' args t := by
  induction args generalizing t θ θ' with
  | nil =>
    rw [Prenex, splitAlls_of_length_eq_zero hn] at ht
    rw [instanceAt_nil, instanceAt_nil]
    exact Substitution.apply_congr_freeVars ht h
  | cons arg args ih =>
    cases t with
    | all v b =>
      rw [instanceAt, instanceAt]
      refine ih (Nat.succ.inj hn) ht fun w hw => ?_
      rw [Substitution.apply_assign_var, Substitution.apply_assign_var]
      split
      next => rfl
      next hne => exact h w (List.mem_filter.2 ⟨hw, decide_eq_true hne⟩)
    | _ => cases hn

theorem apply_substitute_var (hb : b.QuantifierFree) (v x : String) :
    θ.apply (b.substitute v (.var x)) = (θ.assign v (θ.apply (.var x))).apply b := by
  refine hb.induct (motive := fun b =>
    θ.apply (b.substitute v (.var x)) = (θ.assign v (θ.apply (.var x))).apply b)
    (fun w => ?_) (fun p r ihp ihr => ?_) (fun name args ih => ?_) fun name => ?_
  · rw [substitute_var, Substitution.apply_assign_var]
    split <;> rfl
  · rw [substitute_arrow, Substitution.apply_arrow, Substitution.apply_arrow, ihp, ihr]
  · rw [substitute_data, Substitution.apply_data, Substitution.apply_data, List.map_map]
    exact congrArg _ (List.map_congr_left ih)
  · rw [substitute_prim, Substitution.apply_prim, Substitution.apply_prim]

/-- Renaming a variable before the parameters are replaced. -/
theorem instanceAt_substitute_var (hn : args.length = b.splitAlls.1.length) (hb : b.Prenex)
    (v x : String) :
    instanceAt θ args (b.substitute v (.var x)) =
      instanceAt (θ.assign v (θ.apply (.var x))) args b := by
  induction args generalizing b θ v x with
  | nil =>
    rw [Prenex, splitAlls_of_length_eq_zero hn] at hb
    rw [instanceAt_nil, instanceAt_nil]
    exact apply_substitute_var hb v x
  | cons arg args ih =>
    cases b with
    | all w b =>
      have hn : args.length = b.splitAlls.1.length := Nat.succ.inj hn
      have hb : b.Prenex := hb
      rw [substitute_all, instanceAt]
      split
      next heq =>
        subst heq
        rw [instanceAt]
        refine instanceAt_congr hn hb fun u _ => ?_
        simp only [Substitution.apply_assign_var]
        split <;> rfl
      next hne =>
        split
        next hcap =>
          -- The binder is called like the meta, and so it gets another name first.
          have hw : w = x := List.mem_singleton.1 hcap.1
          dsimp only
          generalize hfresh : freshName w _ = fresh
          have havoid : fresh ∉ x :: b.freeVars := by
            rw [← hfresh]
            exact freshName_not_mem _ _
          rw [List.mem_cons, not_or] at havoid
          have hfv : fresh ≠ v := fun heq => havoid.2 (heq ▸ hcap.2)
          rw [instanceAt, ih (by rw [Checker.length_splitAlls_substitute_var, hn])
            (hb.substitute_var w fresh), ih hn hb]
          refine instanceAt_congr hn hb fun u hu => ?_
          have hufresh : u ≠ fresh := fun heq => havoid.2 (heq ▸ hu)
          simp only [Substitution.apply_assign_var, if_neg (Ne.symm havoid.1), if_neg hfv, if_pos,
            if_neg hufresh]
        next hcap =>
          rw [instanceAt, ih hn hb]
          refine instanceAt_congr hn hb fun u hu => ?_
          simp only [Substitution.apply_assign_var]
          by_cases huv : u = v
          · subst huv
            have hxw : x ≠ w := fun heq => hcap ⟨List.mem_singleton.2 heq.symm, hu⟩
            rw [if_pos rfl, if_pos rfl, if_neg hxw, if_neg (Ne.symm hne)]
          · rw [if_neg huv, if_neg huv]
    | _ => cases hn

/-- An instance is what is under the quantifiers with types for all variables. -/
theorem exists_instanceAt_eq (θ : Substitution) (hn : args.length = t.splitAlls.1.length) :
    ∃ σ : Substitution, instanceAt θ args t = σ.apply t.splitAlls.2 ∧
      ∀ v, σ.apply (.var v) = θ.apply (.var v) ∨ σ.apply (.var v) ∈ args := by
  induction args generalizing t θ with
  | nil =>
    rw [splitAlls_of_length_eq_zero hn, instanceAt_nil]
    exact ⟨θ, rfl, fun v => .inl rfl⟩
  | cons arg args ih =>
    cases t with
    | all v b =>
      obtain ⟨σ, hσ, hvars⟩ := ih (θ.assign v arg) (t := b) (Nat.succ.inj hn)
      refine ⟨σ, by rw [instanceAt, hσ, splitAlls], fun w => ?_⟩
      rcases hvars w with hw | hw
      · rw [Substitution.apply_assign_var] at hw
        split at hw
        next => exact .inr (hw ▸ List.mem_cons_self)
        next => exact .inl hw
      · exact .inr (List.mem_cons_of_mem _ hw)
    | _ => cases hn

/-- The instance at the types that `σ` has for the parameters. -/
theorem instanceAt_map (ht : t.Prenex)
    (h : ∀ v ∈ t.freeVars, θ.apply (.var v) = σ.apply (.var v)) :
    instanceAt θ (t.splitAlls.1.map fun v => σ.apply (.var v)) t = σ.apply t.splitAlls.2 := by
  fun_induction splitAlls t generalizing θ with
  | case1 v b ih =>
    rw [List.map_cons, instanceAt]
    refine ih ht fun w hw => ?_
    rw [Substitution.apply_assign_var]
    split
    next heq => rw [heq]
    next hne => exact h w (List.mem_filter.2 ⟨hw, decide_eq_true hne⟩)
  | case2 t hall =>
    rw [List.map_nil, instanceAt_nil]
    refine Substitution.apply_congr_freeVars ?_ h
    rwa [Prenex, splitAlls.eq_2 t hall] at ht

theorem arrows_inj_of_length_eq {params params' : List Ty} {result result' : Ty}
    (hlength : params.length = params'.length) (h : arrows params result = arrows params' result') :
    params = params' ∧ result = result' := by
  induction params generalizing params' with
  | nil =>
    obtain rfl := List.length_eq_zero_iff.1 hlength.symm
    exact ⟨rfl, h⟩
  | cons p params ih =>
    cases params' with
    | nil => cases hlength
    | cons p' params' =>
      obtain ⟨rfl, hrest⟩ := Ty.arrow.inj h
      obtain ⟨rfl, rfl⟩ := ih (Nat.succ.inj hlength) hrest
      exact ⟨rfl, rfl⟩

theorem apply_arrows (θ : Substitution) (params : List Ty) (result : Ty) :
    θ.apply (arrows params result) = arrows (params.map θ.apply) (θ.apply result) := by
  induction params with
  | nil => rfl
  | cons p params ih =>
    show θ.apply (.arrow p (arrows params result)) = _
    rw [Substitution.apply_arrow, ih]
    rfl

/-- Renaming variables does not change how a type is split. -/
theorem splitArrows_apply (hσ : ∀ v, ∃ w, σ.apply (.var v) = .var w) (t : Ty)
    (ht : t.QuantifierFree) :
    (σ.apply t).splitArrows = (t.splitArrows.1.map σ.apply, σ.apply t.splitArrows.2) := by
  fun_induction splitArrows t with
  | case1 p r ih =>
    rw [Substitution.apply_arrow, splitArrows, ih (quantifierFree_arrow_iff.1 ht).2, List.map_cons]
  | case2 t harrow =>
    cases t with
    | var v =>
      obtain ⟨w, hw⟩ := hσ v
      rw [hw]
      rfl
    | arrow p r => exact absurd rfl (harrow p r)
    | all v b => exact absurd ht not_quantifierFree_all
    | data name args =>
      rw [Substitution.apply_data]
      rfl
    | prim name =>
      rw [Substitution.apply_prim]
      rfl

end

end Ty

namespace Checker

/-! ## Values for metas -/

/-- Whether two substitutions do the same to all variables but the metas from number `m` up to `n`,
which is not one of them. -/
def Agree (m n : Nat) (θ θ' : Substitution) : Prop :=
  ∀ v, (∀ i, m ≤ i → i < n → v ≠ metaName i) → θ'.apply (.var v) = θ.apply (.var v)

/-- The substitution `θ`, but with the types `args` for the metas from number `m` on. -/
def assignMetas (θ : Substitution) : Nat → List Ty → Substitution
  | _, [] => θ
  | m, arg :: args => (assignMetas θ (m + 1) args).assign (metaName m) arg

section

variable {θ θ' θ'' : Substitution} {m n k : Nat}

theorem agree_refl (m n : Nat) (θ : Substitution) : Agree m n θ θ :=
  fun _ _ => rfl

theorem Agree.trans (h : Agree m n θ θ') (h' : Agree n k θ' θ'') (hmn : m ≤ n) (hnk : n ≤ k) :
    Agree m k θ θ'' := by
  intro v hv
  rw [h' v fun i hi hik => hv i (by omega) hik, h v fun i hi hin => hv i hi (by omega)]

theorem agree_assign (m : Nat) (θ : Substitution) (t : Ty) :
    Agree m (m + 1) θ (θ.assign (metaName m) t) :=
  fun _ hv => Substitution.apply_assign_ne (hv m (Nat.le_refl m) (Nat.lt_succ_self m)) t

theorem agree_assignMetas (m : Nat) (θ : Substitution) (args : List Ty) :
    Agree m (m + args.length) θ (assignMetas θ m args) := by
  induction args generalizing m with
  | nil => exact agree_refl _ _ _
  | cons arg args ih =>
    intro v hv
    rw [List.length_cons] at hv
    rw [assignMetas, Substitution.apply_assign_ne (hv m (Nat.le_refl m) (by omega))]
    exact ih (m + 1) v fun i hi hlt => hv i (by omega) (by omega)

theorem map_assignMetas (m : Nat) (θ : Substitution) (args : List Ty) :
    ((List.range' m args.length).map fun i => (assignMetas θ m args).apply (.var (metaName i))) =
      args := by
  induction args generalizing m with
  | nil => rfl
  | cons arg args ih =>
    rw [List.length_cons, List.range'_succ, List.map_cons, assignMetas,
      Substitution.apply_assign_self]
    refine congrArg _ (Eq.trans (List.map_congr_left fun i hi => ?_) (ih (m + 1)))
    refine Substitution.apply_assign_ne (fun heq => ?_) arg
    have := List.mem_range'_1.1 hi
    have := metaName_injective heq
    omega

/-! ## Instances with metas -/

theorem apply_instanceFrom {t : Ty} (hn : n = t.splitAlls.1.length) (ht : t.Prenex) :
    θ.apply (instanceFrom m n t) =
      Ty.instanceAt θ ((List.range' m n).map fun i => θ.apply (.var (metaName i))) t := by
  induction n generalizing m t with
  | zero => rw [instanceFrom.eq_def, List.range'_zero, List.map_nil, Ty.instanceAt_nil]
  | succ n ih =>
    cases t with
    | all v b =>
      have hn : n = b.splitAlls.1.length := Nat.succ.inj hn
      have hb : b.Prenex := ht
      rw [instanceFrom, ih (by rw [length_splitAlls_substitute_var, hn]) (hb.substitute_var v _),
        List.range'_succ, List.map_cons, Ty.instanceAt]
      exact Ty.instanceAt_substitute_var (by rw [List.length_map, List.length_range', hn]) hb v _
    | _ => cases hn

/-- The fields and the result of a constructor that is used with metas are those of its type, with
the variables renamed. -/
theorem exists_splitArrows_instantiated (m : Nat) {t : Ty} (ht : t.Prenex) :
    ∃ σ : Substitution, (instantiated m t).splitArrows =
      (t.splitAlls.2.splitArrows.1.map σ.apply, σ.apply t.splitAlls.2.splitArrows.2) := by
  have hlength : ((List.range' m t.splitAlls.1.length).map fun i => Ty.var (metaName i)).length =
      t.splitAlls.1.length := by
    rw [List.length_map, List.length_range']
  obtain ⟨σ, hσ, hvars⟩ := Ty.exists_instanceAt_eq .empty hlength
  have hinstance : instantiated m t = σ.apply t.splitAlls.2 := by
    rw [← hσ]
    exact apply_instanceFrom (θ := .empty) rfl ht
  refine ⟨σ, ?_⟩
  rw [hinstance]
  refine Ty.splitArrows_apply (fun v => ?_) _ ht
  rcases hvars v with hv | hv
  · exact ⟨v, hv⟩
  · obtain ⟨i, -, hi⟩ := List.mem_map.1 hv
    exact ⟨metaName i, hi.symm⟩

/-- Whatever the metas stand for, a constructor that is used with them is used at some types. -/
theorem constructs_instantiated {sig : Signature} {name : String} {t : Ty}
    (hname : sig.constructorTypes.get? name = some t) (ht : t.Prenex) (m : Nat) (θ : Substitution) :
    sig.Constructs name ((instantiated m t).splitArrows.1.map θ.apply)
      (θ.apply (instantiated m t).splitArrows.2) := by
  obtain ⟨σ, hσ⟩ := exists_splitArrows_instantiated m ht
  refine ⟨t, θ.compose σ, hname, ?_, ?_⟩
  · rw [hσ, List.map_map]
    exact List.map_congr_left fun f _ => (Substitution.apply_compose θ σ f).symm
  · rw [hσ, Substitution.apply_compose]

/-- At whatever types a constructor is used, the metas may stand for them. -/
theorem exists_agree_of_constructs {sig : Signature} {name : String} {fields : List Ty}
    {result t : Ty}
    (h : sig.Constructs name fields result) (hname : sig.constructorTypes.get? name = some t)
    (ht : t.Prenex) (hclosed : t.freeVars = []) (m : Nat) (θ : Substitution) :
    ∃ θ', Agree m (m + t.splitAlls.1.length) θ θ' ∧
      (instantiated m t).splitArrows.1.map θ'.apply = fields ∧
      θ'.apply (instantiated m t).splitArrows.2 = result := by
  obtain ⟨t', σ, ht', rfl, rfl⟩ := h
  obtain rfl := Option.some.inj (hname.symm.trans ht')
  let args := t.splitAlls.1.map fun v => σ.apply (.var v)
  have hlength : args.length = t.splitAlls.1.length := List.length_map _
  refine ⟨assignMetas θ m args, hlength ▸ agree_assignMetas m θ args, ?_⟩
  have hinstance : (assignMetas θ m args).apply (instantiated m t) = σ.apply t.splitAlls.2 := by
    rw [instantiated, apply_instanceFrom rfl ht, ← hlength, map_assignMetas]
    exact Ty.instanceAt_map ht (by rw [hclosed]; exact List.forall_mem_nil _)
  obtain ⟨ρ, hρ⟩ := exists_splitArrows_instantiated m ht
  refine Ty.arrows_inj_of_length_eq ?_ ?_
  · rw [hρ, List.length_map, List.length_map, List.length_map]
  · rw [← Ty.apply_arrows, ← Ty.apply_arrows, Ty.arrows_splitArrows,
      Ty.arrows_splitArrows, hinstance]

end

end Checker

end PolyLambda
