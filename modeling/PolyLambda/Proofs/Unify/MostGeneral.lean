import PolyLambda.Proofs.Ty.Quantifiers
import PolyLambda.Proofs.Unify.Step

/-!
# Most general solutions

Without quantifiers types are first-order terms, and there unification does what it is expected to
do: its result solves the equation, touches neither rigid variables nor variables that do not occur
in it, and every other solution factors through it; and where it fails there is no solution.

The proofs are about lists of equations, since an equation between types with the same head is
worth the equations between their parts. Two facts carry them: solving one list of equations and
then another one under its solution solves both (`MostGeneral.append`), and a variable that occurs
inside a type is smaller than it under every substitution (`size_apply_var_lt`).
-/

namespace PolyLambda

namespace Substitution

/-- Whether rigid variables are left alone. -/
def Respects (s : Substitution) (rigid : String → Bool) : Prop :=
  ∀ v, rigid v = true → s.apply (.var v) = .var v

/-- Whether the two sides of every equation become equal. -/
def Solves (s : Substitution) (es : List (Ty × Ty)) : Prop :=
  ∀ e ∈ es, s.apply e.1 = s.apply e.2

/-- Equations with the substitution applied to both sides. -/
def applyEquations (s : Substitution) (es : List (Ty × Ty)) : List (Ty × Ty) :=
  es.map fun e => (s.apply e.1, s.apply e.2)

theorem applyEquations_empty (es : List (Ty × Ty)) : empty.applyEquations es = es :=
  List.map_id es

theorem applyEquations_append (s : Substitution) (es fs : List (Ty × Ty)) :
    s.applyEquations (es ++ fs) = s.applyEquations es ++ s.applyEquations fs :=
  List.map_append

theorem applyEquations_compose (l r : Substitution) (es : List (Ty × Ty)) :
    (l.compose r).applyEquations es = l.applyEquations (r.applyEquations es) := by
  simp only [applyEquations, List.map_map, apply_compose]
  rfl

end Substitution

namespace Ty

/-- The free variables of equations. -/
def equationVars (es : List (Ty × Ty)) : List String :=
  es.flatMap fun e => e.1.freeVars ++ e.2.freeVars

/-- A substitution that solves equations and commits itself to no more than they demand. -/
structure MostGeneral (rigid : String → Bool) (es : List (Ty × Ty)) (s : Substitution) :
    Prop where
  solves : s.Solves es
  names_flexible : ∀ v ∈ s.names, rigid v = false
  names_occur : ∀ v ∈ s.names, v ∈ equationVars es
  /-- No solved variable is left anywhere, and no new one comes in. -/
  eliminates : ∀ t, ∀ v ∈ (s.apply t).freeVars,
    v ∉ s.names ∧ (v ∈ t.freeVars ∨ v ∈ equationVars es)
  quantifierFree : s.QuantifierFree
  eq_empty : s.names = [] → s = .empty
  general : ∀ θ : Substitution, θ.Respects rigid → θ.Solves es →
    ∀ v, θ.apply (s.apply (.var v)) = θ.apply (.var v)

/-! ## Putting solutions together -/

section

variable {rigid : String → Bool} {es fs : List (Ty × Ty)} {s d θ : Substitution}

theorem mem_equationVars_append {v : String} :
    v ∈ equationVars (es ++ fs) ↔ v ∈ equationVars es ∨ v ∈ equationVars fs := by
  rw [equationVars, List.flatMap_append, List.mem_append]
  rfl

theorem MostGeneral.nil : MostGeneral rigid [] .empty where
  solves _ h := absurd h List.not_mem_nil
  names_flexible _ h := absurd h List.not_mem_nil
  names_occur _ h := absurd h List.not_mem_nil
  eliminates _ _ h := ⟨List.not_mem_nil, .inl h⟩
  quantifierFree := Substitution.quantifierFree_empty
  eq_empty _ := rfl
  general _ _ _ _ := rfl

/-- A solution of equations does not tell a type from what a most general one makes of it. -/
theorem MostGeneral.apply_eq (h : MostGeneral rigid es s) (hθ : θ.Respects rigid)
    (hes : θ.Solves es) {t : Ty} (ht : t.QuantifierFree) :
    θ.apply (s.apply t) = θ.apply t := by
  have hvar (v : String) :
      θ.apply (s.apply (.var v)) = θ.apply (Substitution.empty.apply (.var v)) :=
    h.general θ hθ hes v
  exact Substitution.apply_congr_of_quantifierFree hvar ht

/-- What occurs in equations under a solution occurred before, and is not solved. -/
theorem MostGeneral.mem_equationVars_applyEquations (h : MostGeneral rigid es s) {v : String}
    (hv : v ∈ equationVars (s.applyEquations fs)) : v ∉ s.names ∧ v ∈ equationVars (es ++ fs) := by
  simp only [equationVars, Substitution.applyEquations, List.mem_flatMap, List.mem_map,
    List.mem_append] at hv
  obtain ⟨_, ⟨e, he, rfl⟩, hv⟩ := hv
  rw [mem_equationVars_append]
  rcases hv with hv | hv
  · obtain ⟨hnot, hocc⟩ := h.eliminates _ v hv
    refine ⟨hnot, hocc.symm.imp_right fun hv => List.mem_flatMap.2 ⟨e, he, ?_⟩⟩
    exact List.mem_append_left _ hv
  · obtain ⟨hnot, hocc⟩ := h.eliminates _ v hv
    refine ⟨hnot, hocc.symm.imp_right fun hv => List.mem_flatMap.2 ⟨e, he, ?_⟩⟩
    exact List.mem_append_right _ hv

/-- What solves all equations solves those that are left under a solution of the first ones. -/
theorem MostGeneral.solves_applyEquations (h : MostGeneral rigid es s) (hθ : θ.Respects rigid)
    (hes : θ.Solves es) (hfs : ∀ e ∈ fs, e.1.QuantifierFree ∧ e.2.QuantifierFree)
    (hsolves : θ.Solves fs) : θ.Solves (s.applyEquations fs) := by
  intro _ hmem
  obtain ⟨e, he, rfl⟩ := List.mem_map.1 hmem
  rw [h.apply_eq hθ hes (hfs e he).1, h.apply_eq hθ hes (hfs e he).2]
  exact hsolves e he

/-- The other equations are solved under the solution of the first ones. -/
theorem MostGeneral.append (h : MostGeneral rigid es s)
    (hd : MostGeneral rigid (s.applyEquations fs) d)
    (hfs : ∀ e ∈ fs, e.1.QuantifierFree ∧ e.2.QuantifierFree) :
    MostGeneral rigid (es ++ fs) (d.compose s) := by
  constructor
  case solves =>
    intro e he
    rw [Substitution.apply_compose, Substitution.apply_compose]
    rcases List.mem_append.1 he with he | he
    · rw [h.solves e he]
    · exact hd.solves _ (List.mem_map_of_mem he)
  case names_flexible =>
    intro v hv
    rcases Substitution.mem_names_compose.1 hv with hv | hv
    · exact h.names_flexible v hv
    · exact hd.names_flexible v hv
  case names_occur =>
    intro v hv
    rcases Substitution.mem_names_compose.1 hv with hv | hv
    · exact mem_equationVars_append.2 (.inl (h.names_occur v hv))
    · exact (h.mem_equationVars_applyEquations (hd.names_occur v hv)).2
  case eliminates =>
    intro t v hv
    rw [Substitution.apply_compose] at hv
    obtain ⟨hnotd, hocc⟩ := hd.eliminates _ v hv
    -- What the second solution leaves came through the first one, which eliminates what it solves.
    have hs : v ∉ s.names ∧ (v ∈ t.freeVars ∨ v ∈ equationVars (es ++ fs)) := by
      rcases hocc with hocc | hocc
      · obtain ⟨hnot, hocc⟩ := h.eliminates t v hocc
        exact ⟨hnot, hocc.imp_right fun hv => mem_equationVars_append.2 (.inl hv)⟩
      · exact (h.mem_equationVars_applyEquations hocc).imp_right .inr
    refine ⟨fun hmem => ?_, hs.2⟩
    exact (Substitution.mem_names_compose.1 hmem).elim hs.1 hnotd
  case quantifierFree => exact hd.quantifierFree.compose h.quantifierFree
  case eq_empty =>
    intro hnames
    have hnone (v : String) : v ∉ (d.compose s).names := by simp [hnames]
    have hd' : d = .empty := hd.eq_empty <| List.eq_nil_iff_forall_not_mem.2 fun v hv =>
      hnone v (Substitution.mem_names_compose.2 (.inr hv))
    have hs' : s = .empty := h.eq_empty <| List.eq_nil_iff_forall_not_mem.2 fun v hv =>
      hnone v (Substitution.mem_names_compose.2 (.inl hv))
    rw [hd', hs', Substitution.compose_empty]
  case general =>
    intro θ hθ hes v
    have hes₁ : θ.Solves es := fun e he => hes e (List.mem_append_left _ he)
    have hfs₁ : θ.Solves (s.applyEquations fs) :=
      h.solves_applyEquations hθ hes₁ hfs fun e he => hes e (List.mem_append_right _ he)
    have hv : (s.apply (.var v)).QuantifierFree :=
      Substitution.quantifierFree_apply h.quantifierFree (quantifierFree_var v)
    rw [Substitution.apply_compose, hd.apply_eq hθ hfs₁ hv, h.general θ hθ hes₁]

/-- Equations with the same solutions, and with at least the same variables, have the same most
general solutions. -/
theorem MostGeneral.congr (h : MostGeneral rigid es s)
    (hsolves : ∀ θ : Substitution, θ.Solves es ↔ θ.Solves fs)
    (hvars : equationVars es ⊆ equationVars fs) : MostGeneral rigid fs s where
  solves := (hsolves s).1 h.solves
  names_flexible := h.names_flexible
  names_occur v hv := hvars (h.names_occur v hv)
  eliminates t v hv := (h.eliminates t v hv).imp_right (Or.imp_right (hvars ·))
  quantifierFree := h.quantifierFree
  eq_empty := h.eq_empty
  general θ hθ hfs := h.general θ hθ ((hsolves θ).2 hfs)

end

/-! ## One variable -/

section

variable {rigid : String → Bool} {v : String} {t : Ty}

theorem solves_singleton_iff {θ : Substitution} {t t' : Ty} :
    θ.Solves [(t, t')] ↔ θ.apply t = θ.apply t' := by
  simp [Substitution.Solves]

theorem mem_equationVars_singleton {t t' : Ty} {w : String} :
    w ∈ equationVars [(t, t')] ↔ w ∈ t.freeVars ∨ w ∈ t'.freeVars := by
  simp [equationVars]

theorem apply_singleton_var (v w : String) (t : Ty) :
    (Substitution.singleton v t).apply (.var w) = if w = v then t else .var w := by
  show Layer.apply _ _ = _
  rw [Layer.apply_var, Table.get?_insert, Table.get?_empty]
  split <;> rfl

/-- The solution of a variable that does not occur in the other side. -/
theorem mostGeneral_singleton (hv : rigid v = false) (hocc : v ∉ t.freeVars)
    (ht : t.QuantifierFree) : MostGeneral rigid [(.var v, t)] (.singleton v t) where
  solves := by
    rw [solves_singleton_iff, apply_singleton_var, if_pos rfl, Substitution.apply_eq_self]
    intro w hw hname
    rw [Substitution.mem_names_singleton.1 hname] at hw
    exact hocc hw
  names_flexible w hw := by rwa [Substitution.mem_names_singleton.1 hw]
  names_occur w hw := by
    rw [mem_equationVars_singleton, Substitution.mem_names_singleton.1 hw]
    exact .inl List.mem_cons_self
  eliminates u w hw := by
    rw [Substitution.mem_freeVars_apply] at hw
    obtain ⟨x, hx, hw⟩ := hw
    rw [apply_singleton_var] at hw
    rw [Substitution.mem_names_singleton, mem_equationVars_singleton]
    split at hw
    next => exact ⟨fun h => hocc (h ▸ hw), .inr (.inr hw)⟩
    next hne =>
      rw [freeVars, List.mem_singleton] at hw
      subst hw
      exact ⟨hne, .inl hx⟩
  quantifierFree := Substitution.quantifierFree_singleton ht
  eq_empty h := absurd (Substitution.mem_names_singleton.2 rfl) (h ▸ List.not_mem_nil)
  general θ _ hsolves w := by
    rw [solves_singleton_iff] at hsolves
    rw [apply_singleton_var]
    split
    next h => rw [h, hsolves]
    next => rfl

/-- A variable is at most as large as a type that it occurs in, whatever is put in its place. -/
theorem size_apply_var_le (θ : Substitution) (ht : t.QuantifierFree) :
    v ∈ t.freeVars → (θ.apply (.var v)).size ≤ (θ.apply t).size := by
  refine ht.induct (motive := fun t => v ∈ t.freeVars → (θ.apply (.var v)).size ≤ (θ.apply t).size)
    (fun w hw => ?_) (fun p r ihp ihr hv => ?_) (fun name args ih hv => ?_) fun name hv => ?_
  · obtain rfl := List.mem_singleton.1 hw
    exact Nat.le_refl _
  · rw [Substitution.apply_arrow, size]
    rcases List.mem_append.1 hv with hv | hv
    · have := ihp hv
      omega
    · have := ihr hv
      omega
  · obtain ⟨arg, harg, hv⟩ := mem_freeVarsAll.1 hv
    have hle := ih arg harg hv
    have hmem := size_le_sizes (List.mem_map_of_mem (f := θ.apply) harg)
    rw [Substitution.apply_data, size]
    omega
  · cases hv

/-- So the equation between a variable and a larger type in which it occurs has no solution. -/
theorem size_apply_var_lt (θ : Substitution) (ht : t.QuantifierFree) (hv : v ∈ t.freeVars)
    (hne : t ≠ .var v) : (θ.apply (.var v)).size < (θ.apply t).size := by
  cases t with
  | var w => exact absurd (by rw [List.mem_singleton.1 hv]) hne
  | arrow p r =>
    rw [quantifierFree_arrow_iff] at ht
    rw [Substitution.apply_arrow, size]
    rcases List.mem_append.1 hv with hv | hv
    · have := size_apply_var_le θ ht.1 hv
      omega
    · have := size_apply_var_le θ ht.2 hv
      omega
  | all w b => exact absurd ht not_quantifierFree_all
  | data name args =>
    obtain ⟨arg, harg, hv⟩ := mem_freeVarsAll.1 hv
    have hle := size_apply_var_le θ (quantifierFree_data_iff.1 ht arg harg) hv
    have hmem := size_le_sizes (List.mem_map_of_mem (f := θ.apply) harg)
    rw [Substitution.apply_data, size]
    omega
  | prim name => cases hv

end

/-! ## Heads -/

section

variable {rigid : String → Bool} {t t' : Ty}

/-- Lists of types are equal under a substitution if they are so pair by pair. -/
theorem map_apply_eq_iff (θ : Substitution) {ts ts' : List Ty} (h : ts.length = ts'.length) :
    ts.map θ.apply = ts'.map θ.apply ↔ θ.Solves (ts.zip ts') := by
  induction ts generalizing ts' with
  | nil =>
    cases ts' with
    | nil => simp [Substitution.Solves]
    | cons t' ts' => cases h
  | cons t ts ih =>
    cases ts' with
    | nil => cases h
    | cons t' ts' =>
      rw [List.map_cons, List.map_cons, List.cons.injEq, ih (Nat.succ.inj h), List.zip_cons_cons,
        Substitution.Solves, Substitution.Solves, List.forall_mem_cons]

/-- The equation between types with the same head is worth those between their parts. -/
theorem solves_parts_iff (hhead : sameHead t t' = true) (ht : t.QuantifierFree)
    (θ : Substitution) : θ.Solves (t.parts.zip t'.parts) ↔ θ.Solves [(t, t')] := by
  rw [solves_singleton_iff, ← map_apply_eq_iff θ (length_parts_eq hhead)]
  cases t <;> cases t' <;> simp only [sameHead, Bool.false_eq_true] at hhead
  case arrow.arrow p r p' r' => simp [parts, Substitution.apply_arrow]
  case all.all v b v' b' => exact absurd ht not_quantifierFree_all
  case data.data n args n' args' =>
    obtain ⟨rfl, -⟩ := by simpa using hhead
    simp [parts, Substitution.apply_data]
  case prim.prim n n' =>
    obtain rfl : n = n' := by simpa using hhead
    simp [parts]

theorem mem_equationVars_zip {ts ts' : List Ty} (h : ts.length = ts'.length) {v : String} :
    v ∈ equationVars (ts.zip ts') ↔ v ∈ freeVarsAll ts ∨ v ∈ freeVarsAll ts' := by
  induction ts generalizing ts' with
  | nil =>
    cases ts' with
    | nil => simp [equationVars, freeVarsAll]
    | cons t' ts' => cases h
  | cons t ts ih =>
    cases ts' with
    | nil => cases h
    | cons t' ts' =>
      rw [List.zip_cons_cons, ← List.singleton_append, mem_equationVars_append,
        ih (Nat.succ.inj h), mem_equationVars_singleton, freeVarsAll, freeVarsAll]
      simp only [List.mem_append]
      grind

theorem mem_freeVars_iff_parts (hall : ∀ v b, t ≠ .all v b) (hvar : ∀ v, t ≠ .var v)
    {v : String} : v ∈ t.freeVars ↔ v ∈ freeVarsAll t.parts := by
  cases t with
  | var w => exact absurd rfl (hvar w)
  | arrow p r => simp [freeVars, parts, freeVarsAll]
  | all w b => exact absurd rfl (hall w b)
  | data name args => rfl
  | prim name => rfl

theorem ne_var_of_sameHead (hhead : sameHead t t' = true) (v : String) :
    t ≠ .var v ∧ t' ≠ .var v := by
  cases t <;> cases t' <;> simp [sameHead] at hhead ⊢

theorem mostGeneral_of_parts (hhead : sameHead t t' = true) (ht : t.QuantifierFree)
    (ht' : t'.QuantifierFree) {s : Substitution}
    (h : MostGeneral rigid (t.parts.zip t'.parts) s) : MostGeneral rigid [(t, t')] s := by
  refine h.congr (solves_parts_iff hhead ht) fun v hv => ?_
  rwa [mem_equationVars_zip (length_parts_eq hhead),
    ← mem_freeVars_iff_parts ht.ne_all fun w => (ne_var_of_sameHead hhead w).1,
    ← mem_freeVars_iff_parts ht'.ne_all fun w => (ne_var_of_sameHead hhead w).2,
    ← mem_equationVars_singleton] at hv

theorem sameHead_apply (θ : Substitution) (hvar : ∀ v, t ≠ .var v) (ht : t.QuantifierFree) :
    sameHead t (θ.apply t) = true := by
  cases t with
  | var v => exact absurd rfl (hvar v)
  | arrow p r => rw [Substitution.apply_arrow, sameHead]
  | all v b => exact absurd ht not_quantifierFree_all
  | data n args => simp [Substitution.apply_data, sameHead]
  | prim n => simp [Substitution.apply_prim, sameHead]

theorem sameHead_of_sameHead {u : Ty} (h : sameHead t u = true) (h' : sameHead t' u = true) :
    sameHead t t' = true := by
  cases u <;> cases t <;> cases t' <;> simp_all [sameHead]

/-- No substitution makes types with different heads equal, if neither is a variable that it may
solve. -/
theorem apply_ne_of_mismatch {θ : Substitution} (hθ : θ.Respects rigid)
    (ht : flexible? rigid t = none) (ht' : flexible? rigid t' = none)
    (hvar : ∀ v, t = .var v → t' ≠ .var v) (hhead : sameHead t t' = false)
    (hq : t.QuantifierFree) (hq' : t'.QuantifierFree) : θ.apply t ≠ θ.apply t' := by
  intro heq
  have hrigid {v : String} (hv : flexible? rigid (.var v) = none) : θ.apply (.var v) = .var v := by
    refine hθ v ?_
    cases hr : rigid v with
    | true => rfl
    | false => rw [flexible?_eq_some_iff.2 ⟨rfl, hr⟩] at hv; cases hv
  -- A rigid variable stays one, and every other type keeps its head.
  by_cases hv : ∃ v, t = .var v <;> by_cases hw : ∃ w, t' = .var w
  · obtain ⟨v, rfl⟩ := hv
    obtain ⟨w, rfl⟩ := hw
    rw [hrigid ht, hrigid ht'] at heq
    exact hvar v rfl heq.symm
  · obtain ⟨v, rfl⟩ := hv
    have hkeeps := sameHead_apply θ (not_exists.1 hw) hq'
    rw [← heq, hrigid ht] at hkeeps
    exact (ne_var_of_sameHead hkeeps v).2 rfl
  · obtain ⟨w, rfl⟩ := hw
    have hkeeps := sameHead_apply θ (not_exists.1 hv) hq
    rw [heq, hrigid ht'] at hkeeps
    exact (ne_var_of_sameHead hkeeps w).2 rfl
  · have hkeeps := sameHead_apply θ (not_exists.1 hv) hq
    rw [heq] at hkeeps
    rw [sameHead_of_sameHead hkeeps (sameHead_apply θ (not_exists.1 hw) hq')] at hhead
    cases hhead

end

/-! ## The result of a comparison -/

section

variable {rigid : String → Bool} {t t' : Ty} {r : Except UnifyError Substitution}

/-- What a result says about equations: a substitution is their most general solution, an error that
they have none. -/
def Answers (rigid : String → Bool) (es : List (Ty × Ty)) :
    Except UnifyError Substitution → Prop
  | .ok s => MostGeneral rigid es s
  | .error _ => ∀ θ : Substitution, θ.Respects rigid → ¬ θ.Solves es

theorem answers_solve {v : String} (hv : rigid v = false) (hne : t ≠ .var v)
    (ht : t.QuantifierFree) : Answers rigid [(.var v, t)] (solve v t) := by
  rw [solve]
  split
  next hocc =>
    intro θ _ hsolves
    have hlt := size_apply_var_lt θ ht (of_decide_eq_true hocc) hne
    rw [solves_singleton_iff.1 hsolves] at hlt
    exact Nat.lt_irrefl _ hlt
  next hocc => exact mostGeneral_singleton hv (fun h => hocc (decide_eq_true h)) ht

theorem Answers.symm (h : Answers rigid [(t, t')] r) : Answers rigid [(t', t)] r := by
  have hsolves (θ : Substitution) : θ.Solves [(t, t')] ↔ θ.Solves [(t', t)] := by
    rw [solves_singleton_iff, solves_singleton_iff, eq_comm]
  cases r with
  | error e => exact fun θ hθ hs => h θ hθ ((hsolves θ).2 hs)
  | ok s =>
    refine MostGeneral.congr h hsolves fun v hv => ?_
    rw [mem_equationVars_singleton] at hv ⊢
    exact hv.symm

theorem quantifierFree_applyEquations_zip {s : Substitution} (hs : s.QuantifierFree)
    {ts ts' : List Ty} (hts : ∀ t ∈ ts, t.QuantifierFree) (hts' : ∀ t ∈ ts', t.QuantifierFree) :
    ∀ e ∈ s.applyEquations (ts.zip ts'), e.1.QuantifierFree ∧ e.2.QuantifierFree := by
  intro _ hmem
  obtain ⟨e, he, rfl⟩ := List.mem_map.1 hmem
  obtain ⟨h, h'⟩ := List.of_mem_zip he
  exact ⟨Substitution.quantifierFree_apply hs (hts _ h),
    Substitution.quantifierFree_apply hs (hts' _ h')⟩

theorem quantifierFree_parts (ht : t.QuantifierFree) : ∀ u ∈ t.parts, u.QuantifierFree := by
  cases t with
  | var v => exact fun _ h => absurd h List.not_mem_nil
  | arrow p r =>
    rw [quantifierFree_arrow_iff] at ht
    simpa [parts] using ht
  | all v b => exact absurd ht not_quantifierFree_all
  | data name args => exact quantifierFree_data_iff.1 ht
  | prim name => exact fun _ h => absurd h List.not_mem_nil

theorem answers_of_parts (hhead : sameHead t t' = true) (ht : t.QuantifierFree)
    (ht' : t'.QuantifierFree) (h : Answers rigid (t.parts.zip t'.parts) r) :
    Answers rigid [(t, t')] r := by
  cases r with
  | ok s => exact mostGeneral_of_parts hhead ht ht' h
  | error e => exact fun θ hθ hs => h θ hθ ((solves_parts_iff hhead ht θ).2 hs)

/-- The answer to the later equations, under the solution of the first one, is one to all. -/
theorem Answers.cons {e : Ty × Ty} {es : List (Ty × Ty)} {s : Substitution}
    (he : MostGeneral rigid [e] s)
    (hes : ∀ e ∈ es, e.1.QuantifierFree ∧ e.2.QuantifierFree)
    (h : Answers rigid (s.applyEquations es) r) :
    Answers rigid (e :: es) (r.map (·.compose s)) := by
  cases r with
  | ok d => exact he.append h hes
  | error _ =>
    intro θ hθ hsolves
    have hhead : θ.Solves [e] := fun e' he' => hsolves e' (by grind)
    refine h θ hθ fun _ hmem => ?_
    obtain ⟨e', he', rfl⟩ := List.mem_map.1 hmem
    rw [he.apply_eq hθ hhead (hes e' he').1, he.apply_eq hθ hhead (hes e' he').2]
    exact hsolves e' (List.mem_cons_of_mem _ he')

/-- Comparing types without quantifiers answers the equation between them. For lists the solution of
the earlier equations is part of the result, and what is added to it answers the later ones. -/
theorem Settles.answers (h : Settles rigid t t' r) :
    t.QuantifierFree → t'.QuantifierFree → Answers rigid [(t, t')] r := by
  -- Behind solved parts, the result is composed with what solves them, and answers what is left.
  refine Settles.induct
    (fun t t' r => t.QuantifierFree → t'.QuantifierFree → Answers rigid [(t, t')] r)
    (fun s ts ts' r => s.QuantifierFree → (∀ t ∈ ts, t.QuantifierFree) →
      (∀ t ∈ ts', t.QuantifierFree) →
      ∃ d, r = d.map (·.compose s) ∧ Answers rigid (s.applyEquations (ts.zip ts')) d)
    ?same ?left ?right ?parts ?mismatch ?nil ?failed ?cons h
  case same =>
    intro v _ _
    exact MostGeneral.nil.congr (fun θ => by simp [Substitution.Solves])
      fun w hw => absurd hw List.not_mem_nil
  case left => exact fun v t hv hne _ ht => answers_solve hv hne ht
  case right =>
    intro v t hv hflex ht _
    refine (answers_solve hv ?_ ht).symm
    rintro rfl
    rw [flexible?_eq_some_iff.2 ⟨rfl, hv⟩] at hflex
    cases hflex
  case parts =>
    intro t t' r hhead _ ih ht ht'
    obtain ⟨d, rfl, hd⟩ := ih Substitution.quantifierFree_empty (quantifierFree_parts ht)
      (quantifierFree_parts ht')
    rw [Substitution.applyEquations_empty] at hd
    have hmap : d.map (·.compose .empty) = d := by cases d <;> rfl
    rw [hmap]
    exact answers_of_parts hhead ht ht' hd
  case mismatch =>
    intro t t' ht ht' hvar hhead hq hq' θ hθ hsolves
    exact apply_ne_of_mismatch hθ ht ht' hvar hhead hq hq' (solves_singleton_iff.1 hsolves)
  case nil =>
    intro s ts ts' hnil _ _ _
    refine ⟨.ok .empty, congrArg Except.ok (Substitution.empty_compose s).symm, ?_⟩
    have hzip : s.applyEquations (ts.zip ts') = [] := by
      rcases hnil with rfl | rfl
      · rfl
      · rw [List.zip_nil_right]; rfl
    rw [hzip]
    exact MostGeneral.nil
  case failed =>
    intro s t t' ts ts' e ih hs hts hts'
    refine ⟨.error e, rfl, fun θ hθ hsolves => ?_⟩
    refine ih (Substitution.quantifierFree_apply hs (hts t List.mem_cons_self))
      (Substitution.quantifierFree_apply hs (hts' t' List.mem_cons_self)) θ hθ ?_
    exact solves_singleton_iff.2 (hsolves _ List.mem_cons_self)
  case cons =>
    intro s t t' ts ts' step r _ ihHead ihTail hs hts hts'
    rw [List.forall_mem_cons] at hts hts'
    have hstep := ihHead (Substitution.quantifierFree_apply hs hts.1)
      (Substitution.quantifierFree_apply hs hts'.1)
    obtain ⟨d, rfl, hd⟩ := ihTail (hstep.quantifierFree.compose hs) hts.2 hts'.2
    refine ⟨d.map (·.compose step), ?_, ?_⟩
    · cases d with
      | ok d => exact congrArg Except.ok (Substitution.compose_assoc d step s).symm
      | error e => rfl
    · rw [Substitution.applyEquations_compose] at hd
      exact Answers.cons hstep (quantifierFree_applyEquations_zip hs hts.2 hts'.2) hd

end

end Ty

end PolyLambda
