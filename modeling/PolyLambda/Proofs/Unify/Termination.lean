import Mathlib.Algebra.GroupWithZero.Nat
import Mathlib.Data.Finset.Card
import Mathlib.Data.Prod.Lex
import PolyLambda.Proofs.Unify.MostGeneral

/-!
# When unification ends

The usual argument that unification ends counts the variables that are not solved yet. With
quantifiers it fails: the comparison of two quantified types opens their binders, a bound name that
was out of sight becomes a variable like all others, and a solution that contains quantifiers brings
new binders into what is still to be compared.

This file finds out what is left of the argument. The recursion of `unify` is unrolled into a list
of equations that is worked off from the front (`Leads`), and counted along the way is how many
quantifiers the solutions contain. If that number is bounded, unification ends: what remains falls
in the order of the quantifiers still allowed, those in the equations, the variables and the size
(`settlesAll_of_bounded`). If unification ends, the number is bounded, since it works off the same
list. Types without quantifiers have solutions without them, and so for them it always ends.
-/

namespace PolyLambda.Ty

/-! ## Comparing pair after pair -/

/-- Solving equations one after the other comes to the result `r`. -/
def SettlesAll (rigid : String → Bool) (es : List (Ty × Ty))
    (r : Except UnifyError Substitution) : Prop :=
  SettlesArgs rigid .empty (es.map Prod.fst) (es.map Prod.snd) r

section

variable {rigid : String → Bool} {s : Substitution} {t t' : Ty} {es fs : List (Ty × Ty)}
  {r : Except UnifyError Substitution}

/-- Solutions that are put in later may as well be put in beforehand. -/
theorem settlesArgs_compose_iff (q : Substitution) :
    SettlesArgs rigid (q.compose s) (es.map Prod.fst) (es.map Prod.snd) r ↔
      ∃ d, SettlesArgs rigid q ((s.applyEquations es).map Prod.fst)
        ((s.applyEquations es).map Prod.snd) d ∧ r = d.map (·.compose s) := by
  induction es generalizing q with
  | nil =>
    simp only [Substitution.applyEquations, List.map_nil, settlesArgs_nil_iff (Or.inl rfl),
      exists_eq_left]
    rfl
  | cons e es ih =>
    simp only [Substitution.applyEquations, List.map_cons, settlesArgs_cons_iff,
      Substitution.apply_compose, ← Substitution.compose_assoc, ih]
    constructor
    · rintro (⟨e, he, rfl⟩ | ⟨step, hstep, d, hd, rfl⟩)
      · exact ⟨.error e, .inl ⟨e, he, rfl⟩, rfl⟩
      · exact ⟨d, .inr ⟨step, hstep, hd⟩, rfl⟩
    · rintro ⟨d, ⟨e, he, rfl⟩ | ⟨step, hstep, hd⟩, rfl⟩
      · exact .inl ⟨e, he, rfl⟩
      · exact .inr ⟨step, hstep, d, hd, rfl⟩

/-- The first equation is solved, and the others under its solution. -/
theorem settlesAll_cons_iff :
    SettlesAll rigid ((t, t') :: es) r ↔
      (∃ e, Settles rigid t t' (.error e) ∧ r = .error e) ∨
      ∃ s, Settles rigid t t' (.ok s) ∧
        ∃ d, SettlesAll rigid (s.applyEquations es) d ∧ r = d.map (·.compose s) := by
  have htail (s : Substitution) : SettlesArgs rigid s (es.map Prod.fst) (es.map Prod.snd) r ↔
      ∃ d, SettlesAll rigid (s.applyEquations es) d ∧ r = d.map (·.compose s) := by
    have h : SettlesArgs rigid (Substitution.empty.compose s) (es.map Prod.fst)
        (es.map Prod.snd) r ↔ _ := settlesArgs_compose_iff .empty
    rwa [Substitution.empty_compose] at h
  simp only [SettlesAll.eq_def rigid ((t, t') :: es), List.map_cons, settlesArgs_cons_iff,
    Substitution.apply_empty, Substitution.compose_empty, htail]

theorem settlesAll_nil_iff : SettlesAll rigid [] r ↔ r = .ok .empty :=
  settlesArgs_nil_iff (.inl rfl)

theorem map_compose_compose (q s : Substitution) (d : Except UnifyError Substitution) :
    (d.map (·.compose q)).map (·.compose s) = d.map (·.compose (q.compose s)) := by
  cases d with
  | error e => rfl
  | ok d => exact congrArg Except.ok (Substitution.compose_assoc d q s)

/-- Two lists of equations are solved in one go as they are one after the other. -/
theorem SettlesAll.of_append (h : SettlesAll rigid (es ++ fs) r) :
    (∃ e, SettlesAll rigid es (.error e) ∧ r = .error e) ∨
    ∃ s, SettlesAll rigid es (.ok s) ∧
      ∃ d, SettlesAll rigid (s.applyEquations fs) d ∧ r = d.map (·.compose s) := by
  induction hn : es.length generalizing es fs r with
  | zero =>
    obtain rfl := List.length_eq_zero_iff.1 hn
    refine .inr ⟨.empty, settlesAll_nil_iff.2 rfl, r, ?_, by cases r <;> rfl⟩
    rwa [Substitution.applyEquations_empty]
  | succ n ih =>
    obtain ⟨⟨t, t'⟩, es, rfl⟩ := List.exists_cons_of_length_eq_add_one hn
    have hlen (s : Substitution) : (s.applyEquations es).length = n := by
      rw [Substitution.applyEquations, List.length_map, Nat.succ.inj hn]
    rw [List.cons_append, settlesAll_cons_iff] at h
    obtain ⟨e, he, rfl⟩ | ⟨s, hs, d, hd, rfl⟩ := h
    · exact .inl ⟨e, settlesAll_cons_iff.2 (.inl ⟨e, he, rfl⟩), rfl⟩
    · rw [Substitution.applyEquations_append] at hd
      obtain ⟨e, he, rfl⟩ | ⟨q, hq, d, hd, rfl⟩ := ih hd (hlen s)
      · exact .inl ⟨e, settlesAll_cons_iff.2 (.inr ⟨s, hs, .error e, he, rfl⟩), rfl⟩
      · refine .inr ⟨q.compose s, settlesAll_cons_iff.2 (.inr ⟨s, hs, .ok q, hq, rfl⟩), d, ?_,
          map_compose_compose q s d⟩
        rwa [Substitution.applyEquations_compose]

/-- The parts of two types may be put in front of the equations that follow. -/
theorem SettlesAll.of_parts (hhead : sameHead t t' = true)
    (h : SettlesAll rigid (t.parts.zip t'.parts ++ es) r) :
    SettlesAll rigid ((t, t') :: es) r := by
  have hparts (r : Except UnifyError Substitution) :
      SettlesAll rigid (t.parts.zip t'.parts) r ↔ Settles rigid t t' r := by
    rw [settles_parts_iff hhead, SettlesAll, List.map_fst_zip (length_parts_eq hhead).le,
      List.map_snd_zip (length_parts_eq hhead).ge]
  rw [settlesAll_cons_iff]
  simp only [← hparts]
  exact h.of_append

end

/-! ## The list of equations, worked off from the front -/

/-- Working off `es` leads to `fs`, after variables have been solved by types that contain `n`
quantifiers altogether. -/
inductive Leads (rigid : String → Bool) :
    List (Ty × Ty) → Nat → List (Ty × Ty) → Prop where
  | refl (es : List (Ty × Ty)) : Leads rigid es 0 es
  | same {v : String} {es fs : List (Ty × Ty)} {n : Nat} (h : Leads rigid es n fs) :
    Leads rigid ((.var v, .var v) :: es) n fs
  | left {v : String} {t : Ty} {es fs : List (Ty × Ty)} {n : Nat} (hv : rigid v = false)
    (hocc : v ∉ t.freeVars)
    (h : Leads rigid ((Substitution.singleton v t).applyEquations es) n fs) :
    Leads rigid ((.var v, t) :: es) (t.quantifiers + n) fs
  | right {v : String} {t : Ty} {es fs : List (Ty × Ty)} {n : Nat} (hv : rigid v = false)
    (hflex : flexible? rigid t = none) (hocc : v ∉ t.freeVars)
    (h : Leads rigid ((Substitution.singleton v t).applyEquations es) n fs) :
    Leads rigid ((t, .var v) :: es) (t.quantifiers + n) fs
  | parts {t t' : Ty} {es fs : List (Ty × Ty)} {n : Nat} (hhead : sameHead t t' = true)
    (h : Leads rigid (t.parts.zip t'.parts ++ es) n fs) : Leads rigid ((t, t') :: es) n fs

/-- Whether the number of quantifiers in the solutions stays within `k`. -/
def Bounded (rigid : String → Bool) (k : Nat) (es : List (Ty × Ty)) : Prop :=
  ∀ n fs, Leads rigid es n fs → n ≤ k

/-! ## The measure -/

section

variable {rigid : String → Bool} {k k' : Nat} {es es' : List (Ty × Ty)} {t t' : Ty}

def equationQuantifiers (es : List (Ty × Ty)) : Nat :=
  (es.map fun e => e.1.quantifiers + e.2.quantifiers).sum

def equationSize (es : List (Ty × Ty)) : Nat :=
  (es.map fun e => e.1.size + e.2.size).sum

theorem equationQuantifiers_cons : equationQuantifiers ((t, t') :: es) =
    t.quantifiers + t'.quantifiers + equationQuantifiers es := rfl

theorem equationSize_cons :
    equationSize ((t, t') :: es) = t.size + t'.size + equationSize es := rfl

theorem equationQuantifiers_append :
    equationQuantifiers (es ++ es') = equationQuantifiers es + equationQuantifiers es' := by
  rw [equationQuantifiers, List.map_append, List.sum_append]
  rfl

theorem equationSize_append :
    equationSize (es ++ es') = equationSize es + equationSize es' := by
  rw [equationSize, List.map_append, List.sum_append]
  rfl

/-- The quantifiers that solutions may still bring in, those in the equations, the variables and the
size, in this order. -/
def work (k : Nat) (es : List (Ty × Ty)) : Nat ×ₗ Nat ×ₗ Nat ×ₗ Nat :=
  toLex (k, toLex (equationQuantifiers es,
    toLex ((equationVars es).toFinset.card, equationSize es)))

theorem work_lt_iff :
    work k' es' < work k es ↔
      k' < k ∨ k' = k ∧ (equationQuantifiers es' < equationQuantifiers es ∨
        equationQuantifiers es' = equationQuantifiers es ∧
          ((equationVars es').toFinset.card < (equationVars es).toFinset.card ∨
            (equationVars es').toFinset.card = (equationVars es).toFinset.card ∧
              equationSize es' < equationSize es)) := by
  simp only [work, Prod.Lex.toLex_lt_toLex]

theorem card_equationVars_le (h : equationVars es' ⊆ equationVars es) :
    (equationVars es').toFinset.card ≤ (equationVars es).toFinset.card :=
  Finset.card_le_card fun _ hv => List.mem_toFinset.2 (h (List.mem_toFinset.1 hv))

/-- Leaving out an equation leaves less work. -/
theorem work_tail_lt (k : Nat) (t t' : Ty) (es : List (Ty × Ty)) :
    work k es < work k ((t, t') :: es) := by
  have hvars : equationVars es ⊆ equationVars ((t, t') :: es) :=
    List.subset_append_right _ _
  have hcard := card_equationVars_le hvars
  have hsize := t.size_pos
  rw [work_lt_iff, equationQuantifiers_cons, equationSize_cons]
  omega

theorem equationQuantifiers_zip {ts ts' : List Ty} (h : ts.length = ts'.length) :
    equationQuantifiers (ts.zip ts') = quantifiersAll ts + quantifiersAll ts' := by
  induction ts generalizing ts' with
  | nil =>
    rw [List.length_eq_zero_iff.1 h.symm]
    rfl
  | cons t ts ih =>
    obtain ⟨t', ts', rfl⟩ := List.exists_cons_of_length_eq_add_one h.symm
    rw [List.zip_cons_cons, equationQuantifiers_cons, ih (Nat.succ.inj h), quantifiersAll,
      quantifiersAll]
    omega

theorem equationSize_zip {ts ts' : List Ty} (h : ts.length = ts'.length) :
    equationSize (ts.zip ts') = sizes ts + sizes ts' := by
  induction ts generalizing ts' with
  | nil =>
    rw [List.length_eq_zero_iff.1 h.symm]
    rfl
  | cons t ts ih =>
    obtain ⟨t', ts', rfl⟩ := List.exists_cons_of_length_eq_add_one h.symm
    rw [List.zip_cons_cons, equationSize_cons, ih (Nat.succ.inj h), sizes, sizes]
    omega

theorem size_eq_sizes_parts (t : Ty) : t.size = sizes t.parts + 1 := by
  cases t <;> simp only [size, parts, sizes] <;> omega

/-- The quantifiers of a type are those of its parts, and one more if it is quantified itself. -/
theorem quantifiers_eq_parts (t : Ty) :
    (∃ v b, t = .all v b ∧ t.quantifiers = quantifiersAll t.parts + 1) ∨
      (∀ v b, t ≠ .all v b) ∧ t.quantifiers = quantifiersAll t.parts := by
  cases t with
  | all v b => exact .inl ⟨v, b, rfl, rfl⟩
  | var v => exact .inr ⟨nofun, rfl⟩
  | arrow p r => exact .inr ⟨nofun, rfl⟩
  | data name args => exact .inr ⟨nofun, rfl⟩
  | prim name => exact .inr ⟨nofun, rfl⟩

/-- Opening two types with the same head takes a pair of nodes away; opening quantifiers may set
variables free, but takes a pair of quantifiers away. -/
theorem work_parts_lt (k : Nat) (hhead : sameHead t t' = true) (es : List (Ty × Ty)) :
    work k (t.parts.zip t'.parts ++ es) < work k ((t, t') :: es) := by
  have hlen := length_parts_eq hhead
  have hsize := size_eq_sizes_parts t
  have hsize' := size_eq_sizes_parts t'
  rw [work_lt_iff, equationQuantifiers_append, equationQuantifiers_zip hlen,
    equationQuantifiers_cons, equationSize_append, equationSize_zip hlen, equationSize_cons]
  obtain ⟨-, -, -, hq⟩ | ⟨hall, hq⟩ := quantifiers_eq_parts t
  · obtain ⟨-, -, -, hq'⟩ | ⟨-, hq'⟩ := quantifiers_eq_parts t' <;> omega
  · obtain ⟨-, -, -, hq'⟩ | ⟨hall', hq'⟩ := quantifiers_eq_parts t'
    · omega
    · have hvars : equationVars (t.parts.zip t'.parts ++ es) ⊆ equationVars ((t, t') :: es) := by
        intro v hv
        rw [mem_equationVars_append, mem_equationVars_zip hlen,
          ← mem_freeVars_iff_parts hall fun w => (ne_var_of_sameHead hhead w).1,
          ← mem_freeVars_iff_parts hall' fun w => (ne_var_of_sameHead hhead w).2,
          ← mem_equationVars_singleton, ← mem_equationVars_append] at hv
        exact hv
      have hcard := card_equationVars_le hvars
      omega

/-- Putting types without quantifiers into equations keeps the number of quantifiers. -/
theorem equationQuantifiers_applyEquations {s : Substitution} (hs : s.QuantifierFree)
    (es : List (Ty × Ty)) :
    equationQuantifiers (s.applyEquations es) = equationQuantifiers es := by
  simp only [equationQuantifiers, Substitution.applyEquations, List.map_map, Function.comp_def,
    Substitution.quantifiers_apply hs]

theorem mem_equationVars_applyEquations {s : Substitution} {w : String} :
    w ∈ equationVars (s.applyEquations es) ↔
      ∃ v ∈ equationVars es, w ∈ (s.apply (.var v)).freeVars := by
  constructor
  · intro hw
    obtain ⟨_, hmem, hw⟩ := List.mem_flatMap.1 hw
    obtain ⟨e, he, rfl⟩ := List.mem_map.1 hmem
    rw [List.mem_append, s.mem_freeVars_apply e.1, s.mem_freeVars_apply e.2] at hw
    obtain ⟨v, hv, hw⟩ | ⟨v, hv, hw⟩ := hw
    · exact ⟨v, List.mem_flatMap.2 ⟨e, he, List.mem_append_left _ hv⟩, hw⟩
    · exact ⟨v, List.mem_flatMap.2 ⟨e, he, List.mem_append_right _ hv⟩, hw⟩
  · rintro ⟨v, hv, hw⟩
    obtain ⟨e, he, hv⟩ := List.mem_flatMap.1 hv
    refine List.mem_flatMap.2 ⟨_, List.mem_map_of_mem he, ?_⟩
    rw [List.mem_append, s.mem_freeVars_apply e.1, s.mem_freeVars_apply e.2]
    exact (List.mem_append.1 hv).imp (⟨v, ·, hw⟩) (⟨v, ·, hw⟩)

/-- Solving a variable by a type without quantifiers takes the variable away. -/
theorem work_solve_lt (k : Nat) {v : String} {u : Ty} (hu : u.QuantifierFree)
    (hocc : v ∉ u.freeVars) (he : t = .var v ∧ t' = u ∨ t = u ∧ t' = .var v)
    (es : List (Ty × Ty)) :
    work k ((Substitution.singleton v u).applyEquations es) < work k ((t, t') :: es) := by
  have hmem : ∀ w ∈ equationVars ((Substitution.singleton v u).applyEquations es),
      w ≠ v ∧ w ∈ equationVars ((t, t') :: es) := by
    intro w hw
    obtain ⟨x, hx, hw⟩ := mem_equationVars_applyEquations.1 hw
    rw [apply_singleton_var] at hw
    have hcons : w ∈ equationVars ((t, t') :: es) ↔
        (w ∈ t.freeVars ∨ w ∈ t'.freeVars) ∨ w ∈ equationVars es := by
      rw [← mem_equationVars_singleton, ← mem_equationVars_append]
      rfl
    rw [hcons]
    split at hw
    next =>
      refine ⟨fun h => hocc (h ▸ hw), .inl ?_⟩
      rcases he with ⟨-, rfl⟩ | ⟨rfl, -⟩
      · exact .inr hw
      · exact .inl hw
    next hne =>
      rw [freeVars, List.mem_singleton] at hw
      subst hw
      exact ⟨hne, .inr hx⟩
  have hv : v ∈ equationVars ((t, t') :: es) := by
    refine List.mem_append_left _ (List.mem_append.2 ?_)
    rcases he with ⟨rfl, -⟩ | ⟨-, rfl⟩
    · exact .inl List.mem_cons_self
    · exact .inr List.mem_cons_self
  -- The solved variable is gone and no other has come in.
  have hcard : (equationVars ((Substitution.singleton v u).applyEquations es)).toFinset.card <
      (equationVars ((t, t') :: es)).toFinset.card := by
    refine Finset.card_lt_card ⟨fun w hw => ?_, fun hsub => ?_⟩
    · exact List.mem_toFinset.2 (hmem w (List.mem_toFinset.1 hw)).2
    · exact (hmem v (List.mem_toFinset.1 (hsub (List.mem_toFinset.2 hv)))).1 rfl
  have hquant := equationQuantifiers_applyEquations
    (Substitution.quantifierFree_singleton (x := v) hu) es
  rw [work_lt_iff, hquant, equationQuantifiers_cons]
  omega

end

/-! ## Boundedness and its steps -/

section

variable {rigid : String → Bool} {k : Nat} {es : List (Ty × Ty)} {t t' : Ty} {v : String}

theorem bounded_nil : Bounded rigid k [] := by
  intro n fs h
  cases h
  exact Nat.zero_le k

theorem bounded_same_iff : Bounded rigid k ((.var v, .var v) :: es) ↔ Bounded rigid k es := by
  constructor
  · exact fun h n fs hn => h n fs (.same hn)
  · intro h n fs hn
    cases hn with
    | refl => exact Nat.zero_le k
    | same hn => exact h n fs hn
    | left _ hocc => exact absurd List.mem_cons_self hocc
    | right _ _ hocc => exact absurd List.mem_cons_self hocc
    | parts hhead => cases hhead

theorem bounded_parts_iff (hhead : sameHead t t' = true) :
    Bounded rigid k ((t, t') :: es) ↔ Bounded rigid k (t.parts.zip t'.parts ++ es) := by
  constructor
  · exact fun h n fs hn => h n fs (.parts hhead hn)
  · intro h n fs hn
    cases hn with
    | refl => exact Nat.zero_le k
    | same => cases hhead
    | left => cases hhead
    | right => exact absurd rfl (ne_var_of_sameHead hhead _).2
    | parts _ hn => exact h n fs hn

theorem bounded_left_iff (hv : rigid v = false) (hne : t ≠ .var v) :
    Bounded rigid k ((.var v, t) :: es) ↔ (v ∉ t.freeVars → t.quantifiers ≤ k ∧
      Bounded rigid (k - t.quantifiers) ((Substitution.singleton v t).applyEquations es)) := by
  constructor
  · intro h hocc
    refine ⟨h _ _ (.left hv hocc (.refl _)), fun n fs hn => ?_⟩
    have hle := h _ _ (.left hv hocc hn)
    omega
  · intro h n fs hn
    cases hn with
    | refl => exact Nat.zero_le k
    | same => exact absurd rfl hne
    | left _ hocc hn =>
      obtain ⟨hle, hrest⟩ := h hocc
      have hn := hrest _ _ hn
      omega
    | right _ hflex =>
      rw [flexible?_eq_some_iff.2 ⟨rfl, hv⟩] at hflex
      cases hflex
    | parts hhead => cases hhead

theorem bounded_right_iff (hv : rigid v = false) (hflex : flexible? rigid t = none) :
    Bounded rigid k ((t, .var v) :: es) ↔ (v ∉ t.freeVars → t.quantifiers ≤ k ∧
      Bounded rigid (k - t.quantifiers) ((Substitution.singleton v t).applyEquations es)) := by
  constructor
  · intro h hocc
    refine ⟨h _ _ (.right hv hflex hocc (.refl _)), fun n fs hn => ?_⟩
    have hle := h _ _ (.right hv hflex hocc hn)
    omega
  · intro h n fs hn
    cases hn with
    | refl => exact Nat.zero_le k
    | same =>
      rw [flexible?_eq_some_iff.2 ⟨rfl, hv⟩] at hflex
      cases hflex
    | left hw =>
      rw [flexible?_eq_some_iff.2 ⟨rfl, hw⟩] at hflex
      cases hflex
    | right _ _ hocc hn =>
      obtain ⟨hle, hrest⟩ := h hocc
      have hn := hrest _ _ hn
      omega
    | parts hhead => exact absurd rfl (ne_var_of_sameHead hhead v).2

theorem bounded_mismatch (ht : flexible? rigid t = none) (ht' : flexible? rigid t' = none)
    (hvar : ∀ v, t = .var v → t' ≠ .var v) (hhead : sameHead t t' = false) :
    Bounded rigid k ((t, t') :: es) := by
  intro n fs hn
  cases hn with
  | refl => exact Nat.zero_le k
  | same => exact absurd rfl (hvar _ rfl)
  | left hv =>
    rw [flexible?_eq_some_iff.2 ⟨rfl, hv⟩] at ht
    cases ht
  | right hv =>
    rw [flexible?_eq_some_iff.2 ⟨rfl, hv⟩] at ht'
    cases ht'
  | parts h =>
    rw [hhead] at h
    cases h

theorem Bounded.mono {k' : Nat} (hle : k ≤ k') (h : Bounded rigid k es) : Bounded rigid k' es :=
  fun n fs hn => (h n fs hn).trans hle

end

/-! ## Ending and boundedness -/

theorem solve_of_mem {v : String} {t : Ty} (h : v ∈ t.freeVars) :
    solve v t = .error (.occurs v t) :=
  if_pos (decide_eq_true h)

theorem solve_of_not_mem {v : String} {t : Ty} (h : v ∉ t.freeVars) :
    solve v t = .ok (.singleton v t) :=
  if_neg fun hocc => h (of_decide_eq_true hocc)

section

variable {rigid : String → Bool} {t t' : Ty} {r : Except UnifyError Substitution}

/-- Within a bound everything settles. -/
theorem settlesAll_of_bounded {k : Nat} {es : List (Ty × Ty)} (h : Bounded rigid k es) :
    ∃ r, SettlesAll rigid es r := by
  induction hw : work k es using WellFoundedLT.induction generalizing k es with
  | ind w ih =>
    subst hw
    cases es with
    | nil => exact ⟨.ok .empty, settlesAll_nil_iff.2 rfl⟩
    | cons e es =>
      obtain ⟨t, t'⟩ := e
      -- A solution of the first pair leaves the others under it.
      have hsolved {v : String} {u : Ty} (he : t = .var v ∧ t' = u ∨ t = u ∧ t' = .var v)
          (hsettles : Settles rigid t t' (solve v u))
          (hb : v ∉ u.freeVars → u.quantifiers ≤ k ∧
            Bounded rigid (k - u.quantifiers) ((Substitution.singleton v u).applyEquations es)) :
          ∃ r, SettlesAll rigid ((t, t') :: es) r := by
        by_cases hocc : v ∈ u.freeVars
        · rw [solve_of_mem hocc] at hsettles
          exact ⟨_, settlesAll_cons_iff.2 (.inl ⟨_, hsettles, rfl⟩)⟩
        · rw [solve_of_not_mem hocc] at hsettles
          obtain ⟨hle, hb⟩ := hb hocc
          have hlt : work (k - u.quantifiers) ((Substitution.singleton v u).applyEquations es) <
              work k ((t, t') :: es) := by
            by_cases hu : u.quantifiers = 0
            · rw [hu]
              exact work_solve_lt k hu hocc he es
            · rw [work_lt_iff]
              omega
          obtain ⟨r, hr⟩ := ih _ hlt hb rfl
          exact ⟨_, settlesAll_cons_iff.2 (.inr ⟨_, hsettles, r, hr, rfl⟩)⟩
      cases comparison rigid t t' with
      | same v =>
        rw [bounded_same_iff] at h
        obtain ⟨r, hr⟩ := ih _ (work_tail_lt k _ _ es) h rfl
        refine ⟨r.map (·.compose .empty), settlesAll_cons_iff.2 (.inr
          ⟨.empty, settles_same_iff.2 rfl, r, ?_, rfl⟩)⟩
        rwa [Substitution.applyEquations_empty]
      | left v _ hv hne =>
        exact hsolved (.inl ⟨rfl, rfl⟩) ((settles_left_iff hv hne).2 rfl)
          ((bounded_left_iff hv hne).1 h)
      | right v _ hv hflex =>
        exact hsolved (.inr ⟨rfl, rfl⟩) ((settles_right_iff hv hflex).2 rfl)
          ((bounded_right_iff hv hflex).1 h)
      | parts _ _ hhead =>
        rw [bounded_parts_iff hhead] at h
        obtain ⟨r, hr⟩ := ih _ (work_parts_lt k hhead es) h rfl
        exact ⟨r, hr.of_parts hhead⟩
      | mismatch _ _ ht ht' hvar hhead =>
        exact ⟨_, settlesAll_cons_iff.2 (.inl
          ⟨_, (settles_mismatch_iff ht ht' hvar hhead).2 rfl, rfl⟩)⟩

/-- What settles leaves the equations that follow bounded. -/
theorem Settles.bounded_cons (h : Settles rigid t t' r) {es : List (Ty × Ty)}
    (hes : ∀ s, r = .ok s → ∃ k, Bounded rigid k (s.applyEquations es)) :
    ∃ k, Bounded rigid k ((t, t') :: es) := by
  have hsolve {v : String} {u : Ty} {es : List (Ty × Ty)}
      (hes : ∀ s, solve v u = .ok s → ∃ k, Bounded rigid k (s.applyEquations es)) :
      ∃ k, v ∉ u.freeVars → u.quantifiers ≤ k ∧
        Bounded rigid (k - u.quantifiers) ((Substitution.singleton v u).applyEquations es) := by
    by_cases hocc : v ∈ u.freeVars
    · exact ⟨0, fun h => absurd hocc h⟩
    · obtain ⟨k, hk⟩ := hes _ (solve_of_not_mem hocc)
      refine ⟨u.quantifiers + k, fun _ => ⟨Nat.le_add_right _ _, ?_⟩⟩
      rwa [Nat.add_sub_cancel_left]
  -- The pairs behind the first one are arbitrary, since its parts come to stand in front of them.
  refine Settles.induct
    (fun t t' r => ∀ es : List (Ty × Ty),
      (∀ s, r = .ok s → ∃ k, Bounded rigid k (s.applyEquations es)) →
      ∃ k, Bounded rigid k ((t, t') :: es))
    (fun s ts ts' r => ∀ es : List (Ty × Ty),
      (∀ q, r = .ok q → ∃ k, Bounded rigid k (q.applyEquations es)) →
      ∃ k, Bounded rigid k (s.applyEquations (ts.zip ts' ++ es)))
    ?same ?left ?right ?parts ?mismatch ?nil ?failed ?cons h es hes
  case same =>
    intro v es hes
    obtain ⟨k, hk⟩ := hes .empty rfl
    rw [Substitution.applyEquations_empty] at hk
    exact ⟨k, bounded_same_iff.2 hk⟩
  case left =>
    intro v t hv hne es hes
    obtain ⟨k, hk⟩ := hsolve hes
    exact ⟨k, (bounded_left_iff hv hne).2 hk⟩
  case right =>
    intro v t hv hflex es hes
    obtain ⟨k, hk⟩ := hsolve hes
    exact ⟨k, (bounded_right_iff hv hflex).2 hk⟩
  case parts =>
    intro t t' r hhead _ ih es hes
    obtain ⟨k, hk⟩ := ih es hes
    rw [Substitution.applyEquations_empty] at hk
    exact ⟨k, (bounded_parts_iff hhead).2 hk⟩
  case mismatch => exact fun t t' ht ht' hvar hhead es _ => ⟨0, bounded_mismatch ht ht' hvar hhead⟩
  case nil =>
    intro s ts ts' hnil es hes
    obtain ⟨k, hk⟩ := hes s rfl
    have hzip : ts.zip ts' = [] := by
      rcases hnil with rfl | rfl
      · rfl
      · exact List.zip_nil_right
    rw [hzip]
    exact ⟨k, hk⟩
  case failed => exact fun s t t' ts ts' e ih es _ => ih _ (by simp)
  case cons =>
    intro s t t' ts ts' step r _ ihHead ihTail es hes
    refine ihHead (s.applyEquations (ts.zip ts' ++ es)) fun q hq => ?_
    cases hq
    rw [← Substitution.applyEquations_compose]
    exact ihTail es hes

/-- Comparing two types comes to an end exactly if the number of quantifiers in the solutions that
are found along the way is bounded. -/
theorem settles_iff_bounded :
    (∃ r, Settles rigid t t' r) ↔ ∃ k, Bounded rigid k [(t, t')] := by
  constructor
  · rintro ⟨r, h⟩
    exact h.bounded_cons fun s _ => ⟨0, bounded_nil⟩
  · rintro ⟨k, h⟩
    obtain ⟨r, hr⟩ := settlesAll_of_bounded h
    obtain ⟨e, he, -⟩ | ⟨s, hs, -⟩ := settlesAll_cons_iff.1 hr
    · exact ⟨_, he⟩
    · exact ⟨_, hs⟩

/-! ## Without quantifiers -/

theorem quantifiersAll_parts_le (t : Ty) : quantifiersAll t.parts ≤ t.quantifiers := by
  obtain ⟨-, -, -, h⟩ | ⟨-, h⟩ := quantifiers_eq_parts t <;> omega

/-- Equations without quantifiers have solutions without quantifiers. -/
theorem bounded_of_equationQuantifiers_eq_zero {es : List (Ty × Ty)}
    (h : equationQuantifiers es = 0) : Bounded rigid 0 es := by
  intro n fs hn
  induction hn with
  | refl => exact Nat.le_refl 0
  | same _ ih =>
    rw [equationQuantifiers_cons] at h
    exact ih (by omega)
  | @left v t es fs n _ _ _ ih =>
    rw [equationQuantifiers_cons] at h
    have ht : t.QuantifierFree := by rw [QuantifierFree]; omega
    rw [equationQuantifiers_applyEquations (Substitution.quantifierFree_singleton ht)] at ih
    have hn := ih (by omega)
    omega
  | @right v t es fs n _ _ _ _ ih =>
    rw [equationQuantifiers_cons] at h
    have ht : t.QuantifierFree := by rw [QuantifierFree]; omega
    rw [equationQuantifiers_applyEquations (Substitution.quantifierFree_singleton ht)] at ih
    have hn := ih (by omega)
    omega
  | @parts t t' es fs n hhead _ ih =>
    have hle := quantifiersAll_parts_le t
    have hle' := quantifiersAll_parts_le t'
    rw [equationQuantifiers_cons] at h
    rw [equationQuantifiers_append, equationQuantifiers_zip (length_parts_eq hhead)] at ih
    exact ih (by omega)

/-- Comparing types without quantifiers comes to an end. -/
theorem exists_settles_of_quantifierFree (ht : t.QuantifierFree) (ht' : t'.QuantifierFree) :
    ∃ r, Settles rigid t t' r := by
  refine settles_iff_bounded.2 ⟨0, bounded_of_equationQuantifiers_eq_zero ?_⟩
  rw [equationQuantifiers_cons, ht, ht']
  rfl

end

end PolyLambda.Ty
