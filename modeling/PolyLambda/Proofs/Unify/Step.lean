import PolyLambda.Ty.Unify

/-!
# One step of unification

Two types that are compared stand in one of five relations (`Comparison`), and each decides what
`unify` does with them: they are the same variable, one of them is a variable to be solved, they
have the same head and so their parts are compared, or they differ. Arrows, quantifiers and data
types do not differ in how their parts are compared: in order, with the solutions of the earlier
ones put into the later ones.

Raising the limit never changes an outcome, so a comparison comes to at most one result
(`Settles`), whatever the limit.
-/

namespace PolyLambda.Ty

/-! ## Heads and parts -/

/-- The types that a type is made of. -/
def parts : Ty → List Ty
  | .var _ => []
  | .arrow p r => [p, r]
  | .all _ b => [b]
  | .data _ args => args
  | .prim _ => []

/-- Whether two types are made in the same way, from parts that may differ. The name of a
quantified variable does not count. -/
def sameHead : Ty → Ty → Bool
  | .arrow _ _, .arrow _ _ => true
  | .all _ _, .all _ _ => true
  | .data n args, .data n' args' => n == n' && args.length == args'.length
  | .prim n, .prim n' => n == n'
  | _, _ => false

theorem length_parts_eq {t t' : Ty} (h : sameHead t t' = true) :
    t.parts.length = t'.parts.length := by
  cases t <;> cases t' <;> simp_all [sameHead, parts]

theorem flexible?_eq_some_iff {rigid : String → Bool} {t : Ty} {v : String} :
    flexible? rigid t = some v ↔ t = .var v ∧ rigid v = false := by
  cases t <;> simp [flexible?]
  grind

/-- How two types stand to each other where they are compared. -/
inductive Comparison (rigid : String → Bool) : Ty → Ty → Prop where
  | same (v : String) : Comparison rigid (.var v) (.var v)
  | left (v : String) (t : Ty) (hv : rigid v = false) (ht : t ≠ .var v) :
    Comparison rigid (.var v) t
  | right (v : String) (t : Ty) (hv : rigid v = false) (ht : flexible? rigid t = none) :
    Comparison rigid t (.var v)
  | parts (t t' : Ty) (h : sameHead t t' = true) : Comparison rigid t t'
  | mismatch (t t' : Ty) (ht : flexible? rigid t = none) (ht' : flexible? rigid t' = none)
    (hvar : ∀ v, t = .var v → t' ≠ .var v) (h : sameHead t t' = false) : Comparison rigid t t'

theorem comparison (rigid : String → Bool) (t t' : Ty) : Comparison rigid t t' := by
  by_cases hsame : ∃ v, t = .var v ∧ t' = .var v
  · obtain ⟨v, rfl, rfl⟩ := hsame
    exact .same v
  · cases ht : flexible? rigid t with
    | some v =>
      obtain ⟨rfl, hv⟩ := flexible?_eq_some_iff.1 ht
      exact .left v t' hv fun h => hsame ⟨v, rfl, h⟩
    | none =>
      cases ht' : flexible? rigid t' with
      | some v =>
        obtain ⟨rfl, hv⟩ := flexible?_eq_some_iff.1 ht'
        exact .right v t hv ht
      | none =>
        cases h : sameHead t t' with
        | true => exact .parts t t' h
        | false => exact .mismatch t t' ht ht' (fun v hv hv' => hsame ⟨v, hv, hv'⟩) h

/-! ## What unification does in each case -/

section

variable {rigid : String → Bool} (limit : Nat)

theorem unify_same (v : String) :
    unify rigid (limit + 1) (.var v) (.var v) = return .empty := by
  rw [unify.eq_def]
  exact if_pos ⟨rfl, rfl⟩

theorem unify_left {v : String} {t : Ty} (hv : rigid v = false) (ht : t ≠ .var v) :
    unify rigid (limit + 1) (.var v) t = liftM (solve v t) := by
  rw [unify.eq_def]
  simp only [flexible?_eq_some_iff.2 ⟨rfl, hv⟩]
  exact if_neg fun h => ht h.1.symm

theorem unify_right {v : String} {t : Ty} (hv : rigid v = false) (ht : flexible? rigid t = none) :
    unify rigid (limit + 1) t (.var v) = liftM (solve v t) := by
  have hne : t ≠ .var v := by
    rintro rfl
    rw [flexible?_eq_some_iff.2 ⟨rfl, hv⟩] at ht
    cases ht
  rw [unify.eq_def]
  simp only [ht, flexible?_eq_some_iff.2 ⟨rfl, hv⟩]
  exact if_neg fun h => hne h.1

theorem unify_parts {t t' : Ty} (h : sameHead t t' = true) :
    unify rigid (limit + 1) t t' =
      unifyArgs (unify rigid limit) .empty t.parts t'.parts := by
  rw [unify.eq_def]
  cases t <;> cases t' <;> simp only [sameHead, Bool.false_eq_true] at h
  case arrow.arrow p r p' r' =>
    simp only [flexible?, parts, unifyArgs, reduceCtorEq, and_false, if_false,
      Substitution.apply_empty, Substitution.compose_empty]
  case all.all v b v' b' => simp [flexible?, parts, unifyArgs]
  case data.data n args n' args' =>
    simp_all [flexible?, parts]
  case prim.prim n n' => simp_all [flexible?, parts, unifyArgs]

theorem unify_mismatch {t t' : Ty} (ht : flexible? rigid t = none)
    (ht' : flexible? rigid t' = none) (hvar : ∀ v, t = .var v → t' ≠ .var v)
    (h : sameHead t t' = false) :
    unify rigid (limit + 1) t t' = throw (.mismatch t t') := by
  rw [unify.eq_def]
  simp only [ht, ht']
  cases t <;> cases t' <;> simp_all [sameHead]
  case var.var a b => exact fun hab => absurd hab.symm hvar

end

/-- The parts after the first pair are compared under the solution of that pair. -/
theorem outcome?_unifyArgs_cons (f : Ty → Ty → Limited UnifyError Substitution)
    (s : Substitution) (t t' : Ty) (ts ts' : List Ty) :
    (unifyArgs f s (t :: ts) (t' :: ts')).outcome? =
      match (f (s.apply t) (s.apply t')).outcome? with
      | none => none
      | some (.error e) => some (.error e)
      | some (.ok step) => (unifyArgs f (step.compose s) ts ts').outcome? := by
  rw [unifyArgs, Limited.outcome?_bind]
  cases (f (s.apply t) (s.apply t')).outcome? with
  | none => rfl
  | some o => cases o <;> rfl

/-! ## Raising the limit -/

theorem outcome?_unifyArgs_mono {f g : Ty → Ty → Limited UnifyError Substitution}
    (hfg : ∀ t t' r, (f t t').outcome? = some r → (g t t').outcome? = some r)
    {s : Substitution} {ts ts' : List Ty} {r : Except UnifyError Substitution}
    (h : (unifyArgs f s ts ts').outcome? = some r) : (unifyArgs g s ts ts').outcome? = some r := by
  induction ts generalizing s ts' with
  | nil => exact h
  | cons t ts ih =>
    cases ts' with
    | nil => exact h
    | cons t' ts' =>
      rw [outcome?_unifyArgs_cons] at h ⊢
      cases hf : (f (s.apply t) (s.apply t')).outcome? with
      | none => rw [hf] at h; cases h
      | some o =>
        rw [hf] at h
        rw [hfg _ _ _ hf]
        cases o with
        | error e => exact h
        | ok step => exact ih h

theorem outcome?_unify_succ {rigid : String → Bool} {limit : Nat} {t t' : Ty}
    {r : Except UnifyError Substitution} (h : (unify rigid limit t t').outcome? = some r) :
    (unify rigid (limit + 1) t t').outcome? = some r := by
  induction limit generalizing t t' r with
  | zero => cases h
  | succ limit ih =>
    cases comparison rigid t t' with
    | same v => rw [unify_same] at h ⊢; exact h
    | left v t hv ht => rw [unify_left _ hv ht] at h ⊢; exact h
    | right v t hv ht => rw [unify_right _ hv ht] at h ⊢; exact h
    | parts t t' hhead =>
      rw [unify_parts _ hhead] at h ⊢
      exact outcome?_unifyArgs_mono (fun _ _ _ => ih) h
    | mismatch t t' ht ht' hvar hhead => rw [unify_mismatch _ ht ht' hvar hhead] at h ⊢; exact h

/-- A limit that was enough stays enough when it is raised. -/
theorem outcome?_unify_mono {rigid : String → Bool} {n m : Nat} (hle : n ≤ m) {t t' : Ty}
    {r : Except UnifyError Substitution} (h : (unify rigid n t t').outcome? = some r) :
    (unify rigid m t t').outcome? = some r := by
  induction hle with
  | refl => exact h
  | step _ ih => exact outcome?_unify_succ ih

/-! ## What a comparison comes to -/

/-- Comparing `t` with `t'` comes to the result `r`, under all limits that are high enough. -/
def Settles (rigid : String → Bool) (t t' : Ty) (r : Except UnifyError Substitution) : Prop :=
  ∃ limit, (unify rigid limit t t').outcome? = some r

/-- Comparing the types of two lists pair by pair, where `s` solves the pairs before them, comes to
the result `r`. -/
def SettlesArgs (rigid : String → Bool) (s : Substitution) (ts ts' : List Ty)
    (r : Except UnifyError Substitution) : Prop :=
  ∃ limit, (unifyArgs (unify rigid limit) s ts ts').outcome? = some r

variable {rigid : String → Bool} {t t' : Ty} {r r' : Except UnifyError Substitution}

theorem Settles.unique (h : Settles rigid t t' r) (h' : Settles rigid t t' r') : r = r' := by
  obtain ⟨n, hn⟩ := h
  obtain ⟨m, hm⟩ := h'
  have h1 := outcome?_unify_mono (Nat.le_max_left n m) hn
  have h2 := outcome?_unify_mono (Nat.le_max_right n m) hm
  rw [h1] at h2
  exact Option.some.inj h2

/-- The limit 0 gives no result, so only what the others give counts. -/
theorem settles_iff_succ :
    Settles rigid t t' r ↔ ∃ limit, (unify rigid (limit + 1) t t').outcome? = some r := by
  refine ⟨fun ⟨limit, h⟩ => ⟨limit, outcome?_unify_succ h⟩, fun ⟨limit, h⟩ => ⟨limit + 1, h⟩⟩

theorem settles_same_iff {v : String} :
    Settles rigid (.var v) (.var v) r ↔ r = .ok .empty := by
  rw [settles_iff_succ]
  simp [unify_same, eq_comm]

theorem settles_left_iff {v : String} (hv : rigid v = false) (ht : t ≠ .var v) :
    Settles rigid (.var v) t r ↔ r = solve v t := by
  rw [settles_iff_succ]
  simp [unify_left _ hv ht, eq_comm]

theorem settles_right_iff {v : String} (hv : rigid v = false) (ht : flexible? rigid t = none) :
    Settles rigid t (.var v) r ↔ r = solve v t := by
  rw [settles_iff_succ]
  simp [unify_right _ hv ht, eq_comm]

theorem settles_parts_iff (h : sameHead t t' = true) :
    Settles rigid t t' r ↔ SettlesArgs rigid .empty t.parts t'.parts r := by
  rw [settles_iff_succ]
  simp only [unify_parts _ h, SettlesArgs]

theorem settles_mismatch_iff (ht : flexible? rigid t = none) (ht' : flexible? rigid t' = none)
    (hvar : ∀ v, t = .var v → t' ≠ .var v) (h : sameHead t t' = false) :
    Settles rigid t t' r ↔ r = .error (.mismatch t t') := by
  rw [settles_iff_succ]
  simp [unify_mismatch _ ht ht' hvar h, eq_comm]

theorem settlesArgs_nil_iff {s : Substitution} {ts ts' : List Ty} (h : ts = [] ∨ ts' = []) :
    SettlesArgs rigid s ts ts' r ↔ r = .ok s := by
  have hpure (limit : Nat) : unifyArgs (unify rigid limit) s ts ts' = return s := by
    rcases h with rfl | rfl
    · rw [unifyArgs.eq_def]
    · cases ts <;> rw [unifyArgs.eq_def]
  simp [SettlesArgs, hpure, eq_comm]

theorem settlesArgs_cons_iff {s : Substitution} {ts ts' : List Ty} :
    SettlesArgs rigid s (t :: ts) (t' :: ts') r ↔
      (∃ e, Settles rigid (s.apply t) (s.apply t') (.error e) ∧ r = .error e) ∨
      ∃ step, Settles rigid (s.apply t) (s.apply t') (.ok step) ∧
        SettlesArgs rigid (step.compose s) ts ts' r := by
  constructor
  · rintro ⟨limit, h⟩
    rw [outcome?_unifyArgs_cons] at h
    split at h
    next => cases h
    next e he => exact .inl ⟨e, ⟨limit, he⟩, (Option.some.inj h).symm⟩
    next step hstep => exact .inr ⟨step, ⟨limit, hstep⟩, ⟨limit, h⟩⟩
  · rintro (⟨e, ⟨limit, he⟩, rfl⟩ | ⟨step, ⟨n, hn⟩, ⟨m, hm⟩⟩)
    · refine ⟨limit, ?_⟩
      rw [outcome?_unifyArgs_cons, he]
    · refine ⟨max n m, ?_⟩
      rw [outcome?_unifyArgs_cons, outcome?_unify_mono (Nat.le_max_left n m) hn]
      exact outcome?_unifyArgs_mono
        (fun _ _ _ => outcome?_unify_mono (Nat.le_max_right n m)) hm

/-! ## Induction over a comparison that settles -/

section

variable (motive : Ty → Ty → Except UnifyError Substitution → Prop)
  (motiveArgs : Substitution → List Ty → List Ty → Except UnifyError Substitution → Prop)

/-- What holds of every comparison that settles, if it holds of each whenever it holds of those it
leads to. -/
theorem Settles.induct
    (same : ∀ v, motive (.var v) (.var v) (.ok .empty))
    (left : ∀ v t, rigid v = false → t ≠ .var v → motive (.var v) t (solve v t))
    (right : ∀ v t, rigid v = false → flexible? rigid t = none → motive t (.var v) (solve v t))
    (parts : ∀ t t' r, sameHead t t' = true → SettlesArgs rigid .empty t.parts t'.parts r →
      motiveArgs .empty t.parts t'.parts r → motive t t' r)
    (mismatch : ∀ t t', flexible? rigid t = none → flexible? rigid t' = none →
      (∀ v, t = .var v → t' ≠ .var v) → sameHead t t' = false →
      motive t t' (.error (.mismatch t t')))
    (nil : ∀ s ts ts', ts = [] ∨ ts' = [] → motiveArgs s ts ts' (.ok s))
    (failed : ∀ s t t' ts ts' e, motive (s.apply t) (s.apply t') (.error e) →
      motiveArgs s (t :: ts) (t' :: ts') (.error e))
    (cons : ∀ s t t' ts ts' step r, Settles rigid (s.apply t) (s.apply t') (.ok step) →
      motive (s.apply t) (s.apply t') (.ok step) →
      motiveArgs (step.compose s) ts ts' r → motiveArgs s (t :: ts) (t' :: ts') r)
    (h : Settles rigid t t' r) : motive t t' r := by
  obtain ⟨limit, h⟩ := h
  induction limit generalizing t t' r with
  | zero => cases h
  | succ limit ih =>
    -- Parts are compared within the limit below, so only their number is left to recur on.
    have hargs {s ts ts' r} (h : (unifyArgs (unify rigid limit) s ts ts').outcome? = some r) :
        motiveArgs s ts ts' r := by
      induction ts generalizing s ts' with
      | nil =>
        obtain rfl := (settlesArgs_nil_iff (.inl rfl)).1 ⟨limit, h⟩
        exact nil s [] ts' (.inl rfl)
      | cons t ts ihArgs =>
        cases ts' with
        | nil =>
          obtain rfl := (settlesArgs_nil_iff (.inr rfl)).1 ⟨limit, h⟩
          exact nil s (t :: ts) [] (.inr rfl)
        | cons t' ts' =>
          rw [outcome?_unifyArgs_cons] at h
          split at h
          next => cases h
          next e he =>
            obtain rfl := Option.some.inj h
            exact failed s t t' ts ts' e (ih he)
          next step hstep => exact cons s t t' ts ts' step r ⟨limit, hstep⟩ (ih hstep) (ihArgs h)
    cases comparison rigid t t' with
    | same v =>
      rw [settles_same_iff.1 ⟨_, h⟩]
      exact same v
    | left v _ hv ht =>
      rw [(settles_left_iff hv ht).1 ⟨_, h⟩]
      exact left v _ hv ht
    | right v _ hv ht =>
      rw [(settles_right_iff hv ht).1 ⟨_, h⟩]
      exact right v _ hv ht
    | parts _ _ hhead =>
      rw [unify_parts _ hhead] at h
      exact parts _ _ r hhead ⟨limit, h⟩ (hargs h)
    | mismatch _ _ ht ht' hvar hhead =>
      rw [(settles_mismatch_iff ht ht' hvar hhead).1 ⟨_, h⟩]
      exact mismatch _ _ ht ht' hvar hhead

end

end PolyLambda.Ty
