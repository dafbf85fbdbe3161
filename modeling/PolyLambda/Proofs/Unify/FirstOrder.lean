import PolyLambda.Proofs.Unify.Termination

/-!
# First-order unification

On types without quantifiers `unify` is first-order unification with constants, where the constants
are the rigid variables: it ends, and it gives a most general solution exactly if there is one.
-/

namespace PolyLambda.Ty

variable {rigid : String → Bool} {t t' : Ty}

/-- A solved variable does not come back, so the solution changes nothing any more. -/
theorem MostGeneral.idempotent {es : List (Ty × Ty)} {s : Substitution}
    (h : MostGeneral rigid es s) (u : Ty) : s.apply (s.apply u) = s.apply u :=
  Substitution.apply_eq_self fun v hv => (h.eliminates u v hv).1

theorem MostGeneral.respects {es : List (Ty × Ty)} {s : Substitution}
    (h : MostGeneral rigid es s) : s.Respects rigid := by
  intro v hv
  refine Substitution.apply_var_eq_self fun hname => ?_
  rw [h.names_flexible v hname] at hv
  cases hv

/-- A comparison that settles does so under all limits from some point on. -/
theorem Settles.eventually {r : Except UnifyError Substitution} (h : Settles rigid t t' r) :
    ∃ bound, ∀ limit ≥ bound, (unify rigid limit t t').outcome? = some r := by
  obtain ⟨bound, hbound⟩ := h
  exact ⟨bound, fun limit hle => outcome?_unify_mono hle hbound⟩

/-- Without quantifiers, comparing two types ends with a most general solution that leaves rigid
variables and variables from elsewhere alone, or with an error if no solution exists. -/
theorem unify_principal (ht : t.QuantifierFree) (ht' : t'.QuantifierFree) :
    ∃ r, (∃ bound, ∀ limit ≥ bound, (unify rigid limit t t').outcome? = some r) ∧
      (∀ s, r = .ok s →
        s.apply t = s.apply t' ∧
        (∀ v, rigid v = true ∨ v ∉ t.freeVars ∧ v ∉ t'.freeVars →
          s.apply (.var v) = .var v) ∧
        (∀ u, s.apply (s.apply u) = s.apply u) ∧
        ∀ θ : Substitution, θ.Respects rigid → θ.apply t = θ.apply t' →
          ∀ u : Ty, u.QuantifierFree → θ.apply (s.apply u) = θ.apply u) ∧
      ((∃ e, r = .error e) ↔
        ¬ ∃ θ : Substitution, θ.Respects rigid ∧ θ.apply t = θ.apply t') := by
  obtain ⟨r, hr⟩ : ∃ r, Settles rigid t t' r := exists_settles_of_quantifierFree ht ht'
  have hanswers := hr.answers ht ht'
  refine ⟨r, hr.eventually, ?_, ?_⟩
  · rintro s rfl
    have h : MostGeneral rigid [(t, t')] s := hanswers
    refine ⟨solves_singleton_iff.1 h.solves, ?_, h.idempotent, ?_⟩
    · rintro v (hv | ⟨hv, hv'⟩)
      · exact h.respects v hv
      · refine Substitution.apply_var_eq_self fun hname => ?_
        exact (mem_equationVars_singleton.1 (h.names_occur v hname)).elim hv hv'
    · exact fun θ hθ hsolves u hu => h.apply_eq hθ (solves_singleton_iff.2 hsolves) hu
  · cases r with
    | error e =>
      refine iff_of_true ⟨e, rfl⟩ ?_
      rintro ⟨θ, hθ, hsolves⟩
      exact hanswers θ hθ (solves_singleton_iff.2 hsolves)
    | ok s =>
      have h : MostGeneral rigid [(t, t')] s := hanswers
      refine iff_of_false nofun fun hnone => ?_
      exact hnone ⟨s, h.respects, solves_singleton_iff.1 h.solves⟩

/-- The equation between `'a -> List 'b` and `List 'r -> 'a`, where `'r` is rigid. -/
theorem unify_principal_list :
    let t : Ty := .arrow (.var "a") (.data "List" [.var "b"])
    let t' : Ty := .arrow (.data "List" [.var "r"]) (.var "a")
    let rigid : String → Bool := (· == "r")
    (t.QuantifierFree ∧ t'.QuantifierFree) ∧
      ∃ s, (∃ bound, ∀ limit ≥ bound, (unify rigid limit t t').outcome? = some (.ok s)) ∧
        s.apply t = s.apply t' ∧ s.apply (.var "r") = .var "r" ∧
        (∀ u, s.apply (s.apply u) = s.apply u) ∧
        ∀ θ : Substitution, θ.Respects rigid → θ.apply t = θ.apply t' →
          θ.apply (s.apply (.var "b")) = θ.apply (.var "b") := by
  intro t t' rigid
  have ht : t.QuantifierFree := rfl
  have ht' : t'.QuantifierFree := rfl
  obtain ⟨r, hbound, hok, herror⟩ := @unify_principal rigid t t' ht ht'
  let θ : Substitution := .ofList [("a", .data "List" [.var "r"]), ("b", .var "r")]
  have hθ : θ.Respects rigid := by
    intro v hv
    obtain rfl : v = "r" := eq_of_beq hv
    decide
  have hsolves : θ.apply t = θ.apply t' := by decide
  cases r with
  | error e => exact absurd ⟨θ, hθ, hsolves⟩ (herror.1 ⟨e, rfl⟩)
  | ok s =>
    obtain ⟨hunifies, hfixed, hidempotent, hgeneral⟩ := hok s rfl
    refine ⟨⟨ht, ht'⟩, s, hbound, hunifies, hfixed "r" (.inl rfl), hidempotent, ?_⟩
    exact fun θ hθ hsolves => hgeneral θ hθ hsolves _ (quantifierFree_var "b")

end PolyLambda.Ty
