import PolyLambda.Proofs.Ty.Names
import PolyLambda.Proofs.Unify.Step

/-!
# Which variables are solved

Unification solves no rigid variable, and it solves no variable that is not written in the two
types. That includes the names that their quantifiers bind, since quantifiers are opened without
renaming; and where a substitution has renamed a binder on the way, the new name is the old one with
primes.
-/

namespace PolyLambda.Ty

variable {rigid : String → Bool} {P N : String → Prop} {t t' : Ty} {s : Substitution}

theorem over_of_mem_parts (hNP : ∀ v, N v → P v) (ht : t.Over P N) : ∀ u ∈ t.parts, u.Over P N := by
  cases t with
  | var v => rintro _ ⟨⟩
  | arrow p r =>
    rw [over_arrow_iff] at ht
    simpa [parts] using ht
  | all v b =>
    rw [over_all_iff] at ht
    have hb : b.Over P N := ht.2.mono (fun w hw => hw.elim id fun h => h ▸ hNP v ht.1) fun _ => id
    simpa [parts] using hb
  | data name args => exact over_data_iff.1 ht
  | prim name => rintro _ ⟨⟩

/-- A solution knows flexible variables only, and stays within the names of the types compared. -/
theorem Settles.over (hN : PrimeClosed N) (hNP : ∀ v, N v → P v)
    (h : Settles rigid t t' (.ok s)) (ht : t.Over P N) (ht' : t'.Over P N) :
    s.Over P N ∧ ∀ v ∈ s.names, rigid v = false := by
  have hsolve {v : String} {u : Ty} (hv : rigid v = false) (hP : P v) (hu : u.Over P N)
      {s : Substitution} (hs : solve v u = .ok s) :
      s.Over P N ∧ ∀ v ∈ s.names, rigid v = false := by
    rw [solve] at hs
    split at hs
    next => cases hs
    next =>
      cases hs
      refine ⟨Substitution.over_singleton hP hu, fun w hw => ?_⟩
      rwa [Substitution.mem_names_singleton.1 hw]
  -- The solutions of earlier parts are put into the later ones, so both are over the same names.
  refine Settles.induct
    (fun t t' r => t.Over P N → t'.Over P N → ∀ s, r = .ok s →
      s.Over P N ∧ ∀ v ∈ s.names, rigid v = false)
    (fun s ts ts' r => (s.Over P N ∧ ∀ v ∈ s.names, rigid v = false) →
      (∀ t ∈ ts, t.Over P N) → (∀ t ∈ ts', t.Over P N) → ∀ d, r = .ok d →
      d.Over P N ∧ ∀ v ∈ d.names, rigid v = false)
    ?same ?left ?right ?parts ?mismatch ?nil ?failed ?cons h ht ht' s rfl
  case same =>
    rintro v - - s ⟨⟩
    exact ⟨Substitution.over_empty, fun _ h => absurd h List.not_mem_nil⟩
  case left => exact fun v t hv _ ht ht' s hs => hsolve hv (over_var_iff.1 ht) ht' hs
  case right => exact fun v t hv _ ht ht' s hs => hsolve hv (over_var_iff.1 ht') ht hs
  case parts =>
    intro t t' r _ _ ih ht ht' s hs
    exact ih ⟨Substitution.over_empty, fun _ h => absurd h List.not_mem_nil⟩
      (over_of_mem_parts hNP ht) (over_of_mem_parts hNP ht') s hs
  case mismatch => exact fun t t' _ _ _ _ _ _ s hs => nomatch hs
  case nil =>
    rintro s ts ts' - hs - - d ⟨⟩
    exact hs
  case failed => exact fun s t t' ts ts' e _ _ _ _ d hd => nomatch hd
  case cons =>
    intro s t t' ts ts' step r _ ihHead ihTail hs hts hts' d hd
    rw [List.forall_mem_cons] at hts hts'
    obtain ⟨hstep, hflexible⟩ := ihHead (hs.1.apply hN hts.1) (hs.1.apply hN hts'.1) step rfl
    refine ihTail ⟨hstep.compose hs.1, fun v hv => ?_⟩ hts.2 hts'.2 d hd
    exact (Substitution.mem_names_compose.1 hv).elim (hs.2 v) (hflexible v)

/-- The names that may be solved when two types are compared. -/
theorem Settles.mem_names (h : Settles rigid t t' (.ok s)) {v : String} (hv : v ∈ s.names) :
    rigid v = false ∧ (v ∈ t.freeVars ∨ v ∈ t'.freeVars ∨
      withPrimes (fun w => w ∈ t.binders ∨ w ∈ t'.binders) v) := by
  let N := withPrimes fun w => w ∈ t.binders ∨ w ∈ t'.binders
  let P := fun w => w ∈ t.freeVars ∨ w ∈ t'.freeVars ∨ N w
  have ht : t.Over P N := ⟨fun w hw => .inl hw, fun w hw => withPrimes_of_mem (.inl hw)⟩
  have ht' : t'.Over P N := ⟨fun w hw => .inr (.inl hw), fun w hw => withPrimes_of_mem (.inr hw)⟩
  obtain ⟨hover, hflexible⟩ :=
    h.over (primeClosed_withPrimes _) (fun w hw => .inr (.inr hw)) ht ht'
  exact ⟨hflexible v hv, hover.names v hv⟩

end PolyLambda.Ty
