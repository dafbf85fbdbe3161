import Mathlib.Logic.Relation
import PolyLambda.Proofs.Unify.MostGeneral
import PolyLambda.Proofs.Unify.Solved

/-!
# What comes out of solutions

Where quantifiers are opened, the names that they bind may be solved like others, and then a type
may mention a solved variable still when all that is known has been filled in once. Filling in again
and again, one gets from a variable to all that it may turn out to mention (`Substitution.Reveals`).

Only names that quantifiers bind can be left over in this way: every other variable is gone from a
type when it has been filled in (`Settles.eliminates`).
-/

namespace PolyLambda

namespace Substitution

/-- The variables that a substitution solves or that a solution mentions. -/
def mentioned (s : Substitution) : List String :=
  s.names ++ s.layers.flatMap fun layer => layer.values.flatMap Ty.freeVars

/-- Whether `x` comes out when what is known of `w` is filled in, once or more often. -/
def Reveals (s : Substitution) (w x : String) : Prop :=
  Relation.ReflTransGen (fun w u => u ∈ (s.apply (.var w)).freeVars) w x

/-- Whether no solved variable is left in a type that has been filled in, apart from names in
`N`. -/
def Eliminates (N : String → Prop) (s : Substitution) : Prop :=
  ∀ t, ∀ v ∈ (s.apply t).freeVars, v ∈ s.names → N v

section

variable {P S N : String → Prop} {s d : Substitution} {w x : String}

theorem mem_mentioned_of_mem_names {v : String} (h : v ∈ s.names) : v ∈ s.mentioned :=
  List.mem_append_left _ h

theorem mem_mentioned_of_get? {layer : Layer} (hlayer : layer ∈ s.layers) {v u : String} {t : Ty}
    (ht : layer.get? v = some t) (hu : u ∈ t.freeVars) : u ∈ s.mentioned := by
  refine List.mem_append_right _ (List.mem_flatMap.2 ⟨layer, hlayer, ?_⟩)
  exact List.mem_flatMap.2 ⟨t, Table.mem_values_iff.2 ⟨v, ht⟩, hu⟩

theorem Over.of_not_mem_mentioned (h : s.Over P N) (hx : x ∉ s.mentioned) :
    s.Over (fun v => P v ∧ v ≠ x) N where
  names v hv := by
    refine ⟨h.names v hv, ?_⟩
    rintro rfl
    exact hx (mem_mentioned_of_mem_names hv)
  types layer hlayer v t ht := by
    refine ⟨fun u hu => ⟨(h.types layer hlayer v t ht).freeVars u hu, ?_⟩,
      (h.types layer hlayer v t ht).binders⟩
    rintro rfl
    exact hx (mem_mentioned_of_get? hlayer ht hu)

theorem reveals_self (s : Substitution) (x : String) : s.Reveals x x :=
  .refl

/-- A set of variables that stand for types over the set reveals nothing outside of it. -/
theorem Reveals.mem (h : s.Reveals w x) (hw : S w)
    (hS : ∀ v, S v → ∀ u ∈ (s.apply (.var v)).freeVars, S u) : S x := by
  induction h with
  | refl => exact hw
  | tail _ hstep ih => exact hS _ ih _ hstep

theorem Reveals.eq_of_not_mem (h : s.Reveals w x) (hw : w ∉ s.names) : x = w := by
  refine h.mem (S := (· = w)) rfl ?_
  rintro _ rfl u hu
  rw [apply_var_eq_self hw] at hu
  exact List.mem_singleton.1 hu

/-- What a variable stands for brings out nothing more where no solved variable is left in it. -/
theorem not_reveals (hne : w ≠ x)
    (h : ∀ u ∈ (s.apply (.var w)).freeVars, u ∉ s.names ∧ u ≠ x) : ¬ s.Reveals w x := by
  intro hreveals
  rcases hreveals.cases_head with heq | ⟨u, hu, hrest⟩
  · exact hne heq
  · exact (h u hu).2 (Reveals.eq_of_not_mem hrest (h u hu).1).symm

theorem eliminates_empty : Eliminates N empty :=
  fun _ _ _ h => absurd h List.not_mem_nil

theorem eliminates_singleton {v : String} {t : Ty} (hocc : v ∉ t.freeVars) :
    (singleton v t).Eliminates N := by
  intro u w hw hname
  obtain rfl := mem_names_singleton.1 hname
  obtain ⟨y, -, hw⟩ := (mem_freeVars_apply _ _ _).1 hw
  rw [Ty.apply_singleton_var] at hw
  split at hw
  next => exact absurd hw hocc
  next hne => exact absurd (List.mem_singleton.1 hw).symm hne

/-- What is learned later is about variables that are not solved yet, or names that may be left
over. -/
theorem Eliminates.compose (hs : s.Eliminates N) (hd : d.Eliminates N)
    (hover : d.Over (fun v => v ∈ s.names → N v) S) : (d.compose s).Eliminates N := by
  intro t v hv hname
  rw [apply_compose] at hv
  rcases mem_names_compose.1 hname with hname | hname
  · obtain ⟨w, hw, hv⟩ := (mem_freeVars_apply _ _ v).1 hv
    have hvar : (Ty.var w).Over (fun v => v ∈ s.names → N v) fun _ => True :=
      Ty.over_var_iff.2 (hs t w hw)
    have hfilled := (hover.mono (fun _ => id) fun _ _ => trivial).apply (fun _ _ _ => trivial) hvar
    exact hfilled.freeVars v hv hname
  · exact hd _ v hv hname

end

end Substitution

namespace Ty

variable {rigid : String → Bool} {P N : String → Prop} {t t' : Ty} {s : Substitution}

theorem eliminates_of_solve {v : String} (h : solve v t = .ok s) : s.Eliminates N := by
  rw [solve] at h
  split at h
  next => cases h
  next hocc =>
    cases h
    exact Substitution.eliminates_singleton fun hmem => hocc (decide_eq_true hmem)

/-- A solution leaves over only names that quantifiers may bind. -/
theorem Settles.eliminates (hN : PrimeClosed N) (h : Settles rigid t t' (.ok s))
    (ht : ∀ v ∈ t.binders, N v) (ht' : ∀ v ∈ t'.binders, N v) : s.Eliminates N := by
  have hany {t : Ty} (ht : ∀ v ∈ t.binders, N v) : t.Over (fun _ => True) N :=
    ⟨fun _ _ => trivial, ht⟩
  have hparts {t : Ty} (ht : ∀ v ∈ t.binders, N v) : ∀ u ∈ t.parts, ∀ v ∈ u.binders, N v :=
    fun u hu => (over_of_mem_parts (fun _ _ => trivial) (hany ht) u hu).binders
  refine Settles.induct
    (fun t t' r => (∀ v ∈ t.binders, N v) → (∀ v ∈ t'.binders, N v) → ∀ s, r = .ok s →
      s.Eliminates N)
    (fun s ts ts' r => s.Eliminates N → s.Over (fun _ => True) N →
      (∀ t ∈ ts, ∀ v ∈ t.binders, N v) → (∀ t ∈ ts', ∀ v ∈ t.binders, N v) → ∀ d, r = .ok d →
      d.Eliminates N)
    ?same ?left ?right ?parts ?mismatch ?nil ?failed ?cons h ht ht' s rfl
  case same =>
    rintro v - - s ⟨⟩
    exact Substitution.eliminates_empty
  case left => exact fun v t _ _ _ _ s hs => eliminates_of_solve hs
  case right => exact fun v t _ _ _ _ s hs => eliminates_of_solve hs
  case parts =>
    intro t t' r _ _ ih ht ht'
    exact ih Substitution.eliminates_empty Substitution.over_empty (hparts ht) (hparts ht')
  case mismatch =>
    intro t t' _ _ _ _ _ _ s hs
    cases hs
  case nil =>
    rintro s ts ts' - hs - - - d ⟨⟩
    exact hs
  case failed =>
    intro s t t' ts ts' e _ _ _ _ _ d hd
    cases hd
  case cons =>
    intro s t t' ts ts' step r hstep ihHead ihTail hs hsover hts hts' d hd
    rw [List.forall_mem_cons] at hts hts'
    -- What is left of the solved variables in the head are such names, so those are all it is
    -- about.
    have hfilled {u : Ty} (hu : ∀ v ∈ u.binders, N v) :
        (s.apply u).Over (fun v => v ∈ s.names → N v) N :=
      ⟨hs u, (hsover.apply hN (hany hu)).binders⟩
    have hstepOver :=
      (hstep.over hN (P := fun v => v ∈ s.names → N v) (fun _ hv _ => hv) (hfilled hts.1)
      (hfilled hts'.1)).1
    have hstepEliminates := ihHead (hfilled hts.1).binders (hfilled hts'.1).binders step rfl
    refine ihTail (hs.compose hstepEliminates hstepOver) ?_ hts.2 hts'.2 d hd
    exact (hstepOver.mono (fun _ _ => trivial) fun _ => id).compose hsover

end Ty

end PolyLambda
