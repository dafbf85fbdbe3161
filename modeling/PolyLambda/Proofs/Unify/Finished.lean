import PolyLambda.Proofs.Unify.Reveals

/-!
# Solutions that are filled in

Where no two quantified types are compared, unification keeps its solutions filled in: a solved
variable is replaced everywhere, so that applying the substitution once makes every variable the
same as its solution.
-/

namespace PolyLambda

namespace Substitution

/-- Whether every solved variable becomes the same as its solution, and none is left in a type. -/
structure Finished (s : Substitution) : Prop where
  equal : ∀ layer ∈ s.layers, ∀ v t, layer.get? v = some t → s.apply (.var v) = s.apply t
  eliminates : ∀ t, ∀ v ∈ (s.apply t).freeVars, v ∉ s.names

theorem finished_empty : Finished empty where
  equal _ h := absurd h List.not_mem_nil
  eliminates _ _ _ := List.not_mem_nil

theorem finished_singleton {v : String} {t : Ty} (hocc : v ∉ t.freeVars) :
    (singleton v t).Finished where
  equal layer hlayer w u hw := by
    obtain rfl := List.mem_singleton.1 hlayer
    rw [Table.get?_insert, Table.get?_empty] at hw
    split at hw
    next heq =>
      subst heq
      obtain rfl := Option.some.inj hw
      rw [Ty.apply_singleton_var, if_pos rfl, apply_eq_self]
      intro x hx hname
      rw [mem_names_singleton.1 hname] at hx
      exact hocc hx
    next => cases hw
  eliminates := eliminates_singleton hocc

/-- What is learned later is about variables that are not solved yet. -/
theorem Finished.compose {N : String → Prop} {s d : Substitution} (hs : s.Finished)
    (hd : d.Finished) (hover : d.Over (· ∉ s.names) N) : (d.compose s).Finished where
  equal layer hlayer v t hv := by
    rw [apply_compose, apply_compose]
    rcases List.mem_append.1 hlayer with hlayer | hlayer
    · rw [hs.equal layer hlayer v t hv]
    · have hname : v ∈ d.names :=
        List.mem_flatMap.2 ⟨layer, hlayer, Table.mem_names_iff.2 ⟨t, hv⟩⟩
      rw [apply_var_eq_self (hover.names v hname),
        apply_eq_self (hover.types layer hlayer v t hv).freeVars]
      exact hd.equal layer hlayer v t hv
  eliminates := Eliminates.compose (N := fun _ => False) hs.eliminates hd.eliminates hover

end Substitution

namespace Ty

variable {rigid : String → Bool} {t t' : Ty} {s : Substitution}

theorem length_binders (t : Ty) : t.binders.length = t.quantifiers := by
  induction t with
  | var v => rfl
  | arrow p r ihp ihr => rw [binders, List.length_append, ihp, ihr, quantifiers]
  | all v b ih => rw [binders, List.length_cons, ih, quantifiers]
  | data name args ih =>
    rw [binders, quantifiers]
    induction args with
    | nil => rfl
    | cons arg args ihArgs =>
      obtain ⟨harg, hargs⟩ := List.forall_mem_cons.1 ih
      rw [bindersAll, List.length_append, harg, ihArgs hargs, quantifiersAll]
  | prim name => rfl

theorem binders_eq_nil_iff : t.binders = [] ↔ t.QuantifierFree := by
  rw [QuantifierFree, ← length_binders, List.length_eq_zero_iff]

/-- Whether two types can be compared without opening quantifiers: neither has any, or one of them
is a variable to be solved. -/
def Plain (rigid : String → Bool) (t t' : Ty) : Prop :=
  (t.binders = [] ∧ t'.binders = []) ∨ (flexible? rigid t).isSome ∨ (flexible? rigid t').isSome

instance (rigid : String → Bool) (t t' : Ty) : Decidable (Plain rigid t t') :=
  inferInstanceAs (Decidable (_ ∨ _))

theorem over_of_binders_eq_nil {P : String → Prop} (h : t.binders = [])
    (hP : ∀ v ∈ t.freeVars, P v) :
    t.Over P fun _ => False := by
  refine ⟨hP, ?_⟩
  rw [h]
  exact List.forall_mem_nil _

theorem Over.binders_eq_nil {P : String → Prop} (h : t.Over P fun _ => False) : t.binders = [] :=
  List.eq_nil_iff_forall_not_mem.2 h.binders

theorem finished_of_solve {v : String} (h : solve v t = .ok s) : s.Finished := by
  rw [solve] at h
  split at h
  next => cases h
  next hocc =>
    cases h
    exact Substitution.finished_singleton fun hmem => hocc (decide_eq_true hmem)

theorem finished_of_settles (h : Settles rigid t t' (.ok s)) (ht : t.binders = [])
    (ht' : t'.binders = []) : s.Finished := by
  have hover {t : Ty} (ht : t.binders = []) : t.Over (fun _ => True) fun _ => False :=
    over_of_binders_eq_nil ht fun _ _ => trivial
  refine Settles.induct
    (fun t t' r => t.binders = [] → t'.binders = [] → ∀ s, r = .ok s → s.Finished)
    (fun s ts ts' r => s.Finished → s.Over (fun _ => True) (fun _ => False) →
      (∀ t ∈ ts, t.binders = []) → (∀ t ∈ ts', t.binders = []) → ∀ d, r = .ok d → d.Finished)
    ?same ?left ?right ?parts ?mismatch ?nil ?failed ?cons h ht ht' s rfl
  case same =>
    rintro v - - s ⟨⟩
    exact Substitution.finished_empty
  case left => exact fun v t _ _ _ _ s hs => finished_of_solve hs
  case right => exact fun v t _ _ _ _ s hs => finished_of_solve hs
  case parts =>
    intro t t' r _ _ ih ht ht'
    refine ih Substitution.finished_empty Substitution.over_empty (fun u hu => ?_) fun u hu => ?_
    · exact (over_of_mem_parts (fun _ => False.elim) (hover ht) u hu).binders_eq_nil
    · exact (over_of_mem_parts (fun _ => False.elim) (hover ht') u hu).binders_eq_nil
  case mismatch => exact fun t t' _ _ _ _ _ _ s hs => nomatch hs
  case nil =>
    rintro s ts ts' - hs - - - d ⟨⟩
    exact hs
  case failed => exact fun s t t' ts ts' e _ _ _ _ _ d hd => nomatch hd
  case cons =>
    intro s t t' ts ts' step r hstep ihHead ihTail hs hsover hts hts' d hd
    rw [List.forall_mem_cons] at hts hts'
    -- What the head is about is not solved yet, so neither is what it solves.
    have hunsolved {u : Ty} (hu : u.binders = []) :
        (s.apply u).Over (· ∉ s.names) fun _ => False :=
      ⟨hs.eliminates u, (hsover.apply primeClosed_empty (hover hu)).binders⟩
    have hstepOver := (hstep.over primeClosed_empty (fun _ => False.elim) (hunsolved hts.1)
      (hunsolved hts'.1)).1
    have hfinished := ihHead (hunsolved hts.1).binders_eq_nil (hunsolved hts'.1).binders_eq_nil step
      rfl
    refine ihTail (hs.compose hfinished hstepOver) ?_ hts.2 hts'.2 d hd
    exact (hstepOver.mono (fun _ _ => trivial) fun _ => id).compose hsover

section

variable {P : String → Prop}

theorem learned_of_solve {v : String} (h : solve v t = .ok s) (hv : P v)
    (ht : ∀ v ∈ t.freeVars, P v) :
    s.Finished ∧ s.Over P (fun _ => True) ∧ s.apply (.var v) = s.apply t := by
  have hfinished := finished_of_solve h
  rw [solve] at h
  split at h
  next => cases h
  next =>
    cases h
    refine ⟨hfinished, Substitution.over_singleton hv ⟨ht, fun _ _ => trivial⟩, ?_⟩
    refine hfinished.equal _ List.mem_cons_self v t ?_
    rw [Table.get?_insert, if_pos rfl]

/-- What is learned from a plain comparison is filled in, is about the two types, and makes them
equal. -/
theorem Settles.learned (h : Settles rigid t t' (.ok s)) (hplain : Plain rigid t t')
    (ht : ∀ v ∈ t.freeVars, P v) (ht' : ∀ v ∈ t'.freeVars, P v) :
    s.Finished ∧ s.Over P (fun _ => True) ∧ s.apply t = s.apply t' := by
  cases hflexible : flexible? rigid t with
  | some v =>
    obtain ⟨rfl, hv⟩ := flexible?_eq_some_iff.1 hflexible
    by_cases hsame : t' = .var v
    · subst hsame
      obtain rfl := Except.ok.inj (settles_same_iff.1 h)
      exact ⟨Substitution.finished_empty, Substitution.over_empty, rfl⟩
    · exact learned_of_solve ((settles_left_iff hv hsame).1 h).symm (ht v List.mem_cons_self) ht'
  | none =>
    cases hflexible' : flexible? rigid t' with
    | some v =>
      obtain ⟨rfl, hv⟩ := flexible?_eq_some_iff.1 hflexible'
      obtain ⟨hfinished, hover, heq⟩ :=
        learned_of_solve ((settles_right_iff hv hflexible).1 h).symm (ht' v List.mem_cons_self) ht
      exact ⟨hfinished, hover, heq.symm⟩
    | none =>
      rw [Plain, hflexible, hflexible'] at hplain
      obtain ⟨hnone, hnone'⟩ := hplain.resolve_right (by simp)
      have hover := (h.over primeClosed_empty (fun _ => False.elim)
        (over_of_binders_eq_nil hnone ht) (over_of_binders_eq_nil hnone' ht')).1
      have hanswers : MostGeneral rigid [(t, t')] s :=
        h.answers (binders_eq_nil_iff.1 hnone) (binders_eq_nil_iff.1 hnone')
      exact ⟨finished_of_settles h hnone hnone', hover.mono (fun _ => id) fun _ => False.elim,
        solves_singleton_iff.1 hanswers.solves⟩

end

end Ty

end PolyLambda
