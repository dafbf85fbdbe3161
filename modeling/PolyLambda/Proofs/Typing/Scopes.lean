import PolyLambda.Proofs.Module.FreeTypeVars
import PolyLambda.Proofs.Typing.Names
import PolyLambda.Proofs.Unify.Reveals

/-!
# The scope of a type variable

There are two ways for a type variable to get out of its scope. When two quantified types are
compared, their quantifiers are opened without renaming, and then something may be learned about the
names that they bind (`Checker.Opens`). And a meta may come to stand for a type with any variable
that is in scope where it is solved, also if it was made outside of the type abstraction of that
variable; the checker does not look out for that (`Checker.Exposes`). There is no other way. A task
that neither happens to keeps one and the same variable `x` in its scope
(`Checker.verified_scopes`), whatever becomes of the others.

The invariant is relative to the variables in scope: where `x` is not one of them, none of the types
around a task brings it out, however often all that is known is filled in. Inside a type abstraction
of `x` nothing is asked for, and where it is left what was there before has to be as it was.
-/

namespace PolyLambda

namespace Checker

/-! ## Types of what is in scope -/

section

variable (N : String → Prop) (x : String) (vars : List String) (c : Checker)

/-- Whether `w` is a known name, and does not bring out `x` where `x` is none of the variables
`vars` and no meta that was handed out. -/
structure Fits (w : String) : Prop where
  known : Known N c.nextMeta w
  hides : c.subst.Reveals w x → Known (· ∈ vars) c.nextMeta x

/-- Whether the variables of a type do not bring out `x`. -/
def Within (t : Ty) : Prop :=
  t.Over (Fits N x vars c) N

/-- Whether, besides, all that is known is filled in, but for names that are written. -/
def Clear (t : Ty) : Prop :=
  t.Over (fun w => Fits N x vars c w ∧ (w ∈ c.subst.names → N w)) N

/-- Whether what is learned is about known names, and is filled in but for names that are written;
and `x` is not solved, unless it is a meta that was handed out. -/
structure Stable : Prop where
  subst : c.subst.Over (Known N c.nextMeta) N
  eliminates : c.subst.Eliminates N
  solved : x ∈ c.subst.names → ∃ i < c.nextMeta, x = metaName i

/-- Whether, besides, no name that is written brings out `x` but `x` itself. -/
structure Tidy : Prop extends Stable N x c where
  written : ∀ w, N w → w ≠ x → Fits N x vars c w

end

section

variable {N : String → Prop} {x : String} {vars vars' : List String} {c c' : Checker} {t : Ty}

theorem Fits.mono {w : String} (h : Fits N x vars c w) (hvars : ∀ v ∈ vars, v ∈ vars') :
    Fits N x vars' c w :=
  ⟨h.known, fun hreveals => (h.hides hreveals).imp_right (hvars x)⟩

/-- What is known depends on the substitution and the number of metas only. -/
theorem Fits.congr {w : String} (h : Fits N x vars c w) (hsubst : c'.subst = c.subst)
    (hnext : c.nextMeta ≤ c'.nextMeta) : Fits N x vars c' w :=
  ⟨h.known.mono hnext, fun hreveals => (h.hides (hsubst ▸ hreveals)).mono hnext⟩

theorem Clear.within (h : Clear N x vars c t) : Within N x vars c t :=
  Ty.Over.mono h (fun _ => And.left) fun _ => id

theorem Within.mono (h : Within N x vars c t) (hvars : ∀ v ∈ vars, v ∈ vars') :
    Within N x vars' c t :=
  Ty.Over.mono h (fun _ hw => hw.mono hvars) fun _ => id

theorem Within.congr (h : Within N x vars c t) (hsubst : c'.subst = c.subst)
    (hnext : c.nextMeta ≤ c'.nextMeta) : Within N x vars c' t :=
  Ty.Over.mono h (fun _ hw => hw.congr hsubst hnext) fun _ => id

theorem clear_of_closed (h : t.freeVars = []) (hbinders : ∀ v ∈ t.binders, N v) :
    Clear N x vars c t :=
  ⟨by rw [h]; exact List.forall_mem_nil _, hbinders⟩

/-- What comes out of a type that is filled in comes out of the type. -/
theorem Within.resolved (hN : PrimeClosed N) (hc : Stable N x c) (h : Within N x vars c t) :
    Clear N x vars c (c.resolved t) := by
  have hhandled : Handled N c.nextMeta (c.resolved t) :=
    hc.subst.apply hN (Ty.Over.mono h (fun _ => Fits.known) fun _ => id)
  refine ⟨fun w hw => ⟨⟨hhandled.freeVars w hw, fun hreveals => ?_⟩, hc.eliminates t w hw⟩,
    hhandled.binders⟩
  obtain ⟨u, hu, hstep⟩ := (Substitution.mem_freeVars_apply _ _ w).1 hw
  exact (h.freeVars u hu).hides (.head hstep hreveals)

/-- The parts of a function type that a type turns out to be. -/
theorem Within.of_arrow (hN : PrimeClosed N) (hc : Stable N x c) {p r : Ty}
    (h : Within N x vars c t) (he : c.resolved t = .arrow p r) :
    Within N x vars c p ∧ Within N x vars c r := by
  have hclear := (h.resolved hN hc).within
  rw [he] at hclear
  exact Ty.over_arrow_iff.1 hclear

/-- A type that is written where `vars` are in scope. -/
theorem Tidy.clear_of_written (hc : Tidy N x vars c) (ht : ∀ v ∈ t.names, N v)
    (hfree : ∀ v ∈ t.freeVars, v ∈ vars) : Clear N x vars c t := by
  have hover := Ty.over_iff_names.2 ht
  refine ⟨fun w hw => ⟨?_, fun _ => hover.freeVars w hw⟩, hover.binders⟩
  by_cases heq : w = x
  · subst heq
    exact ⟨.inr (hover.freeVars w hw), fun _ => .inr (hfree w hw)⟩
  · exact hc.written w (hover.freeVars w hw) heq

/-- A new meta brings out nothing but itself, if it is not a name that is written. -/
theorem Tidy.clear_metaName (hc : Tidy N x vars c) {i : Nat} (hle : c.nextMeta ≤ i)
    (hlt : i < c'.nextMeta) (hsubst : c'.subst = c.subst) :
    Clear N x vars c' (.var (metaName i)) := by
  have hnew : metaName i ∈ c.subst.names → N (metaName i) := by
    intro hmem
    refine (hc.subst.names _ hmem).resolve_left ?_
    rintro ⟨j, hj, heq⟩
    have := metaName_injective heq
    omega
  refine Ty.over_var_iff.2 ⟨⟨known_metaName hlt, fun hreveals => ?_⟩, hsubst ▸ hnew⟩
  by_cases heq : metaName i = x
  · exact .inl ⟨i, hlt, heq.symm⟩
  · rw [hsubst] at hreveals
    by_cases hmem : metaName i ∈ c.subst.names
    · exact ((hc.written _ (hnew hmem) heq).hides hreveals).mono (Nat.le_of_lt (by omega))
    · exact absurd (hreveals.eq_of_not_mem hmem).symm heq

/-- The type that is expected of the body of a type abstraction. -/
theorem Tidy.within_underBinder (hN : PrimeClosed N) (hc : Tidy N x vars c) {v w : String}
    (hv : N v) (h : Within N x vars c (.all w t)) :
    Within N x (v :: vars) c (underBinder v w t) := by
  obtain ⟨hw, ht⟩ := Ty.over_all_iff.1 h
  have hbound : Fits N x (v :: vars) c v := by
    by_cases heq : v = x
    · exact ⟨.inr hv, fun _ => .inr (heq ▸ List.mem_cons_self)⟩
    · exact (hc.written v hv heq).mono fun _ => List.mem_cons_of_mem v
  have ht : t.Over (fun u => Fits N x (v :: vars) c u ∨ u = w) N :=
    ht.mono (fun u hu => hu.imp_left fun hu => hu.mono fun _ => List.mem_cons_of_mem v) fun _ => id
  rw [underBinder]
  split
  next heq => exact ht.mono (fun u hu => hu.elim id fun h => h ▸ heq ▸ hbound) fun _ => id
  next => exact ht.substitute hN (Ty.over_var_iff.2 hbound)

end

/-! ## Going on -/

section

variable (N : String → Prop) (x : String) (vars : List String)

/-- Whether a checker has gone on from `c` to `c'` without bringing out `x` where it is not in
scope. -/
structure Extends (c c' : Checker) : Prop where
  nextMeta : c.nextMeta ≤ c'.nextMeta
  stable : Stable N x c'
  fits : ∀ w, Fits N x vars c w → Fits N x vars c' w

end

/-- Whether the comparison of two types opens a quantifier of `x`: it is in scope nowhere around and
free in neither type, and still something is learned about it. -/
def Opens (x : String) (ctx : Context) (left right : Ty) (c : Checker) : Prop :=
  x ∉ ctx.typeVars ∧ x ∉ (c.resolved left).freeVars ∧ x ∉ (c.resolved right).freeVars ∧
    ∃ s, Ty.Settles ctx.hasTypeVar (c.resolved left) (c.resolved right) (.ok s) ∧ x ∈ s.mentioned

section

variable {N : String → Prop} {x : String} {vars : List String} {c c₁ c' : Checker} {t : Ty}

theorem Extends.within (h : Extends N x vars c c') (ht : Within N x vars c t) :
    Within N x vars c' t :=
  Ty.Over.mono ht h.fits fun _ => id

theorem Extends.tidy (h : Extends N x vars c c') (hc : Tidy N x vars c) : Tidy N x vars c' :=
  ⟨h.stable, fun w hw hne => h.fits w (hc.written w hw hne)⟩

theorem Stable.extends (h : Stable N x c) : Extends N x vars c c :=
  ⟨Nat.le_refl _, h, fun _ => id⟩

theorem Extends.trans (h : Extends N x vars c c₁) (h' : Extends N x vars c₁ c') :
    Extends N x vars c c' :=
  ⟨Nat.le_trans h.nextMeta h'.nextMeta, h'.stable, fun w hw => h'.fits w (h.fits w hw)⟩

/-- More metas, and other types of globals. -/
theorem Stable.extends_of_subst_eq (h : Stable N x c) (hsubst : c'.subst = c.subst)
    (hnext : c.nextMeta ≤ c'.nextMeta) : Extends N x vars c c' where
  nextMeta := hnext
  stable := by
    constructor
    all_goals rw [hsubst]
    · exact h.subst.mono (fun _ => Known.mono hnext) fun _ => id
    · exact h.eliminates
    · exact fun hname => (h.solved hname).imp fun _ hi => hi.imp_left (Nat.lt_of_lt_of_le · hnext)
  fits _ hw := hw.congr hsubst hnext

theorem Clear.not_mem_freeVars (h : Clear N x vars c t)
    (hscope : ¬ Known (· ∈ vars) c.nextMeta x) : x ∉ t.freeVars :=
  fun hmem => hscope ((h.freeVars x hmem).1.hides (Substitution.reveals_self _ _))

section

variable {ctx : Context} {left right : Ty} {s : Substitution}
  (hleft : Clear N x ctx.typeVars c (c.resolved left))
  (hright : Clear N x ctx.typeVars c (c.resolved right))
  (hs : Ty.Settles ctx.hasTypeVar (c.resolved left) (c.resolved right) (.ok s))

include hleft hright hs

/-- A comparison of types that do not bring out `x` teaches nothing about it where it is not in
scope, unless it opens a quantifier of it. -/
theorem not_mem_mentioned (hshut : ¬ Opens x ctx left right c)
    (hscope : ¬ Known (· ∈ ctx.typeVars) c.nextMeta x) : x ∉ s.mentioned :=
  fun hmentioned => hshut ⟨fun hmem => hscope (.inr hmem), hleft.not_mem_freeVars hscope,
    hright.not_mem_freeVars hscope, s, hs, hmentioned⟩

theorem Stable.unify (hN : PrimeClosed N) (hc : Stable N x c) (hshut : ¬ Opens x ctx left right c) :
    Stable N x { c with subst := s.compose c.subst } := by
  have hknown := hs.over hN (P := Known N c.nextMeta) (fun _ => .inr)
    (hleft.mono (fun _ hw => hw.1.known) fun _ => id)
    (hright.mono (fun _ hw => hw.1.known) fun _ => id)
  have hover := hs.over hN (P := fun w => w ∈ c.subst.names → N w) (fun _ hw _ => hw)
    (hleft.mono (fun _ => And.right) fun _ => id) (hright.mono (fun _ => And.right) fun _ => id)
  have heliminates := hs.eliminates hN hleft.binders hright.binders
  refine ⟨hknown.1.compose hc.subst, hc.eliminates.compose heliminates hover.1, fun hname => ?_⟩
  rcases Substitution.mem_names_compose.1 hname with hname | hname
  · exact hc.solved hname
  · have hflexible := Context.hasTypeVar_eq_false_iff.1 (hknown.2 x hname)
    by_contra hmeta
    refine not_mem_mentioned hleft hright hs hshut (fun hscope => ?_)
      (Substitution.mem_mentioned_of_mem_names hname)
    exact hscope.elim hmeta hflexible

/-- What is learned is about variables that do not bring out `x` where it is not in scope. -/
theorem Tidy.over_unify (hN : PrimeClosed N) (hc : Tidy N x ctx.typeVars c)
    (hsilent : x ∉ s.mentioned) : s.Over (Fits N x ctx.typeVars c) N := by
  have hover := (hs.over hN (P := fun w => Fits N x ctx.typeVars c w ∨ N w) (fun _ => .inr)
    (hleft.mono (fun _ hw => .inl hw.1) fun _ => id)
    (hright.mono (fun _ hw => .inl hw.1) fun _ => id)).1
  exact (hover.of_not_mem_mentioned hsilent).mono
    (fun u hu => hu.1.elim id fun hwritten => hc.written u hwritten hu.2) fun _ => id

end

/-- A comparison of types that do not bring out `x` goes on without bringing it out, unless it opens
a quantifier of it. -/
theorem Tidy.extends_unify (hN : PrimeClosed N) {ctx : Context} {left right : Ty} {s : Substitution}
    (hc : Tidy N x ctx.typeVars c) (hleft : Within N x ctx.typeVars c left)
    (hright : Within N x ctx.typeVars c right) (hshut : ¬ Opens x ctx left right c)
    (hs : Ty.Settles ctx.hasTypeVar (c.resolved left) (c.resolved right) (.ok s)) :
    Extends N x ctx.typeVars c { c with subst := s.compose c.subst } := by
  have hleft' := hleft.resolved hN hc.toStable
  have hright' := hright.resolved hN hc.toStable
  refine ⟨Nat.le_refl _, hc.toStable.unify hleft' hright' hs hN hshut, fun w hw => ?_⟩
  refine ⟨hw.known, fun hreveals => ?_⟩
  by_contra hscope
  have hover := hc.over_unify hleft' hright' hs hN
    (not_mem_mentioned hleft' hright' hs hshut hscope)
  have hfits : Fits N x ctx.typeVars c x := by
    refine hreveals.mem hw fun u hu => ?_
    have hvar : Within N x ctx.typeVars c (.var u) := Ty.over_var_iff.2 hu
    rw [Substitution.apply_compose]
    exact (hover.apply hN (hvar.resolved hN hc.toStable).within).freeVars
  exact hscope (hfits.hides (Substitution.reveals_self _ _))

/-- Where the type abstraction of `v` is left, what was there before brings out `x` no more than it
did before. -/
theorem Extends.leave {v : String} (h : Extends N x (v :: vars) c c')
    (hkept : v = x → x ∉ vars → ∀ w, Known N c.nextMeta w → c'.subst.Reveals w x →
      c.subst.Reveals w x) : Extends N x vars c c' := by
  refine ⟨h.nextMeta, h.stable, fun w hw => ?_⟩
  have hinner := h.fits w (hw.mono fun _ => List.mem_cons_of_mem v)
  refine ⟨hinner.known, fun hreveals => ?_⟩
  rcases hinner.hides hreveals with hmeta | hmem
  · exact .inl hmeta
  · rcases List.mem_cons.1 hmem with heq | hmem
    · by_cases hscope : x ∈ vars
      · exact .inr hscope
      · exact (hw.hides (hkept heq.symm hscope w hw.known hreveals)).mono h.nextMeta
    · exact .inr hmem

/-- The quantifier binds the variable, so the whole type does not bring it out. -/
theorem Extends.clear_all {v : String} (h : Extends N x vars c c') (hc : Tidy N x vars c) (hv : N v)
    (ht : Clear N x (v :: vars) c' t) : Clear N x vars c' (.all v t) := by
  refine Ty.over_all_iff.2 ⟨hv, ht.mono (fun w hw => or_iff_not_imp_right.2 fun hne => ?_)
    fun _ => id⟩
  obtain ⟨hfits, hleft⟩ := hw
  refine ⟨⟨hfits.known, fun hreveals => ?_⟩, hleft⟩
  rcases hfits.hides hreveals with hmeta | hmem
  · exact .inl hmeta
  · rcases List.mem_cons.1 hmem with rfl | hmem
    · by_cases hname : w ∈ c'.subst.names
      · exact ((h.tidy hc).written w (hleft hname) hne).hides hreveals
      · exact absurd (hreveals.eq_of_not_mem hname).symm hne
    · exact .inr hmem

end

/-! ## What a task is called with, and what it gives -/

section

variable (sig : Signature) (N : String → Prop) (x : String)

/-- Whether a unification in a task makes `w` bring out `x`. -/
def Exposes (w : String) (task : Task) (c : Checker) : Prop :=
  ∃ ctx left right c₁ c₂, Reaches sig task c (.unify ctx left right) c₁ ∧
    Returns sig (.unify ctx left right) c₁ () c₂ ∧ ¬ c₁.subst.Reveals w x ∧ c₂.subst.Reveals w x

/-- Whether a task is about a type abstraction of `x`, and the other one about what is in its
scope. -/
inductive Abstracts (ctx : Context) (c : Checker) : Task → Task → Prop where
  | infer (body : Term) :
    Abstracts ctx c (.infer ctx (.tlam x body)) (.infer (ctx.extendType x) body)
  | check (body : Term) {expected result : Ty} {v : String}
    (h : c.resolved expected = .all v result) :
    Abstracts ctx c (.check ctx (.tlam x body) expected)
      (.check (ctx.extendType x) body (underBinder x v result))

/-- Whether a task is about known names and does not let `x` out of its scope: if it is a
comparison, no quantifier of `x` is opened, and if it is about a type abstraction of `x`, nothing in
its scope makes a variable bring out `x` that was known before. -/
structure Task.Confined (task : Task) (c : Checker) : Prop where
  starts : task.Starts sig N c
  shut : ∀ ctx left right, task = .unify ctx left right → ¬ Opens x ctx left right c
  kept : ∀ ctx body, Abstracts x ctx c task body → x ∉ ctx.typeVars →
    ∀ w, Known N c.nextMeta w → ¬ Exposes sig x w body c

end

section

variable (N : String → Prop) (x : String)

/-- Whether a checker has gone on within a definition. -/
structure Stays (vars : List String) (c c' : Checker) : Prop extends Extends N x vars c c' where
  globals : c'.globals = c.globals

/-- Whether nothing that is around a term brings out `x` where it is not in scope. -/
structure Encloses (ctx : Context) (c : Checker) : Prop where
  tidy : Tidy N x ctx.typeVars c
  locals : ∀ u ∈ ctx.terms, Within N x ctx.typeVars c u
  globals : c.globals.All (Within N x ctx.typeVars c)

/-- Whether a task is about types and terms within its scope. -/
def Task.Scoped : Task → Checker → Prop
  | infer ctx t, c | inferTypeFunction ctx t, c =>
    Encloses N x ctx c ∧ ∀ v ∈ t.freeTypeVars, v ∈ ctx.typeVars
  | check ctx t expected, c =>
    Encloses N x ctx c ∧ (∀ v ∈ t.freeTypeVars, v ∈ ctx.typeVars) ∧
      Within N x ctx.typeVars c expected
  | checkArgs ctx args fields, c =>
    Encloses N x ctx c ∧ (∀ v ∈ Term.freeTypeVarsAll args, v ∈ ctx.typeVars) ∧
      ∀ t ∈ fields, Within N x ctx.typeVars c t
  | inferArgs ctx args, c =>
    Encloses N x ctx c ∧ ∀ v ∈ Term.freeTypeVarsAll args, v ∈ ctx.typeVars
  | inferBranches ctx scrutinee previous branches, c =>
    Encloses N x ctx c ∧ Within N x ctx.typeVars c scrutinee ∧
      (∀ t ∈ previous, Clear N x ctx.typeVars c t) ∧
      ∀ v ∈ Term.freeTypeVarsBranches branches, v ∈ ctx.typeVars
  | unify ctx left right, c =>
    Tidy N x ctx.typeVars c ∧ Within N x ctx.typeVars c left ∧ Within N x ctx.typeVars c right
  | checkDefinition d, c => Encloses N x .empty c ∧ d.TypeClosed
  | checkDefinitions types ds, c =>
    Encloses N x .empty c ∧ types.All (Within N x [] c) ∧ ∀ d ∈ ds, d.TypeClosed

/-- Whether a task has brought `x` nowhere out of its scope. -/
def Task.Leaves : (task : Task) → Checker → task.Result → Checker → Prop
  | infer ctx _, c, t, c' | inferTypeFunction ctx _, c, t, c' | inferBranches ctx _ _ _, c, t, c' =>
    Stays N x ctx.typeVars c c' ∧ Clear N x ctx.typeVars c' t
  | check ctx _ _, c, _, c' | checkArgs ctx _ _, c, _, c' | inferArgs ctx _, c, _, c'
  | unify ctx _ _, c, _, c' => Stays N x ctx.typeVars c c'
  | checkDefinition _, c, t, c' =>
    Extends N x [] c c' ∧ c'.globals.All (Within N x [] c') ∧ Within N x [] c' t
  | checkDefinitions _ _, c, types, c' =>
    Extends N x [] c c' ∧ c'.globals.All (Within N x [] c') ∧ types.All (Within N x [] c')

/-- Whether a plan keeps `x` in its scope if what it calls does. -/
abbrev KeepsScope (sig : Signature) {α : Type} (p : Plan α) (Q : α → Checker → Prop)
    (c : Checker) : Prop :=
  p.Meets sig (Task.Confined sig N x) (Task.Scoped N x) (Task.Leaves N x) Q c

end

section

variable {N : String → Prop} {x : String} {ctx : Context} {vars : List String}
  {c c₁ c' : Checker}

theorem Task.Scoped.stable {task : Task} (h : task.Scoped N x c) : Stable N x c := by
  cases task with
  | unify => exact h.1.toStable
  | _ => exact h.1.tidy.toStable

theorem Task.Leaves.stable {task : Task} {a : task.Result} (h : task.Leaves N x c a c') :
    Stable N x c' := by
  cases task with
  | infer | inferTypeFunction | inferBranches => exact h.1.stable
  | checkDefinition | checkDefinitions => exact h.1.stable
  | _ => exact Extends.stable (Stays.toExtends h)

/-- Nothing brings out `x` after a task that did not before, if no unification in it does so. -/
theorem reveals_of_returns {sig : Signature} {w : String} {task : Task} {a : task.Result}
    (h : ¬ Exposes sig x w task c) (hreturns : Returns sig task c a c')
    (hreveals : c'.subst.Reveals w x) : c.subst.Reveals w x := by
  by_contra hnot
  refine hreturns.subst_induct (I := fun s => ¬ s.Reveals w x) ?_ hnot hreveals
  intro ctx left right c₁ c₂ hreach hbefore hunify hafter
  exact h ⟨ctx, left, right, c₁, c₂, hreach, hunify, hbefore, hafter⟩

theorem Stable.stays (h : Stable N x c) : Stays N x vars c c :=
  ⟨h.extends, rfl⟩

theorem Stays.trans (h : Stays N x vars c c₁) (h' : Stays N x vars c₁ c') : Stays N x vars c c' :=
  ⟨h.toExtends.trans h'.toExtends, h'.globals.trans h.globals⟩

theorem Stays.within_all (h : Stays N x vars c c') {ts : List Ty}
    (hts : ∀ t ∈ ts, Within N x vars c t) : ∀ t ∈ ts, Within N x vars c' t :=
  fun t ht => h.within (hts t ht)

/-- What encloses a term does so still when something is learned. -/
theorem Encloses.stays (h : Encloses N x ctx c) (hstays : Stays N x ctx.typeVars c c') :
    Encloses N x ctx c' where
  tidy := hstays.tidy h.tidy
  locals u hu := hstays.within (h.locals u hu)
  globals := by
    rw [hstays.globals]
    exact fun name t ht => hstays.within (h.globals name t ht)

theorem Encloses.extend (h : Encloses N x ctx c) {t : Ty} (ht : Within N x ctx.typeVars c t) :
    Encloses N x (ctx.extend t) c where
  tidy := h.tidy
  locals := List.forall_mem_cons.2 ⟨ht, h.locals⟩
  globals := h.globals

theorem Encloses.extendAll (h : Encloses N x ctx c) {ts : List Ty}
    (hts : ∀ t ∈ ts, Within N x ctx.typeVars c t) : Encloses N x (ctx.extendAll ts) c where
  tidy := h.tidy
  locals := List.forall_mem_append.2 ⟨hts, h.locals⟩
  globals := h.globals

theorem Encloses.extendType (h : Encloses N x ctx c) (v : String) :
    Encloses N x (ctx.extendType v) c where
  tidy := ⟨h.tidy.toStable, fun w hw hne =>
    (h.tidy.written w hw hne).mono fun _ => List.mem_cons_of_mem v⟩
  locals u hu := (h.locals u hu).mono fun _ => List.mem_cons_of_mem v
  globals name t ht := (h.globals name t ht).mono fun _ => List.mem_cons_of_mem v

theorem freeTypeVars_of_tlam {v : String} {body : Term}
    (h : ∀ w ∈ (Term.tlam v body).freeTypeVars, w ∈ ctx.typeVars) :
    ∀ w ∈ body.freeTypeVars, w ∈ (ctx.extendType v).typeVars := by
  intro w hw
  by_cases hne : w = v
  · exact List.mem_cons.2 (.inl hne)
  · exact List.mem_cons_of_mem v (h w (List.mem_filter.2 ⟨hw, decide_eq_true hne⟩))

theorem mem_freeVars_instanceFrom {m n : Nat} {t : Ty} {v : String}
    (hv : v ∈ (instanceFrom m n t).freeVars) :
    v ∈ t.freeVars ∨ ∃ i, m ≤ i ∧ i < m + n ∧ v = metaName i := by
  induction n generalizing m t with
  | zero => cases t <;> exact .inl hv
  | succ n ih =>
    cases t with
    | all w b =>
      rcases ih hv with hv | ⟨i, hle, hlt, rfl⟩
      · rcases (Ty.mem_freeVars_substitute b w _ v).1 hv with ⟨hv, hne⟩ | ⟨-, hv⟩
        · exact .inl (List.mem_filter.2 ⟨hv, decide_eq_true hne⟩)
        · exact .inr ⟨m, Nat.le_refl m, by omega, List.mem_singleton.1 hv⟩
      · exact .inr ⟨i, by omega, by omega, rfl⟩
    | _ => exact .inl hv

end

/-! ## Every task keeps the variable in its scope -/

section

variable {sig : Signature} {N : String → Prop} {x : String} {ctx : Context} {c c' : Checker}

theorem keepsScope_call {task : Task} {Q : task.Result → Checker → Prop}
    (htask : task.Scoped N x c) (hQ : ∀ a c', task.Leaves N x c a c' → Q a c') :
    KeepsScope N x sig task.call Q c :=
  meets_call.2 fun _ => ⟨htask, fun a c' _ h => hQ a c' h⟩

theorem keepsScope_freshMeta {Q : Ty → Checker → Prop} (hc : Encloses N x ctx c)
    (hQ : ∀ t c', Stays N x ctx.typeVars c c' → Clear N x ctx.typeVars c' t → Q t c') :
    KeepsScope N x sig (Plan.ofCheck freshMeta) Q c :=
  meets_freshMeta.2 (hQ _ _ ⟨hc.tidy.extends_of_subst_eq rfl (Nat.le_succ _), rfl⟩
    (hc.tidy.clear_metaName (Nat.le_refl _) (Nat.lt_succ_self _) rfl))

theorem keepsScope_asArrow {t : Ty} {Q : Ty × Ty → Checker → Prop} (hc : Encloses N x ctx c)
    (ht : Clear N x ctx.typeVars c t)
    (hQ : ∀ param result c', Stays N x ctx.typeVars c c' → Within N x ctx.typeVars c' param →
      Within N x ctx.typeVars c' result → Q (param, result) c') :
    KeepsScope N x sig (asArrowPlan ctx t) Q c := by
  have hmetas : Stays N x ctx.typeVars c { c with nextMeta := c.nextMeta + 2 } :=
    ⟨hc.tidy.extends_of_subst_eq rfl (Nat.le_add_right _ _), rfl⟩
  have hmeta (i : Nat) (hle : c.nextMeta ≤ i) (hlt : i < c.nextMeta + 2) :
      Within N x ctx.typeVars { c with nextMeta := c.nextMeta + 2 } (.var (metaName i)) := by
    have h : Clear N x ctx.typeVars { c with nextMeta := c.nextMeta + 2 } (.var (metaName i)) :=
      hc.tidy.clear_metaName hle hlt rfl
    exact h.within
  have hparam := hmeta c.nextMeta (by omega) (by omega)
  have hresult := hmeta (c.nextMeta + 1) (by omega) (by omega)
  refine meets_asArrow ?_ (keepsScope_call ⟨hmetas.tidy hc.tidy, hmetas.within ht.within,
    Ty.over_arrow_iff.2 ⟨hparam, hresult⟩⟩ fun _ c' h => ?_)
  · rintro param result rfl
    obtain ⟨hparam, hresult⟩ := Ty.over_arrow_iff.1 ht
    exact hQ param result c hc.tidy.stays (Clear.within hparam) (Clear.within hresult)
  · exact hQ _ _ c' (hmetas.trans h) (h.within hparam) (h.within hresult)

section

variable (hN : PrimeClosed N) (hsig : sig.Over N) (hclosed : sig.Closed)

include hN

theorem keepsScope_resolve {t : Ty} {Q : Ty → Checker → Prop} (hc : Stable N x c)
    (ht : Within N x ctx.typeVars c t) (hQ : ∀ t, Clear N x ctx.typeVars c t → Q t c) :
    KeepsScope N x sig (Plan.ofCheck (resolve t)) Q c :=
  meets_resolve.2 (hQ _ (ht.resolved hN hc))

include hsig

theorem keepsScope_instance (name : String) {α : Type} {p : Ty → Plan α}
    {Q : α → Checker → Prop} (hc : Encloses N x ctx c)
    (hp : ∀ t c', Stays N x ctx.typeVars c c' →
      (∀ f ∈ t.splitArrows.1, Within N x ctx.typeVars c' f) →
      Within N x ctx.typeVars c' t.splitArrows.2 → KeepsScope N x sig (p t) Q c') :
    KeepsScope N x sig (do
      let t ← Plan.ofCheck (constructorType sig name)
      let t ← Plan.ofCheck (instantiate t)
      p t) Q c := by
  refine meets_instance.2 fun t ht => ?_
  let c' := { c with nextMeta := c.nextMeta + t.splitAlls.1.length }
  have hle : c.nextMeta ≤ c'.nextMeta := Nat.le_add_right _ _
  have hbinders : ∀ v ∈ t.splitAlls.2.binders, N v := hsig.constructorTypes name t ht
  rw [← Ty.dropAlls_length] at hbinders
  have hwithin : Within N x ctx.typeVars c' (instantiated c.nextMeta t) := by
    refine ⟨fun v hv => ?_, (over_instanceFrom hN (P := fun _ => True) (fun _ _ => trivial)
      (fun _ _ => trivial) hbinders).binders⟩
    rcases mem_freeVars_instanceFrom hv with hv | ⟨i, hge, hlt, rfl⟩
    · rw [hsig.closed name t ht] at hv
      cases hv
    · have h : Clear N x ctx.typeVars c' (.var (metaName i)) := hc.tidy.clear_metaName hge hlt rfl
      exact h.within.freeVars _ List.mem_cons_self
  obtain ⟨hfields, hresult⟩ := Ty.over_splitArrows hwithin
  exact hp _ _ ⟨hc.tidy.extends_of_subst_eq rfl hle, rfl⟩ hfields hresult

section

variable {fn arg body : Term} {v name : String} {args : List Term}

omit hsig

theorem keepsScope_app (h : (Task.infer ctx (.app fn arg)).Scoped N x c) :
    KeepsScope N x sig (inferPlan sig ctx (.app fn arg))
      ((Task.infer ctx (.app fn arg)).Leaves N x c) c := by
  obtain ⟨hc, ht⟩ := h
  simp only [Term.freeTypeVars, List.forall_mem_append] at ht
  rw [inferPlan, KeepsScope, Plan.meets_bind]
  refine keepsScope_call ⟨hc, ht.1⟩ ?_
  rintro f c₁ ⟨h₁, hf⟩
  rw [Plan.meets_bind]
  refine keepsScope_asArrow (hc.stays h₁) hf fun param result c₂ h₂ hparam hresult => ?_
  have h₁₂ := h₁.trans h₂
  rw [Plan.meets_bind]
  refine keepsScope_call ⟨hc.stays h₁₂, ht.2, hparam⟩ fun _ c₃ h₃ => ?_
  exact keepsScope_resolve hN h₃.stable (h₃.within hresult) fun t ht => ⟨h₁₂.trans h₃, ht⟩

omit hN in
theorem keepsScope_tlam (hconfined : (Task.infer ctx (.tlam v body)).Confined sig N x c)
    (h : (Task.infer ctx (.tlam v body)).Scoped N x c) :
    KeepsScope N x sig (inferPlan sig ctx (.tlam v body))
      ((Task.infer ctx (.tlam v body)).Leaves N x c) c := by
  obtain ⟨hc, ht⟩ := h
  obtain ⟨-, -, hnames⟩ := hconfined.starts
  rw [Term.typeNames, List.forall_mem_cons] at hnames
  rw [inferPlan, KeepsScope, Plan.meets_bind]
  refine meets_call.2 fun _ => ⟨⟨hc.extendType v, freeTypeVars_of_tlam ht⟩, ?_⟩
  rintro t c₁ hreturns ⟨h₁, ht⟩
  have hleave : Extends N x ctx.typeVars c c₁ := by
    refine h₁.toExtends.leave ?_
    rintro rfl hscope w hw
    exact reveals_of_returns (hconfined.kept ctx _ (.infer body) hscope w hw) hreturns
  exact ⟨⟨hleave, h₁.globals⟩, hleave.clear_all hc.tidy hnames.1 ht⟩

include hsig in
theorem keepsScope_con (h : (Task.infer ctx (.con name args)).Scoped N x c) :
    KeepsScope N x sig (inferPlan sig ctx (.con name args))
      ((Task.infer ctx (.con name args)).Leaves N x c) c := by
  obtain ⟨hc, ht⟩ := h
  refine keepsScope_instance hN hsig name hc fun t c₁ h₁ hfields hresult => ?_
  split
  next => exact meets_fail.2 trivial
  next =>
    rw [KeepsScope, Plan.meets_bind]
    refine keepsScope_call ⟨hc.stays h₁, ht, hfields⟩ fun _ c₂ h₂ => ?_
    refine keepsScope_resolve hN h₂.stable (Ty.over_arrows (fun p hp => ?_) (h₂.within hresult))
      fun t ht => ⟨h₁.trans h₂, ht⟩
    exact h₂.within (hfields p (List.mem_of_mem_drop hp))

end

include hclosed

theorem keepsScope_infer (ctx : Context) (t : Term)
    (hconfined : (Task.infer ctx t).Confined sig N x c) (h : (Task.infer ctx t).Scoped N x c) :
    KeepsScope N x sig (inferPlan sig ctx t) ((Task.infer ctx t).Leaves N x c) c := by
  obtain ⟨hc, ht⟩ := id h
  obtain ⟨-, -, hnames⟩ := hconfined.starts
  cases t with
  | var index =>
    rw [inferPlan]
    cases hindex : ctx.type? index with
    | some t =>
      exact keepsScope_resolve hN hc.tidy.toStable (hc.locals t (List.mem_of_getElem? hindex))
        fun t ht => ⟨hc.tidy.stays, ht⟩
    | none => exact meets_fail.2 trivial
  | global name =>
    exact meets_globalType.2 fun t ht =>
      ⟨hc.tidy.stays, (hc.globals name t ht).resolved hN hc.tidy.toStable⟩
  | lam type body =>
    cases type with
    | some param =>
      simp only [Term.freeTypeVars, Term.typeNames, Option.elim_some, List.forall_mem_append]
        at ht hnames
      have hparam := (hc.tidy.clear_of_written hnames.1 ht.1).within
      rw [inferPlan, KeepsScope, Plan.meets_bind]
      refine keepsScope_call ⟨hc.extend hparam, ht.2⟩ ?_
      rintro r c₁ ⟨h₁, hr⟩
      exact keepsScope_resolve hN h₁.stable
        (Ty.over_arrow_iff.2 ⟨h₁.within hparam, Clear.within hr⟩) fun t ht => ⟨h₁, ht⟩
    | none => exact meets_fail.2 trivial
  | app fn arg => exact keepsScope_app hN h
  | tlam v body => exact keepsScope_tlam hconfined h
  | tapp fn arg =>
    simp only [Term.freeTypeVars, Term.typeNames, List.forall_mem_append] at ht hnames
    rw [inferPlan, KeepsScope, Plan.meets_bind]
    refine keepsScope_call ⟨hc, ht.1⟩ ?_
    rintro t c₁ ⟨h₁, hfn⟩
    cases t with
    | all v body =>
      obtain ⟨-, hbody⟩ := Ty.over_all_iff.1 hfn
      -- The argument is written where the term stands, outside of the quantifier it comes under.
      have harg := (h₁.tidy hc.tidy).clear_of_written hnames.1.2 ht.2
      exact ⟨h₁, hbody.substitute hN harg⟩
    | _ => exact meets_fail.2 trivial
  | con name args => exact keepsScope_con hN hsig h
  | case scrutinee branches =>
    simp only [Term.freeTypeVars, List.forall_mem_append] at ht
    rw [inferPlan]
    split
    next => exact meets_fail.2 trivial
    next =>
      rw [KeepsScope, Plan.meets_bind]
      refine keepsScope_call ⟨hc, ht.1⟩ ?_
      rintro s c₁ ⟨h₁, hs⟩
      refine keepsScope_call ⟨hc.stays h₁, Clear.within hs, by simp, ht.2⟩ ?_
      rintro t c₂ ⟨h₂, ht⟩
      exact ⟨h₁.trans h₂, ht⟩
  | letIn name value body =>
    simp only [Term.freeTypeVars, List.forall_mem_append] at ht
    rw [inferPlan, KeepsScope, Plan.meets_bind]
    refine keepsScope_call ⟨hc, ht.1⟩ ?_
    rintro s c₁ ⟨h₁, hs⟩
    refine keepsScope_call ⟨(hc.stays h₁).extend (Clear.within hs), ht.2⟩ ?_
    rintro t c₂ ⟨h₂, ht⟩
    exact ⟨h₁.trans h₂, ht⟩
  | int value => exact ⟨hc.tidy.stays, Ty.over_prim _⟩
  | string text => exact ⟨hc.tidy.stays, Ty.over_prim _⟩
  | prim name =>
    exact meets_primitiveType.2 fun t ht => ⟨hc.tidy.stays,
      clear_of_closed (hclosed.primitiveTypes name t ht) (hsig.primitiveTypes name t ht).binders⟩
  | tool name args =>
    rw [inferPlan, KeepsScope, Plan.meets_bind]
    refine keepsScope_call ⟨hc, ht⟩ fun _ c₁ h₁ => ?_
    exact keepsScope_freshMeta (hc.stays h₁) fun t c₂ h₂ ht => ⟨Stays.trans h₁ h₂, ht⟩

omit hN hclosed in
theorem keepsScope_inferTypeFunction (ctx : Context) (t : Term)
    (hconfined : (Task.inferTypeFunction ctx t).Confined sig N x c)
    (h : (Task.inferTypeFunction ctx t).Scoped N x c) :
    KeepsScope N x sig (inferTypeFunctionPlan sig ctx t)
      ((Task.inferTypeFunction ctx t).Leaves N x c) c := by
  obtain ⟨-, -, -, hparams⟩ := hconfined.starts
  refine meets_inferTypeFunction ?_ (keepsScope_call h fun t c' h => h)
  rintro name u rfl hu
  refine ⟨h.1.tidy.stays, clear_of_closed (hsig.closed name u hu) fun v hv => ?_⟩
  rw [← Ty.alls_splitAlls u] at hv
  rcases Ty.mem_binders_alls.1 hv with hv | hv
  · exact hparams v (List.mem_flatMap.2 ⟨u, Table.mem_values_iff.2 ⟨name, hu⟩, hv⟩)
  · exact hsig.constructorTypes name u hu v hv

omit hsig hclosed in
theorem keepsScope_check (ctx : Context) (t : Term) (expected : Ty)
    (hconfined : (Task.check ctx t expected).Confined sig N x c)
    (h : (Task.check ctx t expected).Scoped N x c) :
    KeepsScope N x sig (checkPlan ctx t expected) ((Task.check ctx t expected).Leaves N x c) c := by
  obtain ⟨hc, ht, hexpected⟩ := h
  obtain ⟨-, -, hnames, -⟩ := hconfined.starts
  have hresolved := hexpected.resolved hN hc.tidy.toStable
  refine meets_check ?lam ?bare ?tlam ?other
  case lam =>
    rintro declared body param result rfl he
    simp only [Term.freeTypeVars, Term.typeNames, Option.elim_some, List.forall_mem_append]
      at ht hnames
    have hdeclared := (hc.tidy.clear_of_written hnames.1 ht.1).within
    obtain ⟨hparam, hresult⟩ := hexpected.of_arrow hN hc.tidy.toStable he
    refine keepsScope_call ⟨hc.tidy, hparam, hdeclared⟩ fun _ c₁ h₁ => ?_
    exact keepsScope_call ⟨(hc.stays h₁).extend (h₁.within hdeclared), ht.2, h₁.within hresult⟩
      fun _ c₂ h₂ => Stays.trans h₁ h₂
  case bare =>
    rintro body param result rfl he
    obtain ⟨hparam, hresult⟩ := hexpected.of_arrow hN hc.tidy.toStable he
    exact keepsScope_call ⟨hc.extend hparam, ht, hresult⟩ fun _ c₁ h₁ => h₁
  case tlam =>
    rintro v body w result rfl he
    rw [Term.typeNames, List.forall_mem_cons] at hnames
    rw [he] at hresolved
    have hunder := hc.tidy.within_underBinder hN hnames.1 hresolved.within
    refine meets_call.2 fun _ => ⟨⟨hc.extendType v, freeTypeVars_of_tlam ht, hunder⟩,
      fun _ c₁ hreturns h₁ => ⟨h₁.toExtends.leave ?_, h₁.globals⟩⟩
    rintro rfl hscope u hu
    exact reveals_of_returns (hconfined.kept ctx _ (.check body he) hscope u hu) hreturns
  case other =>
    refine keepsScope_call ⟨hc, ht⟩ ?_
    rintro actual c₁ ⟨h₁, hactual⟩
    exact keepsScope_call ⟨h₁.tidy hc.tidy, h₁.within hresolved.within, Clear.within hactual⟩
      fun _ c₂ h₂ => h₁.trans h₂

omit hN hsig hclosed in
theorem keepsScope_checkArgs (ctx : Context) (args : List Term) (fields : List Ty)
    (h : (Task.checkArgs ctx args fields).Scoped N x c) :
    KeepsScope N x sig (checkArgsPlan ctx args fields)
      ((Task.checkArgs ctx args fields).Leaves N x c) c := by
  obtain ⟨hc, hargs, hfields⟩ := h
  cases args with
  | nil => exact hc.tidy.stays
  | cons arg args =>
    cases fields with
    | nil => exact hc.tidy.stays
    | cons field fields =>
      simp only [Term.freeTypeVarsAll, List.forall_mem_append] at hargs
      rw [List.forall_mem_cons] at hfields
      rw [checkArgsPlan, KeepsScope, Plan.meets_bind]
      refine keepsScope_call ⟨hc, hargs.1, hfields.1⟩ fun _ c₁ h₁ => ?_
      exact keepsScope_call ⟨hc.stays h₁, hargs.2, Stays.within_all h₁ hfields.2⟩
        fun _ c₂ h₂ => Stays.trans h₁ h₂

omit hN hsig hclosed in
theorem keepsScope_inferArgs (ctx : Context) (args : List Term)
    (h : (Task.inferArgs ctx args).Scoped N x c) :
    KeepsScope N x sig (inferArgsPlan ctx args) ((Task.inferArgs ctx args).Leaves N x c) c := by
  obtain ⟨hc, hargs⟩ := h
  cases args with
  | nil => exact hc.tidy.stays
  | cons arg args =>
    simp only [Term.freeTypeVarsAll, List.forall_mem_append] at hargs
    rw [inferArgsPlan, KeepsScope, Plan.meets_bind]
    refine keepsScope_call ⟨hc, hargs.1⟩ ?_
    rintro _ c₁ ⟨h₁, _⟩
    exact keepsScope_call ⟨hc.stays h₁, hargs.2⟩ fun _ c₂ h₂ => h₁.trans h₂

omit hclosed in
theorem keepsScope_enterBranch (ctx : Context) {scrutinee : Ty} (constructor : String)
    (vars : List String) {Q : Context → Checker → Prop} (hc : Encloses N x ctx c)
    (hscrutinee : Within N x ctx.typeVars c scrutinee)
    (hQ : ∀ ts c', Stays N x ctx.typeVars c c' → Encloses N x (ctx.extendAll ts) c' →
      Q (ctx.extendAll ts) c') :
    KeepsScope N x sig (enterBranchPlan sig ctx scrutinee constructor vars) Q c := by
  refine keepsScope_instance hN hsig constructor hc fun t c₁ h₁ hfields hresult => ?_
  split
  next => exact meets_fail.2 trivial
  next =>
    rw [KeepsScope, Plan.meets_bind]
    refine keepsScope_call ⟨h₁.tidy hc.tidy, hresult, h₁.within hscrutinee⟩ fun _ c₂ h₂ => ?_
    rw [Plan.meets_bind, meets_get]
    have h₁₂ : Stays N x ctx.typeVars c c₂ := h₁.trans h₂
    refine hQ _ c₂ h₁₂ ((hc.stays h₁₂).extendAll fun u hu => ?_)
    obtain ⟨f, hf, rfl⟩ := List.mem_map.1 hu
    exact ((h₂.within (hfields f hf)).resolved hN h₂.stable).within

omit hsig hclosed in
theorem keepsScope_joinBranch (ctx : Context) {previous : Option Ty} {t : Ty}
    {Q : Ty → Checker → Prop} (hc : Encloses N x ctx c)
    (hprevious : ∀ p ∈ previous, Within N x ctx.typeVars c p) (ht : Clear N x ctx.typeVars c t)
    (hQ : ∀ joined c', Stays N x ctx.typeVars c c' → Clear N x ctx.typeVars c' joined →
      Q joined c') :
    KeepsScope N x sig (joinBranchPlan ctx previous t) Q c := by
  cases previous with
  | none => exact hQ t c hc.tidy.stays ht
  | some p =>
    have hp := hprevious p rfl
    rw [joinBranchPlan, KeepsScope, Plan.meets_bind]
    refine keepsScope_call ⟨hc.tidy, hp, ht.within⟩ fun _ c₁ h₁ => ?_
    exact keepsScope_resolve hN h₁.stable (h₁.within hp) fun joined hjoined =>
      hQ joined c₁ h₁ hjoined

omit hclosed in
theorem keepsScope_inferBranches (ctx : Context) (scrutinee : Ty) (previous : Option Ty)
    (branches : List Branch)
    (h : (Task.inferBranches ctx scrutinee previous branches).Scoped N x c) :
    KeepsScope N x sig (inferBranchesPlan sig ctx scrutinee previous branches)
      ((Task.inferBranches ctx scrutinee previous branches).Leaves N x c) c := by
  obtain ⟨hc, hscrutinee, hprevious, hbranches⟩ := h
  cases branches with
  | nil =>
    cases previous with
    | some t => exact ⟨hc.tidy.stays, hprevious t rfl⟩
    | none => exact meets_fail.2 trivial
  | cons branch branches =>
    obtain ⟨constructor, vars, body⟩ := branch
    simp only [Term.freeTypeVarsBranches, List.forall_mem_append] at hbranches
    rw [inferBranchesPlan, KeepsScope, Plan.meets_bind]
    refine keepsScope_enterBranch hN hsig ctx constructor vars hc hscrutinee
      fun ts c₁ h₁ hinner => ?_
    rw [Plan.meets_bind]
    refine keepsScope_call ⟨hinner, hbranches.1⟩ ?_
    rintro t c₂ ⟨h₂, ht⟩
    have h₁₂ : Stays N x ctx.typeVars c c₂ := h₁.trans h₂
    rw [Plan.meets_bind]
    refine keepsScope_joinBranch hN ctx (hc.stays h₁₂)
      (fun p hp => h₁₂.within (hprevious p hp).within) ht fun joined c₃ h₃ hjoined => ?_
    have h₁₃ := h₁₂.trans h₃
    refine keepsScope_call ⟨hc.stays h₁₃, h₁₃.within hscrutinee, ?_, hbranches.2⟩ ?_
    · rintro _ ⟨⟩
      exact hjoined
    · rintro t c₄ ⟨h₄, ht⟩
      exact ⟨h₁₃.trans h₄, ht⟩

omit hsig hclosed in
theorem keepsScope_unify (ctx : Context) (left right : Ty)
    (hconfined : (Task.unify ctx left right).Confined sig N x c)
    (h : (Task.unify ctx left right).Scoped N x c) :
    KeepsScope N x sig (unifyPlan ctx left right)
      ((Task.unify ctx left right).Leaves N x c) c := by
  obtain ⟨hc, hleft, hright⟩ := h
  rw [unifyPlan, KeepsScope, Plan.meets_bind, meets_get]
  intro s hs
  have hshut := hconfined.shut ctx left right rfl
  exact meets_set.2 ⟨hc.extends_unify hN hleft hright hshut hs, rfl⟩

/-! ## Definitions -/

omit hsig hclosed in
theorem keepsScope_checkBody (d : Definition) {placeholder : Ty} {Q : Ty → Checker → Prop}
    (hc : Encloses N x .empty c) (hd : d.TypeClosed)
    (hnames : ∀ v ∈ d.typeNames sig.paramNames, N v)
    (hplaceholder : Within N x [] c placeholder)
    (hQ : ∀ t c', Stays N x [] c c' → Within N x [] c' t → Q t c') :
    KeepsScope N x sig (checkBodyPlan d placeholder) Q c := by
  have hbody : ∀ v ∈ d.body.freeTypeVars, v ∈ Context.empty.typeVars := by
    rw [hd.body]
    exact List.forall_mem_nil _
  rw [checkBodyPlan]
  split
  next t htype =>
    rw [Definition.typeNames, htype, Option.elim_some, List.forall_mem_append] at hnames
    have ht : Within N x [] c t := (clear_of_closed (hd.type t htype)
      (Ty.over_iff_names.2 hnames.1).binders).within
    rw [KeepsScope, Plan.meets_bind]
    exact keepsScope_call ⟨hc, hbody, ht⟩ fun _ c₁ h₁ => hQ t c₁ h₁ (h₁.within ht)
  next =>
    rw [KeepsScope, Plan.meets_bind]
    refine keepsScope_call ⟨hc, hbody⟩ ?_
    rintro t c₁ ⟨h₁, ht⟩
    rw [Plan.meets_bind]
    refine keepsScope_call ⟨h₁.tidy hc.tidy, h₁.within hplaceholder, Clear.within ht⟩
      fun _ c₂ h₂ => ?_
    have ht' : Within N x Context.empty.typeVars c₂ t := h₂.within (Clear.within ht)
    exact keepsScope_resolve hN h₂.stable ht' fun t ht => hQ t c₂ (Stays.trans h₁ h₂) ht.within

omit hN hsig hclosed in
theorem Encloses.setGlobal (hc : Encloses N x .empty c) (name : String) {t : Ty}
    (ht : Within N x [] c t) :
    Encloses N x .empty { c with globals := c.globals.insert name t } where
  tidy := by
    have h : Extends N x [] c { c with globals := c.globals.insert name t } :=
      hc.tidy.extends_of_subst_eq rfl (Nat.le_refl _)
    exact h.tidy hc.tidy
  locals := List.forall_mem_nil _
  globals other u hu :=
    (Table.All.insert hc.globals name ht other u hu).congr rfl (Nat.le_refl _)

omit hsig hclosed in
theorem keepsScope_checkDefinition (d : Definition)
    (hconfined : (Task.checkDefinition d).Confined sig N x c)
    (h : (Task.checkDefinition d).Scoped N x c) :
    KeepsScope N x sig (checkDefinitionPlan d) ((Task.checkDefinition d).Leaves N x c) c := by
  obtain ⟨hc, hd⟩ := h
  obtain ⟨-, hnames⟩ := hconfined.starts
  have hrest (placeholder : Ty) (c₁ : Checker) (h₁ : Stays N x [] c c₁)
      (hplaceholder : Within N x [] c₁ placeholder) :
      KeepsScope N x sig (do
        Plan.ofCheck (setGlobal d.name placeholder)
        let t ← checkBodyPlan d placeholder
        Plan.ofCheck (setGlobal d.name t)
        return t) ((Task.checkDefinition d).Leaves N x c) c₁ := by
    have hc₁ : Encloses N x .empty c₁ := hc.stays h₁
    rw [KeepsScope, Plan.meets_bind, meets_setGlobal, Plan.meets_bind]
    refine keepsScope_checkBody hN d (hc₁.setGlobal d.name hplaceholder) hd hnames
      (hplaceholder.congr rfl (Nat.le_refl _)) fun t c₂ h₂ ht => ?_
    have hc₂ : Encloses N x .empty c₂ := (hc₁.setGlobal d.name hplaceholder).stays h₂
    rw [Plan.meets_bind, meets_setGlobal]
    refine ⟨?_, (hc₂.setGlobal d.name ht).globals, ht.congr rfl (Nat.le_refl _)⟩
    have hfirst : Extends N x [] c₁ { c₁ with globals := c₁.globals.insert d.name placeholder } :=
      hc₁.tidy.extends_of_subst_eq rfl (Nat.le_refl _)
    exact (h₁.toExtends.trans hfirst).trans
      (h₂.toExtends.trans (hc₂.tidy.extends_of_subst_eq rfl (Nat.le_refl _)))
  rw [checkDefinitionPlan, placeholderPlan, KeepsScope, Plan.meets_bind]
  split
  next t htype =>
    rw [Task.Over, Definition.typeNames, List.forall_mem_append, htype, Option.elim_some] at hnames
    exact hrest t c hc.tidy.stays (clear_of_closed (hd.type t htype)
      (Ty.over_iff_names.2 hnames.1).binders).within
  next => exact keepsScope_freshMeta hc fun t c₁ h₁ ht => hrest t c₁ h₁ ht.within

omit hN hsig hclosed in
theorem keepsScope_checkDefinitions (types : Table Ty) (ds : List Definition)
    (h : (Task.checkDefinitions types ds).Scoped N x c) :
    KeepsScope N x sig (checkDefinitionsPlan types ds)
      ((Task.checkDefinitions types ds).Leaves N x c) c := by
  obtain ⟨hc, htypes, hds⟩ := h
  cases ds with
  | nil => exact ⟨hc.tidy.extends, hc.globals, htypes⟩
  | cons d ds =>
    rw [List.forall_mem_cons] at hds
    rw [checkDefinitionsPlan, KeepsScope, Plan.meets_bind]
    refine keepsScope_call ⟨hc, hds.1⟩ ?_
    rintro t c₁ ⟨h₁, hglobals₁, ht⟩
    have hinsert : (types.insert d.name t).All (Within N x [] c₁) :=
      Table.All.insert (fun name u hu => h₁.within (htypes name u hu)) d.name ht
    refine keepsScope_call
      ⟨⟨h₁.tidy hc.tidy, List.forall_mem_nil _, hglobals₁⟩, hinsert, hds.2⟩ ?_
    rintro types c₂ ⟨h₂, hglobals₂, htypes⟩
    exact ⟨h₁.trans h₂, hglobals₂, htypes⟩

/-- Every task that does not let a type variable out of its scope keeps it there. -/
theorem verified_scopes :
    Verified sig (Task.Confined sig N x) (Task.Scoped N x) (Task.Leaves N x) := by
  intro task c hconfined h
  cases task with
  | infer ctx t => exact keepsScope_infer hN hsig hclosed ctx t hconfined h
  | inferTypeFunction ctx t => exact keepsScope_inferTypeFunction hsig ctx t hconfined h
  | check ctx t expected => exact keepsScope_check hN ctx t expected hconfined h
  | checkArgs ctx args fields => exact keepsScope_checkArgs ctx args fields h
  | inferArgs ctx args => exact keepsScope_inferArgs ctx args h
  | inferBranches ctx scrutinee previous branches =>
    exact keepsScope_inferBranches hN hsig ctx scrutinee previous branches h
  | unify ctx left right => exact keepsScope_unify hN ctx left right hconfined h
  | checkDefinition d => exact keepsScope_checkDefinition hN d hconfined h
  | checkDefinitions types ds => exact keepsScope_checkDefinitions types ds h

end

end

end Checker

end PolyLambda
