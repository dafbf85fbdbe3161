import PolyLambda.Proofs.Term.Mentions
import PolyLambda.Typing.Checker

/-!
# Type checking with other tables

The checker looks up what a term mentions, and nothing else. So where two signatures agree on that,
it comes to the same result with either of them, learning the same (`matches_checkDefinitions`),
provided that it succeeds with one; and it never fails because a name is unknown. What it has
learned before it keeps: the substitution only grows.
-/

namespace PolyLambda

/-- Whether an error says that a variable or the name of a global or a primitive is unknown. -/
def TypeError.Dangling : TypeError → Prop
  | .unboundIndex _ | .undefinedVariable _ => True
  | .inDeclaration _ cause => cause.Dangling
  | _ => False

/-- Whether two signatures give what is mentioned the same types, and primitives a type at all. -/
structure Signature.AgreeOn (A : Mention → Prop) (sig sig' : Signature) : Prop where
  constructors : ∀ name, A (.constructor name) →
    sig.constructorTypes.get? name = sig'.constructorTypes.get? name
  primitives : ∀ name, A (.primitive name) → ∃ t, sig.primitiveTypes.get? name = some t ∧
    sig'.primitiveTypes.get? name = some t

namespace Checker

/-- Whether two checkers know the same, apart from globals that are not in `names`. -/
structure Alike (names : List String) (c c' : Checker) : Prop where
  globals : ∀ name ∈ names, ∃ t, c.globals.get? name = some t ∧ c'.globals.get? name = some t
  subst : c.subst = c'.subst
  nextMeta : c.nextMeta = c'.nextMeta

theorem Alike.self {names : List String} {c c' : Checker} (h : Alike names c c') :
    Alike names c c where
  globals name hname := by
    obtain ⟨t, ht, -⟩ := h.globals name hname
    exact ⟨t, ht, ht⟩
  subst := rfl
  nextMeta := rfl

/-- Whether `c'` knows all that `c` does. -/
def Recalls (c c' : Checker) : Prop :=
  ∃ q : Substitution, c'.subst = q.compose c.subst

theorem Recalls.refl (c : Checker) : Recalls c c :=
  ⟨.empty, (Substitution.empty_compose c.subst).symm⟩

theorem Recalls.trans {c₁ c₂ c₃ : Checker} (h : Recalls c₁ c₂) (h' : Recalls c₂ c₃) :
    Recalls c₁ c₃ := by
  obtain ⟨q, hq⟩ := h
  obtain ⟨q', hq'⟩ := h'
  exact ⟨q'.compose q, by rw [hq', hq, Substitution.compose_assoc]⟩

section

variable {α β : Type} {names names₁ names₂ : List String} {P : α → Prop} {Q : β → Prop}

/-- Whether `y` does from `c'` what `x` does from `c`, with a result that `P` says something about,
or `x` fails without a name being unknown. -/
def MatchesAt (names : List String) (P : α → Prop) (x y : Check α) (c c' : Checker) : Prop :=
  ∀ r c₁, x.outcome? c = some (r, c₁) →
    match r with
    | .ok a => P a ∧ Recalls c c₁ ∧ ∃ c₁', y.outcome? c' = some (.ok a, c₁') ∧ Alike names c₁ c₁'
    | .error e => ¬ e.Dangling

/-- Whether `y` does what `x` does wherever the same is known, in which case the same is known
after. -/
def Matches (names names' : List String) (P : α → Prop) (x y : Check α) : Prop :=
  ∀ c c', Alike names c c' → MatchesAt names' P x y c c'

/-! ## Steps -/

theorem matches_pure {a : α} (h : P a) : Matches names names P (pure a) (pure a) := by
  rintro c c' halike r c₁ ⟨⟩
  exact ⟨h, .refl c, c', rfl, halike⟩

theorem matches_throw {e : TypeError} (e' : TypeError) (h : ¬ e.Dangling) :
    Matches names names₁ P (throw e) (throw e') := by
  rintro c c' halike r c₁ ⟨⟩
  exact h

theorem Matches.bind {x y : Check α} {f g : α → Check β} (h : Matches names names₁ P x y)
    (hf : ∀ a, P a → Matches names₁ names₂ Q (f a) (g a)) :
    Matches names names₂ Q (x >>= f) (y >>= g) := by
  intro c c' halike r c₂ houtcome
  rw [LimitedState.outcome?_bind] at houtcome
  split at houtcome
  next => cases houtcome
  next e c₁ hx =>
    cases houtcome
    exact h c c' halike _ _ hx
  next a c₁ hx =>
    obtain ⟨ha, hrecalls, c₁', hy, halike₁⟩ := h c c' halike _ c₁ hx
    have hsecond := hf a ha c₁ c₁' halike₁ r c₂ houtcome
    cases r with
    | error e => exact hsecond
    | ok b =>
      obtain ⟨hb, hrecalls₁, c₂', hg, halike₂⟩ := hsecond
      refine ⟨hb, hrecalls.trans hrecalls₁, c₂', ?_, halike₂⟩
      rw [LimitedState.outcome?_bind, hy]
      exact hg

/-- A step whose errors are reported as others. -/
theorem Matches.tryCatch {x y : Check α} {k : TypeError → Check α} (h : Matches names names₁ P x y)
    (hk : ∀ e, ¬ e.Dangling → ∀ c r c₁, (k e).outcome? c = some (r, c₁) →
      ∃ e', r = .error e' ∧ ¬ e'.Dangling) :
    Matches names names₁ P (tryCatch x k) (tryCatch y k) := by
  intro c c' halike r c₂ houtcome
  rw [LimitedState.outcome?_tryCatch] at houtcome
  cases hx : x.outcome? c with
  | none =>
    rw [hx] at houtcome
    cases houtcome
  | some o =>
    obtain ⟨r₁, c₁⟩ := o
    have hfirst := h c c' halike r₁ c₁ hx
    rw [hx] at houtcome
    cases r₁ with
    | error e =>
      obtain ⟨e', rfl, he'⟩ := hk e hfirst c₁ r c₂ houtcome
      exact he'
    | ok a =>
      cases houtcome
      obtain ⟨ha, hrecalls, c₁', hy, halike₁⟩ := hfirst
      refine ⟨ha, hrecalls, c₁', ?_, halike₁⟩
      rw [LimitedState.outcome?_tryCatch, hy]

/-- A step that looks at what is known before it goes on. -/
theorem matches_get_bind {f g : Checker → Check α}
    (h : ∀ c c', Alike names c c' → MatchesAt names₁ P (f c) (g c') c c') :
    Matches names names₁ P (get >>= f) (get >>= g) :=
  h

end

section

variable {names : List String}

/-- Nothing is asked of a result. -/
def Any {α : Type} (_ : α) : Prop := True

theorem Alike.resolved {c c' : Checker} (h : Alike names c c') (t : Ty) :
    c.resolved t = c'.resolved t := by
  rw [Checker.resolved, Checker.resolved, h.subst]

theorem matches_resolve (t : Ty) : Matches names names Any (resolve t) (resolve t) := by
  refine matches_get_bind ?_
  rintro c c' halike r c₁ ⟨⟩
  refine ⟨trivial, .refl c, c', ?_, halike⟩
  rw [halike.resolved]
  rfl

theorem matches_freshMeta : Matches names names Any freshMeta freshMeta := by
  rintro c c' halike r c₁ ⟨⟩
  refine ⟨trivial, .refl c, { c' with nextMeta := c'.nextMeta + 1 }, ?_, halike.globals,
    halike.subst, congrArg (· + 1) halike.nextMeta⟩
  rw [halike.nextMeta]
  rfl

theorem matches_globalType {name : String} (hname : name ∈ names) :
    Matches names names Any (globalType name) (globalType name) := by
  refine matches_get_bind ?_
  intro c c' halike
  obtain ⟨t, ht, ht'⟩ := halike.globals name hname
  rw [globalType?, globalType?, ht, ht', Option.map_some, Option.map_some, halike.resolved]
  exact matches_pure trivial c c' halike

/-- A name that is entered is known on both sides. -/
theorem matches_setGlobal {names' : List String} (name : String) (t : Ty)
    (hnames : names' ⊆ name :: names) :
    Matches names names' Any (setGlobal name t) (setGlobal name t) := by
  rintro c c' halike r c₁ ⟨⟩
  refine ⟨trivial, .refl c, { c' with globals := c'.globals.insert name t }, rfl, ?_, halike.subst,
    halike.nextMeta⟩
  intro other hother
  show ∃ u, (c.globals.insert name t).get? other = some u ∧
    (c'.globals.insert name t).get? other = some u
  rw [Table.get?_insert, Table.get?_insert]
  split
  next => exact ⟨t, rfl, rfl⟩
  next hne => exact halike.globals other ((List.mem_cons.1 (hnames hother)).resolve_left hne)

/-! ## Equations -/

theorem not_dangling_ofUnify (e : UnifyError) : ¬ (TypeError.ofUnify e).Dangling := by
  cases e <;> exact id

theorem matches_unify (limit : Nat) (ctx : Context) (left right : Ty) :
    Matches names names Any (unify limit ctx left right) (unify limit ctx left right) := by
  refine matches_get_bind ?_
  intro c c' halike r c₁ houtcome
  rw [LimitedState.outcome?_bind, LimitedState.outcome?_lift] at houtcome ⊢
  rw [← halike.resolved, ← halike.resolved]
  cases hunify : (Ty.unify ctx.hasTypeVar limit (c.resolved left) (c.resolved right)).outcome? with
  | none =>
    rw [hunify] at houtcome
    cases houtcome
  | some o =>
    rw [hunify] at houtcome
    cases o with
    | error e =>
      cases houtcome
      exact not_dangling_ofUnify e
    | ok step =>
      cases houtcome
      refine ⟨trivial, ⟨step, rfl⟩, { c' with subst := step.compose c'.subst }, rfl,
        halike.globals, ?_,
        halike.nextMeta⟩
      exact congrArg step.compose halike.subst

theorem matches_expectType (limit : Nat) (ctx : Context) (expected actual : Ty) :
    Matches names names Any (expectType limit ctx expected actual)
      (expectType limit ctx expected actual) := by
  refine (matches_unify limit ctx expected actual).tryCatch ?_
  intro e he c r c₁ houtcome
  cases e with
  | unification left right =>
    cases houtcome
    exact ⟨_, rfl, id⟩
  | _ =>
    cases houtcome
    exact ⟨_, rfl, he⟩

theorem matches_instantiateWithin (n : Nat) (t : Ty) :
    Matches names names Any (instantiateWithin n t) (instantiateWithin n t) := by
  induction n generalizing t with
  | zero =>
    rw [instantiateWithin.eq_def]
    exact matches_pure trivial
  | succ n ih =>
    cases t with
    | all v body => exact matches_freshMeta.bind fun m _ => ih _
    | _ => exact matches_pure trivial

theorem matches_asArrow (limit : Nat) (ctx : Context) (t : Ty) :
    Matches names names Any (asArrow limit ctx t) (asArrow limit ctx t) := by
  cases t with
  | arrow param result => exact matches_pure trivial
  | var | all | data | prim =>
    refine matches_freshMeta.bind fun param _ => matches_freshMeta.bind fun result _ => ?_
    split
    next => exact (matches_unify limit ctx _ _).bind fun _ _ => matches_pure trivial
    next => exact matches_throw _ id

theorem matches_joinBranch (limit : Nat) (ctx : Context) (previous : Option Ty) (t : Ty) :
    Matches names names Any (joinBranch limit ctx previous t)
    (joinBranch limit ctx previous t) := by
  cases previous with
  | none => exact matches_pure trivial
  | some p => exact (matches_unify limit ctx p t).bind fun _ _ => matches_resolve p

end

/-! ## Terms -/

section

variable {sig sig' : Signature} {A : Mention → Prop} {names : List String} (limit : Nat)

theorem matches_constructorType (hsig : sig.AgreeOn A sig') {name : String}
    (hname : A (.constructor name)) :
    Matches names names Any (constructorType sig name) (constructorType sig' name) := by
  rw [constructorType, constructorType, hsig.constructors name hname]
  split
  next => exact matches_pure trivial
  next => exact matches_throw _ id

theorem matches_primitiveType (hsig : sig.AgreeOn A sig') {name : String}
    (hname : A (.primitive name)) :
    Matches names names Any (primitiveType sig name) (primitiveType sig' name) := by
  obtain ⟨t, ht, ht'⟩ := hsig.primitives name hname
  rw [primitiveType, primitiveType, ht, ht']
  exact matches_pure trivial

/-- A branch has the variables of its pattern besides those around it. -/
theorem matches_enterBranch (hsig : sig.AgreeOn A sig') (ctx : Context) (scrutinee : Ty)
    {constructor : String} (hconstructor : A (.constructor constructor)) (vars : List String) :
    Matches names names (fun inner => inner.depth = vars.length + ctx.depth)
      (enterBranch sig limit ctx scrutinee constructor vars)
      (enterBranch sig' limit ctx scrutinee constructor vars) := by
  refine (matches_constructorType hsig hconstructor).bind fun t _ =>
    (matches_instantiateWithin _ t).bind fun t _ => ?_
  dsimp only
  split
  next => exact matches_throw _ id
  next hlength =>
    refine (matches_unify limit ctx _ scrutinee).bind fun _ _ => matches_get_bind ?_
    intro c c' halike
    have hfields : t.splitArrows.1.map c.resolved = t.splitArrows.1.map c'.resolved :=
      List.map_congr_left fun field _ => halike.resolved field
    rw [hfields]
    refine matches_pure ?_ c c' halike
    have hlength := Decidable.not_not.1 hlength
    rw [Context.depth, Context.extendAll, List.length_append, List.length_map, hlength,
      Context.depth]

mutual

theorem matches_infer (hsig : sig.AgreeOn A sig') (ctx : Context) (t : Term) :
    t.Within A names ctx.depth →
      Matches names names Any (infer sig limit ctx t) (infer sig' limit ctx t) := by
  cases t with
  | var index =>
    intro ht
    rw [infer, infer]
    obtain ⟨type, htype⟩ : ∃ type, ctx.type? index = some type :=
      ⟨_, List.getElem?_eq_getElem ht⟩
    rw [htype]
    exact matches_resolve type
  | global name =>
    intro ht
    rw [infer, infer]
    exact matches_globalType ht
  | lam type body =>
    intro ht
    cases type with
    | some param =>
      rw [infer, infer]
      exact (matches_infer hsig (ctx.extend param) body ht).bind fun result _ =>
        matches_resolve (.arrow param result)
    | none =>
      rw [infer, infer]
      exact matches_throw _ id
  | app fn arg =>
    intro ht
    rw [infer, infer]
    exact (matches_infer hsig ctx fn ht.1).bind fun f _ =>
      (matches_asArrow limit ctx f).bind fun p _ =>
      (matches_check hsig ctx arg p.1 ht.2).bind fun _ _ => matches_resolve p.2
  | tlam v body =>
    intro ht
    rw [infer, infer]
    exact (matches_infer hsig (ctx.extendType v) body ht).bind fun t _ => matches_pure trivial
  | tapp fn arg =>
    intro ht
    rw [infer, infer]
    refine (matches_inferTypeFunction hsig ctx fn ht.2).bind fun t _ => ?_
    cases t with
    | all v body => exact matches_pure trivial
    | _ => exact matches_throw _ id
  | con name args =>
    intro ht
    rw [infer, infer]
    refine (matches_constructorType hsig ht.1).bind fun t _ =>
      (matches_instantiateWithin _ t).bind fun t _ => ?_
    dsimp only
    split
    next => exact matches_throw _ id
    next =>
      exact (matches_checkArgs hsig ctx args t.splitArrows.1 ht.2).bind fun _ _ => matches_resolve _
  | case scrutinee branches =>
    intro ht
    rw [infer, infer]
    split
    next => exact matches_throw _ id
    next =>
      exact (matches_infer hsig ctx scrutinee ht.1).bind fun s _ =>
        matches_inferBranches hsig ctx s none branches ht.2
  | letIn name value body =>
    intro ht
    rw [infer, infer]
    exact (matches_infer hsig ctx value ht.1).bind fun v _ =>
      matches_infer hsig (ctx.extend v) body ht.2
  | int value =>
    intro _
    rw [infer, infer]
    exact matches_pure trivial
  | string text =>
    intro _
    rw [infer, infer]
    exact matches_pure trivial
  | prim name =>
    intro ht
    rw [infer, infer]
    exact matches_primitiveType hsig ht
  | tool name args =>
    intro ht
    rw [infer, infer]
    exact (matches_inferArgs hsig ctx args ht.2).bind fun _ _ => matches_freshMeta
termination_by 2 * t.size
decreasing_by all_goals simp only [Term.size]; omega

theorem matches_inferTypeFunction (hsig : sig.AgreeOn A sig') (ctx : Context) (t : Term) :
    t.Within A names ctx.depth → Matches names names Any (inferTypeFunction sig limit ctx t)
      (inferTypeFunction sig' limit ctx t) := by
  have hinfer := matches_infer hsig ctx t
  rw [inferTypeFunction.eq_def, inferTypeFunction.eq_def]
  cases t with
  | con name args =>
    cases args with
    | nil => exact fun ht => matches_constructorType hsig ht.1
    | cons arg args => exact hinfer
  | _ => exact hinfer
termination_by 2 * t.size + 1

theorem matches_check (hsig : sig.AgreeOn A sig') (ctx : Context) (t : Term) (expected : Ty) :
    t.Within A names ctx.depth →
      Matches names names Any (check sig limit ctx t expected)
      (check sig' limit ctx t expected) := by
  have hinfer := matches_infer hsig ctx t
  have hother (expected : Ty) : t.Within A names ctx.depth → Matches names names Any
      (do
        let actual ← infer sig limit ctx t
        expectType limit ctx expected actual)
      (do
        let actual ← infer sig' limit ctx t
        expectType limit ctx expected actual) :=
    fun ht => (hinfer ht).bind fun actual _ => matches_expectType limit ctx expected actual
  rw [check.eq_def, check.eq_def]
  cases t with
  | lam type body =>
    intro ht
    refine (matches_resolve expected).bind fun expected _ => ?_
    cases type with
    | some declared =>
      cases expected with
      | arrow param result =>
        exact (matches_expectType limit ctx param declared).bind fun _ _ =>
          matches_check hsig (ctx.extend declared) body result ht
      | _ => exact hother _ ht
    | none =>
      cases expected with
      | arrow param result => exact matches_check hsig (ctx.extend param) body result ht
      | _ => exact hother _ ht
  | tlam v body =>
    intro ht
    refine (matches_resolve expected).bind fun expected _ => ?_
    cases expected with
    | all w result => exact matches_check hsig (ctx.extendType v) body (underBinder v w result) ht
    | _ => exact hother _ ht
  | _ => exact fun ht => (matches_resolve expected).bind fun expected _ => hother expected ht
termination_by 2 * t.size + 1
decreasing_by
  · omega
  · simp only [Term.size]; omega
  · simp only [Term.size]; omega
  · simp only [Term.size]; omega

theorem matches_checkArgs (hsig : sig.AgreeOn A sig') (ctx : Context) (args : List Term)
    (fields : List Ty) : Term.AllWithin A names ctx.depth args →
      Matches names names Any (checkArgs sig limit ctx args fields)
        (checkArgs sig' limit ctx args fields) := by
  rw [checkArgs.eq_def, checkArgs.eq_def]
  cases args with
  | nil => exact fun _ => matches_pure trivial
  | cons arg args =>
    intro hargs
    cases fields with
    | nil => exact matches_pure trivial
    | cons field fields =>
      exact (matches_check hsig ctx arg field hargs.1).bind fun _ _ =>
        matches_checkArgs hsig ctx args fields hargs.2
termination_by 2 * Term.sizeArgs args
decreasing_by all_goals simp only [Term.sizeArgs]; omega

theorem matches_inferArgs (hsig : sig.AgreeOn A sig') (ctx : Context) (args : List Term) :
    Term.AllWithin A names ctx.depth args →
      Matches names names Any (inferArgs sig limit ctx args) (inferArgs sig' limit ctx args) := by
  rw [inferArgs.eq_def, inferArgs.eq_def]
  cases args with
  | nil => exact fun _ => matches_pure trivial
  | cons arg args =>
    intro hargs
    exact (matches_infer hsig ctx arg hargs.1).bind fun _ _ =>
      matches_inferArgs hsig ctx args hargs.2
termination_by 2 * Term.sizeArgs args
decreasing_by all_goals simp only [Term.sizeArgs]; omega

theorem matches_inferBranches (hsig : sig.AgreeOn A sig') (ctx : Context) (scrutinee : Ty)
    (previous : Option Ty) (branches : List Branch) :
    Term.BranchesWithin A names ctx.depth branches →
      Matches names names Any (inferBranches sig limit ctx scrutinee previous branches)
        (inferBranches sig' limit ctx scrutinee previous branches) := by
  rw [inferBranches.eq_def, inferBranches.eq_def]
  cases branches with
  | nil =>
    intro _
    cases previous with
    | some t => exact matches_pure trivial
    | none => exact matches_throw _ id
  | cons branch branches =>
    obtain ⟨constructor, vars, body⟩ := branch
    rintro ⟨hconstructor, hbody, hrest⟩
    refine (matches_enterBranch limit hsig ctx scrutinee hconstructor vars).bind
      fun inner hinner => ?_
    rw [← hinner] at hbody
    exact (matches_infer hsig inner body hbody).bind fun t _ =>
      (matches_joinBranch limit ctx previous t).bind fun joined _ =>
        matches_inferBranches hsig ctx scrutinee (some joined) branches hrest
termination_by 2 * Term.sizeBranches branches
decreasing_by all_goals simp only [Term.sizeBranches]; omega

end

/-! ## Programs -/

theorem matches_checkBody (hsig : sig.AgreeOn A sig') {d : Definition}
    (hd : d.body.Within A names 0) (placeholder : Ty) :
    Matches names names Any (checkBody sig limit d placeholder)
    (checkBody sig' limit d placeholder) := by
  rw [checkBody, checkBody]
  split
  next t _ =>
    exact (matches_check limit hsig .empty d.body t hd).bind fun _ _ => matches_pure trivial
  next =>
    exact (matches_infer limit hsig .empty d.body hd).bind fun t _ =>
      (matches_expectType limit .empty placeholder t).bind fun _ _ => matches_resolve t

theorem matches_checkDefinition (hsig : sig.AgreeOn A sig') {d : Definition}
    (hd : d.body.Within A (d.name :: names) 0) :
    Matches names (d.name :: names) Any (checkDefinition sig limit d)
      (checkDefinition sig' limit d) := by
  have hplaceholder : Matches names names Any (d.type.elim freshMeta pure)
      (d.type.elim freshMeta pure) := by
    cases d.type with
    | some t => exact matches_pure trivial
    | none => exact matches_freshMeta
  rw [checkDefinition_eq_bind, checkDefinition_eq_bind]
  refine hplaceholder.bind fun placeholder _ => ?_
  have hbody := (matches_checkBody limit hsig hd placeholder).tryCatch
    (k := fun e => throw (.inDeclaration d.name e)) (by
      rintro e he c r c₁ ⟨⟩
      exact ⟨_, rfl, he⟩)
  refine (matches_setGlobal d.name placeholder (List.Subset.refl _)).bind fun _ _ =>
    hbody.bind fun t _ => ?_
  refine (matches_setGlobal d.name t ?_).bind fun _ _ => matches_pure trivial
  exact List.subset_cons_self _ _

/-- Definitions in order are checked alike where the signatures agree on what they mention. -/
theorem matches_checkDefinitions (hsig : sig.AgreeOn A sig') (types : Table Ty)
    {ds : List Definition} (hds : Definition.InOrder A names ds) :
    Matches names ((ds.map Definition.name).reverse ++ names) Any
      (checkDefinitions sig limit types ds) (checkDefinitions sig' limit types ds) := by
  induction ds generalizing names types with
  | nil => exact matches_pure trivial
  | cons d ds ih =>
    refine (matches_checkDefinition limit hsig hds.1).bind fun t _ => ?_
    have hrest := ih (types.insert d.name t) hds.2
    simpa using hrest

end

end Checker

end PolyLambda
