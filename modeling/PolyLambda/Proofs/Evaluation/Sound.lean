import PolyLambda.Proofs.Evaluation.Safe

/-!
# Soundness of evaluation

With any limit, a well-typed term comes to a value of its type or to an error that types do not
exclude, or the limit is too low for it. The same holds for the definitions of a program one after
the other, each of which may mention itself and those before it.
-/

namespace PolyLambda

/-! ## Terms -/

namespace Machine

/-- Whether the globals that have a type are there, with values of these types if they have one. -/
def GlobalsHaveTypes (m : Machine) (G : String → Option Nameless) (globals : Globals) : Prop :=
  ∀ name type, G name = some type →
    ∃ o, globals.get? name = some o ∧ ∀ v ∈ o, v.HasType m G type

section

variable {m : Machine} {G : String → Option Nameless} {globals : Globals}

theorem permits_globalValue (hglobals : GlobalsHaveTypes m G globals) {name : String}
    {type : Nameless} (h : G name = some type) :
    Permits (Value.HasType m G · type) (globalValue globals name) := by
  obtain ⟨o, ho, hv⟩ := hglobals name type h
  rw [globalValue, ho]
  cases o with
  | none => trivial
  | some v => exact hv v rfl

theorem safe_evaluateAll {eval : Term → Eval Value} {vars : List Nameless}
    (heval : ∀ (t : Term) (type : Nameless), t.HasType m.sig G vars type →
      Safe (Value.HasType m G · type) (eval t))
    {ts : List Term} {types : List Nameless} (h : Term.HaveTypes m.sig G vars ts types) :
    Safe (fun vs => Value.HaveTypes m G vs types ∧ vs.length = ts.length)
      (evaluateAll eval ts) := by
  induction ts generalizing types with
  | nil =>
    rw [Term.HaveTypes] at h
    refine safe_pure ⟨?_, rfl⟩
    rw [Value.HaveTypes]
    exact h
  | cons t ts ih =>
    rw [Term.HaveTypes] at h
    obtain ⟨type, types, rfl, ht, hts⟩ := h
    refine (heval t type ht).bind fun v hv => (ih hts).bind fun vs hvs => safe_pure ?_
    exact ⟨Value.haveTypes_cons hv hvs.1, by rw [List.length_cons, List.length_cons, hvs.2]⟩

/-- A well-typed term is safe with any limit. -/
theorem safe_evaluate (hm : m.Implements G) (hglobals : GlobalsHaveTypes m G globals)
    (limit : Nat) (t : Term) (vars : List Nameless) (env : Env) (type : Nameless)
    (ht : t.HasType m.sig G vars type) (henv : Value.HaveTypes m G env vars) :
    Safe (Value.HasType m G · type) (m.evaluate globals limit t env) := by
  induction limit generalizing t vars env type with
  | zero => exact safe_exhausted
  | succ limit ih =>
    cases t with
    | var index =>
      rw [Term.HasType] at ht
      obtain ⟨v, hv, htype⟩ := henv.exists_getElem? ht
      rw [evaluate, hv]
      exact safe_pure htype
    | global name =>
      rw [Term.HasType] at ht
      exact safe_liftM (permits_globalValue hglobals ht)
    | lam declared body =>
      rw [Term.HasType] at ht
      obtain ⟨param, result, rfl, hbody⟩ := ht
      refine safe_pure ?_
      rw [Value.HasType]
      exact ⟨vars, param, result, rfl, henv, hbody⟩
    | app fn arg =>
      rw [Term.HasType] at ht
      obtain ⟨param, hfn, harg⟩ := ht
      refine (ih fn vars env _ hfn henv).bind fun f hf => ?_
      refine (ih arg vars env _ harg henv).bind fun a ha => ?_
      exact safe_applyWith hm ih hf ha
    | tlam v body =>
      rw [Term.HasType] at ht
      obtain ⟨b, rfl, hbody⟩ := ht
      refine safe_pure ?_
      rw [Value.HasType]
      exact ⟨vars, b, rfl, henv, hbody⟩
    | tapp fn arg =>
      rw [Term.HasType] at ht
      obtain ⟨b, a, rfl, hfn⟩ := ht
      exact (ih fn vars env _ hfn henv).bind fun f hf => safe_applyTypeWith ih hf a
    | con name args =>
      rw [Term.HasType] at ht
      obtain ⟨i, quantified, hquantified, rfl, hlength, hargs⟩ := ht
      have harity : m.constructorArity name args.length = .ok i.fields.length := by
        rw [constructorArity, i.constructorArity?_eq]
        exact if_neg (Nat.not_lt.2 hlength)
      refine Safe.bind (P := fun arity => arity = i.fields.length) ?_ fun arity h => ?_
      · rw [harity]
        exact safe_liftM rfl
      · subst h
        refine (safe_evaluateAll (fun t type ht => ih t vars env type ht henv) hargs).bind
          fun vs hvs => safe_pure ?_
        rw [Value.HasType, hvs.2]
        refine ⟨i, quantified, hquantified.imp_right ?_, rfl, rfl, hlength, hvs.1⟩
        rintro rfl
        exact List.length_eq_zero_iff.1 hvs.2
    | case scrutinee branches =>
      rw [Term.HasType] at ht
      obtain ⟨s, hne, hs, hbranches⟩ := ht
      refine (ih scrutinee vars env s hs henv).bind fun v hv => ?_
      refine (safe_liftM (permits_selectBranch hne hbranches hv)).bind fun r hr => ?_
      obtain ⟨types, hfields, hbody⟩ := hr
      exact ih _ _ _ _ hbody (hfields.append henv)
    | letIn name value body =>
      rw [Term.HasType] at ht
      obtain ⟨u, hvalue, hbody⟩ := ht
      refine (ih value vars env u hvalue henv).bind fun v hv => ?_
      exact ih body _ _ _ hbody (Value.haveTypes_cons hv henv)
    | int value =>
      rw [Term.HasType] at ht
      refine safe_pure ?_
      rw [Value.HasType]
      exact ht
    | string text =>
      rw [Term.HasType] at ht
      refine safe_pure ?_
      rw [Value.HasType]
      exact ht
    | prim name =>
      rw [Term.HasType] at ht
      obtain ⟨t, ht, rfl⟩ := ht
      obtain ⟨p, hp, -⟩ := hm name t ht
      obtain ⟨op, hop, -⟩ := operation_of_primitive? hp
      refine Safe.bind (P := fun op' => op' = op) ?_ fun op' h => ?_
      · rw [hop]
        exact safe_liftM rfl
      · subst h
        have hcall : Safe _ (m.callPrimitive name op' []) :=
          safe_callPrimitive hm ht hop (Nat.zero_le _) rfl
        rw [t.nameless_eq_arrows]
        exact hcall
    | tool name args =>
      rw [Term.HasType] at ht
      exact ht.elim

end

end Machine

/-! ## Programs -/

/-- The types of the globals in `names`. -/
def typesAmong (names : List String) (G : String → Option Nameless) : String → Option Nameless :=
  fun name => if name ∈ names then G name else none

section

variable {G : String → Option Nameless} {names : List String}

theorem typesAmong_eq_some {name : String} {type : Nameless}
    (h : typesAmong names G name = some type) : name ∈ names ∧ G name = some type := by
  rw [typesAmong] at h
  split at h
  next hmem => exact ⟨hmem, h⟩
  next => cases h

theorem typesAmong_of_mem {name : String} (h : name ∈ names) : typesAmong names G name = G name :=
  if_pos h

theorem typesAmong_cons {name : String} {type : Nameless} (other : String)
    (h : typesAmong names G name = some type) : typesAmong (other :: names) G name = some type := by
  obtain ⟨hmem, htype⟩ := typesAmong_eq_some h
  rwa [typesAmong_of_mem (List.mem_cons_of_mem other hmem)]

end

namespace Machine

/-- A global that is entered has its type, and those before it keep theirs. -/
theorem GlobalsHaveTypes.insert {m : Machine} {G : String → Option Nameless}
    {seen : List String} {globals : Globals} {name : String} {o : Option Value}
    (h : GlobalsHaveTypes m (typesAmong seen G) globals)
    (ho : ∀ type, G name = some type →
      ∀ v ∈ o, v.HasType m (typesAmong (name :: seen) G) type) :
    GlobalsHaveTypes m (typesAmong (name :: seen) G) (globals.insert name o) := by
  intro other type htype
  obtain ⟨hmem, hG⟩ := typesAmong_eq_some htype
  rw [Table.get?_insert]
  split
  next heq =>
    subst heq
    exact ⟨o, rfl, ho type hG⟩
  next hne =>
    have hseen := (List.mem_cons.1 hmem).resolve_left hne
    obtain ⟨o', ho', hv⟩ := h other type ((typesAmong_of_mem hseen).trans hG)
    exact ⟨o', ho', fun v hmem => (hv v hmem).mono fun _ _ => typesAmong_cons name⟩

end Machine

namespace Session

open Machine

section

variable {m : Machine} {G : String → Option Nameless} {seen : List String} {s s' : Session}

/-- A definition gets a value of its type, if it gets one. -/
theorem permits_evaluateDefinition (hm : ∀ G, m.Implements G) {limit : Nat} {d : Definition}
    {type : Nameless} (hG : G d.name = some type)
    (hmentions : ∀ name ∈ d.body.globals, name ∈ d.name :: seen)
    (hbody : d.body.HasType m.sig G [] type)
    (hglobals : GlobalsHaveTypes m (typesAmong seen G) s.globals) {r : Except EvalError Value}
    (h : (evaluateDefinition m limit d).outcome? s = some (r, s')) :
    Permits (fun v => v.HasType m (typesAmong (d.name :: seen) G) type ∧
      GlobalsHaveTypes m (typesAmong (d.name :: seen) G) s'.globals) r := by
  have hscoped : d.body.HasType m.sig (typesAmong (d.name :: seen) G) [] type := by
    refine Term.HasType.mono d.body (fun name hname u hu => ?_) hbody
    rwa [typesAmong_of_mem (hmentions name hname)]
  have hbefore : GlobalsHaveTypes m (typesAmong (d.name :: seen) G)
      (s.globals.insert d.name none) := hglobals.insert nofun
  have hsafe := safe_evaluate (hm _) hbefore limit d.body [] [] type hscoped rfl
  rw [outcome?_evaluateDefinition] at h
  obtain ⟨⟨r, history⟩, heval, ⟨⟩⟩ := Option.map_eq_some_iff.1 h
  have hr := hsafe _ _ _ heval
  cases r with
  | error e => exact hr
  | ok v =>
    refine ⟨hr, hglobals.insert fun type' htype' v' hv' => ?_⟩
    obtain rfl := Option.some.inj (hG.symm.trans htype')
    obtain rfl := Option.some.inj hv'
    exact hr

/-- Definitions get values of their types up to the first that fails, and that one fails for a
reason that types do not exclude. -/
theorem permits_evaluateDefinitions (hm : ∀ G, m.Implements G) {limit : Nat}
    {ds : List Definition} (hscoped : Definition.Scoped seen ds)
    (htypes : ∀ d ∈ ds, ∃ type, G d.name = some type ∧ d.body.HasType m.sig G [] type)
    (hglobals : GlobalsHaveTypes m (typesAmong seen G) s.globals)
    {values : List (Definition × Value)} {failure : Option (Definition × EvalError)}
    (h : evaluateDefinitions m limit ds s = some ((values, failure), s')) :
    (∀ p ∈ values, ∃ type, G p.1.name = some type ∧ p.2.HasType m G type) ∧
      ∀ p ∈ failure, p.2.Permitted := by
  induction ds generalizing seen s values with
  | nil =>
    cases h
    exact ⟨List.forall_mem_nil _, by simp⟩
  | cons d ds ih =>
    obtain ⟨-, hmentions, hscoped⟩ := hscoped
    rw [List.forall_mem_cons] at htypes
    obtain ⟨⟨type, hG, hbody⟩, htypes⟩ := htypes
    obtain ⟨e, hd, rfl, rfl⟩ | ⟨v, s₁, others, hd, hrest, rfl⟩ := evaluateDefinitions_cons_iff.1 h
    · have he := permits_evaluateDefinition hm hG hmentions hbody hglobals hd
      refine ⟨List.forall_mem_nil _, ?_⟩
      rintro _ ⟨⟩
      exact he
    · obtain ⟨hv, hglobals⟩ := permits_evaluateDefinition hm hG hmentions hbody hglobals hd
      obtain ⟨hvalues, hfailure⟩ := ih hscoped htypes hglobals hrest
      refine ⟨List.forall_mem_cons.2 ⟨⟨type, hG, hv.mono ?_⟩, hvalues⟩, hfailure⟩
      exact fun _ _ h => (typesAmong_eq_some h).2

end

end Session

end PolyLambda
