import PolyLambda.Proofs.Evaluation.Inhabits
import PolyLambda.Proofs.Evaluation.Sound

/-!
# Values of well-typed terms

A well-typed term comes to inhabitants of its type, if it comes to a value. It is proved for each
form of terms that it does so if its parts do, with any limit and for any number of steps.
-/

namespace PolyLambda

namespace Machine

variable {m : Machine} {G : String → Nameless → Prop} {j k : Nat}

/-! ## Constructors and primitives -/

/-- One more argument for the first of the parameters that are left. -/
theorem forall₂_append_take {args : List Value} {arg : Value} {params rest : List Nameless}
    {t : Nameless} (hargs : List.Forall₂ (InhabitsAt m G k) args (params.take args.length))
    (hrest : params.drop args.length = t :: rest) (harg : InhabitsAt m G k arg t) :
    List.Forall₂ (InhabitsAt m G k) (args ++ [arg]) (params.take (args ++ [arg]).length) := by
  rw [take_append_length arg hrest]
  exact List.rel_append hargs (.cons harg .nil)

/-- A constructor with the first of its fields is a function of the others. -/
theorem inhabitsAt_con {name : String} (i : m.sig.Instance name) {args : List Value}
    (hlength : args.length ≤ i.fields.length)
    (hargs : List.Forall₂ (InhabitsAt m G k) args (i.fields.take args.length)) :
    InhabitsAt m G k (.con name i.fields.length args)
      (Nameless.arrows (i.fields.drop args.length) i.result) := by
  generalize hrest : i.fields.drop args.length = rest
  induction rest generalizing args k with
  | nil =>
    have hall : args.length = i.fields.length := by
      have hnil := congrArg List.length hrest
      rw [List.length_drop, List.length_nil] at hnil
      omega
    rw [hall, List.take_length] at hargs
    show InhabitsAt m G k (.con name i.fields.length args) i.result
    rw [i.result_eq, ← hall]
    exact inhabitsAt_data_iff.2 ⟨name, args, i, rfl, i.result_eq, hargs⟩
  | cons t rest ih =>
    refine inhabitsAt_arrow_iff.2 fun j limit hlt globals _ arg harg => ?_
    obtain ⟨hdrop, hle⟩ := drop_append_length arg hrest
    rw [apply, applyWith, if_pos (by rw [List.length_append, List.length_singleton] at hle; omega)]
    have hfewer := forall₂_inhabitsAt_mono (j := j) (by omega) hargs
    exact yields_pure (ih hle (forall₂_append_take hfewer hrest (harg.mono (by omega))) hdrop)

/-- A constructor without arguments may keep quantifiers. -/
theorem inhabitsAt_con_nil {name : String} (i : m.sig.Instance name) (quantified : List String) :
    InhabitsAt m G k (.con name i.fields.length []) (i.partialType quantified 0) := by
  induction quantified generalizing i k with
  | nil =>
    rw [i.partialType_nil]
    exact inhabitsAt_con i (Nat.zero_le _) .nil
  | cons v quantified ih =>
    obtain ⟨b, hb, hopen⟩ := i.partialType_cons v quantified 0
    rw [hb]
    refine inhabitsAt_all_iff.2 fun j limit _ globals _ a => yields_pure ?_
    obtain ⟨i', hlength, hi'⟩ := hopen a
    rw [hi', ← hlength]
    exact ih i'

/-- Whether the host has every primitive of the signature, which takes the parameters of its type
and gives inhabitants of the result for inhabitants of them. -/
def Provides (m : Machine) (G : String → Nameless → Prop) : Prop :=
  ∀ name t, m.sig.primitiveTypes.get? name = some t →
    ∃ p, m.host.primitive? name = some p ∧ p.arity = t.splitArrows.1.length ∧
      ∀ k args v, List.Forall₂ (InhabitsAt m G k) args (t.splitArrows.1.map Ty.nameless) →
        p.run args = .ok v → InhabitsAt m G k v t.splitArrows.2.nameless

theorem yields_callPrimitive (hm : m.Provides G) {name : String} {t : Ty}
    (ht : m.sig.primitiveTypes.get? name = some t) {op : Operation}
    (hop : m.operation name = .ok op) {args : List Value}
    (hlength : args.length ≤ t.splitArrows.1.length)
    (hargs : List.Forall₂ (InhabitsAt m G k) args
      ((t.splitArrows.1.map Ty.nameless).take args.length)) :
    Yields (fun v => InhabitsAt m G k v (Nameless.arrows
        ((t.splitArrows.1.map Ty.nameless).drop args.length) t.splitArrows.2.nameless))
      (m.callPrimitive name op args) := by
  obtain ⟨p, hp, hparity, hresult⟩ := hm name t ht
  obtain ⟨op', hop', harity, hrun⟩ := operation_of_primitive? hp
  obtain rfl := Except.ok.inj (hop'.symm.trans hop)
  rw [hparity] at harity
  generalize hrest : (t.splitArrows.1.map Ty.nameless).drop args.length = rest
  have hleft : args.length + rest.length = t.splitArrows.1.length := by
    rw [← hrest, List.length_drop, List.length_map]
    omega
  induction rest generalizing args k with
  | nil =>
    rw [List.length_nil, Nat.add_zero] at hleft
    rw [← List.length_map (f := Ty.nameless)] at hleft
    rw [hleft, List.take_length] at hargs
    rw [List.length_map] at hleft
    rw [callPrimitive, if_neg (by omega), hrun]
    exact yields_liftM fun v hv => hresult k args v hargs hv
  | cons u rest ih =>
    rw [List.length_cons] at hleft
    rw [callPrimitive, if_pos (by omega)]
    refine yields_pure (inhabitsAt_arrow_iff.2 fun j limit hlt globals _ arg harg => ?_)
    obtain ⟨hdrop, -⟩ := drop_append_length arg hrest
    have hfewer := forall₂_inhabitsAt_mono (j := j) (by omega) hargs
    refine ih ?_ (forall₂_append_take hfewer hrest (harg.mono (by omega))) hdrop ?_
    · rw [List.length_append, List.length_singleton]
      omega
    · rw [List.length_append, List.length_singleton]
      omega

/-! ## Forms of terms -/

/-- Whether a term comes to values that do what a type says if the variables in scope have such
values of the types `vars`. -/
def Realizes (m : Machine) (G : String → Nameless → Prop) (vars : List Nameless) (t : Term)
    (type : Nameless) : Prop :=
  ∀ k limit globals env, GlobalsInhabitAt m G (k + steps limit) globals →
    List.Forall₂ (InhabitsAt m G (k + steps limit)) env vars →
    Yields (fun v => InhabitsAt m G k v type) (m.evaluate globals limit t env)

section

variable {vars : List Nameless} {type : Nameless}

/-- With one more level of recursion two evaluations can follow one another. -/
theorem realizes_of_succ {t : Term} (h : ∀ k limit globals env,
    GlobalsInhabitAt m G (k + steps limit + steps limit + 1) globals →
    List.Forall₂ (InhabitsAt m G (k + steps limit + steps limit + 1)) env vars →
    Yields (fun v => InhabitsAt m G k v type) (m.evaluate globals (limit + 1) t env)) :
    Realizes m G vars t type := by
  intro k limit globals env hglobals henv
  cases limit with
  | zero => exact yields_exhausted
  | succ limit =>
    rw [steps, ← Nat.add_assoc, ← Nat.add_assoc] at hglobals henv
    exact h k limit globals env hglobals henv

theorem realizes_var {index : Nat} (h : vars[index]? = some type) :
    Realizes m G vars (.var index) type := by
  refine realizes_of_succ fun k limit globals env _ henv => ?_
  rw [evaluate]
  split
  next v hv =>
    obtain ⟨hlt, rfl⟩ := List.getElem?_eq_some_iff.1 hv
    obtain ⟨hlt', rfl⟩ := List.getElem?_eq_some_iff.1 h
    exact yields_pure ((henv.get hlt hlt').mono (by omega))
  next => exact yields_throw _

theorem realizes_global {name : String} (h : G name type) :
    Realizes m G vars (.global name) type := by
  refine realizes_of_succ fun k limit globals env hglobals _ => yields_liftM fun v hv => ?_
  rw [globalValue] at hv
  split at hv
  next w hw =>
    cases hv
    exact (hglobals name type v h hw).mono (by omega)
  next => cases hv
  next => cases hv

theorem realizes_lam {declared : Option Ty} {body : Term} {param result : Nameless}
    (hbody : Realizes m G (param :: vars) body result) :
    Realizes m G vars (.lam declared body) (.arrow param result) := by
  refine realizes_of_succ fun k limit globals env _ henv => yields_pure ?_
  refine inhabitsAt_arrow_iff.2 fun j limit' hlt globals' hglobals' arg harg => ?_
  exact hbody j limit' globals' _ hglobals'
    (.cons harg (forall₂_inhabitsAt_mono (by omega) henv))

theorem realizes_app {fn arg : Term} {param result : Nameless}
    (hfn : Realizes m G vars fn (.arrow param result)) (harg : Realizes m G vars arg param) :
    Realizes m G vars (.app fn arg) result := by
  refine realizes_of_succ fun k limit globals env hglobals henv => ?_
  -- The argument does not depend on the function, but the application does on both.
  refine (hfn (k + steps limit + 1) limit globals env (hglobals.mono (by omega))
    (forall₂_inhabitsAt_mono (by omega) henv)).bind fun f hf => ?_
  refine (harg (k + steps limit) limit globals env (hglobals.mono (by omega))
    (forall₂_inhabitsAt_mono (by omega) henv)).bind fun a ha => ?_
  exact inhabitsAt_arrow_iff.1 hf k limit (Nat.lt_succ_self _) globals
    (hglobals.mono (by omega)) a ha

theorem realizes_tlam {v : String} {body : Term} {b : Nameless}
    (hbody : ∀ a : ClosedType, Realizes m G vars body (Nameless.openAt a.type 0 b)) :
    Realizes m G vars (.tlam v body) (.all b) := by
  refine realizes_of_succ fun k limit globals env _ henv => yields_pure ?_
  refine inhabitsAt_all_iff.2 fun j limit' hlt globals' hglobals' a => ?_
  exact hbody a j limit' globals' _ hglobals' (forall₂_inhabitsAt_mono (by omega) henv)

theorem realizes_tapp {fn : Term} {arg : Ty} {b : Nameless} (a : ClosedType)
    (hfn : Realizes m G vars fn (.all b)) :
    Realizes m G vars (.tapp fn arg) (Nameless.openAt a.type 0 b) := by
  refine realizes_of_succ fun k limit globals env hglobals henv => ?_
  refine (hfn (k + steps limit + 1) limit globals env (hglobals.mono (by omega))
    (forall₂_inhabitsAt_mono (by omega) henv)).bind fun f hf => ?_
  exact inhabitsAt_all_iff.1 hf k limit (Nat.lt_succ_self _) globals (hglobals.mono (by omega)) a

theorem yields_evaluateAll {eval : Term → Eval Value} {ts : List Term} {types : List Nameless}
    (h : List.Forall₂ (fun t type => Yields (fun v => InhabitsAt m G k v type) (eval t)) ts types) :
    Yields (fun vs => List.Forall₂ (InhabitsAt m G k) vs types) (evaluateAll eval ts) := by
  induction h with
  | nil => exact yields_pure .nil
  | cons ht _ ih => exact ht.bind fun v hv => ih.bind fun vs hvs => yields_pure (.cons hv hvs)

theorem realizes_con {name : String} {args : List Term} (i : m.sig.Instance name)
    {quantified : List String} (hquantified : quantified = [] ∨ args = [])
    (hlength : args.length ≤ i.fields.length)
    (hargs : List.Forall₂ (Realizes m G vars) args (i.fields.take args.length)) :
    Realizes m G vars (.con name args) (i.partialType quantified args.length) := by
  refine realizes_of_succ fun k limit globals env hglobals henv => ?_
  refine Yields.bind (P := fun arity => arity = i.fields.length)
    (yields_liftM fun arity harity => ?_) fun arity harity => ?_
  · rw [constructorArity, i.constructorArity?_eq] at harity
    dsimp only at harity
    rw [if_neg (by omega)] at harity
    exact (Except.ok.inj harity).symm
  · subst harity
    have hall : Yields (fun vs => List.Forall₂ (InhabitsAt m G k) vs (i.fields.take args.length))
        (evaluateAll (m.evaluate globals limit · env) args) :=
      yields_evaluateAll (hargs.imp fun t u ht => ht k limit globals env (hglobals.mono (by omega))
        (forall₂_inhabitsAt_mono (by omega) henv))
    refine hall.bind fun vs hvs => yields_pure ?_
    have hcount : vs.length = args.length := by
      rw [hvs.length_eq, List.length_take]
      omega
    rcases hquantified with rfl | rfl
    · rw [i.partialType_nil, ← hcount]
      rw [← hcount] at hvs hlength
      exact inhabitsAt_con i hlength hvs
    · obtain rfl := List.length_eq_zero_iff.1 hcount
      exact inhabitsAt_con_nil i quantified

/-- Whether the body of each branch comes to inhabitants with the fields of a value in scope. -/
def RealizeBranches (m : Machine) (G : String → Nameless → Prop) (vars : List Nameless)
    (scrutinee : Nameless) (branches : List Branch) (type : Nameless) : Prop :=
  ∀ b ∈ branches, ∃ i : m.sig.Instance b.constructor, i.result = scrutinee ∧
    Realizes m G (i.fields ++ vars) b.body type

/-- A value that selects a branch is data with its constructor. -/
theorem selectBranch_eq_ok {v : Value} {branches : List Branch} {b : Branch} {fields : List Value}
    (h : selectBranch v branches = .ok (b, fields)) :
    b ∈ branches ∧ v = .saturated b.constructor fields := by
  rw [selectBranch.eq_def] at h
  split at h
  next name arity args =>
    split at h
    next hlength =>
      split at h
      next => cases h
      next b' hb =>
        split at h
        next =>
          cases h
          rw [findBranch] at hb
          have hname : b.constructor = name := by simpa using List.find?_some hb
          refine ⟨List.mem_of_find?_eq_some hb, ?_⟩
          rw [hname, ← hlength]
          rfl
        next => cases h
    next => cases h
  next => cases h

theorem realizes_case {scrutinee : Term} {branches : List Branch} {s : Nameless}
    (hs : Realizes m G vars scrutinee s) (hbranches : RealizeBranches m G vars s branches type) :
    Realizes m G vars (.case scrutinee branches) type := by
  refine realizes_of_succ fun k limit globals env hglobals henv => ?_
  refine (hs (k + steps limit) limit globals env (hglobals.mono (by omega))
    (forall₂_inhabitsAt_mono (by omega) henv)).bind fun v hv => ?_
  refine Yields.bind (P := fun r => ∃ i : m.sig.Instance r.1.constructor,
      List.Forall₂ (InhabitsAt m G (k + steps limit)) r.2 i.fields ∧
        Realizes m G (i.fields ++ vars) r.1.body type)
    (yields_liftM fun r hr => ?_) fun r hr => ?_
  · obtain ⟨b, fields⟩ := r
    obtain ⟨hb, rfl⟩ := selectBranch_eq_ok hr
    obtain ⟨i, hi, hbody⟩ := hbranches b hb
    rw [← hi, i.result_eq] at hv
    obtain ⟨name, args, i', heq, hi', hargs⟩ := inhabitsAt_data_iff.1 hv
    obtain ⟨rfl, -, rfl⟩ := Value.con.inj heq
    rw [Signature.Instance.fields_eq (hi'.trans i.result_eq.symm)] at hargs
    exact ⟨i, hargs, hbody⟩
  · obtain ⟨i, hfields, hbody⟩ := hr
    exact hbody k limit globals _ (hglobals.mono (by omega))
      (List.rel_append hfields (forall₂_inhabitsAt_mono (by omega) henv))

theorem realizes_letIn {name : String} {value body : Term} {u : Nameless}
    (hvalue : Realizes m G vars value u) (hbody : Realizes m G (u :: vars) body type) :
    Realizes m G vars (.letIn name value body) type := by
  refine realizes_of_succ fun k limit globals env hglobals henv => ?_
  refine (hvalue (k + steps limit) limit globals env (hglobals.mono (by omega))
    (forall₂_inhabitsAt_mono (by omega) henv)).bind fun v hv => ?_
  exact hbody k limit globals _ (hglobals.mono (by omega))
    (.cons hv (forall₂_inhabitsAt_mono (by omega) henv))

theorem realizes_int {value : Int64} : Realizes m G vars (.int value) (.prim "Int") :=
  realizes_of_succ fun _ _ _ _ _ _ => yields_pure (inhabitsAt_prim_iff.2 (.inl ⟨rfl, value, rfl⟩))

theorem realizes_string {text : String} : Realizes m G vars (.string text) (.prim "String") :=
  realizes_of_succ fun _ _ _ _ _ _ => yields_pure (inhabitsAt_prim_iff.2 (.inr ⟨rfl, text, rfl⟩))

theorem realizes_prim (hm : m.Provides G) {name : String} {t : Ty}
    (ht : m.sig.primitiveTypes.get? name = some t) : Realizes m G vars (.prim name) t.nameless := by
  refine realizes_of_succ fun k limit globals env _ _ => ?_
  refine Yields.bind (P := fun op => m.operation name = .ok op) (yields_liftM fun _ hop => hop)
    fun op hop => ?_
  have hcall := yields_callPrimitive (k := k) hm ht hop (Nat.zero_le _) .nil
  rwa [List.length_nil, List.drop_zero, ← Ty.nameless_eq_arrows] at hcall

end

/-! ## Well-typed terms -/

section

variable {Γ : String → Option Nameless}

mutual

/-- A well-typed term comes to inhabitants of its type. -/
theorem realizes_of_hasType (hm : m.Provides G)
    (hΓ : ∀ name type, Γ name = some type → G name type) :
    (t : Term) → {vars : List Nameless} → {type : Nameless} → t.HasType m.sig Γ vars type →
    Realizes m G vars t type
  | .var index, vars, type, h => by
    rw [Term.HasType] at h
    exact realizes_var h
  | .global name, vars, type, h => by
    rw [Term.HasType] at h
    exact realizes_global (hΓ name type h)
  | .lam declared body, vars, type, h => by
    rw [Term.HasType] at h
    obtain ⟨param, result, rfl, hbody⟩ := h
    exact realizes_lam (realizes_of_hasType hm hΓ body hbody)
  | .app fn arg, vars, type, h => by
    rw [Term.HasType] at h
    obtain ⟨param, hfn, harg⟩ := h
    exact realizes_app (realizes_of_hasType hm hΓ fn hfn) (realizes_of_hasType hm hΓ arg harg)
  | .tlam v body, vars, type, h => by
    rw [Term.HasType] at h
    obtain ⟨b, rfl, hbody⟩ := h
    exact realizes_tlam fun a => realizes_of_hasType hm hΓ body (hbody a)
  | .tapp fn arg, vars, type, h => by
    rw [Term.HasType] at h
    obtain ⟨b, a, rfl, hfn⟩ := h
    exact realizes_tapp a (realizes_of_hasType hm hΓ fn hfn)
  | .con name args, vars, type, h => by
    rw [Term.HasType] at h
    obtain ⟨i, quantified, hquantified, rfl, hlength, hargs⟩ := h
    exact realizes_con i hquantified hlength (realize_of_haveTypes hm hΓ args hargs)
  | .case scrutinee branches, vars, type, h => by
    rw [Term.HasType] at h
    obtain ⟨s, -, hs, hbranches⟩ := h
    exact realizes_case (realizes_of_hasType hm hΓ scrutinee hs)
      (realizeBranches_of_branchesHaveType hm hΓ branches hbranches)
  | .letIn name value body, vars, type, h => by
    rw [Term.HasType] at h
    obtain ⟨u, hvalue, hbody⟩ := h
    exact realizes_letIn (realizes_of_hasType hm hΓ value hvalue)
      (realizes_of_hasType hm hΓ body hbody)
  | .int value, vars, type, h => by
    rw [Term.HasType] at h
    rw [h]
    exact realizes_int
  | .string text, vars, type, h => by
    rw [Term.HasType] at h
    rw [h]
    exact realizes_string
  | .prim name, vars, type, h => by
    rw [Term.HasType] at h
    obtain ⟨t, ht, rfl⟩ := h
    exact realizes_prim hm ht
  | .tool name args, vars, type, h => by
    rw [Term.HasType] at h
    exact h.elim

theorem realize_of_haveTypes (hm : m.Provides G)
    (hΓ : ∀ name type, Γ name = some type → G name type) :
    (ts : List Term) → {vars types : List Nameless} → Term.HaveTypes m.sig Γ vars ts types →
    List.Forall₂ (Realizes m G vars) ts types
  | [], vars, types, h => by
    rw [Term.HaveTypes] at h
    rw [h]
    exact .nil
  | t :: ts, vars, types, h => by
    rw [Term.HaveTypes] at h
    obtain ⟨type, types, rfl, ht, hts⟩ := h
    exact .cons (realizes_of_hasType hm hΓ t ht) (realize_of_haveTypes hm hΓ ts hts)

theorem realizeBranches_of_branchesHaveType (hm : m.Provides G)
    (hΓ : ∀ name type, Γ name = some type → G name type) :
    (branches : List Branch) → {vars : List Nameless} → {scrutinee type : Nameless} →
    Term.BranchesHaveType m.sig Γ vars scrutinee branches type →
    RealizeBranches m G vars scrutinee branches type
  | [], vars, scrutinee, type, _ => List.forall_mem_nil _
  | .mk constructor names body :: branches, vars, scrutinee, type, h => by
    rw [Term.BranchesHaveType] at h
    obtain ⟨⟨i, hi, -, hbody⟩, hbranches⟩ := h
    exact List.forall_mem_cons.2 ⟨⟨i, hi, realizes_of_hasType hm hΓ body hbody⟩,
      realizeBranches_of_branchesHaveType hm hΓ branches hbranches⟩

end

end

/-! ## Programs -/

/-- A global that is entered with an inhabitant of all of its types, or without a value. -/
theorem GlobalsInhabit.insert {globals : Globals} (h : GlobalsInhabit m G globals) (name : String)
    {o : Option Value} (ho : ∀ type, G name type → ∀ v ∈ o, Inhabits m G v type) :
    GlobalsInhabit m G (globals.insert name o) := by
  intro other type w htype hw
  rw [Table.get?_insert] at hw
  split at hw
  next heq =>
    subst heq
    exact ho type htype w (Option.some.inj hw)
  next => exact h other type w htype hw

end Machine

namespace Session

open Machine

variable {m : Machine} {G : String → Nameless → Prop} {limit : Nat} {s s' : Session}

/-- A definition gets an inhabitant of all of its types, if it gets a value, and all globals stay
inhabitants of theirs. -/
theorem inhabits_evaluateDefinition {d : Definition}
    (hbody : ∀ type, G d.name type → Realizes m G [] d.body type)
    (hglobals : GlobalsInhabit m G s.globals) {r : Except EvalError Value}
    (h : (evaluateDefinition m limit d).outcome? s = some (r, s')) :
    GlobalsInhabit m G s'.globals ∧
      ∀ v, r = .ok v → ∀ type, G d.name type → Inhabits m G v type := by
  have hbefore : GlobalsInhabit m G (s.globals.insert d.name none) :=
    hglobals.insert d.name nofun
  rw [outcome?_evaluateDefinition] at h
  obtain ⟨⟨r, history⟩, heval, ⟨⟩⟩ := Option.map_eq_some_iff.1 h
  cases r with
  | error e => exact ⟨hbefore, by simp⟩
  | ok v =>
    have hv (type : Nameless) (htype : G d.name type) : Inhabits m G v type := fun k =>
      hbody type htype k limit _ [] (fun name u w hu hw => hbefore name u w hu hw _) .nil
        s.history v history heval
    refine ⟨hglobals.insert d.name ?_, ?_⟩
    · rintro type htype _ ⟨⟩
      exact hv type htype
    · rintro _ ⟨⟩
      exact hv

/-- Definitions get inhabitants of all of their types up to the first that fails. -/
theorem inhabits_evaluateDefinitions {ds : List Definition}
    (hbodies : ∀ d ∈ ds, ∀ type, G d.name type → Realizes m G [] d.body type)
    (hglobals : GlobalsInhabit m G s.globals) {values : List (Definition × Value)}
    {failure : Option (Definition × EvalError)}
    (h : evaluateDefinitions m limit ds s = some ((values, failure), s')) :
    GlobalsInhabit m G s'.globals ∧
      ∀ p ∈ values, p.1 ∈ ds ∧ ∀ type, G p.1.name type → Inhabits m G p.2 type := by
  induction ds generalizing s values with
  | nil =>
    cases h
    exact ⟨hglobals, List.forall_mem_nil _⟩
  | cons d ds ih =>
    rw [List.forall_mem_cons] at hbodies
    obtain ⟨e, hd, rfl, rfl⟩ | ⟨v, s₁, others, hd, hrest, rfl⟩ := evaluateDefinitions_cons_iff.1 h
    · exact ⟨(inhabits_evaluateDefinition hbodies.1 hglobals hd).1, List.forall_mem_nil _⟩
    · obtain ⟨hglobals₁, hv⟩ := inhabits_evaluateDefinition hbodies.1 hglobals hd
      obtain ⟨hglobals₂, hvalues⟩ := ih hbodies.2 hglobals₁ hrest
      refine ⟨hglobals₂, List.forall_mem_cons.2 ⟨⟨List.mem_cons_self, hv v rfl⟩, fun p hp => ?_⟩⟩
      exact (hvalues p hp).imp_left (List.mem_cons_of_mem d)

end Session

end PolyLambda
