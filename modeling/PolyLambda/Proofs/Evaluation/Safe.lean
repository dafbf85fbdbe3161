import PolyLambda.Evaluation
import PolyLambda.Proofs.Typing.Judgment

/-!
# Evaluating well-typed terms

A term that has a type evaluates to a value of that type, or fails for a reason that types do not
exclude. Values are data of a data type, or functions whose bodies have the types that they need to
have in an environment of values, so there is no circle in what it means that a value has a type.
-/

namespace PolyLambda

/-- The errors that types do not exclude. -/
def EvalError.Permitted : EvalError → Prop
  | .divisionByZero | .noBranch _ | .usedBeforeDefinition _ => True
  | _ => False

instance : DecidablePred EvalError.Permitted
  | .divisionByZero | .noBranch _ | .usedBeforeDefinition _ => .isTrue trivial
  | .unboundVariable _ | .undefinedGlobal _ | .undefinedConstructor _ | .constructorArgs _ _ _
  | .notFunction _ | .notTypeFunction _ | .notData _ | .patternArity _ _ _ | .undefinedPrimitive _
  | .noImplementation _ | .noLlmFunction _ | .missingArgument _ | .notInt _ _ | .notString _ _
  | .primitiveFailed _ | .unknownTool _ | .toolFailed _ _ => .isFalse id

/-! ## Well-typed values -/

namespace Value

section

variable (m : Machine) (globals : String → Option Nameless)

mutual

/-- Whether a value has a type. -/
def HasType : Value → Nameless → Prop
  | .int _, type => type = .prim "Int"
  | .string _, type => type = .prim "String"
  | .con name arity args, type =>
    ∃ (i : m.sig.Instance name) (quantified : List String), (quantified = [] ∨ args = []) ∧
      type = i.partialType quantified args.length ∧ arity = i.fields.length ∧
      args.length ≤ arity ∧ HaveTypes args (i.fields.take args.length)
  | .closure env body, type =>
    ∃ vars param result, type = .arrow param result ∧ HaveTypes env vars ∧
      body.HasType m.sig globals (param :: vars) result
  | .typeClosure env body, type =>
    ∃ vars b, type = .all b ∧ HaveTypes env vars ∧
      ∀ a : ClosedType, body.HasType m.sig globals vars (Nameless.openAt a.type 0 b)
  | .prim name op args, type =>
    ∃ t, m.sig.primitiveTypes.get? name = some t ∧ m.operation name = .ok op ∧
      op.arity = t.splitArrows.1.length ∧ args.length < op.arity ∧
      HaveTypes args ((t.splitArrows.1.map Ty.nameless).take args.length) ∧
      type = Nameless.arrows ((t.splitArrows.1.map Ty.nameless).drop args.length)
        t.splitArrows.2.nameless

/-- Whether each of the values has the type in its place. -/
def HaveTypes : List Value → List Nameless → Prop
  | [], types => types = []
  | v :: vs, types => ∃ t ts, types = t :: ts ∧ HasType v t ∧ HaveTypes vs ts

end

end

section

variable {m : Machine} {G G' : String → Option Nameless}

theorem haveTypes_cons {v : Value} {vs : List Value} {t : Nameless} {ts : List Nameless}
    (hv : v.HasType m G t) (hvs : HaveTypes m G vs ts) : HaveTypes m G (v :: vs) (t :: ts) := by
  rw [HaveTypes]
  exact ⟨t, ts, rfl, hv, hvs⟩

/-- A constructor without fields has the type that it makes. -/
theorem hasType_saturated_nil {name : String} (i : m.sig.Instance name) (hfields : i.fields = [])
    {type : Nameless} (hresult : i.result = type) : (saturated name []).HasType m G type := by
  rw [saturated, HasType]
  refine ⟨i, [], .inl rfl, ?_, by rw [hfields]; rfl, Nat.le_refl _, ?_⟩
  · rw [i.partialType_nil, hfields, hresult]
    rfl
  · rw [hfields]
    rfl

theorem HaveTypes.append {vs ws : List Value} {ts us : List Nameless} (hvs : HaveTypes m G vs ts)
    (hws : HaveTypes m G ws us) : HaveTypes m G (vs ++ ws) (ts ++ us) := by
  induction vs generalizing ts with
  | nil =>
    rw [HaveTypes] at hvs
    rwa [hvs]
  | cons v vs ih =>
    rw [HaveTypes] at hvs
    obtain ⟨t, ts, rfl, hv, hvs⟩ := hvs
    exact haveTypes_cons hv (ih hvs)

theorem HaveTypes.length_eq {vs : List Value} {ts : List Nameless} (h : HaveTypes m G vs ts) :
    vs.length = ts.length := by
  induction vs generalizing ts with
  | nil =>
    rw [HaveTypes] at h
    rw [h]
    rfl
  | cons v vs ih =>
    rw [HaveTypes] at h
    obtain ⟨t, ts, rfl, -, hvs⟩ := h
    rw [List.length_cons, List.length_cons, ih hvs]

theorem HaveTypes.exists_getElem? {vs : List Value} {ts : List Nameless} {index : Nat}
    {t : Nameless} (h : HaveTypes m G vs ts) (ht : ts[index]? = some t) :
    ∃ v, vs[index]? = some v ∧ v.HasType m G t := by
  induction vs generalizing ts index with
  | nil =>
    rw [HaveTypes] at h
    rw [h] at ht
    cases ht
  | cons v vs ih =>
    rw [HaveTypes] at h
    obtain ⟨u, us, rfl, hv, hvs⟩ := h
    cases index with
    | zero =>
      obtain rfl := Option.some.inj ht
      exact ⟨v, rfl, hv⟩
    | succ index => exact ih hvs ht

mutual

/-- More globals do no harm. -/
theorem HasType.mono (hG : ∀ name u, G name = some u → G' name = some u) :
    (v : Value) → {type : Nameless} → v.HasType m G type → v.HasType m G' type
  | .int _, _, h => h
  | .string _, _, h => h
  | .con _ _ args, _, h => by
    rw [HasType] at h ⊢
    obtain ⟨i, quantified, hquantified, rfl, harity, hlength, hargs⟩ := h
    exact ⟨i, quantified, hquantified, rfl, harity, hlength, HaveTypes.mono hG args hargs⟩
  | .closure env body, _, h => by
    rw [HasType] at h ⊢
    obtain ⟨vars, param, result, rfl, henv, hbody⟩ := h
    exact ⟨vars, param, result, rfl, HaveTypes.mono hG env henv,
      Term.HasType.mono body (fun name _ => hG name) hbody⟩
  | .typeClosure env body, _, h => by
    rw [HasType] at h ⊢
    obtain ⟨vars, b, rfl, henv, hbody⟩ := h
    exact ⟨vars, b, rfl, HaveTypes.mono hG env henv,
      fun a => Term.HasType.mono body (fun name _ => hG name) (hbody a)⟩
  | .prim _ _ args, _, h => by
    rw [HasType] at h ⊢
    obtain ⟨t, ht, hop, harity, hlength, hargs, rfl⟩ := h
    exact ⟨t, ht, hop, harity, hlength, HaveTypes.mono hG args hargs, rfl⟩

theorem HaveTypes.mono (hG : ∀ name u, G name = some u → G' name = some u) :
    (vs : List Value) → {types : List Nameless} → HaveTypes m G vs types →
    HaveTypes m G' vs types
  | [], _, h => h
  | v :: vs, _, h => by
    rw [HaveTypes] at h
    obtain ⟨t, ts, rfl, hv, hvs⟩ := h
    exact haveTypes_cons (HasType.mono hG v hv) (HaveTypes.mono hG vs hvs)

end

end

/-- A primitive that waits for arguments is a function. -/
theorem HasType.prim_eq_arrow {m : Machine} {G : String → Option Nameless} {name : String}
    {op : Operation} {args : List Value} {type : Nameless}
    (h : (Value.prim name op args).HasType m G type) :
    ∃ t p rest, m.sig.primitiveTypes.get? name = some t ∧ m.operation name = .ok op ∧
      op.arity = t.splitArrows.1.length ∧
      HaveTypes m G args ((t.splitArrows.1.map Ty.nameless).take args.length) ∧
      (t.splitArrows.1.map Ty.nameless).drop args.length = p :: rest ∧
      type = .arrow p (Nameless.arrows rest t.splitArrows.2.nameless) := by
  rw [HasType] at h
  obtain ⟨t, ht, hop, harity, hlength, hargs, rfl⟩ := h
  cases hdrop : (t.splitArrows.1.map Ty.nameless).drop args.length with
  | nil =>
    have hnil := congrArg List.length hdrop
    rw [List.length_drop, List.length_map, List.length_nil] at hnil
    omega
  | cons p rest => exact ⟨t, p, rest, ht, hop, harity, hargs, hdrop, rfl⟩

/-- The values of data types are constructors with all their fields. -/
theorem HasType.exists_con {m : Machine} {G : String → Option Nameless} {v : Value}
    {type : String} {types : List Nameless} (h : v.HasType m G (.data type types)) :
    ∃ (name : String) (i : m.sig.Instance name) (args : List Value),
      v = .con name i.fields.length args ∧ args.length = i.fields.length ∧
      i.result = .data type types ∧ HaveTypes m G args i.fields := by
  cases v with
  | con name arity args =>
    rw [HasType] at h
    obtain ⟨i, quantified, -, heq, rfl, hlength, hargs⟩ := h
    obtain ⟨hdrop, hresult⟩ := Signature.Instance.partialType_eq_data heq.symm
    have hall : args.length = i.fields.length :=
      Nat.le_antisymm hlength (List.drop_eq_nil_iff.1 hdrop)
    rw [hall, List.take_length] at hargs
    exact ⟨name, i, args, rfl, hall, hresult, hargs⟩
  | int n =>
    rw [HasType] at h
    cases h
  | string text =>
    rw [HasType] at h
    cases h
  | closure env body =>
    rw [HasType] at h
    obtain ⟨_, _, _, heq, -⟩ := h
    cases heq
  | typeClosure env body =>
    rw [HasType] at h
    obtain ⟨_, _, heq, -⟩ := h
    cases heq
  | prim name op args =>
    obtain ⟨_, _, _, -, -, -, -, -, heq⟩ := h.prim_eq_arrow
    cases heq

end Value

/-! ## Safe computations -/

namespace Machine

/-- Whether a result is as `P` says, or an error that types do not exclude. -/
def Permits {α : Type} (P : α → Prop) : Except EvalError α → Prop
  | .ok a => P a
  | .error e => e.Permitted

/-- Whether a computation comes only to results that `P` permits, if it comes to an end. -/
def Safe {α : Type} (P : α → Prop) (step : Eval α) : Prop :=
  ∀ history r history', step.outcome? history = some (r, history') → Permits P r

section

variable {α β : Type} {P : α → Prop} {Q : β → Prop}

theorem safe_exhausted : Safe P (LimitedState.exhausted : Eval α) := nofun

theorem safe_pure {a : α} (h : P a) : Safe P (pure a : Eval α) := by
  intro history r history' houtcome
  cases houtcome
  exact h

theorem safe_liftM {r : Except EvalError α} (h : Permits P r) : Safe P (liftM r : Eval α) := by
  intro history r' history' houtcome
  rw [LimitedState.outcome?_liftM] at houtcome
  cases houtcome
  exact h

theorem Safe.bind {step : Eval α} {f : α → Eval β} (h : Safe P step)
    (hf : ∀ a, P a → Safe Q (f a)) :
    Safe Q (step >>= f) := by
  intro history r history' houtcome
  cases r with
  | ok b =>
    obtain ⟨a, history₁, hstep, hrest⟩ := LimitedState.outcome?_bind_eq_ok_iff.1 houtcome
    exact hf a (h history _ history₁ hstep) history₁ _ history' hrest
  | error e =>
    obtain hstep | ⟨a, history₁, hstep, hrest⟩ := LimitedState.outcome?_bind_eq_error_iff.1 houtcome
    · exact h history _ history' hstep
    · exact hf a (h history _ history₁ hstep) history₁ _ history' hrest

end

/-! ## Primitives and constructors -/

/-- Whether a primitive takes the parameters of the type and is safe on arguments of their types. -/
structure Fits (m : Machine) (G : String → Option Nameless) (p : Primitive) (t : Ty) : Prop where
  arity : p.arity = t.splitArrows.1.length
  run : ∀ args, Value.HaveTypes m G args (t.splitArrows.1.map Ty.nameless) →
    Permits (Value.HasType m G · t.splitArrows.2.nameless) (p.run args)

/-- Whether the host has every primitive of the signature, with its type. -/
def Implements (m : Machine) (G : String → Option Nameless) : Prop :=
  ∀ name t, m.sig.primitiveTypes.get? name = some t →
    ∃ p, m.host.primitive? name = some p ∧ Fits m G p t

section

variable {m : Machine} {G : String → Option Nameless}

theorem take_append_length {args : List Value} (arg : Value) {params rest : List Nameless}
    {t : Nameless} (hrest : params.drop args.length = t :: rest) :
    params.take (args ++ [arg]).length = params.take args.length ++ [t] := by
  have hget : params[args.length]? = some t := by
    rw [← List.head?_drop, hrest, List.head?_cons]
  rw [List.length_append, List.length_singleton, List.take_add_one, hget, Option.toList_some]

/-- One more argument for the first of the parameters that are left. -/
theorem haveTypes_append_take {args : List Value} {arg : Value} {params rest : List Nameless}
    {t : Nameless} (hargs : Value.HaveTypes m G args (params.take args.length))
    (hrest : params.drop args.length = t :: rest) (harg : arg.HasType m G t) :
    Value.HaveTypes m G (args ++ [arg]) (params.take (args ++ [arg]).length) := by
  rw [take_append_length arg hrest]
  refine hargs.append (Value.haveTypes_cons harg ?_)
  rw [Value.HaveTypes]

theorem drop_append_length {args : List Value} (arg : Value) {params rest : List Nameless}
    {t : Nameless} (hrest : params.drop args.length = t :: rest) :
    params.drop (args ++ [arg]).length = rest ∧ (args ++ [arg]).length ≤ params.length := by
  have hlength := congrArg List.length hrest
  rw [List.length_drop, List.length_cons] at hlength
  rw [List.length_append, List.length_singleton, ← List.drop_drop, hrest]
  exact ⟨rfl, by omega⟩

theorem safe_callPrimitive (hm : m.Implements G) {name : String} {t : Ty}
    (ht : m.sig.primitiveTypes.get? name = some t) {op : Operation}
    (hop : m.operation name = .ok op)
    {args : List Value} (hlength : args.length ≤ t.splitArrows.1.length)
    (hargs : Value.HaveTypes m G args ((t.splitArrows.1.map Ty.nameless).take args.length)) :
    Safe (Value.HasType m G · (Nameless.arrows
        ((t.splitArrows.1.map Ty.nameless).drop args.length) t.splitArrows.2.nameless))
      (m.callPrimitive name op args) := by
  obtain ⟨p, hp, hfits⟩ := hm name t ht
  obtain ⟨op', hop', harity, hrun⟩ := operation_of_primitive? hp
  cases hop.symm.trans hop'
  rw [hfits.arity] at harity
  rw [callPrimitive]
  split
  next hlt =>
    refine safe_pure ?_
    rw [Value.HasType]
    exact ⟨t, ht, hop, harity, hlt, hargs, rfl⟩
  next hge =>
    have hall : args.length = (t.splitArrows.1.map Ty.nameless).length := by
      rw [List.length_map]
      omega
    rw [hall, List.take_length] at hargs
    rw [hall, List.drop_length, hrun]
    exact safe_liftM (hfits.run args hargs)

end

/-! ## Functions -/

section

variable {m : Machine} {G : String → Option Nameless} {eval : Term → Env → Eval Value}
  (hm : m.Implements G)
  (heval : ∀ (t : Term) (vars : List Nameless) (env : Env) (type : Nameless),
    t.HasType m.sig G vars type → Value.HaveTypes m G env vars →
      Safe (Value.HasType m G · type) (eval t env))

include heval

include hm in
/-- A function applied to an argument of its type. -/
theorem safe_applyWith {fn arg : Value} {param result : Nameless}
    (hfn : fn.HasType m G (.arrow param result)) (harg : arg.HasType m G param) :
    Safe (Value.HasType m G · result) (m.applyWith eval fn arg) := by
  cases fn with
  | closure env body =>
    rw [Value.HasType] at hfn
    obtain ⟨vars, p, r, heq, henv, hbody⟩ := hfn
    cases heq
    exact heval body _ _ _ hbody (Value.haveTypes_cons harg henv)
  | prim name op args =>
    obtain ⟨t, p, rest, ht, hop, -, hargs, hdrop, heq⟩ := hfn.prim_eq_arrow
    cases heq
    obtain ⟨hrest, hle⟩ := drop_append_length arg hdrop
    rw [List.length_map] at hle
    have hcall := safe_callPrimitive hm ht hop hle (haveTypes_append_take hargs hdrop harg)
    rw [hrest] at hcall
    exact hcall
  | con name arity args =>
    rw [Value.HasType] at hfn
    obtain ⟨i, quantified, -, heq, rfl, hlength, hargs⟩ := hfn
    obtain ⟨rfl, rest, hdrop, rfl⟩ := Signature.Instance.partialType_eq_arrow heq.symm
    obtain ⟨hrest, hle⟩ := drop_append_length arg hdrop
    rw [applyWith, if_pos (by rw [List.length_append, List.length_singleton] at hle; omega)]
    refine safe_pure ?_
    rw [Value.HasType]
    refine ⟨i, [], .inl rfl, ?_, rfl, hle, haveTypes_append_take hargs hdrop harg⟩
    rw [i.partialType_nil, hrest]
  | int n =>
    rw [Value.HasType] at hfn
    cases hfn
  | string text =>
    rw [Value.HasType] at hfn
    cases hfn
  | typeClosure env body =>
    rw [Value.HasType] at hfn
    obtain ⟨vars, b, heq, -⟩ := hfn
    cases heq

/-- A value of a quantified type applied to a type. -/
theorem safe_applyTypeWith {fn : Value} {b : Nameless} (hfn : fn.HasType m G (.all b))
    (a : ClosedType) :
    Safe (Value.HasType m G · (Nameless.openAt a.type 0 b)) (applyTypeWith eval fn) := by
  cases fn with
  | typeClosure env body =>
    rw [Value.HasType] at hfn
    obtain ⟨vars, b', heq, henv, hbody⟩ := hfn
    cases heq
    exact heval body _ _ _ (hbody a) henv
  | con name arity args =>
    rw [Value.HasType] at hfn
    obtain ⟨i, quantified, hquantified, heq, rfl, hlength, hargs⟩ := hfn
    obtain ⟨hne, hopen⟩ := Signature.Instance.partialType_eq_all heq.symm
    obtain rfl := hquantified.resolve_left hne
    obtain ⟨j, rest, hfields, hj⟩ := hopen a
    refine safe_pure ?_
    rw [Value.HasType]
    exact ⟨j, rest, .inr rfl, hj, hfields.symm, hlength, hargs⟩
  | prim name op args =>
    obtain ⟨t, p, rest, -, -, -, -, -, heq⟩ := hfn.prim_eq_arrow
    cases heq
  | closure env body =>
    rw [Value.HasType] at hfn
    obtain ⟨vars, p, r, heq, -⟩ := hfn
    cases heq
  | int n =>
    rw [Value.HasType] at hfn
    cases hfn
  | string text =>
    rw [Value.HasType] at hfn
    cases hfn

end

/-! ## Branches -/

section

variable {m : Machine} {G : String → Option Nameless}

/-- The branches for a constructor have the type of its fields in scope. -/
theorem exists_instance_of_findBranch {name : String} {branches : List Branch} {b : Branch}
    {vars : List Nameless} {scrutinee type : Nameless}
    (hbranches : Term.BranchesHaveType m.sig G vars scrutinee branches type)
    (hb : findBranch name branches = some b) :
    ∃ i : m.sig.Instance name, i.result = scrutinee ∧ i.fields.length = b.vars.length ∧
      b.body.HasType m.sig G (i.fields ++ vars) type := by
  induction branches with
  | nil => cases hb
  | cons branch branches ih =>
    obtain ⟨constructor, names, body⟩ := branch
    rw [Term.BranchesHaveType] at hbranches
    obtain ⟨hfirst, hrest⟩ := hbranches
    rw [findBranch, List.find?_cons] at hb
    split at hb
    next heq =>
      cases hb
      rw [← of_decide_eq_true heq]
      exact hfirst
    next => exact ih hrest hb

/-- A value of the type that branches match selects one of them with its fields, or none. -/
theorem permits_selectBranch {v : Value} {branches : List Branch} {vars : List Nameless}
    {scrutinee type : Nameless} (hne : branches ≠ [])
    (hbranches : Term.BranchesHaveType m.sig G vars scrutinee branches type)
    (hv : v.HasType m G scrutinee) :
    Permits (fun r : Branch × List Value => ∃ types, Value.HaveTypes m G r.2 types ∧
      r.1.body.HasType m.sig G (types ++ vars) type) (selectBranch v branches) := by
  -- The first branch shows that the value is data.
  obtain ⟨other, k, hk⟩ : ∃ (other : String) (k : m.sig.Instance other), k.result = scrutinee := by
    cases branches with
    | nil => exact absurd rfl hne
    | cons branch branches =>
      obtain ⟨constructor, names, body⟩ := branch
      rw [Term.BranchesHaveType] at hbranches
      obtain ⟨⟨i, hi, -⟩, -⟩ := hbranches
      exact ⟨constructor, i, hi⟩
  have hdata := k.result_eq
  rw [hk] at hdata
  rw [hdata] at hv
  obtain ⟨name, i, args, rfl, hall, hresult, hargs⟩ := hv.exists_con
  rw [selectBranch, if_pos hall]
  split
  next => trivial
  next b hb =>
    obtain ⟨j, hj, hvars, hbody⟩ := exists_instance_of_findBranch hbranches hb
    have hfields : j.fields = i.fields :=
      Signature.Instance.fields_eq (hj.trans (hdata.trans hresult.symm))
    rw [if_pos (by rw [← hvars, hfields, hall])]
    rw [hfields] at hbody
    exact ⟨i.fields, hargs, hbody⟩

end

end Machine

end PolyLambda
