import PolyLambda.Proofs.Dangling
import PolyLambda.Proofs.Evaluation.SideBySide

/-!
# Primitives and their arguments

No value has more arguments than it takes, wherever in it one looks, and a primitive that still
waits for arguments has fewer (`Value.WellFormed`). Evaluation keeps this, of any term, typed or
not. So a function of the host is only ever called with exactly as many arguments as it takes, and
they are well-formed: whatever it would do with others makes no difference (`Careful.calls`), and
where it does not miss an argument when there are so many, the evaluation never fails for want of
one (`Careful.missing`). The primitives of the language are of that kind (`proper_builtins`).

It does not matter where a primitive comes from. A value from a tool or from the environment may
hold a function that no name stands for, or one that its name does not stand for any longer.

The first two facts need each other, so they are proved at once: the evaluation with some functions
of the host comes to the same as that with others, and all its values are well-formed (`Twins`).
-/

namespace PolyLambda

/-- The error of a primitive that is called with too few arguments. -/
def EvalError.Missing : EvalError → Prop
  | .missingArgument _ => True
  | _ => False

namespace Value

/-- Whether constructors and primitives, however deep in a value, have no more arguments than they
take, and primitives have fewer. -/
inductive WellFormed : Value → Prop
  | int (value : Int64) : WellFormed (.int value)
  | string (text : String) : WellFormed (.string text)
  | con (name : String) {arity : Nat} {args : List Value} (hlength : args.length ≤ arity)
    (hargs : ∀ v ∈ args, WellFormed v) : WellFormed (.con name arity args)
  | closure {env : List Value} (henv : ∀ v ∈ env, WellFormed v) (body : Term) :
    WellFormed (.closure env body)
  | typeClosure {env : List Value} (henv : ∀ v ∈ env, WellFormed v) (body : Term) :
    WellFormed (.typeClosure env body)
  | prim (name : String) {op : Operation} {args : List Value} (hlength : args.length < op.arity)
    (hargs : ∀ v ∈ args, WellFormed v) : WellFormed (.prim name op args)

theorem wellFormed_saturated {name : String} {args : List Value}
    (hargs : ∀ v ∈ args, v.WellFormed) : (saturated name args).WellFormed :=
  .con name (Nat.le_refl _) hargs

/-- Whether the values in a list are as many as `arity`, and well-formed. -/
def Complete (arity : Nat) (args : List Value) : Prop :=
  args.length = arity ∧ ∀ v ∈ args, v.WellFormed

end Value

open Value (WellFormed Complete)

namespace Host

/-- Whether the functions and the tools of a host make well-formed values of well-formed
arguments. -/
structure KeepsForm (h : Host) : Prop where
  native : ∀ n args, Complete n.arity args → ∀ v, h.native n args = .ok v → v.WellFormed
  tools : h.tools.All fun tool => ∀ args : List Value, (∀ v ∈ args, v.WellFormed) →
    ∀ v, tool args = .ok v → v.WellFormed

/-- Whether other functions are the same as those of a host on as many arguments as they take. -/
def SameCalls (h : Host) (native : Native → List Value → Except EvalError Value) : Prop :=
  ∀ n args, Complete n.arity args → native n args = h.native n args

/-- Whether a function that has all its arguments finds them. -/
def NeverMisses (h : Host) : Prop :=
  ∀ n args, Complete n.arity args → ∀ e, h.native n args = .error e → ¬ e.Missing

end Host

namespace Machine

/-- The machine with other functions of the host. -/
def withNative (m : Machine) (native : Native → List Value → Except EvalError Value) : Machine :=
  { m with host := { m.host with native := native } }

/-- What holds of a step of an evaluation on a machine: its values are well-formed; functions of the
host make no difference but by what they do with as many well-formed arguments as they take; and
they find their arguments, if they find so many. -/
structure Careful (m : Machine) (step : Machine → Eval Value) : Prop where
  wellFormed : ∀ history v after, (step m).outcome? history = some (.ok v, after) → v.WellFormed
  calls : ∀ native, m.host.SameCalls native → ∀ history,
    (step (m.withNative native)).outcome? history = (step m).outcome? history
  missing : m.host.NeverMisses → ∀ history e after,
    (step m).outcome? history = some (.error e, after) → ¬ e.Missing

/-! ## Steps that come to the same -/

/-- Whether two steps come to the same, with a value as in `P` or an error as in `E`. -/
def Twins {α : Type} (E : EvalError → Prop) (P : α → Prop) (x y : Eval α) : Prop :=
  ∀ history, y.outcome? history = x.outcome? history ∧
    (∀ a after, x.outcome? history = some (.ok a, after) → P a) ∧
      ∀ e after, x.outcome? history = some (.error e, after) → E e

section

variable {α β : Type} {E : EvalError → Prop} {P : α → Prop} {Q : β → Prop}

theorem twins_exhausted : Twins E P (LimitedState.exhausted : Eval α) LimitedState.exhausted :=
  fun _ => ⟨rfl, nofun, nofun⟩

theorem twins_pure {a : α} (h : P a) : Twins E P (pure a : Eval α) (pure a) := by
  refine fun history => ⟨rfl, ?_, nofun⟩
  rintro _ _ ⟨⟩
  exact h

theorem twins_throw {e : EvalError} (h : E e) : Twins E P (throw e : Eval α) (throw e) := by
  refine fun history => ⟨rfl, nofun, ?_⟩
  rintro _ _ ⟨⟩
  exact h

theorem twins_liftM {r r' : Except EvalError α} (heq : r' = r) (hok : ∀ a, r = .ok a → P a)
    (herror : ∀ e, r = .error e → E e) : Twins E P (liftM r : Eval α) (liftM r') := by
  subst heq
  cases r' with
  | ok a => exact twins_pure (hok a rfl)
  | error e => exact twins_throw (herror e rfl)

theorem Twins.bind {x y : Eval α} {f g : α → Eval β} (h : Twins E P x y)
    (hf : ∀ a, P a → Twins E Q (f a) (g a)) : Twins E Q (x >>= f) (y >>= g) := by
  intro history
  obtain ⟨heq, hok, herror⟩ := h history
  rw [LimitedState.outcome?_bind, LimitedState.outcome?_bind, heq]
  cases hx : x.outcome? history with
  | none => exact ⟨rfl, nofun, nofun⟩
  | some o =>
    obtain ⟨r, after⟩ := o
    cases r with
    | ok a => exact hf a (hok a after hx) after
    | error e =>
      refine ⟨rfl, nofun, ?_⟩
      rintro _ _ ⟨⟩
      exact herror e after hx

end

/-! ## Functions -/

/-- What is assumed of a host, of other functions in the place of its own, and of the errors that
are looked for: those that evaluation itself reports, and those of functions that have all their
arguments. -/
structure Interchangeable (h : Host) (native : Native → List Value → Except EvalError Value)
    (E : EvalError → Prop) : Prop where
  keepsForm : h.KeepsForm
  sameCalls : h.SameCalls native
  other : ∀ e : EvalError, ¬ e.Missing → E e
  run : ∀ n args, Complete n.arity args → ∀ e, h.native n args = .error e → E e

section

variable {m : Machine} {native : Native → List Value → Except EvalError Value}
    {E : EvalError → Prop}

theorem wellFormed_of_readResponse? {dataTypes : Table DataDecl} {t : Ty}
    {response : String} {v : Value}
    (h : readResponse? dataTypes t response = some v) : v.WellFormed := by
  cases answers_of_readResponse? h with
  | int n => exact .int n
  | string s => exact .string s
  | constructor => exact Value.wellFormed_saturated (List.forall_mem_nil _)

/-- A model gives a well-formed value, or its argument is the result. -/
theorem twins_applyLlm (f : LlmFunction) {input : Value} (hinput : input.WellFormed) :
    Twins E WellFormed (m.applyLlm f input) ((m.withNative native).applyLlm f input) := by
  show Twins E WellFormed (m.applyLlm f input) (m.applyLlm f input)
  rw [applyLlm]
  split
  next => exact twins_pure hinput
  next prompt _ =>
    have hask : Twins E (fun _ => True) (m.askLlm (m.llmCall f prompt))
      (m.askLlm (m.llmCall f prompt)) :=
      fun history => ⟨rfl, fun _ _ _ => trivial, fun _ _ h => by cases h⟩
    refine hask.bind fun response _ => twins_pure ?_
    cases hvalue : response.bind (readResponse? m.sig.dataTypes f.result) with
    | none => exact hinput
    | some v =>
      obtain ⟨text, -, hv⟩ := Option.bind_eq_some_iff.1 hvalue
      exact wellFormed_of_readResponse? hv

theorem not_missing_of_operation {name : String} {e : EvalError} (h : m.operation name = .error e) :
    ¬ e.Missing := by
  rw [operation] at h
  split at h
  next => cases h
  next =>
    split at h
    next => cases h
    next => split at h <;> cases h <;> exact id

/-- A name stands for nothing that a model computes without an argument. -/
theorem arity_pos_of_operation {name : String} {op : Operation} (h : m.operation name = .ok op) :
    op.imp = .llm → 0 < op.arity := by
  rcases operation_eq_ok_iff.1 h with ⟨n, -, rfl⟩ | ⟨-, -, rfl⟩
  · rintro ⟨⟩
  · exact fun _ => Nat.zero_lt_one

/-- A primitive that has all its arguments. -/
theorem twins_runPrimitive (h : Interchangeable m.host native E) (name : String) {op : Operation}
    (hpos : op.imp = .llm → 0 < op.arity) {args : List Value} (hargs : Complete op.arity args) :
    Twins E WellFormed (m.runPrimitive name op args)
      ((m.withNative native).runPrimitive name op args) := by
  obtain ⟨arity, imp⟩ := op
  cases imp with
  | native number =>
    exact twins_liftM (h.sameCalls ⟨arity, number⟩ args hargs)
      (h.keepsForm.native ⟨arity, number⟩ args hargs) (h.run ⟨arity, number⟩ args hargs)
  | llm =>
    obtain ⟨input, rest, rfl⟩ := List.exists_cons_of_length_pos (hargs.1.symm ▸ hpos rfl)
    have hsame : (m.withNative native).llmFunction? name = m.llmFunction? name := rfl
    simp only [runPrimitive, hsame]
    cases m.llmFunction? name with
    | none => exact twins_throw (h.other _ id)
    | some f => exact twins_applyLlm f (hargs.2 input List.mem_cons_self)

/-- A primitive with the arguments it has got, of which it still takes all. -/
theorem twins_callPrimitive (h : Interchangeable m.host native E) (name : String) {op : Operation}
    (hpos : op.imp = .llm → 0 < op.arity) {args : List Value} (hlength : args.length ≤ op.arity)
    (hargs : ∀ v ∈ args, WellFormed v) :
    Twins E WellFormed (m.callPrimitive name op args)
      ((m.withNative native).callPrimitive name op args) := by
  rw [callPrimitive, callPrimitive]
  split
  next hlt => exact twins_pure (.prim name hlt hargs)
  next hge =>
    exact twins_runPrimitive h name hpos ⟨Nat.le_antisymm hlength (Nat.not_lt.1 hge), hargs⟩

/-- A function applied to an argument, where the bodies of functions come to the same. -/
theorem twins_applyWith (h : Interchangeable m.host native E) {eval eval' : Term → Env → Eval Value}
    (heval : ∀ t env, (∀ v ∈ env, WellFormed v) → Twins E WellFormed (eval t env) (eval' t env))
    {fn arg : Value} (hfn : fn.WellFormed) (harg : arg.WellFormed) :
    Twins E WellFormed (m.applyWith eval fn arg)
      ((m.withNative native).applyWith eval' fn arg) := by
  have happend {args : List Value} (hargs : ∀ v ∈ args, WellFormed v) :
      ∀ v ∈ args ++ [arg], WellFormed v :=
    List.forall_mem_append.2 ⟨hargs, List.forall_mem_singleton.2 harg⟩
  have hmore {args : List Value} {arity : Nat} (hlt : args.length < arity) :
      (args ++ [arg]).length ≤ arity := by
    rw [List.length_append]
    exact hlt
  cases hfn with
  | int value => exact twins_throw (h.other _ id)
  | string text => exact twins_throw (h.other _ id)
  | con name _ hargs =>
    rw [applyWith, applyWith]
    split
    next hlt => exact twins_pure (.con name (hmore hlt) (happend hargs))
    next => exact twins_throw (h.other _ id)
  | closure henv body => exact heval body _ (List.forall_mem_cons.2 ⟨harg, henv⟩)
  | typeClosure henv body => exact twins_throw (h.other _ id)
  | prim name hlength hargs =>
    have hpos := Nat.zero_lt_of_lt hlength
    exact twins_callPrimitive h name (fun _ => hpos) (hmore hlength) (happend hargs)

theorem twins_applyTypeWith (h : Interchangeable m.host native E)
    {eval eval' : Term → Env → Eval Value}
    (heval : ∀ t env, (∀ v ∈ env, WellFormed v) → Twins E WellFormed (eval t env) (eval' t env))
    {fn : Value} (hfn : fn.WellFormed) :
    Twins E WellFormed (applyTypeWith eval fn) (applyTypeWith eval' fn) := by
  cases hfn with
  | int value => exact twins_throw (h.other _ id)
  | string text => exact twins_throw (h.other _ id)
  | con name hlength hargs => exact twins_pure (.con name hlength hargs)
  | closure henv body => exact twins_throw (h.other _ id)
  | typeClosure henv body => exact heval body _ henv
  | prim name hlength hargs => exact twins_pure (.prim name hlength hargs)

/-! ## Terms -/

/-- Whether the globals that have a value have a well-formed one. -/
def GlobalsWellFormed (globals : Globals) : Prop :=
  ∀ name v, globals.get? name = some (some v) → v.WellFormed

theorem twins_globalValue (h : Interchangeable m.host native E) {globals : Globals}
    (hglobals : GlobalsWellFormed globals) (name : String) :
    Twins E WellFormed (liftM (globalValue globals name) : Eval Value)
      (liftM (globalValue globals name)) := by
  rw [globalValue]
  split
  next v hv => exact twins_pure (hglobals name v hv)
  next => exact twins_throw (h.other _ id)
  next => exact twins_throw (h.other _ id)

/-- A constructor is not evaluated with more arguments than it takes. -/
theorem twins_constructorArity (h : Interchangeable m.host native E) (name : String) (given : Nat) :
    Twins E (given ≤ ·) (liftM (m.constructorArity name given) : Eval Nat)
      (liftM ((m.withNative native).constructorArity name given)) := by
  show Twins E (given ≤ ·) (liftM (m.constructorArity name given) : Eval Nat)
    (liftM (m.constructorArity name given))
  rw [constructorArity]
  split
  next => exact twins_throw (h.other _ id)
  next arity _ =>
    split
    next => exact twins_throw (h.other _ id)
    next hle => exact twins_pure (Nat.not_lt.1 hle)

theorem twins_selectBranch (h : Interchangeable m.host native E) {v : Value} (hv : v.WellFormed)
    (branches : List Branch) :
    Twins E (fun r => ∀ field ∈ r.2, WellFormed field)
      (liftM (selectBranch v branches) : Eval (Branch × List Value))
      (liftM (selectBranch v branches)) := by
  cases hv with
  | con name _ hargs =>
    rw [selectBranch]
    split
    next =>
      split
      next => exact twins_throw (h.other _ id)
      next =>
        split
        next => exact twins_pure hargs
        next => exact twins_throw (h.other _ id)
    next => exact twins_throw (h.other _ id)
  | _ => exact twins_throw (h.other _ id)

theorem twins_callTool (h : Interchangeable m.host native E) (name : String) {args : List Value}
    (hargs : ∀ v ∈ args, WellFormed v) :
    Twins E WellFormed (liftM (m.callTool name args) : Eval Value)
      (liftM ((m.withNative native).callTool name args)) := by
  show Twins E WellFormed (liftM (m.callTool name args) : Eval Value) (liftM (m.callTool name args))
  rw [callTool]
  split
  next => exact twins_throw (h.other _ id)
  next tool htool =>
    cases hrun : tool args with
    | error message => exact twins_throw (h.other _ id)
    | ok v => exact twins_pure (h.keepsForm.tools name tool htool args hargs v hrun)

theorem twins_evaluateAll {eval eval' : Term → Eval Value} {args : List Term}
    (heval : ∀ arg ∈ args, Twins E WellFormed (eval arg) (eval' arg)) :
    Twins E (fun vs => vs.length = args.length ∧ ∀ v ∈ vs, WellFormed v) (evaluateAll eval args)
      (evaluateAll eval' args) := by
  induction args with
  | nil => exact twins_pure ⟨rfl, nofun⟩
  | cons arg args ih =>
    obtain ⟨harg, hargs⟩ := List.forall_mem_cons.1 heval
    refine harg.bind fun v hv => (ih hargs).bind fun vs hvs => ?_
    exact twins_pure ⟨congrArg (· + 1) hvs.1, List.forall_mem_cons.2 ⟨hv, hvs.2⟩⟩

/-- A term comes to the same with either implementation of the primitives, and its value is
well-formed. -/
theorem twins_evaluate (h : Interchangeable m.host native E) {globals : Globals}
    (hglobals : GlobalsWellFormed globals) (limit : Nat) (t : Term) (env : Env)
    (henv : ∀ v ∈ env, WellFormed v) :
    Twins E WellFormed (m.evaluate globals limit t env)
      ((m.withNative native).evaluate globals limit t env) := by
  induction limit generalizing t env with
  | zero => exact twins_exhausted
  | succ limit ih =>
    cases t with
    | var index =>
      rw [evaluate, evaluate]
      cases hv : env[index]? with
      | none => exact twins_throw (h.other _ id)
      | some v => exact twins_pure (henv v (List.mem_of_getElem? hv))
    | global name => exact twins_globalValue h hglobals name
    | lam type body => exact twins_pure (.closure henv body)
    | app fn arg =>
      refine (ih fn env henv).bind fun f hf => (ih arg env henv).bind fun a ha => ?_
      exact twins_applyWith h ih hf ha
    | tlam v body => exact twins_pure (.typeClosure henv body)
    | tapp fn type => exact (ih fn env henv).bind fun f hf => twins_applyTypeWith h ih hf
    | con name args =>
      refine (twins_constructorArity h name args.length).bind fun arity harity => ?_
      refine (twins_evaluateAll fun arg _ => ih arg env henv).bind fun vs hvs => ?_
      exact twins_pure (.con name (Nat.le_trans (Nat.le_of_eq hvs.1) harity) hvs.2)
    | case scrutinee branches =>
      refine (ih scrutinee env henv).bind fun v hv => ?_
      refine (twins_selectBranch h hv branches).bind fun r hfields => ?_
      exact ih r.1.body _ (List.forall_mem_append.2 ⟨hfields, henv⟩)
    | letIn name value body =>
      refine (ih value env henv).bind fun v hv => ?_
      exact ih body _ (List.forall_mem_cons.2 ⟨hv, henv⟩)
    | int value => exact twins_pure (.int value)
    | string text => exact twins_pure (.string text)
    | prim name =>
      have hsame : (m.withNative native).operation name = m.operation name := rfl
      rw [evaluate, evaluate, hsame]
      cases hop : m.operation name with
      | error e => exact twins_throw (h.other _ (not_missing_of_operation hop))
      | ok op =>
        exact twins_callPrimitive h name (arity_pos_of_operation hop) (Nat.zero_le _)
          (List.forall_mem_nil _)
    | tool name args =>
      refine (twins_evaluateAll fun arg _ => ih arg env henv).bind fun vs hvs => ?_
      exact twins_callTool h name hvs.2

theorem careful_of_twins {step : Machine → Eval Value} (hm : m.host.KeepsForm)
    (h : ∀ native E, Interchangeable m.host native E →
      Twins E WellFormed (step m) (step (m.withNative native))) : m.Careful step := by
  have hsame : m.host.SameCalls m.host.native := fun _ _ _ => rfl
  constructor
  · have hself : Interchangeable m.host m.host.native fun _ => True :=
      ⟨hm, hsame, fun _ _ => trivial, fun _ _ _ _ _ => trivial⟩
    exact fun history => (h _ _ hself history).2.1
  · intro native hnative history
    have hother : Interchangeable m.host native fun _ => True :=
      ⟨hm, hnative, fun _ _ => trivial, fun _ _ _ _ _ => trivial⟩
    exact (h _ _ hother history).1
  · intro hfound history
    have hself : Interchangeable m.host m.host.native fun e => ¬ e.Missing :=
      ⟨hm, hsame, fun _ => id, hfound⟩
    exact (h _ _ hself history).2.2

end

end Machine

/-! ## Primitives of the language -/

/-- Whether a result is a value as in `P`, or an error that is not a missing argument. -/
def Found {α : Type} (P : α → Prop) : Except EvalError α → Prop
  | .ok a => P a
  | .error e => ¬ e.Missing

theorem Found.bind {α β : Type} {P : α → Prop} {Q : β → Prop} {x : Except EvalError α}
    {f : α → Except EvalError β} (h : Found P x) (hf : ∀ a, P a → Found Q (f a)) :
    Found Q (x >>= f) := by
  cases x with
  | ok a => exact hf a h
  | error e => exact h

namespace Primitive

/-- Whether an operation that gets as many well-formed arguments as it takes does not miss one, and
returns a well-formed value. -/
def Proper (p : Primitive) : Prop :=
  ∀ args, Complete p.arity args → Found WellFormed (p.run args)

variable {name : String}

theorem found_asInt (v : Value) : Found (fun _ => True) (asInt name v) := by
  cases v with
  | int => trivial
  | _ => exact id

theorem found_asString (v : Value) : Found (fun _ => True) (asString name v) := by
  cases v with
  | string => trivial
  | _ => exact id

theorem proper_unary {op : Value → Except EvalError Value} (hop : ∀ v, Found WellFormed (op v)) :
    (unary name op).Proper := by
  intro args hargs
  obtain ⟨v, rfl⟩ := List.length_eq_one_iff.1 hargs.1
  exact hop v

theorem proper_binary {op : Value → Value → Except EvalError Value}
    (hop : ∀ v w, Found WellFormed (op v w)) : (binary name op).Proper := by
  intro args hargs
  obtain ⟨v, w, rfl⟩ := List.length_eq_two.1 hargs.1
  exact hop v w

theorem proper_onInts {op : Int64 → Int64 → Except EvalError Value}
    (hop : ∀ a b, Found WellFormed (op a b)) : (onInts name op).Proper :=
  proper_binary fun v w => (found_asInt v).bind fun a _ => (found_asInt w).bind fun b _ => hop a b

theorem found_divide (a b : Int64) : Found WellFormed (divide a b) := by
  rw [divide]
  split
  next => exact id
  next => exact .int _

theorem proper_builtins : ∀ p ∈ builtins, p.Proper := by
  have hbool (b : Bool) : (Value.bool b).WellFormed :=
    Value.wellFormed_saturated (List.forall_mem_nil _)
  simp only [builtins, List.forall_mem_cons]
  refine ⟨proper_onInts fun _ _ => .int _, proper_onInts fun _ _ => .int _,
    proper_onInts fun _ _ => .int _, proper_onInts found_divide, proper_unary fun v => ?_,
    proper_onInts fun _ _ => hbool _, proper_onInts fun _ _ => hbool _,
    proper_onInts fun _ _ => hbool _, proper_binary fun v w => ?_, proper_unary fun v => ?_,
    List.forall_mem_nil _⟩
  · exact (found_asInt v).bind fun n _ => .int _
  · exact (found_asString v).bind fun s _ => (found_asString w).bind fun t _ => .string _
  · exact (found_asString v).bind fun s _ => .int _

end Primitive

namespace Host

/-- Whether the functions of a host that get as many well-formed arguments as they take do not miss
one, and return well-formed values. -/
def Proper (h : Host) : Prop :=
  ∀ n args, Complete n.arity args → Found WellFormed (h.native n args)

theorem Proper.neverMisses {h : Host} (hh : h.Proper) : h.NeverMisses := by
  intro n args hargs e he
  have hfound := hh n args hargs
  rwa [he] at hfound

theorem Proper.withPrimitive {h : Host} (hh : h.Proper) {p : Primitive} (hp : p.Proper) :
    (h.withPrimitive p).Proper := by
  intro n args hargs
  rw [Host.withPrimitive]
  dsimp only
  split
  next heq =>
    subst heq
    exact hp args hargs
  next => exact hh n args hargs

theorem Proper.withPrimitives {h : Host} (hh : h.Proper) {ps : List Primitive}
    (hps : ∀ p ∈ ps, p.Proper) : (ps.foldl Host.withPrimitive h).Proper := by
  induction ps generalizing h with
  | nil => exact hh
  | cons p ps ih =>
    obtain ⟨hp, hps⟩ := List.forall_mem_cons.1 hps
    exact ih (hh.withPrimitive hp) hps

theorem proper_standard : standard.Proper := by
  have hbare : bare.Proper := fun _ _ _ => id
  exact hbare.withPrimitives Primitive.proper_builtins

end Host

namespace Machine

/-- Evaluation keeps values well-formed and calls the functions of the host with as many well-formed
arguments as they take, and so does the application of a value to another. The primitives of the
language find their arguments then, and so do others that are registered beside them or instead of
them. -/
theorem careful_evaluate (m : Machine) (hm : m.host.KeepsForm) (globals : Globals)
    (hglobals : GlobalsWellFormed globals) (limit : Nat) :
    (∀ t env, (∀ v ∈ env, v.WellFormed) → m.Careful fun m' => m'.evaluate globals limit t env) ∧
      (∀ fn arg, fn.WellFormed → arg.WellFormed →
        m.Careful fun m' => m'.apply globals limit fn arg) ∧
      ∀ registered : List Primitive, (∀ p ∈ registered, p.Proper) →
        (registered.foldl Host.withPrimitive .standard).NeverMisses := by
  refine ⟨fun t env henv => ?_, fun fn arg hfn harg => ?_, fun registered hregistered => ?_⟩
  · exact careful_of_twins hm fun native E h => twins_evaluate h hglobals limit t env henv
  · refine careful_of_twins hm fun native E h => ?_
    exact twins_applyWith h (fun t env => twins_evaluate h hglobals limit t env) hfn harg
  · exact (Host.proper_standard.withPrimitives hregistered).neverMisses

/-- A machine with the primitives of the language and one tool. -/
def lastMachine : Machine :=
  .ofModule Prelude.emptyModule
    { Host.standard with
      tools := .ofList [("last", Module.lastArgument)], llm := .offline, config := .standard }

theorem keepsForm_lastMachine : lastMachine.host.KeepsForm where
  native n args hargs v hv := by
    have hfound := Host.proper_standard n args hargs
    rwa [show Host.standard.native n args = _ from hv] at hfound
  tools name tool htool args hargs v hv := by
    cases List.mem_singleton.1 (Table.mem_of_get?_ofList htool)
    rw [Module.lastArgument] at hv
    cases hlast : args.getLast? with
    | none =>
      rw [hlast] at hv
      cases hv
    | some last =>
      rw [hlast] at hv
      cases hv
      exact hargs v (List.mem_of_getLast? hlast)

/-- A global that is one half of an addition, under a name that stands for no primitive. -/
def incrementGlobals : Globals :=
  .ofList [("increment", some (.prim "add" ⟨2, .native 0⟩ [.int 1]))]

/-- The sum is a tool's result, of arguments of different types. -/
def incrementTwice : Term :=
  .app (.global "increment") (.tool "last" [.string "x", .app (.global "increment") (.var 0)])

theorem careful_evaluate_incrementTwice :
    lastMachine.host.KeepsForm ∧ lastMachine.host.NeverMisses ∧ GlobalsWellFormed incrementGlobals ∧
      (lastMachine.Careful fun m => m.evaluate incrementGlobals 4 incrementTwice [.int 2]) ∧
      (lastMachine.evaluate incrementGlobals 4 incrementTwice [.int 2]).outcome? [] =
        some (.ok (.int 4), []) := by
  have hglobals : GlobalsWellFormed incrementGlobals := by
    intro name v hv
    cases List.mem_singleton.1 (Table.mem_of_get?_ofList hv)
    exact .prim "add" (by decide) (List.forall_mem_singleton.2 (.int 1))
  obtain ⟨hterm, -, hfound⟩ :=
    careful_evaluate lastMachine keepsForm_lastMachine incrementGlobals hglobals 4
  exact ⟨keepsForm_lastMachine, hfound [] (List.forall_mem_nil _), hglobals,
    hterm _ _ (List.forall_mem_singleton.2 (.int 2)), rfl⟩

end Machine

end PolyLambda
