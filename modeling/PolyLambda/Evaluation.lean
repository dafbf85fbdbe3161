import PolyLambda.Evaluation.Host
import PolyLambda.Limited
import PolyLambda.Llm.Prompt
import PolyLambda.Llm.Response

/-!
# Evaluation

Call by value, arguments from left to right, types erased. A primitive runs when it has got all its
arguments, and one without parameters runs where it is mentioned.

A function that a language model is to compute never fails on the model's account: when there is no
prompt, no answer, or no value in the answer, the result is the argument.

Programs need not end, so evaluation takes a limit on the depth of its recursion.
-/

namespace PolyLambda

/-- The calls of the model so far. -/
abbrev History := List LlmCall

/-- A step of evaluation. -/
abbrev Eval := LimitedState EvalError History

/-- What does not change while a program runs. -/
structure Machine where
  sig : Signature
  /-- The primitives that the program declares. -/
  declared : List String
  host : Host

namespace Machine

/-- The primitive that a declaration declares. -/
def declaredPrimitive? : Declaration → Option String
  | .primOp name _ => some name
  | _ => none

/-- The machine for a module. -/
def ofModule (m : Module) (host : Host) : Machine :=
  ⟨m.toSignature, m.declarations.filterMap declaredPrimitive?, host⟩

/-- The model function that the primitive `name` computes. -/
def llmFunction? (m : Machine) (name : String) : Option LlmFunction :=
  m.sig.llmFunctions.values.find? fun f => f.primitive = name

/-! ## Model functions -/

/-- The call that computes `f`, with the given prompt. -/
def llmCall (m : Machine) (f : LlmFunction) (prompt : String) : LlmCall :=
  ⟨f.model.getD m.host.config.model, f.temperature.getD m.host.config.temperature, prompt⟩

/-- Asks the model; the call is recorded whatever comes of it. -/
def askLlm (m : Machine) (call : LlmCall) : Eval (Option String) :=
  modifyGet fun history => (m.host.llm history call, history ++ [call])

/-- The value that the model gives for `f` at `input`, or else `input`. -/
def applyLlm (m : Machine) (f : LlmFunction) (input : Value) : Eval Value :=
  match f.prompt? input with
  | none => return input
  | some prompt => do
    let response ← m.askLlm (m.llmCall f prompt)
    return (response.bind (readResponse? m.sig.dataTypes f.result)).getD input

/-! ## Primitives -/

/-- The operation that the primitive `name` stands for. What the host implements goes before model
functions. -/
def operation (m : Machine) (name : String) : Except EvalError Operation :=
  match m.host.primitives.get? name with
  | some n => .ok n.operation
  | none =>
    if (m.llmFunction? name).isSome then .ok .llm
    else if name ∈ m.declared then .error (.noImplementation name)
    else .error (.undefinedPrimitive name)

/-- The value of an operation on all its arguments. A function of the host runs whatever its name
stands for by now; which function the language model is to compute is looked up by the name. -/
def runPrimitive (m : Machine) (name : String) (op : Operation) (args : List Value) : Eval Value :=
  match op.imp with
  | .native number => liftM (m.host.native ⟨op.arity, number⟩ args)
  | .llm =>
    match args with
    | [] => throw (.missingArgument name)
    | input :: _ =>
      match m.llmFunction? name with
      | some f => m.applyLlm f input
      | none => throw (.noLlmFunction name)

/-- A primitive on the arguments it has got: it runs if these are all. -/
def callPrimitive (m : Machine) (name : String) (op : Operation) (args : List Value) : Eval Value :=
  if args.length < op.arity then return .prim name op args
  else m.runPrimitive name op args

theorem operation_eq_ok_iff {m : Machine} {name : String} {op : Operation} :
    m.operation name = .ok op ↔
      (∃ n, m.host.primitives.get? name = some n ∧ n.operation = op) ∨
        m.host.primitives.get? name = none ∧ (m.llmFunction? name).isSome = true ∧ .llm = op := by
  rw [operation]
  cases m.host.primitives.get? name with
  | some n =>
    simp only [Except.ok.injEq, Option.some.injEq, exists_eq_left', reduceCtorEq, false_and,
      or_false]
  | none =>
    by_cases hllm : (m.llmFunction? name).isSome = true
    · simp only [hllm, if_true, Except.ok.injEq, reduceCtorEq, false_and, exists_false, true_and,
        false_or]
    · by_cases hdeclared : name ∈ m.declared <;>
        simp only [hllm, hdeclared, if_true, if_false, reduceCtorEq, false_and, exists_false,
          and_false, or_false]

/-- A primitive that the host implements is its function, wherever it is called. -/
theorem operation_of_primitive? {m : Machine} {name : String} {p : Primitive}
    (hp : m.host.primitive? name = some p) :
    ∃ op, m.operation name = .ok op ∧ op.arity = p.arity ∧
      ∀ args, m.runPrimitive name op args = liftM (p.run args) := by
  obtain ⟨n, hn, rfl⟩ := Option.map_eq_some_iff.1 hp
  exact ⟨n.operation, operation_eq_ok_iff.2 (.inl ⟨n, hn, rfl⟩), rfl, fun _ => rfl⟩

/-- The result of a tool. -/
def callTool (m : Machine) (name : String) (args : List Value) : Except EvalError Value :=
  match m.host.tools.get? name with
  | none => .error (.unknownTool name)
  | some tool => (tool args).mapError (.toolFailed name)

/-! ## Terms -/

/-- The values of the globals; nothing where the definition is being evaluated. -/
abbrev Globals := Table (Option Value)

/-- The value of a global. -/
def globalValue (globals : Globals) (name : String) : Except EvalError Value :=
  match globals.get? name with
  | some (some v) => .ok v
  | some none => .error (.usedBeforeDefinition name)
  | none => .error (.undefinedGlobal name)

/-- The number of arguments of a constructor that `given` ones have been supplied to. -/
def constructorArity (m : Machine) (name : String) (given : Nat) : Except EvalError Nat :=
  match m.sig.constructorArity? name with
  | none => .error (.undefinedConstructor name)
  | some arity =>
    if arity < given then .error (.constructorArgs name arity given) else .ok arity

/-- The first branch for a constructor. -/
def findBranch (name : String) (branches : List Branch) : Option Branch :=
  branches.find? fun b => b.constructor = name

/-- The branch that a value selects, and the fields of the value. -/
def selectBranch (v : Value) (branches : List Branch) : Except EvalError (Branch × List Value) :=
  match v with
  | .con name arity args =>
    if args.length = arity then
      match findBranch name branches with
      | none => .error (.noBranch v)
      | some b =>
        if b.vars.length = args.length then .ok (b, args)
        else .error (.patternArity name b.vars.length args.length)
    else .error (.notData v)
  | _ => .error (.notData v)

/-- The values of terms from left to right. -/
def evaluateAll (eval : Term → Eval Value) : List Term → Eval (List Value)
  | [] => return []
  | t :: ts => do
    let v ← eval t
    let vs ← evaluateAll eval ts
    return v :: vs

/-- A function applied to an argument, where `eval` evaluates bodies of functions. -/
def applyWith (m : Machine) (eval : Term → Env → Eval Value) (fn arg : Value) : Eval Value :=
  match fn with
  | .closure env body => eval body (arg :: env)
  | .prim name op args => m.callPrimitive name op (args ++ [arg])
  | .con name arity args =>
    if args.length < arity then return .con name arity (args ++ [arg])
    else throw (.constructorArgs name arity (args.length + 1))
  | other => throw (.notFunction other)

/-- A value applied to a type, where `eval` evaluates bodies of type abstractions. Constructors and
primitives do not depend on types. -/
def applyTypeWith (eval : Term → Env → Eval Value) (fn : Value) : Eval Value :=
  match fn with
  | .typeClosure env body => eval body env
  | .con name arity args => return .con name arity args
  | .prim name op args => return .prim name op args
  | other => throw (.notTypeFunction other)

/-- The value of a term. -/
def evaluate (m : Machine) (globals : Globals) : Nat → Term → Env → Eval Value
  | 0, _, _ => LimitedState.exhausted
  | limit + 1, t, env =>
    match t with
    | .var index =>
      match env[index]? with
      | some v => return v
      | none => throw (.unboundVariable index)
    | .global name => liftM (globalValue globals name)
    | .lam _ body => return .closure env body
    | .app fn arg => do
      let f ← evaluate m globals limit fn env
      let a ← evaluate m globals limit arg env
      m.applyWith (evaluate m globals limit) f a
    | .tlam _ body => return .typeClosure env body
    | .tapp fn _ => do
      let f ← evaluate m globals limit fn env
      applyTypeWith (evaluate m globals limit) f
    | .con name args => do
      let arity ← liftM (m.constructorArity name args.length)
      let vs ← evaluateAll (evaluate m globals limit · env) args
      return .con name arity vs
    | .case scrutinee branches => do
      let v ← evaluate m globals limit scrutinee env
      let (b, fields) ← liftM (selectBranch v branches)
      evaluate m globals limit b.body (fields ++ env)
    | .letIn _ value body => do
      let v ← evaluate m globals limit value env
      evaluate m globals limit body (v :: env)
    | .int value => return .int value
    | .string text => return .string text
    | .prim name => do
      let op ← liftM (m.operation name)
      m.callPrimitive name op []
    | .tool name args => do
      let vs ← evaluateAll (evaluate m globals limit · env) args
      liftM (m.callTool name vs)

/-- A function applied to an argument. -/
def apply (m : Machine) (globals : Globals) (limit : Nat) (fn arg : Value) : Eval Value :=
  m.applyWith (evaluate m globals limit) fn arg

end Machine

/-! ## Programs -/

/-- What changes while a program runs. -/
structure Session where
  globals : Machine.Globals
  history : History
  deriving Inhabited

namespace Session

/-- A session in which nothing has been evaluated. -/
def empty : Session := ⟨.empty, []⟩

/-- A step of evaluation with the globals of the session. -/
def eval {α : Type} (step : Machine.Globals → Eval α) : LimitedState EvalError Session α :=
  ExceptT.mk fun s =>
    ((step s.globals).outcome? s.history).map fun (r, history) => (r, { s with history := history })

theorem outcome?_eval {α : Type} (step : Machine.Globals → Eval α) (s : Session) :
    (eval step).outcome? s = ((step s.globals).outcome? s.history).map
      fun (r, history) => (r, { s with history := history }) := rfl

/-- Enters the value of a global, or that it has none yet. -/
def setGlobal (name : String) (v : Option Value) : LimitedState EvalError Session Unit :=
  modify fun s => { s with globals := s.globals.insert name v }

/-- The value of a definition, which is entered as a global. While it is evaluated its name has no
value. -/
def evaluateDefinition (m : Machine) (limit : Nat) (d : Definition) :
    LimitedState EvalError Session Value := do
  setGlobal d.name none
  let v ← eval fun globals => m.evaluate globals limit d.body []
  setGlobal d.name (some v)
  return v

/-- The name of a definition gets the value that its body comes to, and none if that is an error. -/
theorem outcome?_evaluateDefinition (m : Machine) (limit : Nat) (d : Definition) (s : Session) :
    (evaluateDefinition m limit d).outcome? s =
      ((m.evaluate (s.globals.insert d.name none) limit d.body []).outcome? s.history).map
        fun o => (o.1, ⟨s.globals.insert d.name o.1.toOption, o.2⟩) := by
  rw [evaluateDefinition, LimitedState.outcome?_bind, setGlobal, LimitedState.outcome?_modify]
  simp only [LimitedState.outcome?_bind, outcome?_eval]
  cases (m.evaluate (s.globals.insert d.name none) limit d.body []).outcome? s.history with
  | none => rfl
  | some o =>
    obtain ⟨r, history⟩ := o
    cases r with
    | error e => rfl
    | ok v =>
      have hlast := Table.insert_insert s.globals d.name none (some v)
      exact congrArg (fun globals => some (Except.ok v, Session.mk globals history)) hlast

/-- The values of definitions in order, up to the first that fails, and that one with its error. -/
def evaluateDefinitions (m : Machine) (limit : Nat) :
    List Definition → Session →
      Option ((List (Definition × Value) × Option (Definition × EvalError)) × Session)
  | [], s => some (([], none), s)
  | d :: ds, s => do
    let (r, s) ← (evaluateDefinition m limit d).outcome? s
    match r with
    | .error e => return (([], some (d, e)), s)
    | .ok v =>
      let ((values, failure), s) ← evaluateDefinitions m limit ds s
      return (((d, v) :: values, failure), s)

/-- The first definition fails, or it has a value and the others are evaluated behind it. -/
theorem evaluateDefinitions_cons_iff {m : Machine} {limit : Nat} {d : Definition}
    {ds : List Definition} {s s' : Session} {values : List (Definition × Value)}
    {failure : Option (Definition × EvalError)} :
    evaluateDefinitions m limit (d :: ds) s = some ((values, failure), s') ↔
      (∃ e, (evaluateDefinition m limit d).outcome? s = some (.error e, s') ∧
        values = [] ∧ failure = some (d, e)) ∨
      ∃ v s₁ others, (evaluateDefinition m limit d).outcome? s = some (.ok v, s₁) ∧
        evaluateDefinitions m limit ds s₁ = some ((others, failure), s') ∧
        values = (d, v) :: others := by
  rw [evaluateDefinitions]
  constructor
  · intro h
    obtain ⟨⟨r, s₁⟩, hd, h⟩ := Option.bind_eq_some_iff.1 h
    cases r with
    | error e =>
      cases h
      exact .inl ⟨e, hd, rfl, rfl⟩
    | ok v =>
      obtain ⟨⟨⟨others, failure'⟩, s₂⟩, hrest, h⟩ := Option.bind_eq_some_iff.1 h
      cases h
      exact .inr ⟨v, s₁, others, hd, hrest, rfl⟩
  · rintro (⟨e, hd, rfl, rfl⟩ | ⟨v, s₁, others, hd, hrest, rfl⟩)
    · rw [hd]
      rfl
    · simp only [hd, hrest, Option.bind_eq_bind, Option.bind_some]
      rfl

end Session

end PolyLambda
