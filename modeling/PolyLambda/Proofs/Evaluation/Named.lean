import PolyLambda.Evaluation
import PolyLambda.Surface.Basic
import PolyLambda.Surface.Operator

/-!
# Evaluation with names

What a source expression means without resolving its names first. The local variables are an
environment of names with values, innermost first, and functions keep the environment and the source
of their bodies. A name is its innermost local binder, else a global, else a primitive, else a
constructor. This is how the evaluation of resolved terms is judged.

Values come from outside too, from globals, hosts and the models they ask, and go there as arguments
and in messages. What comes in is of the core language already (`Value.ofCore`), and a function
among it runs as it does there. How a value looks outside is left open (`Setting.view`), so that the
meaning of an expression does not depend on a way of resolving names.
-/

namespace PolyLambda.Named

open Surface (Expr)

inductive Value where
  | int (value : Int64)
  | string (text : String)
  | con (name : String) (arity : Nat) (args : List Value)
  /-- A function with the type variables and the variables around it. -/
  | closure (types : List String) (vars : List (String × Value)) (param : String) (body : Expr)
  | typeClosure (types : List String) (vars : List (String × Value)) (body : Expr)
  | prim (name : String) (op : Operation) (args : List Value)
  /-- A function from outside. -/
  | outer (env : PolyLambda.Env) (body : Term)
  | outerType (env : PolyLambda.Env) (body : Term)
  deriving Inhabited

namespace Value

mutual

/-- A value from outside. -/
def ofCore : PolyLambda.Value → Value
  | .int value => .int value
  | .string text => .string text
  | .con name arity args => .con name arity (ofCoreAll args)
  | .closure env body => .outer env body
  | .typeClosure env body => .outerType env body
  | .prim name op args => .prim name op (ofCoreAll args)

def ofCoreAll : List PolyLambda.Value → List Value
  | [] => []
  | v :: vs => ofCore v :: ofCoreAll vs

end

end Value

/-- What is in scope: the type variables, which do not matter while a term is evaluated, and the
variables with their values, innermost first. -/
structure Env where
  types : List String
  vars : List (String × Value)

/-- The environment inside binders of `names`, of which the first is the innermost. -/
def Env.bind (env : Env) (names : List String) (values : List Value) : Env :=
  { env with vars := names.zip values ++ env.vars }

/-- What does not change while an expression is evaluated: the machine with the values of globals,
the tables in which names are looked up, and how a value looks to hosts and in messages. -/
structure Setting where
  machine : Machine
  values : Machine.Globals
  sig : Signature
  globals : List String
  view : Value → PolyLambda.Value

namespace Setting

variable (w : Setting)

/-- The primitive `name` on the arguments it has got: it runs if these are all. -/
def callPrimitive (name : String) (op : Operation) (args : List Value) : Eval Value :=
  if args.length < op.arity then return .prim name op args
  else return .ofCore (← w.machine.runPrimitive name op (args.map w.view))

/-- The value of a primitive where it is mentioned. -/
def primitive (name : String) : Eval Value := do
  let op ← liftM (w.machine.operation name)
  w.callPrimitive name op []

/-- What a name stands for. -/
def lookUp (env : Env) (name : String) : Eval Value :=
  match env.vars.lookup name with
  | some v => return v
  | none =>
    if name ∈ w.globals then return .ofCore (← liftM (Machine.globalValue w.values name))
    else if w.sig.primitiveTypes.contains name then w.primitive name
    else if w.sig.constructorTypes.contains name then
      return .con name (← liftM (w.machine.constructorArity name 0)) []
    else throw (.undefinedGlobal name)

/-- The branch that a value selects, and the fields of the value. -/
def selectBranch (v : Value) (branches : List Surface.Branch) :
    Except EvalError (Surface.Branch × List Value) :=
  match v with
  | .con name arity args =>
    if args.length = arity then
      match branches.find? fun b => b.pattern.constructor = name with
      | none => .error (.noBranch (w.view v))
      | some b =>
        if b.pattern.vars.length = args.length then .ok (b, args)
        else .error (.patternArity name b.pattern.vars.length args.length)
    else .error (.notData (w.view v))
  | _ => .error (.notData (w.view v))

/-- The values of expressions from left to right. -/
def evaluateAll (eval : Expr → Eval Value) : List Expr → Eval (List Value)
  | [] => return []
  | e :: es => do
    let v ← eval e
    let vs ← evaluateAll eval es
    return v :: vs

/-- A function applied to an argument, where `eval` evaluates bodies of functions and `outer` those
of functions from outside. -/
def applyWith (eval : Expr → Env → Eval Value)
    (outer : Term → PolyLambda.Env → Eval PolyLambda.Value) (fn arg : Value) : Eval Value :=
  match fn with
  | .closure types vars param body => eval body (Env.bind ⟨types, vars⟩ [param] [arg])
  | .prim name op args => w.callPrimitive name op (args ++ [arg])
  | .con name arity args =>
    if args.length < arity then return .con name arity (args ++ [arg])
    else throw (.constructorArgs name arity (args.length + 1))
  | .outer env body => return .ofCore (← outer body (w.view arg :: env))
  | other => throw (.notFunction (w.view other))

/-- A value applied to a type. -/
def applyTypeWith (eval : Expr → Env → Eval Value)
    (outer : Term → PolyLambda.Env → Eval PolyLambda.Value) (fn : Value) : Eval Value :=
  match fn with
  | .typeClosure types vars body => eval body ⟨types, vars⟩
  | .con name arity args => return .con name arity args
  | .prim name op args => return .prim name op args
  | .outerType env body => return .ofCore (← outer body env)
  | other => throw (.notTypeFunction (w.view other))

/-- A primitive on operands of which the last comes first: it is applied to the others, as `before`
says, and then to the last one. -/
def operateWith (name : String) (before : List Expr → Eval Value) (eval : Expr → Eval Value)
    (apply : Value → Value → Eval Value) : List Expr → Eval Value
  | [] => w.primitive name
  | last :: others => do
    let f ← before others
    let a ← eval last
    apply f a

mutual

/-- The value of an expression. -/
def evaluate : Nat → Expr → Env → Eval Value
  | 0, _, _ => LimitedState.exhausted
  | limit + 1, e, env =>
    let outer := w.machine.evaluate w.values limit
    match e with
    | .var _ name => w.lookUp env name
    | .lam _ param _ _ body => return .closure env.types env.vars param body
    | .app _ fn arg => do
      let f ← evaluate limit fn env
      let a ← evaluate limit arg env
      w.applyWith (evaluate limit) outer f a
    | .tlam _ v body => return .typeClosure (v :: env.types) env.vars body
    | .tapp _ fn _ => do
      let f ← evaluate limit fn env
      w.applyTypeWith (evaluate limit) outer f
    | .letIn _ name value body => do
      let v ← evaluate limit value env
      evaluate limit body (env.bind [name] [v])
    | .ann _ _ e => evaluate limit e env
    | .con _ name args => do
      let arity ← liftM (w.machine.constructorArity name args.length)
      let vs ← evaluateAll (evaluate limit · env) args
      return .con name arity vs
    | .case _ scrutinee branches => do
      let v ← evaluate limit scrutinee env
      let (b, fields) ← liftM (w.selectBranch v branches)
      evaluate limit b.body (env.bind b.pattern.vars fields)
    | .tool _ name args => do
      let vs ← evaluateAll (evaluate limit · env) args
      return .ofCore (← liftM (w.machine.callTool name (vs.map w.view)))
    | .int _ value => return .int value
    | .string _ text => return .string text
    | .op _ operator args =>
      match Surface.Operator.primitive? operator args.length with
      | none => throw (.undefinedPrimitive operator)
      | some name =>
        w.operateWith name (operate limit name · env) (evaluate limit · env)
          (w.applyWith (evaluate limit) outer) args.reverse

/-- A primitive applied to operands from left to right; the last of them comes first in the list. -/
def operate : Nat → String → List Expr → Env → Eval Value
  | 0, _, _, _ => LimitedState.exhausted
  | limit + 1, name, args, env =>
    w.operateWith name (operate limit name · env) (evaluate limit · env)
      (w.applyWith (evaluate limit) (w.machine.evaluate w.values limit)) args

end

end Setting

end PolyLambda.Named
