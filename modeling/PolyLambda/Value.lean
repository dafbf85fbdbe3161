import PolyLambda.Term

/-!
# Values

What terms evaluate to. Equality is meant for data: it looks at names and arguments, and no closure
and no primitive is equal to anything, itself included. A constructor that still waits for arguments
is a function as well, but it is compared like data.
-/

namespace PolyLambda

/-- A function of the host, by the number of its arguments and a number of its own. -/
structure Native where
  arity : Nat
  number : Nat
  deriving DecidableEq, Inhabited

/-- What carries out a primitive. -/
inductive Implementation where
  /-- A function of the host, by its number. -/
  | native (number : Nat)
  /-- The language model. -/
  | llm
  deriving DecidableEq, Inhabited

/-- A primitive operation: how many arguments it waits for, and what carries it out then. A value
cannot hold a function, so it holds the number under which the host keeps it. -/
structure Operation where
  arity : Nat
  imp : Implementation
  deriving DecidableEq, Inhabited

instance : CoeOut Operation Nat := ⟨Operation.arity⟩

def Native.operation (n : Native) : Operation := ⟨n.arity, .native n.number⟩

/-- A model function takes one argument. -/
def Operation.llm : Operation := ⟨1, .llm⟩

inductive Value where
  | int (value : Int64)
  | string (text : String)
  /-- A constructor with the arguments it has got, and the number of those it takes. -/
  | con (name : String) (arity : Nat) (args : List Value)
  /-- A function with the values of the variables around it. -/
  | closure (env : List Value) (body : Term)
  /-- A term under a type abstraction, with the values of the variables around it. -/
  | typeClosure (env : List Value) (body : Term)
  /-- A primitive with the arguments it has got. -/
  | prim (name : String) (op : Operation) (args : List Value)
  deriving Inhabited

namespace Value

/-- A constructor with all its arguments. -/
def saturated (name : String) (args : List Value) : Value :=
  .con name args.length args

/-- A truth value. -/
def bool (b : Bool) : Value :=
  saturated (if b then "True" else "False") []

/-- Whether nothing is missing: false only of a constructor with the wrong number of arguments. -/
def isSaturated : Value → Bool
  | .con _ arity args => args.length == arity
  | _ => true

/-! ## Text -/

mutual

/-- The text of a value. -/
def render : Value → String
  | .int value => Text.decimal value
  | .string text => Text.quote text
  | .con name arity args =>
    if args.length < arity then "<constructor " ++ name ++ ">"
    else if args.isEmpty then name
    else "(" ++ name ++ renderArgs args ++ ")"
  | .closure _ _ => "<closure>"
  | .typeClosure _ _ => "<type-closure>"
  | .prim name _ args => "<prim " ++ name ++ renderArgs args ++ ">"

/-- Values one after another, a space before each. -/
def renderArgs : List Value → String
  | [] => ""
  | arg :: args => " " ++ arg.render ++ renderArgs args

end

/-! ## Equality -/

mutual

/-- Whether two values are the same data. How many arguments a constructor takes does not matter,
only those that it has. -/
def same : Value → Value → Bool
  | .int a, .int b => a == b
  | .string a, .string b => a == b
  | .con name _ args, .con name' _ args' => name == name' && sameArgs args args'
  | _, _ => false

def sameArgs : List Value → List Value → Bool
  | [], [] => true
  | a :: as, b :: bs => a.same b && sameArgs as bs
  | _, _ => false

end

instance : BEq Value := ⟨same⟩

end Value

/-- The values of the variables in scope, innermost first. -/
abbrev Env := List Value

end PolyLambda
