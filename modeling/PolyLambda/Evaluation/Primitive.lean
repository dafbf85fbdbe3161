import PolyLambda.Evaluation.Error

/-!
# Primitive operations

What the primitives of the language compute. Integers have 64 bits and wrap around; division drops
the fraction, and the one quotient that does not fit, that of the least integer by minus one, wraps
around as well. The length of a string is its number of characters.
-/

namespace PolyLambda

/-- An operation on the given number of arguments. -/
structure Primitive where
  name : String
  arity : Nat
  run : List Value → Except EvalError Value

namespace Primitive

def asInt (name : String) : Value → Except EvalError Int64
  | .int n => .ok n
  | v => .error (.notInt name v)

def asString (name : String) : Value → Except EvalError String
  | .string s => .ok s
  | v => .error (.notString name v)

/-- An operation on one argument. -/
def unary (name : String) (op : Value → Except EvalError Value) : Primitive where
  name := name
  arity := 1
  run
    | a :: _ => op a
    | [] => .error (.missingArgument name)

/-- An operation on two arguments. -/
def binary (name : String) (op : Value → Value → Except EvalError Value) : Primitive where
  name := name
  arity := 2
  run
    | a :: b :: _ => op a b
    | _ => .error (.missingArgument name)

/-- An operation on two integers, of which the left one is looked at first. -/
def onInts (name : String) (op : Int64 → Int64 → Except EvalError Value) : Primitive :=
  binary name fun a b => do
    let x ← asInt name a
    let y ← asInt name b
    op x y

/-- The quotient without its fraction. -/
def divide (a b : Int64) : Except EvalError Value :=
  if b = 0 then .error .divisionByZero else .ok (.int (a / b))

/-- The primitives that need no host. -/
def builtins : List Primitive :=
  [onInts "$prim.int_plus" fun a b => .ok (.int (a + b)),
   onInts "$prim.int_minus" fun a b => .ok (.int (a - b)),
   onInts "$prim.int_multiply" fun a b => .ok (.int (a * b)),
   onInts "$prim.int_divide" divide,
   unary "$prim.int_negate" fun a => return .int (-(← asInt "$prim.int_negate" a)),
   onInts "$prim.int_eq" fun a b => .ok (.bool (a == b)),
   onInts "$prim.int_lt" fun a b => .ok (.bool (a < b)),
   onInts "$prim.int_gt" fun a b => .ok (.bool (a > b)),
   binary "$prim.string_concat" fun a b => do
     let x ← asString "$prim.string_concat" a
     let y ← asString "$prim.string_concat" b
     return .string (x ++ y),
   unary "$prim.string_length" fun a =>
     return .int (Int64.ofNat (← asString "$prim.string_length" a).length)]

end Primitive

end PolyLambda
