/-!
# Operators

An operator stands for a primitive, which depends on the number of its operands: `-` subtracts or
negates.
-/

namespace PolyLambda.Surface.Operator

/-- The operators on two operands, with their primitives. -/
def binary : List (String × String) :=
  [("+", "$prim.int_plus"),
   ("-", "$prim.int_minus"),
   ("*", "$prim.int_multiply"),
   ("/", "$prim.int_divide"),
   ("==", "$prim.int_eq"),
   ("<", "$prim.int_lt"),
   (">", "$prim.int_gt"),
   ("++", "$prim.string_concat")]

/-- The operators on one operand, with their primitives. -/
def unary : List (String × String) :=
  [("-", "$prim.int_negate")]

/-- Whether `symbol` is an operator at some number of operands. -/
def isOperator (symbol : String) : Bool :=
  (binary.lookup symbol).isSome || (unary.lookup symbol).isSome

/-- The primitive that the operator `symbol` stands for on `arity` operands. -/
def primitive? (symbol : String) (arity : Nat) : Option String :=
  match arity with
  | 1 => unary.lookup symbol
  | 2 => binary.lookup symbol
  | _ => none

theorem isOperator_of_primitive? {symbol primitive : String} {arity : Nat}
    (h : primitive? symbol arity = some primitive) : isOperator symbol = true := by
  unfold primitive? at h
  split at h
  · simp [isOperator, h]
  · simp [isOperator, h]
  · cases h

end PolyLambda.Surface.Operator
