/-!
# Fresh names

A fresh name is made by adding primes to an old one, as few as will do and at least one. A list of
`n` names can refuse at most `n` candidates, so the search takes no more steps than that.
-/

namespace PolyLambda

/-- The name `candidate` with as few primes added as take it out of `avoid`, but at most `steps`. -/
def addPrimes (avoid : List String) : Nat → String → String
  | 0, candidate => candidate
  | steps + 1, candidate =>
    if candidate ∈ avoid then addPrimes avoid steps (candidate ++ "'") else candidate

/-- The name `base` with at least one prime, and not in `avoid`. -/
def freshName (base : String) (avoid : List String) : String :=
  addPrimes avoid avoid.length (base ++ "'")

end PolyLambda
