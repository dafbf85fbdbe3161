/-!
# Numbers in text

Integers of 64 bits and binary floating-point numbers, read from their decimal spelling. A reader
accepts a whole text or nothing: no blanks, no separators, nothing left over.

A decimal is an exact quotient, and the float it denotes is the one nearest to that quotient, the
even one of two equally near (`nearestBits`). Nothing is rounded before that step, however many
digits the text has.
-/

namespace PolyLambda.Text

/-! ## Integers -/

/-- The decimal spelling of an integer: digits without leading zeros, after a minus if it is
negative. -/
def decimal (n : Int64) : String :=
  let digits := Nat.toDigits 10 n.toInt.natAbs
  String.ofList (if n.toInt < 0 then '-' :: digits else digits)

/-- The number that a run of decimal digits denotes. -/
def digitsValue (digits : List Char) : Nat :=
  digits.foldl (fun n c => 10 * n + (c.toNat - '0'.toNat)) 0

/-- A nonempty run of digits as a number. -/
def readNat? (cs : List Char) : Option Nat :=
  if cs ≠ [] ∧ cs.all Char.isDigit then some (digitsValue cs) else none

/-- The sign that `cs` may begin with, `true` for a minus, and what follows it. -/
def splitSign : List Char → Bool × List Char
  | '-' :: rest => (true, rest)
  | '+' :: rest => (false, rest)
  | cs => (false, cs)

/-- An integer with an optional sign. -/
def readInt? (cs : List Char) : Option Int :=
  let (negative, digits) := splitSign cs
  (readNat? digits).map fun n => if negative then -(n : Int) else n

/-- The word with the value `n`, when there is one. -/
def toInt64? (n : Int) : Option Int64 :=
  if Int64.minValue.toInt ≤ n ∧ n ≤ Int64.maxValue.toInt then some (Int64.ofInt n) else none

/-- An integer of 64 bits with an optional sign; a number out of range is refused. -/
def readInt64? (cs : List Char) : Option Int64 :=
  (readInt? cs).bind toInt64?

/-! ## Floating point -/

/-- The exponent field counts in units of this number. -/
def exponentUnit : Nat := 1 <<< 52

/-- The bit pattern of positive infinity. -/
def infinityBits : Nat := 0x7ff * exponentUnit

/-- The bit pattern of a number that is no number. -/
def nanBits : Nat := infinityBits + 1 <<< 51

/-- The bit that says that a number is negative. -/
def signBit : Nat := 1 <<< 63

/-- The quotient `num / den` rounded to a natural number, a half going to the even neighbour. -/
def roundHalfEven (num den : Nat) : Nat :=
  let q := num / den
  let twice := 2 * (num % den)
  if twice < den ∨ (twice = den ∧ q % 2 = 0) then q else q + 1

/-- The quotient `num / (den · 2 ^ e)` as a fraction. -/
def scaled (num den : Nat) (e : Int) : Nat × Nat :=
  if 0 ≤ e then (num, den <<< e.toNat) else (num <<< (-e).toNat, den)

/-- The bits of the double-precision number nearest to `num / den`, where both are positive.

The quotient is brought to the form `q · 2 ^ e` with `q` below `2 ^ 53`, and at least `2 ^ 52`
unless `e` is the least exponent. Exponent and significand then add up to the pattern, since the
leading bit of `q` counts as one step of the exponent field; a `q` that rounds up to `2 ^ 53`
carries into the next exponent, and past the last one stands infinity. -/
def nearestBits (num den : Nat) : Nat :=
  let e₀ : Int := (num.log2 : Int) - den.log2 - 53
  let (n₀, d₀) := scaled num den e₀
  let e := max (if n₀ / d₀ < 2 * exponentUnit then e₀ else e₀ + 1) (-1074)
  let (n, d) := scaled num den e
  min ((e + 1074).toNat * exponentUnit + roundHalfEven n d) infinityBits

/-- The bits of the double-precision number nearest to `m · 10 ^ k`, where `m` has `width` decimal
digits. Powers of ten far outside the range are not computed: everything from `10 ^ 310` on is
infinite and everything below `10 ^ (-330)` is zero. -/
def decimalBits (m : Nat) (width : Nat) (k : Int) : Nat :=
  if m = 0 then 0
  else if (width : Int) + k < -330 then 0
  else if 310 ≤ k then infinityBits
  else if 0 ≤ k then nearestBits (m * Nat.pow 10 k.toNat) 1
  else nearestBits m (Nat.pow 10 (-k).toNat)

/-- The exponent part after the digits: nothing, or the letter `e` and an integer. -/
def readExponent? : List Char → Option Int
  | [] => some 0
  | c :: rest => if c = 'e' ∨ c = 'E' then readInt? rest else none

/-- The bits of an unsigned decimal: digits with an optional point somewhere among them or at one
of their ends, at least one digit, and an optional exponent. -/
def readDecimalBits? (cs : List Char) : Option Nat :=
  let whole := cs.takeWhile Char.isDigit
  let rest := cs.dropWhile Char.isDigit
  let (fraction, rest) :=
    match rest with
    | '.' :: tail => (tail.takeWhile Char.isDigit, tail.dropWhile Char.isDigit)
    | _ => ([], rest)
  let digits := whole ++ fraction
  if digits = [] then none
  else
    (readExponent? rest).map fun e =>
      decimalBits (digitsValue digits) digits.length (e - fraction.length)

/-- The bits of an unsigned number: `inf`, `infinity` or `nan` in any case of letters, or a
decimal. -/
def readUnsignedBits? (cs : List Char) : Option Nat :=
  let name := cs.map Char.toLower
  if name = "inf".toList ∨ name = "infinity".toList then some infinityBits
  else if name = "nan".toList then some nanBits
  else readDecimalBits? cs

/-- A double-precision number with an optional sign. -/
def readFloat? (s : String) : Option Float :=
  let (negative, cs) := splitSign s.toList
  (readUnsignedBits? cs).map fun bits =>
    Float.ofBits (UInt64.ofNat (if negative then signBit + bits else bits))

end PolyLambda.Text
