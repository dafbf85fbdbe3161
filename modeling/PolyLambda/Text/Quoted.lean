import PolyLambda.Text.Unprintable

/-!
# Quoted text

How text is shown in values, terms and messages: between double quotes, with the quote, the
backslash and the common controls written as two characters, and every other character without a
glyph of its own written as `\u` and its code point in braces. The apostrophe stands for itself.
-/

namespace PolyLambda.Text

/-- The code point of `c` in lower-case hexadecimal digits, without leading zeros. -/
def hexDigits (c : Char) : List Char :=
  Nat.toDigits 16 c.toNat

/-- One character inside quoted text. -/
def quoteChar (c : Char) : List Char :=
  if c = '\x00' then ['\\', '0']
  else if c = '\t' then ['\\', 't']
  else if c = '\r' then ['\\', 'r']
  else if c = '\n' then ['\\', 'n']
  else if c = '\\' then ['\\', '\\']
  else if c = '"' then ['\\', '"']
  else if isPrintable c then [c]
  else ['\\', 'u', '\x7b'] ++ hexDigits c ++ ['\x7d']

/-- The characters of `cs` as they stand inside quotes. -/
def quoteBody (cs : List Char) : List Char :=
  cs.flatMap quoteChar

/-- The quoted form of `s`. -/
def quote (s : String) : String :=
  String.ofList (['"'] ++ quoteBody s.toList ++ ['"'])

@[simp]
theorem quoteBody_nil : quoteBody [] = [] := rfl

@[simp]
theorem quoteBody_cons (c : Char) (cs : List Char) :
    quoteBody (c :: cs) = quoteChar c ++ quoteBody cs := by
  simp [quoteBody]

end PolyLambda.Text
