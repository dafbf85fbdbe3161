/-!
# White space

The characters that separate words in pragmas and pad model responses: the property `White_Space`
of the Unicode character database. Core's `Char.isWhitespace` knows four of them, and all four are
in the table here (`isBlank_of_isWhitespace`).
-/

namespace PolyLambda.Text

/-- The ranges of code points with the property `White_Space`, ends included. -/
def blankRanges : List (Nat × Nat) :=
  [(0x9, 0xd), (0x20, 0x20), (0x85, 0x85), (0xa0, 0xa0), (0x1680, 0x1680), (0x2000, 0x200a),
   (0x2028, 0x2029), (0x202f, 0x202f), (0x205f, 0x205f), (0x3000, 0x3000)]

/-- Whether `c` is white space. -/
def isBlank (c : Char) : Bool :=
  blankRanges.any fun (low, high) => low ≤ c.toNat && c.toNat ≤ high

theorem isBlank_of_isWhitespace {c : Char} (h : c.isWhitespace = true) : isBlank c = true := by
  simp only [Char.isWhitespace, Bool.or_eq_true, decide_eq_true_eq] at h
  rcases h with ((rfl | rfl) | rfl) | rfl <;> decide

/-- The characters of `cs` from the first that is not blank to the last that is not. -/
def trimmed (cs : List Char) : List Char :=
  ((cs.dropWhile isBlank).reverse.dropWhile isBlank).reverse

/-- The text `s` without the blanks at its two ends. -/
def trim (s : String) : String :=
  String.ofList (trimmed s.toList)

/-- The part of `s` before its first blank and the part after that blank; the second part is empty
when there is no blank. -/
def splitAtBlank (s : String) : String × String :=
  let word := s.toList.takeWhile (fun c => !isBlank c)
  let rest := s.toList.dropWhile (fun c => !isBlank c)
  (String.ofList word, String.ofList (rest.drop 1))

end PolyLambda.Text
