import PolyLambda.Text.Blank

/-!
# Words

Cutting text at its blanks, and at the first occurrence of a character.
-/

namespace PolyLambda.Text

/-- The words of `cs`, where `word` is the beginning of the first one in reverse. -/
def wordsFrom (word : List Char) : List Char → List (List Char)
  | [] => if word.isEmpty then [] else [word.reverse]
  | c :: cs =>
    if isBlank c then
      if word.isEmpty then wordsFrom [] cs else word.reverse :: wordsFrom [] cs
    else wordsFrom (c :: word) cs

/-- The maximal runs of characters of `s` that are not blank. -/
def words (s : String) : List String :=
  (wordsFrom [] s.toList).map String.ofList

/-- The parts of `s` before and after the first `c`, if there is one. -/
def splitAt? (c : Char) (s : String) : Option (String × String) :=
  match s.toList.dropWhile (· ≠ c) with
  | [] => none
  | _ :: rest => some (String.ofList (s.toList.takeWhile (· ≠ c)), String.ofList rest)

/-- The text `s` without the characters `c` at its two ends. -/
def stripChar (c : Char) (s : String) : String :=
  String.ofList (((s.toList.dropWhile (· = c)).reverse.dropWhile (· = c)).reverse)

end PolyLambda.Text
