/-!
# Failures to read a file

Why a file named on the command line cannot be read. Its text gives the reason in the words of the
operating system, with the number that the system knows it by; a file that is there but holds no
UTF-8 text has no such number.
-/

namespace PolyLambda.CommandLine

/-- Why a file cannot be read. -/
inductive ReadFailure where
  /-- Nothing has this name. -/
  | missing
  | permissionDenied
  /-- The path leads through something that is no directory. -/
  | notDirectory
  | isDirectory
  /-- The path, or a name in it, is longer than the system allows. -/
  | nameTooLong
  /-- The path leads through too many links. -/
  | linkLoop
  /-- The content is not UTF-8. -/
  | notText
  /-- Any other reason, in the words of the system. -/
  | system (number : Nat) (text : String)
  deriving DecidableEq, Inhabited

namespace ReadFailure

/-- A reason of the operating system. -/
def systemMessage (number : Nat) (text : String) : String :=
  text ++ " (os error " ++ toString number ++ ")"

def message : ReadFailure → String
  | .missing => systemMessage 2 "No such file or directory"
  | .permissionDenied => systemMessage 13 "Permission denied"
  | .notDirectory => systemMessage 20 "Not a directory"
  | .isDirectory => systemMessage 21 "Is a directory"
  | .nameTooLong => systemMessage 36 "File name too long"
  | .linkLoop => systemMessage 40 "Too many levels of symbolic links"
  | .notText => "stream did not contain valid UTF-8"
  | .system number text => systemMessage number text

/-- The failure with a number of the operating system, whose own words are `text`. -/
def ofNumber (number : Nat) (text : String) : ReadFailure :=
  match number with
  | 2 => .missing
  | 13 => .permissionDenied
  | 20 => .notDirectory
  | 21 => .isDirectory
  | 36 => .nameTooLong
  | 40 => .linkLoop
  | _ => .system number text

end ReadFailure

end PolyLambda.CommandLine
