import PolyLambda.CommandLine

/-!
# The program

Reads the file that the command line names, if any, and writes what `CommandLine.output` says.
-/

namespace PolyLambda.CommandLine

/-- The number of a failure of the operating system; some failures carry it with its sign turned. -/
def failureNumber (code : UInt32) : Nat :=
  code.toInt32.toInt.natAbs

/-- The number and the words that the operating system has for a failure, if it is one of the
system's. -/
def systemFailure? : IO.Error → Option (UInt32 × String)
  | .noFileOrDirectory _ code text | .interrupted _ code text => some (code, text)
  | .alreadyExists _ code text | .invalidArgument _ code text | .permissionDenied _ code text
  | .resourceExhausted _ code text | .inappropriateType _ code text
  | .noSuchThing _ code text => some (code, text)
  | .otherError code text | .resourceBusy code text | .resourceVanished code text
  | .unsupportedOperation code text | .hardwareFault code text
  | .unsatisfiedConstraints code text | .illegalOperation code text | .protocolError code text
  | .timeExpired code text => some (code, text)
  | .unexpectedEof | .userError _ => none

/-- Why a file cannot be read. A failure that is not the system's is one of its content. -/
def readFailure (e : IO.Error) : ReadFailure :=
  match systemFailure? e with
  | some (code, text) => .ofNumber (failureNumber code) text
  | none => .notText

/-- The content of a file, read before anything is computed. -/
def readFile (file : String) : IO (Except ReadFailure String) := do
  try
    return .ok (← IO.FS.readFile file)
  catch e =>
    return .error (readFailure e)

/-- The file that a command works on. -/
def Command.file : Command → String
  | .parse file | .check file | .run file _ _ => file

/-- What the program does with its arguments and the file they name. -/
def perform (args : List String) : IO Output := do
  match readCommand args with
  | .ok command =>
    let content ← readFile command.file
    return output .standard (fun _ => content) args
  | .error _ => return output .standard (fun _ => .error .missing) args

end PolyLambda.CommandLine

def main (args : List String) : IO UInt32 := do
  let o ← PolyLambda.CommandLine.perform args
  IO.print o.stdout
  IO.eprint o.stderr
  return o.exit.toUInt32
