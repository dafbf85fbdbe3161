import PolyLambda.Evaluation.Host
import PolyLambda.Text.Decimal
import PolyLambda.Text.Words

/-!
# Arguments of the command line

A command, a file, and for the command `run` some options. An option is written `--name value` or
`--name=value`, at most once; a value of its own must not begin with a minus, unless it is nothing
but a minus. After `--` every argument is a file.
-/

namespace PolyLambda.CommandLine

/-- What the program is asked to do. -/
inductive Command where
  /-- Show how a file is understood. -/
  | parse (file : String)
  /-- Show the types of the definitions of a file. -/
  | check (file : String)
  /-- Evaluate a file, and show the value of `entry` or those of all definitions. -/
  | run (file : String) (entry : Option String) (config : LlmConfig)
  deriving Inhabited

/-- Why there is no command. -/
inductive NoCommand where
  /-- The user asks how the program is used. -/
  | help
  | misuse
  deriving DecidableEq, Inhabited

/-- The options of a command, each with the values it accepts. -/
abbrev KnownOptions := List (String × (String → Bool))

/-- The options of the command `run`. -/
def runOptions : KnownOptions :=
  [("--entry", fun _ => true),
   ("--model", fun _ => true),
   ("--temperature", fun value => (Text.readFloat? value).isSome)]

/-- What the arguments of a command say, as far as they have been read. -/
structure Arguments where
  file : Option String
  options : Table String
  deriving DecidableEq, Inhabited

namespace Arguments

def empty : Arguments := ⟨none, .empty⟩

/-- The arguments with one more file, which must be the only one. -/
def withFile (a : Arguments) (file : String) : Except NoCommand Arguments :=
  if a.file.isSome || file.isEmpty then .error .misuse
  else .ok { a with file := some file }

/-- The arguments with the value of an option, which must not have one yet. -/
def withOption (known : KnownOptions) (a : Arguments) (name value : String) :
    Except NoCommand Arguments :=
  match known.lookup name with
  | none => .error .misuse
  | some accepts =>
    if a.options.contains name || !accepts value then .error .misuse
    else .ok { a with options := a.options.insert name value }

/-- Whether an argument has the form of an option. -/
def isOption (arg : String) : Bool :=
  arg.startsWith "-" && arg ≠ "-"

/-- Reads the arguments of a command from left to right, up to the first that is wrong or asks for
help. -/
def read (known : KnownOptions) (a : Arguments) : List String → Except NoCommand Arguments
  | [] => .ok a
  | arg :: rest =>
    if arg = "--" then rest.foldlM withFile a
    else if arg = "--help" || arg = "-h" then .error .help
    else if isOption arg then
      match Text.splitAt? '=' arg, rest with
      | some (name, value), rest => do
        let b ← a.withOption known name value
        read known b rest
      | none, value :: rest =>
        if isOption value then .error .misuse
        else do
          let b ← a.withOption known arg value
          read known b rest
      | none, [] => .error .misuse
    else do
      let b ← a.withFile arg
      read known b rest

end Arguments

/-- The settings of the language model, as far as options set them. -/
def configOf (a : Arguments) : LlmConfig where
  model := (a.options.get? "--model").getD LlmConfig.standard.model
  temperature :=
    ((a.options.get? "--temperature").bind Text.readFloat?).getD LlmConfig.standard.temperature

/-- The file and the other arguments of a command. -/
def readWithFile (known : KnownOptions) (args : List String) :
    Except NoCommand (String × Arguments) := do
  let a ← Arguments.empty.read known args
  match a.file with
  | some file => return (file, a)
  | none => throw .misuse

/-- The commands, and the request for help as one of them. -/
def commandNames : List String := ["parse", "check", "run", "help"]

/-- The command that the arguments of the program spell. -/
def readCommand : List String → Except NoCommand Command
  | "parse" :: args => do
    let (file, _) ← readWithFile [] args
    return .parse file
  | "check" :: args => do
    let (file, _) ← readWithFile [] args
    return .check file
  | "run" :: args => do
    let (file, a) ← readWithFile runOptions args
    return .run file (a.options.get? "--entry") (configOf a)
  | ["help"] | "--help" :: _ | "-h" :: _ => .error .help
  | ["help", command] => .error (if command ∈ commandNames then .help else .misuse)
  | _ => .error .misuse

end PolyLambda.CommandLine
