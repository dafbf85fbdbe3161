import PolyLambda.CommandLine.Arguments
import PolyLambda.CommandLine.ReadFailure
import PolyLambda.Evaluation
import PolyLambda.Module.OfSource
import PolyLambda.Surface.Printer
import PolyLambda.Typing.Checker

/-!
# The command line

What the program writes for each command, as a function of its arguments and of the files it can
read. Diagnostics name the file and the place; the results go to the other stream.
-/

namespace PolyLambda.CommandLine

/-- What a run of the program writes, and how it ends: 0 if all is well, 1 if something is wrong
with the file, 2 if the program was not used properly. -/
structure Output where
  exit : UInt8
  stdout : String
  stderr : String
  deriving DecidableEq, Inhabited

/-- How deep unification and evaluation may recur. -/
structure Limits where
  unification : Nat
  evaluation : Nat
  deriving DecidableEq, Inhabited

/-- Limits that a machine's memory reaches first. -/
def Limits.standard : Limits := ⟨1000000, 1000000000⟩

/-- The content of a file, or the reason why it cannot be read. -/
abbrev ReadFile := String → Except ReadFailure String

namespace Output

/-- Failure, with nothing but diagnostics. -/
def failure (stderr : String) : Output := ⟨1, "", stderr⟩

/-- The output with diagnostics in front of its own. -/
def after (stderr : String) (o : Output) : Output :=
  { o with stderr := stderr ++ o.stderr }

end Output

/-- One line of text. -/
def line (text : String) : String := text ++ "\n"

/-- An error that no place in the file is to blame for. -/
def generalError (message : String) : String :=
  line ("error: " ++ message)

/-- An error at a place in the file. -/
def report (file : String) (span : Span) (kind message : String) : String :=
  line (file ++ ":" ++ toString span.start ++ ":" ++ toString span.stop ++ ": " ++ kind
    ++ " error: " ++ message)

def reportSyntax (file : String) (errors : List Surface.ParseError) : String :=
  String.join (errors.map fun e => report file e.span "parse" e.message)

def reportScope (file : String) (errors : List ScopeError) : String :=
  String.join (errors.map fun e => report file e.span "elaboration" e.message)

def reportWarnings (file : String) (warnings : List Warning) : String :=
  String.join (warnings.map fun w => line (file ++ ": warning: " ++ w.message))

/-- A type error is reported at the first definition of the name that it is attributed to. -/
def reportType (file : String) (m : Module) (e : TypeError) : String :=
  let span := ((e.declaration?.bind m.definition?).map (·.span)).getD .origin
  report file span "type" e.message

/-- What is written when a limit was too low. -/
def limitReached : String :=
  generalError "recursion limit reached"

/-! ## Commands -/

/-- Reads a file and goes on with its content. -/
def withFile (read : ReadFile) (file : String) (k : String → Output) : Output :=
  match read file with
  | .ok source => k source
  | .error e => .failure (generalError ("could not read " ++ file ++ ": " ++ e.message))

/-- Goes on with the module of a source text, and reports its warnings; or reports its errors. -/
def withModule (file source : String) (k : Module → Output) : Output :=
  match Module.ofSource source with
  | .error (.syntaxErrors errors) => .failure (reportSyntax file errors)
  | .error (.scopeErrors m) =>
    .failure (reportWarnings file m.warnings ++ reportScope file m.errors)
  | .ok m => (k m).after (reportWarnings file m.warnings)

/-- Goes on with the types of a module, or reports its type error. -/
def withTypes (limits : Limits) (file : String) (m : Module) (k : Table Ty → Output) : Output :=
  match (m.check limits.unification).outcome? with
  | none => .failure limitReached
  | some (.error e) => .failure (reportType file m e)
  | some (.ok types) => k types

/-- The outline of a source text, also of one with errors. -/
def parseOutput (file source : String) : Output :=
  let parsed := Surface.parse source
  ⟨if parsed.errors.isEmpty then 0 else 1, Surface.renderAll parsed.declarations,
    reportSyntax file parsed.errors⟩

/-- The types of the definitions, one line for each. -/
def typeLines (m : Module) (types : Table Ty) : String :=
  String.join (m.definitions.map fun d =>
    match types.get? d.name with
    | some t => line (d.name ++ " : " ++ t.render)
    | none => "")

def checkOutput (limits : Limits) (file : String) (m : Module) : Output :=
  withTypes limits file m fun types => ⟨0, typeLines m types ++ line "OK", ""⟩

/-- The definition to show: the one asked for, or `main` if there is one. -/
def chosenEntry (m : Module) (entry : Option String) : Option String :=
  match entry with
  | some name => some name
  | none => (m.definition? "main").map fun _ => "main"

/-- What is shown of the value of a definition. -/
def valueLine (entry : Option String) (d : Definition) (v : Value) : String :=
  match entry with
  | some name => if d.name = name then line v.render else ""
  | none => line (d.name ++ " = " ++ v.render)

/-- Evaluates the definitions of a module in order, up to the first that fails. -/
def evaluationOutput (limits : Limits) (file : String) (m : Module) (entry : Option String)
    (config : LlmConfig) : Output :=
  let host := { Host.standard with config := config }
  match
    Session.evaluateDefinitions (.ofModule m host) limits.evaluation m.definitions .empty
  with
  | none => .failure limitReached
  | some ((values, failure), _) =>
    let shown := String.join (values.map fun (d, v) => valueLine entry d v)
    match failure with
    | none => ⟨0, shown, ""⟩
    | some (d, e) => ⟨1, shown, report file d.span "runtime" e.message⟩

def runOutput (limits : Limits) (file : String) (m : Module) (entry : Option String)
    (config : LlmConfig) : Output :=
  withTypes limits file m fun _ =>
    match entry with
    | some name =>
      if (m.definition? name).isSome then
        evaluationOutput limits file m (some name) config
      else .failure (generalError ("no declaration named " ++ name))
    | none => evaluationOutput limits file m (chosenEntry m none) config

/-- How the program is used. -/
def usage : String :=
  "Usage:\n"
    ++ "  parse FILE    show how a source file is understood\n"
    ++ "  check FILE    show the types of its definitions\n"
    ++ "  run FILE [--entry NAME] [--model NAME] [--temperature NUMBER]\n"
    ++ "                evaluate it and show the values of its definitions\n"

def commandOutput (limits : Limits) (read : ReadFile) : Command → Output
  | .parse file => withFile read file (parseOutput file)
  | .check file => withFile read file fun source =>
      withModule file source (checkOutput limits file)
  | .run file entry config => withFile read file fun source =>
      withModule file source fun m => runOutput limits file m entry config

/-- What the program does with its arguments. -/
def output (limits : Limits) (read : ReadFile) (args : List String) : Output :=
  match readCommand args with
  | .ok command => commandOutput limits read command
  | .error .help => ⟨0, usage, ""⟩
  | .error .misuse => ⟨2, "", usage⟩

end PolyLambda.CommandLine
