import PolyLambda.Module
import PolyLambda.Text.Blank
import PolyLambda.Value

/-!
# Prompts

What a model is asked when it is to compute a function: the documentation of the function and of its
parameters as far as there is any, the argument, and the type of the answer.
-/

namespace PolyLambda

/-- How an argument is shown to a model: a string without quotes, other data as usual. Functions
cannot be shown. -/
def Value.forPrompt? : Value → Option String
  | .string text => some text
  | .int value => some (Value.int value).render
  | .con name arity args =>
    if (Value.con name arity args).isSaturated then some (Value.con name arity args).render
    else none
  | _ => none

namespace LlmFunction

/-- The paragraph on the function, and a blank line. -/
def docPart (f : LlmFunction) : String :=
  match f.doc with
  | some doc => Text.trim doc ++ "\n\n"
  | none => ""

/-- The lines on the parameters, and a blank line. Every parameter is said to have the type of the
first one. -/
def paramPart (f : LlmFunction) : String :=
  if f.paramDocs.isEmpty then ""
  else
    "Parameters:\n"
      ++ String.join (f.paramDocs.map fun (name, doc) =>
          "- " ++ name ++ " (" ++ f.param.render ++ "): " ++ doc ++ "\n")
      ++ "\n"

/-- The prompt for an argument that can be shown. -/
def prompt? (f : LlmFunction) (input : Value) : Option String :=
  input.forPrompt?.map fun text =>
    f.docPart ++ f.paramPart ++ "Input: " ++ text ++ "\n"
      ++ "Respond with a value of type " ++ f.result.render ++ " and nothing else."

end LlmFunction

end PolyLambda
