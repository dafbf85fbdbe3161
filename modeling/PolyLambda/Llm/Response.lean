import PolyLambda.Module
import PolyLambda.Text.Blank
import PolyLambda.Text.Decimal
import PolyLambda.Value

/-!
# Responses

How the response of a model is read as a value of the type it was asked for: an integer, a string,
or a constructor of a data type without fields. Blanks around a response are ignored. Whatever else
it is, it is no value.
-/

namespace PolyLambda

/-- The text `text` without a pair of quotes around it. -/
def unquoted (text : List Char) : List Char :=
  match text with
  | '"' :: rest => if rest.getLast? = some '"' then rest.dropLast else text
  | _ => text

/-- The value without fields that `text` names in the data type `d`. -/
def DataDecl.readConstructor? (d : DataDecl) (text : String) : Option Value :=
  if d.isEnumeration && d.lists text then some (.saturated text []) else none

/-- The value of the type `t` that a response stands for. -/
def readResponse? (dataTypes : Table DataDecl) (t : Ty) (response : String) : Option Value :=
  let text := Text.trimmed response.toList
  match t with
  | .prim "Int" => (Text.readInt64? text).map .int
  | .prim "String" => some (.string (String.ofList (unquoted text)))
  | .data name _ => (dataTypes.get? name).bind fun d => d.readConstructor? (String.ofList text)
  | _ => none

end PolyLambda
