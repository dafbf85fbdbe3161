import PolyLambda.Module.OfSurface
import PolyLambda.Surface.Parser.Declaration

/-!
# Modules from source text
-/

namespace PolyLambda

/-- Why a source text is no module. -/
inductive Rejection where
  | syntaxErrors (errors : List Surface.ParseError)
  /-- The declarations that are left, with the errors of the others. -/
  | scopeErrors (m : Module)
  deriving Inhabited

namespace Module

/-- What can be understood of a source text, leaving out everything that is wrong. -/
def recover (source : String) : Module :=
  ofSurface (Surface.parse source).declarations

/-- The module that a source text without errors is. Names are resolved only when there is no error
of syntax. -/
def ofSource (source : String) : Except Rejection Module :=
  let parsed := Surface.parse source
  if parsed.errors.isEmpty then
    let m := ofSurface parsed.declarations
    if m.hasErrors then .error (.scopeErrors m) else .ok m
  else .error (.syntaxErrors parsed.errors)

end Module

end PolyLambda
