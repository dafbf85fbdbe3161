import PolyLambda.Text.Decimal
import PolyLambda.Text.Quoted
import PolyLambda.Ty.Basic

/-!
# Terms

The core language: names of locals are resolved to distances. `var 0` is bound by the nearest
enclosing lambda, `let` or pattern, `var 1` by the next one, and so on. Type variables keep their
names.
-/

namespace PolyLambda

mutual

inductive Term where
  | var (index : Nat)
  | global (name : String)
  /-- A function, perhaps without a type for its parameter. -/
  | lam (type : Option Ty) (body : Term)
  | app (fn arg : Term)
  | tlam (v : String) (body : Term)
  | tapp (fn : Term) (type : Ty)
  | con (name : String) (args : List Term)
  | case (scrutinee : Term) (branches : List Branch)
  /-- A local definition, which is not in scope in its own value. -/
  | letIn (name : String) (value body : Term)
  | int (value : Int64)
  | string (text : String)
  | prim (name : String)
  | tool (name : String) (args : List Term)

/-- One alternative of a case term. In its body the first variable of the pattern has index 0. -/
inductive Branch where
  | mk (constructor : String) (vars : List String) (body : Term)

end

instance : Inhabited Term := ⟨.var 0⟩

namespace Branch

def constructor : Branch → String
  | mk constructor _ _ => constructor

def vars : Branch → List String
  | mk _ vars _ => vars

def body : Branch → Term
  | mk _ _ body => body

end Branch

namespace Term

/-! ## Size -/

mutual

/-- The number of nodes. -/
def size : Term → Nat
  | .var _ | .global _ | .int _ | .string _ | .prim _ => 1
  | .lam _ body => body.size + 1
  | .app fn arg => fn.size + arg.size + 1
  | .tlam _ body => body.size + 1
  | .tapp fn _ => fn.size + 1
  | .con _ args => sizeArgs args + 1
  | .case scrutinee branches => scrutinee.size + sizeBranches branches + 1
  | .letIn _ value body => value.size + body.size + 1
  | .tool _ args => sizeArgs args + 1

def sizeArgs : List Term → Nat
  | [] => 0
  | arg :: args => arg.size + sizeArgs args + 1

def sizeBranches : List Branch → Nat
  | [] => 0
  | .mk _ _ body :: branches => body.size + sizeBranches branches + 1

end

/-! ## Text -/

mutual

/-- The text of a term. -/
def render : Term → String
  | .var index => "#" ++ toString index
  | .global name => name
  | .prim name => name
  | .lam (some type) body => "(fn : " ++ type.render ++ ". " ++ body.render ++ ")"
  | .lam none body => "(fn. " ++ body.render ++ ")"
  | .app fn arg => "(" ++ fn.render ++ " " ++ arg.render ++ ")"
  | .tlam v body => "(tfn '" ++ v ++ ". " ++ body.render ++ ")"
  | .tapp fn type => "(" ++ fn.render ++ " @" ++ type.render ++ ")"
  | .con name [] => name
  | .con name (arg :: args) => "(" ++ name ++ renderArgs (arg :: args) ++ ")"
  | .case scrutinee branches => "(case " ++ scrutinee.render ++ renderBranches branches ++ ")"
  | .letIn name value body =>
    "(let " ++ name ++ " = " ++ value.render ++ " in " ++ body.render ++ ")"
  | .int value => Text.decimal value
  | .string text => Text.quote text
  | .tool name args => "(tool " ++ name ++ renderArgs args ++ ")"

/-- Terms one after another, a space before each. -/
def renderArgs : List Term → String
  | [] => ""
  | arg :: args => " " ++ arg.render ++ renderArgs args

def renderBranches : List Branch → String
  | [] => ""
  | .mk constructor vars body :: branches =>
    " [" ++ constructor ++ String.join (vars.map (" " ++ ·)) ++ " => " ++ body.render ++ "]"
      ++ renderBranches branches

end

end Term

end PolyLambda
