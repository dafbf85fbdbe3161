import PolyLambda.Module.Prelude
import PolyLambda.Scope
import PolyLambda.Text.Decimal
import PolyLambda.Text.Words

/-!
# Modules from source declarations

Declarations are taken in order, each in the scope of itself and of those before it. The elaborator
works on its tables in place. A data type is entered before the types of its fields are resolved,
and the name of a definition before its body is, for both may mention themselves. When there is an
error, the declaration is left out, and what it has entered is taken back.
-/

namespace PolyLambda

/-- A step that may warn and may fail. Warnings given before a failure stay. -/
abbrev Diagnosed := Stateful (List Warning)

def warn (w : Warning) : Diagnosed Unit :=
  modify (· ++ [w])

def warnIf (condition : Bool) (w : Warning) : Diagnosed Unit :=
  if condition then warn w else pure ()

/-! ## Model functions -/

/-- The pragma that hands a function to a language model. -/
def llmPragma : String := "LLM"

/-- Which model to ask, and how freely it may answer. -/
structure LlmSettings where
  model : Option String
  temperature : Option Float
  deriving Inhabited

/-- The settings with one more word of the pragma `LLM` on the definition `name` taken in. -/
def LlmSettings.read (span : Span) (name : String) (settings : LlmSettings) (word : String) :
    Diagnosed LlmSettings :=
  match Text.splitAt? '=' word with
  | some ("model", value) => return { settings with model := some (Text.stripChar '"' value) }
  | some ("temperature", value) =>
    match Text.readFloat? value with
    | some t => return { settings with temperature := some t }
    | none => throw ⟨span, .llmTemperature value name⟩
  | _ => do
    warn (.unknownLlmSetting word name)
    return settings

/-- The declared type of the parameter of the lambda that an expression is, if it is one. -/
def lambdaType? : Surface.Expr → Option (Option Surface.TypeExpr)
  | .lam _ _ type _ _ => some type
  | _ => none

/-- A definition with the type and body that `d` gets. -/
def Surface.Definition.toCore (d : Surface.Definition) (type : Option Ty) (body : Term) :
    PolyLambda.Definition :=
  ⟨d.span, d.name, type, body, d.pragmas, d.doc, d.paramDocs⟩

/-- The tables with the type of a global. -/
def Signature.withGlobal (sig : Signature) (name : String) : Option Ty → Signature
  | some type => { sig with globalTypes := sig.globalTypes.insert name type }
  | none => sig

/-! ## The elaborator -/

/-- What changes while declarations are taken: the tables and the names in scope, the declarations
so far, and what was found wrong or odd. -/
structure Elaborator extends Scope where
  declarations : List Declaration
  errors : List ScopeError
  warnings : List Warning
  deriving Inhabited

namespace Elaborator

/-- An elaborator that goes on behind the declarations of a module. -/
def resume (m : Module) : Elaborator where
  sig := m.toSignature
  globals := m.definitions.foldl (fun names d => names.insert d.name) []
  typeVars := []
  locals := []
  declarations := m.declarations
  errors := m.errors
  warnings := m.warnings

/-- What the declarations so far make up. -/
def module (s : Elaborator) : Module where
  toSignature := s.sig
  declarations := s.declarations
  errors := s.errors
  warnings := s.warnings

def withScope (scope : Scope) (s : Elaborator) : Elaborator :=
  { s with toScope := scope }

def withWarnings (warnings : List Warning) (s : Elaborator) : Elaborator :=
  { s with warnings := warnings }

/-- A step on what is in scope. -/
def inScope {α : Type} (step : Stateful Scope α) : Stateful Elaborator α :=
  .onPart toScope withScope step

/-- A step that does nothing to the state but to add warnings. -/
def logging {α : Type} (step : Diagnosed α) : Stateful Elaborator α :=
  .onPart warnings withWarnings step

def changeSig (f : Signature → Signature) : Stateful Elaborator Unit :=
  modify fun s => { s with sig := f s.sig }

def changeTypeVars (vars : List String) : Stateful Elaborator Unit :=
  modify fun s => { s with typeVars := vars }

def changeGlobals (f : List String → List String) : Stateful Elaborator Unit :=
  modify fun s => { s with globals := f s.globals }

def elaborateType (type : Surface.TypeExpr) : Stateful Elaborator Ty :=
  inScope (Scope.onTypeVars type.elaborate)

/-! ### Data types -/

/-- A constructor with the types of its fields. -/
def elaborateConstructor (c : Surface.Constructor) : Stateful Elaborator ConstructorDecl := do
  let fields ← inScope (Scope.onTypeVars fun sig => Surface.TypeExpr.elaborateAll sig c.fields)
  return ⟨c.name, fields⟩

/-- Enters what a data type is, or takes it out. -/
def setData (name : String) (decl : Option DataDecl) : Stateful Elaborator Unit :=
  changeSig fun sig =>
    match decl with
    | some d => { sig with dataTypes := sig.dataTypes.insert name d }
    | none => { sig with dataTypes := sig.dataTypes.erase name }

def dropConstructor (c : ConstructorDecl) : Stateful Elaborator Unit :=
  changeSig fun sig => { sig with constructorTypes := sig.constructorTypes.erase c.name }

/-- Warns if there is a data type already that lists the constructor `c` of `d`. -/
def warnShadowed (sig : Signature) (d : DataDecl) (c : ConstructorDecl) : Diagnosed Unit :=
  match (sig.ownersOf c.name).head? with
  | some owner => warn (.constructorShadowed c.name d.name owner.name)
  | none => pure ()

def enterConstructor (d : DataDecl) (c : ConstructorDecl) : Stateful Elaborator Unit := do
  let s ← get
  logging (warnShadowed s.sig d c)
  changeSig fun sig =>
    { sig with constructorTypes := sig.constructorTypes.insert c.name (d.constructorType c) }

def enterData (d : DataDecl) : Stateful Elaborator (Option Declaration) := do
  d.constructors.forM (enterConstructor d)
  setData d.name (some d)
  return some (.data d)

/-- A data type. Declaring one again as it was changes nothing; declaring it differently takes the
constructors of the old one away. -/
def elaborateData (d : Surface.DataDecl) : Stateful Elaborator (Option Declaration) := do
  let s ← get
  let previous := s.sig.dataTypes.get? d.name
  setData d.name (some ⟨d.name, d.params, []⟩)
  changeTypeVars d.params
  let r ← Stateful.attempt (d.constructors.mapM elaborateConstructor)
  changeTypeVars []
  match r with
  | .error e => do
    setData d.name previous
    throw e
  | .ok constructors =>
    let decl : DataDecl := ⟨d.name, d.params, constructors⟩
    match previous with
    | none => enterData decl
    | some old =>
      if old = decl then do
        setData d.name (some old)
        return none
      else do
        logging (warn (.dataTypeRedeclared d.name))
        old.constructors.forM dropConstructor
        enterData decl

/-! ### Primitives -/

def elaboratePrimType (name : String) : Stateful Elaborator (Option Declaration) := do
  let s ← get
  changeSig fun sig =>
    { sig with primitiveTypeNames := sig.primitiveTypeNames.insert name () }
  logging (warnIf (s.sig.primitiveTypeNames.contains name) (.primitiveTypeRedeclared name))
  return some (.primType name)

def elaboratePrimOp (d : Surface.PrimOpDecl) : Stateful Elaborator (Option Declaration) := do
  let type ← elaborateType d.type
  let s ← get
  changeSig fun sig => { sig with primitiveTypes := sig.primitiveTypes.insert d.name type }
  logging (warnIf (s.sig.primitiveTypes.contains d.name) (.primitiveRedeclared d.name))
  return some (.primOp d.name type)

/-! ### Definitions -/

/-- The type of a model function: the declared one, or else that of a function that keeps the type
of its parameter. -/
def elaborateLlmType (d : Surface.Definition) (declared : Option Ty)
    (param : Option Surface.TypeExpr) : Stateful Elaborator Ty :=
  match declared, param with
  | some t, _ => return t
  | none, some param => do
    let p ← elaborateType param
    return .arrow p p
  | none, none => throw ⟨d.span, .llmWithoutType d.name⟩

/-- A definition with the pragma `LLM`. Its body is not looked at, apart from its being a lambda,
and a primitive that the model computes stands in its place. -/
def elaborateLlm (d : Surface.Definition) (declared : Option Ty) (text : String) :
    Stateful Elaborator Declaration :=
  match lambdaType? d.body with
  | none => throw ⟨d.body.span, .llmWithoutLambda d.name⟩
  | some param => do
    let type ← elaborateLlmType d declared param
    match type.splitAlls.2 with
    | .arrow param result => do
      let settings ←
        logging ((Text.words text).foldlM (LlmSettings.read d.span d.name) ⟨none, none⟩)
      let f : LlmFunction :=
        ⟨d.name, d.doc, d.paramDocs, settings.model, settings.temperature, param, result⟩
      changeSig fun sig => { sig with primitiveTypes := sig.primitiveTypes.insert f.primitive type }
      changeSig fun sig => { sig with globalTypes := sig.globalTypes.insert d.name type }
      changeSig fun sig => { sig with llmFunctions := sig.llmFunctions.insert d.name f }
      return .definition (d.toCore (some type) (.prim f.primitive))
    | _ => throw ⟨d.span, .llmNotFunction d.name type⟩

/-- A definition whose name is entered. -/
def elaborateNamed (d : Surface.Definition) : Stateful Elaborator Declaration := do
  let declared ← d.type.mapM elaborateType
  logging ((d.pragmas.names.filter (· ≠ llmPragma)).forM fun key =>
    warn (.unknownPragma key d.name))
  match d.pragmas.get? llmPragma with
  | some text => elaborateLlm d declared text
  | none => do
    let body ← inScope d.body.elaborate
    changeSig (·.withGlobal d.name declared)
    return .definition (d.toCore declared body)

/-- A definition. Its name stays a global after an error only if it was one before. -/
def elaborateDefinition (d : Surface.Definition) : Stateful Elaborator (Option Declaration) := do
  let s ← get
  changeGlobals (·.insert d.name)
  logging (warnIf (d.name ∈ s.globals) (.redeclared d.name))
  let r ← Stateful.attempt (elaborateNamed d)
  match r with
  | .error e => do
    changeGlobals fun names => if d.name ∈ s.globals then names else names.erase d.name
    throw e
  | .ok c => return some c

/-! ### Declarations -/

/-- What a declaration is in the core language, if it is anything new. -/
def elaborate : Surface.Declaration → Stateful Elaborator (Option Declaration)
  | .data d => elaborateData d
  | .primType d => elaboratePrimType d.name
  | .primOp d => elaboratePrimOp d
  | .definition d => elaborateDefinition d

/-- The elaborator after one more declaration. -/
def declare (s : Elaborator) (d : Surface.Declaration) : Elaborator :=
  match (elaborate d).outcome { s with typeVars := [], locals := [] } with
  | (.ok (some c), s) => { s with declarations := s.declarations ++ [c] }
  | (.ok none, s) => s
  | (.error e, s) => { s with errors := s.errors ++ [e] }

end Elaborator

namespace Module

/-- The module after one more source declaration. -/
def declare (m : Module) (d : Surface.Declaration) : Module :=
  ((Elaborator.resume m).declare d).module

/-- The module that source declarations make up. -/
def ofSurface (declarations : List Surface.Declaration) : Module :=
  (declarations.foldl Elaborator.declare (.resume Prelude.emptyModule)).module

end Module

end PolyLambda
