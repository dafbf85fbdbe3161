import PolyLambda.Module.OfSurface
import PolyLambda.Proofs.Term.Stacks

/-!
# What a declaration comes to

The elaborator enters a data type before its fields are resolved, and the name of a definition
before its body is, and takes them back when there is an error. Here is what that comes to: a
declaration is resolved against the module before it, and then it is added to the module, or left
out, as a whole (`declare_data`, `declare_primType`, `declare_primOp`, `declare_definition`).
Nothing is left on the elaborator from one declaration to the next but the module
(`Elaborator.declare_resume`), so a program is what its declarations make of the module without any,
one after the other (`ofSurface_eq_foldl`).
-/

namespace PolyLambda

/-! ## Data types -/

/-- A constructor with the types of its fields. -/
def Surface.Constructor.resolve (sig : Signature) (vars : List String)
    (c : Surface.Constructor) : Except ScopeError ConstructorDecl := do
  let fields ← Surface.TypeExpr.resolveAll sig vars c.fields
  return ⟨c.name, fields⟩

/-- The tables in which the constructors of a data type are resolved: it is known, but not what it
is made of. -/
def Signature.expecting (sig : Signature) (name : String) (params : List String) : Signature :=
  { sig with dataTypes := sig.dataTypes.insert name ⟨name, params, []⟩ }

/-- A data type with its constructors, which may mention the type itself. -/
def Surface.DataDecl.resolve (sig : Signature) (d : Surface.DataDecl) :
    Except ScopeError PolyLambda.DataDecl := do
  let constructors ←
    d.constructors.mapM (Surface.Constructor.resolve (sig.expecting d.name d.params) d.params)
  return ⟨d.name, d.params, constructors⟩

namespace Signature

/-- The constructors of `d` that another data type lists too, each with the first such type. -/
def shadowed (sig : Signature) (d : DataDecl) : List Warning :=
  let others := { sig with dataTypes := sig.dataTypes.erase d.name }
  d.constructors.filterMap fun c =>
    (others.ownersOf c.name).head?.map fun owner =>
      .constructorShadowed c.name d.name owner.name

/-- The tables without the constructors of `d`. -/
def withoutConstructors (sig : Signature) (d : DataDecl) : Signature :=
  { sig with
    constructorTypes := d.constructors.foldl (fun t c => t.erase c.name) sig.constructorTypes }

/-- The tables with `d` and its constructors. -/
def withData (sig : Signature) (d : DataDecl) : Signature :=
  { sig with
    dataTypes := sig.dataTypes.insert d.name d
    constructorTypes :=
      d.constructors.foldl (fun t c => t.insert c.name (d.constructorType c))
        sig.constructorTypes }

/-- The tables with the model function `f` of type `type`. -/
def withLlm (sig : Signature) (f : LlmFunction) (type : Ty) : Signature :=
  { sig.withGlobal f.name (some type) with
    primitiveTypes := sig.primitiveTypes.insert f.primitive type
    llmFunctions := sig.llmFunctions.insert f.name f }

end Signature

namespace Module

/-- A rejected declaration. -/
def reject (m : Module) (e : ScopeError) : Module :=
  { m with errors := m.errors ++ [e] }

/-- An accepted declaration, with the tables after it. -/
def accept (m : Module) (d : Declaration) (sig : Signature) (warnings : List Warning) : Module :=
  { m with
    toSignature := sig
    declarations := m.declarations ++ [d]
    warnings := warnings }

/-- The module with the data type `d`. -/
def addData (m : Module) (d : DataDecl) : Module :=
  let shadowed := m.shadowed d
  match m.dataTypes.get? d.name with
  | none => m.accept (.data d) (m.withData d) (m.warnings ++ shadowed)
  | some old =>
    if old = d then m
    else
      m.accept (.data d) ((m.withoutConstructors old).withData d)
        (m.warnings ++ .dataTypeRedeclared d.name :: shadowed)

/-- The module with the primitive type `name`. -/
def addPrimType (m : Module) (name : String) : Module :=
  let again := m.primitiveTypeNames.contains name
  m.accept (.primType name)
    { m.toSignature with primitiveTypeNames := m.primitiveTypeNames.insert name () }
    (if again then m.warnings ++ [.primitiveTypeRedeclared name] else m.warnings)

/-- The module with the primitive operation `name`. -/
def addPrimOp (m : Module) (name : String) (type : Ty) : Module :=
  let again := m.primitiveTypes.contains name
  m.accept (.primOp name type)
    { m.toSignature with primitiveTypes := m.primitiveTypes.insert name type }
    (if again then m.warnings ++ [.primitiveRedeclared name] else m.warnings)

end Module

/-! ## Definitions -/

/-- The type of a model function: the declared one, or else that of a function that keeps the type
of its parameter. -/
def llmType (sig : Signature) (d : Surface.Definition) (declared : Option Ty)
    (param : Option Surface.TypeExpr) : Except ScopeError Ty :=
  match declared, param with
  | some t, _ => .ok t
  | none, some param => do
    let p ← param.resolve sig []
    return .arrow p p
  | none, none => .error ⟨d.span, .llmWithoutType d.name⟩

/-- A definition with the pragma `LLM`: its type and what the model is to be told. -/
def resolveLlm (sig : Signature) (d : Surface.Definition) (declared : Option Ty)
    (text : String) : Diagnosed (Ty × LlmFunction) := do
  match lambdaType? d.body with
  | none => throw ⟨d.body.span, .llmWithoutLambda d.name⟩
  | some param =>
    let type ← liftM (llmType sig d declared param)
    match type.splitAlls.2 with
    | .arrow param result =>
      let settings ← (Text.words text).foldlM (LlmSettings.read d.span d.name) ⟨none, none⟩
      return (type, ⟨d.name, d.doc, d.paramDocs, settings.model, settings.temperature,
        param, result⟩)
    | _ => throw ⟨d.span, .llmNotFunction d.name type⟩

/-- A definition among the globals `names`, which its own is one of, and the tables with it. -/
def resolveNamed (sig : Signature) (names : List String) (d : Surface.Definition) :
    Diagnosed (Definition × Signature) := do
  let declared ← liftM (d.type.mapM (Surface.TypeExpr.resolve sig []))
  (d.pragmas.names.filter (· ≠ llmPragma)).forM fun key => warn (.unknownPragma key d.name)
  match d.pragmas.get? llmPragma with
  | some text =>
    let (type, f) ← resolveLlm sig d declared text
    return (d.toCore (some type) (.prim f.primitive), sig.withLlm f type)
  | none =>
    let body ← liftM (d.body.resolve ⟨sig, names, [], []⟩)
    return (d.toCore declared body, sig.withGlobal d.name declared)

namespace Module

/-- The names of the definitions so far. -/
def globals (m : Module) : List String :=
  m.definitions.map (·.name)

/-- The definition `d` in the scope of `m` and of itself, and the tables with it. -/
def resolveDefinition (m : Module) (d : Surface.Definition) :
    Diagnosed (Definition × Signature) := do
  warnIf (d.name ∈ m.globals) (.redeclared d.name)
  resolveNamed m.toSignature (d.name :: m.globals) d

end Module

/-! ## The steps of the elaborator -/

namespace Elaborator

open Stateful (outcome_bind Keeps)

variable (s : Elaborator)

theorem outcome_elaborateType (type : Surface.TypeExpr) :
    (elaborateType type).outcome s = (type.resolve s.sig s.typeVars, s) := by
  have hkeeps : (elaborateType type).Keeps s :=
    .onPart (Surface.keeps_elaborateType s.toScope type) rfl
  exact hkeeps.outcome_eq

/-- The type of a declaration is elaborated with no type variable in scope. -/
theorem outcome_elaborateType_nil (type : Surface.TypeExpr) (hvars : s.typeVars = []) :
    (elaborateType type).outcome s = (type.resolve s.sig [], s) := by
  rw [outcome_elaborateType, hvars]

theorem outcome_elaborateConstructor (c : Surface.Constructor) :
    (elaborateConstructor c).outcome s = (c.resolve s.sig s.typeVars, s) := by
  have hkeeps : (inScope (Scope.onTypeVars fun sig =>
      Surface.TypeExpr.elaborateAll sig c.fields)).Keeps s :=
    .onPart (Surface.keeps_onTypeVars (Surface.TypeExpr.keeps_elaborateAll _ _ _)) rfl
  rw [elaborateConstructor, outcome_bind, hkeeps.outcome_eq, Surface.Constructor.resolve,
    show ((inScope _).outcome s).1 = Surface.TypeExpr.resolveAll s.sig s.typeVars c.fields from rfl]
  cases Surface.TypeExpr.resolveAll s.sig s.typeVars c.fields <;> rfl

theorem outcome_elaborateBody (e : Surface.Expr) :
    (inScope e.elaborate).outcome s = (e.resolve s.toScope, s) := by
  have hkeeps : (inScope e.elaborate).Keeps s := .onPart (e.keeps_elaborate s.toScope) rfl
  exact hkeeps.outcome_eq

/-! ### Data types -/

theorem outcome_dropConstructors (cs : List ConstructorDecl) :
    (cs.forM dropConstructor).outcome s = (.ok ⟨⟩, { s with
      sig := { s.sig with
        constructorTypes := cs.foldl (fun t c => t.erase c.name) s.sig.constructorTypes } }) := by
  induction cs generalizing s with
  | nil => rfl
  | cons c cs ih => exact ih _

theorem outcome_warnShadowed (sig : Signature) (d : DataDecl) (c : ConstructorDecl)
    (ws : List Warning) : (warnShadowed sig d c).outcome ws = (.ok (), ws ++
      ((sig.ownersOf c.name).head?.map fun owner =>
        .constructorShadowed c.name d.name owner.name).toList) := by
  rw [warnShadowed]
  cases (sig.ownersOf c.name).head? with
  | none => exact congrArg (Prod.mk _) (List.append_nil ws).symm
  | some owner => rfl

/-- While constructors are entered, the data types that are looked for stay as they are. -/
theorem outcome_enterConstructors (d : DataDecl) (cs : List ConstructorDecl) :
    (cs.forM (enterConstructor d)).outcome s = (.ok ⟨⟩, { s with
      sig := { s.sig with
        constructorTypes :=
          cs.foldl (fun t c => t.insert c.name (d.constructorType c)) s.sig.constructorTypes }
      warnings := s.warnings ++ cs.filterMap fun c =>
        (s.sig.ownersOf c.name).head?.map fun owner =>
          .constructorShadowed c.name d.name owner.name }) := by
  induction cs generalizing s with
  | nil =>
    simp only [List.filterMap_nil, List.append_nil]
    rfl
  | cons c cs ih =>
    have hfirst : (enterConstructor d c).outcome s = (.ok (), { s with
        sig := { s.sig with
          constructorTypes := s.sig.constructorTypes.insert c.name (d.constructorType c) }
        warnings := s.warnings ++ ((s.sig.ownersOf c.name).head?.map fun owner =>
          .constructorShadowed c.name d.name owner.name).toList }) := by
      rw [enterConstructor, outcome_bind, Stateful.outcome_get]
      dsimp only
      rw [outcome_bind, logging, Stateful.outcome_onPart, outcome_warnShadowed]
      rfl
    show (enterConstructor d c >>= fun _ => cs.forM (enterConstructor d)).outcome s = _
    rw [outcome_bind, hfirst]
    dsimp only
    rw [ih, List.filterMap_cons]
    cases (s.sig.ownersOf c.name).head? <;> simp <;> rfl

theorem outcome_setData (name : String) (decl : Option DataDecl) :
    (setData name decl).outcome s = (.ok (), { s with
      sig := { s.sig with
        dataTypes := match decl with
          | some d => s.sig.dataTypes.insert name d
          | none => s.sig.dataTypes.erase name } }) := by
  cases decl <;> rfl

theorem outcome_changeTypeVars (vars : List String) :
    (changeTypeVars vars).outcome s = (.ok (), { s with typeVars := vars }) := rfl

theorem outcome_enterData (d : DataDecl) :
    (enterData d).outcome s = (.ok (some (.data d)), { s with
      sig := s.sig.withData d
      warnings := s.warnings ++ d.constructors.filterMap fun c =>
        (s.sig.ownersOf c.name).head?.map fun owner =>
          .constructorShadowed c.name d.name owner.name }) := by
  rw [enterData, outcome_bind, outcome_enterConstructors]
  rfl

/-- The data type that is expected lists nothing. -/
theorem ownersOf_expecting (sig : Signature) (name : String) (params : List String) (c : String) :
    (sig.expecting name params).ownersOf c =
      { sig with dataTypes := sig.dataTypes.erase name : Signature }.ownersOf c :=
  Table.filter_values_insert rfl sig.dataTypes name

/-- The elaborator while the fields of a data type are resolved. -/
def expecting (name : String) (params : List String) : Elaborator :=
  { s with sig := s.sig.expecting name params }

/-- What was entered under the name of a data type is put back, or the name taken out again. -/
theorem outcome_restore (name : String) (params : List String) :
    (setData name (s.sig.dataTypes.get? name)).outcome (s.expecting name params) = (.ok (), s) := by
  have hback : (match s.sig.dataTypes.get? name with
      | some d => (s.expecting name params).sig.dataTypes.insert name d
      | none => (s.expecting name params).sig.dataTypes.erase name) = s.sig.dataTypes := by
    split
    next d hd => exact (Table.insert_insert _ _ _ _).trans (Table.insert_of_get? hd)
    next hd => exact (Table.erase_insert _ _ _).trans (Table.erase_of_get? hd)
  rw [outcome_setData, hback]
  rfl

/-- A data type takes the place that is kept for it. -/
theorem outcome_enterExpected (d : DataDecl) :
    (enterData d).outcome (s.expecting d.name d.params) = (.ok (some (.data d)), { s with
      sig := s.sig.withData d
      warnings := s.warnings ++ s.sig.shadowed d }) := by
  have hsig : (s.expecting d.name d.params).sig.withData d = s.sig.withData d :=
    congrArg (fun dataTypes => { s.sig.withData d with dataTypes }) (Table.insert_insert ..)
  have howners (c : ConstructorDecl) : (s.expecting d.name d.params).sig.ownersOf c.name =
      { s.sig with dataTypes := s.sig.dataTypes.erase d.name : Signature }.ownersOf c.name :=
    ownersOf_expecting s.sig d.name d.params c.name
  rw [outcome_enterData, hsig]
  simp only [howners]
  rfl

/-- Another data type of its name is replaced, together with its constructors. -/
theorem outcome_replaceExpected (old d : DataDecl) :
    (do
      logging (warn (.dataTypeRedeclared d.name))
      old.constructors.forM dropConstructor
      enterData d).outcome (s.expecting d.name d.params) = (.ok (some (.data d)), { s with
        sig := (s.sig.withoutConstructors old).withData d
        warnings := s.warnings ++ .dataTypeRedeclared d.name :: s.sig.shadowed d }) := by
  let s' : Elaborator := { s with
    sig := s.sig.withoutConstructors old
    warnings := s.warnings ++ [.dataTypeRedeclared d.name] }
  have hcleared : (do
      logging (warn (.dataTypeRedeclared d.name))
      old.constructors.forM dropConstructor).outcome (s.expecting d.name d.params) =
      (.ok ⟨⟩, s'.expecting d.name d.params) := outcome_dropConstructors _ old.constructors
  have hentered := s'.outcome_enterExpected d
  rw [show s'.warnings = _ from rfl, List.append_assoc] at hentered
  rw [← bind_assoc, outcome_bind, hcleared]
  exact hentered

theorem outcome_elaborateData (d : Surface.DataDecl) (hvars : s.typeVars = []) :
    (elaborateData d).outcome s =
      match d.resolve s.sig with
      | .error e => (.error e, s)
      | .ok decl =>
        match s.sig.dataTypes.get? decl.name with
        | none => (.ok (some (.data decl)), { s with
            sig := s.sig.withData decl
            warnings := s.warnings ++ s.sig.shadowed decl })
        | some old =>
          if old = decl then (.ok none, s)
          else (.ok (some (.data decl)), { s with
            sig := (s.sig.withoutConstructors old).withData decl
            warnings := s.warnings ++ .dataTypeRedeclared decl.name :: s.sig.shadowed decl }) := by
  have hexpecting : { s with
      sig := s.sig.expecting d.name d.params
      typeVars := [] } = s.expecting d.name d.params := by rw [expecting, hvars]
  simp only [elaborateData, outcome_bind, Stateful.outcome_get, outcome_setData,
    outcome_changeTypeVars, Stateful.outcome_attempt]
  rw [Stateful.outcome_mapM fun c => outcome_elaborateConstructor _ c, Surface.DataDecl.resolve]
  dsimp only
  have hsame : { s.sig with dataTypes := s.sig.dataTypes.insert d.name ⟨d.name, d.params, []⟩ } =
      s.sig.expecting d.name d.params := rfl
  rw [hsame, hexpecting]
  cases d.constructors.mapM
    (Surface.Constructor.resolve (s.sig.expecting d.name d.params) d.params) with
  | error e =>
    dsimp only
    rw [outcome_bind, outcome_restore]
    rfl
  | ok constructors =>
    have hbind (f : List ConstructorDecl → Except ScopeError DataDecl) :
        (Except.ok constructors >>= f) = f constructors := rfl
    rw [hbind]
    dsimp only [pure, Except.pure]
    cases hold : s.sig.dataTypes.get? d.name with
    | none => exact s.outcome_enterExpected ⟨d.name, d.params, constructors⟩
    | some old =>
      dsimp only
      split
      next =>
        have hrestore := s.outcome_restore d.name d.params
        rw [hold] at hrestore
        rw [outcome_bind, hrestore]
        rfl
      next => exact s.outcome_replaceExpected old ⟨d.name, d.params, constructors⟩

/-! ### Primitives -/

theorem outcome_logging {α : Type} (step : Diagnosed α) :
    (logging step).outcome s =
      ((step.outcome s.warnings).1, { s with warnings := (step.outcome s.warnings).2 }) := rfl

theorem outcome_warnIf (condition : Bool) (w : Warning) (ws : List Warning) :
    (warnIf condition w).outcome ws = (.ok (), if condition then ws ++ [w] else ws) := by
  cases condition <;> rfl

theorem outcome_elaboratePrimType (name : String) :
    (elaboratePrimType name).outcome s = (.ok (some (.primType name)), { s with
      sig := { s.sig with primitiveTypeNames := s.sig.primitiveTypeNames.insert name () }
      warnings :=
        if s.sig.primitiveTypeNames.contains name then s.warnings ++ [.primitiveTypeRedeclared name]
        else s.warnings }) := by
  rw [elaboratePrimType, outcome_bind, Stateful.outcome_get]
  dsimp only
  rw [changeSig, outcome_bind, Stateful.outcome_modify]
  dsimp only
  rw [outcome_bind, outcome_logging, outcome_warnIf]
  rfl

theorem outcome_elaboratePrimOp (d : Surface.PrimOpDecl) (hvars : s.typeVars = []) :
    (elaboratePrimOp d).outcome s =
      match d.type.resolve s.sig [] with
      | .error e => (.error e, s)
      | .ok type => (.ok (some (.primOp d.name type)), { s with
          sig := { s.sig with primitiveTypes := s.sig.primitiveTypes.insert d.name type }
          warnings :=
            if s.sig.primitiveTypes.contains d.name then s.warnings ++ [.primitiveRedeclared d.name]
            else s.warnings }) := by
  rw [elaboratePrimOp, outcome_bind, s.outcome_elaborateType_nil d.type hvars]
  cases d.type.resolve s.sig [] with
  | error e => rfl
  | ok type =>
    dsimp only
    rw [outcome_bind, Stateful.outcome_get]
    dsimp only
    rw [changeSig, outcome_bind, Stateful.outcome_modify]
    dsimp only
    rw [outcome_bind, outcome_logging, outcome_warnIf]
    rfl

/-! ### Definitions -/

theorem outcome_elaborateLlmType (d : Surface.Definition) (declared : Option Ty)
    (param : Option Surface.TypeExpr) (hvars : s.typeVars = []) :
    (elaborateLlmType d declared param).outcome s = (llmType s.sig d declared param, s) := by
  cases declared with
  | some t => rfl
  | none =>
    cases param with
    | none => rfl
    | some param =>
      rw [elaborateLlmType, llmType, outcome_bind, s.outcome_elaborateType_nil param hvars]
      cases param.resolve s.sig [] <;> rfl

/-- What a model function is resolved to is entered. -/
theorem outcome_elaborateLlm (d : Surface.Definition) (declared : Option Ty) (text : String)
    (hvars : s.typeVars = []) :
    (elaborateLlm d declared text).outcome s =
      match (resolveLlm s.sig d declared text).outcome s.warnings with
      | (.error e, ws) => (.error e, { s with warnings := ws })
      | (.ok (type, f), ws) =>
        (.ok (.definition (d.toCore (some type) (.prim f.primitive))), { s with
          sig := s.sig.withLlm f type
          warnings := ws }) := by
  rw [elaborateLlm, resolveLlm]
  cases lambdaType? d.body with
  | none => rfl
  | some param =>
    dsimp only
    rw [outcome_bind, outcome_bind, s.outcome_elaborateLlmType d declared param hvars,
      Stateful.outcome_liftM]
    cases llmType s.sig d declared param with
    | error e => rfl
    | ok type =>
      dsimp only
      cases type.splitAlls.2 with
      | arrow param result =>
        dsimp only
        rw [outcome_bind, outcome_bind, outcome_logging]
        obtain ⟨r, ws⟩ := ((Text.words text).foldlM (LlmSettings.read d.span d.name)
          ⟨none, none⟩).outcome s.warnings
        cases r <;> rfl
      | _ => rfl

/-- A definition is resolved among the globals that there are. -/
theorem outcome_elaborateNamed (d : Surface.Definition) (hvars : s.typeVars = [])
    (hlocals : s.locals = []) :
    (elaborateNamed d).outcome s =
      match (resolveNamed s.sig s.globals d).outcome s.warnings with
      | (.error e, ws) => (.error e, { s with warnings := ws })
      | (.ok (definition, sig), ws) => (.ok (.definition definition), { s with
          sig := sig
          warnings := ws }) := by
  have hdeclared : (d.type.mapM elaborateType).outcome s =
      (d.type.mapM (Surface.TypeExpr.resolve s.sig []), s) := by
    cases d.type with
    | none => rfl
    | some type =>
      show (some <$> elaborateType type).outcome s = (some <$> type.resolve s.sig [], s)
      rw [map_eq_pure_bind, map_eq_pure_bind, outcome_bind, s.outcome_elaborateType_nil type hvars]
      cases type.resolve s.sig [] <;> rfl
  rw [elaborateNamed, resolveNamed, outcome_bind, outcome_bind, hdeclared, Stateful.outcome_liftM]
  cases d.type.mapM (Surface.TypeExpr.resolve s.sig []) with
  | error e => rfl
  | ok declared =>
    dsimp only
    rw [outcome_bind, outcome_bind, outcome_logging]
    obtain ⟨r, ws⟩ := ((d.pragmas.names.filter (· ≠ llmPragma)).forM fun key =>
      warn (.unknownPragma key d.name)).outcome s.warnings
    cases r with
    | error e => rfl
    | ok _ =>
      dsimp only
      cases d.pragmas.get? llmPragma with
      | some text =>
        dsimp only
        rw [outcome_elaborateLlm { s with warnings := ws } d declared text hvars, outcome_bind]
        obtain ⟨r, ws⟩ := (resolveLlm s.sig d declared text).outcome ws
        cases r <;> rfl
      | none =>
        have hscope : s.toScope = ⟨s.sig, s.globals, [], []⟩ :=
          congr (congrArg (Scope.mk s.sig s.globals) hvars) hlocals
        dsimp only
        rw [outcome_bind, outcome_bind, outcome_elaborateBody, Stateful.outcome_liftM, hscope]
        cases d.body.resolve ⟨s.sig, s.globals, [], []⟩ <;> rfl

/-- The name of a definition that is rejected is withdrawn if it has just been entered, and stays if
it was there before: the globals are the same again. -/
theorem globals_withdrawn (names : List String) (name : String) :
    (if name ∈ names then names.insert name else (names.insert name).erase name) = names := by
  split
  next h => exact List.insert_of_mem h
  next h => rw [List.insert_of_not_mem h, List.erase_cons_head]

theorem outcome_elaborateDefinition (d : Surface.Definition) (hvars : s.typeVars = [])
    (hlocals : s.locals = []) :
    (elaborateDefinition d).outcome s =
      match (resolveNamed s.sig (s.globals.insert d.name) d).outcome
          (if d.name ∈ s.globals then s.warnings ++ [.redeclared d.name] else s.warnings) with
      | (.error e, ws) => (.error e, { s with warnings := ws })
      | (.ok (definition, sig), ws) => (.ok (some (.definition definition)), { s with
          sig := sig
          globals := s.globals.insert d.name
          warnings := ws }) := by
  have hnamed (ws : List Warning) := outcome_elaborateNamed
    { s with globals := s.globals.insert d.name, warnings := ws } d hvars hlocals
  simp only [elaborateDefinition, outcome_bind, Stateful.outcome_get, changeGlobals,
    Stateful.outcome_modify, outcome_logging, outcome_warnIf, decide_eq_true_eq,
    Stateful.outcome_attempt, hnamed]
  generalize (if d.name ∈ s.globals then _ else _ : List Warning) = ws
  obtain ⟨r, ws⟩ := (resolveNamed s.sig (s.globals.insert d.name) d).outcome ws
  cases r with
  | ok p => rfl
  | error e =>
    simp only [outcome_bind, Stateful.outcome_modify, Stateful.outcome_throw, globals_withdrawn]

end Elaborator

/-! ## The module after a declaration -/

theorem resolveNamed_congr {names names' : List String}
    (h : ∀ name, name ∈ names ↔ name ∈ names') (sig : Signature) (d : Surface.Definition) :
    resolveNamed sig names d = resolveNamed sig names' d := by
  simp only [resolveNamed, d.body.resolve_globals h ⟨sig, names, [], []⟩]

/-- A definition that is accepted is that of the source, apart from its type and body. -/
theorem exists_toCore_of_resolveNamed {sig sig' : Signature} {names : List String}
    {d : Surface.Definition} {definition : Definition} {ws ws' : List Warning}
    (h : (resolveNamed sig names d).outcome ws = (.ok (definition, sig'), ws')) :
    ∃ type body, definition = d.toCore type body := by
  rw [resolveNamed] at h
  obtain ⟨declared, ws₁, -, h⟩ := Stateful.bind_eq_ok_iff.1 h
  obtain ⟨_, ws₂, -, h⟩ := Stateful.bind_eq_ok_iff.1 h
  split at h
  next =>
    obtain ⟨_, ws₃, -, h⟩ := Stateful.bind_eq_ok_iff.1 h
    obtain ⟨heq, -⟩ := Stateful.pure_eq_ok_iff.1 h
    cases heq
    exact ⟨_, _, rfl⟩
  next =>
    obtain ⟨_, ws₃, -, h⟩ := Stateful.bind_eq_ok_iff.1 h
    obtain ⟨heq, -⟩ := Stateful.pure_eq_ok_iff.1 h
    cases heq
    exact ⟨_, _, rfl⟩

namespace Elaborator

variable (m : Module)

theorem mem_foldl_insert (ds : List Definition) (names : List String) (name : String) :
    name ∈ ds.foldl (fun names d => names.insert d.name) names ↔
      name ∈ names ∨ name ∈ ds.map (·.name) := by
  induction ds generalizing names with
  | nil => simp
  | cons d ds ih =>
    rw [List.foldl_cons, ih, List.mem_insert_iff, List.map_cons, List.mem_cons, or_assoc,
      or_left_comm]

theorem mem_globals_resume (name : String) : name ∈ (resume m).globals ↔ name ∈ m.globals :=
  (mem_foldl_insert m.definitions [] name).trans (or_iff_right (List.not_mem_nil))

theorem resume_accept (d : Declaration) (sig : Signature) (warnings : List Warning) :
    resume (m.accept d sig warnings) = { resume m with
      sig := sig
      globals :=
        d.definition?.toList.foldl (fun names d => names.insert d.name) (resume m).globals
      declarations := m.declarations ++ [d]
      warnings := warnings } := by
  have hdefinitions : (m.accept d sig warnings).definitions =
      m.definitions ++ d.definition?.toList := by
    rw [Module.definitions, Module.accept, List.filterMap_append]
    cases h : d.definition? <;> simp [Module.definitions, h]
  rw [resume, hdefinitions, List.foldl_append]
  rfl

theorem declare_resume_eq (d : Surface.Declaration) :
    (resume m).declare d = match (elaborate d).outcome (resume m) with
      | (.ok (some c), s) => { s with declarations := s.declarations ++ [c] }
      | (.ok none, s) => s
      | (.error e, s) => { s with errors := s.errors ++ [e] } := rfl

theorem declare_resume_data (d : Surface.DataDecl) : (resume m).declare (.data d) =
    resume (match d.resolve m.toSignature with
      | .ok decl => m.addData decl
      | .error e => m.reject e) := by
  rw [declare_resume_eq, elaborate, outcome_elaborateData _ d rfl,
    show (resume m).sig = m.toSignature from rfl]
  cases d.resolve m.toSignature with
  | error e => rfl
  | ok decl =>
    dsimp only
    rw [Module.addData]
    cases m.dataTypes.get? decl.name with
    | none =>
      dsimp only
      rw [resume_accept]
      rfl
    | some old =>
      dsimp only
      by_cases heq : old = decl
      · rw [if_pos heq, if_pos heq]
      · rw [if_neg heq, if_neg heq, resume_accept]
        rfl

theorem declare_resume_primType (d : Surface.PrimTypeDecl) :
    (resume m).declare (.primType d) = resume (m.addPrimType d.name) := by
  rw [declare_resume_eq, elaborate, outcome_elaboratePrimType, Module.addPrimType, resume_accept]
  rfl

theorem declare_resume_primOp (d : Surface.PrimOpDecl) : (resume m).declare (.primOp d) =
    resume (match d.type.resolve m.toSignature [] with
      | .ok type => m.addPrimOp d.name type
      | .error e => m.reject e) := by
  rw [declare_resume_eq, elaborate, outcome_elaboratePrimOp _ d rfl,
    show (resume m).sig = m.toSignature from rfl]
  cases d.type.resolve m.toSignature [] with
  | error e => rfl
  | ok type =>
    dsimp only
    rw [Module.addPrimOp, resume_accept]
    rfl

/-- A definition is resolved in the scope of itself and of the definitions that are accepted before
it. -/
theorem declare_resume_definition (d : Surface.Definition) : (resume m).declare (.definition d) =
    resume (match (m.resolveDefinition d).outcome m.warnings with
      | (.ok (definition, sig), ws) => m.accept (.definition definition) sig ws
      | (.error e, ws) => { m with warnings := ws }.reject e) := by
  have hnames (name : String) :
      name ∈ (resume m).globals.insert d.name ↔ name ∈ d.name :: m.globals := by
    rw [List.mem_insert_iff, List.mem_cons, mem_globals_resume]
  have hresolve : (m.resolveDefinition d).outcome m.warnings =
      (resolveNamed m.toSignature ((resume m).globals.insert d.name) d).outcome
        (if d.name ∈ (resume m).globals then m.warnings ++ [.redeclared d.name]
          else m.warnings) := by
    rw [Module.resolveDefinition, Stateful.outcome_bind, outcome_warnIf, resolveNamed_congr hnames]
    simp only [decide_eq_true_eq, mem_globals_resume]
  rw [declare_resume_eq, elaborate, outcome_elaborateDefinition _ d rfl rfl, hresolve,
    show (resume m).sig = m.toSignature from rfl, show (resume m).warnings = m.warnings from rfl]
  generalize (if d.name ∈ (resume m).globals then _ else _ : List Warning) = ws
  cases h : (resolveNamed m.toSignature ((resume m).globals.insert d.name) d).outcome ws with
  | mk r ws' =>
    cases r with
    | error e => rfl
    | ok p =>
      obtain ⟨definition, sig⟩ := p
      obtain ⟨type, body, rfl⟩ := exists_toCore_of_resolveNamed h
      dsimp only
      rw [resume_accept]
      rfl

/-- Nothing but the module goes from one declaration to the next. -/
theorem declare_resume (d : Surface.Declaration) :
    (resume m).declare d = resume (m.declare d) := by
  have hexists : ∃ m', (resume m).declare d = resume m' := by
    cases d with
    | data d => exact ⟨_, declare_resume_data m d⟩
    | primType d => exact ⟨_, declare_resume_primType m d⟩
    | primOp d => exact ⟨_, declare_resume_primOp m d⟩
    | definition d => exact ⟨_, declare_resume_definition m d⟩
  obtain ⟨m', h⟩ := hexists
  rw [Module.declare, h]
  rfl

end Elaborator

namespace Module

open Elaborator

variable (m : Module)

theorem declare_data (d : Surface.DataDecl) : m.declare (.data d) =
    match d.resolve m.toSignature with
      | .ok decl => m.addData decl
      | .error e => m.reject e :=
  congrArg Elaborator.module (declare_resume_data m d)

theorem declare_primType (d : Surface.PrimTypeDecl) :
    m.declare (.primType d) = m.addPrimType d.name :=
  congrArg Elaborator.module (declare_resume_primType m d)

theorem declare_primOp (d : Surface.PrimOpDecl) : m.declare (.primOp d) =
    match d.type.resolve m.toSignature [] with
      | .ok type => m.addPrimOp d.name type
      | .error e => m.reject e :=
  congrArg Elaborator.module (declare_resume_primOp m d)

theorem declare_definition (d : Surface.Definition) : m.declare (.definition d) =
    match (m.resolveDefinition d).outcome m.warnings with
      | (.ok (definition, sig), ws) => m.accept (.definition definition) sig ws
      | (.error e, ws) => { m with warnings := ws }.reject e :=
  congrArg Elaborator.module (declare_resume_definition m d)

theorem foldl_declare_resume (ds : List Surface.Declaration) :
    ds.foldl Elaborator.declare (resume m) = resume (ds.foldl declare m) := by
  induction ds generalizing m with
  | nil => rfl
  | cons d ds ih => rw [List.foldl_cons, List.foldl_cons, declare_resume, ih]

/-- A program is what its declarations make of the module without any. -/
theorem ofSurface_eq_foldl (ds : List Surface.Declaration) :
    ofSurface ds = ds.foldl declare Prelude.emptyModule :=
  congrArg Elaborator.module (foldl_declare_resume Prelude.emptyModule ds)

theorem ofSurface_append (ds ds' : List Surface.Declaration) :
    ofSurface (ds ++ ds') = ds'.foldl declare (ofSurface ds) := by
  rw [ofSurface_eq_foldl, ofSurface_eq_foldl, List.foldl_append]

end Module

end PolyLambda
