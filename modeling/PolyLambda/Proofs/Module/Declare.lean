import PolyLambda.Proofs.Module.Atomic
import PolyLambda.Proofs.Module.Closed

/-!
# What a declaration does to a module

A declaration leaves a module as it is, except for errors and warnings, or it is one of four things
that are accepted: a data type, a primitive type, a primitive operation or a definition
(`Declares`). What holds of the module without declarations and is kept by each of these holds of
all modules (`ofSurface_induct`).
-/

namespace PolyLambda

/-! ## Steps that may warn -/

namespace Diagnosed

variable {α β : Type} {ws ws' : List Warning}

/-- Whether a step comes to the same whatever warnings were given before, and does nothing but add
to them. -/
def Logs (step : Diagnosed α) : Prop :=
  ∃ r more, ∀ ws, step.outcome ws = (r, ws ++ more)

theorem Logs.exists_append {step : Diagnosed α} {r : Except ScopeError α} (h : Logs step)
    (hrun : step.outcome ws = (r, ws')) : ∃ more, ws' = ws ++ more := by
  obtain ⟨r', more, h⟩ := h
  rw [h] at hrun
  exact ⟨more, (congrArg Prod.snd hrun).symm⟩

theorem logs_pure (a : α) : Logs (pure a) :=
  ⟨.ok a, [], fun ws => congrArg (Prod.mk _) (List.append_nil ws).symm⟩

theorem logs_throw (e : ScopeError) : Logs (throw e : Diagnosed α) :=
  ⟨.error e, [], fun ws => congrArg (Prod.mk _) (List.append_nil ws).symm⟩

theorem logs_liftM (r : Except ScopeError α) : Logs (liftM r : Diagnosed α) := by
  cases r with
  | error e => exact logs_throw e
  | ok a => exact logs_pure a

theorem logs_warn (w : Warning) : Logs (warn w) :=
  ⟨.ok (), [w], fun _ => rfl⟩

theorem Logs.bind {step : Diagnosed α} {f : α → Diagnosed β} (h : Logs step)
    (hf : ∀ a, Logs (f a)) : Logs (step >>= f) := by
  obtain ⟨r, more, h⟩ := h
  cases r with
  | error e => exact ⟨.error e, more, fun ws => by rw [Stateful.outcome_bind, h]⟩
  | ok a =>
    obtain ⟨r, more', hf⟩ := hf a
    refine ⟨r, more ++ more', fun ws => ?_⟩
    rw [Stateful.outcome_bind, h, ← List.append_assoc]
    exact hf _

theorem logs_forM {as : List α} {f : α → Diagnosed PUnit} (h : ∀ a, Logs (f a)) :
    Logs (as.forM f) := by
  induction as with
  | nil => exact logs_pure _
  | cons a as ih => exact (h a).bind fun _ => ih

theorem logs_foldlM {as : List α} {f : β → α → Diagnosed β} (h : ∀ b a, Logs (f b a)) (b : β) :
    Logs (as.foldlM f b) := by
  induction as generalizing b with
  | nil => exact logs_pure b
  | cons a as ih =>
    rw [List.foldlM_cons]
    exact (h b a).bind ih

end Diagnosed

/-! ## Definitions -/

theorem mapM_eq_ok {ε α β : Type} {f : α → Except ε β} {o : Option α} {r : Option β}
    (h : o.mapM f = .ok r) : ∀ b ∈ r, ∃ a ∈ o, f a = .ok b := by
  cases o with
  | none =>
    cases h
    rintro _ ⟨⟩
  | some a =>
    change (some <$> f a) = .ok r at h
    cases hf : f a with
    | error e =>
      rw [hf] at h
      cases h
    | ok b =>
      rw [hf] at h
      cases h
      rintro _ ⟨⟩
      exact ⟨a, rfl, hf⟩

namespace Module

open Diagnosed

theorem logs_read (span : Span) (name : String) (settings : LlmSettings) (word : String) :
    Logs (settings.read span name word) := by
  rw [LlmSettings.read.eq_def]
  split
  next => exact logs_pure _
  next =>
    split
    next => exact logs_pure _
    next => exact logs_throw _
  next => exact (logs_warn _).bind fun _ => logs_pure _

theorem logs_resolveLlm (sig : Signature) (d : Surface.Definition) (declared : Option Ty)
    (text : String) : Logs (resolveLlm sig d declared text) := by
  rw [resolveLlm]
  split
  next => exact logs_throw _
  next =>
    refine (logs_liftM _).bind fun type => ?_
    split
    next => exact (logs_foldlM (logs_read d.span d.name) _).bind fun _ => logs_pure _
    next => exact logs_throw _

theorem resolves_llmType {sig : Signature} {d : Surface.Definition} {declared : Option Ty}
    {param : Option Surface.TypeExpr} {t : Ty} (hdeclared : ∀ t ∈ declared, sig.Resolves [] t)
    (h : llmType sig d declared param = .ok t) : sig.Resolves [] t := by
  rw [llmType.eq_def] at h
  split at h
  next t' =>
    cases h
    exact hdeclared _ rfl
  next param =>
    obtain ⟨p, hp, h⟩ := PolyLambda.bind_eq_ok_iff.1 h
    cases h
    refine ⟨.arrow param.span param param, ?_⟩
    rw [Surface.TypeExpr.resolve_arrow, hp]
    rfl
  next => cases h

/-- The type of a model function is one that is written, and the function has the name of its
definition. -/
theorem resolveLlm_eq_ok {sig : Signature} {d : Surface.Definition} {declared : Option Ty}
    {text : String} {type : Ty} {f : LlmFunction} {ws ws' : List Warning}
    (hdeclared : ∀ t ∈ declared, sig.Resolves [] t)
    (h : (resolveLlm sig d declared text).outcome ws = (.ok (type, f), ws')) :
    sig.Resolves [] type ∧ f.name = d.name := by
  rw [resolveLlm] at h
  split at h
  next => cases congrArg Prod.fst h
  next =>
    obtain ⟨t, ws₁, htype, hrest⟩ := Stateful.bind_eq_ok_iff.1 h
    obtain ⟨ht, -⟩ := Stateful.liftM_eq_ok_iff.1 htype
    split at hrest
    next =>
      obtain ⟨settings, ws₂, -, hpure⟩ := Stateful.bind_eq_ok_iff.1 hrest
      obtain ⟨heq, -⟩ := Stateful.pure_eq_ok_iff.1 hpure
      cases heq
      exact ⟨resolves_llmType hdeclared ht, rfl⟩
    next => cases congrArg Prod.fst hrest

theorem logs_warnIf (condition : Bool) (w : Warning) : Logs (warnIf condition w) := by
  rw [warnIf]
  split
  next => exact logs_warn w
  next => exact logs_pure ()

theorem logs_resolveNamed (sig : Signature) (names : List String) (d : Surface.Definition) :
    Logs (resolveNamed sig names d) := by
  rw [resolveNamed]
  refine (logs_liftM _).bind fun declared => ?_
  refine (logs_forM fun key => logs_warn (.unknownPragma key d.name)).bind fun _ => ?_
  split
  next => exact (logs_resolveLlm _ _ _ _).bind fun _ => logs_pure _
  next => exact (logs_liftM _).bind fun _ => logs_pure _

theorem logs_resolveDefinition (m : Module) (d : Surface.Definition) :
    Logs (m.resolveDefinition d) :=
  (logs_warnIf _ _).bind fun _ => logs_resolveNamed _ _ d

/-- A definition that is accepted: its type is one that is written, and its body is resolved in the
scope of the names before it and its own, unless a model is to compute it. -/
theorem resolveDefinition_eq_ok {m : Module} {d : Surface.Definition} {definition : Definition}
    {sig : Signature} {ws ws' : List Warning}
    (h : (m.resolveDefinition d).outcome ws = (.ok (definition, sig), ws')) :
    (∃ more, ws' = ws ++ more ∧ (more = [] → definition.name ∉ m.globals)) ∧
      (∀ t ∈ definition.type, m.Resolves [] t) ∧
      ((∃ e : Surface.Expr, definition.pragmas.get? llmPragma = none ∧
          e.resolve ⟨m.toSignature, definition.name :: m.globals, [], []⟩ = .ok definition.body ∧
          sig = m.withGlobal definition.name definition.type) ∨
        ∃ f type, (definition.pragmas.get? llmPragma).isSome = true ∧ f.name = definition.name ∧
          definition.type = some type ∧ definition.body = .prim f.primitive ∧
          sig = m.withLlm f type) := by
  -- A name that is there already is warned about, and then resolved like a new one.
  have hstart : ∃ more, (more = [] → d.name ∉ m.globals) ∧
      (resolveNamed m.toSignature (d.name :: m.globals) d).outcome (ws ++ more) =
        (.ok (definition, sig), ws') := by
    rw [resolveDefinition, Stateful.outcome_bind, Elaborator.outcome_warnIf] at h
    simp only [decide_eq_true_eq] at h
    split at h
    next => exact ⟨[.redeclared d.name], fun hnil => absurd hnil (List.cons_ne_nil _ _), h⟩
    next hnew =>
      refine ⟨[], fun _ => hnew, ?_⟩
      rwa [List.append_nil]
  obtain ⟨more, hnew, h⟩ := hstart
  obtain ⟨more', rfl⟩ := (logs_resolveNamed _ _ d).exists_append h
  have hwarnings : ∃ all, ws ++ more ++ more' = ws ++ all ∧ (all = [] → d.name ∉ m.globals) := by
    refine ⟨more ++ more', List.append_assoc _ _ _, fun hnil => ?_⟩
    exact hnew (List.append_eq_nil_iff.1 hnil).1
  rw [resolveNamed] at h
  obtain ⟨declared, ws₁, hlift, h⟩ := Stateful.bind_eq_ok_iff.1 h
  obtain ⟨hdeclared, -⟩ := Stateful.liftM_eq_ok_iff.1 hlift
  obtain ⟨_, ws₂, -, h⟩ := Stateful.bind_eq_ok_iff.1 h
  have hresolves : ∀ t ∈ declared, m.Resolves [] t := by
    intro t ht
    obtain ⟨e, -, he⟩ := mapM_eq_ok hdeclared t ht
    exact ⟨e, he⟩
  split at h
  next text hpragma =>
    obtain ⟨⟨type, f⟩, ws₃, hllm, h⟩ := Stateful.bind_eq_ok_iff.1 h
    obtain ⟨heq, -⟩ := Stateful.pure_eq_ok_iff.1 h
    obtain ⟨htype, hname⟩ := resolveLlm_eq_ok hresolves hllm
    cases heq
    refine ⟨hwarnings, ?_,
      .inr ⟨f, type, Option.isSome_of_eq_some hpragma, hname, rfl, rfl, rfl⟩⟩
    rintro _ ⟨⟩
    exact htype
  next hpragma =>
    obtain ⟨body, ws₃, hlift, h⟩ := Stateful.bind_eq_ok_iff.1 h
    obtain ⟨hbody, -⟩ := Stateful.liftM_eq_ok_iff.1 hlift
    obtain ⟨heq, -⟩ := Stateful.pure_eq_ok_iff.1 h
    cases heq
    exact ⟨hwarnings, hresolves, .inl ⟨d.body, hpragma, hbody, rfl⟩⟩

end Module

/-! ## Data types -/

/-- What the elements of a list are made into, when none of them fails. -/
theorem mapM_list_eq_ok {ε α β : Type} {f : α → Except ε β} {as : List α} {bs : List β}
    (h : as.mapM f = .ok bs) : ∀ b ∈ bs, ∃ a ∈ as, f a = .ok b := by
  induction as generalizing bs with
  | nil =>
    rw [List.mapM_nil] at h
    cases h
    rintro _ ⟨⟩
  | cons a as ih =>
    rw [List.mapM_cons] at h
    obtain ⟨b, hb, h⟩ := PolyLambda.bind_eq_ok_iff.1 h
    obtain ⟨bs, hbs, h⟩ := PolyLambda.bind_eq_ok_iff.1 h
    cases h
    rintro c (_ | ⟨_, hc⟩)
    · exact ⟨a, List.mem_cons_self, hb⟩
    · obtain ⟨a', ha', hc⟩ := ih hbs c hc
      exact ⟨a', List.mem_cons_of_mem _ ha', hc⟩

/-- The tables in which the constructors of `d` are resolved. -/
def Signature.announcing (sig : Signature) (d : DataDecl) : Signature :=
  sig.expecting d.name d.params

/-- Whether the fields of a data type are written with its parameters and itself. -/
def Signature.ResolvesFields (sig : Signature) (d : DataDecl) : Prop :=
  ∀ c ∈ d.constructors, ∀ t ∈ c.fields, (sig.announcing d).Resolves d.params t

theorem resolvesFields {sig : Signature} {sd : Surface.DataDecl} {d : DataDecl}
    (h : sd.resolve sig = .ok d) : sig.ResolvesFields d := by
  rw [Surface.DataDecl.resolve] at h
  obtain ⟨constructors, hconstructors, h⟩ := bind_eq_ok_iff.1 h
  cases h
  intro c hc
  obtain ⟨sc, -, hsc⟩ := mapM_list_eq_ok hconstructors c hc
  rw [Surface.Constructor.resolve] at hsc
  obtain ⟨fields, hfields, hsc⟩ := bind_eq_ok_iff.1 hsc
  cases hsc
  exact Signature.resolves_of_resolveAll hfields

/-- The type variables in the fields of a constructor are parameters of its data type. -/
theorem Signature.ResolvesFields.freeVars {sig : Signature} {d : DataDecl}
    (h : sig.ResolvesFields d) :
    ∀ c ∈ d.constructors, ∀ v ∈ Ty.freeVarsAll c.fields, v ∈ d.params := by
  intro c hc v hv
  obtain ⟨t, ht, hv⟩ := Ty.mem_freeVarsAll.1 hv
  exact (h c hc t ht).freeVars v hv

/-! ## Declarations -/

/-- What a module may become by one more declaration. -/
inductive Declares (m : Module) : Module → Prop where
  | unchanged (errors : List ScopeError) (warnings : List Warning)
    (h : errors = [] → warnings = m.warnings) (hwarnings : m.warnings <+: warnings) :
    Declares m { m with errors := m.errors ++ errors, warnings := warnings }
  | data (d : DataDecl) (hnew : m.dataTypes.get? d.name = none)
    (hfields : m.ResolvesFields d) :
    Declares m (m.accept (.data d) (m.withData d) (m.warnings ++ m.shadowed d))
  | redeclared (d old : DataDecl) (hold : m.dataTypes.get? d.name = some old)
    (hfields : m.ResolvesFields d) :
    Declares m (m.accept (.data d) ((m.withoutConstructors old).withData d)
      (m.warnings ++ .dataTypeRedeclared d.name :: m.shadowed d))
  | primType (name : String) : Declares m (m.addPrimType name)
  | primOp (name : String) (type : Ty) (htype : m.Resolves [] type) :
    Declares m (m.addPrimOp name type)
  | definition (d : Definition) (e : Surface.Expr) (more : List Warning)
    (hnew : more = [] → d.name ∉ m.globals) (htype : ∀ t ∈ d.type, m.Resolves [] t)
    (hbody : e.resolve ⟨m.toSignature, d.name :: m.globals, [], []⟩ = .ok d.body)
    (hpragma : d.pragmas.get? llmPragma = none) :
    Declares m (m.accept (.definition d) (m.withGlobal d.name d.type) (m.warnings ++ more))
  | llm (d : Definition) (f : LlmFunction) (type : Ty) (more : List Warning)
    (hnew : more = [] → d.name ∉ m.globals) (hname : f.name = d.name)
    (hdeclared : d.type = some type) (htype : m.Resolves [] type)
    (hbody : d.body = .prim f.primitive) (hpragma : (d.pragmas.get? llmPragma).isSome = true) :
    Declares m (m.accept (.definition d) (m.withLlm f type) (m.warnings ++ more))

namespace Module

theorem definitions_accept (m : Module) (d : Declaration) (sig : Signature)
    (warnings : List Warning) :
    (m.accept d sig warnings).definitions = m.definitions ++ d.definition?.toList := by
  rw [definitions, accept, List.filterMap_append]
  cases h : d.definition? <;> simp [definitions, h]

theorem mem_definitions_iff {m : Module} {d : Definition} :
    d ∈ m.definitions ↔ .definition d ∈ m.declarations := by
  rw [definitions, List.mem_filterMap]
  refine ⟨?_, fun hd => ⟨_, hd, rfl⟩⟩
  rintro ⟨c, hc, heq⟩
  cases c with
  | definition => cases heq; exact hc
  | _ => cases heq

theorem Declares.refl (m : Module) : Declares m m := by
  have h := Declares.unchanged (m := m) [] m.warnings (fun _ => rfl) List.prefix_rfl
  rwa [List.append_nil] at h

theorem declares (m : Module) (d : Surface.Declaration) : Declares m (m.declare d) := by
  have hreject (e : ScopeError) (more : List Warning) :
      Declares m ({ m with warnings := m.warnings ++ more }.reject e) :=
    .unchanged [e] (m.warnings ++ more) (fun h => absurd h (List.cons_ne_nil _ _))
    (List.prefix_append _ _)
  have hkeep (e : ScopeError) : Declares m (m.reject e) := by
    have h := hreject e []
    rwa [List.append_nil] at h
  cases d with
  | data d =>
    rw [declare_data]
    split
    next decl hdecl =>
      have hfields := resolvesFields hdecl
      rw [addData]
      split
      next hnew => exact .data decl hnew hfields
      next old hold =>
        split
        next => exact Declares.refl m
        next => exact .redeclared decl old hold hfields
    next e _ => exact hkeep e
  | primType d =>
    rw [declare_primType]
    exact .primType d.name
  | primOp d =>
    rw [declare_primOp]
    split
    next type htype => exact .primOp d.name type ⟨d.type, htype⟩
    next e _ => exact hkeep e
  | definition d =>
    rw [declare_definition]
    split
    next definition sig ws h =>
      obtain ⟨⟨more, rfl, hnew⟩, htype, ⟨e, hpragma, hbody, rfl⟩ |
        ⟨f, type, hpragma, hname, hdeclared, hbody, rfl⟩⟩ := resolveDefinition_eq_ok h
      · exact .definition definition e more hnew htype hbody hpragma
      · exact .llm definition f type more hnew hname hdeclared (htype type hdeclared) hbody hpragma
    next e ws h =>
      obtain ⟨more, rfl⟩ := (logs_resolveDefinition m d).exists_append h
      exact hreject e more

/-- What every declaration keeps holds of every module. -/
theorem ofSurface_induct {P : Module → Prop} (hempty : P Prelude.emptyModule)
    (hdeclare : ∀ m m', Declares m m' → P m → P m') (ds : List Surface.Declaration) :
    P (ofSurface ds) := by
  have hfold (m : Module) (h : P m) : P (ds.foldl declare m) := by
    induction ds generalizing m with
    | nil => exact h
    | cons d ds ih => exact ih _ (hdeclare m _ (m.declares d) h)
  rw [ofSurface_eq_foldl]
  exact hfold _ hempty

end Module

end PolyLambda
