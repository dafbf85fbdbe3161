import Mathlib.Data.List.Nodup
import Mathlib.Data.List.Pairwise
import PolyLambda.Module.OfSource
import PolyLambda.Proofs.Module.Coherent
import PolyLambda.Proofs.Module.Mentions
import PolyLambda.Proofs.Token.Lexeme

/-!
# Names that are declared once

Where no warning was given, the tables of a program are those of its declarations one after the
other, and what different declarations enter has different names, but for two things that no warning
is given of. A data type may list a constructor twice, since it is looked for in the other data
types alone; and a model function takes the name of its primitive whether or not a primitive
operation of that name was declared. Everything is declared once exactly if neither happens
(`declared_once_iff`), and both do happen (`declared_twice_without_warning`).

The tables are compared with lists of entries, in the order of the declarations. A list whose names
are different is all that its table holds (`Table.holdsOnce_ofList_iff`).
-/

namespace PolyLambda

/-! ## Tables of entries -/

namespace Table

variable {α : Type} {entries : List (String × α)}

/-- Whether a table holds these entries and no others, and each of them has a name of its own. -/
structure HoldsOnce (t : Table α) (entries : List (String × α)) : Prop where
  nodup : (entries.map Prod.fst).Nodup
  get?_iff : ∀ name a, t.get? name = some a ↔ (name, a) ∈ entries

theorem holdsOnce_ofList_iff : (ofList entries).HoldsOnce entries ↔ (entries.map Prod.fst).Nodup :=
  ⟨HoldsOnce.nodup, fun h => ⟨h, fun _ _ => ⟨mem_of_get?_ofList, get?_ofList_of_mem h⟩⟩⟩

theorem ofList_append (entries more : List (String × α)) :
    ofList (entries ++ more) = more.foldl (fun t e => t.insert e.1 e.2) (ofList entries) :=
  List.foldl_append

theorem contains_ofList_iff {name : String} :
    (ofList entries).contains name = true ↔ name ∈ entries.map Prod.fst := by
  refine contains_foldl_insert.trans ?_
  rw [List.mem_map]
  exact or_iff_left nofun

theorem nodup_append_singleton {name : String} {a : α} (h : (entries.map Prod.fst).Nodup)
    (hnew : (ofList entries).contains name ≠ true) :
    ((entries ++ [(name, a)]).map Prod.fst).Nodup := by
  rw [List.map_append]
  refine List.nodup_append'.2 ⟨h, List.nodup_singleton name, ?_⟩
  exact List.disjoint_singleton.2 fun hmem => hnew (contains_ofList_iff.2 hmem)

end Table

/-! ## What declarations enter -/

/-- The constructors of a data type with their types. -/
def DataDecl.entries (d : DataDecl) : List (String × Ty) :=
  d.constructors.map fun c => (c.name, d.constructorType c)

/-- The names of the constructors that a source declaration lists. -/
def Surface.Declaration.constructorNames : Surface.Declaration → List String
  | .data d => d.constructors.map Surface.Constructor.name
  | _ => []

/-- The data type that a declaration is. -/
def Declaration.data? : Declaration → Option DataDecl
  | .data d => some d
  | _ => none

/-- The primitive that a declaration gives a type to: an operation, or the one that computes a model
function. -/
def Declaration.primitive? : Declaration → Option (String × Ty)
  | .primOp name type => some (name, type)
  | .definition d =>
    if (d.pragmas.get? llmPragma).isSome then d.type.map fun t => (llmPrimitive d.name, t) else none
  | _ => none

namespace Module

/-- The data types of a program, those that every program starts with included. -/
def dataDecls (m : Module) : List DataDecl :=
  Prelude.boolDecl :: m.declarations.filterMap Declaration.data?

def dataEntries (m : Module) : List (String × DataDecl) :=
  m.dataDecls.map fun d => (d.name, d)

def constructorEntries (m : Module) : List (String × Ty) :=
  m.dataDecls.flatMap DataDecl.entries

/-- The primitives of a program, those of the language included. -/
def primitiveEntries (m : Module) : List (String × Ty) :=
  Prelude.primitives ++ m.declarations.filterMap Declaration.primitive?

/-- The definitions of a program that have a type before they are checked. -/
def globalEntries (m : Module) : List (String × Ty) :=
  m.definitions.filterMap fun d => d.type.map fun t => (d.name, t)

section

variable (m : Module) (d : Declaration) (sig : Signature) (warnings : List Warning)

theorem dataDecls_accept :
    (m.accept d sig warnings).dataDecls = m.dataDecls ++ d.data?.toList := by
  rw [dataDecls, accept, List.filterMap_append]
  cases h : d.data? <;> simp [dataDecls, h]

theorem primitiveEntries_accept :
    (m.accept d sig warnings).primitiveEntries = m.primitiveEntries ++ d.primitive?.toList := by
  rw [primitiveEntries, accept, List.filterMap_append]
  cases h : d.primitive? <;> simp [primitiveEntries, h]

end

theorem globalEntries_define (m : Module) (d : Definition) (sig : Signature)
    (warnings : List Warning) :
    (m.accept (.definition d) sig warnings).globalEntries =
      m.globalEntries ++ (d.type.map fun t => (d.name, t)).toList := by
  rw [globalEntries, definitions_accept, List.filterMap_append]
  cases h : d.type <;> simp [globalEntries, Declaration.definition?, h]

theorem globalEntries_eq {m m' : Module} (h : m'.definitions = m.definitions) :
    m'.globalEntries = m.globalEntries := by
  rw [globalEntries, h, globalEntries]

/-- Both tables are those of the declarations one after the other, whatever is declared. -/
theorem tables_ofSurface (ds : List Surface.Declaration) :
    (ofSurface ds).globalTypes = .ofList (ofSurface ds).globalEntries ∧
      (ofSurface ds).primitiveTypes = .ofList (ofSurface ds).primitiveEntries := by
  refine ofSurface_induct (P := fun m => m.globalTypes = .ofList m.globalEntries ∧
    m.primitiveTypes = .ofList m.primitiveEntries) ⟨rfl, rfl⟩ ?_ ds
  rintro m m' hm ⟨hglobals, hprimitives⟩
  have hother {d : Declaration} {sig : Signature} {warnings : List Warning}
      (hd : d.definition? = none) (hsig : sig.globalTypes = m.globalTypes)
      (hsig' : sig.primitiveTypes = d.primitive?.toList.foldl (fun t e => t.insert e.1 e.2)
        m.primitiveTypes) :
      (m.accept d sig warnings).globalTypes = .ofList (m.accept d sig warnings).globalEntries ∧
        (m.accept d sig warnings).primitiveTypes =
          .ofList (m.accept d sig warnings).primitiveEntries := by
    have hdefinitions : (m.accept d sig warnings).definitions = m.definitions := by
      rw [definitions_accept, hd, Option.toList_none, List.append_nil]
    constructor
    · rw [globalEntries_eq hdefinitions, ← hglobals]
      exact hsig
    · rw [primitiveEntries_accept, Table.ofList_append, ← hprimitives]
      exact hsig'
  cases hm with
  | unchanged => exact ⟨hglobals, hprimitives⟩
  | data | redeclared | primType | primOp => exact hother rfl rfl rfl
  | definition d e more _ _ _ hpragma =>
    rw [globalEntries_define, primitiveEntries_accept, Table.ofList_append, Table.ofList_append,
      ← hglobals, ← hprimitives, Declaration.primitive?, hpragma]
    show (m.withGlobal d.name d.type).globalTypes = _ ∧
      (m.withGlobal d.name d.type).primitiveTypes = _
    cases d.type <;> exact ⟨rfl, rfl⟩
  | llm d f type more _ hname hdeclared _ _ hpragma =>
    rw [globalEntries_define, primitiveEntries_accept, Table.ofList_append, Table.ofList_append,
      ← hglobals, ← hprimitives, Declaration.primitive?, if_pos hpragma, hdeclared, ← hname]
    exact ⟨rfl, rfl⟩

/-! ## Programs without warnings -/

/-- Whether no primitive operation has the name of the primitive of a model function. -/
def PrimitivesApart (m : Module) : Prop :=
  ∀ name type d, .primOp name type ∈ m.declarations → .definition d ∈ m.declarations →
    (d.pragmas.get? llmPragma).isSome = true → name ≠ llmPrimitive d.name

/-- What holds as long as no warning is given: no data type, no definition and, where primitive
operations and model functions have different primitives, no primitive is declared twice, different
data types have different constructors, and the tables are those of the declarations. -/
structure Unrepeated (m : Module) : Prop where
  globals : m.globals.Nodup
  dataNames : (m.dataEntries.map Prod.fst).Nodup
  dataTypes : m.dataTypes = .ofList m.dataEntries
  constructorTypes : m.constructorTypes = .ofList m.constructorEntries
  apart : m.dataDecls.Pairwise fun d e => ∀ c ∈ e.constructors, d.lists c.name = false
  primitives : m.PrimitivesApart → (m.primitiveEntries.map Prod.fst).Nodup

section

variable {m : Module} {d : Declaration} {sig : Signature} {warnings : List Warning}

theorem PrimitivesApart.of_accept (h : (m.accept d sig warnings).PrimitivesApart) :
    m.PrimitivesApart := fun name type f hop hf =>
  h name type f (List.mem_append_left _ hop) (List.mem_append_left _ hf)

/-- A declaration of another kind than data keeps everything apart if what it defines is new. -/
theorem Unrepeated.accept (h : m.Unrepeated) (hdata : d.data? = none)
    (hsig : sig.dataTypes = m.dataTypes ∧ sig.constructorTypes = m.constructorTypes)
    (hglobal : ∀ f ∈ d.definition?, f.name ∉ m.globals)
    (hprimitive : (m.accept d sig warnings).PrimitivesApart →
      ∀ p ∈ d.primitive?, p.1 ∉ m.primitiveEntries.map Prod.fst) :
    (m.accept d sig warnings).Unrepeated := by
  have hdecls : (m.accept d sig warnings).dataDecls = m.dataDecls := by
    rw [dataDecls_accept, hdata, Option.toList_none, List.append_nil]
  refine ⟨?_, ?_, ?_, ?_, ?_, fun hapart => ?_⟩
  · rw [Module.globals, definitions_accept, List.map_append]
    refine List.nodup_append'.2 ⟨h.globals, ?_, ?_⟩
    · cases d.definition? with
      | none => exact List.nodup_nil
      | some f => exact List.nodup_singleton _
    · rintro name hname hnew
      obtain ⟨f, hf, rfl⟩ := List.mem_map.1 hnew
      exact hglobal f (Option.mem_toList.1 hf) hname
  · rw [dataEntries, hdecls]
    exact h.dataNames
  · rw [dataEntries, hdecls]
    exact hsig.1.trans h.dataTypes
  · rw [constructorEntries, hdecls]
    exact hsig.2.trans h.constructorTypes
  · rw [hdecls]
    exact h.apart
  · rw [primitiveEntries_accept, List.map_append]
    refine List.nodup_append'.2 ⟨h.primitives hapart.of_accept, ?_, ?_⟩
    · cases d.primitive? with
      | none => exact List.nodup_nil
      | some p => exact List.nodup_singleton _
    · rintro name hname hnew
      obtain ⟨p, hp, rfl⟩ := List.mem_map.1 hnew
      exact hprimitive hapart p (Option.mem_toList.1 hp) hname

/-- So does a new data type that shadows no constructor. -/
theorem Unrepeated.addData (h : m.Unrepeated) {d : DataDecl} (hnew : m.dataTypes.get? d.name = none)
    (hshadowed : m.shadowed d = []) : (m.accept (.data d) (m.withData d) warnings).Unrepeated := by
  have hdecls : (m.accept (.data d) (m.withData d) warnings).dataDecls = m.dataDecls ++ [d] :=
    dataDecls_accept _ _ _ _
  have hfresh : (Table.ofList m.dataEntries).contains d.name ≠ true := by
    rw [← h.dataTypes, Table.contains, hnew]
    exact Bool.false_ne_true
  refine ⟨?_, ?_, ?_, ?_, ?_, fun hapart => ?_⟩
  · rw [Module.globals, definitions_accept]
    exact (List.append_nil m.definitions).symm ▸ h.globals
  · rw [dataEntries, hdecls, List.map_append]
    exact Table.nodup_append_singleton h.dataNames hfresh
  · rw [dataEntries, hdecls, List.map_append, Table.ofList_append]
    exact congrArg (Table.insert · d.name d) h.dataTypes
  · rw [constructorEntries, hdecls, List.flatMap_append, Table.ofList_append,
      List.flatMap_singleton, DataDecl.entries, List.foldl_map]
    show d.constructors.foldl _ m.constructorTypes = _
    rw [h.constructorTypes]
    rfl
  · rw [hdecls]
    refine List.pairwise_append.2 ⟨h.apart, List.pairwise_singleton _ _,
      fun e he other hother => ?_⟩
    obtain rfl := List.mem_singleton.1 hother
    have hentry : (e.name, e) ∈ m.dataEntries := List.mem_map_of_mem he
    have howner : m.dataTypes.get? e.name = some e := by
      rw [h.dataTypes]
      exact Table.get?_ofList_of_mem h.dataNames hentry
    refine lists_eq_false_of_shadowed howner (fun heq => ?_) hshadowed
    exact hfresh (Table.contains_ofList_iff.2 (heq ▸ List.mem_map_of_mem hentry))
  · rw [primitiveEntries_accept]
    exact (List.append_nil m.primitiveEntries).symm ▸ h.primitives hapart.of_accept

end

theorem llmPrimitive_inj {name other : String} (h : llmPrimitive name = llmPrimitive other) :
    name = other := by
  have hlist := congrArg String.toList h
  rw [llmPrimitive, llmPrimitive, String.toList_append, String.toList_append] at hlist
  exact String.toList_inj.1 (List.append_cancel_left hlist)

/-- No primitive of the language has a name like those of model functions. -/
theorem llmPrimitive_not_mem_primitives (name : String) :
    llmPrimitive name ∉ Prelude.primitives.map Prod.fst := by
  have hdollar : ∀ n ∈ Prelude.primitives.map Prod.fst, n.toList.head? = some '$' := by decide
  intro hmem
  have hhead := hdollar _ hmem
  rw [llmPrimitive, String.toList_append] at hhead
  cases hhead

/-- The primitive of a new model function is new, if no operation has its name. -/
theorem llmPrimitive_not_mem {m : Module} {d : Definition} {sig : Signature}
    {warnings : List Warning} (hapart : (m.accept (.definition d) sig warnings).PrimitivesApart)
    (hpragma : (d.pragmas.get? llmPragma).isSome = true) (hnew : d.name ∉ m.globals) :
    llmPrimitive d.name ∉ m.primitiveEntries.map Prod.fst := by
  have hlast : Declaration.definition d ∈ m.declarations ++ [.definition d] :=
    List.mem_append_right _ List.mem_cons_self
  rw [primitiveEntries, List.map_append, List.mem_append, not_or]
  refine ⟨llmPrimitive_not_mem_primitives d.name, fun hmem => ?_⟩
  obtain ⟨p, hp, hname⟩ := List.mem_map.1 hmem
  obtain ⟨c, hc, heq⟩ := List.mem_filterMap.1 hp
  cases c with
  | data | primType => cases heq
  | primOp name type =>
    cases heq
    exact hapart name type d (List.mem_append_left _ hc) hlast hpragma hname
  | definition f =>
    rw [Declaration.primitive?] at heq
    split at heq
    next =>
      obtain ⟨t, -, rfl⟩ := Option.map_eq_some_iff.1 heq
      refine hnew (List.mem_map.2 ⟨f, mem_definitions_iff.2 hc, llmPrimitive_inj hname⟩)
    next => cases heq

/-- A declaration that gives no error and no warning repeats nothing. -/
theorem Declares.unrepeated {m m' : Module} (hm : Declares m m')
    (htable : m.primitiveTypes = .ofList m.primitiveEntries)
    (h : m.errors = [] → m.warnings = [] → m.Unrepeated) (herrors : m'.errors = [])
    (hwarnings : m'.warnings = []) : m'.Unrepeated := by
  cases hm with
  | unchanged errors warnings hkeep =>
    obtain ⟨hm, rfl⟩ := List.append_eq_nil_iff.1 herrors
    have hsame := h hm ((hkeep rfl).symm.trans hwarnings)
    exact ⟨hsame.globals, hsame.dataNames, hsame.dataTypes, hsame.constructorTypes, hsame.apart,
      hsame.primitives⟩
  | data d hnew _ =>
    obtain ⟨hm, hshadowed⟩ := List.append_eq_nil_iff.1 hwarnings
    exact (h herrors hm).addData hnew hshadowed
  | redeclared d old => cases (List.append_eq_nil_iff.1 hwarnings).2
  | primType name =>
    exact (h herrors (eq_nil_of_ite_append hwarnings)).accept rfl ⟨rfl, rfl⟩ nofun fun _ => nofun
  | primOp name type =>
    refine (h herrors (eq_nil_of_ite_append hwarnings)).accept rfl ⟨rfl, rfl⟩ nofun ?_
    rintro - _ ⟨⟩ hmem
    have hagain : m.primitiveTypes.contains name = true := by
      rw [htable]
      exact Table.contains_ofList_iff.2 hmem
    have hwarned : (if m.primitiveTypes.contains name = true then
      m.warnings ++ [.primitiveRedeclared name] else m.warnings) = [] := hwarnings
    rw [if_pos hagain] at hwarned
    cases (List.append_eq_nil_iff.1 hwarned).2
  | definition d e more hnew _ hbody hpragma =>
    obtain ⟨hm, hmore⟩ := List.append_eq_nil_iff.1 hwarnings
    refine (h herrors hm).accept rfl ?_ ?_ ?_
    · cases d.type <;> exact ⟨rfl, rfl⟩
    · rintro _ ⟨⟩
      exact hnew hmore
    · rw [Declaration.primitive?, hpragma]
      exact fun _ => nofun
  | llm d f type more hnew hname hdeclared _ _ hpragma =>
    obtain ⟨hm, hmore⟩ := List.append_eq_nil_iff.1 hwarnings
    refine (h herrors hm).accept rfl ⟨rfl, rfl⟩ ?_ fun hapart => ?_
    · rintro _ ⟨⟩
      exact hnew hmore
    · rw [Declaration.primitive?, if_pos hpragma, hdeclared]
      rintro _ ⟨⟩
      exact llmPrimitive_not_mem hapart hpragma (hnew hmore)

/-- Nothing is repeated in a module without errors and warnings. -/
theorem unrepeated_ofSurface (ds : List Surface.Declaration) (herrors : (ofSurface ds).errors = [])
    (hwarnings : (ofSurface ds).warnings = []) : (ofSurface ds).Unrepeated := by
  induction ds using List.reverseRecOn with
  | nil =>
    exact ⟨List.nodup_nil, List.nodup_singleton _, rfl, rfl, List.pairwise_singleton _ _,
      fun _ => by decide⟩
  | append_singleton ds d ih =>
    rw [ofSurface_append_singleton] at hwarnings herrors ⊢
    exact Declares.unrepeated (declares _ d) (tables_ofSurface ds).2 ih herrors hwarnings

/-! ## The declarations of the source -/

/-- Whether a declaration has the names that a source declaration gives it. -/
inductive Names : Surface.Declaration → Declaration → Prop where
  | data {d : Surface.DataDecl} {decl : DataDecl}
    (h : decl.constructors.map ConstructorDecl.name = d.constructors.map Surface.Constructor.name) :
    Names (.data d) (.data decl)
  | primType (d : Surface.PrimTypeDecl) : Names (.primType d) (.primType d.name)
  | primOp (d : Surface.PrimOpDecl) (type : Ty) : Names (.primOp d) (.primOp d.name type)
  | definition {d : Surface.Definition} {definition : Definition} (hname : definition.name = d.name)
    (hpragmas : definition.pragmas = d.pragmas) : Names (.definition d) (.definition definition)

theorem constructorNames_mapM {sig : Signature} {vars : List String} {cs : List Surface.Constructor}
    {constructors : List ConstructorDecl}
    (h : cs.mapM (Surface.Constructor.resolve sig vars) = .ok constructors) :
    constructors.map ConstructorDecl.name = cs.map Surface.Constructor.name := by
  induction cs generalizing constructors with
  | nil =>
    rw [List.mapM_nil] at h
    cases h
    rfl
  | cons c cs ih =>
    rw [List.mapM_cons] at h
    obtain ⟨decl, hdecl, h⟩ := PolyLambda.bind_eq_ok_iff.1 h
    obtain ⟨rest, hrest, h⟩ := PolyLambda.bind_eq_ok_iff.1 h
    cases h
    rw [Surface.Constructor.resolve] at hdecl
    obtain ⟨fields, -, hdecl⟩ := PolyLambda.bind_eq_ok_iff.1 hdecl
    cases hdecl
    rw [List.map_cons, List.map_cons, ih hrest]

theorem constructorNames_resolve {sig : Signature} {d : Surface.DataDecl} {decl : DataDecl}
    (h : d.resolve sig = .ok decl) :
    decl.constructors.map ConstructorDecl.name = d.constructors.map Surface.Constructor.name := by
  rw [Surface.DataDecl.resolve] at h
  obtain ⟨constructors, hconstructors, h⟩ := PolyLambda.bind_eq_ok_iff.1 h
  cases h
  exact constructorNames_mapM hconstructors

/-- A definition that is accepted is that of the source, apart from its type and body. -/
theorem exists_toCore_of_resolveDefinition {m : Module} {d : Surface.Definition}
    {definition : Definition} {sig : Signature} {ws ws' : List Warning}
    (h : (m.resolveDefinition d).outcome ws = (.ok (definition, sig), ws')) :
    ∃ type body, definition = d.toCore type body := by
  obtain ⟨_, ws₁, -, h⟩ := Stateful.bind_eq_ok_iff.1 h
  exact exists_toCore_of_resolveNamed h

theorem names_resolveDefinition {m : Module} {d : Surface.Definition} {definition : Definition}
    {sig : Signature} {ws ws' : List Warning}
    (h : (m.resolveDefinition d).outcome ws = (.ok (definition, sig), ws')) :
    definition.name = d.name ∧ definition.pragmas = d.pragmas := by
  obtain ⟨type, body, rfl⟩ := exists_toCore_of_resolveDefinition h
  exact ⟨rfl, rfl⟩

/-- A source declaration is rejected, or it adds a declaration with its names, or there is a data
type like it already. -/
theorem declarations_declare (m : Module) (d : Surface.Declaration) :
    ((∃ e, (m.declare d).errors = m.errors ++ [e]) ∧ (m.declare d).declarations = m.declarations) ∨
      (∃ c, Names d c ∧ (m.declare d).declarations = m.declarations ++ [c]) ∨
      ∃ decl, Names d (.data decl) ∧ m.dataTypes.get? decl.name = some decl ∧ m.declare d = m := by
  cases d with
  | data d =>
    rw [declare_data]
    split
    next decl hdecl =>
      have hnames : Names (.data d) (.data decl) := .data (constructorNames_resolve hdecl)
      rw [addData]
      split
      next => exact .inr (.inl ⟨_, hnames, rfl⟩)
      next old hold =>
        split
        next heq => exact .inr (.inr ⟨decl, hnames, heq ▸ hold, rfl⟩)
        next => exact .inr (.inl ⟨_, hnames, rfl⟩)
    next e _ => exact .inl ⟨⟨e, rfl⟩, rfl⟩
  | primType d =>
    rw [declare_primType]
    exact .inr (.inl ⟨_, .primType d, rfl⟩)
  | primOp d =>
    rw [declare_primOp]
    split
    next type _ => exact .inr (.inl ⟨_, .primOp d type, rfl⟩)
    next e _ => exact .inl ⟨⟨e, rfl⟩, rfl⟩
  | definition d =>
    rw [declare_definition]
    split
    next definition sig ws h =>
      obtain ⟨hname, hpragmas⟩ := names_resolveDefinition h
      exact .inr (.inl ⟨_, .definition hname hpragmas, rfl⟩)
    next e ws _ => exact .inl ⟨⟨e, rfl⟩, rfl⟩

/-- What a program declares has the names of its source. -/
theorem exists_source (ds : List Surface.Declaration) {c : Declaration}
    (hc : c ∈ (ofSurface ds).declarations) : ∃ d ∈ ds, Names d c := by
  induction ds using List.reverseRecOn with
  | nil => cases hc
  | append_singleton ds d ih =>
    rw [ofSurface_append_singleton] at hc
    have hold (hc : c ∈ (ofSurface ds).declarations) : ∃ d' ∈ ds ++ [d], Names d' c := by
      obtain ⟨d', hd', hnames⟩ := ih hc
      exact ⟨d', List.mem_append_left _ hd', hnames⟩
    rcases declarations_declare (ofSurface ds) d with ⟨-, heq⟩ | ⟨c', hnames, heq⟩ | ⟨_, -, -, heq⟩
    · exact hold (heq ▸ hc)
    · rw [heq, List.mem_append, List.mem_singleton] at hc
      rcases hc with hc | rfl
      · exact hold hc
      · exact ⟨d, List.mem_append_right _ List.mem_cons_self, hnames⟩
    · exact hold (heq ▸ hc)

/-- The data types in the table are declared, or there from the beginning. -/
theorem mem_dataDecls (ds : List Surface.Declaration) {key : String} {d : DataDecl}
    (hd : (ofSurface ds).dataTypes.get? key = some d) : d ∈ (ofSurface ds).dataDecls := by
  refine ofSurface_induct (P := fun m => ∀ key d, m.dataTypes.get? key = some d → d ∈ m.dataDecls)
    ?_ ?_ ds key d hd
  · intro key d hd
    exact List.mem_singleton.2
      (congrArg Prod.snd (List.mem_singleton.1 (Table.mem_entries_iff.2 hd)))
  · intro m m' hm h key d hd
    have hinsert {d' : DataDecl} (hd : (m.dataTypes.insert d'.name d').get? key = some d) :
        d ∈ m.dataDecls ++ [d'] := by
      rw [Table.get?_insert] at hd
      split at hd
      next =>
        cases hd
        exact List.mem_append_right _ List.mem_cons_self
      next => exact List.mem_append_left _ (h key d hd)
    cases hm with
    | unchanged => exact h key d hd
    | data | redeclared =>
      rw [dataDecls_accept]
      exact hinsert hd
    | primType | primOp =>
      simp only [addPrimType, addPrimOp, dataDecls_accept]
      exact List.mem_append_left _ (h key d hd)
    | definition f =>
      rw [dataDecls_accept]
      refine List.mem_append_left _ (h key d (Eq.trans ?_ hd))
      show _ = (m.withGlobal f.name f.type).dataTypes.get? key
      cases f.type <;> rfl
    | llm =>
      rw [dataDecls_accept]
      exact List.mem_append_left _ (h key d hd)

/-- A program without errors declares all that its source does, except for data types that it
has. -/
theorem exists_declaration (ds : List Surface.Declaration) (herrors : (ofSurface ds).errors = [])
    {d : Surface.Declaration} (hd : d ∈ ds) :
    (∃ c ∈ (ofSurface ds).declarations, Names d c) ∨
      ∃ decl ∈ (ofSurface ds).dataDecls, Names d (.data decl) := by
  induction ds using List.reverseRecOn with
  | nil => cases hd
  | append_singleton ds last ih =>
    have hprefix : (ofSurface ds).errors = [] := by
      have hextends := (extends_ofSurface ds [last]).errors
      rw [herrors] at hextends
      exact List.prefix_nil.1 hextends
    rw [ofSurface_append_singleton] at herrors ⊢
    have hkept : (ofSurface ds).declarations ⊆ ((ofSurface ds).declare last).declarations := by
      rcases declarations_declare (ofSurface ds) last with ⟨-, heq⟩ | ⟨c, -, heq⟩ | ⟨_, -, -, heq⟩
      · rw [heq]
        exact List.Subset.refl _
      · rw [heq]
        exact List.subset_append_left _ _
      · rw [heq]
        exact List.Subset.refl _
    rcases List.mem_append.1 hd with hd | hd
    · refine (ih hprefix hd).imp ?_ ?_
      · rintro ⟨c, hc, hnames⟩
        exact ⟨c, hkept hc, hnames⟩
      · rintro ⟨decl, hdecl, hnames⟩
        refine ⟨decl, ?_, hnames⟩
        exact List.cons_subset_cons _ (List.filterMap_subset _ hkept) hdecl
    · rw [List.mem_singleton.1 hd]
      rcases declarations_declare (ofSurface ds) last with ⟨⟨e, he⟩, -⟩ | ⟨c, hnames, heq⟩ |
        ⟨decl, hnames, hget, heq⟩
      · rw [he] at herrors
        cases (List.append_eq_nil_iff.1 herrors).2
      · rw [heq]
        exact .inl ⟨c, List.mem_append_right _ List.mem_cons_self, hnames⟩
      · rw [heq]
        exact .inr ⟨decl, mem_dataDecls ds hget, hnames⟩

theorem mem_dataDecls_iff {m : Module} {d : DataDecl} :
    d ∈ m.dataDecls ↔ d = Prelude.boolDecl ∨ .data d ∈ m.declarations := by
  rw [dataDecls, List.mem_cons, List.mem_filterMap]
  refine or_congr_right ⟨?_, fun hd => ⟨_, hd, rfl⟩⟩
  rintro ⟨c, hc, heq⟩
  cases c with
  | data => cases heq; exact hc
  | _ => cases heq

/-- The constructors of a program have different names exactly if no data type of its source lists
one twice. -/
theorem nodup_constructorEntries_iff (ds : List Surface.Declaration)
    (herrors : (ofSurface ds).errors = []) (hwarnings : (ofSurface ds).warnings = []) :
    ((ofSurface ds).constructorEntries.map Prod.fst).Nodup ↔
      ∀ d ∈ ds, d.constructorNames.Nodup := by
  have hnames (d : DataDecl) : d.entries.map Prod.fst = d.constructors.map ConstructorDecl.name :=
    List.map_map
  have hapart : (ofSurface ds).dataDecls.Pairwise fun d e =>
      List.Disjoint (d.constructors.map ConstructorDecl.name)
      (e.constructors.map ConstructorDecl.name) := by
    refine (unrepeated_ofSurface ds herrors hwarnings).apart.imp fun {d e} h name hd he => ?_
    obtain ⟨c, hc, rfl⟩ := List.mem_map.1 he
    have hlists := DataDecl.lists_iff.2 (List.mem_map.1 hd)
    rw [h c hc] at hlists
    cases hlists
  rw [constructorEntries, List.map_flatMap, List.nodup_flatMap, and_iff_left]
  · simp only [hnames]
    constructor
    · intro h d hd
      cases d with
      | data d =>
        rcases exists_declaration ds herrors hd with ⟨c, hc, hcd⟩ | ⟨decl, hdecl, hcd⟩
        · cases hcd with
          | data heq =>
            rw [Surface.Declaration.constructorNames, ← heq]
            exact h _ (mem_dataDecls_iff.2 (.inr hc))
        · cases hcd with
          | data heq =>
            rw [Surface.Declaration.constructorNames, ← heq]
            exact h decl hdecl
      | _ => exact List.nodup_nil
    · intro h decl hdecl
      rcases mem_dataDecls_iff.1 hdecl with rfl | hdecl
      · decide
      · obtain ⟨d, hd, hcd⟩ := exists_source ds hdecl
        cases hcd with
        | data heq => exact heq ▸ h _ hd
  · simpa only [Function.onFun, hnames] using hapart

/-- A model function has a type before it is checked. -/
theorem isSome_type_of_pragma (ds : List Surface.Declaration) {d : Definition}
    (hd : d ∈ (ofSurface ds).definitions) (hpragma : (d.pragmas.get? llmPragma).isSome = true) :
    d.type.isSome = true := by
  refine ofSurface_induct (P := fun m => ∀ d ∈ m.definitions,
    (d.pragmas.get? llmPragma).isSome = true → d.type.isSome = true) nofun ?_ ds d hd hpragma
  intro m m' hm h d hd hpragma
  cases hm with
  | unchanged => exact h d hd hpragma
  | data | redeclared | primType | primOp =>
    simp only [addPrimType, addPrimOp, definitions_accept] at hd
    exact h d ((List.append_nil m.definitions) ▸ hd) hpragma
  | definition new e more _ _ _ hnone =>
    rw [definitions_accept] at hd
    rcases List.mem_append.1 hd with hd | hd
    · exact h d hd hpragma
    · rw [List.mem_singleton.1 hd, hnone] at hpragma
      cases hpragma
  | llm new f type more _ _ hdeclared =>
    rw [definitions_accept] at hd
    rcases List.mem_append.1 hd with hd | hd
    · exact h d hd hpragma
    · rw [List.mem_singleton.1 hd]
      exact Option.isSome_of_eq_some hdeclared

/-- Primitives with different names have different declarations. -/
theorem primitivesApart_of_nodup (ds : List Surface.Declaration)
    (h : ((ofSurface ds).primitiveEntries.map Prod.fst).Nodup) :
    (ofSurface ds).PrimitivesApart := by
  intro name type d hop hd hpragma heq
  rw [primitiveEntries, List.map_append] at h
  have hpairs := List.pairwise_filterMap.1 (List.pairwise_map.1 (List.nodup_append'.1 h).2.1)
  have : Std.Symm fun c c' : Declaration => ∀ p ∈ c.primitive?, ∀ p' ∈ c'.primitive?, p.1 ≠ p'.1 :=
    ⟨fun c c' h p hp p' hp' => (h p' hp' p hp).symm⟩
  have hdefinition : d ∈ (ofSurface ds).definitions := mem_definitions_iff.2 hd
  obtain ⟨t, ht⟩ := Option.isSome_iff_exists.1 (isSome_type_of_pragma ds hdefinition hpragma)
  refine hpairs.forall hop hd nofun (name, type) rfl (llmPrimitive d.name, t) ?_ heq
  rw [Declaration.primitive?, if_pos hpragma, ht]
  rfl

/-- The primitives of a program have different names exactly if no primitive operation of its source
has the name that a model function takes for its primitive. -/
theorem nodup_primitiveEntries_iff (ds : List Surface.Declaration)
    (herrors : (ofSurface ds).errors = []) (hwarnings : (ofSurface ds).warnings = []) :
    ((ofSurface ds).primitiveEntries.map Prod.fst).Nodup ↔
      ∀ p d, .primOp p ∈ ds → .definition d ∈ ds → (d.pragmas.get? llmPragma).isSome = true →
        p.name ≠ llmPrimitive d.name := by
  have hapart : ((ofSurface ds).primitiveEntries.map Prod.fst).Nodup ↔
    (ofSurface ds).PrimitivesApart :=
    ⟨primitivesApart_of_nodup ds, (unrepeated_ofSurface ds herrors hwarnings).primitives⟩
  rw [hapart]
  constructor
  · intro h p d hp hd hpragma
    rcases exists_declaration ds herrors hp with ⟨c, hc, hcp⟩ | ⟨_, _, hcp⟩
    · rcases exists_declaration ds herrors hd with ⟨c', hc', hcd⟩ | ⟨_, _, hcd⟩
      · cases hcp with
        | primOp _ type =>
          cases hcd with
          | definition hname hpragmas =>
            rw [← hname]
            exact h p.name type _ hc hc' (hpragmas ▸ hpragma)
      · cases hcd
    · cases hcp
  · intro h name type d hop hd hpragma
    obtain ⟨p, hp, hcp⟩ := exists_source ds hop
    obtain ⟨d', hd', hcd⟩ := exists_source ds hd
    cases hcp with
    | primOp p type =>
      cases hcd with
      | definition hname hpragmas =>
        rw [hname]
        exact h p _ hp hd' (hpragmas ▸ hpragma)

theorem nodup_globalEntries {m : Module} (h : m.globals.Nodup) :
    (m.globalEntries.map Prod.fst).Nodup := by
  refine List.pairwise_map.2 (List.pairwise_filterMap.2 ((List.pairwise_map.1 h).imp ?_))
  rintro d d' hne p hp p' hp'
  obtain ⟨t, -, rfl⟩ := Option.map_eq_some_iff.1 hp
  obtain ⟨t', -, rfl⟩ := Option.map_eq_some_iff.1 hp'
  exact hne

/-- In a program without errors and warnings definitions and data types have different names, and
each type of a global is that of the only definition of its name. Likewise each type of a
constructor is that of the only constructor of its name exactly if no data type lists a name twice,
and each type of a primitive that of the only primitive of its name exactly if no primitive
operation has the name that a model function takes for its primitive. -/
theorem declared_once_iff (ds : List Surface.Declaration) (herrors : (ofSurface ds).errors = [])
    (hwarnings : (ofSurface ds).warnings = []) :
    (ofSurface ds).globals.Nodup ∧
      (ofSurface ds).globalTypes.HoldsOnce (ofSurface ds).globalEntries ∧
      (ofSurface ds).dataTypes.HoldsOnce (ofSurface ds).dataEntries ∧
      ((ofSurface ds).constructorTypes.HoldsOnce (ofSurface ds).constructorEntries ↔
        ∀ d ∈ ds, d.constructorNames.Nodup) ∧
      ((ofSurface ds).primitiveTypes.HoldsOnce (ofSurface ds).primitiveEntries ↔
        ∀ p d, .primOp p ∈ ds → .definition d ∈ ds → (d.pragmas.get? llmPragma).isSome = true →
          p.name ≠ llmPrimitive d.name) := by
  obtain ⟨hglobals, hprimitives⟩ := tables_ofSurface ds
  have h := unrepeated_ofSurface ds herrors hwarnings
  rw [hglobals, hprimitives, h.dataTypes, h.constructorTypes]
  simp only [Table.holdsOnce_ofList_iff]
  exact ⟨h.globals, nodup_globalEntries h.globals, h.dataNames,
    nodup_constructorEntries_iff ds herrors hwarnings,
    nodup_primitiveEntries_iff ds herrors hwarnings⟩

/-- Truth values are declared once more as they are, which is no declaration. -/
def askedSource : String :=
  "(data Bool True False)
(data (Maybe 'a) None (Some 'a))
(prim-op shout : (-> String String))
(def ask \x7b-# LLM #-\x7d (fn (n : Int) n))
(def twice (Some (ask (ask 1))))"

theorem declared_once_asked :
    (recover askedSource).errors = [] ∧ (recover askedSource).warnings = [] ∧
      (recover askedSource).constructorEntries.map Prod.fst = ["True", "False", "None", "Some"] ∧
      (recover askedSource).constructorTypes.HoldsOnce
      (recover askedSource).constructorEntries := by
  -- The list of characters is nested as deeply as the source is long.
  set_option maxRecDepth 2000 in
  have hlex : Token.lex askedSource = Token.lexChars _ := Token.lex_ofList _
  obtain ⟨herrors, hwarnings, hentries⟩ : (recover askedSource).errors = [] ∧
      (recover askedSource).warnings = [] ∧
      (recover askedSource).constructorEntries.map Prod.fst =
      ["True", "False", "None", "Some"] := by
    rw [recover, Surface.parse, hlex]
    decide +kernel
  have hnodup : ∀ d ∈ (Surface.parse askedSource).declarations, d.constructorNames.Nodup := by
    rw [Surface.parse, hlex]
    decide +kernel
  obtain ⟨-, -, -, hconstructors, -⟩ := declared_once_iff _ herrors hwarnings
  exact ⟨herrors, hwarnings, hentries, hconstructors.2 hnodup⟩

/-- Two boxes in one data type, and an operation with the name of the primitive of a model
function. -/
def twiceSource : String :=
  "(data Shape (Box Int) (Box String))
(prim-op llm.ask : (-> String Int))
(def ask \x7b-# LLM #-\x7d (fn (n : Int) n))"

/-- Neither is warned of, although only one of the two boxes has a type in the table, and so has one
of the two primitives. -/
theorem declared_twice_without_warning :
    (recover twiceSource).errors = [] ∧ (recover twiceSource).warnings = [] ∧
      ¬ ((recover twiceSource).constructorEntries.map Prod.fst).Nodup ∧
      ¬ ((recover twiceSource).primitiveEntries.map Prod.fst).Nodup := by
  have hlex : Token.lex twiceSource = Token.lexChars _ := Token.lex_ofList _
  rw [recover, Surface.parse, hlex]
  decide +kernel

end Module

end PolyLambda
