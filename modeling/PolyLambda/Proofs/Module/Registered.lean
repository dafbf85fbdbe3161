import PolyLambda.Proofs.Module.Distinct
import PolyLambda.Proofs.Module.WrittenTypes

/-!
# The types of a program

What is resolved is a type of the tables that it is resolved in, and tables only grow after that,
except that a data type may be declared anew, with other parameters. So as long as no data type is,
all types that are written in a program and all types in its tables are types of the program
(`types_ofSurface`). Constructors are resolved before their data type is in the tables. What stands
for it there until then has its parameters, so nothing more is needed for them.
-/

namespace PolyLambda

/-! ## Declarations -/

theorem Declaration.mem_declaredType_of_primitive {d : Declaration} {name : String} {t : Ty}
    (h : d.primitive? = some (name, t)) : t ∈ d.declaredType? := by
  cases d with
  | data | primType => cases h
  | primOp =>
    cases h
    rfl
  | definition d =>
    rw [primitive?] at h
    split at h
    next =>
      obtain ⟨t, ht, heq⟩ := Option.map_eq_some_iff.1 h
      cases heq
      exact ht
    next => cases h

namespace Module

open Signature

/-- Whether no warning says that a data type was declared again, differently from before. -/
def KeepsDataTypes (m : Module) : Prop :=
  ∀ name, .dataTypeRedeclared name ∉ m.warnings

/-- Whether all types that are written in the declarations of a module are types of it. -/
def IsWritten (m : Module) : Prop :=
  ∀ d ∈ m.declarations, ∀ p ∈ d.writtenTypes, m.IsType p.1 p.2

theorem Declares.warnings {m m' : Module} (h : Declares m m') : m.warnings <+: m'.warnings := by
  cases h with
  | unchanged _ _ _ hwarnings => exact hwarnings
  | primType | primOp =>
    simp only [addPrimType, addPrimOp, accept]
    split
    next => exact List.prefix_append _ _
    next => exact List.prefix_rfl
  | _ => exact List.prefix_append _ _

/-- As long as no data type is declared differently from before, declarations keep types. -/
theorem Declares.keepsTypes {m m' : Module} (h : Declares m m') (hkept : m'.KeepsDataTypes) :
    m.KeepsTypes m'.toSignature := by
  cases h with
  | data d hnew =>
    refine keepsTypes_withData fun old hold => ?_
    rw [hnew] at hold
    cases hold
  | redeclared d =>
    exact absurd (List.mem_append_right _ List.mem_cons_self) (hkept d.name)
  | primType name => exact keepsTypes_addPrimType m name
  | definition d => exact keepsTypes_withGlobal _ d.name d.type
  | _ => exact keepsTypes_of_eq rfl rfl

/-- The types that are written in a declaration become types of the module. -/
theorem Declares.isWritten {m m' : Module} (hm : Declares m m')
    (hkeeps : m.KeepsTypes m'.toSignature) (h : m.IsWritten) : m'.IsWritten := by
  intro d hd p hp
  rcases Declares.writtenTypes hm d hd with hold | ⟨hkeepsNew, hresolves⟩
  · exact (h d hold p hp).mono hkeeps
  · exact (hresolves p hp).isType.mono hkeepsNew

/-! ## Programs -/

/-- What declarations keep that keep types holds of every program that declares no data type
again. -/
theorem ofSurface_induct_of_keepsDataTypes {P : Module → Prop} (hempty : P Prelude.emptyModule)
    (hdeclare : ∀ m m', Declares m m' → m.KeepsTypes m'.toSignature → P m → P m')
    (ds : List Surface.Declaration) (hkept : (ofSurface ds).KeepsDataTypes) : P (ofSurface ds) := by
  refine ofSurface_induct (P := fun m => m.KeepsDataTypes → P m) (fun _ => hempty) ?_ ds hkept
  intro m m' hm h hkept
  have hbefore : m.KeepsDataTypes :=
    fun name hname => hkept name ((Declares.warnings hm).subset hname)
  exact hdeclare m m' hm (Declares.keepsTypes hm hkept) (h hbefore)

theorem keepsTypes_prelude (ds : List Surface.Declaration) (hkept : (ofSurface ds).KeepsDataTypes) :
    Prelude.signature.KeepsTypes (ofSurface ds).toSignature := by
  refine ofSurface_induct_of_keepsDataTypes
    (P := fun m => Prelude.signature.KeepsTypes m.toSignature)
    (keepsTypes_of_eq rfl rfl) ?_ ds hkept
  intro m m' _ hkeeps h
  exact h.trans hkeeps

theorem isWritten_ofSurface (ds : List Surface.Declaration)
    (hkept : (ofSurface ds).KeepsDataTypes) :
    (ofSurface ds).IsWritten := by
  refine ofSurface_induct_of_keepsDataTypes (P := IsWritten) (List.forall_mem_nil _) ?_ ds hkept
  intro m m' hm hkeeps h
  exact Declares.isWritten hm hkeeps h

section

variable {m : Module}

theorem IsWritten.fields (h : m.IsWritten) {d : DataDecl} (hd : .data d ∈ m.declarations) :
    ∀ c ∈ d.constructors, ∀ t ∈ c.fields, m.IsType d.params t := by
  intro c hc t ht
  exact h _ hd (d.params, t) (List.mem_flatMap.2 ⟨c, hc, List.mem_map_of_mem ht⟩)

theorem IsWritten.declaredType (h : m.IsWritten) {d : Declaration} (hd : d ∈ m.declarations) :
    ∀ t ∈ d.declaredType?, m.IsType [] t :=
  fun _ ht => h d hd _ (Declaration.mem_writtenTypes_of_declaredType ht)

theorem IsWritten.body (h : m.IsWritten) {d : Definition} (hd : d ∈ m.definitions) :
    ∀ p ∈ d.body.writtenTypes [], m.IsType p.1 p.2 :=
  fun p hp => h _ (mem_definitions_iff.1 hd) p (List.mem_append_right _ hp)

end

section

variable (ds : List Surface.Declaration)

theorem isType_constructorTypes (h : (ofSurface ds).IsWritten) :
    (ofSurface ds).constructorTypes.All ((ofSurface ds).IsType []) := by
  intro name t ht
  obtain ⟨d, howner, c, hc, -, rfl⟩ := owned_ofSurface ds name t ht
  obtain ⟨⟨key, hkey⟩, -⟩ := mem_ownersOf_iff.1 howner
  have hd : (ofSurface ds).dataTypes.get? d.name = some d := by
    rw [keyed_ofSurface ds key d hkey]
    exact hkey
  refine isType_constructorType hd ?_
  rcases mem_dataDecls_iff.1 (mem_dataDecls ds hkey) with rfl | hdeclared
  · have hnone : ∀ c ∈ Prelude.boolDecl.constructors, c.fields = [] := by decide
    rw [hnone c hc]
    exact List.forall_mem_nil _
  · exact h.fields hdeclared c hc

/-- The types of globals are those that definitions are annotated with. -/
theorem isType_globalTypes (h : (ofSurface ds).IsWritten) :
    (ofSurface ds).globalTypes.All ((ofSurface ds).IsType []) := by
  intro name t ht
  rw [(tables_ofSurface ds).1] at ht
  obtain ⟨d, hd, heq⟩ := List.mem_filterMap.1 (Table.mem_of_get?_ofList ht)
  obtain ⟨_, htype, heq⟩ := Option.map_eq_some_iff.1 heq
  cases heq
  exact h.declaredType (mem_definitions_iff.1 hd) t htype

theorem isType_primitives : ∀ e ∈ Prelude.primitives, Prelude.signature.IsType [] e.2 := by
  have hint : Prelude.signature.Registers .int := .prim (by decide)
  have hstring : Prelude.signature.Registers .string := .prim (by decide)
  have hbool : Prelude.signature.Registers .bool :=
    .data (d := Prelude.boolDecl) (by decide) rfl nofun
  have hbinary {t : Ty} (h : Prelude.signature.Registers t) :
      Prelude.signature.Registers (Prelude.binary t) := .arrow hint (.arrow hint h)
  have hclosed : ∀ e ∈ Prelude.primitives, ∀ v ∈ e.2.freeVars, v ∈ ([] : List String) := by decide
  refine fun e he => ⟨hclosed e he, ?_⟩
  revert e
  simp only [Prelude.primitives, List.forall_mem_cons]
  exact ⟨hbinary hint, hbinary hint, hbinary hint, hbinary hint, .arrow hint hint, hbinary hbool,
    hbinary hbool, hbinary hbool, .arrow hstring (.arrow hstring hstring), .arrow hstring hint,
    List.forall_mem_nil _⟩

/-- The types of primitives are those that the language gives its own, and annotations. -/
theorem isType_primitiveTypes (hkeeps : Prelude.signature.KeepsTypes (ofSurface ds).toSignature)
    (h : (ofSurface ds).IsWritten) :
    (ofSurface ds).primitiveTypes.All ((ofSurface ds).IsType []) := by
  intro name t ht
  rw [(tables_ofSurface ds).2] at ht
  rcases List.mem_append.1 (Table.mem_of_get?_ofList ht) with hprelude | hdeclared
  · exact (isType_primitives _ hprelude).mono hkeeps
  · obtain ⟨d, hd, heq⟩ := List.mem_filterMap.1 hdeclared
    exact h.declaredType hd t (Declaration.mem_declaredType_of_primitive heq)

/-- In a program that declares no data type differently from before, the types of constructors, of
globals and of primitives and those that declarations are annotated with are closed, and what is
written in bodies has no type variables but those that are bound there. In all of them each data
type has as many arguments as it has parameters in the tables, and each primitive type is in the
tables. -/
theorem types_ofSurface (hkept : (ofSurface ds).KeepsDataTypes) :
    (ofSurface ds).constructorTypes.All ((ofSurface ds).IsType []) ∧
      (ofSurface ds).globalTypes.All ((ofSurface ds).IsType []) ∧
      (ofSurface ds).primitiveTypes.All ((ofSurface ds).IsType []) ∧
      (∀ d ∈ (ofSurface ds).declarations, ∀ t ∈ d.declaredType?, (ofSurface ds).IsType [] t) ∧
      ∀ d ∈ (ofSurface ds).definitions, ∀ p ∈ d.body.writtenTypes [],
        (ofSurface ds).IsType p.1 p.2 := by
  have hwritten := isWritten_ofSurface ds hkept
  have hprimitives := isType_primitiveTypes ds (keepsTypes_prelude ds hkept) hwritten
  exact ⟨isType_constructorTypes ds hwritten, isType_globalTypes ds hwritten, hprimitives,
    fun _ hd => hwritten.declaredType hd, fun _ hd => hwritten.body hd⟩

end

/-- Lists, and a list of one element, for lists as elements too. -/
def singleSource : String :=
  "(data (List 'a) Nil (Cons 'a (List 'a)))
(prim-op sum : (-> (List Int) Int))
(def single : (forall 'a (-> 'a (List 'a)))
  (tfn 'a (fn (x : 'a) (Cons x (Nil @'a)))))
(def twice (single @(List Int) (single @Int 1)))"

theorem types_single :
    (recover singleSource).errors = [] ∧ (recover singleSource).KeepsDataTypes ∧
      ((recover singleSource).definitions.flatMap fun d => d.body.writtenTypes []) =
        [(["a"], .var "a"), (["a"], .var "a"), ([], .data "List" [.int]), ([], .int)] ∧
      ∀ d ∈ (recover singleSource).definitions, ∀ p ∈ d.body.writtenTypes [],
        (recover singleSource).IsType p.1 p.2 := by
  -- The list of characters is nested as deeply as the source is long.
  set_option maxRecDepth 2000 in
  have hlex : Token.lex singleSource = Token.lexChars _ := Token.lex_ofList _
  obtain ⟨herrors, hwarnings, htypes⟩ : (recover singleSource).errors = [] ∧
      (recover singleSource).warnings = [] ∧
      ((recover singleSource).definitions.flatMap fun d => d.body.writtenTypes []) =
        [(["a"], .var "a"), (["a"], .var "a"), ([], .data "List" [.int]), ([], .int)] := by
    rw [recover, Surface.parse, hlex]
    decide +kernel
  have hkept : (recover singleSource).KeepsDataTypes := by
    intro name
    rw [hwarnings]
    exact List.not_mem_nil
  obtain ⟨-, -, -, -, hbodies⟩ := types_ofSurface _ hkept
  exact ⟨herrors, hkept, htypes, hbodies⟩

end Module

end PolyLambda
