import PolyLambda.Proofs.Offline
import PolyLambda.Proofs.Typing.Given

/-!
# Programs that go on

A program is resolved declaration by declaration, but it is checked and evaluated with the tables
that are there at the end. So a declaration may change what was before it: a data type that is
declared again gives other types, and other numbers of arguments, to constructors that are in use
(`later_changes_earlier`).

What a program does not mention does not matter to it. Where the tables agree on all that the first
declarations mention, these are accepted and evaluated by themselves if the whole program is
(`prefix_succeeds`): to the same values, and with types that the rest of the program can only
refine, by what it lets the checker learn about their metas.
-/

namespace PolyLambda

/-! ## One part after the other -/

namespace Checker

variable {sig : Signature} {limit : Nat} {types types' : Table Ty} {ds more : List Definition}
  {c c' : Checker}

/-- The definitions that come first are checked first. -/
theorem checkDefinitions_append
    (h : (checkDefinitions sig limit types (ds ++ more)).outcome? c = some (.ok types', c')) :
    ∃ types₁ c₁, (checkDefinitions sig limit types ds).outcome? c = some (.ok types₁, c₁) ∧
      (checkDefinitions sig limit types₁ more).outcome? c₁ = some (.ok types', c') := by
  induction ds generalizing types c with
  | nil => exact ⟨types, c, rfl, h⟩
  | cons d ds ih =>
    obtain ⟨t, c₁, hd, hrest⟩ := LimitedState.outcome?_bind_eq_ok_iff.1 h
    obtain ⟨types₂, c₂, hds, hmore⟩ := ih hrest
    exact ⟨types₂, c₂, LimitedState.outcome?_bind_eq_ok_iff.2 ⟨t, c₁, hd, hds⟩, hmore⟩

/-- Definitions enter types under their own names. -/
theorem get?_of_checkDefinitions
    (h : (checkDefinitions sig limit types ds).outcome? c = some (.ok types', c')) {name : String}
    (hname : name ∉ ds.map Definition.name) : types'.get? name = types.get? name := by
  obtain ⟨given, rfl, rfl⟩ := exists_of_checkDefinitions h
  rw [List.map_map] at hname
  exact get?_entered_of_not_mem hname

end Checker

/-- A program whose definitions all have values begins with one whose definitions all have
values. -/
theorem Session.evaluateDefinitions_append {m : Machine} {limit : Nat} {ds more : List Definition}
    {s s' : Session} {values : List (Definition × Value)}
    (h : evaluateDefinitions m limit (ds ++ more) s = some ((values, none), s')) :
    ∃ first rest s₁, evaluateDefinitions m limit ds s = some ((first, none), s₁) ∧
      values = first ++ rest ∧ first.map Prod.fst = ds := by
  induction ds generalizing s values with
  | nil => exact ⟨[], values, s, rfl, rfl, rfl⟩
  | cons d ds ih =>
    obtain ⟨_, -, -, ⟨⟩⟩ | ⟨v, s₁, _, hd, hrest, rfl⟩ := evaluateDefinitions_cons_iff.1 h
    obtain ⟨first, rest, s₂, hfirst, rfl, hnames⟩ := ih hrest
    refine ⟨(d, v) :: first, rest, s₂, ?_, rfl, congrArg (d :: ·) hnames⟩
    exact evaluateDefinitions_cons_iff.2 (.inr ⟨v, s₁, first, hd, hfirst, rfl⟩)

/-! ## What the parts mean -/

/-- Whether two modules say the same about what is mentioned. -/
def Mention.SameIn (m m' : Module) : Mention → Prop
  | .constructor name => m.constructorTypes.get? name = m'.constructorTypes.get? name
  | .primitive name => m.primitiveTypes.get? name = m'.primitiveTypes.get? name ∧
    (name ∈ m.llmFunctions.names.map llmPrimitive ↔ name ∈ m'.llmFunctions.names.map llmPrimitive)
  | .tool _ | .typeArgument => True

instance (m m' : Module) : (x : Mention) → Decidable (x.SameIn m m')
  | .constructor _ => inferInstanceAs (Decidable (_ = _))
  | .primitive _ => inferInstanceAs (Decidable (_ = _ ∧ (_ ∈ _ ↔ _ ∈ _)))
  | .tool _ | .typeArgument => isTrue trivial

/-- Whether two modules say the same about all that the definitions of the first one mention. -/
def Module.AgreesWith (m m' : Module) : Prop :=
  ∀ d ∈ m.definitions, ∀ x ∈ d.body.mentions, x.SameIn m m'

instance (m m' : Module) : Decidable (m.AgreesWith m') :=
  inferInstanceAs (Decidable (∀ d ∈ m.definitions, ∀ x ∈ d.body.mentions, x.SameIn m m'))

namespace Module

variable (first more : List Surface.Declaration)

/-- What the first declarations have, and say the same about as all of them. -/
def Common (x : Mention) : Prop :=
  (ofSurface first).Admits x ∧ x.SameIn (ofSurface first) (ofSurface (first ++ more))

/-- A program compared with what its first declarations are by themselves. -/
def shortened : Comparison where
  left := .ofModule (ofSurface (first ++ more)) .standard
  right := .ofModule (ofSurface first) .standard
  models _ := false
  allowed := Common first more
  histories _ _ := True

variable {first more}

theorem inOrder_common (hagree : (ofSurface first).AgreesWith (ofSurface (first ++ more))) :
    Definition.InOrder (Common first more) [] (ofSurface first).definitions :=
  (inOrder_ofSurface first).mono fun d hd x hx hadmitted => ⟨hadmitted, hagree d hd x hx⟩

theorem agreeOn_common :
    (ofSurface (first ++ more)).AgreeOn (Common first more) (ofSurface first).toSignature where
  constructors _ h := h.2.symm
  primitives name h := by
    obtain ⟨t, ht⟩ := Option.isSome_iff_exists.1 h.1
    exact ⟨t, h.2.1.symm.trans ht, ht⟩

/-- Among what is common the same primitives are model functions. -/
theorem isSome_llmFunction?_common {name : String} (h : Common first more (.primitive name))
    (host : Host) :
    ((Machine.ofModule (ofSurface (first ++ more)) host).llmFunction? name).isSome =
      ((Machine.ofModule (ofSurface first) host).llmFunction? name).isSome := by
  have hmem (m : Module) : (∃ key, m.llmFunctions.contains key = true ∧ name = llmPrimitive key) ↔
      name ∈ m.llmFunctions.names.map llmPrimitive := by
    simp only [List.mem_map, Table.mem_names_iff, Table.contains, Option.isSome_iff_exists]
    simp only [eq_comm]
  rw [Bool.eq_iff_iff, isSome_llmFunction?_iff (llmKeyed_ofSurface _),
    isSome_llmFunction?_iff (llmKeyed_ofSurface _), hmem, hmem]
  exact h.2.2.symm

theorem ends_operation {name : String} (h : Common first more (.primitive name)) :
    Comparison.Ends Eq ((Machine.ofModule (ofSurface (first ++ more)) .standard).operation name)
      ((Machine.ofModule (ofSurface first) .standard).operation name) := by
  have hok (op : Operation) :
      (Machine.ofModule (ofSurface (first ++ more)) .standard).operation name = .ok op ↔
        (Machine.ofModule (ofSurface first) .standard).operation name = .ok op := by
    rw [Machine.operation_eq_ok_iff, Machine.operation_eq_ok_iff, isSome_llmFunction?_common h]
    rfl
  cases hleft : (Machine.ofModule (ofSurface (first ++ more)) .standard).operation name with
  | ok op =>
    rw [(hok op).1 hleft]
    rfl
  | error e =>
    cases hright : (Machine.ofModule (ofSurface first) .standard).operation name with
    | ok op =>
      rw [(hok op).2 hright] at hleft
      cases hleft
    | error e' =>
      exact not_dangling_operation (first ++ more) Host.isSome_primitive?_standard
        ((extends_ofSurface first more).primitiveTypes name h.1) hleft

/-- A program and its first declarations agree on what is common to them. -/
theorem fair_shortened : (shortened first more).Fair where
  constructors name h := by
    show ((ofSurface (first ++ more)).constructorTypes.get? name).map _ =
      ((ofSurface first).constructorTypes.get? name).map _
    rw [h.2.symm]
  primitives name h := ends_operation h
  run names name op args args' hname hargs := by
    have hassembles := Host.assembles_standard .empty .offline .standard Table.all_empty
    refine Comparison.follows_runPrimitive rfl hname hargs (fun p hp => ?_) ?_
    · exact Comparison.ends_run (fun _ => rfl) (hassembles.primitives name p hp) hargs
    · intro f f' _ _ input input' hinput
      exact (Machine.gives_applyLlm (fun _ _ => rfl) f input).follows (fun _ _ => trivial)
        (Machine.gives_applyLlm (fun _ _ => rfl) f' input') hinput
  tools names name args args' _ hargs :=
    Comparison.ends_callTool (fun _ => rfl) rfl Table.all_empty name hargs
  models _ h := nomatch h
  types _ _ := rfl

/-- What the first declarations of an accepted program are by themselves is accepted, with types
that the rest refines. -/
theorem check_prefix (hagree : (ofSurface first).AgreesWith (ofSurface (first ++ more)))
    {later : List Definition}
    (hlater : (ofSurface (first ++ more)).definitions = (ofSurface first).definitions ++ later)
    {limit : Nat} {types : Table Ty}
    (h : ((ofSurface (first ++ more)).check limit).outcome? = some (.ok types)) :
    ∃ types', ((ofSurface first).check limit).outcome? = some (.ok types') ∧
      ∃ q : Substitution, ∀ d ∈ (ofSurface first).definitions,
        d.name ∉ later.map Definition.name →
          ∃ t, types'.get? d.name = some t ∧ types.get? d.name = some (q.apply t) := by
  rw [outcome?_check] at h
  obtain ⟨⟨r, c₂⟩, hrun, hr⟩ := Option.map_eq_some_iff.1 h
  cases r with
  | error e => cases hr
  | ok entered =>
    cases hr
    rw [hlater] at hrun
    obtain ⟨entered₁, c₁, hfirst, hrest⟩ := Checker.checkDefinitions_append hrun
    -- The first definitions are checked alike with the tables of the first declarations.
    have hstart : Checker.Alike [] (.ofSignature (ofSurface (first ++ more)).toSignature)
        (.ofSignature (ofSurface first).toSignature) := ⟨List.forall_mem_nil _, rfl, rfl⟩
    obtain ⟨-, -, c₁', hfirst', halike⟩ :=
      Checker.matches_checkDefinitions limit agreeOn_common .empty
      (inOrder_common hagree) _ _ hstart _ _ hfirst
    -- What is learned from the later ones is added to what was known.
    have horder := inOrder_ofSurface (first ++ more)
    rw [hlater, Definition.inOrder_append_iff] at horder
    obtain ⟨-, ⟨q, hq⟩, -⟩ :=
      Checker.matches_checkDefinitions limit (Signature.agreeOn_admits _) entered₁
      horder.2 c₁ c₁ halike.self _ _ hrest
    refine ⟨entered₁.map c₁'.resolved, ?_, q, ?_⟩
    · rw [outcome?_check, hfirst']
      rfl
    · intro d hd hname
      obtain ⟨t, ht⟩ : ∃ t, entered₁.get? d.name = some t := by
        obtain ⟨given, hgiven, rfl⟩ := Checker.exists_of_checkDefinitions hfirst
        exact Option.isSome_iff_exists.1 (Checker.isSome_get?_entered (hgiven ▸ hd))
      refine ⟨c₁'.resolved t, ?_, ?_⟩
      · rw [Table.get?_map, ht, Option.map_some]
      · rw [Table.get?_map, Checker.get?_of_checkDefinitions hrest hname, ht, Option.map_some,
          ← halike.resolved, Checker.resolved, hq, Substitution.apply_compose]
        rfl

/-- What the first declarations of a program are by themselves has the values that it has as a
part. -/
theorem evaluate_prefix (hagree : (ofSurface first).AgreesWith (ofSurface (first ++ more)))
    {later : List Definition}
    (hlater : (ofSurface (first ++ more)).definitions = (ofSurface first).definitions ++ later)
    {depth : Nat} {values : List (Definition × Value)} {s : Session}
    (h : Session.evaluateDefinitions (.ofModule (ofSurface (first ++ more)) .standard) depth
      (ofSurface (first ++ more)).definitions .empty = some ((values, none), s)) :
    ∃ values' s' rest,
      Session.evaluateDefinitions (.ofModule (ofSurface first) .standard) depth
        (ofSurface first).definitions .empty = some ((values', none), s') ∧
      values = values' ++ rest ∧ values'.map Prod.fst = (ofSurface first).definitions := by
  rw [hlater] at h
  obtain ⟨values₁, rest, s₁, hfirst, rfl, hnames⟩ := Session.evaluateDefinitions_append h
  have hstep : (shortened first more).InStep [] .empty .empty := ⟨List.forall_mem_nil _, trivial⟩
  obtain ⟨values', failure', s', hfirst', hvalues, hfailure⟩ :=
    Comparison.follows_evaluateDefinitions
    (Comparison.definitionsAlike_refl fair_shortened (inOrder_common hagree)) hstep hfirst
  have heq : values₁ = values' := by
    refine List.forall₂_eq_eq_eq ▸ hvalues.imp ?_
    rintro ⟨d, v⟩ ⟨d', v'⟩ ⟨rfl, names, hv⟩
    exact congrArg (Prod.mk d) (hv.eq fun _ => rfl)
  cases hfailure
  exact ⟨values', s', rest, hfirst', by rw [heq], by rw [← heq, hnames]⟩

/-- Later declarations do not change earlier ones, as far as they leave alone what these mention. -/
theorem prefix_succeeds (first more : List Surface.Declaration)
    (hagree : (ofSurface first).AgreesWith (ofSurface (first ++ more)))
    (herrors : (ofSurface (first ++ more)).errors = [])
    (limit : Nat) (types : Table Ty)
    (hcheck : ((ofSurface (first ++ more)).check limit).outcome? = some (.ok types))
    (depth : Nat) (values : List (Definition × Value)) (s : Session)
    (hrun : Session.evaluateDefinitions (.ofModule (ofSurface (first ++ more)) .standard) depth
      (ofSurface (first ++ more)).definitions .empty = some ((values, none), s)) :
    (ofSurface first).errors = [] ∧
      ∃ (later : List Definition) (types' : Table Ty) (values' rest : List (Definition × Value))
        (s' : Session) (q : Substitution),
        (ofSurface (first ++ more)).definitions = (ofSurface first).definitions ++ later ∧
        ((ofSurface first).check limit).outcome? = some (.ok types') ∧
        Session.evaluateDefinitions (.ofModule (ofSurface first) .standard) depth
          (ofSurface first).definitions .empty = some ((values', none), s') ∧
        values = values' ++ rest ∧ values'.map Prod.fst = (ofSurface first).definitions ∧
        ∀ d ∈ (ofSurface first).definitions, d.name ∉ later.map Definition.name →
          ∃ t, types'.get? d.name = some t ∧ types.get? d.name = some (q.apply t) := by
  have hextends := extends_ofSurface first more
  obtain ⟨later, hlater⟩ := hextends.definitions
  obtain ⟨types', hcheck', q, htypes⟩ := check_prefix hagree hlater.symm hcheck
  obtain ⟨values', s', rest, hrun', hvalues, hnames⟩ := evaluate_prefix hagree hlater.symm hrun
  have hnone := List.prefix_nil.1 (herrors ▸ hextends.errors)
  exact ⟨hnone, later, types', values', rest, s', q, hlater.symm, hcheck', hrun', hvalues,
    hnames, htypes⟩

/-- What is reported of a definition. -/
structure Shown where
  name : String
  value : String
  type : Option String
  deriving DecidableEq

/-- What is reported of a program that is accepted and has values. -/
def shown? (ds : List Surface.Declaration) : Option (List Shown) :=
  if (ofSurface ds).errors.isEmpty then
    match ((ofSurface ds).check 12).outcome?, runAlone (ofSurface ds) with
    | some (.ok types), some ((values, none), _) =>
      some (values.map fun (d, v) => ⟨d.name, v.render, (types.get? d.name).map Ty.render⟩)
    | _, _ => none
  else none

theorem of_shown? {ds : List Surface.Declaration} {shown : List Shown}
    (h : shown? ds = some shown) : (ofSurface ds).errors = [] ∧
      ∃ types values s, ((ofSurface ds).check 12).outcome? = some (.ok types) ∧
        runAlone (ofSurface ds) = some ((values, none), s) := by
  rw [shown?] at h
  split at h
  next herrors =>
    split at h
    next types values s hcheck hrun =>
      exact ⟨List.isEmpty_iff.1 herrors, types, values, s, hcheck, hrun⟩
    next => cases h
  next => cases h

/-- The empty list. -/
def emptyList : List Surface.Declaration :=
  (Surface.parse "(data (List 'a) Nil (Cons 'a (List 'a)))
(def nil Nil)").declarations

/-- A list that the empty one is part of, whose elements are numbers. -/
def oneNumber : List Surface.Declaration :=
  (Surface.parse "(def one (Cons 1 nil))").declarations

theorem prefix_succeeds_emptyList :
    ∃ types values s, ((ofSurface (emptyList ++ oneNumber)).check 12).outcome? = some (.ok types) ∧
      runAlone (ofSurface (emptyList ++ oneNumber)) = some ((values, none), s) ∧
      ∃ types' values' s' rest, ((ofSurface emptyList).check 12).outcome? = some (.ok types') ∧
        runAlone (ofSurface emptyList) = some ((values', none), s') ∧ values = values' ++ rest ∧
        ∃ t, types'.get? "nil" = some t ∧
          ∃ q : Substitution, types.get? "nil" = some (q.apply t) := by
  obtain ⟨hsome, hagree, hnil, hone⟩ : (shown? (emptyList ++ oneNumber)).isSome = true ∧
      (ofSurface emptyList).AgreesWith (ofSurface (emptyList ++ oneNumber)) ∧
      (ofSurface emptyList).definitions.map Definition.name = ["nil"] ∧
      (ofSurface (emptyList ++ oneNumber)).definitions.map Definition.name = ["nil", "one"] := by
    decide +kernel
  obtain ⟨shown, hshown⟩ := Option.isSome_iff_exists.1 hsome
  obtain ⟨herrors, types, values, s, hcheck, hrun⟩ := of_shown? hshown
  obtain ⟨-, later, types', values', rest, s', q, hlater, hcheck', hrun', hvalues, -, htypes⟩ :=
    prefix_succeeds emptyList oneNumber hagree herrors 12 types hcheck 12 values s hrun
  rw [hlater, List.map_append, hnil] at hone
  have hlaterNames : later.map Definition.name = ["one"] := List.tail_eq_of_cons_eq hone
  obtain ⟨d, hd, hname⟩ := List.mem_map.1 (hnil ▸ List.mem_singleton_self "nil")
  obtain ⟨t, ht, ht'⟩ := htypes d hd (by rw [hlaterNames, hname]; decide)
  rw [hname] at ht ht'
  exact ⟨types, values, s, hcheck, hrun, types', values', s', rest, hcheck', hrun', hvalues,
    t, ht, q, ht'⟩

/-- What is reported of a program, and of a first part of it by itself. -/
def shownWithPart (first more : String) : Option (List Shown) × Option (List Shown) :=
  (shown? ((Surface.parse first).declarations ++ (Surface.parse more).declarations),
    shown? (Surface.parse first).declarations)

/-- Later declarations may change what is reported of earlier ones: by another constructor of a
name, by another type of a primitive, and by a model for a primitive that nothing implements. -/
theorem later_changes_earlier :
    shownWithPart "(data Box (Box Int)) (def box Box)" "(data Box Box)" =
      (some [⟨"box", "Box", "Box"⟩], some [⟨"box", "<constructor Box>", "(-> Int Box)"⟩]) ∧
    shownWithPart "(prim-op p : (-> Int Int)) (def f (fn (x : Int) (p x)))"
    "(prim-op p : (-> Int String))" =
      (some [⟨"f", "<closure>", "(-> Int String)"⟩], some [⟨"f", "<closure>", "(-> Int Int)"⟩]) ∧
    shownWithPart "(prim-op llm.f : (-> Int Int)) (def g llm.f)"
    "(def f \x7b-# LLM #-\x7d (fn (x : Int) x))" =
      (some [⟨"g", "<prim llm.f>", "(-> Int Int)"⟩,
        ⟨"f", "<prim llm.f>", "(-> Int Int)"⟩], none) := by
  decide +kernel

end Module

end PolyLambda
