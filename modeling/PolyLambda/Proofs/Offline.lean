import PolyLambda.Proofs.Dangling

/-!
# Without a model

Where the model fails every call, a function that it is to compute returns its argument. So one may
as well write the identity in its place (`Module.offline`): the program has the same values, up to
the functions in them that the model would compute, and fails at the same definition if at all
(`evaluate_offline`).

Such functions are values like others. They are stored, captured and passed on, and applied to what
has no prompt; nothing tells them from the identity but that they can be applied to a type, and that
tools and primitives of the host may look at them. Programs that use these are left out.
-/

namespace PolyLambda

/-! ## Programs without model functions -/

def Mention.isConstant : Mention → Bool
  | .constructor _ | .primitive _ => true
  | .tool _ | .typeArgument => false

/-- The definition by the identity, if a model is to compute it. -/
def Definition.offline (d : Definition) : Definition :=
  if (d.pragmas.get? llmPragma).isSome then { d with body := .lam none (.var 0) } else d

@[simp] theorem Definition.offline_name (d : Definition) : d.offline.name = d.name := by
  rw [offline]
  split <;> rfl

def Declaration.offline : Declaration → Declaration
  | .definition d => .definition d.offline
  | other => other

namespace Module

/-- The module with the identity in the place of each function that a model is to compute. -/
def offline (m : Module) : Module :=
  { m with declarations := m.declarations.map Declaration.offline }

theorem definitions_offline (m : Module) :
    m.offline.definitions = m.definitions.map Definition.offline := by
  rw [definitions, definitions, offline, List.filterMap_map, List.map_filterMap]
  congr 1
  funext d
  cases d <;> rfl

/-- The definitions are all that changes. -/
theorem ofModule_offline (m : Module) (host : Host) :
    Machine.ofModule m.offline host = .ofModule m host := by
  rw [Machine.ofModule, Machine.ofModule, offline, List.filterMap_map]
  congr 2
  funext d
  cases d <;> rfl

/-- Whether a module mentions constructors and primitives only: no tools, and no types as
arguments. -/
def OnlyConstants (m : Module) : Prop :=
  ∀ d ∈ m.definitions, ∀ x ∈ d.body.mentions, x.isConstant = true

instance (m : Module) : Decidable m.OnlyConstants :=
  inferInstanceAs (Decidable (∀ d ∈ m.definitions, ∀ x ∈ d.body.mentions, x.isConstant = true))

/-- Whether the values of definitions are those of the definitions without model functions, up to
the functions in `models`, and the same one fails if any does. -/
structure SameOffline (models : String → Bool)
    (r r' : List (Definition × Value) × Option (Definition × EvalError)) : Prop where
  values : List.Forall₂ (fun x x' => x'.1 = x.1.offline ∧
    x.2.offline models = x'.2.offline models ∧ (x.2.IsData ∨ x'.2.IsData → x.2 = x'.2)) r.1 r'.1
  failure : Option.Rel (fun x x' => x'.1 = x.1.offline) r.2 r'.2

end Module

namespace Machine

/-! ## A machine and itself, up to model functions -/

/-- A machine compared with itself, where the functions that a model computes count as the
identity. -/
def unmodelled (m : Machine) : Comparison where
  left := m
  right := m
  models name := (m.llmFunction? name).isSome
  allowed
    | .constructor _ => True
    | .primitive name => ∀ e, m.operation name = .error e → ¬ e.Dangling
    | .tool _ | .typeArgument => False
  histories _ _ := True

/-- Whether the primitives of a machine look at nothing but data and its model never answers. -/
structure Silent (m : Machine) : Prop where
  primitives : ∀ name p, m.host.primitive? name = some p → p.OnData
  llm : ∀ history call, m.host.llm history call = none
  /-- The model functions are not implemented otherwise. -/
  models : ∀ name, (m.llmFunction? name).isSome = true → m.host.primitives.get? name = none

section

variable {m : Machine} {names : List String}

/-- A model that does not answer leaves the argument. -/
theorem gives_applyLlm (hllm : ∀ history call, m.host.llm history call = none) (f : LlmFunction)
    (input : Value) : Comparison.Gives input (m.applyLlm f input) := by
  intro history
  rw [applyLlm]
  split
  next => exact ⟨history, rfl⟩
  next prompt _ =>
    refine ⟨history ++ [m.llmCall f prompt], ?_⟩
    rw [LimitedState.outcome?_bind, askLlm, LimitedState.outcome?_modifyGet, hllm]
    rfl

theorem operation_of_silent (hm : m.Silent) {name : String}
    (hname : (m.llmFunction? name).isSome = true) : m.operation name = .ok .llm :=
  operation_eq_ok_iff.2 (.inr ⟨hm.models name hname, hname, rfl⟩)

theorem returns_of_silent (hm : m.Silent) {name : String}
    (hname : (m.llmFunction? name).isSome = true) :
    m.Returns name := by
  obtain ⟨f, hf⟩ := Option.isSome_iff_exists.1 hname
  intro op hop
  rw [operation_of_silent hm hname] at hop
  cases hop
  refine ⟨rfl, fun v => ?_⟩
  simp only [runPrimitive, Operation.llm, hf]
  exact gives_applyLlm hm.llm f v

theorem fair_unmodelled (hm : m.Silent) : m.unmodelled.Fair where
  constructors _ _ := rfl
  primitives name hname := Comparison.ends_self hname
  run names name op args args' hname hargs := by
    refine Comparison.follows_runPrimitive rfl hname hargs (fun p hp => ?_) ?_
    · refine (hm.primitives name p hp _ args args' hargs.same).mono ?_
      rintro v _ ⟨hdata, rfl⟩
      exact .refl (.of_isData hdata)
    · intro f f' _ _ input input' hinput
      exact (gives_applyLlm hm.llm f input).follows (fun _ _ => trivial)
        (gives_applyLlm hm.llm f' input') hinput
  tools _ _ _ _ htool _ := htool.elim
  models name hname := ⟨fun _ _ => trivial, returns_of_silent hm hname, returns_of_silent hm hname⟩
  types h _ := h.elim

/-! ## Functions that a model computes -/

/-- A function that a model computes is as good as the identity. -/
theorem alike_identity (hm : m.Silent) {name : String}
    (hname : (m.llmFunction? name).isSome = true) :
    m.unmodelled.Alike names (.prim name .llm []) .identity ∧
      m.unmodelled.Alike names .identity (.prim name .llm []) := by
  have hop := operation_of_silent hm hname
  have hsame : (Value.prim name .llm []).offline m.unmodelled.models = .identity := if_pos hname
  have hprim : m.unmodelled.Sound names (.prim name .llm []) :=
    .prim ⟨hop, hop⟩ Nat.zero_lt_one nofun
  have hidentity : m.unmodelled.Sound names .identity := .closure nofun Nat.zero_lt_one
  exact ⟨⟨hsame, hprim, hidentity⟩, ⟨hsame.symm, hidentity, hprim⟩⟩

theorem evaluate_prim_of_silent (hm : m.Silent) {name : String}
    (hname : (m.llmFunction? name).isSome = true) (globals : Globals) (limit : Nat) (env : Env) :
    m.evaluate globals (limit + 1) (.prim name) env = pure (.prim name .llm []) := by
  simp only [evaluate, operation_of_silent hm hname]
  rfl

/-- Whether the body of a definition that a model is to compute is a primitive of the model. -/
def Models (m : Machine) (d : Definition) : Prop :=
  (d.pragmas.get? llmPragma).isSome = true →
    ∃ name, d.body = .prim name ∧ (m.llmFunction? name).isSome = true

/-- The evaluations of a definition and of what stands for it without a model follow each other. -/
theorem bodiesAlike_offline (hm : m.Silent) {d : Definition} (hd : m.Models d)
    (hwithin : d.body.Within m.unmodelled.allowed names 0) (limit : Nat) :
    m.unmodelled.BodiesAlike names limit d.body d.offline.body ∧
      m.unmodelled.BodiesAlike names limit d.offline.body d.body := by
  rw [Definition.offline]
  split
  next hpragma =>
    obtain ⟨name, hbody, hname⟩ := hd hpragma
    obtain ⟨hleft, hright⟩ := alike_identity hm hname
    rw [hbody]
    cases limit with
    | zero =>
      exact ⟨fun _ _ _ => Comparison.follows_exhausted, fun _ _ _ => Comparison.follows_exhausted⟩
    | succ limit =>
      constructor
      · intro globals globals' _
        show m.unmodelled.Follows _ (m.evaluate globals (limit + 1) (.prim name) []) _
        rw [evaluate_prim_of_silent hm hname]
        exact Comparison.follows_pure hleft
      · intro globals globals' _
        show m.unmodelled.Follows _ _ (m.evaluate globals' (limit + 1) (.prim name) [])
        rw [evaluate_prim_of_silent hm hname]
        exact Comparison.follows_pure hright
  next =>
    have hrefl : m.unmodelled.BodiesAlike names limit d.body d.body :=
      Comparison.bodiesAlike_refl (fair_unmodelled hm) hwithin
    exact ⟨hrefl, hrefl⟩

theorem definitionsAlike_offline (hm : m.Silent) {ds : List Definition} (hds : ∀ d ∈ ds, m.Models d)
    (horder : Definition.InOrder m.unmodelled.allowed names ds) (limit : Nat) :
    m.unmodelled.DefinitionsAlike limit (fun d d' => d' = d.offline) names ds
        (ds.map Definition.offline) ∧
      m.unmodelled.DefinitionsAlike limit (fun d' d => d' = d.offline) names
        (ds.map Definition.offline) ds := by
  induction ds generalizing names with
  | nil => exact ⟨trivial, trivial⟩
  | cons d ds ih =>
    obtain ⟨hd, hds⟩ := List.forall_mem_cons.1 hds
    obtain ⟨hbody, hbody'⟩ := bodiesAlike_offline hm hd horder.1 limit
    obtain ⟨hrest, hrest'⟩ := ih hds horder.2
    have hname := d.offline_name
    refine ⟨⟨hname.symm, rfl, hbody, hrest⟩, hname, rfl, ?_, ?_⟩
    · rwa [hname]
    · rwa [hname]

/-- Definitions and what stands for them without a model are evaluated to the same. -/
theorem sameOffline_evaluateDefinitions (hm : m.Silent) {ds : List Definition}
    (hds : ∀ d ∈ ds, m.Models d) (horder : Definition.InOrder m.unmodelled.allowed [] ds)
    (limit : Nat) :
    Option.Rel (fun r r' => Module.SameOffline (fun name => (m.llmFunction? name).isSome) r.1 r'.1)
      (Session.evaluateDefinitions m limit ds .empty)
      (Session.evaluateDefinitions m limit (ds.map Definition.offline) .empty) := by
  obtain ⟨halike, halike'⟩ := definitionsAlike_offline hm hds horder limit
  have hstep : m.unmodelled.InStep [] .empty .empty := ⟨List.forall_mem_nil _, trivial⟩
  cases hrun : Session.evaluateDefinitions m limit ds .empty with
  | none =>
    cases hrun' : Session.evaluateDefinitions m limit (ds.map Definition.offline) .empty with
    | none => exact .none
    | some r' =>
      obtain ⟨_, _, _, hback, -⟩ := Comparison.follows_evaluateDefinitions halike' hstep hrun'
      cases hrun.symm.trans hback
  | some r =>
    obtain ⟨⟨values, failure⟩, s⟩ := r
    obtain ⟨values', failure', s', hrun', hvalues, hfailure⟩ :=
      Comparison.follows_evaluateDefinitions halike hstep hrun
    rw [show Session.evaluateDefinitions m limit (ds.map Definition.offline) .empty = _ from hrun']
    refine .some ⟨hvalues.imp ?_, ?_⟩
    · rintro x x' ⟨hd, names, hv⟩
      refine ⟨hd, hv.same, ?_⟩
      rintro (hdata | hdata)
      · exact (hdata.of_offline (hv.same.symm.trans hdata.offline_eq)).symm
      · exact hdata.of_offline (hv.same.trans hdata.offline_eq)
    · cases hfailure with
      | none => exact .none
      | some h => exact .some h.1

end

end Machine

/-! ## Programs -/

namespace Module

/-- No primitive of the language has a name like those of model functions. -/
theorem get?_standard_llmPrimitive (name : String) :
    Host.standard.primitives.get? (llmPrimitive name) = none := by
  have hdollar : ∀ p ∈ Primitive.builtins, p.name.toList.head? = some '$' := by decide
  rw [Option.eq_none_iff_forall_ne_some]
  intro n hn
  have hp : Host.standard.primitive? (llmPrimitive name) =
      some ⟨llmPrimitive name, n.arity, Host.standard.native n⟩ := by
    rw [Host.primitive?, hn, Option.map_some]
  have hname := hdollar _ (Host.mem_builtins_of_primitive?_standard hp)
  dsimp only at hname
  rw [llmPrimitive, String.toList_append] at hname
  cases hname

theorem silent_ofModule (ds : List Surface.Declaration) (tools : Table Tool) {llm : Llm}
    (config : LlmConfig) (hllm : ∀ history call, llm history call = none) :
    (Machine.ofModule (ofSurface ds)
      { Host.standard with tools := tools, llm := llm, config := config }).Silent where
  primitives _ p hp :=
    Primitive.onData_builtins p (Host.mem_builtins_of_primitive?_standard hp)
  llm := hllm
  models name hname := by
    obtain ⟨key, -, rfl⟩ := (isSome_llmFunction?_iff (llmKeyed_ofSurface ds) _).1 hname
    exact get?_standard_llmPrimitive key

/-- Where the model fails every call, the functions that it is to compute may be replaced by the
identity. -/
theorem evaluate_offline (ds : List Surface.Declaration) (tools : Table Tool) (llm : Llm)
    (config : LlmConfig) (hllm : ∀ history call, llm history call = none)
    (hconstants : (ofSurface ds).OnlyConstants) (limit : Nat) :
    let host : Host := { Host.standard with tools := tools, llm := llm, config := config }
    let machine := Machine.ofModule (ofSurface ds) host
    Option.Rel (fun r r' => SameOffline (fun name => (machine.llmFunction? name).isSome) r.1 r'.1)
      (Session.evaluateDefinitions machine limit (ofSurface ds).definitions .empty)
      (Session.evaluateDefinitions (.ofModule (ofSurface ds).offline host) limit
        (ofSurface ds).offline.definitions .empty) := by
  intro host machine
  rw [ofModule_offline, definitions_offline]
  have hsilent : machine.Silent := silent_ofModule ds tools config hllm
  have horder : Definition.InOrder machine.unmodelled.allowed [] (ofSurface ds).definitions := by
    refine (inOrder_ofSurface ds).mono fun d hd x hx hadmitted => ?_
    cases x with
    | constructor => trivial
    | primitive name =>
      exact fun e => not_dangling_operation ds Host.isSome_primitive?_standard hadmitted
    | tool | typeArgument => cases hconstants d hd _ hx
  -- The body under a pragma is a primitive, and only such bodies are replaced by the identity.
  have hmodels : ∀ d ∈ (ofSurface ds).definitions, machine.Models d := by
    intro d hd hpragma
    obtain ⟨hbody, hcontains⟩ := body_eq_of_pragma ds hd hpragma
    exact ⟨_, hbody, (isSome_llmFunction?_iff (llmKeyed_ofSurface ds) host).2
      ⟨d.name, hcontains, rfl⟩⟩
  exact Machine.sameOffline_evaluateDefinitions hsilent hmodels horder limit

/-- A model is to compute `f`, which is stored, taken out again and applied to itself; the last
definition has no value. -/
def boxedSource : String :=
  "(data Box (Box (-> Int Int)))
(def f \x7b-# LLM #-\x7d (fn (x : Int) x))
(def b (Box f))
(def five (case b ((Box g) (g 5))))
(def again (f f))
(def wrong (again 1 2))"

/-- The evaluation of a module with nothing but the primitives of the language. -/
def runAlone (m : Module) :
    Option ((List (Definition × Value) × Option (Definition × EvalError)) × Session) :=
  Session.evaluateDefinitions (.ofModule m .standard) 12 m.definitions .empty

theorem evaluate_offline_boxed :
    ∃ r r', runAlone (recover boxedSource) = some r ∧ r.1.1.length = 4 ∧
      r.1.2.map (fun failure => failure.1.name) = some "wrong" ∧
      runAlone (recover boxedSource).offline = some r' ∧
      SameOffline (fun name =>
        ((Machine.ofModule (recover boxedSource) .standard).llmFunction? name).isSome)
        r.1 r'.1 := by
  obtain ⟨hconstants, hends⟩ : (recover boxedSource).OnlyConstants ∧
      (runAlone (recover boxedSource)).map (fun r =>
        (r.1.1.length, r.1.2.map fun failure => failure.1.name)) = some (4, some "wrong") := by
    decide +kernel
  have hsame : Option.Rel _ (runAlone (recover boxedSource))
    (runAlone (recover boxedSource).offline) :=
    evaluate_offline (Surface.parse boxedSource).declarations .empty .offline .standard
      (fun _ _ => rfl) hconstants 12
  obtain ⟨r, hrun, hr⟩ := Option.map_eq_some_iff.1 hends
  obtain ⟨hlength, hfailure⟩ := Prod.mk.inj hr
  rw [hrun] at hsame
  cases hrun' : runAlone (recover boxedSource).offline with
  | none =>
    rw [hrun'] at hsame
    cases hsame
  | some r' =>
    rw [hrun'] at hsame
    cases hsame with
    | some h => exact ⟨r, r', hrun, hlength, hfailure, rfl, h⟩

end Module

end PolyLambda
