import PolyLambda.Proofs.Evaluation.Builtins
import PolyLambda.Proofs.Evaluation.Sound
import PolyLambda.Proofs.Module.Scoped
import PolyLambda.Proofs.Typing.Plain
import PolyLambda.Proofs.Typing.Sound
import PolyLambda.Proofs.Typing.Trace

/-!
# Programs that do not go wrong

A program that is its own, without errors and warnings, and that the checker accepts in a faithful
run fails only for reasons that types do not exclude: it divides by zero, has no branch for a value,
or uses a definition too early.
-/

namespace PolyLambda

open Checker

namespace Module

/-- Whether a module leaves nothing to its host but the primitives of the language. -/
structure SelfContained (m : Module) : Prop where
  tools : ∀ d ∈ m.definitions, d.body.tools = []
  llmFunctions : m.llmFunctions.names = []
  primOps : m.primOps = []

instance (m : Module) : Decidable m.SelfContained :=
  decidable_of_iff
    ((∀ d ∈ m.definitions, d.body.tools = []) ∧ m.llmFunctions.names = [] ∧ m.primOps = [])
    ⟨fun ⟨tools, llmFunctions, primOps⟩ => ⟨tools, llmFunctions, primOps⟩,
      fun ⟨tools, llmFunctions, primOps⟩ => ⟨tools, llmFunctions, primOps⟩⟩

theorem coherent_initial (m : Module) (rounds : Nat) : m.initial.Coherent rounds :=
  fun _ h => absurd h List.not_mem_nil

/-- The types that a check reports are those entered for the definitions, as far as they are known
at the end. -/
theorem exists_returns_of_check {m : Module} {limit : Nat} {types : Table Ty}
    (h : (m.check limit).outcome? = some (.ok types)) :
    ∃ (types' : Table Ty) (c : Checker), Returns m.toSignature m.task m.initial types' c ∧
      types = types'.map c.resolved := by
  obtain ⟨⟨r, c⟩, hrun, rfl⟩ := Option.map_eq_some_iff.1 h
  obtain ⟨types', hreturns, hresolved⟩ := exists_returns_of_checkProgram hrun
  exact ⟨types', c, hreturns, hresolved⟩

/-- The truth values of an orderly module are constructors of its data type. -/
theorem Orderly.exists_instance_bool {m : Module} (h : m.Orderly) (b : Bool) :
    ∃ i : m.toSignature.Instance (if b then "True" else "False"),
      i.fields = [] ∧ i.result = .data "Bool" [] := by
  have hlisted : ∃ c ∈ Prelude.boolDecl.constructors,
      c.name = (if b then "True" else "False") ∧ c.fields = [] := by
    revert b
    decide
  obtain ⟨c, hc, hname, hfields⟩ := hlisted
  have hclosed : ∀ v ∈ Ty.freeVarsAll c.fields, v ∈ Prelude.boolDecl.params := by
    rw [hfields]
    rintro _ ⟨⟩
  have htype := h.bools c hc
  rw [hname] at htype
  refine ⟨⟨Prelude.boolDecl, c, .names, htype, hclosed⟩, ?_, Signature.Instance.result_eq _⟩
  show c.fields.map (Ty.under .names) = []
  rw [hfields, List.map_nil]

theorem Orderly.hasType_bool {m : Module} (h : m.Orderly) (host : Host)
    (G : String → Option Nameless) (b : Bool) :
    (Value.bool b).HasType (.ofModule m host) G (.data "Bool" []) := by
  obtain ⟨i, hfields, hresult⟩ := h.exists_instance_bool b
  exact Value.hasType_saturated_nil i hfields hresult

/-- In a faithful check every definition gets a type of its body. -/
theorem exists_types_of_check {m : Module} (hsig : m.toSignature.WellFormed)
    (hscoped : Definition.Scoped [] m.definitions) (htools : ∀ d ∈ m.definitions, d.body.tools = [])
    {rounds : Nat} (hfaithful : m.Faithful rounds) {limit : Nat} {types : Table Ty}
    (hcheck : (m.check limit).outcome? = some (.ok types)) :
    ∃ G : String → Option Nameless, ∀ d ∈ m.definitions, ∃ type,
      G d.name = some type ∧ d.body.HasType m.toSignature G [] type := by
  obtain ⟨types', c, hreturns, -⟩ := exists_returns_of_check hcheck
  have hready : m.task.Ready rounds m.initial := ⟨m.coherent_initial rounds, ⟨[], hscoped⟩, htools⟩
  obtain ⟨-, hcoherent, -, hbodies⟩ := (verified_types hsig).returns hfaithful hready hreturns
  refine ⟨c.globalsUnder (c.valuation rounds .names), fun d hd => ?_⟩
  obtain ⟨t, ht, -, hbody⟩ := hbodies d hd
  refine ⟨_, ?_, hbody _ (hcoherent.models .names)⟩
  rw [globalsUnder, ht, Option.map_some]

end Module

/-! ## The whole of it -/

theorem exists_ofSurface_of_ofSource {source : String} {m : Module}
    (h : Module.ofSource source = .ok m) : ∃ ds, m = .ofSurface ds ∧ m.errors = [] := by
  obtain ⟨-, rfl, herrors⟩ := of_ofSource_eq_ok h
  exact ⟨_, rfl, herrors⟩

/-- A self-contained program without warnings that is accepted fails, when its definitions are
evaluated in order, for no other reason than those that types do not exclude; provided that it
writes no type variables, apart from the parameters of data types, or that what the checker learned
of it can be relied on. -/
theorem permitted_of_failure {source : String} {m : Module} (hm : Module.ofSource source = .ok m)
    (hwarnings : m.warnings = []) (hself : m.SelfContained)
    (hfaithful : m.typeNames = [] ∨ ∃ rounds, m.Faithful rounds) {limit : Nat} {types : Table Ty}
    (hcheck : (m.check limit).outcome? = some (.ok types)) {host : Host}
    (hhost : host.KeepsBuiltins) {depth : Nat} {values : List (Definition × Value)}
    {d : Definition} {e : EvalError} {s : Session}
    (hrun : Session.evaluateDefinitions (.ofModule m host) depth m.definitions .empty =
      some ((values, some (d, e)), s)) : e.Permitted := by
  obtain ⟨ds, rfl, herrors⟩ := exists_ofSurface_of_ofSource hm
  obtain ⟨rounds, hrounds⟩ := hfaithful.elim
    (fun hnone => ⟨1, Module.faithful_of_typeNames_eq_nil hnone⟩) id
  have horderly := Module.orderly_ofSurface ds herrors hwarnings
  obtain ⟨G, htypes⟩ := Module.exists_types_of_check (Module.wellFormed_ofSurface ds)
    horderly.ordered hself.tools hrounds hcheck
  -- Only built-in primitives have types here, so a host that keeps those gives what is called.
  have himplements (G : String → Option Nameless) :
      (Machine.ofModule (.ofSurface ds) host).Implements G :=
    Machine.implements_of_keepsBuiltins
      (Module.primitiveTypes_ofSurface ds hself.llmFunctions hself.primOps) hhost
      (horderly.hasType_bool host G)
  have hempty : Machine.GlobalsHaveTypes (Machine.ofModule (.ofSurface ds) host)
      (typesAmong [] G) Session.empty.globals :=
    fun _ _ h => absurd (typesAmong_eq_some h).1 List.not_mem_nil
  exact (Session.permits_evaluateDefinitions himplements horderly.ordered htypes hempty
    hrun).2 _ rfl

/-! ## Programs that fail -/

/-- Whether a program without warnings that is its own is accepted. -/
structure Module.Accepted (source : String) (m : Module) : Prop where
  ofSource : Module.ofSource source = .ok m
  warnings : m.warnings = []
  selfContained : m.SelfContained
  check : ∃ limit types, (m.check limit).outcome? = some (.ok types)

/-- Whether a program comes to an error with nothing but the primitives of the language. -/
def Module.FailsWith (m : Module) (e : EvalError) : Prop :=
  ∃ depth values d s, Session.evaluateDefinitions
  (.ofModule m .standard) depth m.definitions .empty =
    some ((values, some (d, e)), s)

/-- Whether a program that parses without errors is resolved without errors and warnings, and leaves
nothing to its host. -/
def Module.isAcceptable (source : String) (m : Module) : Bool :=
  (Surface.parse source).errors.isEmpty && !m.hasErrors && m.warnings.isEmpty &&
    decide m.SelfContained

theorem accepted_of_isAcceptable {source : String} {limit : Nat} {types : Table Ty}
    (h : (Module.recover source).isAcceptable source = true)
    (hcheck : ((Module.recover source).check limit).outcome? = some (.ok types)) :
    (Module.recover source).Accepted source := by
  simp only [Module.isAcceptable, Bool.and_eq_true, Bool.not_eq_true', decide_eq_true_eq] at h
  obtain ⟨⟨⟨hparse, hscope⟩, hwarnings⟩, hself⟩ := h
  exact ⟨ofSource_eq_ok hparse hscope, List.isEmpty_iff.1 hwarnings, hself, limit, types, hcheck⟩

/-- The error of a program that is accepted, if both can be found out with a limit. -/
def acceptedFailure? (limit : Nat) (source : String) : Option EvalError :=
  let m := Module.recover source
  match m.isAcceptable source, (m.check limit).outcome? with
  | true, some (.ok _) =>
    (Session.evaluateDefinitions (.ofModule m .standard) limit m.definitions .empty).bind
      fun r => r.1.2.map Prod.snd
  | _, _ => none

theorem accepted_of_acceptedFailure? {limit : Nat} {source : String} {e : EvalError}
    (h : acceptedFailure? limit source = some e) :
    (Module.recover source).Accepted source ∧ (Module.recover source).FailsWith e := by
  rw [acceptedFailure?] at h
  split at h
  next types hacceptable htypes =>
    constructor
    · exact accepted_of_isAcceptable hacceptable htypes
    · obtain ⟨⟨⟨values, failure⟩, s⟩, hrun, h⟩ := Option.bind_eq_some_iff.1 h
      obtain ⟨⟨d, e'⟩, hfailure, rfl⟩ := Option.map_eq_some_iff.1 h
      refine ⟨limit, values, d, s, ?_⟩
      rw [hrun, show failure = some (d, e') from hfailure]
  next => cases h

/-- The second quotient is by the first one, which is zero. -/
def dividingSource : String :=
  "(def twice : (forall 'a (-> (-> 'a 'a) 'a 'a)) (tfn 'a (fn f (fn x (f (f x))))))
(def main (twice @Int (fn (n : Int) (/ 1 n)) 5))"

theorem permitted_of_failure_twice :
    ∃ m e, Module.Accepted dividingSource m ∧ m.Faithful 1 ∧ m.FailsWith e ∧ e.Permitted := by
  obtain ⟨hfailure, hwithin⟩ : (acceptedFailure? 12 dividingSource).isSome = true ∧
      (Module.recover dividingSource).faithfulWithin 12 1 = true := by decide +kernel
  obtain ⟨e, he⟩ := Option.isSome_iff_exists.1 hfailure
  obtain ⟨haccepted, hfails⟩ := accepted_of_acceptedFailure? he
  have hfaithful : (Module.recover dividingSource).Faithful 1 :=
    (Module.faithfulWithin_iff.1 hwithin).2
  obtain ⟨limit, types, hcheck⟩ := haccepted.check
  obtain ⟨depth, values, d, s, hrun⟩ := hfails
  refine ⟨_, e, haccepted, hfaithful, ⟨depth, values, d, s, hrun⟩, ?_⟩
  exact permitted_of_failure haccepted.ofSource haccepted.warnings haccepted.selfContained
    (.inr ⟨1, hfaithful⟩) hcheck Host.keepsBuiltins_standard hrun

/-- Two quantified types are compared that are not the same. -/
def comparingSource : String :=
  "(def i (tfn 'a (fn (x : Int) x)))
(def f : (forall 'b (-> Int 'b)) i)
(def main (++ \"x\" (f @String 3)))"

/-- A type abstraction binds a name that is in scope. -/
def shadowingSource : String :=
  "(def k (tfn 'a (fn (x : 'a) (tfn 'a (fn (y : 'a) x)))))
(def main (+ 1 (k @String \"s\" @Int 5)))"

/-- The variable of a type abstraction gets into the type of a variable around it. -/
def escapingSource : String :=
  "(data (M 'b) (Mk (-> 'b (forall 'a (-> 'a 'a)))))
(def m (Mk (fn z (tfn 'a (fn (x : 'a) z)))))
(def main (case m ((Mk f) (++ \"\" (f 5 @String \"s\")))))"

/-- The program is accepted, and its evaluation ends as that of an accepted program should not. -/
def GoesWrong (source : String) : Prop :=
  ∃ m e, Module.Accepted source m ∧ m.FailsWith e ∧ ¬ e.Permitted

theorem goesWrong_of_acceptedFailure? {source : String}
    (h : (acceptedFailure? 12 source).any (fun e => !decide e.Permitted) = true) :
    GoesWrong source := by
  cases he : acceptedFailure? 12 source with
  | none =>
    rw [he] at h
    cases h
  | some e =>
    rw [he, Option.any_some, Bool.not_eq_true', decide_eq_false_iff_not] at h
    obtain ⟨haccepted, hfails⟩ := accepted_of_acceptedFailure? he
    exact ⟨_, e, haccepted, hfails, h⟩

/-- The checker accepts programs that it cannot be relied on for. -/
theorem accepted_programs_go_wrong :
    GoesWrong comparingSource ∧ GoesWrong shadowingSource ∧ GoesWrong escapingSource := by
  refine ⟨?_, ?_, ?_⟩
  all_goals exact goesWrong_of_acceptedFailure? (by decide +kernel)

end PolyLambda
