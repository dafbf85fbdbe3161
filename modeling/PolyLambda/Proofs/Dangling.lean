import PolyLambda.Module.OfSource
import PolyLambda.Proofs.Evaluation.Assembled
import PolyLambda.Proofs.Llm.Response
import PolyLambda.Proofs.Module.Mentions
import PolyLambda.Proofs.Typing.Mentions

/-!
# No dangling names

Whatever declarations a program is made of, and however many of them are rejected, what is left of
it has no dangling names: the checker and the evaluator find every variable, global and primitive
that they look for (`not_dangling`), whether the program has a type or not.

For the evaluator this is one half of what it means that a program follows itself: its values are
sound. Ill-typed programs go wrong in many ways, but a branch is entered only with as many fields as
its pattern has variables, and a function with one argument, so no body ever finds too few values
around it.
-/

namespace PolyLambda

/-! ## Answers of a model -/

/-- What is read from the response of a model is data. -/
theorem isData_of_readResponse? {dataTypes : Table DataDecl} {t : Ty}
    {response : String} {v : Value}
    (h : readResponse? dataTypes t response = some v) : v.IsData := by
  cases answers_of_readResponse? h with
  | int n => exact .int n
  | string s => exact .string s
  | constructor => exact .con _ _ nofun

namespace Machine

/-! ## A machine and itself -/

/-- A machine compared with itself, for terms whose primitives it knows. -/
def alone (m : Machine) : Comparison where
  left := m
  right := m
  models _ := false
  allowed
    | .primitive name => ∀ e, m.operation name = .error e → ¬ e.Dangling
    | _ => True
  histories := Eq

section

variable {m : Machine} {names : List String}

theorem follows_applyLlm (f : LlmFunction) {input : Value} (hinput : m.alone.Sound names input) :
    m.alone.Follows (m.alone.Alike names) (m.applyLlm f input) (m.applyLlm f input) := by
  rw [applyLlm]
  split
  next => exact Comparison.follows_pure (.refl hinput)
  next prompt _ =>
    have hask : m.alone.Follows Eq (m.askLlm (m.llmCall f prompt))
      (m.askLlm (m.llmCall f prompt)) := by
      rintro history _ rfl r after ⟨⟩
      exact ⟨_, _, rfl, rfl, rfl⟩
    refine hask.bind ?_
    rintro response _ rfl
    refine Comparison.follows_pure (.refl ?_)
    cases hread : response.bind (readResponse? m.sig.dataTypes f.result) with
    | none => exact hinput
    | some v =>
      obtain ⟨text, -, hv⟩ := Option.bind_eq_some_iff.1 hread
      exact .of_isData (isData_of_readResponse? hv)

/-- A machine whose host only assembles what it returns agrees with itself. -/
theorem fair_alone (hhost : m.host.Assembles) : m.alone.Fair where
  constructors _ _ := rfl
  primitives name hname := Comparison.ends_self hname
  run names name op args args' hname hargs := by
    refine Comparison.follows_runPrimitive rfl hname hargs (fun p hp => ?_) ?_
    · exact Comparison.ends_run (fun _ => rfl) (hhost.primitives name p hp) hargs
    · intro f f' hf hf' input input' hinput
      obtain rfl : f = f' := Option.some.inj (hf.symm.trans hf')
      obtain rfl := hinput.eq fun _ => rfl
      exact follows_applyLlm f hinput.left
  tools names name args args' _ hargs :=
    Comparison.ends_callTool (fun _ => rfl) rfl hhost.tools name hargs
  models _ h := nomatch h
  types _ _ := rfl

end

end Machine

/-- A signature agrees with itself on what has a type. -/
theorem Signature.agreeOn_admits (sig : Signature) : sig.AgreeOn sig.Admits sig where
  constructors _ _ := rfl
  primitives _ h := by
    obtain ⟨t, ht⟩ := Option.isSome_iff_exists.1 h
    exact ⟨t, ht, ht⟩

namespace Module

/-- The machine of a module knows the primitives of the module. -/
theorem not_dangling_operation (ds : List Surface.Declaration) {host : Host}
    (hbuiltins : ∀ p ∈ Primitive.builtins, (host.primitive? p.name).isSome = true) {name : String}
    (hname : (ofSurface ds).primitiveTypes.contains name = true) {e : EvalError}
    (he : (Machine.ofModule (ofSurface ds) host).operation name = .error e) : ¬ e.Dangling := by
  rw [Machine.operation] at he
  split at he
  next => cases he
  next hprimitive =>
    split at he
    next => cases he
    next hllm =>
      split at he
      next =>
        cases he
        exact id
      next hdeclared =>
        rcases exists_of_primitiveTypes ds hname with hbuiltin | hmodel | hprimOp
        · obtain ⟨p, hp, rfl⟩ := List.mem_map.1 hbuiltin
          have hsome := hbuiltins p hp
          rw [Host.primitive?, Option.isSome_map,
            show host.primitives.get? p.name = none from hprimitive] at hsome
          cases hsome
        · exact absurd ((isSome_llmFunction?_iff (llmKeyed_ofSurface ds) host).2 hmodel) hllm
        · exact absurd hprimOp hdeclared

/-- The check of a program never fails because a name is unknown. -/
theorem not_dangling_of_check (ds : List Surface.Declaration) {limit : Nat} {e : TypeError}
    (h : ((ofSurface ds).check limit).outcome? = some (.error e)) : ¬ e.Dangling := by
  rw [outcome?_check] at h
  obtain ⟨⟨r, c⟩, hrun, hr⟩ := Option.map_eq_some_iff.1 h
  have halike : Checker.Alike [] (.ofSignature (ofSurface ds).toSignature)
      (.ofSignature (ofSurface ds).toSignature) := ⟨List.forall_mem_nil _, rfl, rfl⟩
  have hmatches := Checker.matches_checkDefinitions limit (Signature.agreeOn_admits _) .empty
    (inOrder_ofSurface ds) _ _ halike r c hrun
  cases r with
  | ok types => cases hr
  | error e' =>
    cases hr
    exact hmatches

/-- A program finds every variable, global and primitive that it looks for, when it is checked and
when it is evaluated, with a host that puts together what it returns from arguments and data. -/
theorem not_dangling (ds : List Surface.Declaration) (registered : List Primitive)
    (tools : Table Tool) (llm : Llm) (config : LlmConfig)
    (hregistered : ∀ p ∈ registered, p.Assembles) (htools : tools.All Tool.Assembles) :
    (∀ limit e, ((ofSurface ds).check limit).outcome? = some (.error e) → ¬ e.Dangling) ∧
      ∀ limit values d e s,
        Session.evaluateDefinitions
            (.ofModule (ofSurface ds) (registered.foldl Host.withPrimitive
              { Host.standard with tools := tools, llm := llm, config := config }))
            limit (ofSurface ds).definitions .empty = some ((values, some (d, e)), s) →
          ¬ e.Dangling := by
  have hhost := (Host.assembles_standard tools llm config htools).withPrimitives hregistered
  refine ⟨fun limit e => not_dangling_of_check ds, ?_⟩
  intro limit values d e s hrun
  generalize registered.foldl Host.withPrimitive
    { Host.standard with tools := tools, llm := llm, config := config } = host at hhost hrun
  have hinOrder : Definition.InOrder (Machine.ofModule (ofSurface ds) host).alone.allowed []
      (ofSurface ds).definitions := by
    refine (inOrder_ofSurface ds).mono fun d _ x _ hx => ?_
    cases x with
    | primitive name => exact fun e he => not_dangling_operation ds hhost.builtins hx he
    | _ => trivial
  -- The run is compared with itself, so what it ends in is what a fair comparison allows.
  have hfair := Machine.fair_alone (m := .ofModule (ofSurface ds) host) hhost
  have hstep : (Machine.ofModule (ofSurface ds) host).alone.InStep [] .empty .empty :=
    ⟨List.forall_mem_nil _, rfl⟩
  obtain ⟨_, _, _, -, -, hfailure⟩ := Comparison.follows_evaluateDefinitions
    (Comparison.definitionsAlike_refl hfair hinOrder) hstep hrun
  cases hfailure with
  | some h => exact h.2

/-- A primitive that exchanges the fields of a pair. -/
def swap : Primitive where
  name := "swap"
  arity := 1
  run
    | [.con "Pair" arity [first, second]] => .ok (.con "Pair" arity [second, first])
    | _ => .error (.primitiveFailed "swap expects a Pair")

theorem assembles_swap : swap.Assembles := by
  constructor
  · intro args v h
    simp only [swap] at h
    split at h
    next arity first second =>
      cases h
      have hpair : (Value.con "Pair" arity [first, second]).MadeFrom
          [.con "Pair" arity [first, second]] := .arg List.mem_cons_self
      have hfirst := hpair.field List.mem_cons_self
      have hsecond := hpair.field (v := second) (by simp)
      exact .con "Pair" arity (by simp [hfirst, hsecond])
    next => cases h
  · intro args e h
    simp only [swap] at h
    split at h
    next => cases h
    next =>
      cases h
      exact id

/-- A tool that returns its last argument. -/
def lastArgument : Tool :=
  fun args => args.getLast?.elim (.error "no arguments") .ok

theorem assembles_lastArgument : Tool.Assembles lastArgument := by
  intro args v h
  rw [lastArgument] at h
  cases hlast : args.getLast? with
  | none =>
    rw [hlast] at h
    cases h
  | some last =>
    rw [hlast] at h
    cases h
    exact .arg (List.mem_of_getLast? hlast)

/-- The last definition but one is rejected, and the last one has no type: a pair is no function,
and a number no pair. -/
def swappingSource : String :=
  "(data Pair (Pair Int Int))
(prim-op swap : (-> Pair Pair))
(def p (swap (tool last 0 (Pair 1 2))))
(def lost missing)
(def wrong (case p ((Pair m n) (p (swap m)))))"

/-- What the program is evaluated with. -/
def swappingHost : Host :=
  [swap].foldl Host.withPrimitive
    { Host.standard with
      tools := .ofList [("last", lastArgument)], llm := .offline, config := .standard }

/-- The checker and the evaluator both give up on the last definition. -/
theorem not_dangling_swapping :
    (∃ e, ((recover swappingSource).check 12).outcome? = some (.error e) ∧
      e.declaration? = some "wrong" ∧ ¬ e.Dangling) ∧
    ∃ values d e s,
      Session.evaluateDefinitions (.ofModule (recover swappingSource) swappingHost) 12
        (recover swappingSource).definitions .empty = some ((values, some (d, e)), s) ∧
      d.name = "wrong" ∧ ¬ e.Dangling := by
  have htools : (Table.ofList [("last", lastArgument)]).All Tool.Assembles := by
    intro name tool h
    cases List.mem_singleton.1 (Table.mem_of_get?_ofList h)
    exact assembles_lastArgument
  have hregistered : ∀ p ∈ [swap], p.Assembles := by
    simpa using assembles_swap
  obtain ⟨hcheck, hevaluate⟩ := not_dangling (Surface.parse swappingSource).declarations [swap]
    (.ofList [("last", lastArgument)]) .offline .standard hregistered htools
  obtain ⟨hrejected, hfailed⟩ :
      (((recover swappingSource).check 12).outcome?.bind fun r =>
        match r with
        | .error e => e.declaration?
        | .ok _ => none) = some "wrong" ∧
      ((Session.evaluateDefinitions (.ofModule (recover swappingSource) swappingHost) 12
        (recover swappingSource).definitions .empty).bind fun r =>
          r.1.2.map fun failure => failure.1.name) = some "wrong" := by
    decide +kernel
  constructor
  · obtain ⟨r, hr, hname⟩ := Option.bind_eq_some_iff.1 hrejected
    cases r with
    | error e => exact ⟨e, hr, hname, hcheck 12 e hr⟩
    | ok types => cases hname
  · obtain ⟨⟨⟨values, failure⟩, s⟩, hrun, hfailure⟩ := Option.bind_eq_some_iff.1 hfailed
    obtain ⟨⟨d, e⟩, rfl, hname⟩ := Option.map_eq_some_iff.1 hfailure
    exact ⟨values, d, e, s, hrun, hname, hevaluate 12 values d e s hrun⟩

end Module

end PolyLambda
