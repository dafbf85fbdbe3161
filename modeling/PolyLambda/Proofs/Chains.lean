import PolyLambda.Proofs.Evaluation.Chains
import PolyLambda.Proofs.Token.Lexeme
import PolyLambda.Proofs.Typing.Monomorphic

/-!
# A constructor node and the chain of its applications

A constructor and its arguments are one node, unless there is a type among the arguments: then the
constructor is applied to one thing after the other. Both ways come to the same
(`Term.Chain.same_as_node`). For evaluation this is so of every chain, with types anywhere along it.
Inference compares the arguments of a node with the fields of one instance of the constructor, while
along a chain what is left of the type is filled in after every argument. That makes no difference
as long as filling in twice is the same as filling in once (`outcome?_check_resolved`) and what is
known is only ever refined (`Refines.resolved`).

Where two quantified types have been compared a solution may be known that filling in once does not
reach, and then a chain may have another type than its node (`chain_apart_from_node`).
-/

namespace PolyLambda

namespace Term

theorem areMonomorphic_concat {args : List Term} {arg : Term} (hargs : areMonomorphic args = true)
    (harg : arg.isMonomorphic = true) : areMonomorphic (args ++ [arg]) = true := by
  induction args with
  | nil => rw [List.nil_append, areMonomorphic, harg, areMonomorphic, Bool.and_true]
  | cons a args ih =>
    rw [areMonomorphic, Bool.and_eq_true] at hargs
    rw [List.cons_append, areMonomorphic, hargs.1, ih hargs.2, Bool.and_true]

/-- The arguments of a chain without explicit polymorphism have none either. -/
theorem Chain.areMonomorphic {name : String} {args : List Term} {t : Term} (h : t.Chain name args)
    (ht : t.isMonomorphic = true) : Term.areMonomorphic args = true := by
  induction h with
  | con args => exact ht
  | app h arg ih =>
    rw [isMonomorphic, Bool.and_eq_true] at ht
    exact areMonomorphic_concat (ih ht.1) ht.2
  | tapp h type ih => cases ht

end Term

namespace Checker

section

variable {sig : Signature} {limit : Nat} {ctx : Context} {c : Checker}

/-- An expected type may as well be filled in before. -/
theorem outcome?_check_resolved {t : Term} {expected : Ty}
    (h : c.resolved (c.resolved expected) = c.resolved expected) :
    (check sig limit ctx t (c.resolved expected)).outcome? c =
      (check sig limit ctx t expected).outcome? c := by
  have hresolve : (resolve (c.resolved expected)).outcome? c = (resolve expected).outcome? c := by
    show some (Except.ok (c.resolved (c.resolved expected)), c) =
      some (.ok (c.resolved expected), c)
    rw [h]
  rw [check.eq_def, check.eq_def, LimitedState.outcome?_bind, LimitedState.outcome?_bind, hresolve]

/-- Arguments are checked one after the other. -/
theorem checkArgs_concat {args : List Term} {fields rest : List Ty}
    (hlength : args.length = fields.length) (arg : Term) (field : Ty) :
    checkArgs sig limit ctx (args ++ [arg]) (fields ++ field :: rest) =
      (do
        checkArgs sig limit ctx args (fields ++ field :: rest)
        check sig limit ctx arg field) := by
  induction args generalizing fields with
  | nil =>
    obtain rfl := List.length_eq_zero_iff.1 hlength.symm
    simp only [List.nil_append, checkArgs, bind_pure_unit, pure_bind]
  | cons a args ih =>
    cases fields with
    | nil => cases hlength
    | cons f fields =>
      simp only [List.cons_append, checkArgs, bind_assoc, ih (Nat.succ.inj hlength)]

/-- What a node comes to, after its constructor has got metas for its parameters. -/
def inferNode (sig : Signature) (limit : Nat) (ctx : Context) (name : String)
    (args : List Term) (t : Ty) :
    Check Ty := do
  let (fields, result) := t.splitArrows
  if fields.length < args.length then
    throw (.constructorArgs name fields.length args.length)
  checkArgs sig limit ctx args fields
  resolve (Ty.arrows (fields.drop args.length) result)

theorem infer_con (name : String) (args : List Term) :
    infer sig limit ctx (.con name args) = (do
      let t ← constructorType sig name
      let t ← instantiate t
      inferNode sig limit ctx name args t) := by
  rw [infer]
  rfl

/-- A node with enough fields checks its arguments. -/
theorem inferNode_of_le {name : String} {args : List Term} {t result : Ty} {fields : List Ty}
    (ht : t.splitArrows = (fields, result)) (hlength : args.length ≤ fields.length) :
    inferNode sig limit ctx name args t = (do
      checkArgs sig limit ctx args fields
      resolve (Ty.arrows (fields.drop args.length) result)) := by
  rw [inferNode, ht]
  exact if_neg (Nat.not_lt.2 hlength)

/-- The type of a node is that of a function if a field is left, and its last argument may as well
be given to that. -/
theorem outcome?_inferNode_concat (hsig : sig.Monomorphic) {name : String} {args : List Term}
    {arg : Term} {t result field : Ty} {fields rest : List Ty}
    (ht : t.splitArrows = (fields ++ field :: rest, result))
    (htypes : t.QuantifierFree) (hlength : args.length = fields.length)
    (hargs : Term.areMonomorphic args = true) (harg : arg.isMonomorphic = true)
    (hctx : ctx.Monomorphic) (hc : c.Monomorphic) :
    (inferNode sig limit ctx name args t >>= fun f => asArrow limit ctx f >>= fun p =>
      check sig limit ctx arg p.1 >>= fun _ => resolve p.2).outcome? c =
    (inferNode sig limit ctx name (args ++ [arg]) t).outcome? c := by
  obtain ⟨hfields, hresult⟩ := Ty.quantifierFree_splitArrows htypes
  rw [ht] at hfields hresult
  have hfield : field.QuantifierFree := hfields field (by simp)
  have hrest : (Ty.arrows rest result).QuantifierFree :=
    Ty.quantifierFree_arrows (fun f hf => hfields f (by simp [hf])) hresult
  have hdrop : (fields ++ field :: rest).drop args.length = field :: rest := by
    rw [hlength, List.drop_left]
  have hdrop' : (fields ++ field :: rest).drop (args ++ [arg]).length = rest := by
    rw [List.length_append, ← List.drop_drop, hdrop]
    rfl
  rw [inferNode_of_le ht (by simp [hlength]), inferNode_of_le ht (by simp [hlength]),
    checkArgs_concat hlength, hdrop, hdrop']
  simp only [bind_assoc]
  refine LimitedState.outcome?_bind_congr fun _ c₁ h₁ => ?_
  have h₁ : Refines c c₁ :=
    refines_of_outcome? hsig (.checkArgs ctx args _) hc ⟨hctx, hargs, hfields⟩ h₁
  have hnext :
    (resolve (Ty.arrows (field :: rest) result) >>= fun f => asArrow limit ctx f >>= fun p =>
      check sig limit ctx arg p.1 >>= fun _ => resolve p.2).outcome? c₁ =
      (check sig limit ctx arg (c₁.resolved field) >>= fun _ =>
        resolve (c₁.resolved (Ty.arrows rest result))).outcome? c₁ := by
    have harrow : (resolve (Ty.arrows (field :: rest) result)).outcome? c₁ =
        some (.ok (.arrow (c₁.resolved field) (c₁.resolved (Ty.arrows rest result))), c₁) := by
      rw [resolved, resolved, ← Substitution.apply_arrow]
      rfl
    rw [LimitedState.outcome?_bind, harrow]
    rfl
  rw [hnext, LimitedState.outcome?_bind, outcome?_check_resolved
    (h₁.monomorphic.refines.resolved hfield), ← LimitedState.outcome?_bind]
  refine LimitedState.outcome?_bind_congr fun _ c₂ h₂ => ?_
  have h₂ : Refines c₁ c₂ :=
    refines_of_outcome? hsig (.check ctx arg field) h₁.monomorphic ⟨hctx, harg, hfield⟩ h₂
  show some (Except.ok (c₂.resolved (c₁.resolved (Ty.arrows rest result))), c₂) = _
  rw [h₂.resolved hrest]
  rfl

/-- A node may as well be applied to its last argument. -/
theorem outcome?_infer_con_concat (hsig : sig.Monomorphic) {name : String} {arity : Nat}
    (hname : sig.constructorArity? name = some arity) {args : List Term}
    (hlength : args.length < arity)
    {arg : Term} (hargs : Term.areMonomorphic args = true) (harg : arg.isMonomorphic = true)
    (hctx : ctx.Monomorphic) (hc : c.Monomorphic) :
    (infer sig limit ctx (.app (.con name args) arg)).outcome? c =
      (infer sig limit ctx (.con name (args ++ [arg]))).outcome? c := by
  rw [infer, infer_con, infer_con]
  simp only [bind_assoc]
  refine LimitedState.outcome?_bind_congr fun t c₁ ht => ?_
  refine LimitedState.outcome?_bind_congr fun t' c₂ ht' => ?_
  rw [Signature.constructorArity?, Option.map_eq_some_iff] at hname
  obtain ⟨type, htype, rfl⟩ := hname
  rw [constructorType, htype] at ht
  cases ht
  rw [instantiate, outcome?_instantiateWithin rfl] at ht'
  cases ht'
  have hprenex := hsig.constructorTypes name t htype
  obtain ⟨σ, hσ⟩ := exists_splitArrows_instantiated c.nextMeta hprenex
  have hlt : args.length < (instantiated c.nextMeta t).splitArrows.1.length := by
    rw [hσ, List.length_map]
    exact hlength
  have hsplit : (instantiated c.nextMeta t).splitArrows =
      ((instantiated c.nextMeta t).splitArrows.1.take args.length ++
        (instantiated c.nextMeta t).splitArrows.1[args.length] ::
          (instantiated c.nextMeta t).splitArrows.1.drop (args.length + 1),
        (instantiated c.nextMeta t).splitArrows.2) := by
    rw [← List.drop_eq_getElem_cons hlt, List.take_append_drop]
  exact outcome?_inferNode_concat hsig hsplit (quantifierFree_instantiated hprenex _)
    (by rw [List.length_take, Nat.min_eq_left (Nat.le_of_lt hlt)]) hargs harg hctx
    (hc.addMetas _).monomorphic

/-- What a chain comes to, the node with all the arguments comes to, and learns the same. -/
theorem outcome?_infer_chain (hsig : sig.Monomorphic) {name : String} {arity : Nat}
    (hname : sig.constructorArity? name = some arity) {args : List Term} {t : Term}
    (h : t.Chain name args)
    (hlength : args.length ≤ arity) (ht : t.isMonomorphic = true) (hctx : ctx.Monomorphic)
    (hc : c.Monomorphic) :
    (infer sig limit ctx t).outcome? c = (infer sig limit ctx (.con name args)).outcome? c := by
  induction h with
  | con args => rfl
  | @app args t h arg ih =>
    rw [List.length_append] at hlength
    rw [Term.isMonomorphic, Bool.and_eq_true] at ht
    rw [← outcome?_infer_con_concat hsig hname hlength (h.areMonomorphic ht.1) ht.2 hctx hc, infer,
      LimitedState.outcome?_bind, ih (Nat.le_of_lt hlength) ht.1,
      ← LimitedState.outcome?_bind, ← infer]
  | tapp h type ih => cases ht

end

end Checker

/-! ## Chains and nodes -/

open Checker

/-- A chain and the node with all its arguments come to the same, whether they are evaluated or
their type is inferred. Inference has to know no quantified types, and its substitution has to be
idempotent, which it is at every point of a check in which no two quantified types are compared. -/
theorem Term.Chain.same_as_node {sig : Signature} {name : String} {arity : Nat}
    (hname : sig.constructorArity? name = some arity) {args : List Term}
    (hlength : args.length ≤ arity) {t : Term} (h : t.Chain name args) :
    (∀ m : Machine, m.sig = sig → ∀ globals env history o,
      (∃ limit, (m.evaluate globals limit t env).outcome? history = some o) ↔
        ∃ limit, (m.evaluate globals limit (.con name args) env).outcome? history = some o) ∧
    (t.isMonomorphic = true → sig.Monomorphic → ∀ ctx : Context, ctx.Monomorphic →
      ∀ c : Checker, c.Monomorphic → ∀ limit,
        (infer sig limit ctx t).outcome? c = (infer sig limit ctx (.con name args)).outcome? c) ∧
    ∀ m : Module, m.ComparesPlainly → ∀ c, m.Visits c → c.subst.Idempotent := by
  refine ⟨?_, ?_, fun m hplain c hvisits => (hplain.finished_of_visits hvisits).idempotent⟩
  · rintro m rfl globals env history o
    exact Machine.comes_to_chain_iff hname h hlength history o
  · exact fun ht hsig ctx hctx c hc limit => outcome?_infer_chain hsig hname h hlength ht hctx hc

def pairModule : Module :=
  .recover "(data (Pair 'a 'b) (Pair 'a 'b))"

def pairMachine : Machine :=
  .ofModule pairModule .standard

/-- A pair of a number and a text, in one node. -/
def pairNode : Term := .con "Pair" [.int 1, .string "one"]

/-- The same pair, as a node that is applied to its last argument. -/
def appliedPair : Term := .app (.con "Pair" [.int 1]) (.string "one")

/-- The same pair, as a node that is applied to the types of both parts and then to the parts. -/
def typedPair : Term :=
  .app (.app (.tapp (.tapp (.con "Pair" []) .int) .string) (.int 1)) (.string "one")

theorem pair_same_as_node :
    pairModule.constructorArity? "Pair" = some 2 ∧
    (∃ limit, (pairMachine.evaluate .empty limit typedPair []).outcome? [] =
      some (.ok (.con "Pair" 2 [.int 1, .string "one"]), [])) ∧
    (∀ limit, (infer pairModule.toSignature limit .empty appliedPair).outcome? pairModule.initial =
      (infer pairModule.toSignature limit .empty pairNode).outcome? pairModule.initial) ∧
    pairModule.initial.subst.Idempotent := by
  have harity : pairModule.toSignature.constructorArity? "Pair" = some 2 := by decide +kernel
  have htypes : (Term.tapp (.tapp (.con "Pair" []) .int) .string).Chain "Pair" [] :=
    .tapp (.tapp (.con []) _) _
  have hnumber :
    (Term.app (.tapp (.tapp (.con "Pair" []) .int) .string) (.int 1)).Chain "Pair" [.int 1] :=
    .app htypes _
  have htyped : typedPair.Chain "Pair" [.int 1, .string "one"] := .app hnumber _
  have happlied : appliedPair.Chain "Pair" [.int 1, .string "one"] := .app (.con [.int 1]) _
  have hsig : pairModule.toSignature.Monomorphic :=
    ⟨Table.all_iff_values.2 (by decide +kernel), Table.all_iff_values.2 (by decide +kernel)⟩
  have hinitial : pairModule.initial.Monomorphic :=
    monomorphic_ofSignature (Table.all_iff_values.2 (by decide +kernel))
  have hplain : pairModule.ComparesPlainly :=
    Module.comparesPlainly_of_typeNames_eq_nil (by decide +kernel)
  have hlength : [Term.int 1, .string "one"].length ≤ 2 := Nat.le_refl 2
  obtain ⟨hvalue, -, -⟩ := Term.Chain.same_as_node harity hlength htyped
  obtain ⟨-, htype, hidempotent⟩ := Term.Chain.same_as_node harity hlength happlied
  refine ⟨harity, (hvalue pairMachine rfl _ _ _ _).2 ⟨2, ?_⟩, ?_, ?_⟩
  · rw [Machine.evaluate_con (m := pairMachine) harity 1 hlength]
    rfl
  · exact htype (by decide +kernel) hsig .empty nofun _ hinitial
  · exact hidempotent pairModule hplain _ ⟨_, _, .refl _ _, .inl rfl⟩

/-! ## After a comparison of quantified types -/

/-- The type of `t` is not known to begin with. By `m` the variable of a quantifier is said to be
that type, and by `n` that type is said to be one of lists of that variable. -/
def crossedSource : String :=
  "(data (List 'a) Nil (Cons 'a (List 'a)))
(data (Two 'a) (Two 'a 'a))
(def t (tool t))
(def m (let ((f (tfn 'z t))) ((fn (k : (forall 'a 'a)) 1) f)))
(def n (let ((f (tfn 'z t))) ((fn (k : (forall 'a (List 'a))) 1) f)))"

def crossedModule : Module :=
  .recover crossedSource

def crossedNode : Term := .con "Two" [.global "t", .con "Nil" []]

def crossedChain : Term := .app (.con "Two" [.global "t"]) (.con "Nil" [])

/-- The type of lists of `t`. -/
def listOf (t : Ty) : Ty := .data "List" [t]

theorem returns_infer {sig : Signature} {limit : Nat} {ctx : Context} {t : Term}
    {c : Checker} {type : Ty}
    (h : ((infer sig limit ctx t).outcome? c).map (fun r => r.1.toOption) = some (some type)) :
    ∃ c', Returns sig (.infer ctx t) c type c' := by
  obtain ⟨⟨r, c'⟩, houtcome, hr⟩ := Option.map_eq_some_iff.1 h
  cases r with
  | error e => cases hr
  | ok a =>
    obtain rfl : a = type := Option.some.inj hr
    refine ⟨c', limit, ?_⟩
    rw [Task.outcome?, show (Task.infer ctx t).run sig limit =
      infer sig limit ctx t from rfl, houtcome]
    rfl

/-- Then no quantifier is left in what is known, but it can be filled in once more than it is. A
chain does that, and a node does not. -/
theorem chain_apart_from_node :
    ∃ m, Module.ofSource crossedSource = .ok m ∧ m.errors = [] ∧ m.toSignature.Monomorphic ∧
      m.constructorArity? "Two" = some 2 ∧
      crossedChain.Chain "Two" [.global "t", .con "Nil" []] ∧ crossedChain.isMonomorphic = true ∧
      ∃ c, m.Visits c ∧ c.globals.All Ty.QuantifierFree ∧ c.subst.QuantifierFree ∧
        (∃ c', Returns m.toSignature (.infer .empty crossedNode) c
          (.data "Two" [listOf (listOf (.var "a"))]) c') ∧
        ∃ c', Returns m.toSignature (.infer .empty crossedChain) c
          (.data "Two" [listOf (listOf (listOf (.var "a")))]) c' := by
  have hrun : (Surface.parse crossedSource).errors.isEmpty = true ∧ crossedModule.errors = [] ∧
      (∀ t ∈ crossedModule.constructorTypes.values, t.Prenex) ∧
      (∀ t ∈ crossedModule.primitiveTypes.values, t.QuantifierFree) ∧
      crossedModule.constructorArity? "Two" = some 2 ∧
      (crossedModule.task.outcome? crossedModule.toSignature 9 crossedModule.initial).join.any
      (fun r =>
        decide ((∀ t ∈ r.2.globals.values, t.QuantifierFree) ∧
          (∀ layer ∈ r.2.subst.layers, ∀ t ∈ Table.values layer, t.QuantifierFree) ∧
          ((infer crossedModule.toSignature 9 .empty crossedNode).outcome? r.2).map
          (fun r => r.1.toOption) =
            some (some (.data "Two" [listOf (listOf (.var "a"))])) ∧
          ((infer crossedModule.toSignature 9 .empty crossedChain).outcome? r.2).map
          (fun r => r.1.toOption) =
            some (some (.data "Two" [listOf (listOf (listOf (.var "a")))])))) = true := by
    -- The list of characters is nested as deeply as the source is long.
    set_option maxRecDepth 2000 in
    have hlex : Token.lex crossedSource = Token.lexChars _ := Token.lex_ofList _
    rw [crossedModule, Module.recover, Surface.parse, hlex]
    decide +kernel
  obtain ⟨hparse, hscope, hconstructors, hprimitives, harity, hrun⟩ := hrun
  obtain ⟨⟨a, c⟩, hjoin, hc⟩ := (Option.any_eq_true _ _).1 hrun
  obtain ⟨hglobals, hlayers, hnode, hchain⟩ := of_decide_eq_true hc
  have hnone : crossedModule.hasErrors = false := by
    rw [Module.hasErrors, hscope]
    rfl
  refine ⟨crossedModule, ofSource_eq_ok hparse hnone, hscope,
    ⟨Table.all_iff_values.2 hconstructors, Table.all_iff_values.2 hprimitives⟩, harity,
    .app (.con [.global "t"]) _, by decide +kernel, c,
    ⟨_, _, .refl _ _, .inr ⟨a, 9, Option.join_eq_some_iff.1 hjoin⟩⟩,
    Table.all_iff_values.2 hglobals,
    Substitution.quantifierFree_of_all fun layer hlayer =>
    Table.all_iff_values.2 (hlayers layer hlayer),
    returns_infer hnode, returns_infer hchain⟩

end PolyLambda
