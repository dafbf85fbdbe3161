import PolyLambda.Proofs.Evaluation.Builtins
import PolyLambda.Proofs.Evaluation.Equality
import PolyLambda.Proofs.Evaluation.SideBySide
import PolyLambda.Proofs.Module.Signature

/-!
# What primitives and tools return

Nothing keeps the host from handing a program a function that uses what the program does not have. A
host that only puts together what it is given and data of its own does no such thing
(`Host.Assembles`): what it returns for sound arguments is sound.

The primitives of the language are of this kind, and more: they look at nothing but data, and so
cannot tell apart arguments that differ by functions (`onData_builtins`).
-/

namespace PolyLambda

namespace Value

/-- Whether a value is made of arguments, or of what these are made of, and of data. -/
inductive MadeFrom (args : List Value) : Value → Prop
  | arg {v : Value} (hv : v ∈ args) : MadeFrom args v
  | field {name : String} {arity : Nat} {fields : List Value} {v : Value}
    (h : MadeFrom args (.con name arity fields)) (hv : v ∈ fields) : MadeFrom args v
  | int (value : Int64) : MadeFrom args (.int value)
  | string (text : String) : MadeFrom args (.string text)
  | con (name : String) (arity : Nat) {fields : List Value}
      (hfields : ∀ v ∈ fields, MadeFrom args v) :
    MadeFrom args (.con name arity fields)

theorem isData_bool (b : Bool) : (bool b).IsData :=
  .con _ _ nofun

theorem IsData.madeFrom {v : Value} (h : v.IsData) (args : List Value) : v.MadeFrom args := by
  induction h with
  | int value => exact .int value
  | string text => exact .string text
  | con name arity _ ih => exact .con name arity ih

variable {models : String → Bool}

/-- Data have no model functions in them. -/
theorem IsData.offline_eq {v : Value} (h : v.IsData) : v.offline models = v := by
  induction h with
  | int value => rfl
  | string text => rfl
  | @con name arity args _ ih =>
    rw [offline, offlineAll_eq_map, List.map_congr_left ih, List.map_id']

/-- Only data become data without model functions. -/
theorem IsData.of_offline {v w : Value} (hw : w.IsData) (h : v.offline models = w) : v = w := by
  induction hw generalizing v with
  | int value => exact offline_eq_int_iff.1 h
  | string text => exact offline_eq_string_iff.1 h
  | @con name arity args _ ih =>
    obtain ⟨args', rfl, hargs⟩ := offline_eq_con h
    rw [offlineAll_eq_map] at hargs
    have hlength : args'.length = args.length := by rw [← hargs, List.length_map]
    congr 1
    refine List.ext_getElem hlength fun i hi hi' => ?_
    refine ih args[i] (List.getElem_mem hi') ?_
    simp [← hargs]

end Value

/-! ## Primitives of the language -/

open Comparison (Ends)

theorem Comparison.Ends.bind {α β γ δ : Type} {R : α → β → Prop} {S : γ → δ → Prop}
    {x : Except EvalError α} {y : Except EvalError β} {f : α → Except EvalError γ}
    {g : β → Except EvalError δ} (h : Ends R x y) (hf : ∀ a b, R a b → Ends S (f a) (g b)) :
    Ends S (x >>= f) (y >>= g) := by
  rcases h.ok_or_error with ⟨a, b, rfl, rfl, hab⟩ | ⟨e, e', rfl, rfl, he⟩
  · exact hf a b hab
  · exact he

namespace Primitive

/-- Whether an operation is the same on arguments that differ by functions, and has data for
results. -/
def OnData (p : Primitive) : Prop :=
  ∀ models args args', Value.offlineAll models args = Value.offlineAll models args' →
    Ends (fun v v' => v.IsData ∧ v = v') (p.run args) (p.run args')

variable {models : String → Bool} {name : String}

theorem ends_asInt {v v' : Value} (h : v.offline models = v'.offline models) :
    Ends Eq (asInt name v) (asInt name v') := by
  cases v with
  | int n =>
    obtain rfl := Value.offline_eq_int_iff.1 h.symm
    rfl
  | _ =>
    cases v' with
    | int n => cases Value.offline_eq_int_iff.1 h
    | _ => exact id

theorem ends_asString {v v' : Value} (h : v.offline models = v'.offline models) :
    Ends Eq (asString name v) (asString name v') := by
  cases v with
  | string s =>
    obtain rfl := Value.offline_eq_string_iff.1 h.symm
    rfl
  | _ =>
    cases v' with
    | string s => cases Value.offline_eq_string_iff.1 h
    | _ => exact id

theorem onData_unary {op : Value → Except EvalError Value}
    (hop : ∀ models (v v' : Value), v.offline models = v'.offline models →
      Ends (fun v v' => v.IsData ∧ v = v') (op v) (op v')) : (unary name op).OnData := by
  intro models args args' h
  cases args with
  | nil =>
    cases args' with
    | nil => exact id
    | cons => cases h
  | cons v vs =>
    cases args' with
    | nil => cases h
    | cons v' vs' => exact hop models v v' (List.cons_eq_cons.1 h).1

theorem onData_binary {op : Value → Value → Except EvalError Value}
    (hop : ∀ models (v v' w w' : Value), v.offline models = v'.offline models →
      w.offline models = w'.offline models →
      Ends (fun v v' => v.IsData ∧ v = v') (op v w) (op v' w')) : (binary name op).OnData := by
  intro models args args' h
  cases args with
  | nil =>
    cases args' with
    | nil => exact id
    | cons => cases h
  | cons v vs =>
    cases args' with
    | nil => cases h
    | cons v' vs' =>
      obtain ⟨hv, hvs⟩ := List.cons_eq_cons.1 h
      cases vs with
      | nil =>
        cases vs' with
        | nil => exact id
        | cons => cases hvs
      | cons w ws =>
        cases vs' with
        | nil => cases hvs
        | cons w' ws' => exact hop models v v' w w' hv (List.cons_eq_cons.1 hvs).1

theorem onData_onInts {op : Int64 → Int64 → Except EvalError Value}
    (hop : ∀ a b, Ends (fun v v' => v.IsData ∧ v = v') (op a b) (op a b)) :
    (onInts name op).OnData := by
  refine onData_binary fun models v v' w w' hv hw => ?_
  refine (ends_asInt hv).bind ?_
  rintro a _ rfl
  refine (ends_asInt hw).bind ?_
  rintro b _ rfl
  exact hop a b

theorem ends_divide (a b : Int64) :
    Ends (fun v v' => v.IsData ∧ v = v') (divide a b) (divide a b) := by
  rw [divide]
  split
  next => exact id
  next => exact ⟨.int _, rfl⟩

/-- The primitives of the language look at data only. -/
theorem onData_builtins : ∀ p ∈ builtins, p.OnData := by
  simp only [builtins, List.forall_mem_cons]
  refine ⟨onData_onInts fun _ _ => ⟨.int _, rfl⟩, onData_onInts fun _ _ => ⟨.int _, rfl⟩,
    onData_onInts fun _ _ => ⟨.int _, rfl⟩, onData_onInts ends_divide, onData_unary ?_,
    onData_onInts fun _ _ => ⟨Value.isData_bool _, rfl⟩,
    onData_onInts fun _ _ => ⟨Value.isData_bool _, rfl⟩,
    onData_onInts fun _ _ => ⟨Value.isData_bool _, rfl⟩, onData_binary ?_, onData_unary ?_, nofun⟩
  · intro models v v' h
    refine (ends_asInt h).bind ?_
    rintro n _ rfl
    exact ⟨.int _, rfl⟩
  · intro models v v' w w' hv hw
    refine (ends_asString hv).bind ?_
    rintro s _ rfl
    refine (ends_asString hw).bind ?_
    rintro t _ rfl
    exact ⟨.string _, rfl⟩
  · intro models v v' h
    refine (ends_asString h).bind ?_
    rintro s _ rfl
    exact ⟨.int _, rfl⟩

/-! ## Hosts -/

/-- Whether the results of an operation are made from its arguments and data, and its failures are
not those of a program that looks for what is not there. -/
structure Assembles (p : Primitive) : Prop where
  result : ∀ args v, p.run args = .ok v → v.MadeFrom args
  error : ∀ args e, p.run args = .error e → ¬ e.Dangling

theorem OnData.assembles {p : Primitive} (h : p.OnData) : p.Assembles := by
  have hends (args : List Value) := h (fun _ => false) args args rfl
  constructor
  · intro args v hv
    have hends := hends args
    rw [hv] at hends
    exact hends.1.madeFrom args
  · intro args e he
    have hends := hends args
    rw [he] at hends
    exact hends

end Primitive

/-- Whether the results of a tool are made from its arguments and data. -/
def Tool.Assembles (tool : Tool) : Prop :=
  ∀ args v, tool args = .ok v → v.MadeFrom args

namespace Host

/-- Whether a host has the primitives of the language, and only assembles what it returns. -/
structure Assembles (h : Host) : Prop where
  builtins : ∀ p ∈ Primitive.builtins, (h.primitive? p.name).isSome = true
  primitives : ∀ name p, h.primitive? name = some p → p.Assembles
  tools : h.tools.All Tool.Assembles

theorem isSome_primitive?_standard :
    ∀ p ∈ Primitive.builtins, (standard.primitive? p.name).isSome = true :=
  fun p hp => Option.isSome_of_eq_some (keepsBuiltins_standard p hp)

theorem assembles_standard (tools : Table Tool) (llm : Llm) (config : LlmConfig)
    (htools : tools.All Tool.Assembles) :
    ({ standard with tools := tools, llm := llm, config := config } : Host).Assembles where
  builtins := isSome_primitive?_standard
  primitives _ p hp :=
    (Primitive.onData_builtins p (mem_builtins_of_primitive?_standard hp)).assembles
  tools := htools

theorem Assembles.withPrimitive {h : Host} (hh : h.Assembles) {p : Primitive} (hp : p.Assembles) :
    (h.withPrimitive p).Assembles where
  builtins q hq := by
    rw [primitive?_withPrimitive]
    split
    next => rfl
    next => exact hh.builtins q hq
  primitives name q hq := by
    rw [primitive?_withPrimitive] at hq
    split at hq
    next =>
      cases hq
      exact hp
    next => exact hh.primitives name q hq
  tools := hh.tools

theorem Assembles.withPrimitives {h : Host} (hh : h.Assembles) {ps : List Primitive}
    (hps : ∀ p ∈ ps, p.Assembles) : (ps.foldl Host.withPrimitive h).Assembles := by
  induction ps generalizing h with
  | nil => exact hh
  | cons p ps ih =>
    obtain ⟨hp, hps⟩ := List.forall_mem_cons.1 hps
    exact ih (hh.withPrimitive hp) hps

end Host

namespace Comparison

variable {c : Comparison} {names : List String}

theorem Sound.of_isData {v : Value} (h : v.IsData) : c.Sound names v := by
  induction h with
  | int value => exact .int value
  | string text => exact .string text
  | con name arity _ ih => exact .con name arity ih

/-- What is made from sound arguments is sound. -/
theorem Sound.of_madeFrom {args : List Value} (hargs : ∀ v ∈ args, c.Sound names v) {v : Value}
    (h : v.MadeFrom args) : c.Sound names v := by
  induction h with
  | arg hv => exact hargs _ hv
  | field _ hv ih =>
    cases ih with
    | con _ _ hfields => exact hfields _ hv
  | int value => exact .int value
  | string text => exact .string text
  | con name arity _ ih => exact .con name arity ih

/-- Where nothing counts as the identity, what assembles its results returns the same on both
sides. -/
theorem ends_run (hmodels : ∀ name, c.models name = false) {p : Primitive} (hp : p.Assembles)
    {args args' : List Value} (hargs : c.AllAlike names args args') :
    Ends (c.Alike names) (p.run args) (p.run args') := by
  obtain rfl := hargs.eq hmodels
  cases hrun : p.run args with
  | error e => exact hp.error args e hrun
  | ok v => exact .refl (.of_madeFrom hargs.left (hp.result args v hrun))

theorem ends_callTool (hmodels : ∀ name, c.models name = false)
    (htools : c.left.host.tools = c.right.host.tools)
    (hassemble : c.left.host.tools.All Tool.Assembles)
    (name : String) {args args' : List Value} (hargs : c.AllAlike names args args') :
    Ends (c.Alike names) (c.left.callTool name args) (c.right.callTool name args') := by
  obtain rfl := hargs.eq hmodels
  rw [Machine.callTool, Machine.callTool, ← htools]
  cases htool : c.left.host.tools.get? name with
  | none => exact id
  | some tool =>
    dsimp only
    cases hrun : tool args with
    | error e => exact id
    | ok v => exact .refl (.of_madeFrom hargs.left (hassemble name tool htool args v hrun))

end Comparison

end PolyLambda
