import PolyLambda.Evaluation.Primitive

/-!
# What a program borrows from its host

Tools, which a program calls by name; primitives, which the program declares and the host
implements; and a language model. Tools and primitives are functions of their arguments. The answers
of a model may depend on all that it was asked before, so an evaluation keeps the history of its
calls.

A primitive keeps the implementation that it had when it was mentioned, so the functions of a host
have numbers, and one that takes the place of another gets a number of its own.
-/

namespace PolyLambda

/-- A question to a language model. -/
structure LlmCall where
  model : String
  temperature : Float
  prompt : String
  deriving Inhabited

/-- The answer of a model to a call after a history of calls, or nothing if it fails. -/
abbrev Llm := List LlmCall → LlmCall → Option String

/-- The settings of calls that do not bring their own. -/
structure LlmConfig where
  model : String
  temperature : Float
  deriving Inhabited

/-- A tool either answers or explains why it cannot. -/
abbrev Tool := List Value → Except String Value

structure Host where
  /-- What the names of primitives stand for. -/
  primitives : Table Native
  /-- What the functions do, those included that no name stands for. -/
  native : Native → List Value → Except EvalError Value
  /-- The number that the next function gets. -/
  next : Nat
  number_lt_next : primitives.All fun n => n.number < next
  tools : Table Tool
  llm : Llm
  config : LlmConfig

namespace LlmConfig

/-- The settings of a host that sets none. -/
def standard : LlmConfig := ⟨"default", 0.0⟩

end LlmConfig

namespace Llm

/-- A model that is never there. -/
def offline : Llm := fun _ _ => none

/-- A model that answers its calls by the given replies, one after the other. -/
def scripted (replies : List (Option String)) : Llm :=
  fun history _ => (replies[history.length]?).join

end Llm

namespace Host

/-- The primitive that a name stands for. -/
def primitive? (h : Host) (name : String) : Option Primitive :=
  (h.primitives.get? name).map fun n => ⟨name, n.arity, h.native n⟩

/-- The host with an implementation of a primitive, instead of the one it may have. -/
def withPrimitive (h : Host) (p : Primitive) : Host :=
  { h with
    primitives := h.primitives.insert p.name ⟨p.arity, h.next⟩
    native := fun n => if n = ⟨p.arity, h.next⟩ then p.run else h.native n
    next := h.next + 1
    number_lt_next :=
      Table.All.insert (fun name n hn => Nat.lt_succ_of_lt (h.number_lt_next name n hn)) p.name
        (Nat.lt_succ_self _) }

/-- A name means what it was last given an implementation for. -/
theorem primitive?_withPrimitive (h : Host) (p : Primitive) (name : String) :
    (h.withPrimitive p).primitive? name = if name = p.name then some p else h.primitive? name := by
  rw [primitive?, withPrimitive, Table.get?_insert]
  split
  next heq =>
    rw [heq, Option.map_some]
    dsimp only
    rw [if_pos rfl]
  next =>
    rw [primitive?]
    cases hn : h.primitives.get? name with
    | none => rfl
    | some n =>
      rw [Option.map_some, Option.map_some]
      dsimp only
      rw [if_neg fun heq => Nat.ne_of_lt (h.number_lt_next name n hn) (congrArg Native.number heq)]

theorem mem_of_primitive?_foldl {ps : List Primitive} {h : Host} {name : String} {p : Primitive}
    (hp : (ps.foldl withPrimitive h).primitive? name = some p) :
    p ∈ ps ∨ h.primitive? name = some p := by
  induction ps generalizing h with
  | nil => exact .inr hp
  | cons q ps ih =>
    rcases ih hp with hmem | hp
    · exact .inl (List.mem_cons_of_mem q hmem)
    · rw [primitive?_withPrimitive] at hp
      split at hp
      next =>
        cases hp
        exact .inl List.mem_cons_self
      next => exact .inr hp

theorem primitive?_foldl_of_mem {ps : List Primitive} {h : Host} {p : Primitive}
    (hnames : (ps.map Primitive.name).Nodup)
    (hp : p ∈ ps ∨ p.name ∉ ps.map Primitive.name ∧ h.primitive? p.name = some p) :
    (ps.foldl withPrimitive h).primitive? p.name = some p := by
  induction ps generalizing h with
  | nil => exact (hp.resolve_left List.not_mem_nil).2
  | cons q ps ih =>
    obtain ⟨hnot, hnames⟩ := List.nodup_cons.1 hnames
    refine ih hnames ?_
    rw [primitive?_withPrimitive]
    rcases hp with hmem | ⟨hmem, hp⟩
    · rcases List.mem_cons.1 hmem with rfl | hmem
      · exact .inr ⟨hnot, if_pos rfl⟩
      · exact .inl hmem
    · rw [List.map_cons, List.mem_cons, not_or] at hmem
      rw [if_neg hmem.1]
      exact .inr ⟨hmem.2, hp⟩

/-- A host without primitives. -/
def bare : Host where
  primitives := .empty
  native _ _ := .error .divisionByZero
  next := 0
  number_lt_next := Table.all_empty
  tools := .empty
  llm := .offline
  config := .standard

/-- A host with nothing but the primitives of the language. -/
def standard : Host :=
  Primitive.builtins.foldl withPrimitive bare

theorem mem_builtins_of_primitive?_standard {name : String} {p : Primitive}
    (hp : standard.primitive? name = some p) : p ∈ Primitive.builtins :=
  (mem_of_primitive?_foldl hp).resolve_right nofun

end Host

end PolyLambda
