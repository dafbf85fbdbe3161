import Mathlib.Tactic.Tauto
import PolyLambda.Value

/-!
# Equality of values

Two values are equal if they are the same data, whatever number of arguments their constructors are
recorded to take (`beq_iff`). So equality is symmetric and transitive, and a value is equal to
itself exactly if it is data, that is made of integers, strings and constructors.

Equality does not see whether a constructor still waits for arguments. One that does is a function,
like a closure or a primitive, and it is equal to itself and to a constructor that has the same
arguments and waits for none (`beq_relates_functions`). Apart from these, no functions are equal,
and where all constructors have their arguments, equality is structural (`beq_relates_data`).
-/

namespace PolyLambda.Value

/-- Induction on values, with the hypothesis for every argument of a constructor. Nothing is assumed
of what a function holds. -/
theorem induct {motive : Value → Prop} (int : ∀ value, motive (.int value))
    (string : ∀ text, motive (.string text))
    (con : ∀ name arity args, (∀ arg ∈ args, motive arg) → motive (.con name arity args))
    (closure : ∀ env body, motive (.closure env body))
    (typeClosure : ∀ env body, motive (.typeClosure env body))
    (prim : ∀ name op args, motive (.prim name op args)) (v : Value) : motive v :=
  @Value.rec motive (fun args => ∀ arg ∈ args, motive arg) int string con
    (fun env body _ => closure env body) (fun env body _ => typeClosure env body)
    (fun name op args _ => prim name op args) (fun _ h => absurd h List.not_mem_nil)
    (fun _ _ hHead hTail => List.forall_mem_cons.2 ⟨hHead, hTail⟩) v

/-! ## Data -/

/-- Whether a value is made of integers, strings and constructors. -/
inductive IsData : Value → Prop
  | int (value : Int64) : IsData (.int value)
  | string (text : String) : IsData (.string text)
  | con (name : String) (arity : Nat) {args : List Value} (hargs : ∀ v ∈ args, IsData v) :
    IsData (.con name arity args)

@[simp]
theorem isData_con_iff {name : String} {arity : Nat} {args : List Value} :
    (con name arity args).IsData ↔ ∀ v ∈ args, v.IsData := by
  constructor
  · rintro ⟨⟩
    assumption
  · exact .con name arity

mutual

/-- The value in which every constructor is recorded to take just the arguments that it has. -/
def completed : Value → Value
  | .con name _ args => saturated name (completedAll args)
  | v => v

def completedAll : List Value → List Value
  | [] => []
  | v :: vs => v.completed :: completedAll vs

end

theorem completedAll_eq_map (vs : List Value) : completedAll vs = vs.map completed := by
  induction vs with
  | nil => rfl
  | cons v vs ih => rw [completedAll, ih, List.map_cons]

@[simp]
theorem completed_con (name : String) (arity : Nat) (args : List Value) :
    (con name arity args).completed = .con name args.length (args.map completed) := by
  rw [completed, saturated, completedAll_eq_map, List.length_map]

theorem isData_completed_iff (v : Value) : v.completed.IsData ↔ v.IsData := by
  induction v using induct with
  | con name arity args ih =>
    rw [completed_con, isData_con_iff, isData_con_iff, List.forall_mem_map]
    exact forall₂_congr ih
  | _ => rfl

/-! ## Equality -/

theorem sameArgs_iff {vs ws : List Value}
    (h : ∀ v ∈ vs, ∀ w, v.same w = true ↔ v.IsData ∧ v.completed = w.completed) :
    sameArgs vs ws = true ↔ (∀ v ∈ vs, v.IsData) ∧ vs.map completed = ws.map completed := by
  induction vs generalizing ws with
  | nil => cases ws <;> simp [sameArgs]
  | cons v vs ih =>
    obtain ⟨hv, hvs⟩ := List.forall_mem_cons.1 h
    cases ws with
    | nil => simp [sameArgs]
    | cons w ws =>
      rw [sameArgs, Bool.and_eq_true, hv, ih hvs, List.forall_mem_cons, List.map_cons,
        List.map_cons, List.cons.injEq]
      exact and_and_and_comm

/-- Equality of values is equality of data, apart from what constructors are recorded to take. -/
theorem beq_iff (v w : Value) : (v == w) = true ↔ v.IsData ∧ v.completed = w.completed := by
  show v.same w = true ↔ _
  induction v using induct generalizing w with
  | int a =>
    rw [and_iff_right (IsData.int a)]
    cases w <;> simp [same, completed, saturated]
  | string a =>
    rw [and_iff_right (IsData.string a)]
    cases w <;> simp [same, completed, saturated]
  | con name arity args ih =>
    cases w with
    | con name' arity' args' =>
      rw [same, Bool.and_eq_true, beq_iff_eq, sameArgs_iff ih, isData_con_iff, completed_con,
        completed_con, con.injEq]
      constructor
      · rintro ⟨hname, hdata, hargs⟩
        have hlength := congrArg List.length hargs
        rw [List.length_map, List.length_map] at hlength
        exact ⟨hdata, hname, hlength, hargs⟩
      · rintro ⟨hdata, hname, -, hargs⟩
        exact ⟨hname, hdata, hargs⟩
    | _ => simp [same, completed, saturated]
  | _ => exact iff_of_false nofun nofun

theorem beq_self_iff (v : Value) : (v == v) = true ↔ v.IsData := by
  rw [beq_iff, and_iff_left rfl]

theorem beq_comm (v w : Value) : (v == w) = (w == v) := by
  rw [Bool.eq_iff_iff, beq_iff, beq_iff]
  have hdata (h : v.completed = w.completed) : v.IsData ↔ w.IsData := by
    rw [← isData_completed_iff v, h, isData_completed_iff]
  constructor
  · rintro ⟨hv, h⟩
    exact ⟨(hdata h).1 hv, h.symm⟩
  · rintro ⟨hw, h⟩
    exact ⟨(hdata h.symm).2 hw, h.symm⟩

theorem beq_trans {u v w : Value} (huv : (u == v) = true) (hvw : (v == w) = true) :
    (u == w) = true := by
  rw [beq_iff] at huv hvw ⊢
  exact ⟨huv.1, huv.2.trans hvw.2⟩

/-! ## Functions -/

/-- Whether a value is a constructor that still waits for arguments. -/
def Waits : Value → Prop
  | .con _ arity args => args.length < arity
  | _ => False

/-- Whether a value is a function: a closure, a primitive with some of its arguments or none, or a
constructor that waits for arguments. -/
def IsFunction : Value → Prop
  | .closure _ _ | .typeClosure _ _ | .prim _ _ _ => True
  | v => v.Waits

/-- Whether a value that satisfies `P` stands anywhere in a value, itself included. -/
inductive Contains (P : Value → Prop) : Value → Prop
  | self {v : Value} (h : P v) : Contains P v
  | arg {name : String} {arity : Nat} {args : List Value} {v : Value} (hv : v ∈ args)
    (h : Contains P v) : Contains P (.con name arity args)

section

variable {P Q : Value → Prop}

@[simp]
theorem contains_con_iff {name : String} {arity : Nat} {args : List Value} :
    (con name arity args).Contains P ↔ P (.con name arity args) ∨ ∃ v ∈ args, v.Contains P := by
  constructor
  · rintro (h | ⟨hv, h⟩)
    · exact .inl h
    · exact .inr ⟨_, hv, h⟩
  · rintro (h | ⟨v, hv, h⟩)
    · exact .self h
    · exact .arg hv h

@[simp]
theorem contains_int_iff {value : Int64} : (int value).Contains P ↔ P (.int value) :=
  ⟨fun h => by cases h; assumption, .self⟩

theorem Contains.mono (h : ∀ v, P v → Q v) {v : Value} (hv : v.Contains P) : v.Contains Q := by
  induction hv with
  | self hp => exact .self (h _ hp)
  | arg hmem _ ih => exact .arg hmem ih

end

/-- A value contains no function if it is data and no constructor in it waits. -/
theorem contains_isFunction_iff (v : Value) :
    v.Contains IsFunction ↔ v.Contains Waits ∨ ¬ v.IsData := by
  induction v using induct with
  | int value =>
    refine iff_of_false ?_ (not_or.2 ⟨?_, not_not_intro (.int value)⟩) <;> rintro ⟨⟨⟩⟩
  | string text =>
    refine iff_of_false ?_ (not_or.2 ⟨?_, not_not_intro (.string text)⟩) <;> rintro ⟨⟨⟩⟩
  | con name arity args ih =>
    rw [contains_con_iff, contains_con_iff, isData_con_iff, or_assoc]
    refine or_congr_right ?_
    constructor
    · rintro ⟨v, hv, h⟩
      rcases (ih v hv).1 h with h | h
      · exact .inl ⟨v, hv, h⟩
      · exact .inr fun hall => h (hall v hv)
    · rintro (⟨v, hv, h⟩ | h)
      · exact ⟨v, hv, (ih v hv).2 (.inl h)⟩
      · simp only [not_forall] at h
        obtain ⟨v, hv, h⟩ := h
        exact ⟨v, hv, (ih v hv).2 (.inr h)⟩
  | _ => exact iff_of_true (.self trivial) (.inr nofun)

theorem isSaturated_eq_false_of_waits {v : Value} (h : v.Waits) : v.isSaturated = false := by
  cases v with
  | con name arity args => exact beq_eq_false_iff_ne.2 (Nat.ne_of_lt h)
  | _ => cases h

/-- Where constructors have just the arguments that they take, nothing is to be completed. -/
theorem completed_eq_self {v : Value} (h : ¬ v.Contains fun v => v.isSaturated = false) :
    v.completed = v := by
  induction v using induct with
  | con name arity args ih =>
    rw [contains_con_iff, not_or] at h
    obtain ⟨hlength, hargs⟩ := h
    have hmap : args.map completed = args := by
      refine (List.map_congr_left fun v hv => ih v hv ?_).trans (List.map_id args)
      exact fun hcontains => hargs ⟨v, hv, hcontains⟩
    have harity : args.length = arity := by simpa [isSaturated] using hlength
    rw [completed_con, hmap, harity]
  | _ => rfl

/-- Equality of values is symmetric and transitive, and relates data only, which are the same but
for the numbers of arguments that their constructors are recorded to take. A value is equal to
itself exactly if it is data; that is so exactly if it contains no function, unless all functions in
it are constructors that wait. Where all constructors have just the arguments that they take,
equality is structural, and relates values without functions only. -/
theorem beq_relates_data (u v w : Value) :
    (v == w) = (w == v) ∧
      ((u == v) = true → (v == w) = true → (u == w) = true) ∧
      ((v == w) = true ↔ v.IsData ∧ v.completed = w.completed) ∧
      ((v == v) = true ↔ v.IsData) ∧
      (((v == v) = true ↔ ¬ v.Contains IsFunction) ↔ (v.Contains Waits → ¬ v.IsData)) ∧
      ((¬ v.Contains fun v => v.isSaturated = false) →
        (¬ w.Contains fun v => v.isSaturated = false) →
        ((v == w) = true ↔ v = w ∧ ¬ v.Contains IsFunction)) := by
  refine ⟨beq_comm v w, beq_trans, beq_iff v w, beq_self_iff v, ?_, fun hv hw => ?_⟩
  · rw [beq_self_iff, contains_isFunction_iff]
    tauto
  · have hwaits : ¬ v.Contains Waits := mt (Contains.mono fun _ => isSaturated_eq_false_of_waits) hv
    rw [beq_iff, completed_eq_self hv, completed_eq_self hw, contains_isFunction_iff, and_comm]
    tauto

/-- A list of one element, with a constructor that is recorded to take so many arguments. -/
def listOfOne (arity : Nat) : Value :=
  .con "Cons" arity [.int 1, saturated "Nil" []]

theorem beq_relates_data_listOfOne :
    (listOfOne 3 == listOfOne 2) = true ∧ (listOfOne 2 == listOfOne 4) = true ∧
      (listOfOne 3 == listOfOne 4) = true ∧
      (¬ (listOfOne 2).Contains fun v => v.isSaturated = false) ∧
      ((listOfOne 2 == listOfOne 2) = true ↔
        listOfOne 2 = listOfOne 2 ∧ ¬ (listOfOne 2).Contains IsFunction) := by
  have hfirst : (listOfOne 3 == listOfOne 2) = true := by decide
  have hsecond : (listOfOne 2 == listOfOne 4) = true := by decide
  have hsaturated : ¬ (listOfOne 2).Contains fun v => v.isSaturated = false := by
    simp [listOfOne, saturated, isSaturated]
  obtain ⟨-, htrans, -⟩ := beq_relates_data (listOfOne 3) (listOfOne 2) (listOfOne 4)
  obtain ⟨-, -, -, -, -, hstructural⟩ := beq_relates_data (listOfOne 3) (listOfOne 2) (listOfOne 2)
  exact ⟨hfirst, hsecond, htrans hfirst hsecond, hsaturated, hstructural hsaturated hsaturated⟩

/-- What a constructor of lists is when it has got its first argument. -/
def waitingCons : Value :=
  .con "Cons" 2 [.int 1]

/-- It is a function and equal to itself, and to something that is no function. -/
theorem beq_relates_functions :
    waitingCons.IsFunction ∧ (waitingCons == waitingCons) = true ∧
      ¬ ((waitingCons == waitingCons) = true ↔ ¬ waitingCons.Contains IsFunction) ∧
      (waitingCons == saturated "Cons" [.int 1]) = true ∧
      waitingCons ≠ saturated "Cons" [.int 1] := by
  have hfunction : waitingCons.IsFunction := by
    show 1 < 2
    decide
  have hself : (waitingCons == waitingCons) = true := by decide
  refine ⟨hfunction, hself, ?_, by decide, by simp [waitingCons, saturated]⟩
  intro h
  exact h.1 hself (.self hfunction)

end PolyLambda.Value
