import PolyLambda.Table

/-!
# Types

Types with named variables. Two types are equal only if their bound variables have the same names.
-/

namespace PolyLambda

inductive Ty where
  /-- A variable: bound by a quantifier, or standing for a type not known yet. -/
  | var (name : String)
  | arrow (param result : Ty)
  | all (v : String) (body : Ty)
  /-- A data type with its arguments. -/
  | data (name : String) (args : List Ty)
  /-- A type without structure of its own, such as the integers. -/
  | prim (name : String)
  deriving Inhabited

namespace Ty

/-! ## Induction and equality -/

/-- Induction on types, with the hypothesis for every argument of a data type. -/
@[induction_eliminator]
theorem induct {motive : Ty → Prop}
    (var : ∀ name, motive (.var name))
    (arrow : ∀ param result, motive param → motive result → motive (.arrow param result))
    (all : ∀ v body, motive body → motive (.all v body))
    (data : ∀ name args, (∀ arg ∈ args, motive arg) → motive (.data name args))
    (prim : ∀ name, motive (.prim name)) (t : Ty) : motive t :=
  @Ty.rec motive (fun args => ∀ arg ∈ args, motive arg) var arrow all data prim
    (fun _ h => absurd h List.not_mem_nil)
    (fun _ _ hHead hTail => List.forall_mem_cons.2 ⟨hHead, hTail⟩) t

mutual

def beq : Ty → Ty → Bool
  | .var a, .var b => a == b
  | .arrow p r, .arrow p' r' => beq p p' && beq r r'
  | .all v b, .all v' b' => v == v' && beq b b'
  | .data n args, .data n' args' => n == n' && beqArgs args args'
  | .prim a, .prim b => a == b
  | _, _ => false

def beqArgs : List Ty → List Ty → Bool
  | [], [] => true
  | t :: ts, t' :: ts' => beq t t' && beqArgs ts ts'
  | _, _ => false

end

mutual

theorem beq_iff_eq : (s t : Ty) → (beq s t = true ↔ s = t)
  | .var _, t => by cases t <;> simp [beq]
  | .arrow p r, t => by cases t <;> simp [beq, beq_iff_eq p, beq_iff_eq r]
  | .all _ b, t => by cases t <;> simp [beq, beq_iff_eq b]
  | .data _ args, t => by cases t <;> simp [beq, beqArgs_iff_eq args]
  | .prim _, t => by cases t <;> simp [beq]

theorem beqArgs_iff_eq : (ss ts : List Ty) → (beqArgs ss ts = true ↔ ss = ts)
  | [], ts => by cases ts <;> simp [beqArgs]
  | s :: ss, ts => by cases ts <;> simp [beqArgs, beq_iff_eq s, beqArgs_iff_eq ss]

end

instance : DecidableEq Ty := fun s t => decidable_of_iff _ (beq_iff_eq s t)

/-! ## Size -/

mutual

/-- The number of nodes. -/
def size : Ty → Nat
  | .var _ => 1
  | .arrow p r => 1 + p.size + r.size
  | .all _ b => 1 + b.size
  | .data _ args => 1 + sizes args
  | .prim _ => 1

def sizes : List Ty → Nat
  | [] => 0
  | t :: ts => t.size + sizes ts

end

theorem size_pos (t : Ty) : 0 < t.size := by
  cases t <;> simp only [size] <;> omega

theorem size_le_sizes {t : Ty} {ts : List Ty} (h : t ∈ ts) : t.size ≤ sizes ts := by
  induction h with
  | head => simp [sizes]
  | tail _ _ ih => simp only [sizes]; omega

/-- Induction on types for what renames the variable of a quantifier before it goes on with the
body: the hypothesis holds for every type of the size of the body. -/
theorem renameInduct {motive : Ty → Prop}
    (var : ∀ name, motive (.var name))
    (arrow : ∀ param result, motive param → motive result → motive (.arrow param result))
    (all : ∀ v body, (∀ t : Ty, t.size = body.size → motive t) → motive (.all v body))
    (data : ∀ name args, (∀ arg ∈ args, motive arg) → motive (.data name args))
    (prim : ∀ name, motive (.prim name)) (t : Ty) : motive t := by
  induction hn : t.size using Nat.strongRecOn generalizing t with
  | ind n ih =>
    subst hn
    have hpart (u : Ty) (h : u.size < t.size) : motive u := ih u.size h u rfl
    cases t with
    | var name => exact var name
    | arrow p r =>
      exact arrow p r (hpart p (by simp only [size]; omega)) (hpart r (by simp only [size]; omega))
    | all v b => exact all v b fun u hu => hpart u (by simp only [size]; omega)
    | data name args =>
      refine data name args fun arg harg => hpart arg ?_
      have hle := size_le_sizes harg
      simp only [size]
      omega
    | prim name => exact prim name

/-! ## Free variables -/

mutual

/-- The free variables from left to right, each as often as it occurs. -/
def freeVars : Ty → List String
  | .var name => [name]
  | .arrow p r => p.freeVars ++ r.freeVars
  | .all v b => b.freeVars.filter (· ≠ v)
  | .data _ args => freeVarsAll args
  | .prim _ => []

def freeVarsAll : List Ty → List String
  | [] => []
  | t :: ts => t.freeVars ++ freeVarsAll ts

end

theorem mem_freeVarsAll {v : String} {ts : List Ty} :
    v ∈ freeVarsAll ts ↔ ∃ t ∈ ts, v ∈ t.freeVars := by
  induction ts with
  | nil => simp [freeVarsAll]
  | cons t ts ih => simp [freeVarsAll, ih]

/-- Whether `v` is free in `t`. -/
def occursIn (v : String) (t : Ty) : Bool :=
  v ∈ t.freeVars

/-- The free variables in order, each once. -/
def sortedFreeVars (t : Ty) : List String :=
  (Table.ofList (t.freeVars.map (·, ()))).names

/-! ## Chains of arrows and quantifiers -/

/-- The function type with the parameters `params`, curried. -/
def arrows (params : List Ty) (result : Ty) : Ty :=
  params.foldr .arrow result

/-- The type `body` under a quantifier for each of `vars`, the first one outermost. -/
def alls (vars : List String) (body : Ty) : Ty :=
  vars.foldr .all body

/-- The variables of the outermost quantifiers, and the type under them. -/
def splitAlls : Ty → List String × Ty
  | .all v b => (v :: b.splitAlls.1, b.splitAlls.2)
  | t => ([], t)

/-- The parameters of a curried function type, and its final result. -/
def splitArrows : Ty → List Ty × Ty
  | .arrow p r => (p :: r.splitArrows.1, r.splitArrows.2)
  | t => ([], t)

theorem alls_splitAlls (t : Ty) : alls t.splitAlls.1 t.splitAlls.2 = t := by
  fun_induction splitAlls t with
  | case1 v b ih => simpa [alls] using ih
  | case2 => rfl

theorem arrows_splitArrows (t : Ty) : arrows t.splitArrows.1 t.splitArrows.2 = t := by
  fun_induction splitArrows t with
  | case1 p r ih => simpa [arrows] using ih
  | case2 => rfl

/-! ## The types that the language knows by itself -/

def int : Ty := .prim "Int"

def string : Ty := .prim "String"

def bool : Ty := .data "Bool" []

/-! ## Text -/

/-- A type that is no arrow, written by itself, or as the result that ends a chain of arrows. -/
def closeChain (result : Bool) (text : String) : String :=
  if result then " " ++ text ++ ")" else text

mutual

/-- The text of a type, by itself or as the result of the arrow before it. A chain of arrows is
written in one pair of parentheses. -/
def renderAs (result : Bool) : Ty → String
  | .var name => closeChain result ("'" ++ name)
  | .arrow p r => (if result then " " else "(-> ") ++ renderAs false p ++ renderAs true r
  | .all v b => closeChain result ("(forall '" ++ v ++ " " ++ renderAs false b ++ ")")
  | .data name [] => closeChain result name
  | .data name (arg :: args) =>
    closeChain result ("(" ++ name ++ renderArgs (arg :: args) ++ ")")
  | .prim name => closeChain result name

/-- Types one after another, a space before each. -/
def renderArgs : List Ty → String
  | [] => ""
  | t :: ts => " " ++ renderAs false t ++ renderArgs ts

end

/-- The text of a type. -/
def render (t : Ty) : String :=
  t.renderAs false

end Ty

end PolyLambda
