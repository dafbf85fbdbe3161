import PolyLambda.Module

/-!
# What a term may use

A term looks up its local variables by their distance, its globals by name, and constructors,
primitives and tools in what the program and its host provide. `Within` says that all of this is
there: that enough variables are bound around the term, that its globals are among given names, and
that whatever else it mentions is allowed.

Both the checker and the evaluator meet nothing but what is mentioned, so this is the condition
under which they find what they look for, and under which two programs that agree on it treat a term
alike.
-/

namespace PolyLambda

/-- What a term mentions besides variables and globals. -/
inductive Mention where
  | constructor (name : String)
  | primitive (name : String)
  | tool (name : String)
  /-- That it is applied to a type. -/
  | typeArgument
  deriving DecidableEq

namespace Term

mutual

/-- What a term mentions, in patterns too. -/
def mentions : Term → List Mention
  | .var _ | .global _ | .int _ | .string _ => []
  | .lam _ body | .tlam _ body => body.mentions
  | .app fn arg => fn.mentions ++ arg.mentions
  | .tapp fn _ => .typeArgument :: fn.mentions
  | .con name args => .constructor name :: mentionsAll args
  | .case scrutinee branches => scrutinee.mentions ++ mentionsBranches branches
  | .letIn _ value body => value.mentions ++ body.mentions
  | .prim name => [.primitive name]
  | .tool name args => .tool name :: mentionsAll args

def mentionsAll : List Term → List Mention
  | [] => []
  | arg :: args => arg.mentions ++ mentionsAll args

def mentionsBranches : List Branch → List Mention
  | [] => []
  | .mk constructor _ body :: branches =>
    .constructor constructor :: (body.mentions ++ mentionsBranches branches)

end

section

variable (A : Mention → Prop) (names : List String)

mutual

/-- Whether a term uses no variables but the `depth` innermost ones, no globals but those in
`names`, and mentions nothing that is not allowed. -/
def Within : Nat → Term → Prop
  | depth, .var index => index < depth
  | _, .global name => name ∈ names
  | depth, .lam _ body => Within (depth + 1) body
  | depth, .app fn arg => Within depth fn ∧ Within depth arg
  | depth, .tlam _ body => Within depth body
  | depth, .tapp fn _ => A .typeArgument ∧ Within depth fn
  | depth, .con name args => A (.constructor name) ∧ AllWithin depth args
  | depth, .case scrutinee branches => Within depth scrutinee ∧ BranchesWithin depth branches
  | depth, .letIn _ value body => Within depth value ∧ Within (depth + 1) body
  | _, .int _ => True
  | _, .string _ => True
  | _, .prim name => A (.primitive name)
  | depth, .tool name args => A (.tool name) ∧ AllWithin depth args

def AllWithin : Nat → List Term → Prop
  | _, [] => True
  | depth, arg :: args => Within depth arg ∧ AllWithin depth args

/-- The body of a branch has the variables of the pattern besides those around it. -/
def BranchesWithin : Nat → List Branch → Prop
  | _, [] => True
  | depth, .mk constructor vars body :: branches =>
    A (.constructor constructor) ∧ Within (vars.length + depth) body ∧ BranchesWithin depth branches

end

end

section

variable {A B : Mention → Prop} {names names' : List String} {depth : Nat}

theorem AllWithin.mem {args : List Term} (h : AllWithin A names depth args) :
    ∀ arg ∈ args, Within A names depth arg := by
  induction args with
  | nil => simp
  | cons arg args ih => exact List.forall_mem_cons.2 ⟨h.1, ih h.2⟩

theorem BranchesWithin.mem {branches : List Branch} (h : BranchesWithin A names depth branches) :
    ∀ b ∈ branches, Within A names (b.vars.length + depth) b.body := by
  induction branches with
  | nil => simp
  | cons branch branches ih =>
    obtain ⟨constructor, vars, body⟩ := branch
    exact List.forall_mem_cons.2 ⟨h.2.1, ih h.2.2⟩

mutual

/-- Only what a term mentions has to be allowed. -/
theorem Within.mono (hnames : names ⊆ names') : (t : Term) → {depth : Nat} →
    (∀ x ∈ t.mentions, A x → B x) → Within A names depth t → Within B names' depth t
  | .var _, _, _, h => h
  | .global _, _, _, h => hnames h
  | .lam _ body, _, hB, h => Within.mono hnames body hB h
  | .app fn arg, _, hB, h => by
    rw [mentions, List.forall_mem_append] at hB
    exact ⟨Within.mono hnames fn hB.1 h.1, Within.mono hnames arg hB.2 h.2⟩
  | .tlam _ body, _, hB, h => Within.mono hnames body hB h
  | .tapp fn _, _, hB, h => by
    rw [mentions, List.forall_mem_cons] at hB
    exact ⟨hB.1 h.1, Within.mono hnames fn hB.2 h.2⟩
  | .con _ args, _, hB, h => by
    rw [mentions, List.forall_mem_cons] at hB
    exact ⟨hB.1 h.1, AllWithin.mono hnames args hB.2 h.2⟩
  | .case scrutinee branches, _, hB, h => by
    rw [mentions, List.forall_mem_append] at hB
    exact ⟨Within.mono hnames scrutinee hB.1 h.1, BranchesWithin.mono hnames branches hB.2 h.2⟩
  | .letIn _ value body, _, hB, h => by
    rw [mentions, List.forall_mem_append] at hB
    exact ⟨Within.mono hnames value hB.1 h.1, Within.mono hnames body hB.2 h.2⟩
  | .int _, _, _, h => h
  | .string _, _, _, h => h
  | .prim _, _, hB, h => hB _ List.mem_cons_self h
  | .tool _ args, _, hB, h => by
    rw [mentions, List.forall_mem_cons] at hB
    exact ⟨hB.1 h.1, AllWithin.mono hnames args hB.2 h.2⟩

theorem AllWithin.mono (hnames : names ⊆ names') : (args : List Term) → {depth : Nat} →
    (∀ x ∈ mentionsAll args, A x → B x) → AllWithin A names depth args →
    AllWithin B names' depth args
  | [], _, _, h => h
  | arg :: args, _, hB, h => by
    rw [mentionsAll, List.forall_mem_append] at hB
    exact ⟨Within.mono hnames arg hB.1 h.1, AllWithin.mono hnames args hB.2 h.2⟩

theorem BranchesWithin.mono (hnames : names ⊆ names') : (branches : List Branch) → {depth : Nat} →
    (∀ x ∈ mentionsBranches branches, A x → B x) → BranchesWithin A names depth branches →
    BranchesWithin B names' depth branches
  | [], _, _, h => h
  | .mk _ _ body :: branches, _, hB, h => by
    rw [mentionsBranches, List.forall_mem_cons, List.forall_mem_append] at hB
    exact ⟨hB.1 h.1, Within.mono hnames body hB.2.1 h.2.1,
      BranchesWithin.mono hnames branches hB.2.2 h.2.2⟩

end

theorem AllWithin.foldl_app {args : List Term} {t : Term} (ht : Within A names depth t)
    (hargs : AllWithin A names depth args) : Within A names depth (args.foldl .app t) := by
  induction args generalizing t with
  | nil => exact ht
  | cons arg args ih => exact ih ⟨ht, hargs.1⟩ hargs.2

end

end Term

/-- Whether each of the definitions uses only itself, those before it and the globals in `names`. -/
def Definition.InOrder (A : Mention → Prop) : List String → List Definition → Prop
  | _, [] => True
  | names, d :: ds => d.body.Within A (d.name :: names) 0 ∧ InOrder A (d.name :: names) ds

namespace Definition

variable {A B : Mention → Prop} {names : List String} {ds ds' : List Definition}

theorem InOrder.mono (hB : ∀ d ∈ ds, ∀ x ∈ d.body.mentions, A x → B x) (h : InOrder A names ds) :
    InOrder B names ds := by
  induction ds generalizing names with
  | nil => trivial
  | cons d ds ih =>
    obtain ⟨hd, hds⟩ := List.forall_mem_cons.1 hB
    exact ⟨h.1.mono (List.Subset.refl _) d.body hd, ih hds h.2⟩

/-- Definitions that follow others may use them. -/
theorem inOrder_append_iff : InOrder A names (ds ++ ds') ↔
    InOrder A names ds ∧ InOrder A ((ds.map Definition.name).reverse ++ names) ds' := by
  induction ds generalizing names with
  | nil => simp [InOrder]
  | cons d ds ih => simp [InOrder, ih, and_assoc]

end Definition

end PolyLambda
