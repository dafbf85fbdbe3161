import PolyLambda.Module
import PolyLambda.Proofs.Ty.Nameless

/-!
# Well-typed terms

What it means that a term has a type, apart from how the checker finds one. Types are closed here:
the variable of a type abstraction stands for any closed type whatever, and a type argument for any
one of them. So there are no scopes of type variables, and the types that are written in a term do
not matter.
-/

namespace PolyLambda

/-! ## Constructors -/

namespace Ty

theorem splitAlls_alls {vars : List String} {t : Ty} (h : t.splitAlls = ([], t)) :
    (alls vars t).splitAlls = (vars, t) := by
  induction vars with
  | nil => exact h
  | cons v vars ih =>
    have hcons : alls (v :: vars) t = .all v (alls vars t) := rfl
    rw [hcons, splitAlls, ih]

theorem splitArrows_arrows_data (params : List Ty) (name : String) (args : List Ty) :
    (arrows params (.data name args)).splitArrows = (params, .data name args) := by
  induction params with
  | nil => rfl
  | cons p params ih =>
    have hcons : arrows (p :: params) (.data name args) =
      .arrow p (arrows params (.data name args)) :=
      rfl
    rw [hcons, splitArrows, ih]

end Ty

namespace DataDecl

theorem splitAlls_constructorType (d : DataDecl) (c : ConstructorDecl) :
    (d.constructorType c).splitAlls = (d.params, Ty.arrows c.fields d.result) := by
  refine Ty.splitAlls_alls ?_
  cases c.fields <;> rfl

theorem splitArrows_constructor (d : DataDecl) (c : ConstructorDecl) :
    (Ty.arrows c.fields d.result).splitArrows = (c.fields, d.result) :=
  Ty.splitArrows_arrows_data c.fields d.name _

/-- What is declared of a constructor can be read off its type. -/
theorem constructorType_inj {d d' : DataDecl} {c c' : ConstructorDecl}
    (h : d.constructorType c = d'.constructorType c') :
    d.params = d'.params ∧ c.fields = c'.fields ∧ d.result = d'.result := by
  have halls := d.splitAlls_constructorType c
  rw [h, d'.splitAlls_constructorType c', Prod.mk.injEq] at halls
  have harrows := d.splitArrows_constructor c
  rw [← halls.2, d'.splitArrows_constructor c', Prod.mk.injEq] at harrows
  exact ⟨halls.1.symm, harrows.1.symm, harrows.2.symm⟩

/-- The meaning of a data type determines what its parameters stand for. -/
theorem eq_of_under_result_eq {d : DataDecl} {ρ ρ' : Valuation}
    (h : d.result.under ρ = d.result.under ρ') : ∀ v ∈ d.params, ρ v = ρ' v := by
  rw [result, Ty.under_data, Ty.under_data, Nameless.data.injEq, List.map_map, List.map_map] at h
  intro v hv
  have hv := List.map_inj_left.1 h.2 v hv
  rw [Function.comp_apply, Function.comp_apply, Ty.under_var, Ty.under_var] at hv
  exact ClosedType.ext hv

end DataDecl

/-- A constructor of a signature with types for the parameters of its data type. -/
structure Signature.Instance (sig : Signature) (name : String) where
  decl : DataDecl
  constructor : ConstructorDecl
  params : Valuation
  type_eq : sig.constructorTypes.get? name = some (decl.constructorType constructor)
  closed : ∀ v ∈ Ty.freeVarsAll constructor.fields, v ∈ decl.params

namespace Signature.Instance

variable {sig : Signature} {name : String}

/-- The types of the fields. -/
def fields (i : sig.Instance name) : List Nameless :=
  i.constructor.fields.map (Ty.under i.params)

/-- The type of the values with all fields. -/
def result (i : sig.Instance name) : Nameless :=
  i.decl.result.under i.params

/-- The type of the constructor with the first `given` fields, before it is applied to types for the
parameters `vars`. -/
def partialType (i : sig.Instance name) (vars : List String) (given : Nat) : Nameless :=
  (Ty.alls vars (Ty.arrows (i.constructor.fields.drop given) i.decl.result)).under i.params

theorem constructorArity?_eq (i : sig.Instance name) :
    sig.constructorArity? name = some i.fields.length := by
  rw [constructorArity?, i.type_eq, Option.map_some, DataDecl.splitAlls_constructorType,
    DataDecl.splitArrows_constructor, fields, List.length_map]

/-- The type of a value determines those of its fields. -/
theorem fields_eq {i j : sig.Instance name} (h : i.result = j.result) : i.fields = j.fields := by
  obtain ⟨hparams, hfields, hresult⟩ :=
    DataDecl.constructorType_inj (Option.some.inj (i.type_eq.symm.trans j.type_eq))
  rw [result, result, hresult] at h
  rw [fields, fields, hfields]
  refine List.map_congr_left fun t ht => Ty.under_congr fun v hv => ?_
  refine DataDecl.eq_of_under_result_eq h v (j.closed v ?_)
  exact Ty.mem_freeVarsAll.2 ⟨t, ht, hv⟩

theorem partialType_nil (i : sig.Instance name) (given : Nat) :
    i.partialType [] given = Nameless.arrows (i.fields.drop given) i.result := by
  rw [partialType, fields, ← List.map_drop]
  exact Ty.under_arrows i.params _ _

theorem result_eq (i : sig.Instance name) :
    i.result = .data i.decl.name (i.decl.params.map fun v => (i.params v).type) := by
  rw [result, DataDecl.result, Ty.under_data, List.map_map]
  exact congrArg _ (List.map_congr_left fun v _ => Ty.under_var i.params v)

theorem partialType_cons (i : sig.Instance name) (v : String) (vars : List String) (given : Nat) :
    ∃ b, i.partialType (v :: vars) given = .all b ∧ ∀ a : ClosedType, ∃ j : sig.Instance name,
      j.fields.length = i.fields.length ∧
        Nameless.openAt a.type 0 b = j.partialType vars given := by
  obtain ⟨b, hb, hopen⟩ := Ty.exists_under_all i.params v
    (Ty.alls vars (Ty.arrows (i.constructor.fields.drop given) i.decl.result))
  refine ⟨b, hb, fun a => ⟨{ i with params := i.params.set v a }, ?_, hopen a⟩⟩
  rw [fields, fields, List.length_map, List.length_map]

/-- With all its fields a constructor is data, without some it is a function, and before it is
applied to types it is quantified. -/
theorem partialType_cases (i : sig.Instance name) (vars : List String) (given : Nat) :
    (vars = [] ∧ i.fields.drop given = [] ∧ i.partialType vars given = i.result) ∨
      (∃ param rest, vars = [] ∧ i.fields.drop given = param :: rest ∧
        i.partialType vars given = .arrow param (Nameless.arrows rest i.result)) ∨
      ∃ b, vars ≠ [] ∧ i.partialType vars given = .all b ∧
        ∀ a : ClosedType, ∃ (j : sig.Instance name) (rest : List String),
          j.fields.length = i.fields.length ∧
          Nameless.openAt a.type 0 b = j.partialType rest given := by
  cases vars with
  | nil =>
    rw [partialType_nil]
    cases i.fields.drop given with
    | nil => exact .inl ⟨rfl, rfl, rfl⟩
    | cons param rest => exact .inr (.inl ⟨param, rest, rfl, rfl, rfl⟩)
  | cons v vars =>
    obtain ⟨b, hb, hopen⟩ := i.partialType_cons v vars given
    exact .inr
      (.inr ⟨b, List.cons_ne_nil v vars, hb, fun a => (hopen a).imp fun j hj => ⟨vars, hj⟩⟩)

/-- A constructor that is a function still has fields to come. -/
theorem partialType_eq_arrow {i : sig.Instance name} {vars : List String} {given : Nat}
    {param result : Nameless} (h : i.partialType vars given = .arrow param result) :
    vars = [] ∧ ∃ rest, i.fields.drop given = param :: rest ∧
      result = Nameless.arrows rest i.result := by
  obtain ⟨-, -, heq⟩ | ⟨_, rest, hvars, hdrop, heq⟩ | ⟨_, -, heq, -⟩ :=
    i.partialType_cases vars given
  · rw [heq, result_eq] at h
    cases h
  · obtain ⟨rfl, rfl⟩ := Nameless.arrow.inj (heq.symm.trans h)
    exact ⟨hvars, rest, hdrop, rfl⟩
  · cases heq.symm.trans h

/-- A constructor that is quantified can be applied to a type. -/
theorem partialType_eq_all {i : sig.Instance name} {vars : List String} {given : Nat}
    {b : Nameless} (h : i.partialType vars given = .all b) :
    vars ≠ [] ∧ ∀ a : ClosedType, ∃ (j : sig.Instance name) (rest : List String),
      j.fields.length = i.fields.length ∧
        Nameless.openAt a.type 0 b = j.partialType rest given := by
  obtain ⟨-, -, heq⟩ | ⟨_, _, -, -, heq⟩ | ⟨_, hvars, heq, hopen⟩ := i.partialType_cases vars given
  · rw [heq, result_eq] at h
    cases h
  · cases heq.symm.trans h
  · obtain rfl := Nameless.all.inj (heq.symm.trans h)
    exact ⟨hvars, hopen⟩

/-- A constructor that is data has all its fields. -/
theorem partialType_eq_data {i : sig.Instance name} {vars : List String} {given : Nat}
    {type : String} {args : List Nameless} (h : i.partialType vars given = .data type args) :
    i.fields.drop given = [] ∧ i.result = .data type args := by
  obtain ⟨-, hdrop, heq⟩ | ⟨_, _, -, -, heq⟩ | ⟨_, -, heq, -⟩ := i.partialType_cases vars given
  · exact ⟨hdrop, heq.symm.trans h⟩
  · cases heq.symm.trans h
  · cases heq.symm.trans h

/-- No constructor is an integer or a string. -/
theorem partialType_ne_prim (i : sig.Instance name) (vars : List String) (given : Nat)
    (type : String) :
    i.partialType vars given ≠ .prim type := by
  intro h
  obtain ⟨-, -, heq⟩ | ⟨_, _, -, -, heq⟩ | ⟨_, -, heq, -⟩ := i.partialType_cases vars given
  · rw [heq, result_eq] at h
    cases h
  · cases heq.symm.trans h
  · cases heq.symm.trans h

end Signature.Instance

/-! ## Terms -/

namespace Term

section

variable (sig : Signature) (globals : String → Option Nameless)

mutual

/-- Whether a term has a type where the variables in scope have the types `vars`. A constructor
without arguments may keep quantifiers. -/
def HasType : List Nameless → Term → Nameless → Prop
  | vars, .var index, type => vars[index]? = some type
  | _, .global name, type => globals name = some type
  | vars, .lam _ body, type =>
    ∃ param result, type = .arrow param result ∧ HasType (param :: vars) body result
  | vars, .app fn arg, type => ∃ param, HasType vars fn (.arrow param type) ∧ HasType vars arg param
  | vars, .tlam _ body, type =>
    ∃ b, type = .all b ∧ ∀ a : ClosedType, HasType vars body (Nameless.openAt a.type 0 b)
  | vars, .tapp fn _, type =>
    ∃ (b : Nameless) (a : ClosedType), type = Nameless.openAt a.type 0 b ∧ HasType vars fn (.all b)
  | vars, .con name args, type =>
    ∃ (i : sig.Instance name) (quantified : List String), (quantified = [] ∨ args = []) ∧
      type = i.partialType quantified args.length ∧ args.length ≤ i.fields.length ∧
      HaveTypes vars args (i.fields.take args.length)
  | vars, .case scrutinee branches, type =>
    ∃ s, branches ≠ [] ∧ HasType vars scrutinee s ∧ BranchesHaveType vars s branches type
  | vars, .letIn _ value body, type => ∃ t, HasType vars value t ∧ HasType (t :: vars) body type
  | _, .int _, type => type = .prim "Int"
  | _, .string _, type => type = .prim "String"
  | _, .prim name, type => ∃ t, sig.primitiveTypes.get? name = some t ∧ type = t.nameless
  | _, .tool _ _, _ => False

/-- Whether each of the terms has the type in its place. -/
def HaveTypes : List Nameless → List Term → List Nameless → Prop
  | _, [], types => types = []
  | vars, arg :: args, types =>
    ∃ t ts, types = t :: ts ∧ HasType vars arg t ∧ HaveTypes vars args ts

/-- Whether the branches match values of the type `scrutinee` and have the type `type`. -/
def BranchesHaveType : List Nameless → Nameless → List Branch → Nameless → Prop
  | _, _, [], _ => True
  | vars, scrutinee, .mk constructor names body :: branches, type =>
    (∃ i : sig.Instance constructor, i.result = scrutinee ∧ i.fields.length = names.length ∧
      HasType (i.fields ++ vars) body type) ∧ BranchesHaveType vars scrutinee branches type

end

end

/-! ## What a term mentions -/

mutual

/-- The globals that a term mentions. -/
def globals : Term → List String
  | .var _ | .int _ | .string _ | .prim _ => []
  | .global name => [name]
  | .lam _ body | .tlam _ body => body.globals
  | .app fn arg => fn.globals ++ arg.globals
  | .tapp fn _ => fn.globals
  | .con _ args | .tool _ args => globalsAll args
  | .case scrutinee branches => scrutinee.globals ++ globalsBranches branches
  | .letIn _ value body => value.globals ++ body.globals

def globalsAll : List Term → List String
  | [] => []
  | arg :: args => arg.globals ++ globalsAll args

def globalsBranches : List Branch → List String
  | [] => []
  | .mk _ _ body :: branches => body.globals ++ globalsBranches branches

end

mutual

/-- The tools that a term calls. -/
def tools : Term → List String
  | .var _ | .int _ | .string _ | .prim _ | .global _ => []
  | .lam _ body | .tlam _ body => body.tools
  | .app fn arg => fn.tools ++ arg.tools
  | .tapp fn _ => fn.tools
  | .con _ args => toolsAll args
  | .tool name args => name :: toolsAll args
  | .case scrutinee branches => scrutinee.tools ++ toolsBranches branches
  | .letIn _ value body => value.tools ++ body.tools

def toolsAll : List Term → List String
  | [] => []
  | arg :: args => arg.tools ++ toolsAll args

def toolsBranches : List Branch → List String
  | [] => []
  | .mk _ _ body :: branches => body.tools ++ toolsBranches branches

end

section

variable {sig : Signature} {G G' : String → Option Nameless}

mutual

/-- Only the types of the globals that a term mentions matter. -/
theorem HasType.mono : (t : Term) → {vars : List Nameless} → {type : Nameless} →
    (∀ name ∈ t.globals, ∀ u, G name = some u → G' name = some u) → t.HasType sig G vars type →
    t.HasType sig G' vars type
  | .var _, _, _, _, h => h
  | .global name, _, _, hG, h => by
    rw [HasType] at h ⊢
    exact hG name List.mem_cons_self _ h
  | .lam _ body, _, _, hG, h => by
    rw [HasType] at h ⊢
    obtain ⟨param, result, rfl, hbody⟩ := h
    exact ⟨param, result, rfl, HasType.mono body hG hbody⟩
  | .app fn arg, _, _, hG, h => by
    rw [globals, List.forall_mem_append] at hG
    rw [HasType] at h ⊢
    obtain ⟨param, hfn, harg⟩ := h
    exact ⟨param, HasType.mono fn hG.1 hfn, HasType.mono arg hG.2 harg⟩
  | .tlam _ body, _, _, hG, h => by
    rw [HasType] at h ⊢
    obtain ⟨b, rfl, hbody⟩ := h
    exact ⟨b, rfl, fun a => HasType.mono body hG (hbody a)⟩
  | .tapp fn _, _, _, hG, h => by
    rw [HasType] at h ⊢
    obtain ⟨b, a, rfl, hfn⟩ := h
    exact ⟨b, a, rfl, HasType.mono fn hG hfn⟩
  | .con _ args, _, _, hG, h => by
    rw [HasType] at h ⊢
    obtain ⟨i, quantified, hquantified, rfl, hlength, hargs⟩ := h
    exact ⟨i, quantified, hquantified, rfl, hlength, HaveTypes.mono args hG hargs⟩
  | .case scrutinee branches, _, _, hG, h => by
    rw [globals, List.forall_mem_append] at hG
    rw [HasType] at h ⊢
    obtain ⟨s, hne, hs, hbranches⟩ := h
    exact ⟨s, hne, HasType.mono scrutinee hG.1 hs, BranchesHaveType.mono branches hG.2 hbranches⟩
  | .letIn _ value body, _, _, hG, h => by
    rw [globals, List.forall_mem_append] at hG
    rw [HasType] at h ⊢
    obtain ⟨t, hvalue, hbody⟩ := h
    exact ⟨t, HasType.mono value hG.1 hvalue, HasType.mono body hG.2 hbody⟩
  | .int _, _, _, _, h => h
  | .string _, _, _, _, h => h
  | .prim _, _, _, _, h => h
  | .tool _ _, _, _, _, h => by
    rw [HasType] at h
    exact h.elim

theorem HaveTypes.mono : (args : List Term) → {vars types : List Nameless} →
    (∀ name ∈ globalsAll args, ∀ u, G name = some u → G' name = some u) →
    HaveTypes sig G vars args types →
    HaveTypes sig G' vars args types
  | [], _, _, _, h => h
  | arg :: args, _, _, hG, h => by
    rw [globalsAll, List.forall_mem_append] at hG
    rw [HaveTypes] at h ⊢
    obtain ⟨t, ts, rfl, harg, hargs⟩ := h
    exact ⟨t, ts, rfl, HasType.mono arg hG.1 harg, HaveTypes.mono args hG.2 hargs⟩

theorem BranchesHaveType.mono : (branches : List Branch) → {vars : List Nameless} →
    {scrutinee type : Nameless} →
    (∀ name ∈ globalsBranches branches, ∀ u, G name = some u → G' name = some u) →
    BranchesHaveType sig G vars scrutinee branches type →
    BranchesHaveType sig G' vars scrutinee branches type
  | [], _, _, _, _, h => h
  | .mk _ _ body :: branches, _, _, _, hG, h => by
    rw [globalsBranches, List.forall_mem_append] at hG
    rw [BranchesHaveType] at h ⊢
    obtain ⟨⟨i, hresult, hlength, hbody⟩, hbranches⟩ := h
    exact ⟨⟨i, hresult, hlength, HasType.mono body hG.1 hbody⟩,
      BranchesHaveType.mono branches hG.2 hbranches⟩

end

end

end Term

/-- Whether definitions have different names, none of them in `seen`, and each one mentions no
globals but those in `seen`, itself and the ones before it. -/
def Definition.Scoped : List String → List Definition → Prop
  | _, [] => True
  | seen, d :: ds =>
    d.name ∉ seen ∧ (∀ name ∈ d.body.globals, name ∈ d.name :: seen) ∧ Scoped (d.name :: seen) ds

theorem Definition.Scoped.name_not_mem {seen : List String} {ds : List Definition}
    (h : Scoped seen ds) {d : Definition} (hd : d ∈ ds) : d.name ∉ seen := by
  induction ds generalizing seen with
  | nil => exact absurd hd List.not_mem_nil
  | cons d' ds ih =>
    obtain ⟨hnew, -, hrest⟩ := h
    rcases List.mem_cons.1 hd with rfl | hd
    · exact hnew
    · exact fun hmem => ih hrest hd (List.mem_cons_of_mem _ hmem)

end PolyLambda
