import PolyLambda.Proofs.Ty.FreeVars

/-!
# Types up to the names of bound variables

A type without names has numbers for its bound variables: 0 is bound by the innermost quantifier
around it, 1 by the next one, and so on. Two types are the same up to the names of bound variables
exactly if they are made into the same nameless type.

Free variables are replaced along the way, by types that are closed. That makes a meaning for types:
the meaning of a type under a substitution is its meaning where the variables stand for what the
substitution says (`Substitution.under_apply`), whatever had to be renamed.
-/

namespace PolyLambda

inductive Nameless where
  /-- A variable, by the number of quantifiers between it and the one that binds it. -/
  | bound (index : Nat)
  | free (name : String)
  | arrow (param result : Nameless)
  | all (body : Nameless)
  | data (name : String) (args : List Nameless)
  | prim (name : String)

namespace Nameless

/-- Induction on nameless types, with the hypothesis for every argument of a data type. -/
@[induction_eliminator]
theorem induct {motive : Nameless → Prop}
    (bound : ∀ index, motive (.bound index))
    (free : ∀ name, motive (.free name))
    (arrow : ∀ param result, motive param → motive result → motive (.arrow param result))
    (all : ∀ body, motive body → motive (.all body))
    (data : ∀ name args, (∀ arg ∈ args, motive arg) → motive (.data name args))
    (prim : ∀ name, motive (.prim name)) (t : Nameless) : motive t :=
  @Nameless.rec motive (fun args => ∀ arg ∈ args, motive arg) bound free arrow all data prim
    (fun _ h => absurd h List.not_mem_nil)
    (fun _ _ hHead hTail => List.forall_mem_cons.2 ⟨hHead, hTail⟩) t

mutual

def beq : Nameless → Nameless → Bool
  | .bound i, .bound j => i == j
  | .free a, .free b => a == b
  | .arrow p r, .arrow p' r' => beq p p' && beq r r'
  | .all b, .all b' => beq b b'
  | .data n args, .data n' args' => n == n' && beqArgs args args'
  | .prim a, .prim b => a == b
  | _, _ => false

def beqArgs : List Nameless → List Nameless → Bool
  | [], [] => true
  | t :: ts, t' :: ts' => beq t t' && beqArgs ts ts'
  | _, _ => false

end

mutual

theorem beq_iff_eq : (s t : Nameless) → (beq s t = true ↔ s = t)
  | .bound _, t => by cases t <;> simp [beq]
  | .free _, t => by cases t <;> simp [beq]
  | .arrow p r, t => by cases t <;> simp [beq, beq_iff_eq p, beq_iff_eq r]
  | .all b, t => by cases t <;> simp [beq, beq_iff_eq b]
  | .data _ args, t => by cases t <;> simp [beq, beqArgs_iff_eq args]
  | .prim _, t => by cases t <;> simp [beq]

theorem beqArgs_iff_eq : (ss ts : List Nameless) → (beqArgs ss ts = true ↔ ss = ts)
  | [], ts => by cases ts <;> simp [beqArgs]
  | s :: ss, ts => by cases ts <;> simp [beqArgs, beq_iff_eq s, beqArgs_iff_eq ss]

end

instance : DecidableEq Nameless := fun s t => decidable_of_iff _ (beq_iff_eq s t)

mutual

/-- Whether the variables of a type are bound by its own quantifiers or the next `depth` ones
around it. -/
def ClosedAt : Nat → Nameless → Prop
  | depth, .bound index => index < depth
  | _, .free _ | _, .prim _ => True
  | depth, .arrow p r => p.ClosedAt depth ∧ r.ClosedAt depth
  | depth, .all b => b.ClosedAt (depth + 1)
  | depth, .data _ args => AllClosedAt depth args

def AllClosedAt : Nat → List Nameless → Prop
  | _, [] => True
  | depth, t :: ts => t.ClosedAt depth ∧ AllClosedAt depth ts

end

theorem allClosedAt_iff {depth : Nat} {ts : List Nameless} :
    AllClosedAt depth ts ↔ ∀ t ∈ ts, t.ClosedAt depth := by
  induction ts with
  | nil => exact iff_of_true trivial (List.forall_mem_nil _)
  | cons t ts ih => rw [AllClosedAt, ih, List.forall_mem_cons]

theorem ClosedAt.mono {t : Nameless} {depth depth' : Nat} (h : t.ClosedAt depth)
    (hle : depth ≤ depth') : t.ClosedAt depth' := by
  induction t generalizing depth depth' with
  | bound index => exact Nat.lt_of_lt_of_le h hle
  | free name => trivial
  | arrow p r ihp ihr => exact ⟨ihp h.1 hle, ihr h.2 hle⟩
  | all b ih =>
    have hb : b.ClosedAt (depth + 1) := h
    exact ih hb (Nat.succ_le_succ hle)
  | data name args ih =>
    rw [ClosedAt, allClosedAt_iff] at h ⊢
    exact fun t ht => ih t ht (h t ht) hle
  | prim name => trivial

mutual

/-- The type with the closed type `a` for the variable `index`. -/
def openAt (a : Nameless) : Nat → Nameless → Nameless
  | index, .bound i => if i = index then a else .bound i
  | _, .free name => .free name
  | index, .arrow p r => .arrow (openAt a index p) (openAt a index r)
  | index, .all b => .all (openAt a (index + 1) b)
  | index, .data name args => .data name (openAllAt a index args)
  | _, .prim name => .prim name

def openAllAt (a : Nameless) : Nat → List Nameless → List Nameless
  | _, [] => []
  | index, t :: ts => openAt a index t :: openAllAt a index ts

end

theorem openAllAt_eq_map (a : Nameless) (index : Nat) (ts : List Nameless) :
    openAllAt a index ts = ts.map (openAt a index) := by
  induction ts with
  | nil => rfl
  | cons t ts ih => rw [openAllAt, ih, List.map_cons]

/-- A variable that does not occur is replaced nowhere. -/
theorem openAt_of_closedAt {a t : Nameless} {depth index : Nat} (h : t.ClosedAt depth)
    (hle : depth ≤ index) : openAt a index t = t := by
  induction t generalizing depth index with
  | bound i =>
    have hi : i < depth := h
    rw [openAt, if_neg (by omega)]
  | free name => rw [openAt]
  | arrow p r ihp ihr => rw [openAt, ihp h.1 hle, ihr h.2 hle]
  | all b ih => rw [openAt, ih h (Nat.succ_le_succ hle)]
  | data name args ih =>
    rw [ClosedAt, allClosedAt_iff] at h
    rw [openAt, openAllAt_eq_map, List.map_congr_left fun t ht => ih t ht (h t ht) hle,
      List.map_id']
  | prim name => rw [openAt]

mutual

/-- The type with other types for its free variables. -/
def replace (f : String → Nameless) : Nameless → Nameless
  | .bound index => .bound index
  | .free name => f name
  | .arrow p r => .arrow (p.replace f) (r.replace f)
  | .all b => .all (b.replace f)
  | .data name args => .data name (replaceAll f args)
  | .prim name => .prim name

def replaceAll (f : String → Nameless) : List Nameless → List Nameless
  | [] => []
  | t :: ts => t.replace f :: replaceAll f ts

end

theorem replaceAll_eq_map (f : String → Nameless) (ts : List Nameless) :
    replaceAll f ts = ts.map (replace f) := by
  induction ts with
  | nil => rfl
  | cons t ts ih => rw [replaceAll, ih, List.map_cons]

/-- A function type from one parameter after the other. -/
def arrows (params : List Nameless) (result : Nameless) : Nameless :=
  params.foldr .arrow result

end Nameless

/-- A nameless type that can stand anywhere. -/
@[ext]
structure ClosedType where
  type : Nameless
  closed : type.ClosedAt 0

/-- What free variables stand for. -/
abbrev Valuation := String → ClosedType

/-- The valuation that gives `v` another meaning. -/
def Valuation.set (ρ : Valuation) (v : String) (a : ClosedType) : Valuation :=
  fun w => if w = v then a else ρ w

/-- The valuation that takes free variables for what they are. -/
def Valuation.names : Valuation :=
  fun v => ⟨.free v, trivial⟩

namespace Ty

/-- What free variables stand for at a place under a given number of quantifiers. -/
abbrev Placement := String → Nat → Nameless

/-- The placement inside a quantifier of `v` that is itself under `depth` others. -/
def Placement.bind (σ : Placement) (v : String) (depth : Nat) : Placement :=
  fun w => if w = v then fun n => .bound (n - depth - 1) else σ w

theorem Placement.bind_self (σ : Placement) (v : String) (depth : Nat) :
    σ.bind v depth v = fun n => .bound (n - depth - 1) :=
  if_pos rfl

theorem Placement.bind_of_ne (σ : Placement) {v w : String} (h : w ≠ v) (depth : Nat) :
    σ.bind v depth w = σ w :=
  if_neg h

mutual

/-- The nameless type that a type under `depth` quantifiers is, with `σ` for its free variables. -/
def place : Nat → Placement → Ty → Nameless
  | depth, σ, .var name => σ name depth
  | depth, σ, .arrow p r => .arrow (p.place depth σ) (r.place depth σ)
  | depth, σ, .all v b => .all (b.place (depth + 1) (σ.bind v depth))
  | depth, σ, .data name args => .data name (placeAll depth σ args)
  | _, _, .prim name => .prim name

def placeAll : Nat → Placement → List Ty → List Nameless
  | _, _, [] => []
  | depth, σ, t :: ts => t.place depth σ :: placeAll depth σ ts

end

/-- The meaning of a type where its free variables stand for what `ρ` says. -/
def under (ρ : Valuation) (t : Ty) : Nameless :=
  t.place 0 fun v _ => (ρ v).type

/-- A type without the names of its bound variables. -/
def nameless (t : Ty) : Nameless :=
  t.under .names

theorem placeAll_eq_map (depth : Nat) (σ : Placement) (ts : List Ty) :
    placeAll depth σ ts = ts.map (place depth σ) := by
  induction ts with
  | nil => rfl
  | cons t ts ih => rw [placeAll, ih, List.map_cons]

section

variable (depth : Nat) (σ : Placement)

theorem place_var (name : String) : (var name).place depth σ = σ name depth := rfl

theorem place_arrow (p r : Ty) :
    (arrow p r).place depth σ = .arrow (p.place depth σ) (r.place depth σ) := rfl

theorem place_all (v : String) (b : Ty) :
    (all v b).place depth σ = .all (b.place (depth + 1) (σ.bind v depth)) := rfl

theorem place_data (name : String) (args : List Ty) :
    (data name args).place depth σ = .data name (args.map (place depth σ)) :=
  congrArg _ (placeAll_eq_map depth σ args)

theorem place_prim (name : String) : (prim name).place depth σ = .prim name := rfl

end

/-! ## Only free variables matter -/

/-- Two placements make the same of a type if they do of its free variables, at corresponding
depths. -/
theorem place_shift {n m : Nat} {σ τ : Placement} {t : Ty}
    (h : ∀ v ∈ t.freeVars, ∀ j, σ v (n + j) = τ v (m + j)) : t.place n σ = t.place m τ := by
  induction t generalizing n m σ τ with
  | var name => exact h name List.mem_cons_self 0
  | arrow p r ihp ihr =>
    simp only [freeVars, List.mem_append] at h
    rw [place_arrow, place_arrow, ihp fun v hv => h v (.inl hv), ihr fun v hv => h v (.inr hv)]
  | all v b ih =>
    rw [place_all, place_all, ih]
    intro w hw j
    by_cases hne : w = v
    · rw [hne, Placement.bind_self, Placement.bind_self]
      exact congrArg _ (by omega)
    · rw [Placement.bind_of_ne _ hne, Placement.bind_of_ne _ hne, Nat.add_assoc, Nat.add_assoc]
      exact h w (List.mem_filter.2 ⟨hw, decide_eq_true hne⟩) (1 + j)
  | data name args ih =>
    rw [freeVars] at h
    rw [place_data, place_data, List.map_congr_left]
    exact fun arg harg => ih arg harg fun v hv => h v (mem_freeVarsAll.2 ⟨arg, harg, hv⟩)
  | prim name => rfl

theorem place_congr {depth : Nat} {σ τ : Placement} {t : Ty} (h : ∀ v ∈ t.freeVars, σ v = τ v) :
    t.place depth σ = t.place depth τ :=
  place_shift fun v hv j => by rw [h v hv]

section

variable (ρ : Valuation)

theorem under_var (name : String) : (var name).under ρ = (ρ name).type := by
  rw [under, place_var]

theorem under_arrow (p r : Ty) : (arrow p r).under ρ = .arrow (p.under ρ) (r.under ρ) := by
  rw [under, place_arrow, under, under]

theorem under_data (name : String) (args : List Ty) :
    (data name args).under ρ = .data name (args.map (under ρ)) := by
  rw [under, place_data]
  rfl

theorem under_prim (name : String) : (prim name).under ρ = .prim name := by
  rw [under, place_prim]

theorem under_arrows (params : List Ty) (result : Ty) :
    (arrows params result).under ρ = Nameless.arrows (params.map (under ρ)) (result.under ρ) := by
  induction params with
  | nil => rfl
  | cons p params ih =>
    have hcons : arrows (p :: params) result = .arrow p (arrows params result) := rfl
    rw [hcons, under_arrow, ih]
    rfl

end

/-- A type is a function from its parameters. -/
theorem nameless_eq_arrows (t : Ty) :
    t.nameless = Nameless.arrows (t.splitArrows.1.map nameless) t.splitArrows.2.nameless := by
  have hunder := under_arrows .names t.splitArrows.1 t.splitArrows.2
  rw [arrows_splitArrows] at hunder
  exact hunder

theorem under_congr {ρ ρ' : Valuation} {t : Ty} (h : ∀ v ∈ t.freeVars, ρ v = ρ' v) :
    t.under ρ = t.under ρ' :=
  place_congr fun v hv => by rw [h v hv]

/-- A variable that is not free need not be placed. -/
theorem place_bind_of_not_mem {depth n : Nat} {σ : Placement} {v : String} {t : Ty}
    (h : v ∉ t.freeVars) : t.place n (σ.bind v depth) = t.place n σ := by
  refine place_congr fun w hw => ?_
  refine Placement.bind_of_ne _ ?_ depth
  rintro rfl
  exact h hw

/-! ## The meaning of a substitution for one variable -/

/-- A substitution for `x` gives `x` another meaning. -/
theorem place_substitute (t : Ty) (x : String) (s : Ty) (depth : Nat) (σ : Placement) :
    (t.substitute x s).place depth σ =
      t.place depth fun v => if v = x then fun n => s.place n σ else σ v := by
  induction t using renameInduct generalizing x s depth σ with
  | var name =>
    rw [substitute_var, place_var]
    split
    next => rfl
    next => rw [place_var]
  | arrow p r ihp ihr => rw [substitute_arrow, place_arrow, place_arrow, ihp, ihr]
  | all v b ih =>
    have hb := ih b rfl
    rw [substitute_all]
    split
    next hvx =>
      rw [place_all, place_all]
      refine congrArg _ (place_congr fun w _ => ?_)
      by_cases hne : w = v
      · rw [hne, Placement.bind_self, Placement.bind_self]
      · rw [Placement.bind_of_ne _ hne, Placement.bind_of_ne _ hne, if_neg (by rwa [← hvx])]
    next hvx =>
      split
      next =>
        -- The new name is free neither in the body nor in what comes in.
        have hfresh := freshName_not_mem v (s.freeVars ++ b.freeVars)
        dsimp only
        generalize freshName v (s.freeVars ++ b.freeVars) = fresh at hfresh ⊢
        rw [List.mem_append, not_or] at hfresh
        rw [place_all, place_all, ih _ (size_substitute_var ..), hb]
        refine congrArg _ (place_congr fun w hw => ?_)
        have hwf : w ≠ fresh := by
          rintro rfl
          exact hfresh.2 hw
        funext m
        simp only [Placement.bind, place_var, place_bind_of_not_mem hfresh.1]
        grind
      next hcapture =>
        rw [place_all, place_all, hb]
        refine congrArg _ (place_congr fun w hw => ?_)
        split
        next hwx =>
          -- Nothing is captured, so what comes in stands for the same outside of the binder.
          have hvs : v ∉ s.freeVars := fun hv => hcapture ⟨hv, hwx ▸ hw⟩
          rw [Placement.bind_of_ne _ (by rw [hwx]; exact fun h => hvx h.symm), if_pos hwx]
          funext m
          exact place_bind_of_not_mem hvs
        next hwx =>
          by_cases hwv : w = v
          · rw [hwv, Placement.bind_self, Placement.bind_self]
          · rw [Placement.bind_of_ne _ hwv, Placement.bind_of_ne _ hwv, if_neg hwx]
  | data name args ih =>
    rw [substitute_data, place_data, place_data, List.map_map]
    exact congrArg _ (List.map_congr_left fun arg harg => ih arg harg x s depth σ)
  | prim name => rfl

/-- The meaning of a type is the same at all depths. -/
theorem place_eq_under (ρ : Valuation) (t : Ty) (depth : Nat) :
    t.place depth (fun v _ => (ρ v).type) = t.under ρ :=
  place_shift fun _ _ _ => rfl

theorem under_substitute (t : Ty) (x : String) (s : Ty) (ρ : Valuation) {a : ClosedType}
    (ha : s.under ρ = a.type) : (t.substitute x s).under ρ = t.under (ρ.set x a) := by
  rw [under, place_substitute]
  refine place_congr fun v _ => ?_
  funext n
  rw [Valuation.set]
  split
  next => exact (place_eq_under ρ s n).trans ha
  next => rfl

/-! ## The meaning of a substitution -/

/-- A layer gives its variables other meanings. -/
theorem place_layer (layer : Layer) (t : Ty) (depth : Nat) (σ : Placement) :
    (layer.apply t).place depth σ =
      t.place depth fun v n => (layer.apply (.var v)).place n σ := by
  induction t using renameInduct generalizing layer depth σ with
  | var name => rfl
  | arrow p r ihp ihr => rw [Layer.apply_arrow, place_arrow, place_arrow, ihp, ihr]
  | all v b ih =>
    have hinner {w : String} (hne : w ≠ v) :
        Layer.apply (Table.erase layer v) (.var w) = layer.apply (.var w) := by
      rw [Layer.apply_var, Layer.apply_var, Table.get?_erase, if_neg hne]
    rw [Layer.apply_all]
    dsimp only
    split
    next =>
      -- The layer does not know the new name, and replaces nothing by a type it occurs in.
      have hfresh := freshName_not_mem v (Layer.avoid (layer.erase v) b)
      generalize freshName v (Layer.avoid (layer.erase v) b) = fresh at hfresh ⊢
      simp only [Layer.mem_avoid_iff, not_or, not_exists, not_and] at hfresh
      obtain ⟨hbody, hunknown, htypes⟩ := hfresh
      rw [place_all, place_all, ih _ (size_substitute_var ..), place_substitute]
      refine congrArg _ (place_congr fun w hw => ?_)
      funext m
      by_cases hwv : w = v
      · rw [if_pos hwv, hwv, Placement.bind_self, place_var, Layer.apply_var,
          Option.eq_none_iff_forall_ne_some.2 hunknown, Option.getD_none, place_var,
          Placement.bind_self]
      · rw [if_neg hwv, Placement.bind_of_ne _ hwv, hinner hwv]
        refine place_bind_of_not_mem fun hmem => ?_
        rw [← hinner hwv] at hmem
        rcases Layer.mem_freeVars_apply_var.1 hmem with ⟨t, ht, hmem⟩ | ⟨-, rfl⟩
        · exact htypes w t ht hmem
        · exact hbody hw
    next hcapture =>
      rw [place_all, place_all, ih b rfl]
      refine congrArg _ (place_congr fun w hw => ?_)
      funext m
      by_cases hwv : w = v
      · rw [hwv, Placement.bind_self, Layer.apply_var, Table.get?_erase, if_pos rfl,
          Option.getD_none, place_var, Placement.bind_self]
      · rw [Placement.bind_of_ne _ hwv, hinner hwv]
        refine place_bind_of_not_mem fun hmem => hcapture ?_
        rw [← hinner hwv] at hmem
        rcases Layer.mem_freeVars_apply_var.1 hmem with ⟨t, ht, hmem⟩ | ⟨-, rfl⟩
        · exact Layer.captures_eq_true_iff.2 ⟨w, t, ht, hw, hmem⟩
        · exact absurd rfl hwv
  | data name args ih =>
    rw [Layer.apply_data, place_data, place_data, List.map_map]
    exact congrArg _ (List.map_congr_left fun arg harg => ih arg harg layer depth σ)
  | prim name => rfl

/-- A substitution gives its variables other meanings. -/
theorem under_apply (s : Substitution) (t : Ty) (ρ ρ' : Valuation)
    (h : ∀ v, (ρ' v).type = (s.apply (.var v)).under ρ) : (s.apply t).under ρ = t.under ρ' := by
  have hplace (depth : Nat) : (s.apply t).place depth (fun v _ => (ρ v).type) =
      t.place depth fun v n => (s.apply (.var v)).place n fun v _ => (ρ v).type := by
    clear h
    obtain ⟨layers⟩ := s
    induction layers generalizing t depth with
    | nil => rfl
    | cons layer layers ih =>
      rw [Substitution.apply_cons, ih, place_layer]
      refine place_congr fun v _ => ?_
      funext n
      rw [Substitution.apply_cons, ih]
  rw [under, hplace]
  refine place_congr fun v _ => ?_
  funext n
  rw [h v]
  exact place_eq_under ρ _ n

/-! ## Meanings are closed -/

theorem closedAt_place {n : Nat} {σ : Placement} (t : Ty)
    (h : ∀ v m, n ≤ m → (σ v m).ClosedAt m) : (t.place n σ).ClosedAt n := by
  induction t generalizing n σ with
  | var name => exact h name n (Nat.le_refl n)
  | arrow p r ihp ihr => exact ⟨ihp h, ihr h⟩
  | all v b ih =>
    refine ih fun w m hm => ?_
    by_cases hne : w = v
    · rw [hne, Placement.bind_self]
      show m - n - 1 < m
      omega
    · rw [Placement.bind_of_ne _ hne]
      exact h w m (by omega)
  | data name args ih =>
    rw [place_data, Nameless.ClosedAt, Nameless.allClosedAt_iff]
    rintro _ hmem
    obtain ⟨t, ht, rfl⟩ := List.mem_map.1 hmem
    exact ih t ht h
  | prim name => trivial

/-- The closed type that a type means. -/
def closed (ρ : Valuation) (t : Ty) : ClosedType :=
  ⟨t.under ρ, closedAt_place t fun v m _ => (ρ v).closed.mono (Nat.zero_le m)⟩

/-! ## The meaning of a quantifier -/

/-- Putting a closed type in for a bound variable is to give the variable a meaning. -/
theorem openAt_place {n k : Nat} {σ τ : Placement} {a : Nameless} (t : Ty)
    (h : ∀ v j, Nameless.openAt a (k + j) (σ v (n + 1 + j)) = τ v (n + j)) :
    Nameless.openAt a k (t.place (n + 1) σ) = t.place n τ := by
  induction t generalizing n k σ τ with
  | var name => exact h name 0
  | arrow p r ihp ihr => rw [place_arrow, Nameless.openAt, ihp h, ihr h, place_arrow]
  | all v b ih =>
    rw [place_all, Nameless.openAt, place_all]
    refine congrArg _ (ih fun w j => ?_)
    by_cases hne : w = v
    · rw [hne, Placement.bind_self, Placement.bind_self, Nameless.openAt, if_neg (by omega)]
      exact congrArg _ (by omega)
    · rw [Placement.bind_of_ne _ hne, Placement.bind_of_ne _ hne]
      have hw := h w (1 + j)
      rwa [← Nat.add_assoc, ← Nat.add_assoc, ← Nat.add_assoc] at hw
  | data name args ih =>
    rw [place_data, Nameless.openAt, Nameless.openAllAt_eq_map, List.map_map, place_data]
    exact congrArg _ (List.map_congr_left fun arg harg => ih arg harg h)
  | prim name => rw [place_prim, Nameless.openAt, place_prim]

/-- The instances of a quantified type are the meanings of its body. -/
theorem exists_under_all (ρ : Valuation) (v : String) (b : Ty) :
    ∃ body, (all v b).under ρ = .all body ∧
      ∀ a : ClosedType, Nameless.openAt a.type 0 body = b.under (ρ.set v a) := by
  refine ⟨_, by rw [under, place_all], fun a => openAt_place b fun w j => ?_⟩
  rw [Valuation.set]
  by_cases hne : w = v
  · rw [hne, Placement.bind_self, if_pos rfl, Nameless.openAt, if_pos (by omega)]
  · rw [Placement.bind_of_ne _ hne, if_neg hne]
    exact Nameless.openAt_of_closedAt (ρ w).closed (Nat.zero_le _)

/-! ## The same type up to names -/

theorem replace_place (f : String → Nameless) (t : Ty) (n : Nat) (σ : Placement) :
    (t.place n σ).replace f = t.place n fun v m => (σ v m).replace f := by
  induction t generalizing n σ with
  | var name => rfl
  | arrow p r ihp ihr => rw [place_arrow, Nameless.replace, ihp, ihr, place_arrow]
  | all v b ih =>
    rw [place_all, Nameless.replace, ih, place_all]
    refine congrArg _ (place_congr fun w _ => ?_)
    funext m
    by_cases hne : w = v
    · rw [hne, Placement.bind_self, Placement.bind_self, Nameless.replace]
    · rw [Placement.bind_of_ne _ hne, Placement.bind_of_ne _ hne]
  | data name args ih =>
    rw [place_data, Nameless.replace, Nameless.replaceAll_eq_map, List.map_map, place_data]
    exact congrArg _ (List.map_congr_left fun arg harg => ih arg harg n σ)
  | prim name => rw [place_prim, Nameless.replace, place_prim]

/-- The meaning of a type is that of its nameless form. -/
theorem replace_nameless (ρ : Valuation) (t : Ty) :
    t.nameless.replace (fun v => (ρ v).type) = t.under ρ :=
  replace_place _ t 0 _

/-- Types that are the same up to the names of bound variables mean the same. -/
theorem under_eq_of_nameless_eq {t t' : Ty} (h : t.nameless = t'.nameless) (ρ : Valuation) :
    t.under ρ = t'.under ρ := by
  rw [← replace_nameless, h, replace_nameless]

end Ty

end PolyLambda
