import PolyLambda.Proofs.Ty.Nameless

/-!
# The same type up to the names of bound variables

Two types are alpha-equivalent if they are built alike and their variables correspond: either both
are bound, by quantifiers at the same place, or both are free and have the same name. That says it
by comparing the two types themselves, with the names that their quantifiers bind side by side.

It is the same as being one type without names (`Ty.alphaEq_iff`). The names of the quantifiers
around a place become numbers there, and the numbers of two variables are equal exactly if the
variables correspond.
-/

namespace PolyLambda.Ty

/-- The variables of two types correspond under quantifiers that bind the names in `pairs`, the
innermost ones first. -/
inductive Corresponds : (pairs : List (String × String)) → String → String → Prop
  | free {v : String} : Corresponds [] v v
  | bound {v w : String} {pairs : List (String × String)} : Corresponds ((v, w) :: pairs) v w
  | outer {v w a b : String} {pairs : List (String × String)} : v ≠ a → w ≠ b →
      Corresponds pairs v w → Corresponds ((a, b) :: pairs) v w

mutual

/-- Two types under quantifiers that bind the names in `pairs` differ in nothing but the names of
bound variables. -/
inductive AlphaEqUnder : (pairs : List (String × String)) → Ty → Ty → Prop
  | var {pairs : List (String × String)} {v w : String} : Corresponds pairs v w →
      AlphaEqUnder pairs (.var v) (.var w)
  | arrow {pairs : List (String × String)} {p p' r r' : Ty} : AlphaEqUnder pairs p p' →
      AlphaEqUnder pairs r r' → AlphaEqUnder pairs (.arrow p r) (.arrow p' r')
  | all {pairs : List (String × String)} {v w : String} {b b' : Ty} :
      AlphaEqUnder ((v, w) :: pairs) b b' → AlphaEqUnder pairs (.all v b) (.all w b')
  | data {pairs : List (String × String)} {name : String} {args args' : List Ty} :
      AllAlphaEqUnder pairs args args' → AlphaEqUnder pairs (.data name args) (.data name args')
  | prim {pairs : List (String × String)} {name : String} :
      AlphaEqUnder pairs (.prim name) (.prim name)

inductive AllAlphaEqUnder : (pairs : List (String × String)) → List Ty → List Ty → Prop
  | nil {pairs : List (String × String)} : AllAlphaEqUnder pairs [] []
  | cons {pairs : List (String × String)} {t t' : Ty} {ts ts' : List Ty} :
      AlphaEqUnder pairs t t' → AllAlphaEqUnder pairs ts ts' →
      AllAlphaEqUnder pairs (t :: ts) (t' :: ts')

end

/-- The types differ in nothing but the names of bound variables. -/
def AlphaEq (t t' : Ty) : Prop := AlphaEqUnder [] t t'

/-! ## Names and numbers -/

/-- What variables stand for under quantifiers of `vars`, the innermost one first. -/
def boundBy : List String → Placement
  | [] => fun v _ => .free v
  | v :: vars => (boundBy vars).bind v vars.length

/-- The quantifiers of `vars` are numbered from 0; a larger number is none of theirs. -/
theorem boundBy_ne_bound {vars : List String} {n i : Nat} (h : i + vars.length < n) (v : String) :
    boundBy vars v n ≠ .bound i := by
  induction vars with
  | nil => exact nofun
  | cons a vars ih =>
    rw [List.length_cons] at h
    rw [boundBy]
    by_cases hva : v = a
    · rw [hva, Placement.bind_self]
      intro heq
      have hi : n - vars.length - 1 = i := Nameless.bound.inj heq
      omega
    · rw [Placement.bind_of_ne _ hva]
      exact ih (by omega)

theorem boundBy_eq_iff {pairs : List (String × String)} {n : Nat} (hn : pairs.length ≤ n)
    (v w : String) :
    boundBy (pairs.map Prod.fst) v n = boundBy (pairs.map Prod.snd) w n ↔
      Corresponds pairs v w := by
  induction pairs with
  | nil =>
    constructor
    · rintro ⟨⟩
      exact .free
    · rintro ⟨⟩
      rfl
  | cons pair pairs ih =>
    obtain ⟨a, b⟩ := pair
    rw [List.length_cons] at hn
    -- Outer binders stand at smaller depths, so none of them is taken for the innermost one.
    have houter (vars : List (String × String) → List String)
        (hvars : (vars pairs).length = pairs.length) (u : String) :
        boundBy (vars pairs) u n ≠ .bound (n - pairs.length - 1) :=
      boundBy_ne_bound (by rw [hvars]; omega) u
    have hfst := houter (List.map Prod.fst) (List.length_map _)
    have hsnd := houter (List.map Prod.snd) (List.length_map _)
    rw [List.map_cons, List.map_cons, boundBy, boundBy, List.length_map, List.length_map]
    by_cases hva : v = a <;> by_cases hwb : w = b
    · subst hva hwb
      rw [Placement.bind_self, Placement.bind_self]
      exact iff_of_true rfl .bound
    · subst hva
      rw [Placement.bind_self, Placement.bind_of_ne _ hwb]
      refine iff_of_false (Ne.symm (hsnd w)) ?_
      rintro (_ | _ | ⟨hne, -, -⟩)
      · exact hwb rfl
      · exact hne rfl
    · subst hwb
      rw [Placement.bind_of_ne _ hva, Placement.bind_self]
      refine iff_of_false (hfst v) ?_
      rintro (_ | _ | ⟨-, hne, -⟩)
      · exact hva rfl
      · exact hne rfl
    · rw [Placement.bind_of_ne _ hva, Placement.bind_of_ne _ hwb, ih (Nat.le_of_succ_le hn)]
      constructor
      · exact .outer hva hwb
      · rintro (_ | _ | ⟨-, -, h⟩)
        · exact absurd rfl hva
        · exact h

/-- A variable stands for a variable. -/
theorem boundBy_ne {vars : List String} {v : String} {n : Nat} {a : Nameless}
    (hfree : ∀ w, a ≠ .free w) (hbound : ∀ i, a ≠ .bound i) : boundBy vars v n ≠ a := by
  induction vars with
  | nil => exact (hfree v).symm
  | cons b vars ih =>
    rw [boundBy]
    by_cases hvb : v = b
    · rw [hvb, Placement.bind_self]
      exact (hbound _).symm
    · rw [Placement.bind_of_ne _ hvb]
      exact ih

/-! ## Types without names -/

theorem allAlphaEqUnder_iff {pairs : List (String × String)} {n : Nat} {σ τ : Placement}
    {ts ts' : List Ty}
    (h : ∀ t ∈ ts, ∀ t', t.place n σ = t'.place n τ ↔ AlphaEqUnder pairs t t') :
    ts.map (place n σ) = ts'.map (place n τ) ↔ AllAlphaEqUnder pairs ts ts' := by
  induction ts generalizing ts' with
  | nil =>
    cases ts' with
    | nil => exact iff_of_true rfl .nil
    | cons t' ts' => exact iff_of_false nofun nofun
  | cons t ts ih =>
    rw [List.forall_mem_cons] at h
    cases ts' with
    | nil => exact iff_of_false nofun nofun
    | cons t' ts' =>
      rw [List.map_cons, List.map_cons, List.cons.injEq, h.1, ih h.2]
      constructor
      · rintro ⟨ht, hts⟩
        exact .cons ht hts
      · rintro (_ | ⟨ht, hts⟩)
        exact ⟨ht, hts⟩

/-- The induction is on one of the types. Under a quantifier the names that the two bind are put
side by side, on the right, and become one number, on the left. -/
theorem place_boundBy_eq_iff (t t' : Ty) (pairs : List (String × String)) :
    t.place pairs.length (boundBy (pairs.map Prod.fst)) =
      t'.place pairs.length (boundBy (pairs.map Prod.snd)) ↔ AlphaEqUnder pairs t t' := by
  induction t generalizing t' pairs with
  | var v =>
    cases t' with
    | var w =>
      rw [place_var, place_var, boundBy_eq_iff (Nat.le_refl _)]
      constructor
      · exact .var
      · rintro ⟨h⟩
        exact h
    | _ => exact iff_of_false (boundBy_ne nofun nofun) nofun
  | arrow p r ihp ihr =>
    cases t' with
    | arrow p' r' =>
      rw [place_arrow, place_arrow, Nameless.arrow.injEq, ihp, ihr]
      constructor
      · rintro ⟨hp, hr⟩
        exact .arrow hp hr
      · rintro (_ | ⟨hp, hr⟩)
        exact ⟨hp, hr⟩
    | var w => exact iff_of_false (Ne.symm (boundBy_ne nofun nofun)) nofun
    | _ => exact iff_of_false nofun nofun
  | all v b ih =>
    cases t' with
    | all w b' =>
      -- Under the binders the two names stand at one more depth, and so correspond.
      have hb := ih b' ((v, w) :: pairs)
      rw [List.map_cons, List.map_cons, boundBy, boundBy, List.length_map, List.length_map] at hb
      rw [place_all, place_all, Nameless.all.injEq]
      refine hb.trans ⟨.all, ?_⟩
      rintro (_ | _ | h)
      exact h
    | var w => exact iff_of_false (Ne.symm (boundBy_ne nofun nofun)) nofun
    | _ => exact iff_of_false nofun nofun
  | data name args ih =>
    cases t' with
    | data name' args' =>
      rw [place_data, place_data, Nameless.data.injEq,
        allAlphaEqUnder_iff fun arg harg t' => ih arg harg t' pairs]
      constructor
      · rintro ⟨rfl, hargs⟩
        exact .data hargs
      · rintro (_ | _ | _ | hargs)
        exact ⟨rfl, hargs⟩
    | var w => exact iff_of_false (Ne.symm (boundBy_ne nofun nofun)) nofun
    | _ => exact iff_of_false nofun nofun
  | prim name =>
    cases t' with
    | prim name' =>
      rw [place_prim, place_prim, Nameless.prim.injEq]
      constructor
      · rintro rfl
        exact .prim
      · rintro ⟨⟩
        rfl
    | var w => exact iff_of_false (Ne.symm (boundBy_ne nofun nofun)) nofun
    | _ => exact iff_of_false nofun nofun

/-- Types are alpha-equivalent if and only if they are the same type without names. -/
theorem alphaEq_iff {t t' : Ty} : AlphaEq t t' ↔ t.nameless = t'.nameless :=
  (place_boundBy_eq_iff t t' []).symm

end PolyLambda.Ty
