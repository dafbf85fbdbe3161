import PolyLambda.Proofs.Ty.Rename
import PolyLambda.Proofs.Unify.Step

/-!
# Unification under a renaming

The solution of renamed equations is the renamed solution, and where there is none the error is the
renamed one. Names are only compared with each other, and asked whether they are rigid.
-/

namespace PolyLambda

def UnifyError.rename (π : Renaming) : UnifyError → UnifyError
  | mismatch left right => mismatch (left.rename π) (right.rename π)
  | occurs v type => occurs (π v) (type.rename π)

namespace Ty

variable (π : Renaming) {rigid rigid' : String → Bool}

/-- What a unification comes to, with new names. -/
def renameSolution : Except UnifyError Substitution → Except UnifyError Substitution
  | .ok s => .ok (s.rename π)
  | .error e => .error (e.rename π)

theorem flexible?_rename (hrigid : ∀ v, rigid' (π v) = rigid v) (t : Ty) :
    flexible? rigid' (t.rename π) = (flexible? rigid t).map π := by
  cases t with
  | var v =>
    rw [rename, flexible?, flexible?, hrigid]
    cases rigid v <;> rfl
  | _ => rfl

theorem solve_rename (v : String) (t : Ty) :
    solve (π v) (t.rename π) = renameSolution π (solve v t) := by
  have hoccurs : (t.rename π).occursIn (π v) = t.occursIn v := by
    rw [occursIn, occursIn, Bool.eq_iff_iff, decide_eq_true_eq, decide_eq_true_eq,
      mem_freeVars_rename]
  rw [solve, solve, hoccurs]
  split <;> rfl

theorem parts_rename (t : Ty) : (t.rename π).parts = t.parts.map (rename π) := by
  cases t with
  | data name args => rw [rename, parts, parts, renameAll_eq_map]
  | _ => rfl

theorem sameHead_rename (t t' : Ty) : sameHead (t.rename π) (t'.rename π) = sameHead t t' := by
  cases t <;> cases t' <;> simp [rename, sameHead]

section

variable {unify unify' : Ty → Ty → Limited UnifyError Substitution}

theorem unifyArgs_rename
    (h : ∀ t t', (unify' (t.rename π) (t'.rename π)).outcome? =
      (unify t t').outcome?.map (renameSolution π))
    (s : Substitution) (ts ts' : List Ty) :
    (unifyArgs unify' (s.rename π) (ts.map (rename π)) (ts'.map (rename π))).outcome? =
      (unifyArgs unify s ts ts').outcome?.map (renameSolution π) := by
  induction ts generalizing s ts' with
  | nil => rfl
  | cons t ts ih =>
    cases ts' with
    | nil => rfl
    | cons t' ts' =>
      rw [List.map_cons, List.map_cons, unifyArgs, unifyArgs, Limited.outcome?_bind,
        Limited.outcome?_bind, Substitution.apply_rename, Substitution.apply_rename, h]
      cases (unify (s.apply t) (s.apply t')).outcome? with
      | none => rfl
      | some r =>
        cases r with
        | error e => rfl
        | ok step =>
          dsimp only [Option.map_some, renameSolution]
          rw [← Substitution.rename_compose]
          exact ih _ _

end

/-- Unification commutes with renaming. -/
theorem unify_rename (hrigid : ∀ v, rigid' (π v) = rigid v) (limit : Nat) (t t' : Ty) :
    (unify rigid' limit (t.rename π) (t'.rename π)).outcome? =
      (unify rigid limit t t').outcome?.map (renameSolution π) := by
  induction limit generalizing t t' with
  | zero => rfl
  | succ limit ih =>
    have hflexible {t : Ty} (ht : flexible? rigid t = none) :
        flexible? rigid' (t.rename π) = none := by
      rw [flexible?_rename π hrigid, ht, Option.map_none]
    cases comparison rigid t t' with
    | same v => rw [rename, unify_same, unify_same]; rfl
    | left v t hv ht =>
      have hv' : rigid' (π v) = false := (hrigid v).trans hv
      rw [unify_left _ hv ht, rename, unify_left _ hv' fun h => ht (rename_injective π h),
        solve_rename, Limited.outcome?_liftM, Limited.outcome?_liftM, Option.map_some]
    | right v t hv ht =>
      have hv' : rigid' (π v) = false := (hrigid v).trans hv
      rw [unify_right _ hv ht, rename, unify_right _ hv' (hflexible ht), solve_rename,
        Limited.outcome?_liftM, Limited.outcome?_liftM, Option.map_some]
    | parts t t' hhead =>
      rw [unify_parts _ hhead, unify_parts _ ((sameHead_rename π t t').trans hhead), parts_rename,
        parts_rename]
      exact unifyArgs_rename π ih .empty t.parts t'.parts
    | mismatch t t' ht ht' hvar hhead =>
      have hvar' (v : String) (h : t.rename π = .var v) : t'.rename π ≠ .var v := by
        cases t with
        | var w =>
          obtain rfl := Ty.var.inj h
          exact fun h' => hvar w rfl (rename_injective π h')
        | _ => cases h
      rw [unify_mismatch _ ht ht' hvar hhead, unify_mismatch _ (hflexible ht) (hflexible ht') hvar'
        ((sameHead_rename π t t').trans hhead)]
      rfl

end Ty

end PolyLambda
