import PolyLambda.Proofs.Unify.Termination

/-!
# A comparison that does not end

Opening two quantifiers lets a bound name stand for the type on the other side. Two closed types can
be made such that the solution of their bound names brings back the very comparison it came from,
with a quantifier more in the solutions each time around.
-/

namespace PolyLambda.Ty

variable {rigid : String → Bool} {n m : Nat} {es fs gs : List (Ty × Ty)}

theorem Leads.trans (h : Leads rigid es n fs) (h' : Leads rigid fs m gs) :
    Leads rigid es (n + m) gs := by
  induction h with
  | refl => rwa [Nat.zero_add]
  | same _ ih => exact .same (ih h')
  | left hv hocc _ ih =>
    rw [Nat.add_assoc]
    exact .left hv hocc (ih h')
  | right hv hflex hocc _ ih =>
    rw [Nat.add_assoc]
    exact .right hv hflex hocc (ih h')
  | parts hhead _ ih => exact .parts hhead (ih h')

/-- Equations that lead to themselves with a quantifier in some solution do so for ever. -/
theorem not_bounded_of_leads (h : Leads rigid es n es) (hn : 0 < n) (k : Nat) :
    ¬ Bounded rigid k es := by
  have hround (i : Nat) : Leads rigid es (i * n) es := by
    induction i with
    | zero =>
      rw [Nat.zero_mul]
      exact .refl es
    | succ i ih =>
      rw [Nat.succ_mul]
      exact ih.trans h
  intro hb
  have hle := hb _ _ (hround (k + 1))
  have hlt : k + 1 ≤ (k + 1) * n := Nat.le_mul_of_pos_right _ hn
  omega

/-- `forall 'x ('x -> (forall 'y ('x -> 'y -> 'y)) -> 'x)` -/
def swing : Ty :=
  .all "x" (arrows [.var "x", .all "y" (arrows [.var "x", .var "y"] (.var "y"))] (.var "x"))

/-- `forall 'y (swing -> 'y -> 'y)` -/
def swingBack : Ty :=
  .all "y" (arrows [swing, .var "y"] (.var "y"))

/-- `'x` gets the type `swing`, and then `'y` the type `swingBack`: what is left is the equation
that there was. -/
theorem leads_swing : Leads (fun _ => false) [(swing, swingBack)] 5 [(swing, swingBack)] := by
  have hy : Leads (fun _ => false) [(swingBack, .var "y"), (swing, .var "y")] (3 + 0)
      [(swing, swingBack)] := by
    refine .right (t := swingBack) rfl rfl (by decide) ?_
    have happly : (Substitution.singleton "y" swingBack).applyEquations [(swing, .var "y")] =
        [(swing, swingBack)] := by decide
    rw [happly]
    exact .refl _
  have hx : Leads (fun _ => false)
      [(.var "x", swing),
        (.arrow (.all "y" (arrows [.var "x", .var "y"] (.var "y"))) (.var "x"),
          .arrow (.var "y") (.var "y"))] (2 + 3) [(swing, swingBack)] := by
    refine .left (t := swing) rfl (by decide) ?_
    have happly : (Substitution.singleton "x" swing).applyEquations
        [(.arrow (.all "y" (arrows [.var "x", .var "y"] (.var "y"))) (.var "x"),
          .arrow (.var "y") (.var "y"))] =
        [(.arrow swingBack swing, .arrow (.var "y") (.var "y"))] := by decide
    rw [happly]
    exact .parts rfl hy
  exact .parts rfl (.parts rfl hx)

/-- No limit is high enough to compare these two types. -/
theorem not_settles_swing : ¬ ∃ r, Settles (fun _ => false) swing swingBack r := by
  rw [settles_iff_bounded]
  rintro ⟨k, hk⟩
  exact not_bounded_of_leads leads_swing (by decide) k hk

end PolyLambda.Ty
