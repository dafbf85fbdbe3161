import PolyLambda.Proofs.Module.Declare

/-!
# Rejected declarations

A declaration that is rejected leaves an error behind, perhaps warnings, and nothing else: what was
entered for it is taken out of the tables and the globals again, and the names it bound are gone
(`Elaborator.sameProgram_of_rejected`). So the declarations that are accepted make up the same
program when the others are taken away (`Module.ofSurface_accepted`).

The proof compares two elaborators that differ in errors and warnings alone. Neither has any
influence on what becomes of the next declaration: errors are only ever added to, and warnings are
the state of steps that add to it without looking at it (`Diagnosed.Logs`).
-/

namespace PolyLambda

namespace Elaborator

open Diagnosed (Logs)

/-! ## What a declaration does to the tables and the globals -/

/-- Whether the declaration `d` comes to `r` and makes of the tables and the globals what `scope`
has, and adds the warnings `more`, whatever was declared and found odd or wrong before. -/
def Yields (sig : Signature) (globals : List String) (d : Surface.Declaration)
    (r : Except ScopeError (Option Declaration)) (scope : Scope) (more : List Warning) : Prop :=
  ∀ declarations errors warnings,
    (elaborate d).outcome ⟨⟨sig, globals, [], []⟩, declarations, errors, warnings⟩ =
      (r, ⟨scope, declarations, errors, warnings ++ more⟩)

section

variable (sig : Signature) (globals : List String)

/-- Whether all that a declaration does depends on the tables and the globals, and is undone if
there is an error. -/
def Atomic (d : Surface.Declaration) : Prop :=
  (∃ c sig' globals' more, Yields sig globals d (.ok c) ⟨sig', globals', [], []⟩ more) ∨
    ∃ e more, Yields sig globals d (.error e) ⟨sig, globals, [], []⟩ more

theorem atomic_data (d : Surface.DataDecl) : Atomic sig globals (.data d) := by
  have houtcome (declarations errors warnings) := outcome_elaborateData
    ⟨⟨sig, globals, [], []⟩, declarations, errors, warnings⟩ d rfl
  dsimp only at houtcome
  cases hresolve : d.resolve sig with
  | error e =>
    refine .inr ⟨e, [], fun declarations errors warnings => ?_⟩
    rw [elaborate, houtcome, hresolve, List.append_nil]
  | ok decl =>
    refine .inl ?_
    simp only [hresolve] at houtcome
    cases hold : sig.dataTypes.get? decl.name with
    | none =>
      simp only [hold] at houtcome
      exact ⟨_, _, _, _, houtcome⟩
    | some old =>
      simp only [hold] at houtcome
      by_cases heq : old = decl
      · refine ⟨none, sig, globals, [], fun declarations errors warnings => ?_⟩
        rw [elaborate, houtcome, if_pos heq, List.append_nil]
      · simp only [if_neg heq] at houtcome
        exact ⟨_, _, _, _, houtcome⟩

theorem append_ite (condition : Bool) (ws : List Warning) (w : Warning) :
    (if condition then ws ++ [w] else ws) = ws ++ if condition then [w] else [] := by
  cases condition
  · exact (List.append_nil ws).symm
  · rfl

theorem atomic_primType (d : Surface.PrimTypeDecl) : Atomic sig globals (.primType d) := by
  have houtcome (declarations errors warnings) := outcome_elaboratePrimType
    ⟨⟨sig, globals, [], []⟩, declarations, errors, warnings⟩ d.name
  simp only [append_ite] at houtcome
  exact .inl ⟨_, _, _, _, houtcome⟩

theorem atomic_primOp (d : Surface.PrimOpDecl) : Atomic sig globals (.primOp d) := by
  have houtcome (declarations errors warnings) := outcome_elaboratePrimOp
    ⟨⟨sig, globals, [], []⟩, declarations, errors, warnings⟩ d rfl
  dsimp only at houtcome
  cases hresolve : d.type.resolve sig [] with
  | error e =>
    refine .inr ⟨e, [], fun declarations errors warnings => ?_⟩
    rw [elaborate, houtcome, hresolve, List.append_nil]
  | ok type =>
    simp only [hresolve, append_ite] at houtcome
    exact .inl ⟨_, _, _, _, houtcome⟩

theorem atomic_definition (d : Surface.Definition) : Atomic sig globals (.definition d) := by
  have houtcome (declarations errors warnings) := outcome_elaborateDefinition
    ⟨⟨sig, globals, [], []⟩, declarations, errors, warnings⟩ d rfl rfl
  obtain ⟨r, more, hlogs⟩ := Module.logs_resolveNamed sig (globals.insert d.name) d
  have happend (ws : List Warning) :
      (if d.name ∈ globals then ws ++ [.redeclared d.name] else ws) ++ more =
        ws ++ ((if d.name ∈ globals then [.redeclared d.name] else []) ++ more) := by
    split
    next => exact List.append_assoc ..
    next => rfl
  simp only [hlogs, happend] at houtcome
  cases r with
  | error e => exact .inr ⟨_, _, houtcome⟩
  | ok p => exact .inl ⟨_, _, _, _, houtcome⟩

theorem atomic (d : Surface.Declaration) : Atomic sig globals d := by
  cases d with
  | data d => exact atomic_data sig globals d
  | definition d => exact atomic_definition sig globals d
  | primType d => exact atomic_primType sig globals d
  | primOp d => exact atomic_primOp sig globals d

end

/-! ## Elaborators that differ in errors and warnings -/

/-- Whether two elaborators have the same declarations, tables and globals. -/
structure SameProgram (s s' : Elaborator) : Prop where
  sig : s.sig = s'.sig
  globals : s.globals = s'.globals
  declarations : s.declarations = s'.declarations

theorem SameProgram.symm {s s' : Elaborator} (h : s.SameProgram s') : s'.SameProgram s :=
  ⟨h.sig.symm, h.globals.symm, h.declarations.symm⟩

theorem SameProgram.trans {s₁ s₂ s₃ : Elaborator} (h : s₁.SameProgram s₂)
    (h' : s₂.SameProgram s₃) : s₁.SameProgram s₃ :=
  ⟨h.sig.trans h'.sig, h.globals.trans h'.globals, h.declarations.trans h'.declarations⟩

/-- Whether a declaration is accepted: it adds no error. -/
def Accepts (s : Elaborator) (d : Surface.Declaration) : Prop :=
  (s.declare d).errors = s.errors

instance (s : Elaborator) (d : Surface.Declaration) : Decidable (s.Accepts d) :=
  inferInstanceAs (Decidable ((s.declare d).errors = s.errors))

section

variable {s s' : Elaborator} {d : Surface.Declaration}

/-- Either a declaration is accepted by all elaborators with the same program, and makes the same of
it, or it is rejected and leaves the program as it was, with no name bound. -/
theorem accepts_or_rejects (h : s.SameProgram s') (d : Surface.Declaration) :
    (s.Accepts d ∧ s'.Accepts d ∧ (s.declare d).SameProgram (s'.declare d)) ∨
      (¬ s.Accepts d ∧ ∃ e more, s.declare d = { s with
        typeVars := []
        locals := []
        errors := s.errors ++ [e]
        warnings := s.warnings ++ more }) := by
  obtain ⟨⟨sig, globals, typeVars, locals⟩, ds, es, ws⟩ := s
  obtain ⟨⟨sig', globals', typeVars', locals'⟩, ds', es', ws'⟩ := s'
  obtain ⟨rfl, rfl, rfl⟩ := h
  rcases atomic sig globals d with ⟨c, sig', globals', more, hyields⟩ | ⟨e, more, hyields⟩
  · refine .inl ?_
    rw [Accepts, Accepts, declare, declare, hyields, hyields]
    cases c <;> exact ⟨rfl, rfl, rfl, rfl, rfl⟩
  · refine .inr ?_
    rw [Accepts, declare, hyields]
    refine ⟨fun h => ?_, e, more, rfl⟩
    exact List.cons_ne_nil e [] (List.append_right_eq_self.1 h)

/-- A declaration that is rejected leaves nothing behind but an error and warnings, and no name
bound. -/
theorem declare_of_rejected (h : ¬ s.Accepts d) : ∃ e more, s.declare d = { s with
    typeVars := []
    locals := []
    errors := s.errors ++ [e]
    warnings := s.warnings ++ more } := by
  rcases accepts_or_rejects ⟨rfl, rfl, rfl⟩ d with ⟨haccepts, -⟩ | ⟨-, hrejected⟩
  · exact absurd haccepts h
  · exact hrejected

theorem sameProgram_of_rejected (h : ¬ s.Accepts d) : (s.declare d).SameProgram s := by
  obtain ⟨e, more, heq⟩ := declare_of_rejected h
  rw [heq]
  exact ⟨rfl, rfl, rfl⟩

/-- What was found before a declaration has no influence on what becomes of it. -/
theorem SameProgram.declare (hsame : s.SameProgram s') (h : s.Accepts d) :
    s'.Accepts d ∧ (s.declare d).SameProgram (s'.declare d) := by
  rcases accepts_or_rejects hsame d with ⟨-, haccepts⟩ | ⟨hrejected, -⟩
  · exact haccepts
  · exact absurd h hrejected

end

/-! ## The declarations that are accepted -/

/-- The declarations among `ds` that give no error when they are taken one after the other, in
order. -/
def accepted (s : Elaborator) : List Surface.Declaration → List Surface.Declaration
  | [] => []
  | d :: ds => if s.Accepts d then d :: accepted (s.declare d) ds else accepted (s.declare d) ds

theorem foldl_accepted {s s' : Elaborator} (h : s.SameProgram s') (ds : List Surface.Declaration) :
    ((accepted s ds).foldl declare s').errors = s'.errors ∧
      ((accepted s ds).foldl declare s').SameProgram (ds.foldl declare s) := by
  induction ds generalizing s s' with
  | nil => exact ⟨rfl, h.symm⟩
  | cons d ds ih =>
    rw [accepted, List.foldl_cons]
    by_cases haccepts : s.Accepts d
    · obtain ⟨haccepts', hsame⟩ := h.declare haccepts
      obtain ⟨herrors, hrest⟩ := ih hsame
      rw [if_pos haccepts, List.foldl_cons]
      exact ⟨herrors.trans haccepts', hrest⟩
    · rw [if_neg haccepts]
      exact ih ((sameProgram_of_rejected haccepts).trans h)

end Elaborator

namespace Module

/-- A list of declarations without those that are rejected. -/
def accepted (ds : List Surface.Declaration) : List Surface.Declaration :=
  Elaborator.accepted (.resume Prelude.emptyModule) ds

/-- Without the declarations that are rejected a program has no errors, and it has the same
declarations and tables. -/
theorem ofSurface_accepted (ds : List Surface.Declaration) :
    (ofSurface (accepted ds)).errors = [] ∧
      (ofSurface (accepted ds)).declarations = (ofSurface ds).declarations ∧
      (ofSurface (accepted ds)).toSignature = (ofSurface ds).toSignature := by
  obtain ⟨herrors, hsame⟩ :=
    Elaborator.foldl_accepted (s := .resume Prelude.emptyModule) ⟨rfl, rfl, rfl⟩ ds
  exact ⟨herrors, hsame.declarations, hsame.sig⟩

end Module

end PolyLambda
