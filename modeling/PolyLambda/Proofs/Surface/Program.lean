import Mathlib.Logic.ExistsUnique
import PolyLambda.Proofs.Surface.Balanced

/-!
# Reading accepts the programs

Reading a sequence of tokens reports no error if and only if it is a program, and what is returned
then is what it means (`Parsed.ofTokens_iff_isProgram`). A malformed declaration is left out of the
result, so the errors are all that tells of it, and it must not fail without one
(`Parser.declaration_ne_silent`): most parsers may at the end of the input, and a declaration may
not because of the closing parenthesis it has to have.
-/

namespace PolyLambda.Surface

open Grammar

namespace Parser

variable {α : Type} {n d : Nat} {s s' : Input}

/-- A parser that fails without an error does so at the end of the input, where the closing
parenthesis is missed. -/
theorem closingDeclaration_ne_silent {p : Parser α} (h : Balanced [] n p p)
    (hs : s.rest.length ≤ n) : closingDeclaration p s ≠ .error [] s' := by
  have hbody := h 0 0 (Nat.zero_le _) s hs (.inl rfl)
  rw [closingDeclaration]
  generalize p s = x, p (s.append []) = y at hbody
  cases hbody with
  | ok =>
    dsimp only
    split <;> rintro ⟨⟩
  | @error errors s₁ _ _ hsilent =>
    dsimp only
    split
    next hclose =>
      rintro ⟨⟩
      obtain ⟨_, _, hrest⟩ := Input.next?_eq_some_iff.1 hclose
      cases (hsilent rfl).symm.trans hrest
    next =>
      intro hsilent
      cases (List.append_eq_nil_iff.1 (EStateM.Result.error.inj hsilent).1).2

theorem declarationForm_ne_silent {o : Span} (hs : s.rest.length ≤ d) :
    declarationForm d o s ≠ .error [] s' := by
  have htail : s.tail.rest.length ≤ d := by
    obtain ⟨prev, _ | ⟨t, rest⟩⟩ := s
    · exact hs
    · exact Nat.le_of_succ_le hs
  intro hrun
  simp only [declarationForm, here_bind, peek_bind] at hrun
  generalize s.next? = found at hrun
  split at hrun
  next =>
    exact closingDeclaration_ne_silent
      ((balanced_definition (Nat.le_refl _) (Nat.le_refl _) o).map _) htail hrun
  next =>
    exact closingDeclaration_ne_silent
      ((balanced_dataDecl (Nat.le_refl _) (Nat.le_refl _) o).map _) htail hrun
  next => exact closingDeclaration_ne_silent ((balanced_primTypeDecl o).map _) htail hrun
  next =>
    exact closingDeclaration_ne_silent
      ((balanced_primOpDecl (Nat.le_refl _) (Nat.le_refl _) o).map _) htail hrun
  next => cases hrun

/-- A malformed declaration is reported. -/
theorem declaration_ne_silent (hs : s.rest.length ≤ d + 1) :
    declaration d s ≠ .error [] s' := by
  obtain ⟨prev, _ | ⟨⟨o, token⟩, rest⟩⟩ := s
  · rintro ⟨⟩
  · cases token with
    | openParen => exact declarationForm_ne_silent (s := ⟨o, rest⟩) (Nat.le_of_succ_le_succ hs)
    | _ => rintro ⟨⟩

end Parser

namespace Grammar

theorem IsDeclaration.length_pos {ts : Tokens} {d : Declaration} (h : IsDeclaration ts d) :
    0 < ts.length := by
  cases h
  exact Nat.succ_pos _

theorem isProgram_nil_iff {ds : List Declaration} : IsProgram [] ds ↔ ds = [] := by
  constructor
  · generalize hws : ([] : Tokens) = ws
    rintro (_ | @⟨_, _, _, _, ⟨_⟩, _⟩)
    · rfl
    · cases hws
  · rintro rfl
    exact .nil

theorem isProgram_cons_iff {t : Located Token} {ts : Tokens} {ds : List Declaration} :
    IsProgram (t :: ts) ds ↔ ∃ us vs d others, t :: ts = us ++ vs ∧ IsDeclaration us d ∧
      IsProgram vs others ∧ ds = d :: others := by
  constructor
  · generalize hws : t :: ts = ws
    rintro (_ | ⟨hd, hothers⟩)
    · cases hws
    · exact ⟨_, _, _, _, rfl, hd, hothers, rfl⟩
  · rintro ⟨us, vs, d, others, hts, hd, hothers, rfl⟩
    rw [hts]
    exact .cons hd hothers

end Grammar

namespace Parsed

variable {d n : Nat} {prev : Span} {t : Located Token} {rest : Tokens} {s : Input}

theorem within_nil : within d n ⟨prev, []⟩ = ⟨[], []⟩ := by
  cases n <;> rfl

theorem within_of_ok {a : Declaration} (h : Parser.declaration d ⟨prev, t :: rest⟩ = .ok a s) :
    within d (n + 1) ⟨prev, t :: rest⟩ =
      ⟨a :: (within d n s).declarations, (within d n s).errors⟩ := by
  simp only [within, h, push]

theorem within_of_error {errors : List ParseError}
    (h : Parser.declaration d ⟨prev, t :: rest⟩ = .error errors s) :
    within d (n + 1) ⟨prev, t :: rest⟩ =
      ⟨(within d n s).declarations, errors ++ (within d n s).errors⟩ := by
  simp only [within, h, push]

theorem within_nil_eq_iff {ds : List Declaration} :
    within d n ⟨prev, []⟩ = ⟨ds, []⟩ ↔ IsProgram [] ds := by
  rw [within_nil, isProgram_nil_iff, mk.injEq]
  exact ⟨fun h => h.1.symm, fun h => ⟨h.symm, rfl⟩⟩

/-- Enough attempts leave no error if and only if the input is a program. -/
theorem within_eq_iff_isProgram {ds : List Declaration} (hn : rest.length ≤ n)
    (hd : rest.length ≤ d + 1) : within d n ⟨prev, rest⟩ = ⟨ds, []⟩ ↔ IsProgram rest ds := by
  induction n generalizing prev rest ds with
  | zero =>
    obtain rfl := List.length_eq_zero_iff.1 (Nat.le_zero.1 hn)
    exact within_nil_eq_iff
  | succ n ih =>
    cases rest with
    | nil => exact within_nil_eq_iff
    | cons t rest =>
      have haccepts := Parser.accepts_declaration d ⟨prev, t :: rest⟩ hd
      rw [isProgram_cons_iff]
      constructor
      · intro hwithin
        cases hrun : Parser.declaration d ⟨prev, t :: rest⟩ with
        | ok a s =>
          obtain ⟨us, hreads, ha⟩ := (haccepts a s trivial).1 hrun
          have hpos := ha.length_pos
          have hlength := hreads.length
          rw [List.length_cons] at hn hd hlength
          rw [within_of_ok hrun, mk.injEq] at hwithin
          obtain ⟨rfl, herrors⟩ := hwithin
          have hothers : within d n s = ⟨(within d n s).declarations, []⟩ := by rw [← herrors]
          exact ⟨us, s.rest, a, _, hreads.rest, ha, (ih (by omega) (by omega)).1 hothers, rfl⟩
        -- The errors of a malformed declaration stay, and there are some.
        | error errors s =>
          rw [within_of_error hrun, mk.injEq, List.append_eq_nil_iff] at hwithin
          obtain ⟨-, rfl, -⟩ := hwithin
          exact absurd hrun (Parser.declaration_ne_silent hd)
      · rintro ⟨us, vs, a, others, hts, ha, hothers, rfl⟩
        have hrun := (haccepts a ⟨stopFrom prev us, vs⟩ trivial).2 ⟨us, ⟨hts, rfl⟩, ha⟩
        have hpos := ha.length_pos
        have hlength := congrArg List.length hts
        rw [List.length_append] at hlength
        rw [within_of_ok hrun, (ih (by omega) (by omega)).2 hothers]

theorem isProgram_iff {tokens : Tokens} {ds : List Declaration} :
    IsProgram tokens ds ↔ ofTokens tokens = ⟨ds, []⟩ :=
  (within_eq_iff_isProgram (Nat.le_refl _) (Nat.le_add_right _ 2)).symm

/-- Tokens are read without an error if and only if they are a program, and read as what it means.
It means one thing only. -/
theorem ofTokens_iff_isProgram (tokens : Tokens) :
    ((ofTokens tokens).errors = [] ↔ ∃! ds, IsProgram tokens ds) ∧
      ∀ ds, IsProgram tokens ds ↔ ofTokens tokens = ⟨ds, []⟩ := by
  refine ⟨⟨fun herrors => ?_, ?_⟩, fun ds => isProgram_iff⟩
  · refine ⟨(ofTokens tokens).declarations, isProgram_iff.2 ?_, fun ds hds => ?_⟩
    · rw [← herrors]
    · rw [isProgram_iff.1 hds]
  · rintro ⟨ds, hds, -⟩
    rw [isProgram_iff.1 hds]

end Parsed

/-- Of a text without lexical errors only the tokens matter. -/
theorem parse_of_errors_eq_nil {source : String} (h : (Token.lex source).errors = []) :
    parse source = Parsed.ofTokens (Token.lex source).tokens := by
  rw [parse, h, List.map_nil, List.nil_append]

end PolyLambda.Surface
