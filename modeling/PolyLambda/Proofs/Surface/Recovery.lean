import Mathlib.Logic.Relation
import PolyLambda.Proofs.Surface.Chunks
import PolyLambda.Proofs.Surface.Onward

/-!
# What is read in a malformed form

One form in balanced parentheses is read as the declaration that it is, if it is one. If not, then
reading gives up somewhere in it and goes on from there as if between declarations, and that may be
inside the form: a declaration that got stuck directly between its own parentheses is skipped to the
end, but one that got stuck inside a form of its own is skipped only to the end of that. What stands
behind is uncovered (`Uncovers`), and what is returned are exactly the declarations among the forms
that are uncovered, at once or by giving up on an uncovered form in turn
(`Parsed.ofTokens_enclosed`). So a malformed form may well give declarations.
-/

namespace PolyLambda.Surface

namespace Grammar

/-! ## Balanced parentheses -/

/-- Every parenthesis is closed behind where it is opened, and none else. -/
inductive Matched : Tokens → Prop
  | nil : Matched []
  | token {t : Located Token} {ts : Tokens} : t.val ≠ .openParen → t.val ≠ .closeParen →
      Matched ts → Matched (t :: ts)
  | group {o c : Span} {ts us : Tokens} : Matched ts → Matched us → Matched (parens o c ts ++ us)

/-- One form in parentheses, whatever is in it, as long as its parentheses match. -/
inductive Enclosed : Tokens → Prop
  | mk {o c : Span} {ts : Tokens} : Matched ts → Enclosed (parens o c ts)

variable {ts us : Tokens}

theorem Enclosed.matched (h : Enclosed ts) : Matched ts := by
  obtain @⟨o, c, ts, hmatched⟩ := h
  rw [← List.append_nil (parens o c ts)]
  exact .group hmatched .nil

theorem Enclosed.ne_nil (h : Enclosed ts) : ts ≠ [] := by
  obtain ⟨-⟩ := h
  exact List.cons_ne_nil _ _

theorem after_of_ne {token : Token} (hopen : token ≠ .openParen) (hclose : token ≠ .closeParen)
    (k : Nat) : after k token = k := by
  cases token <;> first | rfl | contradiction

theorem openAfter_parens {o c : Span} {k : Nat} :
    openAfter k (parens o c ts) = openAfter (k + 1) ts - 1 := by
  change openAfter (k + 1) (ts ++ [⟨c, .closeParen⟩]) = _
  rw [openAfter_append]
  rfl

theorem Matched.openAfter_eq (h : Matched ts) (k : Nat) : openAfter k ts = k := by
  induction h generalizing k with
  | nil => rfl
  | @token t ts hopen hclose _ ih =>
    change openAfter (after k t.val) ts = k
    rw [after_of_ne hopen hclose, ih]
  | group _ _ ih ih' => rw [openAfter_append, openAfter_parens, ih, ih', Nat.add_sub_cancel]

theorem Enclosed.openAfter_eq (h : Enclosed ts) (k : Nat) : openAfter k ts = k :=
  h.matched.openAfter_eq k

/-- Where more parentheses are closed than opened, the first one that is closed too much has matched
tokens before it. -/
theorem exists_matched (ts : Tokens) (k : Nat) (h : openAfter (k + 1) ts ≤ k) :
    ∃ inner c rest, ts = inner ++ ⟨c, .closeParen⟩ :: rest ∧ Matched inner := by
  match ts with
  | [] => exact absurd h (Nat.not_succ_le_self k)
  | ⟨o, token⟩ :: ts =>
    by_cases hclose : token = .closeParen
    · subst hclose
      exact ⟨[], o, ts, rfl, .nil⟩
    by_cases hopen : token = .openParen
    · subst hopen
      obtain ⟨inner, c, rest, rfl, hinner⟩ :=
        exists_matched ts (k + 1) (Nat.le_succ_of_le h)
      have hrest : openAfter (k + 1) rest ≤ k := by
        have happend := openAfter_append (k + 2) inner (⟨c, .closeParen⟩ :: rest)
        rw [hinner.openAfter_eq] at happend
        exact Nat.le_trans (Nat.le_of_eq happend.symm) h
      obtain ⟨inner', c', rest', rfl, hinner'⟩ := exists_matched rest k hrest
      refine ⟨parens o c inner ++ inner', c', rest', ?_, .group hinner hinner'⟩
      simp only [parens, List.cons_append, List.append_assoc, List.nil_append]
    · have hopen' : openAfter (k + 1) ts ≤ k := by
        rwa [← after_of_ne hopen hclose (k + 1)]
      obtain ⟨inner, c, rest, rfl, hinner⟩ := exists_matched ts k hopen'
      exact ⟨⟨o, token⟩ :: inner, c, rest, rfl, .token hopen hclose hinner⟩
termination_by ts.length

/-- Closed tokens that begin with a parenthesis begin with a form. -/
theorem exists_enclosed {o : Span} (h : openAfter 0 (⟨o, .openParen⟩ :: ts) = 0) :
    ∃ form rest, ⟨o, .openParen⟩ :: ts = form ++ rest ∧ Enclosed form ∧ openAfter 0 rest = 0 := by
  obtain ⟨inner, c, rest, rfl, hinner⟩ := exists_matched ts 0 (Nat.le_of_eq h)
  have hsplit : (⟨o, .openParen⟩ :: (inner ++ ⟨c, .closeParen⟩ :: rest) : Tokens) =
      parens o c inner ++ rest := by
    simp only [parens, List.cons_append, List.append_assoc, List.nil_append]
  rw [hsplit, openAfter_append, (Enclosed.mk hinner).openAfter_eq] at h
  exact ⟨_, rest, hsplit, .mk hinner, h⟩

/-- A place between tokens that begin with a form is before it, inside it or behind it. -/
theorem parens_append_eq_append {o c : Span} {ts' vs : Tokens}
    (h : parens o c ts ++ ts' = us ++ vs) :
    us = [] ∨ (∃ us' vs', us = ⟨o, .openParen⟩ :: us' ∧ ts = us' ++ vs' ∧
        vs = vs' ++ ⟨c, .closeParen⟩ :: ts') ∨
      ∃ us', us = parens o c ts ++ us' ∧ ts' = us' ++ vs := by
  rcases List.cons_eq_append_iff.1 h with ⟨rfl, -⟩ | ⟨us, rfl, hrest⟩
  · exact .inl rfl
  change (ts ++ [⟨c, .closeParen⟩]) ++ ts' = us ++ vs at hrest
  rw [List.append_assoc] at hrest
  rcases List.append_eq_append_iff.1 hrest with ⟨us', rfl, hclose⟩ | ⟨vs', rfl, rfl⟩
  · rcases List.cons_eq_append_iff.1 hclose with ⟨rfl, rfl⟩ | ⟨us', rfl, rfl⟩
    · exact .inr (.inl ⟨ts, [], by rw [List.append_nil], (List.append_nil _).symm, rfl⟩)
    · refine .inr (.inr ⟨us', ?_, rfl⟩)
      simp only [parens, List.cons_append, List.append_assoc, List.nil_append]
  · exact .inr (.inl ⟨us, vs', rfl, rfl, rfl⟩)

/-- What matched tokens begin with closes nothing that is open before them. -/
theorem Matched.le_openAfter (h : Matched ts) {vs : Tokens} (hts : ts = us ++ vs) (k : Nat) :
    k ≤ openAfter k us := by
  induction h generalizing us vs k with
  | nil =>
    obtain ⟨rfl, -⟩ := List.append_eq_nil_iff.1 hts.symm
    exact Nat.le_refl k
  | @token t ts hopen hclose _ ih =>
    rcases List.cons_eq_append_iff.1 hts with ⟨rfl, -⟩ | ⟨us, rfl, hothers⟩
    · exact Nat.le_refl k
    · change k ≤ openAfter (after k t.val) us
      rw [after_of_ne hopen hclose]
      exact ih hothers k
  | group hmatched _ ih ih' =>
    rcases parens_append_eq_append hts with rfl | ⟨us, vs, rfl, hinner, -⟩ | ⟨us, rfl, hothers⟩
    · exact Nat.le_refl k
    · exact Nat.le_of_succ_le (ih hinner (k + 1))
    · rw [openAfter_append, openAfter_parens, hmatched.openAfter_eq, Nat.add_sub_cancel]
      exact ih' hothers k

/-- A form does not end before its end. -/
theorem Enclosed.eq_nil_of_append (h : Enclosed ts) {vs : Tokens} (hts : ts = us ++ vs)
    (hne : us ≠ []) (hopen : openAfter 0 us = 0) : vs = [] := by
  obtain @⟨o, c, ts, hmatched⟩ := h
  rw [← List.append_nil (parens o c ts)] at hts
  rcases parens_append_eq_append hts with rfl | ⟨us, vs, rfl, hinner, -⟩ | ⟨us, rfl, hothers⟩
  · exact absurd rfl hne
  · have hle : 1 ≤ openAfter 0 (⟨o, .openParen⟩ :: us) := hmatched.le_openAfter hinner 1
    exact absurd hopen (Nat.ne_of_gt hle)
  · exact (List.append_eq_nil_iff.1 hothers.symm).2

/-- A closing parenthesis of matched tokens ends a form. -/
theorem Matched.exists_enclosed (h : Matched ts) {c : Span} {vs : Tokens}
    (hts : ts = us ++ ⟨c, .closeParen⟩ :: vs) :
    ∃ before form, us ++ [⟨c, .closeParen⟩] = before ++ form ∧ Enclosed form := by
  induction h generalizing us vs with
  | nil => exact absurd hts.symm (List.append_ne_nil_of_right_ne_nil _ (List.cons_ne_nil _ _))
  | @token t ts _ hclose _ ih =>
    rcases List.cons_eq_append_iff.1 hts with ⟨rfl, ht⟩ | ⟨us, rfl, hothers⟩
    · cases ht
      exact absurd rfl hclose
    · obtain ⟨before, form, hus, hform⟩ := ih hothers
      exact ⟨t :: before, form, congrArg (t :: ·) hus, hform⟩
  | @group o c' ts ts' hmatched _ ih ih' =>
    rcases parens_append_eq_append hts with rfl | ⟨us, ws, rfl, hinner, hws⟩ | ⟨us, rfl, hothers⟩
    · cases hts
    · rcases List.cons_eq_append_iff.1 hws with ⟨rfl, hc⟩ | ⟨ws, rfl, -⟩
      · cases hc
        rw [List.append_nil] at hinner
        subst hinner
        exact ⟨[], parens o c ts, rfl, .mk hmatched⟩
      · obtain ⟨before, form, hus, hform⟩ := ih hinner
        exact ⟨⟨o, .openParen⟩ :: before, form, congrArg (_ :: ·) hus, hform⟩
    · obtain ⟨before, form, hus, hform⟩ := ih' hothers
      refine ⟨parens o c' ts ++ before, form, ?_, hform⟩
      rw [List.append_assoc, hus, List.append_assoc]

end Grammar

/-! ## Where reading goes on -/

namespace Parser

open Grammar Input

variable {α : Type} {s s' : Input} {errors : List ParseError}

/-- A declaration is given up behind a closing parenthesis. -/
theorem passesClose_closingDeclaration {p : Parser α} (hp : Goes (fun _ => True) p)
    (hrun : closingDeclaration p s = .error errors s') : s.PassesClose s' := by
  have hskip (s : Input) : s.PassesClose (skipToClose s) := passesClose_skipFrom 0 s.prev s.rest
  have hreached := hp s ⟨trivial, fun _ _ => trivial⟩
  rw [closingDeclaration] at hrun
  generalize p s = r at hreached hrun
  cases hreached with
  | @ok a s₁ _ hreads _ =>
    dsimp only at hrun
    split at hrun
    · cases hrun
    · cases hrun
      exact hreads.passesClose (hskip s₁)
  | @error errors s₁ _ hreads _ =>
    dsimp only at hrun
    split at hrun
    next hclose =>
      cases hrun
      exact hreads.passesClose (passesClose_tail hclose)
    next =>
      cases hrun
      exact hreads.passesClose (hskip s₁)

theorem passesClose_declarationForm {depth : Nat} {start : Span}
    (hrun : declarationForm depth start s = .error errors s') : s.PassesClose s' := by
  have htail {α : Type} {p : Parser α} (hp : Goes (fun _ => True) p)
      (hrun : closingDeclaration p s.tail = .error errors s') : s.PassesClose s' :=
    have ⟨_, hreads⟩ := s.exists_reads_tail
    hreads.passesClose (passesClose_closingDeclaration hp hrun)
  simp only [declarationForm, here_bind, peek_bind] at hrun
  generalize s.next? = found at hrun
  split at hrun
  next => exact htail ((goes_definition region_true depth).bind fun _ _ => goes_pure _) hrun
  next => exact htail ((goes_dataDecl region_true depth).bind fun _ _ => goes_pure _) hrun
  next => exact htail ((goes_primTypeDecl region_true).bind fun _ _ => goes_pure _) hrun
  next => exact htail ((goes_primOpDecl region_true depth).bind fun _ _ => goes_pure _) hrun
  next =>
    cases hrun
    exact passesClose_skipFrom 0 s.prev s.rest

end Parser

/-! ## One attempt -/

namespace Parsed

open Grammar

variable {ts : Tokens} {d : Declaration}

/-- An attempt at one declaration. -/
def attempt (ts : Tokens) : EStateM.Result (List ParseError) Input Declaration :=
  Parser.declaration (ts.length + 1) ⟨.origin, ts⟩

/-- The tokens that an attempt does not read. -/
def leftover (ts : Tokens) : Tokens :=
  match attempt ts with
  | .ok _ s | .error _ s => s.rest

theorem leftover_of_ok {s : Input} (h : attempt ts = .ok d s) : leftover ts = s.rest := by
  rw [leftover, h]

theorem leftover_of_error {errors : List ParseError} {s : Input}
    (h : attempt ts = .error errors s) : leftover ts = s.rest := by
  rw [leftover, h]

/-- An attempt reads something, and leaves no parenthesis open. -/
theorem leftover_spec (hne : ts ≠ []) :
    (leftover ts).length < ts.length ∧ openAfter 0 (leftover ts) ≤ openAfter 0 ts := by
  obtain ⟨t, rest, rfl⟩ := List.exists_cons_of_ne_nil hne
  have hagree : Parser.Agree [] (fun _ => 0) 0 rest.length (openAfter 0 (t :: rest))
      (attempt (t :: rest))
      (Parser.declaration ((t :: rest).length + 1) ⟨.origin, t :: (rest ++ [])⟩) :=
    Parser.agree_declaration .origin .origin (Nat.le_add_right _ 2)
    (Nat.le_add_right _ 2) (.inl rfl)
  rw [leftover]
  generalize attempt (t :: rest) = x, Parser.declaration _ _ = y at hagree
  cases hagree with
  | ok hopen hlength => exact ⟨Nat.lt_succ_of_le hlength, Nat.le_of_eq hopen⟩
  | error hopen hlength _ => exact ⟨Nat.lt_succ_of_le hlength, hopen⟩

theorem attempt_eq_ok_iff {s : Input} : attempt ts = .ok d s ↔
    ∃ us, Input.Reads ⟨.origin, ts⟩ us s ∧ IsDeclaration us d :=
  (Parser.accepts_declaration (ts.length + 1)).iff (s := ⟨.origin, ts⟩) (Nat.le_add_right _ 2)

/-- What is read from tokens is what one attempt reads, if it succeeds, and what is read from the
tokens that it leaves. -/
theorem mem_ofTokens_iff (hne : ts ≠ []) : d ∈ (ofTokens ts).declarations ↔
    (∃ s, attempt ts = .ok d s) ∨ d ∈ (ofTokens (leftover ts)).declarations := by
  have hlength := (leftover_spec hne).1
  obtain ⟨t, rest, rfl⟩ := List.exists_cons_of_ne_nil hne
  have hwithin (s : Input) (hs : leftover (t :: rest) = s.rest) :
      within ((t :: rest).length + 1) rest.length s = ofTokens (leftover (t :: rest)) := by
    rw [hs] at hlength ⊢
    have hle : s.rest.length ≤ rest.length := Nat.le_of_lt_succ hlength
    exact within_congr (Nat.le_refl _) (Nat.le_add_right _ 2) hle
      (Nat.le_trans hle (Nat.le_add_right _ 3))
  change d ∈ (within ((t :: rest).length + 1) (rest.length + 1) ⟨.origin, t :: rest⟩).declarations ↔
    _
  cases hrun : attempt (t :: rest) with
  | ok a s =>
    rw [within_of_ok hrun, hwithin s (leftover_of_ok hrun), List.mem_cons]
    refine or_congr_left ⟨?_, ?_⟩
    · rintro rfl
      exact ⟨s, rfl⟩
    · rintro ⟨s', ⟨⟩⟩
      rfl
  | error errors s =>
    rw [within_of_error hrun, hwithin s (leftover_of_error hrun)]
    exact ⟨.inr, fun h => h.resolve_left nofun⟩

/-! ## Forms in closed tokens -/

/-- The form stands in the tokens, and every parenthesis that is opened before it is closed before
it. -/
def Outermost (form ts : Tokens) : Prop :=
  Enclosed form ∧ ∃ before rest, ts = before ++ (form ++ rest) ∧ openAfter 0 before = 0

theorem Outermost.of_append {form before : Tokens} (h : Outermost form ts)
    (hbefore : openAfter 0 before = 0) : Outermost form (before ++ ts) := by
  obtain ⟨hform, before', rest, rfl, hbefore'⟩ := h
  refine ⟨hform, before ++ before', rest, (List.append_assoc _ _ _).symm, ?_⟩
  rw [openAfter_append, hbefore, hbefore']

theorem Outermost.mem {form : Tokens} (h : Outermost form ts)
    (hd : d ∈ (ofTokens form).declarations) : d ∈ (ofTokens ts).declarations := by
  obtain ⟨hform, before, rest, rfl, hbefore⟩ := h
  rw [ofTokens_append hbefore, ofTokens_append (hform.openAfter_eq 0)]
  exact List.mem_append_right _ (List.mem_append_left _ hd)

/-- What does not begin with a parenthesis is passed over. -/
theorem mem_ofTokens_cons {t : Located Token} (ht : t.val ≠ .openParen) :
    d ∈ (ofTokens (t :: ts)).declarations ↔ d ∈ (ofTokens ts).declarations := by
  obtain ⟨o, token⟩ := t
  rw [mem_ofTokens_iff (List.cons_ne_nil _ _)]
  cases token with
  | openParen => exact absurd rfl ht
  | _ => exact or_iff_right nofun

/-- What is read from closed tokens is read from the outermost forms. -/
theorem exists_outermost {ts : Tokens} (h : openAfter 0 ts = 0)
    (hd : d ∈ (ofTokens ts).declarations) :
    ∃ form, Outermost form ts ∧ d ∈ (ofTokens form).declarations := by
  match ts with
  | [] => exact absurd hd nofun
  | ⟨o, token⟩ :: ts =>
    by_cases hopen : token = .openParen
    · subst hopen
      obtain ⟨form, rest, hsplit, hform, hrest⟩ := exists_enclosed h
      rw [hsplit] at hd ⊢
      have hclosed := hform.openAfter_eq 0
      rw [ofTokens_append hclosed] at hd
      rcases List.mem_append.1 hd with hd | hd
      · exact ⟨form, ⟨hform, [], rest, rfl, rfl⟩, hd⟩
      · obtain ⟨form', hform', hd'⟩ := exists_outermost hrest hd
        exact ⟨form', hform'.of_append hclosed, hd'⟩
    · have hafter : openAfter 0 [⟨o, token⟩] = 0 := by
        cases token <;> first | rfl | contradiction
      have hclosed : openAfter 0 ts = 0 := by
        change openAfter (openAfter 0 [⟨o, token⟩]) ts = 0 at h
        rwa [hafter] at h
      obtain ⟨form, hform, hd'⟩ := exists_outermost hclosed ((mem_ofTokens_cons hopen).1 hd)
      exact ⟨form, hform.of_append hafter, hd'⟩
termination_by ts.length
decreasing_by
  · have hlength := congrArg List.length hsplit
    obtain ⟨hmatched⟩ := hform
    simp only [parens, List.length_cons, List.length_append, List.length_nil] at hlength ⊢
    omega
  · exact Nat.lt_succ_self _

/-! ## Forms -/

/-- The form is outermost in what an attempt at `ts` leaves. -/
def Uncovers (ts form : Tokens) : Prop := Outermost form (leftover ts)

theorem Uncovers.length_lt {form : Tokens} (h : Uncovers ts form) (hne : ts ≠ []) :
    form.length < ts.length := by
  obtain ⟨-, before, rest, hsplit, -⟩ := h
  have hlength := (leftover_spec hne).1
  rw [hsplit, List.length_append, List.length_append] at hlength
  omega

/-- A form is read as a declaration at once if it is one. -/
theorem exists_attempt_iff (h : Enclosed ts) :
    (∃ s, attempt ts = .ok d s) ↔ IsDeclaration ts d := by
  simp only [attempt_eq_ok_iff]
  constructor
  · rintro ⟨s, us, hreads, hd⟩
    have hnil := h.eq_nil_of_append hreads.rest (List.length_pos_iff.1 hd.length_pos) hd.closed
    have hts : ts = us := by
      rw [← List.append_nil us, ← hnil]
      exact hreads.rest
    rwa [hts]
  · intro hd
    exact ⟨⟨stopFrom .origin ts, []⟩, ts, ⟨(List.append_nil _).symm, rfl⟩, hd⟩

theorem mem_ofTokens_enclosed_iff {ts : Tokens} (h : Enclosed ts) : d ∈ (ofTokens ts).declarations ↔
    ∃ form, Relation.ReflTransGen Uncovers ts form ∧ IsDeclaration form d := by
  have hne := h.ne_nil
  have hclosed : openAfter 0 (leftover ts) = 0 :=
    Nat.le_zero.1 (Nat.le_trans (leftover_spec hne).2 (Nat.le_of_eq (h.openAfter_eq 0)))
  rw [mem_ofTokens_iff hne, exists_attempt_iff h]
  constructor
  · rintro (hd | hd)
    · exact ⟨ts, .refl, hd⟩
    · obtain ⟨form, hform, hd⟩ := exists_outermost hclosed hd
      have hlt := Uncovers.length_lt hform hne
      obtain ⟨form', hform', hd'⟩ := (mem_ofTokens_enclosed_iff hform.1).1 hd
      exact ⟨form', .head hform hform', hd'⟩
  · rintro ⟨form', hform', hd⟩
    rcases hform'.cases_head with rfl | ⟨form, hform, hrest⟩
    · exact .inl hd
    · have hlt := Uncovers.length_lt hform hne
      exact .inr (Outermost.mem hform ((mem_ofTokens_enclosed_iff hform.1).2 ⟨form', hrest, hd⟩))
termination_by ts.length

/-- Reading goes on behind a form, which is the whole of the tokens or stands inside them. -/
theorem exists_leftover_behind (h : Enclosed ts) :
    ∃ before form, ts = before ++ (form ++ leftover ts) ∧ Enclosed form := by
  have hwhole (hnil : leftover ts = []) :
      ∃ before form, ts = before ++ (form ++ leftover ts) ∧ Enclosed form := by
    refine ⟨[], ts, ?_, h⟩
    rw [hnil, List.append_nil, List.nil_append]
  cases hrun : attempt ts with
  | ok d s =>
    obtain ⟨us, hreads, hd⟩ := attempt_eq_ok_iff.1 hrun
    have hnil := h.eq_nil_of_append hreads.rest (List.length_pos_iff.1 hd.length_pos) hd.closed
    exact hwhole ((leftover_of_ok hrun).trans hnil)
  | error errors s =>
    have hleft := leftover_of_error hrun
    have hpasses : Input.PassesClose ⟨.origin, ts⟩ s := by
      obtain ⟨-⟩ := h
      exact (Parser.passesClose_declarationForm hrun).cons
    obtain ⟨us, hreads, hnil | ⟨us, c, rfl⟩⟩ := hpasses
    · exact hwhole (hleft.trans hnil)
    · have hts : ts = (us ++ [⟨c, .closeParen⟩]) ++ s.rest := hreads.rest
      have hsplit := hts
      rw [List.append_assoc] at hsplit
      obtain ⟨before, form, hus, hform⟩ := h.matched.exists_enclosed hsplit
      refine ⟨before, form, ?_, hform⟩
      rw [hleft, ← List.append_assoc, ← hus]
      exact hts

/-- One form is read as the declaration that it is, if it is one. If not, then no declaration is
returned exactly if none is uncovered by giving up on it: what is returned are the declarations
among the form and the forms that are uncovered, directly or in turn. Reading goes on behind the
form or, to uncover something, behind a form inside it. -/
theorem ofTokens_enclosed (h : Enclosed ts) :
    (∀ d, IsDeclaration ts d → ofTokens ts = ⟨[d], []⟩) ∧
      ((∀ d, ¬ IsDeclaration ts d) → ((ofTokens ts).declarations = [] ↔
        ∀ form, Relation.TransGen Uncovers ts form → ∀ d, ¬ IsDeclaration form d)) ∧
      (∀ d, d ∈ (ofTokens ts).declarations ↔
        ∃ form, Relation.ReflTransGen Uncovers ts form ∧ IsDeclaration form d) ∧
      ∃ before form, ts = before ++ (form ++ leftover ts) ∧ Enclosed form := by
  refine ⟨fun d hd => ?_, fun hnot => ?_, fun d => mem_ofTokens_enclosed_iff h,
    exists_leftover_behind h⟩
  · refine isProgram_iff.1 ?_
    rw [← List.append_nil ts]
    exact .cons hd .nil
  · simp only [List.eq_nil_iff_forall_not_mem, mem_ofTokens_enclosed_iff h]
    constructor
    · exact fun hnone form hform d hd => hnone d ⟨form, hform.to_reflTransGen, hd⟩
    · rintro hnone d ⟨form, hform, hd⟩
      rcases Relation.reflTransGen_iff_eq_or_transGen.1 hform with rfl | hform
      · exact hnot d hd
      · exact hnone form hform d hd

/-- The tokens of `(def y 1)`. -/
def innerForm : Tokens :=
  parens ⟨14, 15⟩ ⟨22, 23⟩
    [⟨⟨15, 18⟩, .symbol "def"⟩, ⟨⟨19, 20⟩, .symbol "y"⟩, ⟨⟨21, 22⟩, .int 1⟩]

def innerDeclaration : Declaration :=
  .definition ⟨⟨14, 23⟩, "y", none, .empty, none, .int ⟨21, 22⟩ 1⟩

/-- The tokens of `(def x (f @5) (def y 1))`: a definition whose body has an argument that is no
type, and that has another definition behind its body. -/
def outerForm : Tokens :=
  parens ⟨0, 1⟩ ⟨23, 24⟩
    (⟨⟨1, 4⟩, .symbol "def"⟩ :: ⟨⟨5, 6⟩, .symbol "x"⟩ ::
      (parens ⟨7, 8⟩ ⟨12, 13⟩
        [⟨⟨8, 9⟩, .symbol "f"⟩, ⟨⟨10, 11⟩, .atSign⟩, ⟨⟨11, 12⟩, .int 5⟩] ++ innerForm))

theorem enclosed_innerForm : Enclosed innerForm :=
  .mk (.token nofun nofun (.token nofun nofun (.token nofun nofun .nil)))

theorem enclosed_outerForm : Enclosed outerForm :=
  .mk (.token nofun nofun (.token nofun nofun
    (.group (.token nofun nofun (.token nofun nofun (.token nofun nofun .nil)))
      enclosed_innerForm.matched)))

theorem isDeclaration_innerForm : IsDeclaration innerForm innerDeclaration :=
  (exists_attempt_iff enclosed_innerForm).1 ⟨_, rfl⟩

/-- Reading gives up on `x` behind its body, and the definition there is uncovered. -/
theorem uncovers_innerForm : Uncovers outerForm innerForm :=
  ⟨enclosed_innerForm, [], [⟨⟨23, 24⟩, .closeParen⟩], rfl, rfl⟩

/-- So `y` is returned. -/
theorem ofTokens_enclosed_outerForm : Enclosed outerForm ∧ Uncovers outerForm innerForm ∧
    IsDeclaration innerForm innerDeclaration ∧
    innerDeclaration ∈ (ofTokens outerForm).declarations :=
  ⟨enclosed_outerForm, uncovers_innerForm, isDeclaration_innerForm,
    ((ofTokens_enclosed enclosed_outerForm).2.2.1 innerDeclaration).2
      ⟨innerForm, .single uncovers_innerForm, isDeclaration_innerForm⟩⟩

/-- The form is no declaration, and yet a definition inside it is returned as one. -/
theorem malformed_returns_inner : Enclosed outerForm ∧ (∀ d, ¬ IsDeclaration outerForm d) ∧
    (ofTokens outerForm).declarations = [innerDeclaration] := by
  refine ⟨enclosed_outerForm, fun d hd => ?_, rfl⟩
  obtain ⟨s, hs⟩ := (exists_attempt_iff enclosed_outerForm).2 hd
  cases hs

end Parsed

end PolyLambda.Surface
