import PolyLambda.Proofs.Surface.Accepts

/-!
# Reading types accepts the types

Each parser for types accepts what the grammar says it should (`accepts_typeExpr`), one rule at a
time. The parser looks one token past an opening parenthesis to tell the forms apart, so the forms
with a keyword and the ones without are compared separately.
-/

namespace PolyLambda.Surface.Parser

open Grammar

variable {n : Nat}

theorem proper_isTypeVar : Proper IsTypeVar := by
  rintro _ _ ⟨⟩
  exact ⟨_, _, rfl, by rintro ⟨⟩⟩

theorem chooses_typeVars : Chooses (· = .openParen) typeVars (enclosed (untilClose typeVar))
    (typeVar >>= fun name => pure [name]) :=
  chooses_of_eq (fun _ _ _ => rfl) fun s hs => congrFun (if_neg hs) s

theorem accepts_typeVars : Accepts n typeVars IsTypeVars := by
  refine (AcceptsUpTo.choice chooses_typeVars
    (accepts_typeVar.untilClose proper_isTypeVar).enclosed (accepts_typeVar.map fun name => [name])
    (fun _ => begins_parens) ?_).congr fun _ ts vars => ?_
  · rintro _ _ _ ⟨_, ⟨⟩, rfl⟩
    exact ⟨_, _, rfl, by rintro ⟨⟩⟩
  · constructor
    · rintro (h | h)
      · exact .inr ⟨_, h, rfl⟩
      · exact .inl ⟨h⟩
    · rintro (⟨⟨h⟩⟩ | ⟨_, h, rfl⟩)
      · exact .many h
      · exact .one h

theorem proper_isType : Proper IsType := by
  rintro _ _ (_ | _ | _)
  · exact ⟨_, _, rfl, by rintro ⟨⟩⟩
  · exact ⟨_, _, rfl, by rintro ⟨⟩⟩
  · exact ⟨_, _, rfl, by rintro ⟨⟩⟩

section

variable {type : Parser TypeExpr} (htype : Accepts n type IsType)

include htype in
theorem accepts_arrowForm (o : Span) :
    AcceptsInside n (arrowForm type o) fun c => IsArrow IsType (o.cover c) := by
  refine ((htype.untilClose proper_isType).finish (F := fun types c t => ∃ first second others,
    types = first :: second :: others ∧ t = arrows (o.cover c) first (second :: others))
    fun types s t s' => ?_).congr fun c ts t => ?_
  · obtain _ | ⟨first, _ | ⟨second, others⟩⟩ := types
    · exact ⟨by rintro ⟨⟩, by rintro ⟨-, _, _, _, ⟨⟩, -⟩⟩
    · exact ⟨by rintro ⟨⟩, by rintro ⟨-, _, _, _, ⟨⟩, -⟩⟩
    · constructor
      · rintro ⟨⟩
        exact ⟨rfl, _, _, _, rfl, rfl⟩
      · rintro ⟨rfl, _, _, _, ⟨⟩, rfl⟩
        rfl
  · constructor
    · rintro ⟨h⟩
      exact ⟨_, h, _, _, _, rfl, rfl⟩
    · rintro ⟨_, h, _, _, _, rfl, rfl⟩
      exact .mk h

include htype in
theorem accepts_allForm (o : Span) :
    AcceptsInside n (allForm type o) fun c => IsAll IsType (o.cover c) := by
  refine (accepts_typeVars.bind fun vars => htype.inside.here
    fun body c => vars.foldr (TypeExpr.all (o.cover c)) body).congr fun c ts t => ?_
  constructor
  · rintro ⟨hvars, hbody⟩
    exact .mk hvars ⟨_, hbody, rfl⟩
  · rintro ⟨hvars, _, hbody, rfl⟩
    exact .mk hvars hbody

/-- A name and types, and the closing parenthesis behind them. -/
inductive Named (o : Span) : Phrases TypeExpr
  | mk {s c : Span} {name : String} {ts : Tokens} {args : List TypeExpr} {t : TypeExpr} :
    Each IsType ts args →
    t = (if args.isEmpty then .named (o.cover c) name else .applied (o.cover c) name args) →
    Named o (⟨s, .symbol name⟩ :: (ts ++ [⟨c, .closeParen⟩])) t

include htype in
theorem accepts_namedForm (o : Span) : Accepts n (namedForm type o) (Named o) := by
  refine (accepts_symbol.bind fun name => (htype.untilClose proper_isType).close fun args c =>
    if args.isEmpty then TypeExpr.named (o.cover c) name.val
    else TypeExpr.applied (o.cover c) name.val args).congr fun c ts t => ?_
  constructor
  · rintro ⟨h, rfl⟩
    exact then_symbol (.mk h)
  · rintro ⟨⟨⟩, ⟨h⟩⟩
    exact .mk h rfl

/-- What follows an opening parenthesis in a type. -/
def typeForm (type : Parser TypeExpr) (o : Span) : Parser TypeExpr := do
  match ← peek with
  | some (.symbol "->") =>
    advance
    return (← closing (arrowForm type o)).1
  | some (.symbol "forall") =>
    advance
    return (← closing (allForm type o)).1
  | _ => namedForm type o

theorem isTypeForm_arrow_iff {k w : Span} {ts : Tokens} {t : TypeExpr} :
    IsTypeForm IsType w (⟨k, .symbol "->"⟩ :: ts) t ↔ IsArrow IsType w ts t := by
  constructor
  · generalize hws : (⟨k, .symbol "->"⟩ :: ts : Tokens) = ws
    rintro (h | h | h)
    · cases hws
      exact h
    · simp at hws
    · rcases h with ⟨hne, -⟩ | ⟨hne, -⟩
      · cases hws
        exact absurd rfl hne
      · cases hws
        exact absurd rfl hne
  · exact .arrow

theorem isTypeForm_all_iff {k w : Span} {ts : Tokens} {t : TypeExpr} :
    IsTypeForm IsType w (⟨k, .symbol "forall"⟩ :: ts) t ↔ IsAll IsType w ts t := by
  constructor
  · generalize hws : (⟨k, .symbol "forall"⟩ :: ts : Tokens) = ws
    rintro (h | h | h)
    · simp at hws
    · cases hws
      exact h
    · rcases h with ⟨-, hne⟩ | ⟨-, hne⟩
      · cases hws
        exact absurd rfl hne
      · cases hws
        exact absurd rfl hne
  · exact .all

theorem typeForm_of_ne (o : Span) {s : Input} (harrow : s.next? ≠ some (.symbol "->"))
    (hall : s.next? ≠ some (.symbol "forall")) : typeForm type o s = namedForm type o s := by
  simp only [typeForm, peek_bind]

include htype in
theorem accepts_typeForm (o : Span) : Accepts n (typeForm type o)
    (Closed (fun t _ => t) fun c => IsTypeForm IsType (o.cover c)) := by
  intro s hs
  have hnil : ∀ (_ : Span) t, ¬ Closed (fun t _ => t)
    (fun c => IsTypeForm IsType (o.cover c)) [] t :=
    fun _ _ => not_closed_nil
  by_cases harrow : s.next? = some (.symbol "->")
  · obtain ⟨prev, rest⟩ := s
    obtain ⟨k, rest, ⟨⟩⟩ := Input.next?_eq_some_iff.1 harrow
    refine acceptsAt_of_next hnil rfl
      ((accepts_arrowForm htype o).closing (fun t _ => t) ⟨k, rest⟩ (Nat.le_of_succ_le hs))
      fun _ ts t => (closed_cons_iff (by simp)).trans ?_
    exact closed_congr fun _ _ _ => isTypeForm_arrow_iff
  by_cases hall : s.next? = some (.symbol "forall")
  · obtain ⟨prev, rest⟩ := s
    obtain ⟨k, rest, ⟨⟩⟩ := Input.next?_eq_some_iff.1 hall
    refine acceptsAt_of_next hnil rfl
      ((accepts_allForm htype o).closing (fun t _ => t) ⟨k, rest⟩ (Nat.le_of_succ_le hs))
      fun _ ts t => (closed_cons_iff (by simp)).trans ?_
    exact closed_congr fun _ _ _ => isTypeForm_all_iff
  refine acceptsAt_of_eq (typeForm_of_ne o harrow hall) (accepts_namedForm htype o s hs)
    fun _ ts t hts => ?_
  constructor
  · rintro ⟨_ | _ | ⟨-, -⟩ | ⟨-, -, hargs, hne⟩⟩
    · exact absurd (Input.next?_of_prefix hts) harrow
    · exact absurd (Input.next?_of_prefix hts) hall
    · exact .mk .nil rfl
    · exact .mk hargs (if_neg (mt List.isEmpty_iff.1 hne)).symm
  · rintro @⟨k, c, name, us, args, _, h, rfl⟩
    have hname := Input.next?_of_prefix hts
    have harrow' : name ≠ "->" := fun heq => harrow (heq ▸ hname)
    have hall' : name ≠ "forall" := fun heq => hall (heq ▸ hname)
    have hclosed {t : TypeExpr} (h : IsTypeForm IsType (o.cover c) (⟨k, .symbol name⟩ :: us) t) :=
      @Closed.mk _ _ (fun t _ => t) (fun c => IsTypeForm IsType (o.cover c)) c _ t h
    cases args with
    | nil =>
      cases h
      exact hclosed (.named (.alone harrow' hall'))
    | cons a args => exact hclosed (.named (.applied harrow' hall' h (List.cons_ne_nil _ _)))

end

/-- A type of at most `d` tokens is read if nesting of depth `d` is allowed. -/
theorem accepts_typeExpr (d : Nat) : Accepts d (typeExpr d) IsType := by
  have hnil : ∀ (_ : Span) t, ¬ IsType [] t := by
    rintro _ _ h
    obtain ⟨_, _, ⟨⟩, -⟩ := proper_isType _ _ h
  induction d with
  | zero =>
    rintro ⟨prev, rest⟩ hs
    cases List.length_eq_zero_iff.1 (Nat.le_zero.1 hs)
    exact acceptsAt_of_nil hnil ⟨_, _, rfl⟩
  | succ d ih =>
    rintro ⟨prev, _ | ⟨⟨o, token⟩, rest⟩⟩ hs
    · exact acceptsAt_of_nil hnil ⟨_, _, rfl⟩
    · cases token with
      | openParen =>
        refine acceptsAt_of_next (q := typeForm (typeExpr d) o) hnil rfl
          (accepts_typeForm ih o ⟨o, rest⟩ (Nat.le_of_succ_le_succ hs))
          fun _ ts t => ?_
        constructor
        · generalize hws : (⟨o, .openParen⟩ :: ts : Tokens) = ws
          rintro (_ | _ | ⟨h⟩)
          · cases hws
          · cases hws
          · cases hws
            exact .mk h
        · rintro ⟨h⟩
          exact .paren h
      | symbol name =>
        refine acceptsAt_of_next hnil rfl (acceptsAt_pure (TypeExpr.named o name)) fun _ _ _ => ?_
        constructor <;> rintro ⟨⟩ <;> constructor
      | typeVar name =>
        refine acceptsAt_of_next hnil rfl (acceptsAt_pure (TypeExpr.var o name)) fun _ _ _ => ?_
        constructor <;> rintro ⟨⟩ <;> constructor
      | _ => exact acceptsAt_of_error hnil ⟨_, _, rfl⟩ nofun

end PolyLambda.Surface.Parser
