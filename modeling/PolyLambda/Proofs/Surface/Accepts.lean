import PolyLambda.Proofs.Surface.Grammar

/-!
# Parsers that accept a language

A parser accepts a language if it succeeds exactly on inputs that begin with a phrase of it, reads
that phrase and returns what it means (`Parser.Accepts`). Some parsers stop only in front of the
parenthesis that closes the form around them, and need to be asked about such inputs alone
(`Parser.AcceptsInside`). There is one rule for each way to build a parser from others; so a parser
is compared with a rule of the grammar without running it.

A parser that calls itself is compared on inputs of bounded length, by induction on the bound.
-/

namespace PolyLambda.Surface

/-! ## Phrases -/

namespace Grammar

theorem stopFrom_append (prev : Span) (ts us : Tokens) :
    stopFrom prev (ts ++ us) = stopFrom (stopFrom prev ts) us := by
  induction ts generalizing prev with
  | nil => rfl
  | cons t ts ih => exact ih t.span

/-- The phrases are not empty, and their first token is as said. -/
def Begins {α : Type} (first : Token → Prop) (P : Phrases α) : Prop :=
  ∀ ts a, P ts a → ∃ t us, ts = t :: us ∧ first t.val

theorem Begins.imp {α : Type} {P : Phrases α} {first first' : Token → Prop} (h : Begins first P)
    (himp : ∀ t, first t → first' t) : Begins first' P := by
  intro ts a hP
  obtain ⟨t, us, rfl, ht⟩ := h ts a hP
  exact ⟨t, us, rfl, himp _ ht⟩

/-- The phrases are not empty, and they do not begin with a closing parenthesis. -/
abbrev Proper {α : Type} (P : Phrases α) : Prop := Begins (· ≠ .closeParen) P

end Grammar

open Grammar (Tokens Phrases Each Begins Proper stopFrom stop parens)

variable {α β γ : Type}

/-! ## What is read -/

/-- From `s` to `s'` the tokens `ts` are read. -/
structure Input.Reads (s : Input) (ts : Tokens) (s' : Input) : Prop where
  rest : s.rest = ts ++ s'.rest
  prev : s'.prev = stopFrom s.prev ts

/-- The next token closes the innermost open parenthesis. -/
def Input.Closes (s : Input) : Prop := s.next? = some .closeParen

namespace Input

theorem reads_nil_iff {s s' : Input} : s.Reads [] s' ↔ s' = s := by
  constructor
  · rintro ⟨hrest, hprev⟩
    obtain ⟨prev, rest⟩ := s
    obtain ⟨prev', rest'⟩ := s'
    cases hrest
    cases hprev
    rfl
  · rintro rfl
    exact ⟨rfl, rfl⟩

theorem reads_cons_iff {prev : Span} {t u : Located Token} {rest us : Tokens} {s' : Input} :
    Reads ⟨prev, t :: rest⟩ (u :: us) s' ↔ u = t ∧ Reads ⟨t.span, rest⟩ us s' := by
  constructor
  · rintro ⟨hrest, hprev⟩
    cases hrest
    exact ⟨rfl, rfl, hprev⟩
  · rintro ⟨rfl, hrest, hprev⟩
    exact ⟨congrArg _ hrest, hprev⟩

theorem reads_append_iff {s s' : Input} {ts us : Tokens} :
    s.Reads (ts ++ us) s' ↔ ∃ s₁, s.Reads ts s₁ ∧ s₁.Reads us s' := by
  constructor
  · rintro ⟨hrest, hprev⟩
    rw [List.append_assoc] at hrest
    rw [Grammar.stopFrom_append] at hprev
    exact ⟨⟨stopFrom s.prev ts, us ++ s'.rest⟩, ⟨hrest, rfl⟩, rfl, hprev⟩
  · rintro ⟨s₁, ⟨hrest, hprev⟩, hrest', hprev'⟩
    refine ⟨?_, ?_⟩
    · rw [hrest, hrest', List.append_assoc]
    · rw [hprev', hprev, Grammar.stopFrom_append]

theorem Reads.length {s s' : Input} {ts : Tokens} (h : s.Reads ts s') :
    s.rest.length = ts.length + s'.rest.length := by
  rw [h.rest, List.length_append]

theorem Reads.length_le {s s' : Input} {ts : Tokens} (h : s.Reads ts s') :
    s'.rest.length ≤ s.rest.length := by
  rw [h.length]
  exact Nat.le_add_left ..

theorem next?_eq_some_iff {s : Input} {token : Token} :
    s.next? = some token ↔ ∃ span rest, s.rest = ⟨span, token⟩ :: rest := by
  obtain ⟨prev, _ | ⟨⟨span, found⟩, rest⟩⟩ := s
  · constructor
    · rintro ⟨⟩
    · rintro ⟨_, _, ⟨⟩⟩
  · constructor
    · rintro ⟨⟩
      exact ⟨span, rest, rfl⟩
    · rintro ⟨_, _, ⟨⟩⟩
      rfl

theorem next?_of_prefix {s : Input} {t : Located Token} {ts : Tokens} (h : t :: ts <+: s.rest) :
    s.next? = some t.val := by
  obtain ⟨us, hus⟩ := h
  rw [next?, ← hus]
  rfl

end Input

namespace Parser

theorem bind_eq_ok_iff {p : Parser α} {q : α → Parser β} {s s' : Input} {b : β} :
    (p >>= q) s = .ok b s' ↔ ∃ a s₁, p s = .ok a s₁ ∧ q a s₁ = .ok b s' := by
  constructor
  · intro h
    change EStateM.bind p q s = .ok b s' at h
    rw [EStateM.bind] at h
    split at h
    next a s₁ ha => exact ⟨a, s₁, ha, h⟩
    next => cases h
  · rintro ⟨a, s₁, ha, hb⟩
    change EStateM.bind p q s = .ok b s'
    rw [EStateM.bind, ha]
    exact hb

theorem here_bind (q : Span → Parser α) (s : Input) : (here >>= q) s = q s.here s := rfl

theorem peek_bind (q : Option Token → Parser α) (s : Input) : (peek >>= q) s = q s.next? s := rfl

theorem expect_run (token : Token) (s : Input) :
    expect token s =
      if s.next? = some token then .ok s.here s.tail
      else .error [⟨s.here, .expected token s.next?⟩] s := by
  change (if s.next? = some token then _ else _ : Parser Span) s = _
  split <;> rfl

theorem expect_bind_of_next {token : Token} {q : Span → Parser α} {s : Input}
    (h : s.next? = some token) : (expect token >>= q) s = q s.here s.tail := by
  change (expect token).bind q s = _
  rw [EStateM.bind, expect_run, if_pos h]

theorem expect_bind_of_not_next {token : Token} {q : Span → Parser α} {s : Input}
    (h : s.next? ≠ some token) :
    (expect token >>= q) s = .error [⟨s.here, .expected token s.next?⟩] s := by
  change (expect token).bind q s = _
  rw [EStateM.bind, expect_run, if_neg h]

theorem accept_bind_of_not_next {token : Token} {q : Bool → Parser α} {s : Input}
    (h : s.next? ≠ some token) : (accept token >>= q) s = q false s := by
  change (if s.next? = some token then _ else _ : Parser Bool).bind q s = _
  rw [if_neg h]
  rfl

/-! ## Languages of parsers -/

/-- A phrase of `P`, and behind it a phrase of the language that its meaning calls for. -/
inductive Then (P : Phrases α) (Q : α → Phrases β) : Phrases β
  | mk {ts us : Tokens} {a : α} {b : β} : P ts a → Q a us b → Then P Q (ts ++ us) b

/-- No tokens, which mean `a`. -/
inductive Empty (a : α) : Phrases α
  | mk : Empty a [] a

/-- One token, which means its place. -/
inductive IsToken (token : Token) : Phrases Span
  | mk {s : Span} : IsToken token [⟨s, token⟩] s

inductive IsSymbol : Phrases (Located String)
  | mk {s : Span} {name : String} : IsSymbol [⟨s, .symbol name⟩] ⟨s, name⟩

theorem then_token {token : Token} {Q : Span → Phrases β} {s : Span} {ts : Tokens} {b : β}
    (h : Q s ts b) : Then (IsToken token) Q (⟨s, token⟩ :: ts) b :=
  Then.mk IsToken.mk h

theorem then_symbol {Q : Located String → Phrases β} {s : Span} {name : String} {ts : Tokens}
    {b : β} (h : Q ⟨s, name⟩ ts b) : Then IsSymbol Q (⟨s, .symbol name⟩ :: ts) b :=
  Then.mk IsSymbol.mk h

/-- A phrase in parentheses. -/
inductive Parens (P : Phrases α) : Phrases α
  | mk {o c : Span} {ts : Tokens} {a : α} : P ts a → Parens P (parens o c ts) a

/-- From the input `s` and up to an input that may follow, `p` reads the phrases of `P`, whose
meaning may depend on the place of what comes next. -/
def AcceptsAt (follow : Input → Prop) (s : Input) (p : Parser α) (P : Span → Phrases α) : Prop :=
  ∀ a s', follow s' → (p s = .ok a s' ↔ ∃ ts, s.Reads ts s' ∧ P s'.here ts a)

/-- On inputs of at most `n` tokens, and up to an input that may follow, `p` reads the phrases of
`P`. -/
def AcceptsUpTo (follow : Input → Prop) (n : Nat) (p : Parser α) (P : Span → Phrases α) : Prop :=
  ∀ s, s.rest.length ≤ n → AcceptsAt follow s p P

/-- On inputs of at most `n` tokens, `p` reads the phrases of `P`. -/
abbrev Accepts (n : Nat) (p : Parser α) (P : Phrases α) : Prop :=
  AcceptsUpTo (fun _ => True) n p fun _ => P

/-- On inputs of at most `n` tokens, and up to a closing parenthesis, `p` reads the phrases of
`P`. -/
abbrev AcceptsInside (n : Nat) (p : Parser α) (P : Span → Phrases α) : Prop :=
  AcceptsUpTo Input.Closes n p P

variable {n m : Nat} {follow : Input → Prop} {s : Input}

/-! ## Rules -/

theorem AcceptsAt.congr {p : Parser α} {P P' : Span → Phrases α} (h : AcceptsAt follow s p P)
    (hP : ∀ c ts a, P' c ts a ↔ P c ts a) : AcceptsAt follow s p P' := by
  intro a s' hfollow
  simp only [h a s' hfollow, hP]

theorem AcceptsUpTo.congr {p : Parser α} {P P' : Span → Phrases α}
    (h : AcceptsUpTo follow n p P) (hP : ∀ c ts a, P' c ts a ↔ P c ts a) :
    AcceptsUpTo follow n p P' := fun s hs =>
  (h s hs).congr hP

theorem Accepts.mono {p : Parser α} {P : Phrases α} (h : Accepts n p P) (hm : m ≤ n) :
    Accepts m p P := fun s hs =>
  h s (Nat.le_trans hs hm)

theorem Accepts.inside {p : Parser α} {P : Phrases α} (h : Accepts n p P) :
    AcceptsInside n p fun _ => P := fun s hs a s' _ =>
  h s hs a s' trivial

theorem Accepts.iff {p : Parser α} {P : Phrases α} (h : Accepts n p P) (hs : s.rest.length ≤ n)
    {a : α} {s' : Input} : p s = .ok a s' ↔ ∃ ts, s.Reads ts s' ∧ P ts a :=
  h s hs a s' trivial

theorem AcceptsUpTo.bind {p : Parser α} {P : Phrases α} {q : α → Parser β}
    {Q : α → Span → Phrases β} (hp : Accepts n p P)
    (hq : ∀ a, AcceptsUpTo follow n (q a) (Q a)) :
    AcceptsUpTo follow n (p >>= q) fun c => Then P fun a => Q a c := by
  intro s hs b s' hfollow
  rw [bind_eq_ok_iff]
  constructor
  · rintro ⟨a, s₁, ha, hb⟩
    obtain ⟨ts, hts, hP⟩ := (hp.iff hs).1 ha
    obtain ⟨us, hus, hQ⟩ := (hq a s₁ (Nat.le_trans hts.length_le hs) b s' hfollow).1 hb
    exact ⟨ts ++ us, Input.reads_append_iff.2 ⟨s₁, hts, hus⟩, .mk hP hQ⟩
  · rintro ⟨_, hreads, hP, hQ⟩
    obtain ⟨s₁, hts, hus⟩ := Input.reads_append_iff.1 hreads
    exact ⟨_, s₁, (hp.iff hs).2 ⟨_, hts, hP⟩,
      (hq _ s₁ (Nat.le_trans hts.length_le hs) b s' hfollow).2 ⟨_, hus, hQ⟩⟩

theorem accepts_pure (a : α) : Accepts n (pure a) (Empty a) := by
  intro s _ b s' _
  constructor
  · intro h
    cases h
    exact ⟨[], Input.reads_nil_iff.2 rfl, .mk⟩
  · rintro ⟨_, hreads, ⟨⟩⟩
    rw [Input.reads_nil_iff.1 hreads]
    rfl

/-- What comes behind `p` reads nothing. -/
theorem AcceptsUpTo.finish {p : Parser α} {P : Span → Phrases α} {q : α → Parser β}
    {F : α → Span → β → Prop} (h : AcceptsUpTo follow n p P)
    (hq : ∀ a s b s', q a s = .ok b s' ↔ s' = s ∧ F a s.here b) :
    AcceptsUpTo follow n (p >>= q) fun c ts b => ∃ a, P c ts a ∧ F a c b := by
  intro s hs b s' hfollow
  rw [bind_eq_ok_iff]
  constructor
  · rintro ⟨a, s₁, ha, hb⟩
    obtain ⟨rfl, hF⟩ := (hq a s₁ b s').1 hb
    obtain ⟨ts, hts, hP⟩ := (h s hs a s' hfollow).1 ha
    exact ⟨ts, hts, a, hP, hF⟩
  · rintro ⟨ts, hreads, a, hP, hF⟩
    exact ⟨a, s', (h s hs a s' hfollow).2 ⟨ts, hreads, hP⟩, (hq a s' b s').2 ⟨rfl, hF⟩⟩

theorem AcceptsUpTo.map {p : Parser α} {P : Span → Phrases α} (h : AcceptsUpTo follow n p P)
    (f : α → β) :
    AcceptsUpTo follow n (p >>= fun a => pure (f a)) fun c ts b => ∃ a, P c ts a ∧ b = f a :=
  h.finish fun a s b s' => by
    constructor
    · rintro ⟨⟩
      exact ⟨rfl, rfl⟩
    · rintro ⟨rfl, rfl⟩
      rfl

theorem AcceptsUpTo.here {p : Parser α} {P : Span → Phrases α} (h : AcceptsUpTo follow n p P)
    (f : α → Span → β) :
    AcceptsUpTo follow n (p >>= fun a => here >>= fun c => pure (f a c)) fun c ts b =>
      ∃ a, P c ts a ∧ b = f a c :=
  h.finish fun a s b s' => by
    constructor
    · rintro ⟨⟩
      exact ⟨rfl, rfl⟩
    · rintro ⟨rfl, rfl⟩
      rfl

theorem acceptsUpTo_fail {P : Span → Phrases α} {span : Span} {cause : ParseError.Cause}
    (hP : ∀ c ts a, ¬ P c ts a) : AcceptsUpTo follow n (fail span cause) P := by
  intro s _ a s' _
  constructor
  · rintro ⟨⟩
  · rintro ⟨ts, -, h⟩
    exact absurd h (hP _ _ _)

/-! ### The next token -/

section

variable {prev : Span} {t : Located Token} {rest : Tokens}

theorem acceptsAt_pure (a : α) : AcceptsAt follow s (pure a) fun _ => Empty a := by
  intro b s' _
  constructor
  · intro h
    cases h
    exact ⟨[], Input.reads_nil_iff.2 rfl, .mk⟩
  · rintro ⟨_, hreads, ⟨⟩⟩
    rw [Input.reads_nil_iff.1 hreads]
    rfl

/-- There is no next token, and the parser fails. -/
theorem acceptsAt_of_nil {p : Parser α} {P : Span → Phrases α} (hnil : ∀ c a, ¬ P c [] a)
    (hp : ∃ errors s', p ⟨prev, []⟩ = .error errors s') : AcceptsAt follow ⟨prev, []⟩ p P := by
  obtain ⟨errors, s₁, hp⟩ := hp
  intro a s' _
  rw [hp]
  constructor
  · intro h
    cases h
  · rintro ⟨ts, hreads, h⟩
    obtain ⟨rfl, -⟩ := List.append_eq_nil_iff.1 hreads.rest.symm
    exact absurd h (hnil _ _)

/-- No phrase begins with the next token, and the parser fails. -/
theorem acceptsAt_of_error {p : Parser α} {P : Span → Phrases α} (hnil : ∀ c a, ¬ P c [] a)
    (hp : ∃ errors s', p ⟨prev, t :: rest⟩ = .error errors s')
    (hP : ∀ c ts a, ¬ P c (t :: ts) a) : AcceptsAt follow ⟨prev, t :: rest⟩ p P := by
  obtain ⟨errors, s₁, hp⟩ := hp
  intro a s' _
  rw [hp]
  constructor
  · intro h
    cases h
  · rintro ⟨_ | ⟨u, ts⟩, hreads, h⟩
    · exact absurd h (hnil _ _)
    · obtain ⟨rfl, -⟩ := Input.reads_cons_iff.1 hreads
      exact absurd h (hP _ _ _)

/-- The next token is read, and the rest of the phrase behind it. -/
theorem acceptsAt_of_next {p q : Parser α} {P Q : Span → Phrases α} (hnil : ∀ c a, ¬ P c [] a)
    (hp : p ⟨prev, t :: rest⟩ = q ⟨t.span, rest⟩) (hq : AcceptsAt follow ⟨t.span, rest⟩ q Q)
    (hP : ∀ c ts a, P c (t :: ts) a ↔ Q c ts a) : AcceptsAt follow ⟨prev, t :: rest⟩ p P := by
  intro a s' hfollow
  rw [hp, hq a s' hfollow]
  constructor
  · rintro ⟨ts, hreads, hQ⟩
    exact ⟨t :: ts, Input.reads_cons_iff.2 ⟨rfl, hreads⟩, (hP _ _ _).2 hQ⟩
  · rintro ⟨_ | ⟨u, ts⟩, hreads, h⟩
    · exact absurd h (hnil _ _)
    · obtain ⟨rfl, hreads⟩ := Input.reads_cons_iff.1 hreads
      exact ⟨ts, hreads, (hP _ _ _).1 h⟩

/-- How the parser goes on depends on the next token. -/
theorem acceptsAt_of_eq {p q : Parser α} {P Q : Span → Phrases α} (hp : p s = q s)
    (hq : AcceptsAt follow s q Q) (hP : ∀ c ts a, ts <+: s.rest → (P c ts a ↔ Q c ts a)) :
    AcceptsAt follow s p P := by
  intro a s' hfollow
  rw [hp, hq a s' hfollow]
  constructor
  · rintro ⟨ts, hreads, hQ⟩
    exact ⟨ts, hreads, (hP _ _ _ ⟨s'.rest, hreads.rest.symm⟩).2 hQ⟩
  · rintro ⟨ts, hreads, h⟩
    exact ⟨ts, hreads, (hP _ _ _ ⟨s'.rest, hreads.rest.symm⟩).1 h⟩

end

/-- `p` goes on as `q` if the next token is as said, and as `r` otherwise. -/
structure Chooses (first : Token → Prop) (p q r : Parser α) : Prop where
  of_first : ∀ s t, s.next? = some t → first t → p s = q s
  otherwise : ∀ s, (∀ t, s.next? = some t → ¬ first t) → p s = r s

theorem chooses_of_eq {token : Token} {p q r : Parser α}
    (hq : ∀ prev span rest, p ⟨prev, ⟨span, token⟩ :: rest⟩ = q ⟨prev, ⟨span, token⟩ :: rest⟩)
    (hr : ∀ s, s.next? ≠ some token → p s = r s) : Chooses (· = token) p q r where
  of_first := by
    rintro ⟨prev, rest⟩ _ hs rfl
    obtain ⟨span, rest, ⟨⟩⟩ := Input.next?_eq_some_iff.1 hs
    exact hq prev span rest
  otherwise := fun s hs => hr s fun h => hs _ h rfl

theorem AcceptsUpTo.choice {p q r : Parser α} {Q R : Span → Phrases α} {first : Token → Prop}
    (h : Chooses first p q r) (hq : AcceptsUpTo follow n q Q) (hr : AcceptsUpTo follow n r R)
    (hQ : ∀ c, Begins first (Q c)) (hR : ∀ c, Begins (¬ first ·) (R c)) :
    AcceptsUpTo follow n p fun c ts a => Q c ts a ∨ R c ts a := by
  have hnext {P : Phrases α} {first' : Token → Prop} (hP : Begins first' P) {s : Input}
      {ts : Tokens} {a : α} (hts : ts <+: s.rest) (h : P ts a) :
      ∃ t, s.next? = some t ∧ first' t := by
    obtain ⟨t, us, rfl, ht⟩ := hP ts a h
    exact ⟨t.val, Input.next?_of_prefix hts, ht⟩
  intro s hs
  by_cases hfirst : ∃ t, s.next? = some t ∧ first t
  · obtain ⟨t, ht, hfirst⟩ := hfirst
    refine acceptsAt_of_eq (h.of_first s t ht hfirst) (hq s hs) fun c ts a hts => ⟨?_, .inl⟩
    rintro (h | h)
    · exact h
    · obtain ⟨t', ht', hnot⟩ := hnext (hR c) hts h
      exact absurd (Option.some.inj (ht.symm.trans ht') ▸ hfirst) hnot
  · refine acceptsAt_of_eq (h.otherwise s fun t ht h => hfirst ⟨t, ht, h⟩) (hr s hs)
      fun c ts a hts => ⟨?_, .inr⟩
    rintro (h | h)
    · exact absurd (hnext (hQ c) hts h) hfirst
    · exact h

theorem accepts_symbol : Accepts n symbol IsSymbol := by
  have hnil : ∀ (_ : Span) a, ¬ IsSymbol [] a := by rintro _ _ ⟨⟩
  rintro ⟨prev, _ | ⟨⟨span, token⟩, rest⟩⟩ _
  · exact acceptsAt_of_nil hnil ⟨_, _, rfl⟩
  · cases token with
    | symbol name =>
      refine acceptsAt_of_next hnil rfl (acceptsAt_pure (Located.mk span name)) fun _ _ _ => ?_
      constructor <;> rintro ⟨⟩ <;> exact .mk
    | _ => exact acceptsAt_of_error hnil ⟨_, _, rfl⟩ nofun

theorem accepts_typeVar : Accepts n typeVar Grammar.IsTypeVar := by
  have hnil : ∀ (_ : Span) a, ¬ Grammar.IsTypeVar [] a := by rintro _ _ ⟨⟩
  rintro ⟨prev, _ | ⟨⟨span, token⟩, rest⟩⟩ _
  · exact acceptsAt_of_nil hnil ⟨_, _, rfl⟩
  · cases token with
    | typeVar name =>
      refine acceptsAt_of_next hnil rfl (acceptsAt_pure name) fun _ _ _ => ?_
      constructor <;> rintro ⟨⟩ <;> exact .mk
    | _ => exact acceptsAt_of_error hnil ⟨_, _, rfl⟩ nofun

theorem accepts_expect (token : Token) : Accepts n (expect token) (IsToken token) := by
  have hnil : ∀ (_ : Span) a, ¬ IsToken token [] a := by rintro _ _ ⟨⟩
  rintro ⟨prev, _ | ⟨⟨span, found⟩, rest⟩⟩ _
  · exact acceptsAt_of_nil hnil ⟨_, _, expect_run ..⟩
  · by_cases h : found = token
    · subst h
      refine acceptsAt_of_next hnil ((expect_run ..).trans (if_pos rfl)) (acceptsAt_pure span)
        fun _ _ _ => ?_
      constructor <;> rintro ⟨⟩ <;> exact .mk
    · refine acceptsAt_of_error hnil
        ⟨_, _, (expect_run ..).trans (if_neg fun hfound => h (Option.some.inj hfound))⟩ ?_
      rintro _ _ _ ⟨⟩
      exact h rfl

/-! ### Up to a closing parenthesis -/

theorem untilCloseWithin_of_atClose {p : Parser α} (h : s.rest = [] ∨ s.Closes) :
    untilCloseWithin p m s = .ok [] s := by
  obtain ⟨prev, rest⟩ := s
  cases m with
  | zero => rfl
  | succ m =>
    rcases h with rfl | h
    · rfl
    · obtain ⟨c, rest, rfl⟩ := Input.next?_eq_some_iff.1 h
      rfl

theorem untilCloseWithin_succ {p : Parser α} (hrest : s.rest ≠ []) (hclose : ¬ s.Closes) :
    untilCloseWithin p (m + 1) s =
      (p >>= fun first => untilCloseWithin p m >>= fun others => pure (first :: others)) s := by
  obtain ⟨prev, _ | ⟨⟨span, token⟩, rest⟩⟩ := s
  · exact absurd rfl hrest
  · cases token with
    | closeParen => exact absurd rfl hclose
    | _ => rfl

theorem eachEnd_iff {P : Phrases α} (hP : Proper P) (hs : s.rest = [] ∨ s.Closes) {as : List α}
    {s' : Input} :
    (.ok [] s : EStateM.Result (List ParseError) Input (List α)) = .ok as s' ↔
      ∃ ts, s.Reads ts s' ∧ Each P ts as := by
  constructor
  · rintro ⟨⟩
    exact ⟨[], Input.reads_nil_iff.2 rfl, .nil⟩
  · rintro ⟨_, hreads, heach⟩
    cases heach with
    | nil => rw [Input.reads_nil_iff.1 hreads]
    | cons hfirst _ =>
      obtain ⟨t, us, rfl, ht⟩ := hP _ _ hfirst
      rcases hs with hnil | hclose
      · cases hnil.symm.trans hreads.rest
      · obtain ⟨c, rest, hrest⟩ := Input.next?_eq_some_iff.1 hclose
        cases hrest.symm.trans hreads.rest
        exact absurd rfl ht

theorem acceptsAt_untilCloseWithin {p : Parser α} {P : Phrases α} (hp : Accepts n p P)
    (hP : Proper P) (hs : s.rest.length ≤ n) (hm : s.rest.length ≤ m) :
    AcceptsAt Input.Closes s (untilCloseWithin p m) fun _ => Each P := by
  intro as s' hclose
  induction m generalizing s as with
  | zero =>
    have hrest : s.rest = [] := List.length_eq_zero_iff.1 (Nat.le_zero.1 hm)
    rw [untilCloseWithin_of_atClose (.inl hrest)]
    exact eachEnd_iff hP (.inl hrest)
  | succ m ih =>
    by_cases hend : s.rest = [] ∨ s.Closes
    · rw [untilCloseWithin_of_atClose hend]
      exact eachEnd_iff hP hend
    · obtain ⟨hrest, hopen⟩ := not_or.1 hend
      rw [untilCloseWithin_succ hrest hopen, bind_eq_ok_iff]
      have hlater {ts : Tokens} {a : α} {s₁ : Input} (h : P ts a) (hts : s.Reads ts s₁) :
          s₁.rest.length ≤ n ∧ s₁.rest.length ≤ m := by
        obtain ⟨t, us, rfl, -⟩ := hP ts a h
        have hlength := hts.length
        rw [List.length_cons] at hlength
        omega
      constructor
      · rintro ⟨a, s₁, ha, h⟩
        obtain ⟨others, s₂, hothers, ⟨⟩⟩ := bind_eq_ok_iff.1 h
        obtain ⟨ts, hts, hfirst⟩ := (hp.iff hs).1 ha
        obtain ⟨hn, hm⟩ := hlater hfirst hts
        obtain ⟨us, hus, hrest⟩ := (ih hn hm others).1 hothers
        exact ⟨ts ++ us, Input.reads_append_iff.2 ⟨s₁, hts, hus⟩, .cons hfirst hrest⟩
      · rintro ⟨_, hreads, heach⟩
        cases heach with
        | nil =>
          rw [Input.reads_nil_iff] at hreads
          exact absurd (hreads ▸ hclose) hopen
        | cons hfirst hrest =>
          obtain ⟨s₁, hts, hus⟩ := Input.reads_append_iff.1 hreads
          obtain ⟨hn, hm⟩ := hlater hfirst hts
          exact ⟨_, s₁, (hp.iff hs).2 ⟨_, hts, hfirst⟩,
            bind_eq_ok_iff.2 ⟨_, s', (ih hn hm _).2 ⟨_, hus, hrest⟩, rfl⟩⟩

theorem Accepts.untilClose {p : Parser α} {P : Phrases α} (h : Accepts n p P) (hP : Proper P) :
    AcceptsInside n (untilClose p) fun _ => Each P := fun _ hs =>
  acceptsAt_untilCloseWithin h hP hs (Nat.le_refl _)

/-- A phrase and the parenthesis behind it; the meaning may depend on the place of the latter. -/
inductive Closed (f : α → Span → β) (P : Span → Phrases α) : Phrases β
  | mk {c : Span} {ts : Tokens} {a : α} : P c ts a → Closed f P (ts ++ [⟨c, .closeParen⟩]) (f a c)

theorem not_closed_nil {f : α → Span → β} {P : Span → Phrases α} {b : β} : ¬ Closed f P [] b := by
  generalize h : ([] : Tokens) = ts
  rintro ⟨-⟩
  exact List.append_ne_nil_of_right_ne_nil _ (List.cons_ne_nil _ _) h.symm

theorem closed_cons_iff {f : α → Span → β} {P : Span → Phrases α} {t : Located Token} {ts : Tokens}
    {b : β} (ht : t.val ≠ .closeParen) :
    Closed f P (t :: ts) b ↔ Closed f (fun c us => P c (t :: us)) ts b := by
  constructor
  · generalize hws : t :: ts = ws
    rintro @⟨c, us, a, h⟩
    cases us with
    | nil =>
      cases hws
      exact absurd rfl ht
    | cons u us =>
      cases hws
      exact .mk h
  · rintro @⟨c, us, a, h⟩
    exact @Closed.mk _ _ f P c (t :: us) a h

theorem closed_map_iff {f : α → β} {P : Span → Phrases β} {Q : Span → Phrases α} {ts : Tokens}
    {b : β} (hPQ : ∀ c ts b, P c ts b ↔ ∃ a, Q c ts a ∧ b = f a) :
    Closed (fun b _ => b) P ts b ↔ Closed (fun a _ => f a) Q ts b := by
  constructor
  · rintro ⟨h⟩
    obtain ⟨a, ha, rfl⟩ := (hPQ _ _ _).1 h
    exact Closed.mk ha
  · rintro ⟨h⟩
    exact Closed.mk ((hPQ _ _ _).2 ⟨_, h, rfl⟩)

theorem closed_congr {f : α → Span → β} {P Q : Span → Phrases α} {ts : Tokens} {b : β}
    (hPQ : ∀ c ts a, P c ts a ↔ Q c ts a) : Closed f P ts b ↔ Closed f Q ts b := by
  constructor
  · rintro ⟨h⟩
    exact .mk ((hPQ _ _ _).1 h)
  · rintro ⟨h⟩
    exact .mk ((hPQ _ _ _).2 h)

theorem AcceptsInside.close {p : Parser α} {P : Span → Phrases α} (h : AcceptsInside n p P)
    (f : α → Span → β) :
    Accepts n (p >>= fun a => expect .closeParen >>= fun c => pure (f a c)) (Closed f P) := by
  have hat {s₁ s₂ : Input} {c : Span} (hc : s₁.Reads [⟨c, .closeParen⟩] s₂) :
      s₁.Closes ∧ s₁.here = c := by
    refine ⟨Input.next?_eq_some_iff.2 ⟨_, _, hc.rest⟩, ?_⟩
    rw [Input.here, hc.rest]
    rfl
  intro s hs b s' _
  rw [bind_eq_ok_iff]
  constructor
  · rintro ⟨a, s₁, ha, hb⟩
    obtain ⟨c, s₂, hc, ⟨⟩⟩ := bind_eq_ok_iff.1 hb
    obtain ⟨ts, hts, ⟨⟩⟩ := ((accepts_expect _).iff (Nat.le_refl _)).1 hc
    obtain ⟨hclose, rfl⟩ := hat hts
    obtain ⟨us, hus, hP⟩ := (h s hs a s₁ hclose).1 ha
    exact ⟨_, Input.reads_append_iff.2 ⟨s₁, hus, hts⟩, .mk hP⟩
  · rintro ⟨_, hreads, ⟨hP⟩⟩
    obtain ⟨s₁, hus, hts⟩ := Input.reads_append_iff.1 hreads
    obtain ⟨hclose, rfl⟩ := hat hts
    exact ⟨_, s₁, (h s hs _ s₁ hclose).2 ⟨_, hus, hP⟩, bind_eq_ok_iff.2
      ⟨_, s', ((accepts_expect _).iff (Nat.le_refl _)).2 ⟨_, hts, .mk⟩, rfl⟩⟩

theorem closing_eq_ok_iff {p : Parser α} {r : α × Span} {s' : Input} :
    closing p s = .ok r s' ↔
      (p >>= fun a => expect .closeParen >>= fun c => pure (a, c)) s = .ok r s' := by
  rw [bind_eq_ok_iff, closing]
  cases p s with
  | ok a s₁ =>
    constructor
    · exact fun h => ⟨a, s₁, rfl, h⟩
    · rintro ⟨_, _, ⟨⟩, h⟩
      exact h
  | error errors s₁ =>
    constructor
    · intro h
      dsimp only at h
      split at h <;> cases h
    · rintro ⟨_, _, ⟨⟩, _⟩

theorem AcceptsInside.closing {p : Parser α} {P : Span → Phrases α} (h : AcceptsInside n p P)
    (f : α → Span → β) :
    Accepts n (closing p >>= fun r => pure (f r.1 r.2)) (Closed f P) := by
  intro s hs b s' hfollow
  rw [← h.close f s hs b s' hfollow]
  simp only [bind_eq_ok_iff, closing_eq_ok_iff]
  constructor
  · rintro ⟨_, s₂, ⟨a, s₁, ha, c, s₂, hc, ⟨⟩⟩, ⟨⟩⟩
    exact ⟨a, s₁, ha, c, s', hc, rfl⟩
  · rintro ⟨a, s₁, ha, c, s₂, hc, ⟨⟩⟩
    exact ⟨(a, c), s', ⟨a, s₁, ha, c, s', hc, rfl⟩, rfl⟩

theorem begins_parens {P : Phrases α} : Begins (· = .openParen) (Parens P) := by
  rintro _ _ ⟨⟩
  exact ⟨_, _, rfl, rfl⟩

theorem AcceptsInside.enclosed {p : Parser α} {P : Phrases α}
    (h : AcceptsInside n p fun _ => P) :
    Accepts n (enclosed p) (Parens P) := by
  refine ((accepts_expect .openParen).bind fun _ => h.close fun a _ => a).congr fun _ ts a => ?_
  constructor
  · rintro ⟨hP⟩
    exact then_token (.mk hP)
  · rintro ⟨⟨⟩, ⟨hP⟩⟩
    exact .mk hP

/-! ### Places -/

/-- The same phrases, with a meaning that may depend on where they end. -/
inductive Placed (f : α → Span → β) (P : Phrases α) : Phrases β
  | mk {ts : Tokens} {a : α} : P ts a → Placed f P ts (f a (stop ts))

theorem AcceptsUpTo.previous {p : Parser α} {P : Phrases α}
    (h : AcceptsUpTo follow n p fun _ => P) (hP : Proper P) (f : α → Span → β) :
    AcceptsUpTo follow n (p >>= fun a => previous >>= fun stop => pure (f a stop)) fun _ =>
      Placed f P := by
  have hprev {ts : Tokens} {a : α} {s s' : Input} (hPa : P ts a) (hts : s.Reads ts s') :
      s'.prev = stop ts := by
    obtain ⟨t, us, rfl, -⟩ := hP ts a hPa
    exact hts.prev
  intro s hs b s' hfollow
  rw [bind_eq_ok_iff]
  constructor
  · rintro ⟨a, s₁, ha, ⟨⟩⟩
    obtain ⟨ts, hts, hPa⟩ := (h s hs a s' hfollow).1 ha
    rw [hprev hPa hts]
    exact ⟨ts, hts, .mk hPa⟩
  · rintro ⟨_, hreads, ⟨hPa⟩⟩
    rw [← hprev hPa hreads]
    exact ⟨_, s', (h s hs _ s' hfollow).2 ⟨_, hreads, hPa⟩, rfl⟩

end Parser

end PolyLambda.Surface
