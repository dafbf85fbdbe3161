import PolyLambda.Proofs.Surface.Accepts

/-!
# Parsers that stay inside the open parentheses

Where parentheses are open, a parser neither reads nor looks beyond the one that closes the last of
them, whether it succeeds or fails. `Parser.Local` says so by comparing two runs, one on a piece of
text in which all open parentheses are closed and one on the same piece with more behind it.

The open parentheses are counted. Behind a success there are as many as before, but for the one that
the parser itself has to close. Behind a failure only a lower bound is known, because a parser that
gives up leaves open what it has opened. A lower bound is enough to go on with (`Fits.of_le`): fewer
open parentheses are closed where more are.

A piece of text may also end with parentheses open, if nothing comes behind it. Both runs are on the
same input then, with different bounds on their depth, and a parser that fails without an error is
at the end of it.
-/

namespace PolyLambda.Surface

open Grammar

/-! ## Nesting -/

namespace Grammar

/-- How many parentheses are open behind `token`, if `k` are open before it. One that closes nothing
does not count. -/
def after (k : Nat) : Token → Nat
  | .openParen => k + 1
  | .closeParen => k - 1
  | _ => k

/-- How many parentheses are open behind `ts`, if `k` are open before. -/
def openAfter (k : Nat) (ts : Tokens) : Nat :=
  ts.foldl (fun k t => after k t.val) k

theorem after_mono {k l : Nat} (h : k ≤ l) (token : Token) : after k token ≤ after l token := by
  cases token <;> simp only [after] <;> omega

theorem le_after (k : Nat) (token : Token) : k ≤ after (k + 1) token := by
  cases token <;> simp only [after] <;> omega

theorem openAfter_mono {k l : Nat} (h : k ≤ l) (ts : Tokens) : openAfter k ts ≤ openAfter l ts := by
  induction ts generalizing k l with
  | nil => exact h
  | cons t ts ih => exact ih (after_mono h t.val)

theorem openAfter_append (k : Nat) (ts us : Tokens) :
    openAfter k (ts ++ us) = openAfter (openAfter k ts) us :=
  List.foldl_append

/-- The `k` parentheses open before `ts` and the ones that it opens are all closed in it, or nothing
comes behind it. -/
def Fits (b : Tokens) (k : Nat) (ts : Tokens) : Prop := b = [] ∨ openAfter k ts = 0

variable {b ts : Tokens} {k l : Nat} {t : Located Token}

theorem Fits.of_le {us : Tokens} (h : Fits b k ts) (hle : openAfter l us ≤ openAfter k ts) :
    Fits b l us := by
  rcases h with h | h
  · exact .inl h
  · exact .inr (Nat.le_zero.1 (h ▸ hle))

theorem fits_cons_iff : Fits b k (t :: ts) ↔ Fits b (after k t.val) ts := Iff.rfl

theorem Fits.eq_nil (h : Fits b (k + 1) []) : b = [] :=
  h.resolve_right (Nat.succ_ne_zero k)

end Grammar

/-- The same input with `b` behind it. -/
def Input.append (s : Input) (b : Tokens) : Input := ⟨s.prev, s.rest ++ b⟩

variable {α β : Type}

namespace Parser

/-- Two runs came to the same, the second with `b` behind what the first has left, which is at most
`m` tokens. With `l` parentheses open behind a success it leaves `j` of them open, and with `f` open
behind a failure no more. -/
inductive Agree (b : Tokens) (l : α → Nat) (f m j : Nat) :
    EStateM.Result (List ParseError) Input α → EStateM.Result (List ParseError) Input α → Prop
  | ok {a : α} {s : Input} : openAfter (l a) s.rest = j → s.rest.length ≤ m →
      Agree b l f m j (.ok a s) (.ok a (s.append b))
  | error {errors : List ParseError} {s : Input} : openAfter f s.rest ≤ j → s.rest.length ≤ m →
      (errors = [] → s.rest = []) → Agree b l f m j (.error errors s) (.error errors (s.append b))

/-- On inputs of at most `n` tokens that close the `k` open parentheses, `p` does what `q` does with
`b` behind the input. -/
def Local (b : Tokens) (n k : Nat) (l : α → Nat) (f : Nat) (p q : Parser α) : Prop :=
  ∀ s, s.rest.length ≤ n → Fits b k s.rest →
    Agree b l f s.rest.length (openAfter k s.rest) (p s) (q (s.append b))

variable {b : Tokens} {n k f m j : Nat} {l : α → Nat} {l' : β → Nat}

theorem Agree.mono {x y : EStateM.Result (List ParseError) Input α} (h : Agree b l f m j x y)
    {m' : Nat} (hm : m ≤ m') : Agree b l f m' j x y := by
  cases h with
  | ok hopen hlength => exact .ok hopen (Nat.le_trans hlength hm)
  | error hopen hlength hsilent => exact .error hopen (Nat.le_trans hlength hm) hsilent

/-- The second parser is compared only where the first has stopped, which allows a smaller bound on
the tokens. -/
theorem Local.bindOn {p p' : Parser α} {q q' : α → Parser β} (hp : Local b n k l f p p')
    (hq : ∀ s a s', s.rest.length ≤ n → s'.rest.length ≤ s.rest.length → p s = .ok a s' →
      ∃ m, s'.rest.length ≤ m ∧ Local b m (l a) l' f (q a) (q' a)) :
    Local b n k l' f (p >>= q) (p' >>= q') := by
  intro s hs hfits
  change Agree b l' f _ _ (EStateM.bind p q s) (EStateM.bind p' q' (s.append b))
  rw [EStateM.bind, EStateM.bind]
  generalize hx : p s = x, hy : p' (s.append b) = y
  have hxy : Agree b l f s.rest.length (openAfter k s.rest) x y := hx ▸ hy ▸ hp s hs hfits
  cases hxy with
  | @ok a s' hopen hlength =>
    obtain ⟨m, hm, hlocal⟩ := hq s _ _ hs hlength hx
    rw [← hopen]
    exact (hlocal s' hm (hfits.of_le (Nat.le_of_eq hopen))).mono hlength
  | error hopen hlength hsilent => exact .error hopen hlength hsilent

theorem Local.bind {p p' : Parser α} {q q' : α → Parser β} (hp : Local b n k l f p p')
    (hq : ∀ a, Local b n (l a) l' f (q a) (q' a)) : Local b n k l' f (p >>= q) (p' >>= q') :=
  hp.bindOn fun _ a _ hs hlength _ => ⟨n, Nat.le_trans hlength hs, hq a⟩

theorem local_pure (a : α) : Local b n k (fun _ => k) f (pure a) (pure a) := fun _ _ _ =>
  .ok rfl (Nat.le_refl _)

/-! ## The next token -/

/-- With a parenthesis open nothing is seen of what comes behind the input. -/
theorem next?_append {s : Input} (h : Fits b (k + 1) s.rest) :
    (s.append b).next? = s.next? ∧ (s.append b).here = s.here := by
  obtain ⟨prev, _ | ⟨t, rest⟩⟩ := s
  · cases h.eq_nil
    exact ⟨rfl, rfl⟩
  · exact ⟨rfl, rfl⟩

theorem local_here : Local b n (k + 1) (fun _ => k + 1) f here here := by
  intro s _ hfits
  have hrun : here (s.append b) = .ok s.here (s.append b) := by
    change EStateM.Result.ok (s.append b).here _ = _
    rw [(next?_append hfits).2]
  rw [hrun]
  exact .ok rfl (Nat.le_refl _)

theorem local_previous : Local b n k (fun _ => k) f previous previous := fun _ _ _ =>
  .ok rfl (Nat.le_refl _)

/-- The outcome may depend on the next token: there is none, and nothing comes behind the input, or
it is read. -/
theorem Local.of_head {p p' : Parser α}
    (hnil : b = [] → ∀ prev, Agree b l f 0 (k + 1) (p ⟨prev, []⟩) (p' ⟨prev, []⟩))
    (hcons : ∀ prev t rest, rest.length + 1 ≤ n → Fits b (after (k + 1) t.val) rest →
      Agree b l f (rest.length + 1) (openAfter (after (k + 1) t.val) rest) (p ⟨prev, t :: rest⟩)
      (p' ⟨prev, t :: (rest ++ b)⟩)) :
    Local b n (k + 1) l f p p' := by
  rintro ⟨prev, _ | ⟨t, rest⟩⟩ hs hfits
  · obtain rfl := hfits.eq_nil
    exact hnil rfl prev
  · exact hcons prev t rest hs (fits_cons_iff.1 hfits)

theorem local_fail (span : Span) (cause : ParseError.Cause) (hf : f ≤ k) :
    Local b n k l f (fail span cause) (fail span cause) := fun _ _ _ =>
  .error (openAfter_mono hf _) (Nat.le_refl _) nofun

/-- Only the next token and its place matter, and the token is read if the parser succeeds. -/
theorem local_of_next {p : Parser α} {r : Span → Option Token → Except ParseError.Cause α}
    (hp : ∀ s, p s =
      match r s.here s.next? with
      | .ok a => .ok a s.tail
      | .error cause => .error [⟨s.here, cause⟩] s)
    (hr : ∀ span next a, r span next = .ok a → ∃ token, next = some token ∧
      l a = after (k + 1) token)
    (hf : f ≤ k + 1) : Local b n (k + 1) l f p p := by
  intro s _ hfits
  obtain ⟨hnext, hhere⟩ := next?_append hfits
  rw [hp, hp, hnext, hhere]
  split
  next a ha =>
    obtain ⟨token, htoken, hl⟩ := hr _ _ _ ha
    obtain ⟨prev, rest⟩ := s
    obtain ⟨span, rest, ⟨⟩⟩ := Input.next?_eq_some_iff.1 htoken
    exact .ok (congrArg (openAfter · rest) hl) (Nat.le_succ _)
  next => exact .error (openAfter_mono hf _) (Nat.le_refl _) nofun

theorem local_expect (token : Token) (hf : f ≤ k + 1) :
    Local b n (k + 1) (fun _ => after (k + 1) token) f (expect token) (expect token) := by
  refine local_of_next (r := fun span next =>
    if next = some token then .ok span else .error (.expected token next)) ?_ ?_ hf
  · intro s
    rw [expect_run]
    split <;> rfl
  · intro span next a h
    split at h
    next hnext => exact ⟨token, hnext, rfl⟩
    next => cases h

/-- What `symbol` makes of the next token. -/
def symbolOf (span : Span) : Option Token → Except ParseError.Cause (Located String)
  | some (.symbol name) => .ok ⟨span, name⟩
  | found => .error (.expectedSymbol found)

theorem local_symbol (hf : f ≤ k + 1) : Local b n (k + 1) (fun _ => k + 1) f symbol symbol := by
  refine local_of_next (r := symbolOf) ?_ ?_ hf
  · rintro ⟨prev, _ | ⟨⟨span, token⟩, rest⟩⟩
    · rfl
    · cases token <;> rfl
  · intro span next a h
    rw [symbolOf.eq_def] at h
    split at h
    next => exact ⟨_, rfl, rfl⟩
    next => cases h

/-- What `typeVar` makes of the next token. -/
def typeVarOf : Option Token → Except ParseError.Cause String
  | some (.typeVar name) => .ok name
  | found => .error (.expectedTypeVar found)

theorem local_typeVar (hf : f ≤ k + 1) : Local b n (k + 1) (fun _ => k + 1) f typeVar typeVar := by
  refine local_of_next (r := fun _ => typeVarOf) ?_ ?_ hf
  · rintro ⟨prev, _ | ⟨⟨span, token⟩, rest⟩⟩
    · rfl
    · cases token <;> rfl
  · intro span next a h
    rw [typeVarOf.eq_def] at h
    split at h
    next => exact ⟨_, rfl, rfl⟩
    next => cases h

theorem local_string? : Local b n (k + 1) (fun _ => k + 1) f string? string? := by
  refine Local.of_head ?_ ?_
  · rintro rfl prev
    exact Agree.ok (s := ⟨prev, []⟩) rfl (Nat.le_refl _)
  · rintro prev ⟨span, token⟩ rest _ _
    cases token with
    | string text => exact Agree.ok (s := ⟨span, rest⟩) rfl (Nat.le_succ _)
    | _ => exact Agree.ok (s := ⟨prev, _ :: rest⟩) rfl (Nat.le_refl _)

/-- A keyword is read, and what follows it. -/
theorem Local.keyword {p p' q q' : Parser α} {s : Input} {keyword : String}
    (hkeyword : s.next? = some (.symbol keyword)) (hq : Local b n (k + 1) l f q q')
    (hp : ∀ prev span rest, p ⟨prev, ⟨span, .symbol keyword⟩ :: rest⟩ = q ⟨span, rest⟩)
    (hp' : ∀ prev span rest, p' ⟨prev, ⟨span, .symbol keyword⟩ :: rest⟩ = q' ⟨span, rest⟩)
    (hs : s.rest.length ≤ n) (hfits : Fits b (k + 1) s.rest) :
    Agree b l f s.rest.length (openAfter (k + 1) s.rest) (p s) (p' (s.append b)) := by
  obtain ⟨prev, rest⟩ := s
  obtain ⟨span, rest, ⟨⟩⟩ := Input.next?_eq_some_iff.1 hkeyword
  rw [hp, Input.append, List.cons_append, hp']
  exact (hq ⟨span, rest⟩ (Nat.le_of_succ_le hs) hfits).mono (Nat.le_succ _)

/-- At the end of the input, and with nothing behind it, both parsers fail without a word. -/
theorem agree_silent (prev : Span) (hf : f ≤ j) :
    Agree [] l f 0 j (.error [] ⟨prev, []⟩) (.error [] ⟨prev, []⟩) :=
  .error hf (Nat.le_refl _) fun _ => rfl

/-! ## Up to a closing parenthesis -/

/-- The parser leaves no parenthesis open that it has opened, and closes none that it has not, if it
succeeds; if it fails it closes none that it has not opened. -/
def Balanced (b : Tokens) (n : Nat) (p q : Parser α) : Prop :=
  ∀ k f, f ≤ k + 1 → Local b n (k + 1) (fun _ => k + 1) f p q

/-- What comes behind the input is no content of the enclosing parentheses. -/
theorem atClose_append {s : Input} (h : Fits b (k + 1) s.rest) :
    (s.append b).rest = [] ∨ (s.append b).Closes ↔ s.rest = [] ∨ s.Closes := by
  rw [Input.Closes, (next?_append h).1]
  refine or_congr_left ⟨fun hnil => (List.append_eq_nil_iff.1 hnil).1, fun hnil => ?_⟩
  rw [hnil] at h
  rw [Input.append, hnil, h.eq_nil]
  rfl

theorem agree_untilCloseWithin_of_atClose {p p' : Parser α} {s : Input} (c d : Nat)
    (hfits : Fits b (k + 1) s.rest) (hend : s.rest = [] ∨ s.Closes) :
    Agree b (fun _ => k + 1) f s.rest.length (openAfter (k + 1) s.rest) (untilCloseWithin p c s)
      (untilCloseWithin p' d (s.append b)) := by
  rw [untilCloseWithin_of_atClose hend, untilCloseWithin_of_atClose ((atClose_append hfits).2 hend)]
  exact .ok rfl (Nat.le_refl _)

theorem Balanced.untilCloseWithin {p p' : Parser α} {P : Phrases α} (h : Balanced b n p p')
    (haccepts : Accepts n p P) (hP : Proper P) (hf : f ≤ k + 1) {c d : Nat} (hm : m ≤ n)
    (hc : m ≤ c) (hd : m + b.length ≤ d) :
    Local b m (k + 1) (fun _ => k + 1) f (untilCloseWithin p c) (untilCloseWithin p' d) := by
  induction m generalizing c d with
  | zero =>
    intro s hs hfits
    exact agree_untilCloseWithin_of_atClose c d hfits
      (.inl (List.length_eq_zero_iff.1 (Nat.le_zero.1 hs)))
  | succ m ih =>
    intro s hs hfits
    by_cases hend : s.rest = [] ∨ s.Closes
    · exact agree_untilCloseWithin_of_atClose c d hfits hend
    · have hend' := mt (atClose_append hfits).1 hend
      obtain ⟨hrest, hopen⟩ := not_or.1 hend
      obtain ⟨hrest', hopen'⟩ := not_or.1 hend'
      obtain ⟨c, rfl⟩ : ∃ c', c = c' + 1 := ⟨c - 1, by omega⟩
      obtain ⟨d, rfl⟩ : ∃ d', d = d' + 1 := ⟨d - 1, by omega⟩
      -- A part that is read takes a token, so one attempt less is enough behind it.
      have hlocal : Local b (m + 1) (k + 1) (fun _ => k + 1) f
          (p >>= fun first => Parser.untilCloseWithin p c >>= fun others => pure (first :: others))
          (p' >>= fun first => Parser.untilCloseWithin p' d >>= fun others =>
            pure (first :: others)) := by
        refine Local.bindOn (fun s hs => h k f hf s (Nat.le_trans hs hm))
          fun s first s' hs _ hfirst => ⟨m, ?_, (ih (by omega) (by omega) (by omega)).bind
            fun others => local_pure (first :: others)⟩
        obtain ⟨ts, hreads, hts⟩ := (haccepts.iff (Nat.le_trans hs hm)).1 hfirst
        obtain ⟨t, us, rfl, -⟩ := hP _ _ hts
        have hlength := hreads.length
        rw [List.length_cons] at hlength
        omega
      rw [untilCloseWithin_succ hrest hopen, untilCloseWithin_succ hrest' hopen']
      exact hlocal s hs hfits

theorem Balanced.untilClose {p p' : Parser α} {P : Phrases α} (h : Balanced b n p p')
    (haccepts : Accepts n p P) (hP : Proper P) : Balanced b n (untilClose p) (untilClose p') :=
  fun _ _ hf s hs hfits =>
    h.untilCloseWithin haccepts hP hf hs (Nat.le_refl _) (Nat.le_of_eq List.length_append.symm) s
      (Nat.le_refl _) hfits

theorem Balanced.closing {p p' : Parser α} (h : Balanced b n p p') (hf : f ≤ k) :
    Local b n (k + 1) (fun _ => k) f (closing p) (closing p') := by
  intro s hs hfits
  have hbody := h k (k + 1) (Nat.le_refl _) s hs hfits
  rw [Parser.closing, Parser.closing]
  generalize p s = x, p' (s.append b) = y at hbody
  cases hbody with
  | @ok a s₁ hopen hlength =>
    have hlocal : Local b n (k + 1) (fun _ => k) f
        (expect .closeParen >>= fun c => pure (a, c))
        (expect .closeParen >>= fun c => pure (a, c)) :=
      (local_expect .closeParen (Nat.le_succ_of_le hf)).bind fun c => local_pure (a, c)
    rw [← hopen]
    exact (hlocal s₁ (Nat.le_trans hlength hs) (hfits.of_le (Nat.le_of_eq hopen))).mono hlength
  | @error errors s₁ hopen hlength hsilent =>
    have hclose := local_expect .closeParen (Nat.le_succ_of_le hf) s₁ (Nat.le_refl _)
      (hfits.of_le hopen)
    dsimp only
    generalize hx : expect .closeParen s₁ = x, hy : expect .closeParen (s₁.append b) = y at hclose
    cases hclose with
    | @ok c s₂ hopen' hlength' =>
      refine .error ?_ (Nat.le_trans hlength' hlength) fun hnil => ?_
      · exact Nat.le_trans (openAfter_mono hf s₂.rest) (hopen' ▸ hopen)
      -- A body that failed without an error is at the end, where there is no parenthesis to read.
      · obtain ⟨ts, hreads, ⟨⟩⟩ := ((accepts_expect _).iff (Nat.le_refl _)).1 hx
        cases (hsilent hnil).symm.trans hreads.rest
    | error hopen' hlength' hsilent' =>
      exact .error (Nat.le_trans hopen' hopen) (Nat.le_trans hlength' hlength) fun hnil =>
        hsilent' (List.append_eq_nil_iff.1 hnil).2

theorem Balanced.enclosed {p p' : Parser α} (h : Balanced b n p p') :
    Balanced b n (enclosed p) (enclosed p') := fun k _ hf =>
  (local_expect .openParen hf).bind fun _ =>
    (h (k + 1) _ (Nat.le_succ_of_le hf)).bind fun a =>
      (local_expect .closeParen (Nat.le_succ_of_le hf)).bind fun _ => local_pure a

theorem balanced_symbol : Balanced b n symbol symbol := fun _ _ hf => local_symbol hf

theorem balanced_typeVar : Balanced b n typeVar typeVar := fun _ _ hf => local_typeVar hf

theorem balanced_string? : Balanced b n string? string? := fun _ _ _ => local_string?

theorem Local.choice {p p' q q' r r' : Parser α} {first : Token → Prop} (h : Chooses first p q r)
    (h' : Chooses first p' q' r') (hq : Local b n (k + 1) l f q q')
    (hr : Local b n (k + 1) l f r r') : Local b n (k + 1) l f p p' := by
  intro s hs hfits
  have hnext := (next?_append hfits).1
  by_cases hfirst : ∃ t, s.next? = some t ∧ first t
  · obtain ⟨t, ht, hfirst⟩ := hfirst
    rw [h.of_first s t ht hfirst, h'.of_first _ t (hnext.trans ht) hfirst]
    exact hq s hs hfits
  · have hnot : ∀ t, s.next? = some t → ¬ first t := fun t ht htf => hfirst ⟨t, ht, htf⟩
    rw [h.otherwise s hnot, h'.otherwise _ (hnext ▸ hnot)]
    exact hr s hs hfits

theorem Balanced.choice {p p' q q' r r' : Parser α} {first : Token → Prop}
    (h : Chooses first p q r) (h' : Chooses first p' q' r') (hq : Balanced b n q q')
    (hr : Balanced b n r r') : Balanced b n p p' := fun k f hf =>
  Local.choice h h' (hq k f hf) (hr k f hf)

theorem Balanced.bind {p p' : Parser α} {q q' : α → Parser β} (hp : Balanced b n p p')
    (hq : ∀ a, Balanced b n (q a) (q' a)) : Balanced b n (p >>= q) (p' >>= q') := fun k f hf =>
  (hp k f hf).bind fun a => hq a k f hf

theorem balanced_pure (a : α) : Balanced b n (pure a) (pure a) := fun _ _ _ => local_pure a

theorem balanced_here : Balanced b n here here := fun _ _ _ => local_here

theorem balanced_previous : Balanced b n previous previous := fun _ _ _ => local_previous

theorem balanced_fail (span : Span) (cause : ParseError.Cause) :
    Balanced b n (fail span cause : Parser α) (fail span cause) := fun _ _ hf =>
  local_fail span cause hf

theorem Balanced.map {p p' : Parser α} (h : Balanced b n p p') (g : α → β) :
    Balanced b n (p >>= fun a => pure (g a)) (p' >>= fun a => pure (g a)) :=
  h.bind fun a => balanced_pure (g a)

/-- A part up to the parenthesis that closes what is open behind one more. -/
theorem Balanced.close {p p' : Parser α} (h : Balanced b n p p') (hf : f ≤ k + 1)
    (g : α → Span → β) :
    Local b n (k + 2) (fun _ => k + 1) f
      (p >>= fun a => expect .closeParen >>= fun c => pure (g a c))
      (p' >>= fun a => expect .closeParen >>= fun c => pure (g a c)) :=
  (h (k + 1) f (Nat.le_succ_of_le hf)).bind fun a =>
    (local_expect .closeParen (Nat.le_succ_of_le hf)).bind fun c => local_pure (g a c)

end Parser

end PolyLambda.Surface
