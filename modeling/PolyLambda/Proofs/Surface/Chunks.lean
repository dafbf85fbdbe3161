import PolyLambda.Proofs.Surface.Program

/-!
# Closed chunks are read apart

A sequence of tokens in which every parenthesis that is opened is closed is read alike whatever
comes behind it, however malformed it is, and what comes behind it is read as if it stood alone
(`Parsed.ofTokens_append`). Programs are closed (`Grammar.IsProgram.closed`), so a malformed chunk
takes nothing from the programs before and behind it (`Parsed.ofTokens_chunk`).

A declaration is compared in the two runs by what the parsers inside it do (`Parser.Local`). Whether
the attempts suffice does not matter in either run: the same comparison with nothing behind says
that any two numbers of attempts that both suffice give the same result (`Parsed.within_congr`).
-/

namespace PolyLambda.Surface

open Grammar

namespace Parser

variable {b : Tokens} {c d : Nat} {t : Located Token} {rest : Tokens}

/-- A declaration is read alike in front of anything, and independently of what was read before. -/
theorem agree_declaration (prev prev' : Span) (hc : rest.length ≤ c)
    (hd : rest.length + b.length ≤ d) (hfits : Fits b 0 (t :: rest)) :
    Agree b (fun _ => 0) 0 rest.length (openAfter 0 (t :: rest)) (declaration c ⟨prev, t :: rest⟩)
      (declaration d ⟨prev', t :: (rest ++ b)⟩) := by
  obtain ⟨o, token⟩ := t
  cases token with
  | openParen => exact local_declarationForm hc hd o ⟨o, rest⟩ (Nat.le_refl _) hfits
  | _ => exact Agree.error (s := ⟨o, rest⟩) (Nat.le_refl _) (Nat.le_refl _) nofun

end Parser

/-! ## Programs are closed -/

namespace Grammar

variable {ts : Tokens}

theorem IsDeclaration.closed {d : Declaration} (h : IsDeclaration ts d) : openAfter 0 ts = 0 := by
  cases ts with
  | nil => rfl
  | cons t rest =>
    have hrun : Parser.declaration rest.length ⟨.origin, t :: rest⟩ =
      .ok d ⟨stop (t :: rest), []⟩ :=
      (Parser.accepts_declaration rest.length ⟨.origin, t :: rest⟩ (Nat.le_refl _) d _ trivial).2
        ⟨t :: rest, ⟨(List.append_nil _).symm, rfl⟩, h⟩
    have hagree := Parser.agree_declaration (b := []) .origin .origin (Nat.le_refl rest.length)
      (Nat.le_refl _) (t := t) (.inl rfl)
    rw [hrun] at hagree
    generalize Parser.declaration _ _ = y at hagree
    cases hagree with
    | ok hopen => exact hopen.symm

theorem IsProgram.closed {ds : List Declaration} (h : IsProgram ts ds) : openAfter 0 ts = 0 := by
  induction h with
  | nil => rfl
  | cons hd _ ih => rw [openAfter_append, hd.closed, ih]

end Grammar

/-! ## Chunks -/

namespace Parsed

variable {b : Tokens} {c d m n : Nat}

theorem within_nil_append {prev prev' : Span} {x : Parsed} (hb : within d n ⟨prev', b⟩ = x) :
    within d n ⟨prev', [] ++ b⟩ =
      ⟨(within c m ⟨prev, []⟩).declarations ++ x.declarations,
        (within c m ⟨prev, []⟩).errors ++ x.errors⟩ := by
  rw [within_nil]
  exact hb

/-- What is read in front of `b`, and then what `b` gives from whatever place it is read. -/
theorem within_append {x : Parsed}
    (hb : ∀ {d n : Nat} (prev : Span), b.length ≤ n → b.length ≤ d + 1 → within d n ⟨prev, b⟩ = x)
    {a : Tokens} (hfits : Fits b 0 a) (prev prev' : Span) (hm : a.length ≤ m)
    (hc : a.length ≤ c + 1) (hn : a.length + b.length ≤ n) (hd : a.length + b.length ≤ d + 1) :
    within d n ⟨prev', a ++ b⟩ =
      ⟨(within c m ⟨prev, a⟩).declarations ++ x.declarations,
        (within c m ⟨prev, a⟩).errors ++ x.errors⟩ := by
  induction m generalizing a prev prev' n with
  | zero =>
    obtain rfl := List.length_eq_zero_iff.1 (Nat.le_zero.1 hm)
    rw [List.length_nil, Nat.zero_add] at hn hd
    exact within_nil_append (hb prev' hn hd)
  | succ m ih =>
    cases a with
    | nil =>
      rw [List.length_nil, Nat.zero_add] at hn hd
      exact within_nil_append (hb prev' hn hd)
    | cons t rest =>
      rw [List.length_cons] at hm hc hn hd
      obtain ⟨n, rfl⟩ : ∃ n', n = n' + 1 := ⟨n - 1, by omega⟩
      have hagree :=
        Parser.agree_declaration prev prev' (c := c) (d := d) (by omega) (by omega) hfits
      generalize hx : Parser.declaration c ⟨prev, t :: rest⟩ = x,
        hy : Parser.declaration d ⟨prev', t :: (rest ++ b)⟩ = y at hagree
      cases hagree with
      | @ok a s hopen hlength =>
        have hfits' := hfits.of_le (Nat.le_of_eq hopen)
        rw [List.cons_append, within_of_ok hx, within_of_ok hy, Input.append,
          ih hfits' s.prev s.prev (by omega) (by omega) (by omega) (by omega)]
        rfl
      | @error errors s hopen hlength _ =>
        have hfits' := hfits.of_le hopen
        rw [List.cons_append, within_of_error hx, within_of_error hy, Input.append,
          ih hfits' s.prev s.prev (by omega) (by omega) (by omega) (by omega), List.append_assoc]

/-- What is read does not depend on the numbers that bound the reading, nor on what was read
before. -/
theorem within_congr {prev prev' : Span} (hm : b.length ≤ m) (hc : b.length ≤ c + 1)
    (hn : b.length ≤ n) (hd : b.length ≤ d + 1) :
    within d n ⟨prev', b⟩ = within c m ⟨prev, b⟩ := by
  have happend := within_append (b := []) (x := ⟨[], []⟩) (fun _ _ _ => within_nil) (.inl rfl)
    prev prev' hm hc hn hd
  simpa only [List.append_nil] using happend

theorem ofTokens_append {a : Tokens} (ha : openAfter 0 a = 0) (b : Tokens) :
    ofTokens (a ++ b) =
      ⟨(ofTokens a).declarations ++ (ofTokens b).declarations,
        (ofTokens a).errors ++ (ofTokens b).errors⟩ := by
  refine within_append (fun prev hn hd => ?_) (.inr ha) _ _ (Nat.le_refl _) (Nat.le_add_right _ 2)
    (Nat.le_of_eq List.length_append.symm) ?_
  · exact within_congr (Nat.le_refl _) (Nat.le_add_right _ 2) hn hd
  · rw [List.length_append]
    exact Nat.le_add_right _ 2

/-- A chunk whose parentheses are all closed is read apart from what comes behind it, and between
two programs it changes nothing about them. -/
theorem ofTokens_chunk (a : Tokens) (ha : openAfter 0 a = 0) :
    (∀ b, ofTokens (a ++ b) =
      ⟨(ofTokens a).declarations ++ (ofTokens b).declarations,
        (ofTokens a).errors ++ (ofTokens b).errors⟩) ∧
      ∀ p ds q es, IsProgram p ds → IsProgram q es →
        ofTokens (p ++ (a ++ q)) =
        ⟨ds ++ ((ofTokens a).declarations ++ es), (ofTokens a).errors⟩ := by
  refine ⟨ofTokens_append ha, fun p ds q es hp hq => ?_⟩
  rw [ofTokens_append hp.closed, ofTokens_append ha, isProgram_iff.1 hp, isProgram_iff.1 hq,
    List.nil_append, List.append_nil]

/-- The tokens of `(def x (f @5)) )`: an argument that is no type, and a parenthesis too many. -/
def brokenChunk : Tokens :=
  [⟨⟨0, 1⟩, .openParen⟩, ⟨⟨1, 4⟩, .symbol "def"⟩, ⟨⟨5, 6⟩, .symbol "x"⟩, ⟨⟨7, 8⟩, .openParen⟩,
    ⟨⟨8, 9⟩, .symbol "f"⟩, ⟨⟨10, 11⟩, .atSign⟩, ⟨⟨11, 12⟩, .int 5⟩, ⟨⟨12, 13⟩, .closeParen⟩,
    ⟨⟨13, 14⟩, .closeParen⟩, ⟨⟨15, 16⟩, .closeParen⟩]

def brokenErrors : List ParseError :=
  [⟨⟨11, 12⟩, .expectedType (some (.int 5))⟩, ⟨⟨11, 12⟩, .expected .closeParen (some (.int 5))⟩,
    ⟨⟨11, 12⟩, .declarationEnd⟩, ⟨⟨13, 14⟩, .declarationStart⟩, ⟨⟨15, 16⟩, .declarationStart⟩]

/-- The tokens of `(def z 1)` behind them. -/
def soundChunk : Tokens :=
  [⟨⟨17, 18⟩, .openParen⟩, ⟨⟨18, 21⟩, .symbol "def"⟩, ⟨⟨22, 23⟩, .symbol "z"⟩,
    ⟨⟨24, 25⟩, .int 1⟩, ⟨⟨25, 26⟩, .closeParen⟩]

def soundDeclaration : Declaration :=
  .definition ⟨⟨17, 26⟩, "z", none, .empty, none, .int ⟨24, 25⟩ 1⟩

/-- The malformed definition is given up at its argument and two parentheses are left over, and `z`
is read all the same, before it and behind it. -/
theorem ofTokens_chunk_broken :
    openAfter 0 brokenChunk = 0 ∧ IsProgram soundChunk [soundDeclaration] ∧
      ofTokens (brokenChunk ++ soundChunk) = ⟨[soundDeclaration], brokenErrors⟩ ∧
      ofTokens (soundChunk ++ (brokenChunk ++ soundChunk)) =
        ⟨[soundDeclaration, soundDeclaration], brokenErrors⟩ := by
  have hclosed : openAfter 0 brokenChunk = 0 := rfl
  have hsound : IsProgram soundChunk [soundDeclaration] := isProgram_iff.2 rfl
  obtain ⟨happend, hbetween⟩ := ofTokens_chunk brokenChunk hclosed
  refine ⟨hclosed, hsound, ?_, ?_⟩
  · rw [happend soundChunk]
    rfl
  · rw [hbetween _ _ _ _ hsound hsound]
    rfl

end Parsed

end PolyLambda.Surface
