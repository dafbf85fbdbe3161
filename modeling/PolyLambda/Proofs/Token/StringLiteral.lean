import PolyLambda.Proofs.Token.Tiling

/-!
# Literals for strings

A string literal is a quote, a body and a quote. The body is a sequence of items, each a character
other than the quote and the backslash or a backslash with a character behind it (`IsLiteralBody`),
and a pass of its own over the body says what the items denote (`decodeBody?`). The scanner does
both at once, and agrees with the two on where a literal ends and what it denotes
(`stringBody_of_isLiteralBody`, `exists_of_closed`). So every string has a literal, which is read
whatever follows it (`lex_literal`).
-/

namespace PolyLambda

/-! ## Texts behind a token -/

/-- The span, when its source stands behind `n` bytes. -/
def Span.behind (n : Nat) (s : Span) : Span := ⟨.ofNat n + s.start, .ofNat n + s.stop⟩

def Located.behind {α : Type} (n : Nat) (x : Located α) : Located α := ⟨x.span.behind n, x.val⟩

/-- The bytes, when their source stands behind `n` bytes. -/
def Extent.behind (n : Nat) (e : Extent) : Extent := ⟨n + e.start, n + e.stop⟩

def Placed.behind {α : Type} (n : Nat) (x : Placed α) : Placed α := ⟨x.extent.behind n, x.val⟩

theorem Extent.span_behind (n : Nat) (e : Extent) : (e.behind n).span = e.span.behind n :=
  congr (congrArg Span.mk (UInt32.ofNat_add n e.start)) (UInt32.ofNat_add n e.stop)

namespace Token

/-- What is read where the token `t`, spelled by `text`, stands in front of a source with the tokens
and errors `lexed`. -/
def Lexed.behind (lexed : Lexed) (text : String) (t : Token) : Lexed where
  tokens :=
    ⟨Extent.span ⟨0, text.utf8ByteSize⟩, t⟩ ::
      lexed.tokens.map (Located.behind text.utf8ByteSize)
  errors := lexed.errors.map (Span.behind text.utf8ByteSize)

theorem layOut_add (n offset : Nat) (cuts : List (List Char × Piece)) :
    layOut (n + offset) cuts = (layOut offset cuts).map (Placed.behind n) := by
  induction cuts generalizing offset with
  | nil => rfl
  | cons p cuts ih =>
    obtain ⟨text, piece⟩ := p
    rw [layOut, layOut, Nat.add_assoc, ih, List.map_cons]
    rfl

theorem filterMap_behind {α : Type} {n : Nat} (keep : Placed Piece → Option α) (f : α → α)
    (h : ∀ extent piece, keep (Placed.behind n ⟨extent, piece⟩) = (keep ⟨extent, piece⟩).map f)
    (ps : List (Placed Piece)) :
    (ps.map (Placed.behind n)).filterMap keep = (ps.filterMap keep).map f := by
  rw [List.filterMap_map, List.map_filterMap]
  exact congrArg (List.filterMap · ps) (funext fun p => h p.extent p.val)

theorem ofPieces_behind (n : Nat) (ps : List (Placed Piece)) :
    Lexed.ofPieces (ps.map (Placed.behind n)) =
      ⟨(Lexed.ofPieces ps).tokens.map (Located.behind n),
        (Lexed.ofPieces ps).errors.map (Span.behind n)⟩ := by
  have htokens := filterMap_behind keepToken (Placed.behind n)
    (fun _ piece => by cases piece <;> rfl) ps
  have herrors := filterMap_behind keepError (Extent.behind n)
    (fun _ piece => by cases piece <;> rfl) ps
  rw [Lexed.ofPieces, htokens, herrors, Lexed.ofPieces]
  simp only [List.map_map]
  refine congr (congrArg Lexed.mk (List.map_congr_left fun t _ => ?_)) (List.map_congr_left ?_)
  · exact congrArg (Located.mk · t.val) (t.extent.span_behind n)
  · exact fun e _ => e.span_behind n

/-- A text that is read as one token, whatever follows it, is read as that token in front of any
source. -/
theorem lex_append_of_scan {c : Char} {cs : List Char} {t : Token} {rest : String}
    (h : scan c (cs ++ rest.toList) = (.token t, cs.length)) :
    lex (String.ofList (c :: cs) ++ rest) = (lex rest).behind (String.ofList (c :: cs)) t := by
  have hpieces : pieces (String.ofList (c :: cs) ++ rest) =
      ⟨⟨0, byteWidth (c :: cs)⟩, .token t⟩ ::
        (pieces rest).map (Placed.behind (byteWidth (c :: cs))) := by
    rw [pieces, piecesFrom_eq_layOut, String.toList_append, String.toList_ofList, List.cons_append,
      cut, h, List.take_left, List.drop_left, layOut, Nat.zero_add,
      ← Nat.add_zero (byteWidth (c :: cs)), layOut_add, Nat.add_zero, pieces, piecesFrom_eq_layOut]
  have hrest := ofPieces_behind (byteWidth (c :: cs)) (pieces rest)
  rw [lex, hpieces, Lexed.behind, ← byteWidth_eq_utf8ByteSize]
  exact congr (congrArg Lexed.mk (congrArg (_ :: ·) (congrArg Lexed.tokens hrest)))
    (congrArg Lexed.errors hrest)

/-! ## Bodies of literals -/

/-- What may stand between the quotes of a literal. -/
inductive IsLiteralBody : List Char → Prop
  | nil : IsLiteralBody []
  | plain {c : Char} {cs : List Char} :
      c ≠ '\\' → c ≠ '"' → IsLiteralBody cs → IsLiteralBody (c :: cs)
  | escape {c : Char} {cs : List Char} :
      c ≠ '\n' → IsLiteralBody cs → IsLiteralBody ('\\' :: c :: cs)

/-- The characters that a body denotes. A backslash at its end denotes nothing. -/
def decodeBody? : List Char → Option (List Char)
  | [] => some []
  | ['\\'] => none
  | '\\' :: c :: rest => (decodeBody? rest).map (unescape c ++ ·)
  | c :: rest => (decodeBody? rest).map (c :: ·)

theorem decodeBody?_plain {c : Char} (hc : c ≠ '\\') (cs : List Char) :
    decodeBody? (c :: cs) = (decodeBody? cs).map (c :: ·) := by
  rw [decodeBody?]
  · rintro rfl -
    exact hc rfl
  · rintro d rest rfl -
    exact hc rfl

/-- A body is read up to the quote behind it, and denotes what the scanner finds. -/
theorem stringBody_of_isLiteralBody {body : List Char} (h : IsLiteralBody body) :
    ∃ text, decodeBody? body = some text ∧
      ∀ rest, stringBody (body ++ '"' :: rest) = ⟨text, body.length, true⟩ := by
  induction h with
  | nil => exact ⟨[], rfl, stringBody_quote⟩
  | @plain c cs hback hquote _ ih =>
    obtain ⟨text, hdecode, hbody⟩ := ih
    refine ⟨c :: text, ?_, fun rest => ?_⟩
    · rw [decodeBody?_plain hback, hdecode]
      rfl
    · rw [List.cons_append, stringBody_plain hback hquote, hbody, StringBody.cons, Nat.add_comm]
      rfl
  | @escape c cs hline _ ih =>
    obtain ⟨text, hdecode, hbody⟩ := ih
    refine ⟨unescape c ++ text, ?_, fun rest => ?_⟩
    · rw [decodeBody?, hdecode]
      rfl
    · rw [List.cons_append, List.cons_append, stringBody_escape hline, hbody, StringBody.cons,
        Nat.add_comm]
      rfl

/-- What the scanner takes for a closed literal is a body with a quote behind it. -/
theorem exists_of_closed {cs : List Char} (h : (stringBody cs).closed = true) :
    ∃ body rest, cs = body ++ '"' :: rest ∧ IsLiteralBody body := by
  fun_induction stringBody cs with
  | case1 => cases h
  | case2 => cases h
  | case3 => cases h
  | case4 c cs hc ih =>
    obtain ⟨body, rest, rfl, hbody⟩ := ih h
    exact ⟨'\\' :: c :: body, rest, rfl, .escape hc hbody⟩
  | case5 cs => exact ⟨[], cs, rfl, .nil⟩
  | case6 c cs halone hescape hquote ih =>
    obtain ⟨body, rest, rfl, hbody⟩ := ih h
    have hback : c ≠ '\\' := by
      intro hc
      obtain ⟨d, ds, hds⟩ := List.exists_cons_of_ne_nil fun hnil => halone hc hnil
      exact hescape d ds hc hds
    exact ⟨c :: body, rest, rfl, .plain hback hquote hbody⟩

theorem IsLiteralBody.append {before after : List Char} (h : IsLiteralBody before)
    (hafter : IsLiteralBody after) : IsLiteralBody (before ++ after) := by
  induction h with
  | nil => exact hafter
  | plain hback hquote _ ih => exact .plain hback hquote ih
  | escape hline _ ih => exact .escape hline ih

theorem decodeBody?_append {before text : List Char} (h : IsLiteralBody before)
    (hbefore : decodeBody? before = some text) (after : List Char) :
    decodeBody? (before ++ after) = (decodeBody? after).map (text ++ ·) := by
  induction h generalizing text with
  | nil =>
    cases hbefore
    exact Option.map_id'.symm
  | @plain c cs hback _ _ ih =>
    rw [decodeBody?_plain hback] at hbefore
    obtain ⟨denoted, hcs, rfl⟩ := Option.map_eq_some_iff.1 hbefore
    rw [List.cons_append, decodeBody?_plain hback, ih hcs, Option.map_map]
    rfl
  | @escape c cs _ _ ih =>
    rw [decodeBody?] at hbefore
    obtain ⟨denoted, hcs, rfl⟩ := Option.map_eq_some_iff.1 hbefore
    rw [List.cons_append, List.cons_append, decodeBody?, ih hcs, Option.map_map]
    exact congrArg (Option.map · _) (funext fun _ => (List.append_assoc ..).symm)

/-! ## Literals -/

/-- The body between quotes. -/
def inQuotes (body : List Char) : String :=
  String.ofList ('"' :: (body ++ ['"']))

theorem lex_inQuotes {body text : List Char} (h : IsLiteralBody body)
    (htext : decodeBody? body = some text) (rest : String) :
    lex (inQuotes body ++ rest) = (lex rest).behind (inQuotes body)
    (.string (String.ofList text)) := by
  obtain ⟨_, hdecode, hbody⟩ := stringBody_of_isLiteralBody h
  cases htext.symm.trans hdecode
  refine lex_append_of_scan ?_
  change scanString _ = _
  rw [scanString, List.append_assoc, List.singleton_append, hbody, List.length_append]
  rfl

/-- If this piece is a string, its first character is a quote. -/
def OnlyQuoted (c : Char) (piece : Piece) : Prop :=
  ∀ s, piece = .token (.string s) → c = '"'

theorem OnlyQuoted.ite {c : Char} {p : Prop} [Decidable p] {r r' : Piece × Nat}
    (hr : p → OnlyQuoted c r.1) (hr' : OnlyQuoted c r'.1) :
    OnlyQuoted c (if p then r else r').1 := by
  by_cases h : p
  · rw [if_pos h]
    exact hr h
  · rw [if_neg h]
    exact hr'

theorem onlyQuoted_scan (c : Char) (cs : List Char) : OnlyQuoted c (scan c cs).1 := by
  have hblank : OnlyQuoted c .blank := nofun
  have hpragma : OnlyQuoted c (scanPragma cs).1 := by
    intro s h
    obtain ⟨_, _, -, -, ⟨⟩⟩ := scanPragma_eq h
  have htypeVar : OnlyQuoted c (scanTypeVar cs).1 := by
    intro s h
    obtain ⟨_, _, -, -, ⟨⟩⟩ := scanTypeVar_eq h
  have hdigits : OnlyQuoted c (scanDigits c cs).1 := by
    intro s h
    obtain ⟨_, ⟨⟩⟩ := intPiece_eq_token h
  have hsymbol : OnlyQuoted c (scanSymbol c cs).1 := by
    intro s h
    obtain ⟨_, ⟨⟩⟩ | ⟨⟨⟩⟩ := scanSymbol_eq h
  exact .ite (fun _ => hblank) <| .ite (fun _ => hblank) <| .ite (fun _ => nofun) <|
    .ite (fun _ => nofun) <| .ite (fun _ => nofun) <| .ite (fun _ => nofun) <|
    .ite (fun hc _ _ => hc) <| .ite (fun _ => hpragma) <| .ite (fun _ => htypeVar) <|
    .ite (fun _ => hdigits) <| .ite (fun _ => hsymbol) nofun

/-- Every token that denotes a string is read from a literal. -/
theorem exists_literal {source : String} {t : Placed Token} (ht : t ∈ placedTokens source)
    {s : String} (hs : t.val = .string s) :
    ∃ body, IsLiteralBody body ∧ decodeBody? body = some s.toList ∧
      slice source t.extent = inQuotes body := by
  obtain ⟨extent, token⟩ := t
  cases hs
  obtain ⟨before, c, cs, hsource, hpiece⟩ := exists_of_mem_pieces (mem_placedTokens.1 ht)
  have hextent : extent = (pieceAt before c cs).extent := congrArg Placed.extent hpiece
  have hscan : (scan c cs).1 = .token (.string s) := (congrArg Placed.val hpiece).symm
  rw [hextent, slice_pieceAt hsource]
  cases onlyQuoted_scan c cs s hscan
  obtain ⟨hclosed, hstring⟩ := scanString_eq hscan
  obtain ⟨body, rest, rfl, hbody⟩ := exists_of_closed hclosed
  obtain ⟨text, hdecode, hread⟩ := stringBody_of_isLiteralBody hbody
  rw [hread] at hstring
  have hs : s = String.ofList text := by
    have hpair := congrArg Prod.fst hstring
    cases hscan.symm.trans hpair
    rfl
  refine ⟨body, hbody, ?_, ?_⟩
  · rw [hs, String.toList_ofList, hdecode]
  · have hwidth : (scan '"' (body ++ '"' :: rest)).2 = (body ++ ['"']).length := by
      rw [List.length_append]
      exact congrArg Prod.snd hstring
    rw [hwidth, List.append_cons body '"' rest, List.take_left, inQuotes]

/-- How a character is written between quotes. -/
def escaped (c : Char) : List Char :=
  if c = '\\' then ['\\', '\\']
  else if c = '"' then ['\\', '"']
  else if c = '\n' then ['\\', 'n']
  else if c = '\t' then ['\\', 't']
  else if c = '\r' then ['\\', 'r']
  else [c]

/-- The literal of a string. -/
def literal (s : String) : String :=
  inQuotes (s.toList.flatMap escaped)

/-- The escapes of a literal and all other characters are items that denote the character. -/
theorem isLiteralBody_escaped (c : Char) :
    IsLiteralBody (escaped c) ∧ decodeBody? (escaped c) = some [c] := by
  by_cases hback : c = '\\'
  · subst hback
    exact ⟨.escape (by decide) .nil, rfl⟩
  by_cases hquote : c = '"'
  · subst hquote
    exact ⟨.escape (by decide) .nil, rfl⟩
  by_cases hline : c = '\n'
  · subst hline
    exact ⟨.escape (by decide) .nil, rfl⟩
  by_cases htab : c = '\t'
  · subst htab
    exact ⟨.escape (by decide) .nil, rfl⟩
  by_cases hreturn : c = '\r'
  · subst hreturn
    exact ⟨.escape (by decide) .nil, rfl⟩
  rw [escaped, if_neg hback, if_neg hquote, if_neg hline, if_neg htab, if_neg hreturn]
  exact ⟨.plain hback hquote .nil, decodeBody?_plain hback []⟩

theorem isLiteralBody_flatMap_escaped (cs : List Char) :
    IsLiteralBody (cs.flatMap escaped) ∧ decodeBody? (cs.flatMap escaped) = some cs := by
  induction cs with
  | nil => exact ⟨.nil, rfl⟩
  | cons c cs ih =>
    obtain ⟨hc, hdecode⟩ := isLiteralBody_escaped c
    rw [List.flatMap_cons, decodeBody?_append hc hdecode, ih.2]
    exact ⟨hc.append ih.1, rfl⟩

theorem unescape_eq {c : Char} (hc : c ∉ ['n', 't', 'r', '\\', '"']) : unescape c = ['\\', c] := by
  simp only [List.mem_cons, List.not_mem_nil, or_false, not_or] at hc
  rw [unescape, if_neg hc.1, if_neg hc.2.1, if_neg hc.2.2.1, if_neg hc.2.2.2.1, if_neg hc.2.2.2.2]

/-- Every string has a literal, which is read as that string and nothing else, and as that string in
front of what any text behind it is read as. An escape that has no meaning of its own denotes the
backslash and the character, wherever it stands in a literal; and no token denotes a string but
those that are read from literals. -/
theorem lex_literal :
    (∀ s, lex (literal s) =
      ⟨[⟨Extent.span ⟨0, (literal s).utf8ByteSize⟩, .string s⟩], []⟩) ∧
    (∀ s rest, lex (literal s ++ rest) = (lex rest).behind (literal s) (.string s)) ∧
    (∀ before c after, IsLiteralBody before → IsLiteralBody after →
      c ∉ ['n', 't', 'r', '\\', '"'] → c ≠ '\n' →
      ∃ text text', decodeBody? before = some text ∧ decodeBody? after = some text' ∧
        ∀ rest, lex (inQuotes (before ++ '\\' :: c :: after) ++ rest) =
          (lex rest).behind (inQuotes (before ++ '\\' :: c :: after))
            (.string (String.ofList (text ++ '\\' :: c :: text')))) ∧
    ∀ source, (lex source).tokens = (placedTokens source).map Placed.located ∧
      ∀ t ∈ placedTokens source, ∀ s, t.val = .string s →
        ∃ body, IsLiteralBody body ∧ decodeBody? body = some s.toList ∧
          slice source t.extent = inQuotes body := by
  have hliteral : ∀ s rest, lex (literal s ++ rest) =
    (lex rest).behind (literal s) (.string s) := by
    intro s rest
    obtain ⟨hbody, hdecode⟩ := isLiteralBody_flatMap_escaped s.toList
    rw [literal, lex_inQuotes hbody hdecode, String.ofList_toList]
  refine ⟨fun s => ?_, hliteral, ?_, fun source => ⟨rfl, fun t ht s hs => exists_literal ht hs⟩⟩
  · have hempty : lex "" = ⟨[], []⟩ := by decide +kernel
    have halone := hliteral s ""
    rw [String.append_empty, hempty] at halone
    exact halone
  · intro before c after hbefore hafter hc hline
    obtain ⟨text, htext, -⟩ := stringBody_of_isLiteralBody hbefore
    obtain ⟨text', htext', -⟩ := stringBody_of_isLiteralBody hafter
    have hdecode : decodeBody? (before ++ '\\' :: c :: after) =
      some (text ++ '\\' :: c :: text') := by
      rw [decodeBody?_append hbefore htext, decodeBody?, htext', unescape_eq hc]
      rfl
    exact ⟨text, text', htext, htext', fun rest =>
      lex_inQuotes (hbefore.append (.escape hline hafter)) hdecode rest⟩

/-- A backslash that is escaped itself escapes nothing, and the quote behind the next one is no
end. -/
theorem lex_literal_backslashes :
    IsLiteralBody ['\\', '\\'] ∧ IsLiteralBody ['\\', '"'] ∧
      lex "\"\\\\\\q\\\"\"(" = ⟨[⟨⟨0, 8⟩, .string "\\\\q\""⟩, ⟨⟨8, 9⟩, .openParen⟩], []⟩ := by
  have hbefore : IsLiteralBody ['\\', '\\'] := .escape (by decide) .nil
  have hafter : IsLiteralBody ['\\', '"'] := .escape (by decide) .nil
  obtain ⟨_, _, ⟨⟩, ⟨⟩, hlex⟩ :=
    lex_literal.2.2.1 ['\\', '\\'] 'q' ['\\', '"'] hbefore hafter (by decide) (by decide)
  have hrest : lex "(" = ⟨[⟨⟨0, 1⟩, .openParen⟩], []⟩ := by decide +kernel
  have hbehind := hlex "("
  rw [hrest] at hbehind
  exact ⟨hbefore, hafter, hbehind⟩

end Token

end PolyLambda
