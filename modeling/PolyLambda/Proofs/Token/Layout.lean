import PolyLambda.Proofs.Token.Lexeme

/-!
# Layout

White space and comments between lexemes do not matter. A text that is made of the lexemes of
another one, with white space or comments between any two of them, has the same lexemes
(`Spaced.lexemes`), and texts with the same lexemes have the same tokens (`tokens_of_lexemes`).
-/

namespace PolyLambda.Token

variable {c : Char} {cs note : List Char} {ws : List Word}

/-! ## One piece in front of a text -/

theorem scan_of_isWhitespace (hc : c.isWhitespace = true) (cs : List Char) :
    scan c cs = (.blank, (cs.takeWhile Char.isWhitespace).length) :=
  if_pos hc

theorem drop_length_takeWhile (p : Char → Bool) (cs : List Char) :
    cs.drop (cs.takeWhile p).length = cs.dropWhile p := by
  conv => lhs; arg 2; rw [← List.takeWhile_append_dropWhile (p := p) (l := cs)]
  rw [List.drop_left]

/-- The white space that a text begins with is one piece, however long it is. -/
theorem lexes_dropWhile_iff :
    Lexes (cs.dropWhile Char.isWhitespace) ws ↔ Lexes cs ws := by
  cases cs with
  | nil => exact Iff.rfl
  | cons c cs =>
    by_cases hc : c.isWhitespace = true
    · have hblank := scan_of_isWhitespace hc cs
      rw [List.dropWhile_cons_of_pos hc, lexes_cons_of_blank (by rw [hblank]), hblank,
        drop_length_takeWhile]
    · rw [List.dropWhile_cons_of_neg hc]

theorem lexes_whitespace_cons_iff (hc : c.isWhitespace = true) :
    Lexes (c :: cs) ws ↔ Lexes cs ws := by
  have hblank := scan_of_isWhitespace hc cs
  rw [lexes_cons_of_blank (by rw [hblank]), hblank, drop_length_takeWhile, lexes_dropWhile_iff]

theorem scan_comment (cs : List Char) :
    scan ';' cs = (.blank, (cs.takeWhile (· ≠ '\n')).length) := rfl

/-- A comment reaches to the end of its line. -/
theorem lexes_comment_iff (hnote : note.all (· ≠ '\n') = true) :
    Lexes (';' :: (note ++ '\n' :: cs)) ws ↔ Lexes cs ws := by
  have hline : (note ++ '\n' :: cs).takeWhile (· ≠ '\n') = note :=
    takeWhile_append_of_head hnote fun c hc => by cases hc; rfl
  rw [lexes_cons_of_blank (by rw [scan_comment]), scan_comment, hline, List.drop_left,
    lexes_whitespace_cons_iff (by decide)]

theorem lexes_last_comment (hnote : note.all (· ≠ '\n') = true) : Lexes (';' :: note) [] := by
  have hline : (note ++ []).takeWhile (· ≠ '\n') = note :=
    takeWhile_append_of_head hnote fun c hc => by cases hc
  rw [List.append_nil] at hline
  rw [lexes_cons_of_blank (by rw [scan_comment]), scan_comment, hline, List.drop_length]
  exact lexes_nil

/-- A lexeme in front of a text that it could not go on with is one more word. -/
theorem Lexes.word {w : Word} (h : Lexes cs ws) (hw : w.Spelled) (hcs : w.token.Separate cs) :
    Lexes (w.text ++ cs) (w :: ws) := by
  obtain ⟨text, token⟩ := w
  obtain ⟨c, tail, rfl, hscan⟩ := hw
  have hagain := scan_take_append (congrArg Prod.fst hscan) hcs
  rw [hscan, List.take_length] at hagain
  rw [List.cons_append, lexes_cons_of_token (congrArg Prod.fst hagain), hagain, List.take_left,
    List.drop_left]
  exact ⟨ws, rfl, h⟩

/-! ## Texts made of lexemes -/

/-- The text consists of the lexemes, with white space and comments anywhere around them, and no
lexeme is directly behind one that it could belong to. -/
inductive Spaced : List String → List Char → Prop
  | nil : Spaced [] []
  /-- A comment that only the end of the text ends. -/
  | last {note : List Char} : note.all (· ≠ '\n') = true → Spaced [] (';' :: note)
  | blank {c : Char} {ls : List String} {text : List Char} : c.isWhitespace = true →
      Spaced ls text → Spaced ls (c :: text)
  | comment {note : List Char} {ls : List String} {text : List Char} :
      note.all (· ≠ '\n') = true → Spaced ls text → Spaced ls (';' :: (note ++ '\n' :: text))
  | lexeme {l : String} {ls : List String} {text : List Char} :
      ((∀ d ∈ l.toList.getLast?, isSymbolChar d = true) →
        ∀ c ∈ text.head?, isSymbolChar c = false) →
      Spaced ls text → Spaced (l :: ls) (l.toList ++ text)

/-- Such a text consists of the words that the lexemes spell. -/
theorem Spaced.lexes {ls : List String} {text : List Char} (h : Spaced ls text) {ws : List Word}
    (hls : ls = ws.map fun w => String.ofList w.text) (hws : ∀ w ∈ ws, w.Spelled) :
    Lexes text ws := by
  induction h generalizing ws with
  | nil =>
    cases List.map_eq_nil_iff.1 hls.symm
    exact lexes_nil
  | last hnote =>
    cases List.map_eq_nil_iff.1 hls.symm
    exact lexes_last_comment hnote
  | blank hc _ ih => exact (lexes_whitespace_cons_iff hc).2 (ih hls hws)
  | comment hnote _ ih => exact (lexes_comment_iff hnote).2 (ih hls hws)
  | lexeme hhead _ ih =>
    obtain ⟨w, ws, rfl, rfl, rfl⟩ := List.map_eq_cons_iff.1 hls.symm
    rw [List.forall_mem_cons] at hws
    rw [String.toList_ofList] at hhead ⊢
    exact (ih rfl hws.2).word hws.1 fun hopen => hhead (hws.1.isSymbolChar_of_mem_getLast? hopen)

theorem spaced_intercalate (ls : List String) : Spaced ls (" ".intercalate ls).toList := by
  induction ls with
  | nil => exact .nil
  | cons l ls ih =>
    cases ls with
    | nil =>
      rw [String.intercalate_singleton, ← List.append_nil l.toList]
      exact .lexeme (fun _ _ hc => by cases hc) .nil
    | cons l' ls =>
      rw [String.intercalate_cons_of_ne_nil (List.cons_ne_nil _ _), String.toList_append,
        String.toList_append, List.append_assoc]
      exact .lexeme (fun _ c hc => by cases hc; rfl) (.blank rfl ih)

/-! ## Texts with the same lexemes -/

/-- Words are told apart by their lexemes. -/
theorem eq_of_map_text_eq {ws vs : List Word} (hws : ∀ w ∈ ws, w.Spelled)
    (hvs : ∀ v ∈ vs, v.Spelled)
    (h : ws.map (fun w => String.ofList w.text) = vs.map fun v => String.ofList v.text) :
    ws = vs := by
  induction ws generalizing vs with
  | nil => exact (List.map_eq_nil_iff.1 h.symm).symm
  | cons w ws ih =>
    obtain ⟨v, vs, rfl, hv, hrest⟩ := List.map_eq_cons_iff.1 h.symm
    rw [List.forall_mem_cons] at hws hvs
    rw [hws.1.ext hvs.1 (String.ofList_injective hv.symm), ih hws.2 hvs.2 hrest.symm]

theorem Spaced.lexemes {source text : String} (h : (lex source).errors = [])
    (htext : Spaced (lexemes source) text.toList) :
    (lex text).errors = [] ∧ Token.lexemes text = Token.lexemes source := by
  obtain ⟨ws, hws⟩ := errors_lex_eq_nil_iff.1 h
  have hlexes := htext.lexes hws.lexemes hws.spelled
  exact ⟨hlexes.errors, by rw [hlexes.lexemes, hws.lexemes]⟩

theorem tokens_of_lexemes {source source' : String} (h : (lex source).errors = [])
    (h' : (lex source').errors = []) (hlexemes : lexemes source' = lexemes source) :
    (lex source').tokens.map Located.val = (lex source).tokens.map Located.val := by
  obtain ⟨ws, hws⟩ := errors_lex_eq_nil_iff.1 h
  obtain ⟨vs, hvs⟩ := errors_lex_eq_nil_iff.1 h'
  rw [hws.lexemes, hvs.lexemes] at hlexemes
  rw [hws.tokens, hvs.tokens, eq_of_map_text_eq hvs.spelled hws.spelled hlexemes]

end PolyLambda.Token
