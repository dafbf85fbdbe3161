import PolyLambda.Proofs.Token.Boundary

/-!
# Lexemes

The lexemes of a source text are the slices of it that its tokens were read from. Cutting the text
into pieces that keep their characters gives the same lexemes without counting bytes
(`map_lexemes`), and `Lexes` says of a text without lexical errors which words it consists of, a
word being a lexeme with its token. Every word is spelled by its lexeme alone (`Lexes.spelled`), so
the lexemes say what the tokens are (`Word.Spelled.ext`).
-/

namespace PolyLambda

/-! ## Slices -/

namespace Token

/-- The characters of a text behind its first `n` bytes. -/
def dropBytes : Nat → List Char → List Char
  | _, [] => []
  | n, c :: cs => if n = 0 then c :: cs else dropBytes (n - c.utf8Size) cs

/-- The characters of a text that its first `n` bytes are. -/
def takeBytes : Nat → List Char → List Char
  | _, [] => []
  | n, c :: cs => if n = 0 then [] else c :: takeBytes (n - c.utf8Size) cs

theorem byteWidth_append (cs ds : List Char) :
    byteWidth (cs ++ ds) = byteWidth cs + byteWidth ds := by
  induction cs with
  | nil => exact (Nat.zero_add _).symm
  | cons c cs ih => rw [List.cons_append, byteWidth, ih, byteWidth, Nat.add_assoc]

theorem byteWidth_eq_utf8ByteSize (cs : List Char) :
    byteWidth cs = (String.ofList cs).utf8ByteSize := by
  induction cs with
  | nil => rfl
  | cons c cs ih =>
    have happend : String.ofList (c :: cs) = String.singleton c ++ String.ofList cs := by
      rw [String.singleton_eq_ofList, ← String.ofList_append]
      rfl
    rw [happend, String.utf8ByteSize_append, String.utf8ByteSize_singleton, ← ih, byteWidth]

theorem dropBytes_append (cs ds : List Char) : dropBytes (byteWidth cs) (cs ++ ds) = ds := by
  induction cs with
  | nil =>
    cases ds with
    | nil => rfl
    | cons d ds => rw [List.nil_append, byteWidth, dropBytes, if_pos rfl]
  | cons c cs ih =>
    have hpos := c.utf8Size_pos
    rw [List.cons_append, byteWidth, dropBytes, if_neg (by omega), Nat.add_sub_cancel_left, ih]

theorem takeBytes_append (cs ds : List Char) : takeBytes (byteWidth cs) (cs ++ ds) = cs := by
  induction cs with
  | nil =>
    cases ds with
    | nil => rfl
    | cons d ds => rw [List.nil_append, byteWidth, takeBytes, if_pos rfl]
  | cons c cs ih =>
    have hpos := c.utf8Size_pos
    rw [List.cons_append, byteWidth, takeBytes, if_neg (by omega), Nat.add_sub_cancel_left, ih]

/-- The characters of `source` that take the bytes `e`. -/
def slice (source : String) (e : Extent) : String :=
  String.ofList (takeBytes (e.stop - e.start) (dropBytes e.start source.toList))

/-- The tokens of a source text with the bytes that they take, in order. -/
def placedTokens (source : String) : List (Placed Token) :=
  (pieces source).filterMap keepToken

/-- The bytes that the lexical errors of a source text take, in order. -/
def placedErrors (source : String) : List Extent :=
  (pieces source).filterMap keepError

theorem lex_eq (source : String) :
    lex source =
      ⟨(placedTokens source).map Placed.located, (placedErrors source).map Extent.span⟩ := rfl

/-- The slices of a source text that are its tokens, in order. -/
def lexemes (source : String) : List String :=
  (placedTokens source).map fun t => slice source t.extent

/-- The tokens and lexical errors of a text, by its characters. -/
def lexChars (cs : List Char) : Lexed :=
  .ofPieces (piecesFrom 0 cs)

/-- To find the characters of a long literal takes longer than to read them, so that a source is
best evaluated by this. -/
theorem lex_ofList (cs : List Char) : lex (String.ofList cs) = lexChars cs := by
  rw [lex, pieces, String.toList_ofList]
  rfl

/-! ## Pieces with their characters -/

/-- The pieces of a text in order, each with its characters. -/
def cut : List Char → List (List Char × Piece)
  | [] => []
  | c :: cs => (c :: cs.take (scan c cs).2, (scan c cs).1) :: cut (cs.drop (scan c cs).2)
termination_by cs => cs.length
decreasing_by simp only [List.length_drop, List.length_cons]; omega

/-- Pieces laid end to end from the byte `offset` on. -/
def layOut (offset : Nat) : List (List Char × Piece) → List (Placed Piece)
  | [] => []
  | (text, piece) :: cuts =>
    ⟨⟨offset, offset + byteWidth text⟩, piece⟩ :: layOut (offset + byteWidth text) cuts

theorem piecesFrom_eq_layOut (offset : Nat) (cs : List Char) :
    piecesFrom offset cs = layOut offset (cut cs) := by
  fun_induction cut cs generalizing offset with
  | case1 => rw [piecesFrom, layOut]
  | case2 c cs ih =>
    rw [piecesFrom, layOut]
    exact congrArg (_ :: ·) (ih _)

theorem flatMap_cut (cs : List Char) : (cut cs).flatMap Prod.fst = cs := by
  fun_induction cut cs with
  | case1 => rfl
  | case2 c cs ih => rw [List.flatMap_cons, ih, List.cons_append, List.take_append_drop]

/-- A lexeme with its token. -/
structure Word where
  text : List Char
  token : Token

/-- The word that a piece is, if it is a token. -/
def word? : List Char × Piece → Option Word
  | (text, .token t) => some ⟨text, t⟩
  | _ => none

/-- The tokens of pieces that lie in a source text have their words' characters for slices. -/
theorem keepToken_layOut (source : String) (before : List Char) (cuts : List (List Char × Piece))
    (hsource : source.toList = before ++ cuts.flatMap Prod.fst) :
    ((layOut (byteWidth before) cuts).filterMap keepToken).map
        (fun t => (t.val, slice source t.extent)) =
      (cuts.filterMap word?).map fun w => (w.token, String.ofList w.text) := by
  induction cuts generalizing before with
  | nil => rfl
  | cons p cuts ih =>
    obtain ⟨text, piece⟩ := p
    rw [List.flatMap_cons] at hsource
    have hrest := ih (before ++ text) (by rw [hsource, List.append_assoc])
    rw [byteWidth_append] at hrest
    rw [layOut]
    cases piece with
    | blank => exact hrest
    | bad => exact hrest
    | token t =>
      refine congr (congrArg List.cons (congrArg (t, String.ofList ·) ?_)) hrest
      rw [hsource, dropBytes_append, Nat.add_sub_cancel_left, takeBytes_append]

theorem keepError_layOut_eq_nil_iff (offset : Nat) (cuts : List (List Char × Piece)) :
    (layOut offset cuts).filterMap keepError = [] ↔ ∀ p ∈ cuts, p.2 ≠ .bad := by
  induction cuts generalizing offset with
  | nil => exact iff_of_true rfl fun _ h => absurd h List.not_mem_nil
  | cons p cuts ih =>
    obtain ⟨text, piece⟩ := p
    rw [List.forall_mem_cons, layOut]
    cases piece with
    | bad => exact iff_of_false (List.cons_ne_nil _ _) fun h => h.1 rfl
    | _ => exact (ih _).trans (iff_and_self.2 fun _ h => Piece.noConfusion h)

/-- The text `cs` has no lexical error and consists of the words `ws`. -/
structure Lexes (cs : List Char) (ws : List Word) : Prop where
  clean : ∀ p ∈ cut cs, p.2 ≠ .bad
  words : (cut cs).filterMap word? = ws

theorem map_lexemes (source : String) :
    (placedTokens source).map (fun t => (t.val, slice source t.extent)) =
      ((cut source.toList).filterMap word?).map fun w => (w.token, String.ofList w.text) := by
  rw [placedTokens, pieces, piecesFrom_eq_layOut]
  exact keepToken_layOut source [] _ (flatMap_cut _).symm

theorem errors_lex_eq_nil_iff {source : String} :
    (lex source).errors = [] ↔ ∃ ws, Lexes source.toList ws := by
  rw [lex_eq, List.map_eq_nil_iff, placedErrors, pieces, piecesFrom_eq_layOut,
    keepError_layOut_eq_nil_iff]
  constructor
  · intro h
    exact ⟨_, h, rfl⟩
  · rintro ⟨_, h, -⟩
    exact h

namespace Lexes

variable {source : String} {cs : List Char} {ws : List Word}

theorem errors (h : Lexes source.toList ws) : (lex source).errors = [] :=
  errors_lex_eq_nil_iff.2 ⟨ws, h⟩

theorem tokens (h : Lexes source.toList ws) :
    (lex source).tokens.map Located.val = ws.map Word.token := by
  have hmap := congrArg (List.map Prod.fst) (map_lexemes source)
  rw [h.words, List.map_map, List.map_map] at hmap
  rw [lex_eq, List.map_map]
  exact hmap

theorem lexemes (h : Lexes source.toList ws) :
    lexemes source = ws.map fun w => String.ofList w.text := by
  have hmap := congrArg (List.map Prod.snd) (map_lexemes source)
  rw [h.words, List.map_map, List.map_map] at hmap
  exact hmap

end Lexes

/-! ## Words -/

/-- The text of the word, alone, is read as its token. -/
def Word.Spelled (w : Word) : Prop :=
  ∃ c cs, w.text = c :: cs ∧ scan c cs = (.token w.token, cs.length)

theorem spelled_take {c : Char} {cs : List Char} {t : Token} (h : (scan c cs).1 = .token t) :
    Word.Spelled ⟨c :: cs.take (scan c cs).2, t⟩ := by
  have hseparate : t.Separate [] := fun _ _ hc => by cases hc
  have hscan := scan_take_append h hseparate
  rw [List.append_nil] at hscan
  refine ⟨c, _, rfl, ?_⟩
  rw [hscan, List.length_take_of_le (scan_le c cs)]
  exact Prod.ext h rfl

theorem Word.Spelled.isSymbolChar_of_mem_getLast? {w : Word} (h : w.Spelled)
    (hopen : w.token.isOpenEnded = true) : ∀ d ∈ w.text.getLast?, isSymbolChar d = true := by
  obtain ⟨text, token⟩ := w
  obtain ⟨c, cs, rfl, hscan⟩ := h
  have hlast := Token.isSymbolChar_of_mem_getLast? (congrArg Prod.fst hscan) hopen
  rwa [hscan, List.take_length] at hlast

theorem Word.Spelled.ext {w w' : Word} (h : w.Spelled) (h' : w'.Spelled)
    (htext : w.text = w'.text) :
    w = w' := by
  obtain ⟨c, cs, hcs, hscan⟩ := h
  obtain ⟨c', cs', hcs', hscan'⟩ := h'
  obtain ⟨text, token⟩ := w
  obtain ⟨text', token'⟩ := w'
  cases htext
  cases hcs
  cases hcs'
  rw [hscan] at hscan'
  cases hscan'
  rfl

section

variable {c : Char} {cs rest : List Char} {ws : List Word}

theorem lexes_nil : Lexes [] [] := by
  constructor
  · rw [cut]
    exact fun _ h => absurd h List.not_mem_nil
  · rw [cut]
    rfl

theorem lexes_cons_of_blank (h : (scan c cs).1 = .blank) :
    Lexes (c :: cs) ws ↔ Lexes (cs.drop (scan c cs).2) ws := by
  constructor
  · rintro ⟨hclean, hwords⟩
    rw [cut] at hclean hwords
    rw [h] at hwords
    exact ⟨(List.forall_mem_cons.1 hclean).2, hwords⟩
  · rintro ⟨hclean, hwords⟩
    constructor
    · rw [cut, h]
      exact List.forall_mem_cons.2 ⟨Piece.noConfusion, hclean⟩
    · rw [cut, h]
      exact hwords

theorem lexes_cons_of_token {t : Token} (h : (scan c cs).1 = .token t) :
    Lexes (c :: cs) ws ↔ ∃ others, ws = ⟨c :: cs.take (scan c cs).2, t⟩ :: others ∧
      Lexes (cs.drop (scan c cs).2) others := by
  constructor
  · rintro ⟨hclean, hwords⟩
    rw [cut] at hclean hwords
    rw [h] at hwords
    exact ⟨_, hwords.symm, (List.forall_mem_cons.1 hclean).2, rfl⟩
  · rintro ⟨others, rfl, hclean, hwords⟩
    constructor
    · rw [cut, h]
      exact List.forall_mem_cons.2 ⟨Piece.noConfusion, hclean⟩
    · rw [cut, h]
      exact congrArg _ hwords

end

/-- The words of a text are spelled by their lexemes. -/
theorem spelled_of_mem_cut {cs : List Char} {w : Word} (h : w ∈ (cut cs).filterMap word?) :
    w.Spelled := by
  fun_induction cut cs with
  | case1 => exact absurd h List.not_mem_nil
  | case2 c cs ih =>
    rw [List.filterMap_cons] at h
    cases hpiece : (scan c cs).1 with
    | token t =>
      rw [hpiece] at h
      rcases List.mem_cons.1 h with rfl | hmem
      · exact spelled_take hpiece
      · exact ih hmem
    | _ =>
      rw [hpiece] at h
      exact ih h

theorem Lexes.spelled {cs : List Char} {ws : List Word} (h : Lexes cs ws) :
    ∀ w ∈ ws, w.Spelled := by
  rw [← h.words]
  exact fun _ => spelled_of_mem_cut

end Token

end PolyLambda
