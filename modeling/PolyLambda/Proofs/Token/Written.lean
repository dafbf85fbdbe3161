import PolyLambda.Proofs.Token.Layout

/-!
# Written text

A text that a printer makes is put together from words, spaces and parentheses. `Writes` says of
such a text which tokens it is read as, wherever it stands in front of a text that it could not go
on with; there is one rule for each way to put texts together. Which texts are words is known of the
names that come from a source text, since each of them was read from itself (`writable_of_mem_lex`).
-/

namespace PolyLambda.Token

/-! ## Names -/

/-- Some text is read as the token. -/
def Writable (t : Token) : Prop :=
  ∃ text, Word.Spelled ⟨text, t⟩

theorem Writable.spelled {t : Token} (h : t.Writable) {text : List Char}
    (htext : t.nameText? = some text) : Word.Spelled ⟨text, t⟩ := by
  obtain ⟨_, c, cs, rfl, hscan⟩ := h
  have heq := eq_of_mem_nameText? (congrArg Prod.fst hscan) htext
  rw [hscan, List.take_length] at heq
  exact ⟨c, cs, heq.symm, hscan⟩

/-- Every token of a source text can be written. -/
theorem writable_of_mem_lex {source : String} {t : Located Token} (h : t ∈ (lex source).tokens) :
    t.val.Writable := by
  obtain ⟨p, hp, rfl⟩ := List.mem_map.1 h
  have hmem : (p.val, slice source p.extent) ∈
      (placedTokens source).map fun t => (t.val, slice source t.extent) :=
    List.mem_map.2 ⟨p, hp, rfl⟩
  rw [map_lexemes] at hmem
  obtain ⟨⟨text, token⟩, hw, heq⟩ := List.mem_map.1 hmem
  cases congrArg Prod.fst heq
  exact ⟨text, spelled_of_mem_cut hw⟩

/-! ## Texts -/

/-- The text does not begin with a character that a name or a number could go on with. -/
def Apart (text : List Char) : Prop :=
  ∀ c ∈ text.head?, isSymbolChar c = false

theorem apart_cons {c : Char} (hc : isSymbolChar c = false) (cs : List Char) : Apart (c :: cs) := by
  rintro _ ⟨⟩
  exact hc

theorem Apart.append {text cs : List Char} (h : Apart text) (hcs : Apart cs) :
    Apart (text ++ cs) := by
  cases text with
  | nil => exact hcs
  | cons c text => exact h

/-- In front of a text that is apart the text is read as the tokens. -/
def Writes (text : List Char) (tokens : List Token) : Prop :=
  ∀ cs ws, Apart cs → Lexes cs ws →
    ∃ vs, vs.map Word.token = tokens ∧ Lexes (text ++ cs) (vs ++ ws)

variable {text text' : List Char} {tokens tokens' : List Token}

theorem writes_nil : Writes [] [] := fun _ _ _ h => ⟨[], rfl, h⟩

theorem writes_word {t : Token} (h : Word.Spelled ⟨text, t⟩) : Writes text [t] :=
  fun _ _ hcs hlexes => ⟨[⟨text, t⟩], rfl, hlexes.word h fun _ => hcs⟩

theorem Writable.writes {t : Token} (h : t.Writable) (htext : t.nameText? = some text) :
    Writes text [t] :=
  writes_word (h.spelled htext)

theorem writes_openParen (h : Writes text tokens) :
    Writes ('(' :: text) (.openParen :: tokens) := by
  intro cs ws hcs hlexes
  obtain ⟨vs, rfl, htext⟩ := h cs ws hcs hlexes
  have hparen : Word.Spelled ⟨['('], .openParen⟩ := ⟨_, _, rfl, rfl⟩
  exact ⟨⟨['('], .openParen⟩ :: vs, rfl, htext.word hparen Bool.noConfusion⟩

theorem writes_space (h : Writes text tokens) : Writes (' ' :: text) tokens := by
  intro cs ws hcs hlexes
  obtain ⟨vs, rfl, htext⟩ := h cs ws hcs hlexes
  exact ⟨vs, rfl, (lexes_whitespace_cons_iff rfl).2 htext⟩

theorem Writes.append (h : Writes text tokens) (h' : Writes text' tokens') (hapart : Apart text') :
    Writes (text ++ text') (tokens ++ tokens') := by
  intro cs ws hcs hlexes
  obtain ⟨vs', rfl, htext'⟩ := h' cs ws hcs hlexes
  obtain ⟨vs, rfl, htext⟩ := h _ _ (hapart.append hcs) htext'
  refine ⟨vs ++ vs', List.map_append, ?_⟩
  rw [List.append_assoc, List.append_assoc]
  exact htext

theorem writes_closeParen : Writes [')'] [.closeParen] :=
  writes_word ⟨_, _, rfl, rfl⟩

theorem Writes.close (h : Writes text tokens) : Writes (text ++ [')']) (tokens ++ [.closeParen]) :=
  h.append writes_closeParen (apart_cons rfl [])

theorem Writes.space (h : Writes text tokens) (h' : Writes text' tokens') :
    Writes (text ++ ' ' :: text') (tokens ++ tokens') :=
  h.append (writes_space h') (apart_cons rfl text')

/-- A written text has no lexical errors. -/
theorem Writes.lex {source : String} (h : Writes source.toList tokens) :
    (lex source).errors = [] ∧ (lex source).tokens.map Located.val = tokens := by
  obtain ⟨vs, rfl, hlexes⟩ := h [] [] (by simp [Apart]) lexes_nil
  rw [List.append_nil, List.append_nil] at hlexes
  exact ⟨hlexes.errors, hlexes.tokens⟩

end PolyLambda.Token
