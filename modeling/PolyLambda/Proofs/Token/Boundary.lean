import PolyLambda.Token.Scan

/-!
# Where a token ends

The first character of a text alone says how its first piece is read (`Reader`), and the scan looks
at most one character beyond a token. So a token is read again from its characters wherever they
stand, unless a character follows that could belong to it (`scan_take_append`).
-/

namespace PolyLambda.Token

/-! ## What could go on -/

/-- Whether a token could go on behind its last character. -/
def isOpenEnded : Token → Bool
  | .int _ | .typeVar _ | .symbol _ => true
  | _ => false

/-- The token `t` could not go on with the text `rest`. -/
def Separate (t : Token) (rest : List Char) : Prop :=
  t.isOpenEnded = true → ∀ c ∈ rest.head?, isSymbolChar c = false

/-- Characters of a class that a token could go on with do not follow. -/
theorem Separate.head {t : Token} {rest : List Char} {p : Char → Bool} (h : t.Separate rest)
    (ht : t.isOpenEnded = true) (hp : ∀ c, p c = true → isSymbolChar c = true) :
    ∀ c ∈ rest.head?, p c = false := by
  intro c hc
  have hsymbol := h ht c hc
  refine Bool.eq_false_iff.2 fun hpc => ?_
  rw [hp c hpc] at hsymbol
  cases hsymbol

theorem take_length_takeWhile (p : Char → Bool) (cs : List Char) :
    cs.take (cs.takeWhile p).length = cs.takeWhile p :=
  (List.prefix_iff_eq_take.1 (List.takeWhile_prefix p)).symm

theorem takeWhile_append_of_head {p : Char → Bool} {cs rest : List Char}
    (hcs : cs.all p = true) (hrest : ∀ c ∈ rest.head?, p c = false) :
    (cs ++ rest).takeWhile p = cs := by
  rw [List.takeWhile_append_of_pos (List.all_eq_true.1 hcs)]
  cases rest with
  | nil => rw [List.takeWhile_nil, List.append_nil]
  | cons c rest =>
    have hc : ¬ p c = true := Bool.eq_false_iff.1 (hrest c rfl)
    rw [List.takeWhile_cons_of_neg hc, List.append_nil]

/-- A run of characters of a class is read again if no character of the class follows. -/
theorem takeWhile_take_append {p : Char → Bool} (cs : List Char) {rest : List Char}
    (hrest : ∀ c ∈ rest.head?, p c = false) :
    (cs.take (cs.takeWhile p).length ++ rest).takeWhile p = cs.takeWhile p := by
  rw [take_length_takeWhile]
  exact takeWhile_append_of_head List.all_takeWhile hrest

theorem isSymbolChar_of_isNameChar {c : Char} (h : isNameChar c = true) :
    isSymbolChar c = true := by
  rw [isNameChar, Bool.or_eq_true] at h
  rcases h with h | h <;> simp [isSymbolChar, isSymbolStart, h]

theorem isSymbolChar_of_isDigit {c : Char} (h : c.isDigit = true) : isSymbolChar c = true :=
  isSymbolChar_of_isNameChar (by simp [isNameChar, h])

/-! ## Strings -/

theorem stringBody_escape {c : Char} (hc : c ≠ '\n') (cs : List Char) :
    stringBody ('\\' :: c :: cs) = (stringBody cs).cons (unescape c) 2 := by
  rw [stringBody, if_neg hc]

theorem stringBody_quote (cs : List Char) : stringBody ('"' :: cs) = ⟨[], 0, true⟩ := rfl

theorem stringBody_plain {c : Char} (hback : c ≠ '\\') (hquote : c ≠ '"') (cs : List Char) :
    stringBody (c :: cs) = (stringBody cs).cons [c] 1 := by
  rw [stringBody, if_neg hquote]
  · rintro rfl -
    exact hback rfl
  · rintro d rest rfl -
    exact hback rfl

/-- A string that ends is read again whatever follows it. -/
theorem stringBody_take_append (cs rest : List Char) (h : (stringBody cs).closed = true) :
    stringBody (cs.take ((stringBody cs).width + 1) ++ rest) = stringBody cs := by
  fun_induction stringBody cs with
  | case1 => cases h
  | case2 => cases h
  | case3 => cases h
  | case4 c cs hc ih =>
    rw [StringBody.cons, Nat.add_assoc, Nat.add_comm 2, List.take_succ_cons, List.take_succ_cons,
      List.cons_append, List.cons_append, stringBody_escape hc, ih h, StringBody.cons]
  | case5 cs => rfl
  | case6 c cs halone hescape hquote ih =>
    have hc : c ≠ '\\' := by
      intro hc
      cases cs with
      | nil => exact halone hc rfl
      | cons d cs => exact hescape d cs hc rfl
    rw [StringBody.cons, Nat.add_assoc, Nat.add_comm 1, List.take_succ_cons, List.cons_append,
      stringBody_plain hc hquote, ih h, StringBody.cons]

section

variable {c : Char} {cs rest : List Char} {t : Token}

theorem scanString_eq (h : (scanString cs).1 = .token t) :
    (stringBody cs).closed = true ∧
      scanString cs =
        (.token (.string (String.ofList (stringBody cs).text)), (stringBody cs).width + 1) := by
  by_cases hclosed : (stringBody cs).closed = true
  · exact ⟨hclosed, if_pos hclosed⟩
  · rw [scanString, if_neg hclosed] at h
    cases h

theorem scanString_take_append (h : (scanString cs).1 = .token t) :
    scanString (cs.take (scanString cs).2 ++ rest) = scanString cs := by
  obtain ⟨hclosed, heq⟩ := scanString_eq h
  rw [heq, scanString, stringBody_take_append cs rest hclosed]
  exact if_pos hclosed

/-! ## Pragmas -/

theorem scanPragma_eq (h : (scanPragma cs).1 = .token t) :
    ∃ text after, text.all (· ≠ '#') = true ∧
      cs = ['-', '#'] ++ text ++ ['#', '-', '\x7d'] ++ after ∧
      t = .pragma (String.ofList (Text.trimmed text)) := by
  unfold scanPragma at h
  split at h
  next rest =>
    dsimp only at h
    split at h
    next after hdrop =>
      cases h
      refine ⟨rest.takeWhile (· ≠ '#'), after, List.all_takeWhile, ?_, rfl⟩
      conv => lhs; rw [← List.takeWhile_append_dropWhile (p := (· ≠ '#')) (l := rest), hdrop]
      simp
    next => cases h
  next => cases h

theorem scanPragma_append {text : List Char} (htext : text.all (· ≠ '#') = true)
    (after : List Char) :
    scanPragma (['-', '#'] ++ text ++ ['#', '-', '\x7d'] ++ after) =
      (.token (.pragma (String.ofList (Text.trimmed text))), 2 + text.length + 3) := by
  have hcs : ['-', '#'] ++ text ++ ['#', '-', '\x7d'] ++ after =
      '-' :: '#' :: (text ++ '#' :: '-' :: '\x7d' :: after) := by simp
  have htake : (text ++ '#' :: '-' :: '\x7d' :: after).takeWhile (· ≠ '#') = text :=
    takeWhile_append_of_head htext fun c hc => by cases hc; rfl
  have hdrop : (text ++ '#' :: '-' :: '\x7d' :: after).dropWhile (· ≠ '#') =
      '#' :: '-' :: '\x7d' :: after := by
    rw [List.dropWhile_append_of_pos (List.all_eq_true.1 htext)]
    rfl
  rw [hcs, scanPragma, htake, hdrop]
  rfl

/-- A pragma that ends is read again whatever follows it. -/
theorem scanPragma_take_append (h : (scanPragma cs).1 = .token t) :
    scanPragma (cs.take (scanPragma cs).2 ++ rest) = scanPragma cs := by
  obtain ⟨text, after, htext, rfl, rfl⟩ := scanPragma_eq h
  have hlength : 2 + text.length + 3 = (['-', '#'] ++ text ++ ['#', '-', '\x7d']).length := by
    simp only [List.length_append, List.length_cons, List.length_nil]
  rw [scanPragma_append htext, hlength, List.take_left, scanPragma_append htext, hlength]

/-! ## Names and numbers -/

theorem intPiece_eq_token (h : intPiece cs = .token t) :
    ∃ n, t = .int n := by
  rw [intPiece] at h
  cases hread : Text.readInt64? cs with
  | none =>
    rw [hread] at h
    cases h
  | some n =>
    rw [hread] at h
    cases h
    exact ⟨n, rfl⟩

theorem scanTypeVar_cons (hc : isNameStart c = true) :
    scanTypeVar (c :: cs) =
      (.token (.typeVar (String.ofList (c :: cs.takeWhile isNameChar))),
        1 + (cs.takeWhile isNameChar).length) :=
  if_pos hc

theorem scanTypeVar_eq (h : (scanTypeVar cs).1 = .token t) :
    ∃ d ds, isNameStart d = true ∧ cs = d :: ds ∧
      t = .typeVar (String.ofList (d :: ds.takeWhile isNameChar)) := by
  cases cs with
  | nil => cases h
  | cons d ds =>
    by_cases hd : isNameStart d = true
    · rw [scanTypeVar_cons hd] at h
      cases h
      exact ⟨d, ds, hd, rfl, rfl⟩
    · rw [scanTypeVar, if_neg hd] at h
      cases h

theorem scanTypeVar_take_append (h : (scanTypeVar cs).1 = .token t)
    (hrest : ∀ d ∈ rest.head?, isNameChar d = false) :
    scanTypeVar (cs.take (scanTypeVar cs).2 ++ rest) = scanTypeVar cs := by
  obtain ⟨d, ds, hd, rfl, -⟩ := scanTypeVar_eq h
  rw [scanTypeVar_cons hd, Nat.add_comm 1, List.take_succ_cons, List.cons_append,
    scanTypeVar_cons hd, takeWhile_take_append ds hrest, Nat.add_comm 1]

theorem scanSymbol_width (c : Char) (cs : List Char) :
    (scanSymbol c cs).2 = (cs.takeWhile isSymbolChar).length := by
  rw [scanSymbol]
  split <;> rfl

theorem scanSymbol_take_append (hrest : ∀ d ∈ rest.head?, isSymbolChar d = false) :
    scanSymbol c (cs.take (scanSymbol c cs).2 ++ rest) = scanSymbol c cs := by
  rw [scanSymbol_width, scanSymbol, takeWhile_take_append cs hrest, scanSymbol]

theorem scanSymbol_eq (h : (scanSymbol c cs).1 = .token t) :
    (∃ n, t = .int n) ∨ t = .symbol (String.ofList (c :: cs.takeWhile isSymbolChar)) := by
  rw [scanSymbol] at h
  split at h
  next => exact .inl (intPiece_eq_token h)
  next =>
    cases h
    exact .inr rfl

/-! ## Readers -/

/-- A number without a sign. -/
def scanDigits (c : Char) (cs : List Char) : Piece × Nat :=
  (intPiece (c :: cs.takeWhile Char.isDigit), (cs.takeWhile Char.isDigit).length)

/-- The ways to read a text, by its first character. -/
inductive Reader (c : Char) : (List Char → Piece × Nat) → Prop
  | blank : c.isWhitespace = true →
      Reader c fun cs => (.blank, (cs.takeWhile Char.isWhitespace).length)
  | comment : c = ';' → Reader c fun cs => (.blank, (cs.takeWhile (· ≠ '\n')).length)
  | mark {t : Token} : t.isOpenEnded = false → Reader c fun _ => (.token t, 0)
  | string : c = '"' → Reader c scanString
  | pragma : c = '\x7b' → Reader c scanPragma
  | typeVar : c = '\'' → Reader c scanTypeVar
  | digits : c.isDigit = true → Reader c (scanDigits c)
  | symbol : isSymbolStart c = true → Reader c (scanSymbol c)
  | bad : Reader c fun _ => (.bad, 0)

theorem Reader.ite {p : Prop} [Decidable p] {f g : List Char → Piece × Nat} (hf : p → Reader c f)
    (hg : Reader c g) : Reader c fun cs => if p then f cs else g cs := by
  by_cases h : p
  · simp only [if_pos h]
    exact hf h
  · simp only [if_neg h]
    exact hg

/-- The first character alone says how a text is read. -/
theorem reader_scan (c : Char) : Reader c (scan c) :=
  .ite .blank <| .ite .comment <| .ite (fun _ => .mark rfl) <| .ite (fun _ => .mark rfl) <|
    .ite (fun _ => .mark rfl) <| .ite (fun _ => .mark rfl) <| .ite .string <| .ite .pragma <|
    .ite .typeVar <| .ite .digits <| .ite .symbol .bad

/-- A token is read again wherever its characters stand, unless it goes on there. -/
theorem scan_take_append (h : (scan c cs).1 = .token t) (hrest : t.Separate rest) :
    scan c (cs.take (scan c cs).2 ++ rest) = scan c cs := by
  have hread := reader_scan c
  generalize scan c = read at h hread ⊢
  cases hread with
  | blank => cases h
  | comment => cases h
  | mark => rfl
  | string => exact scanString_take_append h
  | pragma => exact scanPragma_take_append h
  | typeVar =>
    have hname : ∀ d ∈ rest.head?, isNameChar d = false := by
      obtain ⟨_, _, -, -, rfl⟩ := scanTypeVar_eq h
      exact hrest.head rfl fun _ => isSymbolChar_of_isNameChar
    exact scanTypeVar_take_append h hname
  | digits =>
    obtain ⟨n, rfl⟩ := intPiece_eq_token h
    have hdigits := hrest.head rfl fun _ => isSymbolChar_of_isDigit
    rw [scanDigits, scanDigits, takeWhile_take_append cs hdigits]
  | symbol =>
    refine scanSymbol_take_append (hrest ?_)
    obtain ⟨n, rfl⟩ | rfl := scanSymbol_eq h <;> rfl
  | bad => cases h

/-! ## Last characters and names -/

theorem of_mem_getLast?_takeWhile {p : Char → Bool} {d : Char} (hc : p c = true)
    (hd : d ∈ (c :: cs.takeWhile p).getLast?) : p d = true := by
  rcases List.mem_cons.1 (List.mem_of_mem_getLast? hd) with rfl | hmem
  · exact hc
  · exact List.all_eq_true.1 List.all_takeWhile d hmem

/-- A token that could go on ends with a character that it could go on with. -/
theorem isSymbolChar_of_mem_getLast? (h : (scan c cs).1 = .token t) (ht : t.isOpenEnded = true) :
    ∀ d ∈ (c :: cs.take (scan c cs).2).getLast?, isSymbolChar d = true := by
  have hread := reader_scan c
  generalize scan c = read at h hread ⊢
  intro d hd
  cases hread with
  | blank => cases h
  | comment => cases h
  | mark hmark =>
    cases h
    rw [hmark] at ht
    cases ht
  | string =>
    rw [(scanString_eq h).2] at h
    cases h
    cases ht
  | pragma =>
    obtain ⟨text, after, -, -, rfl⟩ := scanPragma_eq h
    cases ht
  | typeVar =>
    obtain ⟨e, es, he, rfl, -⟩ := scanTypeVar_eq h
    rw [scanTypeVar_cons he, Nat.add_comm 1, List.take_succ_cons, take_length_takeWhile,
      List.getLast?_cons_cons] at hd
    have he : isNameChar e = true := by rw [isNameChar, he, Bool.true_or]
    exact isSymbolChar_of_isNameChar (of_mem_getLast?_takeWhile he hd)
  | digits hc =>
    rw [scanDigits, take_length_takeWhile] at hd
    exact isSymbolChar_of_isDigit (of_mem_getLast?_takeWhile hc hd)
  | symbol hc =>
    rw [scanSymbol_width, take_length_takeWhile] at hd
    have hc : isSymbolChar c = true := by
      rw [isSymbolChar, hc, Bool.true_or, Bool.true_or, Bool.true_or]
    exact of_mem_getLast?_takeWhile hc hd
  | bad => cases h

/-- The text of a name is the name, that of a type variable has an apostrophe in front. -/
def nameText? : Token → Option (List Char)
  | .symbol name => some name.toList
  | .typeVar name => some ('\'' :: name.toList)
  | _ => none

/-- A name alone says which text it is read from. -/
theorem eq_of_mem_nameText? (h : (scan c cs).1 = .token t) {text : List Char}
    (htext : text ∈ t.nameText?) : c :: cs.take (scan c cs).2 = text := by
  have hread := reader_scan c
  generalize scan c = read at h hread ⊢
  cases hread with
  | blank => cases h
  | comment => cases h
  | mark hmark =>
    cases h
    cases t with
    | symbol => cases hmark
    | typeVar => cases hmark
    | _ => cases htext
  | string =>
    rw [(scanString_eq h).2] at h
    cases h
    cases htext
  | pragma =>
    obtain ⟨_, _, -, -, rfl⟩ := scanPragma_eq h
    cases htext
  | typeVar hc =>
    obtain ⟨d, ds, hd, rfl, rfl⟩ := scanTypeVar_eq h
    cases htext
    rw [scanTypeVar_cons hd, Nat.add_comm 1, List.take_succ_cons, take_length_takeWhile, hc,
      String.toList_ofList]
  | digits =>
    obtain ⟨n, rfl⟩ := intPiece_eq_token h
    cases htext
  | symbol =>
    obtain ⟨n, rfl⟩ | rfl := scanSymbol_eq h
    · cases htext
    · cases htext
      rw [scanSymbol_width, take_length_takeWhile, String.toList_ofList]
  | bad => cases h

/-! ## Widths -/

theorem stringBody_width_le (cs : List Char) :
    (stringBody cs).width + (stringBody cs).closed.toNat ≤ cs.length := by
  fun_induction stringBody cs with
  | case1 => exact Nat.zero_le _
  | case2 => exact Nat.zero_le _
  | case3 => exact Nat.zero_le _
  | case4 c cs hc ih =>
    simp only [StringBody.cons, List.length_cons]
    omega
  | case5 cs => exact Nat.succ_le_succ (Nat.zero_le _)
  | case6 c cs halone hescape hquote ih =>
    simp only [StringBody.cons, List.length_cons]
    omega

theorem length_takeWhile_le (p : Char → Bool) (cs : List Char) :
    (cs.takeWhile p).length ≤ cs.length :=
  (List.takeWhile_prefix p).length_le

theorem scanPragma_le (cs : List Char) : (scanPragma cs).2 ≤ cs.length := by
  unfold scanPragma
  split
  next rest =>
    have hrest : (rest.takeWhile (· ≠ '#')).length + (rest.dropWhile (· ≠ '#')).length =
        rest.length := by
      rw [← List.length_append, List.takeWhile_append_dropWhile]
    dsimp only [List.length_cons]
    split
    next hdrop =>
      rw [hdrop] at hrest
      simp only [List.length_cons] at hrest
      dsimp only
      omega
    next =>
      dsimp only
      omega
  next => exact Nat.zero_le _

theorem scanTypeVar_le (cs : List Char) : (scanTypeVar cs).2 ≤ cs.length := by
  cases cs with
  | nil => exact Nat.le_refl 0
  | cons c cs =>
    by_cases hc : isNameStart c = true
    · rw [scanTypeVar_cons hc, List.length_cons, Nat.add_comm cs.length]
      exact Nat.add_le_add_left (length_takeWhile_le _ cs) 1
    · rw [scanTypeVar, if_neg hc]
      exact Nat.zero_le _

/-- A piece does not reach beyond the text. -/
theorem scan_le (c : Char) (cs : List Char) : (scan c cs).2 ≤ cs.length := by
  have hread := reader_scan c
  generalize scan c = read at hread ⊢
  cases hread with
  | blank => exact length_takeWhile_le _ cs
  | comment => exact length_takeWhile_le _ cs
  | mark => exact Nat.zero_le _
  | string =>
    have hbody := stringBody_width_le cs
    rw [scanString]
    split
    next hclosed => rwa [hclosed] at hbody
    next => exact Nat.le_trans (Nat.le_add_right _ _) hbody
  | pragma => exact scanPragma_le cs
  | typeVar => exact scanTypeVar_le cs
  | digits => exact length_takeWhile_le _ cs
  | symbol =>
    rw [scanSymbol_width]
    exact length_takeWhile_le _ cs
  | bad => exact Nat.zero_le _

end

end PolyLambda.Token
