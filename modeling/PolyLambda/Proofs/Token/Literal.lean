import Mathlib.Data.List.TakeWhile
import PolyLambda.Proofs.Token.Written
import PolyLambda.Text.Quoted

/-!
# Numbers and strings read back

A number is read back from its decimal spelling, the most negative one included (`writes_decimal`).
Quoted text is read back if each of its characters is shown as itself or by one of the escapes that
the reader knows (`writes_quote`): it knows no code points in braces, and no escape for the null
character.
-/

namespace PolyLambda

namespace Text

/-! ## Numbers -/

theorem readNat?_toDigits (n : Nat) : readNat? (Nat.toDigits 10 n) = some n := by
  have hdigits : (Nat.toDigits 10 n).all Char.isDigit = true :=
    List.all_eq_true.2 fun _ => Nat.isDigit_of_mem_toDigits (by decide) (Nat.le_refl 10)
  rw [readNat?, if_pos ⟨Nat.toDigits_ne_nil, hdigits⟩]
  exact congrArg some Nat.ofDigitChars_ten_toDigits

/-- A digit is no sign. -/
theorem splitSign_of_isDigit {c : Char} (hc : c.isDigit = true) (cs : List Char) :
    splitSign (c :: cs) = (false, c :: cs) := by
  unfold splitSign
  split
  next heq =>
    cases heq
    cases hc
  next heq =>
    cases heq
    cases hc
  next => rfl

theorem toInt64?_toInt (n : Int64) : toInt64? n.toInt = some n := by
  rw [toInt64?, if_pos ⟨n.minValue_le_toInt, n.toInt_le⟩, n.ofInt_toInt]

/-- The decimal spelling of a number that is not negative. -/
theorem readInt64?_toDigits {n : Int64} {k : Nat} (hn : n.toInt = k) :
    readInt64? (Nat.toDigits 10 k) = some n := by
  obtain ⟨c, cs, hcs⟩ := List.exists_cons_of_ne_nil (Nat.toDigits_ne_nil (b := 10) (n := k))
  have hc : c.isDigit = true := by
    refine Nat.isDigit_of_mem_toDigits (by decide) (Nat.le_refl 10) (b := 10) (n := k) ?_
    rw [hcs]
    exact List.mem_cons_self
  have hread : readInt? (Nat.toDigits 10 k) = some n.toInt := by
    rw [readInt?, hcs, splitSign_of_isDigit hc, ← hcs]
    dsimp only
    rw [readNat?_toDigits, hn]
    rfl
  rw [readInt64?, hread, Option.bind_some, toInt64?_toInt]

theorem readInt64?_neg_toDigits {n : Int64} {k : Nat} (hn : n.toInt = -k) :
    readInt64? ('-' :: Nat.toDigits 10 k) = some n := by
  have hread : readInt? ('-' :: Nat.toDigits 10 k) = some n.toInt := by
    rw [readInt?, splitSign]
    dsimp only
    rw [readNat?_toDigits, hn]
    rfl
  rw [readInt64?, hread, Option.bind_some, toInt64?_toInt]

end Text

namespace Token

/-- A text that begins with a digit is read as a number. -/
theorem scan_of_isDigit {c : Char} (hc : c.isDigit = true) (cs : List Char) :
    scan c cs = scanDigits c cs := by
  have hne {d : Char} (hd : d.isDigit = false) : c ≠ d := by
    rintro rfl
    rw [hd] at hc
    cases hc
  have hblank : ¬ c.isWhitespace = true := by
    intro h
    simp only [Char.isWhitespace, Bool.or_eq_true, decide_eq_true_eq] at h
    rcases h with ((h | h) | h) | h <;> exact hne (by rfl) h
  rw [scan, if_neg hblank, if_neg (hne rfl), if_neg (hne rfl), if_neg (hne rfl), if_neg (hne rfl),
    if_neg (hne rfl), if_neg (hne rfl), if_neg (hne rfl), if_neg (hne rfl), if_pos hc]
  rfl

theorem scan_minus (cs : List Char) : scan '-' cs = scanSymbol '-' cs := rfl

theorem spelled_digits {digits : List Char} {n : Int64} (hne : digits ≠ [])
    (hdigits : digits.all Char.isDigit = true) (hread : Text.readInt64? digits = some n) :
    Word.Spelled ⟨digits, .int n⟩ := by
  obtain ⟨c, cs, rfl⟩ := List.exists_cons_of_ne_nil hne
  rw [List.all_cons, Bool.and_eq_true] at hdigits
  refine ⟨c, cs, rfl, ?_⟩
  have htail : cs.takeWhile Char.isDigit = cs :=
    List.takeWhile_eq_self_iff.2 (List.all_eq_true.1 hdigits.2)
  rw [scan_of_isDigit hdigits.1, scanDigits, htail, intPiece, hread]
  rfl

theorem spelled_minus {digits : List Char} {n : Int64} (hne : digits ≠ [])
    (hdigits : digits.all Char.isDigit = true) (hread : Text.readInt64? ('-' :: digits) = some n) :
    Word.Spelled ⟨'-' :: digits, .int n⟩ := by
  have htail : digits.takeWhile isSymbolChar = digits :=
    List.takeWhile_eq_self_iff.2 fun c hc =>
    isSymbolChar_of_isDigit (List.all_eq_true.1 hdigits c hc)
  refine ⟨'-', digits, rfl, ?_⟩
  rw [scan_minus, scanSymbol, htail, if_pos ⟨rfl, hne, hdigits⟩, intPiece, hread]
  rfl

theorem writes_decimal (n : Int64) : Writes (Text.decimal n).toList [.int n] := by
  have hdigits : (Nat.toDigits 10 n.toInt.natAbs).all Char.isDigit = true :=
    List.all_eq_true.2 fun _ => Nat.isDigit_of_mem_toDigits (by decide) (Nat.le_refl 10)
  rw [Text.decimal, String.toList_ofList]
  split
  next hneg =>
    exact writes_word (spelled_minus Nat.toDigits_ne_nil hdigits
      (Text.readInt64?_neg_toDigits (by omega)))
  next hpos =>
    exact writes_word (spelled_digits Nat.toDigits_ne_nil hdigits
      (Text.readInt64?_toDigits (by omega)))

end Token

/-! ## Strings -/

/-- Quoted text shows the character as itself or by an escape that is read. -/
def Text.ReadsBack (c : Char) : Prop :=
  quoteChar c ∈ [[c], ['\\', 'n'], ['\\', 't'], ['\\', 'r'], ['\\', '"'], ['\\', '\\']]

instance (c : Char) : Decidable (Text.ReadsBack c) :=
  inferInstanceAs (Decidable (_ ∈ _))

namespace Token

/-- One character is read back from how it stands inside quotes. -/
theorem stringBody_quoteChar {c : Char} (hc : Text.ReadsBack c) (cs : List Char) :
    stringBody (Text.quoteChar c ++ cs) = (stringBody cs).cons [c] (Text.quoteChar c).length := by
  by_cases hnull : c = '\x00'
  · subst hnull
    exact absurd hc (by decide)
  by_cases htab : c = '\t'
  · subst htab
    exact stringBody_escape (by decide) cs
  by_cases hreturn : c = '\r'
  · subst hreturn
    exact stringBody_escape (by decide) cs
  by_cases hline : c = '\n'
  · subst hline
    exact stringBody_escape (by decide) cs
  by_cases hback : c = '\\'
  · subst hback
    exact stringBody_escape (by decide) cs
  by_cases hquote : c = '"'
  · subst hquote
    exact stringBody_escape (by decide) cs
  have hshown : Text.quoteChar c =
      if Text.isPrintable c then [c] else ['\\', 'u', '\x7b'] ++ Text.hexDigits c ++ ['\x7d'] := by
    rw [Text.quoteChar, if_neg hnull, if_neg htab, if_neg hreturn, if_neg hline, if_neg hback,
      if_neg hquote]
  by_cases hprint : Text.isPrintable c = true
  · rw [hshown, if_pos hprint]
    exact stringBody_plain hback hquote cs
  · rw [Text.ReadsBack, hshown, if_neg hprint] at hc
    simp at hc

theorem stringBody_quoteBody {text : List Char} (h : ∀ c ∈ text, Text.ReadsBack c)
    (rest : List Char) :
    stringBody
    (Text.quoteBody text ++ '"' :: rest) = ⟨text, (Text.quoteBody text).length, true⟩ := by
  induction text with
  | nil => exact stringBody_quote rest
  | cons c text ih =>
    rw [List.forall_mem_cons] at h
    rw [Text.quoteBody_cons, List.append_assoc, stringBody_quoteChar h.1, ih h.2,
      List.length_append]
    rfl

theorem writes_quote {text : String} (h : ∀ c ∈ text.toList, Text.ReadsBack c) :
    Writes (Text.quote text).toList [.string text] := by
  rw [Text.quote, String.toList_ofList]
  refine writes_word ⟨'"', Text.quoteBody text.toList ++ ['"'], rfl, ?_⟩
  change scanString _ = _
  rw [scanString, stringBody_quoteBody h, List.length_append]
  exact congrArg (fun t => (Piece.token (.string t), _)) String.ofList_toList

end Token

end PolyLambda
