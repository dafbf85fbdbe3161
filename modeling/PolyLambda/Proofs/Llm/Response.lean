import PolyLambda.Llm.Response
import PolyLambda.Proofs.Token.Literal

/-!
# Answers of a model

A response is read as a value of the type that was asked for, or not at all
(`answers_of_readResponse?`); and it is read wherever it is what one would write for the value, with
any blanks around it: the digits of an integer, a string between quotes, the name of a constructor.
Blanks go first and quotes after them, so nothing inside the quotes is lost, not even blanks and
more quotes (`readResponse?_sound_and_complete`).
-/

namespace PolyLambda

/-! ## Blanks around a text -/

namespace Text

/-- The text is nothing but blanks. -/
def IsBlankText (s : String) : Prop :=
  ∀ c ∈ s.toList, isBlank c = true

instance (s : String) : Decidable (IsBlankText s) :=
  List.decidableBAll (fun c => isBlank c = true) s.toList

/-- No blank stands at an end of the text. -/
def Unpadded (cs : List Char) : Prop :=
  (∀ c ∈ cs.head?, isBlank c = false) ∧ ∀ c ∈ cs.getLast?, isBlank c = false

theorem unpadded_of_forall {cs : List Char} (h : ∀ c ∈ cs, isBlank c = false) : Unpadded cs :=
  ⟨fun c hc => h c (List.mem_of_mem_head? hc), fun c hc => h c (List.mem_of_mem_getLast? hc)⟩

/-- A text of a class is dropped up to a character that is not of the class. -/
theorem dropWhile_append_of_head {p : Char → Bool} {cs rest : List Char}
    (hcs : ∀ c ∈ cs, p c = true)
    (hrest : ∀ c ∈ rest.head?, p c = false) : (cs ++ rest).dropWhile p = rest := by
  rw [List.dropWhile_append_of_pos hcs]
  cases rest with
  | nil => rfl
  | cons c rest => exact List.dropWhile_cons_of_neg (Bool.eq_false_iff.1 (hrest c rfl))

/-- Blanks around a text do not matter. -/
theorem trimmed_append {before cs after : List Char} (hbefore : ∀ c ∈ before, isBlank c = true)
    (hafter : ∀ c ∈ after, isBlank c = true) (hcs : Unpadded cs) :
    trimmed (before ++ (cs ++ after)) = cs := by
  have hback : ∀ c ∈ after.reverse, isBlank c = true := fun c hc => hafter c (List.mem_reverse.1 hc)
  have hlast : ∀ c ∈ cs.reverse.head?, isBlank c = false := by
    rw [List.head?_reverse]
    exact hcs.2
  cases cs with
  | nil =>
    have hall : ∀ c ∈ before ++ after, isBlank c = true :=
      List.forall_mem_append.2 ⟨hbefore, hafter⟩
    rw [List.nil_append, trimmed, ← List.append_nil (before ++ after),
      dropWhile_append_of_head hall (by simp)]
    rfl
  | cons c cs =>
    have hhead : ∀ d ∈ (c :: cs ++ after).head?, isBlank d = false := hcs.1
    rw [trimmed, dropWhile_append_of_head hbefore hhead, List.reverse_append,
      dropWhile_append_of_head hback hlast, List.reverse_reverse]

theorem isBlank_of_range {c : Char} (hlow : 0x20 < c.toNat) (hhigh : c.toNat < 0x7f) :
    isBlank c = false := by
  have hranges : ∀ range ∈ blankRanges, range.2 ≤ 0x20 ∨ 0x7f ≤ range.1 := by decide
  refine List.any_eq_false.2 fun range hrange => ?_
  have hrange := hranges range hrange
  simp only [Bool.and_eq_true, decide_eq_true_eq]
  omega

/-- No character of a name or a number is a blank. -/
theorem isBlank_of_isSymbolChar {c : Char} (h : Token.isSymbolChar c = true) :
    isBlank c = false := by
  have hmarks :
    ['$', '+', '-', '*', '/', '<', '>', '=', '!', '&', '|', '^', '~'].any isBlank = false := by
    decide
  have hclass {low high : Char} (hlow : 0x20 < low.toNat) (hhigh : high.toNat < 0x7f)
      (hc : c.val ≥ low.val ∧ c.val ≤ high.val) : isBlank c = false :=
    isBlank_of_range (Nat.lt_of_lt_of_le hlow hc.1) (Nat.lt_of_le_of_lt hc.2 hhigh)
  have hupper (h : c.isUpper = true) : isBlank c = false :=
    hclass (by decide) (by decide) (of_decide_eq_true h)
  have hlower (h : c.isLower = true) : isBlank c = false := by
    obtain ⟨hlow, hhigh⟩ := Bool.and_eq_true_iff.1 h
    exact hclass (by decide) (by decide) ⟨of_decide_eq_true hlow, of_decide_eq_true hhigh⟩
  have hdigit (h : c.isDigit = true) : isBlank c = false := by
    obtain ⟨hlow, hhigh⟩ := Bool.and_eq_true_iff.1 h
    exact hclass (by decide) (by decide) ⟨of_decide_eq_true hlow, of_decide_eq_true hhigh⟩
  simp only [Token.isSymbolChar, Token.isSymbolStart, Token.isNameStart, Bool.or_eq_true,
    decide_eq_true_eq] at h
  obtain (((((h | rfl) | h) | h) | rfl) | rfl) := h
  · exact (Bool.or_eq_true_iff.1 h).elim hupper hlower
  · decide
  · exact eq_false_of_ne_true (List.any_eq_false.1 hmarks c h)
  · exact hdigit h
  · decide
  · decide

theorem unpadded_decimal (n : Int64) : Unpadded (decimal n).toList := by
  have hdigits : ∀ c ∈ Nat.toDigits 10 n.toInt.natAbs, isBlank c = false := fun c hc =>
    isBlank_of_isSymbolChar (Token.isSymbolChar_of_isDigit
      (Nat.isDigit_of_mem_toDigits (by decide) (Nat.le_refl 10) hc))
  refine unpadded_of_forall ?_
  rw [decimal, String.toList_ofList]
  split
  next => exact List.forall_mem_cons.2 ⟨by decide, hdigits⟩
  next => exact hdigits

theorem unpadded_quoted (s : List Char) : Unpadded ('"' :: (s ++ ['"'])) := by
  constructor
  · rintro _ ⟨⟩
    decide
  · rw [← List.cons_append, List.getLast?_concat]
    rintro _ ⟨⟩
    decide

/-- The decimal spelling of a number is read as the number. -/
theorem readInt64?_decimal (n : Int64) : readInt64? (decimal n).toList = some n := by
  rw [decimal, String.toList_ofList]
  split
  next => exact readInt64?_neg_toDigits (by omega)
  next => exact readInt64?_toDigits (by omega)

end Text

namespace Token

/-- A name is read as a symbol from its own characters, which are those of a symbol. -/
theorem Writable.isSymbolChar {name : String} (h : Writable (.symbol name)) :
    ∀ d ∈ name.toList, isSymbolChar d = true := by
  obtain ⟨text, c, cs, -, hscan⟩ := h
  replace hscan := congrArg Prod.fst hscan
  have hread := reader_scan c
  generalize scan c = read at hscan hread
  cases hread with
  | blank => cases hscan
  | comment => cases hscan
  | mark hmark =>
    cases hscan
    cases hmark
  | string => cases hscan.symm.trans (congrArg Prod.fst (scanString_eq hscan).2)
  | pragma => obtain ⟨_, _, -, -, ⟨⟩⟩ := scanPragma_eq hscan
  | typeVar => obtain ⟨_, _, -, -, ⟨⟩⟩ := scanTypeVar_eq hscan
  | digits => obtain ⟨_, ⟨⟩⟩ := intPiece_eq_token hscan
  | symbol hc =>
    obtain ⟨_, ⟨⟩⟩ | ⟨⟨⟩⟩ := scanSymbol_eq hscan
    rw [String.toList_ofList]
    refine List.forall_mem_cons.2 ⟨?_, List.all_eq_true.1 List.all_takeWhile⟩
    rw [Token.isSymbolChar, hc, Bool.true_or, Bool.true_or, Bool.true_or]
  | bad => cases hscan

theorem Writable.unpadded {name : String} (h : Writable (.symbol name)) :
    Text.Unpadded name.toList :=
  Text.unpadded_of_forall fun c hc => Text.isBlank_of_isSymbolChar (h.isSymbolChar c hc)

end Token

theorem unquoted_quoted (s : List Char) : unquoted ('"' :: (s ++ ['"'])) = s := by
  rw [unquoted, if_pos List.getLast?_concat, List.dropLast_concat]

/-! ## Values for a type -/

/-- The value is one that a model may answer where the type is asked for. -/
inductive Answers (dataTypes : Table DataDecl) : Ty → Value → Prop
  | int (n : Int64) : Answers dataTypes .int (.int n)
  | string (s : String) : Answers dataTypes .string (.string s)
  | constructor {name : String} {args : List Ty} {d : DataDecl} {c : ConstructorDecl} :
    dataTypes.get? name = some d → (∀ other ∈ d.constructors, other.fields = []) →
    c ∈ d.constructors →
      Answers dataTypes (.data name args) (.saturated c.name [])

/-- The types that a model may be asked for: integers, strings, and the data types without
fields. -/
def Ty.Answerable (dataTypes : Table DataDecl) (t : Ty) : Prop :=
  t = .int ∨ t = .string ∨
    ∃ name args d, t = .data name args ∧ dataTypes.get? name = some d ∧
      ∀ c ∈ d.constructors, c.fields = []

theorem DataDecl.readConstructor?_eq_some_iff {d : DataDecl} {text : String} {v : Value} :
    d.readConstructor? text = some v ↔
      (∀ c ∈ d.constructors, c.fields = []) ∧
        ∃ c ∈ d.constructors, c.name = text ∧ v = .saturated c.name [] := by
  rw [readConstructor?, ← isEnumeration_iff]
  constructor
  · intro h
    split at h
    next hboth =>
      cases h
      obtain ⟨hfields, hlists⟩ := Bool.and_eq_true_iff.1 hboth
      obtain ⟨c, hc, rfl⟩ := lists_iff.1 hlists
      exact ⟨hfields, c, hc, rfl, rfl⟩
    next => cases h
  · rintro ⟨hfields, c, hc, rfl, rfl⟩
    exact if_pos (Bool.and_eq_true_iff.2 ⟨hfields, lists_iff.2 ⟨c, hc, rfl⟩⟩)

section

variable {dataTypes : Table DataDecl} {t : Ty} {response : String} {v : Value}

theorem readResponse?_int (dataTypes : Table DataDecl) (response : String) :
    readResponse? dataTypes .int response =
      (Text.readInt64? (Text.trimmed response.toList)).map .int := rfl

theorem readResponse?_string (dataTypes : Table DataDecl) (response : String) :
    readResponse? dataTypes .string response =
      some (.string (String.ofList (unquoted (Text.trimmed response.toList)))) := rfl

theorem readResponse?_data (dataTypes : Table DataDecl) (name : String) (args : List Ty)
    (response : String) :
    readResponse? dataTypes (.data name args) response =
      (dataTypes.get? name).bind fun d =>
        d.readConstructor? (String.ofList (Text.trimmed response.toList)) := rfl

/-- What is read is a value of the type that was asked for. -/
theorem answers_of_readResponse? (h : readResponse? dataTypes t response = some v) :
    Answers dataTypes t v := by
  simp only [readResponse?] at h
  split at h
  next =>
    obtain ⟨n, -, rfl⟩ := Option.map_eq_some_iff.1 h
    exact .int n
  next =>
    cases h
    exact .string _
  next =>
    obtain ⟨d, hd, h⟩ := Option.bind_eq_some_iff.1 h
    obtain ⟨hfields, c, hc, -, rfl⟩ := DataDecl.readConstructor?_eq_some_iff.1 h
    exact .constructor hd hfields hc
  next => cases h

theorem Answers.answerable (h : Answers dataTypes t v) : t.Answerable dataTypes := by
  cases h with
  | int => exact .inl rfl
  | string => exact .inr (.inl rfl)
  | constructor hd hfields _ => exact .inr (.inr ⟨_, _, _, rfl, hd, hfields⟩)

end

/-- The characters of a text with blanks around it. -/
theorem trimmed_toList_append {before after : String} (hbefore : Text.IsBlankText before)
    (hafter : Text.IsBlankText after) {s : String} (hs : Text.Unpadded s.toList) :
    Text.trimmed (before ++ s ++ after).toList = s.toList := by
  rw [String.toList_append, String.toList_append, List.append_assoc]
  exact Text.trimmed_append hbefore hafter hs

/-- A response is read as a value of the type that was asked for, and as none if there are no such
values; and it is read if it is a number, a quoted string or the name of a constructor of an
enumeration, with any blanks around it. -/
theorem readResponse?_sound_and_complete (dataTypes : Table DataDecl) :
    (∀ t response v, readResponse? dataTypes t response = some v → Answers dataTypes t v) ∧
    (∀ t response, ¬ t.Answerable dataTypes → readResponse? dataTypes t response = none) ∧
    ∀ before after, Text.IsBlankText before → Text.IsBlankText after →
      (∀ n, readResponse? dataTypes .int (before ++ Text.decimal n ++ after) = some (.int n)) ∧
      (∀ s, readResponse? dataTypes .string (before ++ ("\"" ++ s ++ "\"") ++ after) =
        some (.string s)) ∧
      ∀ name args d, dataTypes.get? name = some d → (∀ c ∈ d.constructors, c.fields = []) →
        ∀ c ∈ d.constructors, (Token.symbol c.name).Writable →
          readResponse? dataTypes (.data name args) (before ++ c.name ++ after) =
            some (.saturated c.name []) := by
  refine ⟨fun t response v => answers_of_readResponse?, fun t response ht => ?_, ?_⟩
  · cases hread : readResponse? dataTypes t response with
    | none => rfl
    | some v => exact absurd (answers_of_readResponse? hread).answerable ht
  · intro before after hbefore hafter
    refine ⟨fun n => ?_, fun s => ?_, fun name args d hd hfields c hc hname => ?_⟩
    · rw [readResponse?_int, trimmed_toList_append hbefore hafter (Text.unpadded_decimal n),
        Text.readInt64?_decimal]
      rfl
    · have hquoted : ("\"" ++ s ++ "\"").toList = '"' :: (s.toList ++ ['"']) := by
        rw [String.toList_append, String.toList_append, List.append_assoc]
        rfl
      rw [readResponse?_string, trimmed_toList_append hbefore hafter
        (hquoted ▸ Text.unpadded_quoted s.toList), hquoted, unquoted_quoted, String.ofList_toList]
    · rw [readResponse?_data, hd, trimmed_toList_append hbefore hafter hname.unpadded,
        String.ofList_toList]
      exact DataDecl.readConstructor?_eq_some_iff.2 ⟨hfields, c, hc, rfl, rfl⟩

/-- The states of a piece of matter. No constructor has a field, although the type has a
parameter. -/
def matterTypes : Table DataDecl :=
  Table.empty.insert "Matter" ⟨"Matter", ["substance"], [⟨"Solid", []⟩, ⟨"Liquid", []⟩]⟩

/-- Three quotes are the string that is one quote, and blanks are those of Unicode. -/
theorem readResponse?_sound_and_complete_matter :
    readResponse? matterTypes .int "\u00a0-9223372036854775808\n" = some (.int Int64.minValue) ∧
      readResponse? matterTypes .string "\u00a0\"\"\"\n" = some (.string "\"") ∧
      readResponse? matterTypes (.data "Matter" [.int]) "\u00a0Liquid\n" =
        some (.saturated "Liquid" []) ∧
      Answers matterTypes (.data "Matter" [.int]) (.saturated "Liquid" []) ∧
      readResponse? matterTypes (.arrow .int .int) "1" = none := by
  obtain ⟨hsound, hnone, hread⟩ := readResponse?_sound_and_complete matterTypes
  obtain ⟨hint, hstring, hdata⟩ := hread "\u00a0" "\n" (by decide +kernel) (by decide +kernel)
  have hname : (Token.symbol "Liquid").Writable := ⟨"Liquid".toList, _, _, rfl, by decide +kernel⟩
  have hliquid := hdata "Matter" [.int] _ rfl (by simp) ⟨"Liquid", []⟩ (by simp) hname
  refine ⟨hint Int64.minValue, hstring "\"", hliquid, hsound _ _ _ hliquid, hnone _ _ ?_⟩
  rintro (h | h | ⟨_, _, _, h, -⟩) <;> cases h

end PolyLambda
