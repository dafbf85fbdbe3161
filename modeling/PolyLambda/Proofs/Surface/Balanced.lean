import PolyLambda.Proofs.Surface.Declaration
import PolyLambda.Proofs.Surface.Local

/-!
# Every form stays inside its parentheses

The parsers of types, of expressions and of what stands in a declaration are compared with
themselves on a longer input (`Parser.Local`). There is one lemma for each form, which says that its
parser stays inside if the parsers of its parts do; the recursion is tied by induction on the length
of the input, which also bounds the nesting.

A declaration closes the parenthesis that it opens even if it is malformed
(`Parser.local_declarationForm`), because it skips what it has not read.
-/

namespace PolyLambda.Surface.Parser

open Grammar

variable {α β : Type} {b : Tokens} {n k f : Nat} {l : α → Nat}

/-! ## Types -/

theorem balanced_typeVars : Balanced b n typeVars typeVars :=
  .choice chooses_typeVars chooses_typeVars
    (balanced_typeVar.untilClose accepts_typeVar proper_isTypeVar).enclosed
    (balanced_typeVar.map fun name => [name])

section

variable {type type' : Parser TypeExpr} (haccepts : Accepts n type IsType)
  (htype : Balanced b n type type') (o : Span)

include haccepts htype in
theorem balanced_arrowForm : Balanced b n (arrowForm type o) (arrowForm type' o) := by
  refine (htype.untilClose haccepts proper_isType).bind fun types => ?_
  obtain _ | ⟨first, _ | ⟨second, others⟩⟩ := types
  · exact balanced_fail _ _
  · exact balanced_fail _ _
  · exact balanced_here.bind fun c => balanced_pure _

include htype in
theorem balanced_allForm : Balanced b n (allForm type o) (allForm type' o) :=
  balanced_typeVars.bind fun _ => htype.bind fun _ => balanced_here.bind fun _ => balanced_pure _

include haccepts htype in
theorem local_namedForm (hf : f ≤ k + 1) :
    Local b n (k + 2) (fun _ => k + 1) f (namedForm type o) (namedForm type' o) :=
  (local_symbol (Nat.le_succ_of_le hf)).bind fun _ =>
    (htype.untilClose haccepts proper_isType).close hf _

include haccepts htype in
theorem local_typeForm (hf : f ≤ k + 1) :
    Local b n (k + 2) (fun _ => k + 1) f (typeForm type o) (typeForm type' o) := by
  intro s hs hfits
  have hnext := (next?_append hfits).1
  by_cases harrow : s.next? = some (.symbol "->")
  · exact Local.keyword harrow (((balanced_arrowForm haccepts htype o).closing hf).bind
      fun r => local_pure r.1) (fun _ _ _ => rfl) (fun _ _ _ => rfl) hs hfits
  by_cases hall : s.next? = some (.symbol "forall")
  · exact Local.keyword hall (((balanced_allForm htype o).closing hf).bind
      fun r => local_pure r.1) (fun _ _ _ => rfl) (fun _ _ _ => rfl) hs hfits
  rw [typeForm_of_ne o harrow hall, typeForm_of_ne o (hnext ▸ harrow) (hnext ▸ hall)]
  exact local_namedForm haccepts htype o hf s hs hfits

end

theorem balanced_typeExpr {c d : Nat} (hc : n ≤ c) (hd : n + b.length ≤ d) :
    Balanced b n (typeExpr c) (typeExpr d) := by
  induction n generalizing c d with
  | zero =>
    intro k f hf
    refine Local.of_head ?_ fun _ _ _ hn => absurd hn (Nat.not_succ_le_zero _)
    rintro rfl prev
    cases c <;> cases d <;> exact agree_silent prev hf
  | succ n ih =>
    intro k f hf
    obtain ⟨c, rfl⟩ : ∃ c', c = c' + 1 := ⟨c - 1, by omega⟩
    obtain ⟨d, rfl⟩ : ∃ d', d = d' + 1 := ⟨d - 1, by omega⟩
    have hle : n ≤ c := Nat.le_of_succ_le_succ hc
    have hle' : n + b.length ≤ d := by omega
    refine Local.of_head ?_ ?_
    · rintro rfl prev
      exact agree_silent prev hf
    · rintro prev ⟨o, token⟩ rest hn hfits
      cases token with
      | openParen =>
        have hform := local_typeForm ((accepts_typeExpr c).mono hle) (ih hle hle') o hf
        exact (hform ⟨o, rest⟩ (Nat.le_of_succ_le_succ hn) hfits).mono (Nat.le_succ _)
      | symbol name => exact Agree.ok (s := ⟨o, rest⟩) rfl (Nat.le_succ _)
      | typeVar name => exact Agree.ok (s := ⟨o, rest⟩) rfl (Nat.le_succ _)
      | _ =>
        exact Agree.error (s := ⟨prev, _ :: rest⟩) (openAfter_mono hf _) (Nat.le_refl _)
          nofun

/-! ## Expressions -/

theorem Balanced.group {part part' : Parser α} {P : Phrases α} (h : Balanced b n part part')
    (haccepts : Accepts n part P) (hP : Proper P) (g : Span → String → List α → β) :
    Balanced b n (group part g) (group part' g) := fun _ _ hf =>
  (local_expect .openParen hf).bind fun _ => (local_symbol (Nat.le_succ_of_le hf)).bind fun _ =>
    (h.untilClose haccepts hP).close hf _

theorem Balanced.headed {part part' : Parser α} {P : Phrases α} {p p' : Parser β}
    {g : Span → String → List α → β}
    (hp : Chooses (· = .openParen) p (Parser.group part g) (alone g))
    (hp' : Chooses (· = .openParen) p' (Parser.group part' g) (alone g))
    (h : Balanced b n part part') (haccepts : Accepts n part P) (hP : Proper P) :
    Balanced b n p p' :=
  .choice hp hp' (h.group haccepts hP g) (balanced_symbol.map fun name => g name.span name.val [])

section

variable {type type' : Parser TypeExpr} (htype : Balanced b n type type')

include htype in
theorem local_annotated {q q' : Option TypeExpr → Parser α}
    (hq : ∀ t, Local b n (k + 1) l f (q t) (q' t)) (hf : f ≤ k + 1) :
    Local b n (k + 1) l f (annotated type q) (annotated type' q') :=
  .choice chooses_annotated chooses_annotated
    ((local_expect .colon hf).bind fun _ => (htype k f hf).bind fun t => hq (some t)) (hq none)

include htype in
theorem balanced_annotatedParam : Balanced b n (annotatedParam type) (annotatedParam type') := by
  intro k f hf
  rw [annotatedParam_eq, annotatedParam_eq]
  exact (local_expect .openParen hf).bind fun _ =>
    (local_symbol (Nat.le_succ_of_le hf)).bind fun _ =>
      local_annotated htype (fun _ => balanced_string?.close hf _) (Nat.le_succ_of_le hf)

theorem balanced_bareParam : Balanced b n bareParam bareParam := balanced_symbol.map _

include htype in
theorem balanced_param : Balanced b n (param type) (param type') :=
  .choice chooses_param chooses_param balanced_bareParam (balanced_annotatedParam htype)

theorem params_of_not_open {s : Input} (hopen : s.next? ≠ some .openParen)
    (hnot : ∀ name, s.next? ≠ some (.symbol name)) :
    params type s = .error [⟨s.here, .expected .openParen s.next?⟩] s := by
  by_cases hahead : Ahead s.rest
  · rw [params_of_ahead hnot hahead, annotatedParam, bind_assoc, expect_bind_of_not_next hopen]
  · rw [params_of_not_ahead hnot hahead, enclosed, expect_bind_of_not_next hopen]

theorem ahead_append_iff {s : Input} (hopen : s.next? = some .openParen)
    (h : Fits b (k + 1) s.rest) : Ahead (s.append b).rest ↔ Ahead s.rest := by
  obtain ⟨prev, rest⟩ := s
  obtain ⟨o, rest, ⟨⟩⟩ := Input.next?_eq_some_iff.1 hopen
  obtain _ | ⟨t, _ | ⟨u, rest⟩⟩ := rest
  · rw [Input.append, h.eq_nil, List.append_nil]
  -- The reader looks two tokens ahead. If the parenthesis and one token are all that is left,
  -- something is still open, so nothing comes behind.
  · have hnil : b = [] := h.resolve_right (by
      change after (k + 1 + 1) t.val ≠ 0
      have := le_after (k + 1) t.val
      omega)
    rw [Input.append, hnil, List.append_nil]
  · constructor
    · rintro ⟨_, _, _, _, _, ⟨⟩⟩
      exact ⟨_, _, _, _, _, rfl⟩
    · rintro ⟨_, _, _, _, _, ⟨⟩⟩
      exact ⟨_, _, _, _, _, rfl⟩

include htype in
theorem balanced_params (haccepts : Accepts n type IsType) :
    Balanced b n (params type) (params type') := by
  intro k f hf s hs hfits
  obtain ⟨hnext, hhere⟩ := next?_append hfits
  by_cases hbare : ∃ name, s.next? = some (.symbol name)
  · obtain ⟨name, hname⟩ := hbare
    rw [params_of_symbol hname, params_of_symbol (hnext.trans hname)]
    exact balanced_bareParam.map _ k f hf s hs hfits
  have hnot : ∀ name, s.next? ≠ some (.symbol name) := fun name h => hbare ⟨name, h⟩
  have hnot' : ∀ name, (s.append b).next? ≠ some (.symbol name) := hnext ▸ hnot
  by_cases hopen : s.next? = some .openParen
  · by_cases hahead : Ahead s.rest
    · rw [params_of_ahead hnot hahead,
        params_of_ahead hnot' ((ahead_append_iff hopen hfits).2 hahead)]
      exact (balanced_annotatedParam htype).map _ k f hf s hs hfits
    · rw [params_of_not_ahead hnot hahead,
        params_of_not_ahead hnot' (mt (ahead_append_iff hopen hfits).1 hahead)]
      exact ((balanced_param htype).untilClose (accepts_param haccepts) proper_isParam).enclosed
        k f hf s hs hfits
  · rw [params_of_not_open hopen hnot, params_of_not_open (hnext ▸ hopen) hnot', hnext, hhere]
    exact .error (openAfter_mono hf _) (Nat.le_refl _) nofun

end

section

variable {type type' : Parser TypeExpr} (haccepts : Accepts n type IsType)
  (htype : Balanced b n type type') {expr expr' : Parser Expr} (haccepts' : Accepts n expr IsExpr)
  (hexpr : Balanced b n expr expr') (o : Span)

include haccepts htype hexpr in
theorem balanced_lambdaForm : Balanced b n (lambdaForm type expr o) (lambdaForm type' expr' o) := by
  refine (balanced_params htype haccepts).bind fun params => ?_
  split
  next => exact balanced_fail _ _
  next => exact hexpr.bind fun _ => balanced_previous.bind fun _ => balanced_pure _

include hexpr in
theorem balanced_typeLambdaForm :
    Balanced b n (typeLambdaForm expr o) (typeLambdaForm expr' o) := by
  refine balanced_typeVars.bind fun vars => ?_
  split
  next => exact balanced_fail _ _
  next => exact hexpr.bind fun _ => balanced_previous.bind fun _ => balanced_pure _

include hexpr in
theorem balanced_binding : Balanced b n (binding expr) (binding expr') :=
  (balanced_symbol.bind fun _ => hexpr.bind fun _ => balanced_pure _).enclosed

include haccepts' hexpr in
theorem balanced_letForm : Balanced b n (letForm expr o) (letForm expr' o) :=
  ((balanced_binding hexpr).untilClose (accepts_binding haccepts') proper_isBinding).enclosed.bind
    fun _ => hexpr.bind fun _ => balanced_previous.bind fun _ => balanced_pure _

include htype hexpr in
theorem balanced_annForm : Balanced b n (annForm type expr o) (annForm type' expr' o) :=
  htype.bind fun _ => hexpr.bind fun _ => balanced_pure _

theorem balanced_patternVar : Balanced b n patternVar patternVar := by
  refine balanced_symbol.bind fun name => ?_
  split
  next => exact balanced_fail _ _
  next => exact balanced_pure _

theorem balanced_pattern : Balanced b n pattern pattern :=
  .headed chooses_pattern chooses_pattern balanced_patternVar accepts_patternVar
    proper_isPatternVar

include hexpr in
theorem balanced_branch : Balanced b n (branch expr) (branch expr') := fun _ _ hf =>
  (local_expect .openParen hf).bind fun _ =>
    (balanced_pattern _ _ (Nat.le_succ_of_le hf)).bind fun _ => hexpr.close hf _

include haccepts' hexpr in
theorem balanced_caseForm : Balanced b n (caseForm expr o) (caseForm expr' o) :=
  hexpr.bind fun _ => ((balanced_branch hexpr).untilClose (accepts_branch haccepts')
    proper_isBranch).map _

include haccepts' hexpr in
theorem balanced_toolForm : Balanced b n (toolForm expr o) (toolForm expr' o) :=
  balanced_symbol.bind fun _ => (hexpr.untilClose haccepts' proper_isExpr).map _

include haccepts' hexpr in
theorem balanced_operatorForm : Balanced b n (operatorForm expr o) (operatorForm expr' o) := by
  refine balanced_symbol.bind fun name => (hexpr.untilClose haccepts' proper_isExpr).bind
    fun args => ?_
  split
  next => exact balanced_pure _
  next => exact balanced_fail _ _

include htype hexpr in
theorem balanced_argument : Balanced b n (argument type expr) (argument type' expr') :=
  .choice chooses_argument chooses_argument
    (fun k f hf => (local_expect .atSign hf).bind fun _ =>
      (htype k f hf).bind fun _ => local_pure _)
    (hexpr.map _)

include haccepts htype haccepts' hexpr in
theorem balanced_applicationForm :
    Balanced b n (applicationForm type expr o) (applicationForm type' expr' o) :=
  hexpr.bind fun _ => ((balanced_argument htype hexpr).untilClose
    (accepts_argument haccepts haccepts') proper_isArgument).bind fun _ =>
      balanced_previous.bind fun _ => balanced_pure _

include haccepts htype haccepts' hexpr in
theorem balanced_form : Balanced b n (form type expr o) (form type' expr' o) := by
  intro k f hf s hs hfits
  have hnext := (next?_append hfits).1
  by_cases hkey : ∃ name, s.next? = some (.symbol name) ∧ name ∈ keywords
  · obtain ⟨name, hname, hkey⟩ := hkey
    simp only [keywords, List.mem_cons, List.not_mem_nil, or_false] at hkey
    obtain rfl | rfl | rfl | rfl | rfl | rfl := hkey
    · exact Local.keyword hname (balanced_lambdaForm haccepts htype hexpr o k f hf)
        (fun _ _ _ => rfl) (fun _ _ _ => rfl) hs hfits
    · exact Local.keyword hname (balanced_typeLambdaForm hexpr o k f hf)
        (fun _ _ _ => rfl) (fun _ _ _ => rfl) hs hfits
    · exact Local.keyword hname (balanced_letForm haccepts' hexpr o k f hf)
        (fun _ _ _ => rfl) (fun _ _ _ => rfl) hs hfits
    · exact Local.keyword hname (balanced_annForm htype hexpr o k f hf)
        (fun _ _ _ => rfl) (fun _ _ _ => rfl) hs hfits
    · exact Local.keyword hname (balanced_caseForm haccepts' hexpr o k f hf)
        (fun _ _ _ => rfl) (fun _ _ _ => rfl) hs hfits
    · exact Local.keyword hname (balanced_toolForm haccepts' hexpr o k f hf)
        (fun _ _ _ => rfl) (fun _ _ _ => rfl) hs hfits
  by_cases hop : ∃ name, s.next? = some (.symbol name) ∧ Operator.isOperator name = true
  · obtain ⟨name, hname, hop⟩ := hop
    have hnot : name ∉ keywords := fun h => hkey ⟨name, hname, h⟩
    rw [form_of_operator hname hnot hop, form_of_operator (hnext.trans hname) hnot hop]
    exact balanced_operatorForm haccepts' hexpr o k f hf s hs hfits
  · rw [form_of_not_symbol hkey hop, form_of_not_symbol (hnext ▸ hkey) (hnext ▸ hop)]
    exact balanced_applicationForm haccepts htype haccepts' hexpr o k f hf s hs hfits

include haccepts htype haccepts' hexpr in
theorem local_parenForm (hf : f ≤ k + 1) :
    Local b n (k + 2) (fun _ => k + 1) f (parenForm type expr o) (parenForm type' expr' o) := by
  intro s hs hfits
  obtain ⟨hnext, hhere⟩ := next?_append hfits
  by_cases hclose : s.next? = some .closeParen
  · obtain ⟨prev, rest⟩ := s
    obtain ⟨c, rest, ⟨⟩⟩ := Input.next?_eq_some_iff.1 hclose
    exact Agree.error (s := ⟨c, rest⟩) (openAfter_mono hf _) (Nat.le_succ _) nofun
  · have hform := ((balanced_form haccepts htype haccepts' hexpr o).closing hf).bind
      fun r => local_pure (r.1.withSpan (o.cover r.2))
    rw [parenForm_of_ne hclose, parenForm_of_ne (hnext ▸ hclose)]
    exact hform s hs hfits

end

theorem balanced_expr {c d : Nat} (hc : n ≤ c) (hd : n + b.length ≤ d) :
    Balanced b n (expr c) (expr d) := by
  induction n generalizing c d with
  | zero =>
    intro k f hf
    refine Local.of_head ?_ fun _ _ _ hn => absurd hn (Nat.not_succ_le_zero _)
    rintro rfl prev
    cases c <;> cases d <;> exact agree_silent prev hf
  | succ n ih =>
    intro k f hf
    obtain ⟨c, rfl⟩ : ∃ c', c = c' + 1 := ⟨c - 1, by omega⟩
    obtain ⟨d, rfl⟩ : ∃ d', d = d' + 1 := ⟨d - 1, by omega⟩
    have hle : n ≤ c := Nat.le_of_succ_le_succ hc
    have hle' : n + b.length ≤ d := by omega
    refine Local.of_head ?_ ?_
    · rintro rfl prev
      exact agree_silent prev hf
    · rintro prev ⟨o, token⟩ rest hn hfits
      cases token with
      | openParen =>
        have hform := local_parenForm ((accepts_typeExpr c).mono hle) (balanced_typeExpr hle hle')
          ((accepts_expr c).mono hle) (ih hle hle') o hf
        exact (hform ⟨o, rest⟩ (Nat.le_of_succ_le_succ hn) hfits).mono (Nat.le_succ _)
      | int value => exact Agree.ok (s := ⟨o, rest⟩) rfl (Nat.le_succ _)
      | string text => exact Agree.ok (s := ⟨o, rest⟩) rfl (Nat.le_succ _)
      | symbol name => exact Agree.ok (s := ⟨o, rest⟩) rfl (Nat.le_succ _)
      | _ =>
        exact Agree.error (s := ⟨prev, _ :: rest⟩) (openAfter_mono hf _) (Nat.le_refl _)
          nofun

/-! ## Declarations -/

/-- What follows a string that is not the last token is not in what comes behind the input. -/
theorem head?_append {rest : Tokens} (h : Fits b (k + 1) rest) :
    (rest ++ b).head? = rest.head? := by
  cases rest with
  | nil =>
    rw [h.eq_nil]
    rfl
  | cons t rest => rfl

theorem preambleFrom_append {p : Preamble} {prev : Span} {rest : Tokens} (h : Fits b (k + 1) rest) :
    preambleFrom p prev (rest ++ b) =
      ((preambleFrom p prev rest).1, (preambleFrom p prev rest).2.append b) := by
  fun_induction preambleFrom p prev rest with
  | case1 p prev span text rest hclose =>
    have hnext := head?_append (fits_cons_iff.1 h)
    rw [List.cons_append, preambleFrom, if_pos (hnext ▸ hclose)]
    rfl
  | case2 p prev span text rest hclose ih =>
    have hnext := head?_append (fits_cons_iff.1 h)
    rw [List.cons_append, preambleFrom, if_neg (hnext ▸ hclose)]
    exact ih h
  | case3 p prev span text rest key value hsplit ih =>
    rw [List.cons_append, preambleFrom, hsplit]
    exact ih h
  | case4 p prev rest hstring hpragma =>
    obtain _ | ⟨⟨span, token⟩, rest⟩ := rest
    · rw [h.eq_nil]
      rfl
    · cases token with
      | string text => exact absurd rfl (hstring _ _ _)
      | pragma text => exact absurd rfl (hpragma _ _ _)
      | _ => rfl

theorem openAfter_extends {p q : Preamble} {ts : Tokens} (h : Extends p ts q) (k : Nat) :
    openAfter k ts = k := by
  induction h with
  | nil => rfl
  | doc _ ih => exact ih
  | pragma _ ih => exact ih

theorem balanced_preamble : Balanced b n preamble preamble := by
  rintro k f hf ⟨prev, rest⟩ hs hfits
  obtain ⟨ts, hreads, hext⟩ := extends_preambleFrom ⟨none, .empty⟩ prev rest
  have hopen := openAfter_append (k + 1) ts (preambleFrom ⟨none, .empty⟩ prev rest).2.rest
  rw [← hreads.rest, openAfter_extends hext] at hopen
  have hrun : preamble (Input.append ⟨prev, rest⟩ b) = _ :=
    congrArg (fun r : Preamble × Input => EStateM.Result.ok r.1 r.2) (preambleFrom_append hfits)
  rw [hrun]
  exact .ok hopen.symm hreads.length_le

theorem balanced_definition {c d : Nat} (hc : n ≤ c) (hd : n + b.length ≤ d) (o : Span) :
    Balanced b n (definition c o) (definition d o) := by
  intro k f hf
  rw [definition_eq, definition_eq]
  exact (local_symbol hf).bind fun _ => local_annotated (balanced_typeExpr hc hd)
    (fun _ => (balanced_preamble.bind fun _ => (balanced_expr hc hd).bind fun _ =>
      balanced_here.bind fun _ => balanced_pure _) k f hf) hf

theorem balanced_constructor {c d : Nat} (hc : n ≤ c) (hd : n + b.length ≤ d) :
    Balanced b n (constructor c) (constructor d) :=
  .headed chooses_constructor chooses_constructor (balanced_typeExpr hc hd)
    ((accepts_typeExpr c).mono hc) proper_isType

theorem balanced_dataHead : Balanced b n dataHead dataHead :=
  .headed chooses_dataHead chooses_dataHead balanced_typeVar accepts_typeVar proper_isTypeVar

theorem balanced_dataDecl {c d : Nat} (hc : n ≤ c) (hd : n + b.length ≤ d) (o : Span) :
    Balanced b n (dataDecl c o) (dataDecl d o) :=
  balanced_dataHead.bind fun _ => ((balanced_constructor hc hd).untilClose
    (accepts_constructor.mono hc) proper_headed).bind fun _ =>
      balanced_here.bind fun _ => balanced_pure _

theorem balanced_primTypeDecl (o : Span) : Balanced b n (primTypeDecl o) (primTypeDecl o) :=
  balanced_symbol.bind fun _ => balanced_here.bind fun _ => balanced_pure _

theorem balanced_primOpDecl {c d : Nat} (hc : n ≤ c) (hd : n + b.length ≤ d) (o : Span) :
    Balanced b n (primOpDecl c o) (primOpDecl d o) :=
  balanced_symbol.bind fun _ => Balanced.bind (fun _ _ hf => local_expect .colon hf) fun _ =>
    (balanced_typeExpr hc hd).bind fun _ => balanced_here.bind fun _ => balanced_pure _

/-! ## Recovery -/

theorem skipFrom_append {d : Nat} {prev : Span} {rest : Tokens} (h : Fits b (k + d + 1) rest) :
    skipFrom d prev (rest ++ b) = (skipFrom d prev rest).append b ∧
      openAfter k (skipFrom d prev rest).rest ≤ openAfter (k + d + 1) rest ∧
      (skipFrom d prev rest).rest.length ≤ rest.length := by
  fun_induction skipFrom d prev rest with
  | case1 depth prev =>
    obtain rfl := h.eq_nil
    exact ⟨rfl, Nat.le_add_right k (depth + 1), Nat.le_refl _⟩
  | case2 depth prev span rest ih =>
    obtain ⟨hrun, hopen, hlength⟩ := ih h
    exact ⟨hrun, hopen, Nat.le_succ_of_le hlength⟩
  | case3 prev span rest => exact ⟨rfl, Nat.le_refl _, Nat.le_succ _⟩
  | case4 prev span rest outer ih =>
    obtain ⟨hrun, hopen, hlength⟩ := ih h
    exact ⟨hrun, hopen, Nat.le_succ_of_le hlength⟩
  | case5 depth prev span token rest hopen hclose ih =>
    have hafter : after (k + depth + 1) token = k + depth + 1 := by
      cases token <;> first | rfl | contradiction
    have hcons : openAfter (k + depth + 1) (⟨span, token⟩ :: rest) =
      openAfter (k + depth + 1) rest :=
      congrArg (openAfter · rest) hafter
    obtain ⟨hrun, hopen, hlength⟩ := ih (h.of_le (Nat.le_of_eq hcons.symm))
    refine ⟨?_, hcons ▸ hopen, Nat.le_succ_of_le hlength⟩
    rw [List.cons_append, skipFrom.eq_def]
    cases token <;> first | exact hrun | contradiction

/-- The closing parenthesis that a declaration lacks is passed over. -/
theorem agree_skipToClose {errors : List ParseError} {s : Input} {j m : Nat}
    (h : Fits b (k + 1) s.rest) (hopen : openAfter (k + 1) s.rest ≤ j) (hm : s.rest.length ≤ m)
    (herrors : errors ≠ []) :
    Agree b l k m j (.error errors (skipToClose s)) (.error errors (skipToClose (s.append b))) := by
  obtain ⟨hrun, hle, hlength⟩ : skipToClose (s.append b) = (skipToClose s).append b ∧
      openAfter k (skipToClose s).rest ≤ openAfter (k + 1) s.rest ∧
      (skipToClose s).rest.length ≤ s.rest.length := skipFrom_append h
  rw [hrun]
  exact .error (Nat.le_trans hle hopen) (Nat.le_trans hlength hm) fun hnil => absurd hnil herrors

theorem Balanced.closingDeclaration {p p' : Parser α} (h : Balanced b n p p') :
    Local b n (k + 1) (fun _ => k) k (closingDeclaration p) (closingDeclaration p') := by
  intro s hs hfits
  have hbody := h k (k + 1) (Nat.le_refl _) s hs hfits
  rw [Parser.closingDeclaration, Parser.closingDeclaration]
  generalize p s = x, p' (s.append b) = y at hbody
  cases hbody with
  | @ok a s₁ hopen hlength =>
    have hfits' := hfits.of_le (Nat.le_of_eq hopen)
    obtain ⟨hnext, hhere⟩ := next?_append hfits'
    dsimp only
    rw [hnext, hhere, ← hopen]
    split
    next hclose =>
      obtain ⟨prev, rest⟩ := s₁
      obtain ⟨c, rest, ⟨⟩⟩ := Input.next?_eq_some_iff.1 hclose
      exact .ok (s := ⟨c, rest⟩) rfl (Nat.le_of_succ_le hlength)
    next => exact agree_skipToClose hfits' (Nat.le_refl _) hlength (by simp)
  | @error errors s₁ hopen hlength hsilent =>
    have hfits' := hfits.of_le hopen
    obtain ⟨hnext, hhere⟩ := next?_append hfits'
    dsimp only
    rw [hnext, hhere]
    split
    next hclose =>
      obtain ⟨prev, rest⟩ := s₁
      obtain ⟨c, rest, ⟨⟩⟩ := Input.next?_eq_some_iff.1 hclose
      exact .error (s := ⟨c, rest⟩) hopen (Nat.le_of_succ_le hlength)
        fun hnil => absurd (hsilent hnil) (List.cons_ne_nil _ _)
    next =>
      refine agree_skipToClose hfits' hopen hlength fun hnil => ?_
      cases (List.append_eq_nil_iff.1 hnil).2

theorem local_declarationForm {c d : Nat} (hc : n ≤ c) (hd : n + b.length ≤ d) (o : Span) :
    Local b n (k + 1) (fun _ => k) k (declarationForm c o) (declarationForm d o) := by
  intro s hs hfits
  obtain ⟨hnext, hhere⟩ := next?_append hfits
  by_cases hdef : s.next? = some (.symbol "def")
  · exact Local.keyword hdef ((balanced_definition hc hd o).map _).closingDeclaration
      (fun _ _ _ => rfl) (fun _ _ _ => rfl) hs hfits
  by_cases hdata : s.next? = some (.symbol "data")
  · exact Local.keyword hdata ((balanced_dataDecl hc hd o).map _).closingDeclaration
      (fun _ _ _ => rfl) (fun _ _ _ => rfl) hs hfits
  by_cases hprimType : s.next? = some (.symbol "prim-type")
  · exact Local.keyword hprimType ((balanced_primTypeDecl o).map _).closingDeclaration
      (fun _ _ _ => rfl) (fun _ _ _ => rfl) hs hfits
  by_cases hprimOp : s.next? = some (.symbol "prim-op")
  · exact Local.keyword hprimOp ((balanced_primOpDecl hc hd o).map _).closingDeclaration
      (fun _ _ _ => rfl) (fun _ _ _ => rfl) hs hfits
  have hrun (c : Nat) {s : Input} (hdef : s.next? ≠ some (.symbol "def"))
      (hdata : s.next? ≠ some (.symbol "data")) (hprimType : s.next? ≠ some (.symbol "prim-type"))
      (hprimOp : s.next? ≠ some (.symbol "prim-op")) : declarationForm c o s =
        .error [⟨s.here, .declarationKeyword s.next?⟩] (skipToClose s) := by
    simp only [declarationForm, here_bind, peek_bind]
    rfl
  rw [hrun c hdef hdata hprimType hprimOp, hrun d (hnext ▸ hdef) (hnext ▸ hdata)
    (hnext ▸ hprimType) (hnext ▸ hprimOp), hnext, hhere]
  exact agree_skipToClose hfits (Nat.le_refl _) (Nat.le_refl _) (by simp)

end PolyLambda.Surface.Parser
