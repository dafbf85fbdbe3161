import Mathlib.Data.List.Forall2
import PolyLambda.Evaluation
import PolyLambda.Proofs.Module.Declare
import PolyLambda.Proofs.Surface.Anywhere
import PolyLambda.Proofs.Surface.Program
import PolyLambda.Proofs.Token.Literal

/-!
# Printed values read back

The text of data is an expression for it: behind the name of a definition it is read without errors,
and the definition evaluates to the data again (`Value.evaluate_render`). The induction is on the
data, and says of each value that its text is read as tokens (`Writes`) that are an expression
wherever they stand (`Anywhere`), whose term evaluates to the value (`Denotes`).
-/

namespace PolyLambda

open Surface Surface.Grammar Token

variable {sig : Signature}

/-! ## Terms for values -/

/-- With enough depth of recursion the term evaluates to the value, whatever else is in scope. -/
def Denotes (sig : Signature) (t : Term) (v : Value) : Prop :=
  ∃ bound, ∀ m : Machine, m.sig = sig → ∀ globals limit env history, bound ≤ limit →
    (m.evaluate globals limit t env).outcome? history = some (.ok v, history)

theorem denotes_int (n : Int64) : Denotes sig (.int n) (.int n) := by
  refine ⟨1, ?_⟩
  rintro m - globals (_ | limit) env history hlimit
  · cases hlimit
  · rfl

theorem denotes_string (text : String) : Denotes sig (.string text) (.string text) := by
  refine ⟨1, ?_⟩
  rintro m - globals (_ | limit) env history hlimit
  · cases hlimit
  · rfl

/-- Terms that stand for values are evaluated to them, one after the other. -/
theorem evaluateAll_of_denotes {ts : List Term} {vs : List Value}
    (h : List.Forall₂ (Denotes sig) ts vs) :
    ∃ bound, ∀ m : Machine, m.sig = sig → ∀ globals limit env history, bound ≤ limit →
      (Machine.evaluateAll (m.evaluate globals limit · env) ts).outcome? history =
        some (.ok vs, history) := by
  induction h with
  | nil => exact ⟨0, fun m _ globals limit env history _ => rfl⟩
  | cons ht _ ih =>
    obtain ⟨bound, ht⟩ := ht
    obtain ⟨bound', ih⟩ := ih
    refine ⟨max bound bound', fun m hm globals limit env history hlimit => ?_⟩
    rw [Nat.max_le] at hlimit
    exact LimitedState.outcome?_bind_eq_ok_iff.2
      ⟨_, history, ht m hm globals limit env history hlimit.1,
        LimitedState.outcome?_bind_eq_ok_iff.2
          ⟨_, history, ih m hm globals limit env history hlimit.2, rfl⟩⟩

theorem denotes_con {name : String} {ts : List Term} {args : List Value}
    (hname : sig.constructorArity? name = some args.length)
    (h : List.Forall₂ (Denotes sig) ts args) :
    Denotes sig (.con name ts) (.saturated name args) := by
  obtain ⟨bound, hall⟩ := evaluateAll_of_denotes h
  refine ⟨bound + 1, ?_⟩
  rintro m hm globals (_ | limit) env history hlimit
  · cases hlimit
  · have harity : m.constructorArity name ts.length = .ok args.length := by
      rw [Machine.constructorArity, hm, hname, h.length_eq]
      exact if_neg (Nat.lt_irrefl _)
    rw [Machine.evaluate, harity]
    exact LimitedState.outcome?_bind_eq_ok_iff.2 ⟨_, history, rfl,
      LimitedState.outcome?_bind_eq_ok_iff.2
        ⟨args, history, hall m hm globals limit env history (Nat.le_of_succ_le_succ hlimit), rfl⟩⟩

/-! ## Expressions for values -/

/-- Wherever the names of constructors are those of `sig`, the expression is resolved to a term for
the value. -/
def StandsFor (sig : Signature) (v : Value) (e : Expr) : Prop :=
  ∀ scope : Scope, scope.sig = sig → ∃ t, e.resolve scope = .ok t ∧ Denotes sig t v

def StandForAll (sig : Signature) (vs : List Value) (es : List Expr) : Prop :=
  ∀ scope : Scope, scope.sig = sig →
    ∃ ts, Expr.resolveAll scope es = .ok ts ∧ List.Forall₂ (Denotes sig) ts vs

theorem standsFor_con {name : String} {args : List Value} {es : List Expr}
    (hname : sig.constructorArity? name = some args.length) (h : StandForAll sig args es)
    (s : Span) :
    StandsFor sig (.saturated name args) (.con s name es) := by
  intro scope hscope
  obtain ⟨ts, hts, hdenote⟩ := h scope hscope
  have hcontains : scope.sig.constructorTypes.contains name = true := by
    rw [hscope, Table.contains]
    rw [Signature.constructorArity?] at hname
    exact (Option.isSome_map ..).symm.trans (Option.isSome_of_eq_some hname)
  refine ⟨.con name ts, ?_, denotes_con hname hdenote⟩
  rw [Expr.resolve_con, if_pos hcontains, hts]
  rfl

theorem StandForAll.ne_nil {v : Value} {vs : List Value} {es : List Expr}
    (h : StandForAll sig (v :: vs) es) : es ≠ [] := by
  rintro rfl
  obtain ⟨ts, ⟨⟩, ⟨⟩⟩ := h ⟨sig, [], [], []⟩ rfl

theorem lookup_eq_none_of_isConstructorName {name : String}
    (h : Parser.isConstructorName name = true) {table : List (String × String)}
    (htable : ∀ p ∈ table, Parser.isConstructorName p.1 = false) : table.lookup name = none := by
  refine List.lookup_eq_none_iff.2 fun p hp => bne_iff_ne.2 ?_
  rintro rfl
  rw [htable p hp] at h
  cases h

/-- No keyword and no operator begins with a capital letter. -/
theorem not_reserved_of_isConstructorName {s : Span} {name : String}
    (h : Parser.isConstructorName name = true) : ¬ Reserved [⟨s, .symbol name⟩] := by
  rintro ⟨_, _, ⟨⟩, hkeyword | hoperator⟩
  · have hlower : ∀ k ∈ keywords, Parser.isConstructorName k = false := by decide
    rw [hlower name hkeyword] at h
    cases h
  · rw [Operator.isOperator, lookup_eq_none_of_isConstructorName h (by decide),
      lookup_eq_none_of_isConstructorName h (by decide)] at hoperator
    cases hoperator

theorem exprArguments?_map_expr (es : List Expr) :
    Parser.exprArguments? (es.map .expr) = some es := by
  induction es with
  | nil => rfl
  | cons e es ih =>
    rw [List.map_cons, Parser.exprArguments?, ih]
    rfl

/-- A constructor is not applied to its arguments but has them as fields. -/
theorem application_con {start stop s : Span} {name : String} {es : List Expr} (hes : es ≠ []) :
    Parser.application start stop (.con s name []) (es.map .expr) = .con start name es := by
  obtain ⟨e, es, rfl⟩ := List.exists_cons_of_ne_nil hes
  rw [Parser.application.eq_def, exprArguments?_map_expr]
  rfl

theorem each_isArgument {ts : Tokens} {es : List Expr} (h : Each IsExpr ts es) :
    Each (IsArgument IsExpr) ts (es.map .expr) := by
  induction h with
  | nil => exact .nil
  | cons hP _ ih => exact .cons (.expr hP) ih

theorem isExpr_con {o c s : Span} {name : String} {ts : Tokens} {es : List Expr}
    (hname : Parser.isConstructorName name = true) (h : Each IsExpr ts es) (hes : es ≠ []) :
    IsExpr (parens o c (⟨s, .symbol name⟩ :: ts)) (.con (o.cover c) name es) := by
  have hform : IsForm IsExpr o (⟨s, .symbol name⟩ :: ts) (.con o name es) := by
    have happ := IsApplication.mk (o := o) (not_reserved_of_isConstructorName (s := s) hname)
      (.con hname) (each_isArgument h)
    rw [application_con hes] at happ
    exact .app happ
  exact .paren hform

namespace Value

/-! ## Data -/

/-- Data in which a string has only characters that are read back, and a constructor has a capital
name of its own and as many arguments as it has fields. -/
inductive Readable (sig : Signature) : Value → Prop
  | int (n : Int64) : Readable sig (.int n)
  | string {text : String} : (∀ c ∈ text.toList, Text.ReadsBack c) → Readable sig (.string text)
  | con {name : String} {args : List Value} : Parser.isConstructorName name = true →
      (lex name).tokens.map Located.val = [.symbol name] →
      sig.constructorArity? name = some args.length → (∀ arg ∈ args, Readable sig arg) →
      Readable sig (.saturated name args)

/-- The text of the value is read as an expression for it. -/
def IsReadBack (sig : Signature) (v : Value) : Prop :=
  ∃ tokens, Writes v.render.toList tokens ∧ Anywhere IsExpr tokens (StandsFor sig v)

theorem apart_renderArgs (args : List Value) : Apart (renderArgs args).toList := by
  cases args with
  | nil => exact nofun
  | cons arg args =>
    rw [renderArgs, String.append_assoc, String.toList_append]
    exact apart_cons rfl _

theorem isReadBack_args {args : List Value} (h : ∀ arg ∈ args, arg.IsReadBack sig) :
    ∃ tokens, Writes (renderArgs args).toList tokens ∧
      Anywhere (Each IsExpr) tokens (StandForAll sig args) := by
  induction args with
  | nil =>
    refine ⟨[], writes_nil, anywhere_each_nil.imp fun ts es hP hes => ⟨es, hP, ?_⟩⟩
    rw [hes]
    exact fun _ _ => ⟨[], rfl, .nil⟩
  | cons arg args ih =>
    rw [List.forall_mem_cons] at h
    obtain ⟨⟨tokens, hwrites, hmeant⟩, hargs⟩ := h
    obtain ⟨others, hothers, hmeant'⟩ := ih hargs
    refine ⟨tokens ++ others, ?_, (hmeant.each hmeant').imp fun ts es hP hes => ⟨es, hP, ?_⟩⟩
    · rw [renderArgs, String.append_assoc, String.toList_append, String.toList_append]
      exact writes_space (hwrites.append hothers (apart_renderArgs args))
    · obtain ⟨e, es, rfl, he, hes⟩ := hes
      intro scope hscope
      obtain ⟨t, ht, hdenotes⟩ := he scope hscope
      obtain ⟨us, hus, hdenote⟩ := hes scope hscope
      refine ⟨t :: us, ?_, .cons hdenotes hdenote⟩
      rw [Expr.resolveAll_cons, ht, hus]
      rfl

theorem writable_of_lex {name : String} (h : (lex name).tokens.map Located.val = [.symbol name]) :
    Writable (.symbol name) := by
  obtain ⟨t, ts, ht, hval, -⟩ := List.map_eq_cons_iff.1 h
  rw [← hval]
  exact writable_of_mem_lex (ht ▸ List.mem_cons_self)

theorem Readable.isReadBack {v : Value} (h : v.Readable sig) : v.IsReadBack sig := by
  induction h with
  | int n =>
    exact ⟨_, writes_decimal n,
      anywhere_token fun s => ⟨_, .int, fun _ _ => ⟨_, rfl, denotes_int n⟩⟩⟩
  | @string text htext =>
    exact ⟨_, writes_quote htext,
      anywhere_token fun s => ⟨_, .string, fun _ _ => ⟨_, rfl, denotes_string text⟩⟩⟩
  | @con name args hcapital hlex hname hargs ih =>
    have hname' : Writes name.toList [.symbol name] := (writable_of_lex hlex).writes rfl
    cases args with
    | nil =>
      have hnone : StandForAll sig [] [] := fun _ _ => ⟨[], rfl, .nil⟩
      exact ⟨_, hname', anywhere_token fun s => ⟨_, .con hcapital, standsFor_con hname hnone s⟩⟩
    | cons arg args =>
      obtain ⟨tokens, hwrites, hmeant⟩ := isReadBack_args ih
      have htext : (render (saturated name (arg :: args))).toList =
          '(' :: (name.toList ++ ((renderArgs (arg :: args)).toList ++ [')'])) := by
        rw [saturated, render, if_neg (Nat.lt_irrefl _)]
        simp [String.toList_append]
      refine ⟨.openParen :: ([.symbol name] ++ tokens ++ [.closeParen]), ?_, ?_⟩
      · rw [htext, List.append_assoc]
        exact writes_openParen (hname'.append hwrites.close
          ((apart_renderArgs _).append (apart_cons rfl [])))
      · refine Anywhere.parens fun o c ts hts => ?_
        obtain ⟨⟨s, _⟩, us, rfl, rfl, hus⟩ := List.map_eq_cons_iff.1 hts
        obtain ⟨es, hP, hes⟩ := hmeant us hus
        exact ⟨_, isExpr_con hcapital hP hes.ne_nil, standsFor_con hname hes _⟩

end Value

/-! ## Definitions -/

/-- A definition of which only the body is written. -/
def Surface.Definition.plain (span : Span) (name : String) (body : Expr) : Surface.Definition :=
  ⟨span, name, none, .empty, none, body⟩

theorem anywhere_plain {name : String} {tokens : List Token} {F : Expr → Prop}
    (h : Anywhere IsExpr tokens F) :
    Anywhere IsProgram (.openParen :: (.symbol "def" :: .symbol name :: tokens ++ [.closeParen]))
      fun ds => ∃ span body, ds = [.definition (.plain span name body)] ∧ F body := by
  have hform : ∀ w, Anywhere (IsDefinition w) (.symbol name :: tokens)
      fun d => ∃ body, d = .plain w name body ∧ F body := fun w =>
    h.cons fun s ts body hP hF => ⟨_, .mk .none .nil hP, body, rfl, hF⟩
  refine Anywhere.parens fun o c ts hts => ?_
  obtain ⟨⟨k, _⟩, us, rfl, rfl, hus⟩ := List.map_eq_cons_iff.1 hts
  obtain ⟨_, hd, body, rfl, hF⟩ := hform (o.cover c) us hus
  refine ⟨_, ?_, o.cover c, body, rfl, hF⟩
  rw [← List.append_nil (parens o c _)]
  exact .cons (.mk (.definition hd)) .nil

/-- A definition whose body can be resolved is accepted as it stands. -/
theorem declare_plain {m : Module} (span : Span) {name : String} {body : Expr} {t : Term}
    (h : body.resolve ⟨m.toSignature, name :: m.globals, [], []⟩ = .ok t) :
    ∃ warnings, m.declare (.definition (.plain span name body)) =
      m.accept (.definition ((Surface.Definition.plain span name body).toCore none t)) m.toSignature
        warnings := by
  have hrun : ∃ warnings, (m.resolveDefinition (.plain span name body)).outcome m.warnings =
      (.ok ((Surface.Definition.plain span name body).toCore none t, m.toSignature), warnings) := by
    have hnamed (warnings : List Warning) :
        (resolveNamed m.toSignature (name :: m.globals) (.plain span name body)).outcome warnings =
          (.ok ((Surface.Definition.plain span name body).toCore none t, m.toSignature),
            warnings) := by
      simp only [resolveNamed, Surface.Definition.plain, h]
      rfl
    rw [Module.resolveDefinition, Stateful.outcome_bind, Elaborator.outcome_warnIf]
    exact ⟨_, hnamed _⟩
  obtain ⟨warnings, hrun⟩ := hrun
  exact ⟨warnings, by rw [Module.declare_definition, hrun]⟩

/-- A term that stands for a value makes a definition that has the value. -/
theorem evaluateDefinition_of_denotes {d : Definition} {v : Value} (h : Denotes sig d.body v) :
    ∃ bound, ∀ m : Machine, m.sig = sig → ∀ s limit, bound ≤ limit →
      (Session.evaluateDefinition m limit d).outcome? s =
        some (.ok v, { s with globals := s.globals.insert d.name (some v) }) := by
  obtain ⟨bound, h⟩ := h
  refine ⟨bound, fun m hm s limit hlimit => ?_⟩
  rw [Session.outcome?_evaluateDefinition, h m hm _ _ _ _ hlimit]
  rfl

namespace Value

/-- Behind the name of a definition the text of a value is read as one definition, it is accepted in
a module with the constructors of the value, and it evaluates to the value. -/
theorem evaluate_render {m : Module} {v : Value} (hv : v.Readable m.toSignature) :
    ∃ (sd : Surface.Definition) (d : Definition),
      parse ("(def v " ++ v.render ++ ")") = ⟨[.definition sd], []⟩ ∧
      (m.declare (.definition sd)).errors = m.errors ∧
      (m.declare (.definition sd)).declarations = m.declarations ++ [.definition d] ∧
      ∃ bound, ∀ host s limit, bound ≤ limit →
        (Session.evaluateDefinition (.ofModule (m.declare (.definition sd)) host) limit
          d).outcome? s =
          some (.ok v, { s with globals := s.globals.insert "v" (some v) }) := by
  obtain ⟨tokens, hwrites, hmeant⟩ := hv.isReadBack
  have htext : ("(def v " ++ v.render ++ ")").toList =
      '(' :: ("def".toList ++ ' ' :: ("v".toList ++ ' ' :: (v.render.toList ++ [')']))) := by
    simp [String.toList_append]
  have hsource : Writes ("(def v " ++ v.render ++ ")").toList
      (.openParen :: (.symbol "def" :: .symbol "v" :: tokens ++ [.closeParen])) := by
    rw [htext]
    exact writes_openParen ((writes_word ⟨_, _, rfl, by decide⟩).space
      ((writes_word ⟨_, _, rfl, by decide⟩).space hwrites.close))
  obtain ⟨hclean, htokens⟩ := hsource.lex
  obtain ⟨ds, hprogram, span, body, rfl, hbody⟩ := anywhere_plain hmeant _ htokens
  -- The body may mention `v` itself and every other name of the module, but it has constructors
  -- only.
  obtain ⟨t, ht, hdenotes⟩ := hbody ⟨m.toSignature, "v" :: m.globals, [], []⟩ rfl
  obtain ⟨warnings, hdeclare⟩ := declare_plain span ht
  refine ⟨.plain span "v" body, (Surface.Definition.plain span "v" body).toCore none t,
    (parse_of_errors_eq_nil hclean).trans (Parsed.isProgram_iff.1 hprogram), ?_⟩
  obtain ⟨bound, heval⟩ := evaluateDefinition_of_denotes
    (d := (Surface.Definition.plain span "v" body).toCore none t) hdenotes
  rw [hdeclare]
  exact ⟨rfl, rfl, bound, fun host => heval _ rfl⟩

theorem evaluate_render_triple :
    ∃ (sd : Surface.Definition) (d : Definition),
      parse "(def v (Triple -9223372036854775808 \"a\\\"b\\n\" True))" = ⟨[.definition sd], []⟩ ∧
      ∃ bound, ∀ host s limit, bound ≤ limit →
        (Session.evaluateDefinition (.ofModule
          ((Prelude.emptyModule.addData ⟨"Triple", [],
            [⟨"Triple", [.int, .string, .bool]⟩]⟩).declare
            (.definition sd)) host) limit d).outcome? s =
          some (.ok (.saturated "Triple" [.int Int64.minValue, .string "a\"b\n", .bool true]),
            { s with globals := s.globals.insert "v" (some
              (.saturated "Triple" [.int Int64.minValue, .string "a\"b\n", .bool true])) }) := by
  have hchars : ∀ c ∈ ['a', '"', 'b', '\n'], Text.ReadsBack c := by
    simp only [List.forall_mem_cons]
    exact ⟨by decide, by decide, by decide, by decide, nofun⟩
  have hreadable : Readable
      (Prelude.emptyModule.addData
        ⟨"Triple", [], [⟨"Triple", [.int, .string, .bool]⟩]⟩).toSignature
      (.saturated "Triple" [.int Int64.minValue, .string "a\"b\n", .bool true]) := by
    refine .con (by decide) (by decide +kernel) (by decide +kernel) ?_
    simp only [List.forall_mem_cons]
    exact ⟨.int _, .string (by simpa using hchars),
      .con (by decide) (by decide +kernel) (by decide +kernel) nofun, nofun⟩
  have htext : "(def v " ++
      render (.saturated "Triple" [.int Int64.minValue, .string "a\"b\n", .bool true]) ++ ")" =
        "(def v (Triple -9223372036854775808 \"a\\\"b\\n\" True))" := by decide +kernel
  rw [← htext]
  obtain ⟨sd, d, hparse, -, -, heval⟩ := evaluate_render hreadable
  exact ⟨sd, d, hparse, heval⟩

end Value

end PolyLambda
