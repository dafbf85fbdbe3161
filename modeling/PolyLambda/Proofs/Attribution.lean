import PolyLambda.CommandLine
import PolyLambda.Proofs.Module.Distinct
import PolyLambda.Proofs.Places
import PolyLambda.Proofs.Surface.Program
import PolyLambda.Proofs.Typing.Given
import PolyLambda.Proofs.Typing.Termination

/-!
# Which definition a result belongs to

The checker gives each definition a type, up to the first that fails (`Module.giveTypes`). What is
written about them afterwards is looked up by name: a type error is reported at the first definition
that has the name of the one that failed, and every definition is shown with the type of the last
one of its name (`commandOutput_attribution`). So the results of a name that is defined once are
attributed to its definition, and others need not be (`commandOutput_misattributes`).

That two definitions are not at the same place is seen from the source: declarations stand one
behind the other, and none of them is empty (`Module.onwards_of_ofSource`).
-/

namespace PolyLambda

/-! ## Places of definitions -/

namespace Surface

open Grammar

/-- Whether each place starts behind where the one before it starts. -/
def Onwards (spans : List Span) : Prop :=
  spans.Pairwise fun s t => s.start < t.start

theorem Grammar.IsProgram.onwards {ts : Tokens} {ds : List Declaration} (h : IsProgram ts ds)
    {lo hi : UInt32} (horder : InOrder lo ts hi) (hwide : ∀ t ∈ ts, t.span.start < t.span.stop) :
    Onwards (ds.map Declaration.span) := by
  induction h generalizing lo with
  | nil => exact .nil
  | @cons us vs d ds hd hds ih =>
    obtain ⟨mid, hus, hvs⟩ := inOrder_append_iff.1 horder
    refine List.pairwise_cons.2 ⟨?_, ih hvs fun t ht => hwide t (List.mem_append_right _ ht)⟩
    intro s hs
    obtain ⟨other, hother, rfl⟩ := List.mem_map.1 hs
    obtain ⟨-, ⟨hmid, -⟩, -⟩ :=
      nests_isDeclaration.each hds hvs (.declaration other) (List.mem_map_of_mem hother)
    obtain @⟨o, c, ts, d, hform⟩ := hd
    obtain ⟨hcover, -, -, -⟩ := hus.parens
    obtain ⟨-, ho, hts, hc, hmid'⟩ := inOrder_parens_iff.1 hus
    have hwide := hwide ⟨o, .openParen⟩ (List.mem_append_left _ (.head _))
    rw [hform.span, hcover]
    have hbehind : o.stop ≤ other.span.start := calc
      o.stop ≤ c.start := hts.le
      _ ≤ c.stop := hc
      _ ≤ mid := hmid'
      _ ≤ other.span.start := hmid
    exact UInt32.lt_of_lt_of_le hwide hbehind

theorem onwards_parse {source : String} (hsize : source.utf8ByteSize < UInt32.size)
    (h : (parse source).errors = []) :
    Onwards ((parse source).declarations.map Declaration.span) := by
  obtain ⟨hlexical, herrors⟩ := List.append_eq_nil_iff.1 h
  have hprogram : IsProgram (Token.lex source).tokens (parse source).declarations :=
    Parsed.isProgram_iff.2 (congrArg (Parsed.mk _) herrors)
  refine hprogram.onwards (Token.inOrder_tokens_lex hsize) fun t ht => ?_
  obtain ⟨p, hp, rfl⟩ := List.mem_map.1 ht
  exact Token.span_start_lt_stop hsize (Token.mem_placedTokens.1 hp)

end Surface

namespace Module

theorem definitions_addData (m : Module) (d : DataDecl) :
    (m.addData d).definitions = m.definitions := by
  have haccept (sig : Signature) (warnings : List Warning) :
      (m.accept (.data d) sig warnings).definitions = m.definitions :=
    (definitions_accept ..).trans (List.append_nil _)
  rw [addData]
  split
  next => exact haccept ..
  next =>
    split
    next => rfl
    next => exact haccept ..

/-- A declaration adds at most a definition, which is at its place. -/
theorem definitions_declare (m : Module) (d : Surface.Declaration) :
    (m.declare d).definitions = m.definitions ∨
      ∃ f, f.span = d.span ∧ (m.declare d).definitions = m.definitions ++ [f] := by
  cases d with
  | data d =>
    rw [declare_data]
    split
    next decl _ => exact .inl (m.definitions_addData decl)
    next => exact .inl rfl
  | primType d =>
    rw [declare_primType]
    exact .inl ((definitions_accept ..).trans (List.append_nil _))
  | primOp d =>
    rw [declare_primOp]
    split
    next => exact .inl ((definitions_accept ..).trans (List.append_nil _))
    next => exact .inl rfl
  | definition d =>
    rw [declare_definition]
    split
    next f sig ws h =>
      obtain ⟨type, body, rfl⟩ := exists_toCore_of_resolveDefinition h
      exact .inr ⟨_, rfl, definitions_accept ..⟩
    next => exact .inl rfl

theorem spans_ofSurface (ds : List Surface.Declaration) :
    ((ofSurface ds).definitions.map Definition.span).Sublist (ds.map Surface.Declaration.span) := by
  induction ds using List.reverseRecOn with
  | nil => exact .slnil
  | append_singleton ds d ih =>
    rw [ofSurface_append_singleton, List.map_append]
    rcases definitions_declare (ofSurface ds) d with heq | ⟨f, hf, heq⟩
    · rw [heq]
      exact ih.trans (List.sublist_append_left _ _)
    · rw [heq, List.map_append, List.map_singleton, List.map_singleton, hf]
      exact ih.append (.refl _)

/-- The definitions of a source text stand one behind the other. -/
theorem onwards_of_ofSource {source : String} (hsize : source.utf8ByteSize < UInt32.size)
    {m : Module} (h : ofSource source = .ok m) :
    Surface.Onwards (m.definitions.map Definition.span) := by
  obtain ⟨hparse, rfl, -⟩ := of_ofSource_eq_ok h
  exact (Surface.onwards_parse hsize hparse).sublist (spans_ofSurface _)

end Module

/-! ## The types that definitions are given -/

namespace Module

/-- The definitions of a module with the types that they are given, up to the first that fails. -/
def giveTypes (limit : Nat) (m : Module) :
    Option ((List (Definition × Ty) × Option (Definition × TypeError)) × Checker) :=
  Checker.giveTypes m.toSignature limit m.definitions m.initial

theorem check_eq_giveTypes (limit : Nat) (m : Module) :
    (m.check limit).outcome? =
      (m.giveTypes limit).map fun r =>
        match r.1.2 with
        | none => .ok ((Checker.entered .empty r.1.1).map r.2.resolved)
        | some (_, e) => .error e := by
  rw [outcome?_check, Checker.outcome?_checkDefinitions, Option.map_map, giveTypes]
  refine congrArg (Option.map · _) (funext fun r => ?_)
  obtain ⟨⟨given, failure⟩, c⟩ := r
  cases failure <;> rfl

theorem giveTypes_of_error {limit : Nat} {m : Module} {e : TypeError}
    (h : (m.check limit).outcome? = some (.error e)) :
    ∃ given d c, m.giveTypes limit = some ((given, some (d, e)), c) := by
  rw [check_eq_giveTypes] at h
  obtain ⟨⟨⟨given, failure⟩, c⟩, hgive, heq⟩ := Option.map_eq_some_iff.1 h
  cases failure with
  | none => cases heq
  | some x =>
    cases heq
    exact ⟨given, x.1, c, hgive⟩

theorem giveTypes_of_ok {limit : Nat} {m : Module} {types : Table Ty}
    (h : (m.check limit).outcome? = some (.ok types)) :
    ∃ given c, m.giveTypes limit = some ((given, none), c) ∧
      types = (Checker.entered .empty given).map c.resolved := by
  rw [check_eq_giveTypes] at h
  obtain ⟨⟨⟨given, failure⟩, c⟩, hgive, heq⟩ := Option.map_eq_some_iff.1 h
  cases failure with
  | none =>
    cases heq
    exact ⟨given, c, hgive, rfl⟩
  | some x => cases heq

/-- The first definition of a name that some definition has is that definition or an earlier one. -/
theorem exists_first {m : Module} {before after : List Definition} {d : Definition}
    (h : m.definitions = before ++ d :: after) :
    ∃ first, m.definition? d.name = some first ∧
      (d.name ∉ before.map Definition.name → first = d) ∧
      (d.name ∈ before.map Definition.name → first ∈ before) := by
  rw [definition?, h, List.find?_append]
  cases hfirst : before.find? fun f => f.name = d.name with
  | none =>
    refine ⟨d, ?_, fun _ => rfl, fun hmem => ?_⟩
    · rw [Option.none_or]
      exact List.find?_cons_of_pos (decide_eq_true rfl)
    · obtain ⟨f, hf, hname⟩ := List.mem_map.1 hmem
      exact absurd (decide_eq_true hname) (List.find?_eq_none.1 hfirst f hf)
  | some first =>
    have hmem := List.mem_of_find?_eq_some hfirst
    have hname : first.name = d.name := by simpa using List.find?_some hfirst
    exact ⟨first, rfl, fun hnot => absurd (List.mem_map.2 ⟨first, hmem, hname⟩) hnot, fun _ => hmem⟩

/-- No definition is at the place of an earlier one. -/
theorem span_ne_of_mem {m : Module} {before after : List Definition} {d f : Definition}
    (honwards : Surface.Onwards (m.definitions.map Definition.span))
    (h : m.definitions = before ++ d :: after) (hf : f ∈ before) : f.span ≠ d.span := by
  rw [h, List.map_append, List.map_cons] at honwards
  have hlt : f.span.start < d.span.start :=
    (List.pairwise_append.1 honwards).2.2 _ (List.mem_map_of_mem hf) _ (.head _)
  intro heq
  rw [heq] at hlt
  exact UInt32.lt_irrefl _ hlt

end Module

/-! ## What is written -/

namespace CommandLine

/-- What a definition's own error and types look like: the place of the error is that of the
definition that failed, and each definition is shown with the type that it was given. -/
def attributed (file : String) :
    (List (Definition × Ty) × Option (Definition × TypeError)) × Checker → Output
  | ((_, some (d, e)), _) => .failure (report file d.span "type" e.message)
  | ((given, none), c) =>
    ⟨0, String.join (given.map fun x =>
      line (x.1.name ++ " : " ++ (c.resolved x.2).render)) ++ line "OK",
      ""⟩

variable {source file : String} {m : Module} {read : ReadFile} {limits : Limits}

theorem withFile_withModule (hread : read file = .ok source) (hm : Module.ofSource source = .ok m)
    (k : Module → Output) :
    withFile read file (fun source => withModule file source k) =
      (k m).after (reportWarnings file m.warnings) := by
  rw [withFile, hread]
  dsimp only
  rw [withModule, hm]

/-- A type error is all that is written, at the place of the first definition of the name. -/
theorem withTypes_of_error {d first : Definition} {cause : TypeError}
    (h : (m.check limits.unification).outcome? = some (.error (.inDeclaration d.name cause)))
    (hfirst : m.definition? d.name = some first) (k : Table Ty → Output) :
    withTypes limits file m k =
      .failure (report file first.span "type" (TypeError.inDeclaration d.name cause).message) := by
  rw [withTypes, h]
  dsimp only
  rw [reportType, TypeError.declaration?, Option.bind_some, hfirst]
  rfl

theorem typeLines_eq {types : Table Ty} (shown : String → Ty)
    (h : ∀ d ∈ m.definitions, types.get? d.name = some (shown d.name)) :
    typeLines m types =
      String.join (m.definitions.map fun d => line (d.name ++ " : " ++ (shown d.name).render)) := by
  refine congrArg String.join (List.map_congr_left fun d hd => ?_)
  rw [h d hd]

/-- A type error is reported at the first definition that has the name of the one that failed, which
is that one if none before it has the name and an earlier one otherwise; in a text of less than 4
GiB the two are at different places. Without an error every definition is shown with the type that
the last definition of its name was given, with all that was learned filled in. -/
theorem commandOutput_attribution (limits : Limits) (read : ReadFile) (file : String)
    (hread : read file = .ok source) (hm : Module.ofSource source = .ok m) :
    (∀ e, (m.check limits.unification).outcome? = some (.error e) →
      ∃ given d after c first, m.giveTypes limits.unification = some ((given, some (d, e)), c) ∧
        m.definitions = given.map Prod.fst ++ d :: after ∧ e.declaration? = some d.name ∧
        m.definition? d.name = some first ∧
        (d.name ∉ given.map (·.1.name) → first = d) ∧
        (d.name ∈ given.map (·.1.name) → first ∈ given.map Prod.fst) ∧
        (source.utf8ByteSize < UInt32.size →
          (first.span = d.span ↔ d.name ∉ given.map (·.1.name))) ∧
        ∀ command, command = .check file ∨ (∃ entry config, command = .run file entry config) →
          commandOutput limits read command =
            .failure (reportWarnings file m.warnings ++ report file first.span "type" e.message)) ∧
    ∀ types, (m.check limits.unification).outcome? = some (.ok types) →
      ∃ given c, m.giveTypes limits.unification = some ((given, none), c) ∧
        m.definitions = given.map Prod.fst ∧
        ∃ shown : String → Ty,
          (∀ before d t after, given = before ++ (d, t) :: after →
            d.name ∉ after.map (·.1.name) → shown d.name = t) ∧
          commandOutput limits read (.check file) =
            ⟨0, String.join (m.definitions.map fun d =>
                line (d.name ++ " : " ++ (c.resolved (shown d.name)).render)) ++ line "OK",
              reportWarnings file m.warnings⟩ := by
  constructor
  · intro e he
    obtain ⟨given, d, c, hgive⟩ := Module.giveTypes_of_error he
    obtain ⟨⟨after, hafter⟩, cause, rfl⟩ := Checker.exists_of_giveTypes hgive
    -- The failing definition is looked up by its name again, which finds the first of that name.
    obtain ⟨first, hfirst, hnew, hold⟩ := Module.exists_first hafter
    rw [List.map_map] at hnew hold
    have hplace (hsize : source.utf8ByteSize < UInt32.size) :
        first.span = d.span ↔ d.name ∉ given.map (·.1.name) := by
      have honwards := Module.onwards_of_ofSource hsize hm
      refine ⟨fun heq hmem => ?_, fun hnot => congrArg Definition.span (hnew hnot)⟩
      exact Module.span_ne_of_mem honwards hafter (hold hmem) heq
    refine ⟨given, d, after, c, first, hgive, hafter, rfl, hfirst, hnew, hold, hplace, ?_⟩
    rintro _ (rfl | ⟨entry, config, rfl⟩)
    · rw [commandOutput, withFile_withModule hread hm]
      exact congrArg (Output.after _) (withTypes_of_error he hfirst _)
    · rw [commandOutput, withFile_withModule hread hm]
      exact congrArg (Output.after _) (withTypes_of_error he hfirst _)
  · intro types htypes
    obtain ⟨given, c, hgive, rfl⟩ := Module.giveTypes_of_ok htypes
    have hdefinitions := Checker.definitions_of_giveTypes hgive
    obtain ⟨shown, hshown⟩ := Checker.exists_get?_entered .empty given
    refine ⟨given, c, hgive, hdefinitions.symm, shown, ?_, ?_⟩
    · rintro before d t after rfl hlast
      have hmem : d ∈ (before ++ (d, t) :: after).map Prod.fst :=
        List.mem_map_of_mem (List.mem_append_right before (.head after))
      exact Option.some.inj ((hshown d hmem).symm.trans (Checker.get?_entered_of_last hlast))
    · have hlines := typeLines_eq (m := m) (fun name => c.resolved (shown name)) fun d hd => by
        rw [Table.get?_map, hshown d (hdefinitions ▸ hd), Option.map_some]
      rw [commandOutput, withFile_withModule hread hm, checkOutput, withTypes, htypes]
      dsimp only
      rw [hlines]
      exact congrArg (Output.mk 0 _) (String.append_empty ..)

/-- The text of a file in which `x` is defined twice, and `y` has an error. -/
def repeatedSource : String := "(def x 1)\n(def x 2)\n(def y (+ x \"a\"))"

/-- An error in a definition with a new name is reported there, whatever other names are
repeated. -/
theorem commandOutput_attribution_repeated :
    ∃ message, ∀ command,
      command = .check "input.sf" ∨ (∃ entry config, command = .run "input.sf" entry config) →
        commandOutput .standard (fun _ => .ok repeatedSource) command =
          .failure ("input.sf: warning: x redeclared\n" ++
            report "input.sf" ⟨20, 37⟩ "type" message) := by
  obtain ⟨hparse, hscope, hrun, hwarnings⟩ :
      (Surface.parse repeatedSource).errors.isEmpty = true ∧
      (Module.recover repeatedSource).hasErrors = false ∧
      ((Module.recover repeatedSource).giveTypes Limits.standard.unification).map (fun r =>
        (r.1.1.map (·.1.name), r.1.2.map fun x => (x.1.name, x.1.span))) =
          some (["x", "x"], some ("y", ⟨20, 37⟩)) ∧
      reportWarnings "input.sf" (Module.recover repeatedSource).warnings =
        "input.sf: warning: x redeclared\n" := by decide +kernel
  obtain ⟨⟨⟨given, failure⟩, c⟩, hgive, hr⟩ := Option.map_eq_some_iff.1 hrun
  obtain ⟨hnames, hfailure⟩ := Prod.mk.inj hr
  obtain ⟨⟨d, e⟩, rfl, hd⟩ := Option.map_eq_some_iff.1 hfailure
  obtain ⟨hname, hspan⟩ := Prod.mk.inj hd
  have he : ((Module.recover repeatedSource).check Limits.standard.unification).outcome? =
      some (.error e) := by
    rw [Module.check_eq_giveTypes, hgive, Option.map_some]
  obtain ⟨_, _, after, _, first, hgive', -, -, -, hnew, -, -, hout⟩ :=
    (commandOutput_attribution .standard (fun _ => .ok repeatedSource) "input.sf" rfl
      (ofSource_eq_ok hparse hscope)).1 e he
  cases hgive.symm.trans hgive'
  have hfirst : first.span = ⟨20, 37⟩ := by
    refine (congrArg Definition.span (hnew ?_)).trans hspan
    rw [hnames, show d.name = "y" from hname]
    decide
  rw [hfirst, hwarnings] at hout
  exact ⟨e.message, hout⟩

/-! ### Repeated names -/

/-- The types of a program's definitions, or the error of one of them, are attributed to others. -/
def Misattributes (limits : Limits) (source : String) : Prop :=
  ∃ m r, Module.ofSource source = .ok m ∧ m.giveTypes limits.unification = some r ∧
    commandOutput limits (fun _ => .ok source) (.check "input.sf") ≠
      (attributed "input.sf" r).after (reportWarnings "input.sf" m.warnings)

def misattributes (limits : Limits) (source : String) : Bool :=
  let m := Module.recover source
  (Surface.parse source).errors.isEmpty && !m.hasErrors &&
    match m.giveTypes limits.unification with
    | none => false
    | some r =>
      commandOutput limits (fun _ => .ok source) (.check "input.sf") ≠
        (attributed "input.sf" r).after (reportWarnings "input.sf" m.warnings)

theorem misattributes_of_eq_true {limits : Limits} {source : String}
    (h : misattributes limits source = true) : Misattributes limits source := by
  simp only [misattributes, Bool.and_eq_true, Bool.not_eq_true'] at h
  obtain ⟨⟨hparse, hscope⟩, hwrong⟩ := h
  split at hwrong
  next => cases hwrong
  next r hr => exact ⟨_, r, ofSource_eq_ok hparse hscope, hr, of_decide_eq_true hwrong⟩

/-- The text of a file in which `x` is defined twice, and only the second definition has an
error. -/
def wrongPlaceSource : String := "(def x 1)\n(def x (+ 1 \"a\"))"

/-- The text of a file in which `x` is defined twice, with different types. -/
def wrongTypeSource : String := "(def x 1)\n(def x \"a\")"

/-- If a name is repeated, an error may be reported at a definition that has none, and a definition
may be shown with a type that it does not have. -/
theorem commandOutput_misattributes :
    Misattributes .standard wrongPlaceSource ∧ Misattributes .standard wrongTypeSource := by
  obtain ⟨hplace, htype⟩ : misattributes .standard wrongPlaceSource = true ∧
      misattributes .standard wrongTypeSource = true := by decide +kernel
  exact ⟨misattributes_of_eq_true hplace, misattributes_of_eq_true htype⟩

end CommandLine

end PolyLambda
