import PolyLambda.Proofs.Evaluation.Fundamental
import PolyLambda.Proofs.Module.Monomorphic
import PolyLambda.Proofs.Soundness

/-!
# Values and reported types

The value of a definition inhabits every instance of the type that is reported for it, if the
program is its own and the check of it is faithful. So it is in programs without explicit
polymorphism.
-/

namespace PolyLambda

open Checker

/-! ## The primitives of the language -/

namespace Machine

/-- The values of the data type of truth values, where it is the only one, are the truth values. -/
theorem exists_bool_of_hasType {host : Host} {G : String → Option Nameless} {v : Value}
    (h : v.HasType (.ofModule (.ofSurface []) host) G (.data "Bool" [])) : ∃ b, v = .bool b := by
  obtain ⟨name, i, args, rfl, hlength, -, -⟩ := h.exists_con
  have hdeclared : ∀ e ∈ Prelude.boolDecl.constructors.map fun c =>
      (c.name, Prelude.boolDecl.constructorType c), ∃ b : Bool,
        e.1 = (if b then "True" else "False") ∧ e.2 = .data "Bool" [] := by decide
  obtain ⟨b, hname, htype⟩ := hdeclared _ (Table.mem_of_get?_ofList i.type_eq)
  have hsame : i.decl.constructorType i.constructor =
      Prelude.boolDecl.constructorType ⟨"True", []⟩ := htype
  have hfields : i.fields = [] := by
    rw [Signature.Instance.fields, (DataDecl.constructorType_inj hsame).2.1]
    rfl
  rw [hfields, List.length_nil, List.length_eq_zero_iff] at hlength
  refine ⟨b, ?_⟩
  rw [hfields, hlength, show name = _ from hname]
  rfl

variable {m : Machine} {G : String → Nameless → Prop} {k : Nat}

/-- Inhabitants of primitive types have them. -/
theorem haveTypes_of_inhabitsAt {m' : Machine} {Γ : String → Option Nameless} {vs : List Value}
    {types : List Nameless} (hprim : ∀ t ∈ types, ∃ name, t = .prim name)
    (h : List.Forall₂ (InhabitsAt m G k) vs types) : Value.HaveTypes m' Γ vs types := by
  induction h with
  | nil => rfl
  | @cons v t vs types hv _ ih =>
    rw [List.forall_mem_cons] at hprim
    obtain ⟨⟨name, rfl⟩, hprim⟩ := hprim
    refine Value.haveTypes_cons ?_ (ih hprim)
    rcases inhabitsAt_prim_iff.1 hv with ⟨rfl, n, rfl⟩ | ⟨rfl, text, rfl⟩
    · rw [Value.HasType]
    · rw [Value.HasType]

/-- The primitives of the language are about integers, strings and truth values, so what they do
with values of these types they do with inhabitants. -/
theorem provides_of_keepsBuiltins
    (htypes : m.sig.primitiveTypes = Prelude.signature.primitiveTypes)
    (hhost : m.host.KeepsBuiltins)
    (hbool : ∀ b k, InhabitsAt m G k (.bool b) (.data "Bool" [])) : m.Provides G := by
  have hvalues := (Module.orderly_ofSurface [] rfl rfl).hasType_bool m.host fun _ => none
  have hsimple : ∀ e ∈ Prelude.primitives, (∀ t ∈ e.2.splitArrows.1, t = .int ∨ t = .string) ∧
      (e.2.splitArrows.2 = .int ∨ e.2.splitArrows.2 = .string ∨ e.2.splitArrows.2 = .bool) := by
      decide
  intro name t ht
  rw [htypes] at ht
  have hentry := Table.mem_of_get?_ofList ht
  obtain ⟨p, hp, hname, hfits⟩ := exists_of_forall₂ (fits_builtins hvalues) hentry
  obtain ⟨hparams, hresult⟩ := hsimple _ hentry
  refine ⟨p, ?_, hfits.arity, fun k args v hargs hrun => ?_⟩
  · rw [show name = p.name from hname]
    exact hhost p hp
  · have hprim : ∀ u ∈ t.splitArrows.1.map Ty.nameless, ∃ name, u = .prim name := by
      intro _ hmem
      obtain ⟨u, hu, rfl⟩ := List.mem_map.1 hmem
      rcases hparams u hu with rfl | rfl
      · exact ⟨"Int", rfl⟩
      · exact ⟨"String", rfl⟩
    have hv := hfits.run args (haveTypes_of_inhabitsAt hprim hargs)
    rw [hrun] at hv
    rcases hresult with h | h | h
    · rw [show t.splitArrows.2 = .int from h] at hv ⊢
      exact inhabitsAt_prim_iff.2 (.inl ⟨rfl, Value.HasType.exists_int hv⟩)
    · rw [show t.splitArrows.2 = .string from h] at hv ⊢
      exact inhabitsAt_prim_iff.2 (.inr ⟨rfl, Value.HasType.exists_string hv⟩)
    · rw [show t.splitArrows.2 = .bool from h] at hv ⊢
      obtain ⟨b, rfl⟩ := exists_bool_of_hasType hv
      exact hbool b k

end Machine

/-! ## Reported types -/

/-- A definition mentions no globals but those that are defined. -/
theorem Definition.Scoped.mem_of_mem_globals {seen : List String} {ds : List Definition}
    (h : Scoped seen ds) {d : Definition} (hd : d ∈ ds) {name : String}
    (hname : name ∈ d.body.globals) : name ∈ seen ∨ ∃ d' ∈ ds, d'.name = name := by
  induction ds generalizing seen with
  | nil => cases hd
  | cons d' ds ih =>
    obtain ⟨-, hmentions, hrest⟩ := h
    simp only [List.exists_mem_cons_iff]
    rcases List.mem_cons.1 hd with rfl | hd
    · exact (List.mem_cons.1 (hmentions name hname)).elim (fun heq => .inr (.inl heq.symm)) .inl
    · rcases ih hrest hd with hmem | hdefined
      · exact (List.mem_cons.1 hmem).elim (fun heq => .inr (.inl heq.symm)) .inl
      · exact .inr (.inr hdefined)

namespace Module

/-- Which types globals have when they are reported to have the types of a table: all instances of
those. -/
def Reported (types : Table Ty) (name : String) (type : Nameless) : Prop :=
  ∃ t ρ, types.get? name = some t ∧ type = t.under ρ

/-- In a faithful check every definition is reported to have a type, of which its body has all
instances where all globals have theirs. -/
theorem hasType_of_reported {m : Module} (hsig : m.toSignature.WellFormed)
    (hscoped : Definition.Scoped [] m.definitions) (htools : ∀ d ∈ m.definitions, d.body.tools = [])
    (hfaithful : m.Faithful 1) {limit : Nat} {types : Table Ty}
    (hcheck : (m.check limit).outcome? = some (.ok types)) :
    ∀ d ∈ m.definitions, (∃ t, types.get? d.name = some t) ∧
      ∀ type, Reported types d.name type → ∃ Γ : String → Option Nameless,
        (∀ name u, Γ name = some u → Reported types name u) ∧
          d.body.HasType m.toSignature Γ [] type := by
  obtain ⟨types', c, hreturns, rfl⟩ := exists_returns_of_check hcheck
  have hready : m.task.Ready 1 m.initial := ⟨m.coherent_initial 1, ⟨[], hscoped⟩, htools⟩
  obtain ⟨-, hcoherent, -, hbodies⟩ := (verified_types hsig).returns hfaithful hready hreturns
  have hreported {name : String} {t : Ty} (ht : types'.get? name = some t) :
      (types'.map c.resolved).get? name = some (c.resolved t) := by
    rw [Table.get?_map, ht, Option.map_some]
  intro d hd
  obtain ⟨t, -, ht, hbody⟩ := hbodies d hd
  refine ⟨⟨_, hreported ht⟩, ?_⟩
  rintro _ ⟨u, ρ, hu, rfl⟩
  obtain rfl := Option.some.inj ((hreported ht).symm.trans hu)
  have hvaluation := hbody _ (hcoherent.models ρ)
  refine ⟨typesAmong (m.definitions.map Definition.name) (c.globalsUnder (c.valuation 1 ρ)), ?_, ?_⟩
  · intro name v hv
    obtain ⟨hmem, hv⟩ := typesAmong_eq_some hv
    obtain ⟨d', hd', rfl⟩ := List.mem_map.1 hmem
    obtain ⟨t', hglobal, ht', -⟩ := hbodies d' hd'
    rw [globalsUnder, hglobal, Option.map_some] at hv
    refine ⟨_, ρ, hreported ht', (Option.some.inj hv).symm.trans ?_⟩
    exact (under_settled c 1 t' ρ).symm
  · rw [show (c.resolved t).under ρ = t.under (c.valuation 1 ρ) from under_settled c 1 t ρ]
    refine Term.HasType.mono d.body (fun name hname v hv => ?_) hvaluation
    rwa [typesAmong_of_mem]
    obtain ⟨d', hd', rfl⟩ := (hscoped.mem_of_mem_globals hd hname).resolve_left List.not_mem_nil
    exact List.mem_map_of_mem hd'

end Module

/-! ## The whole of it -/

/-- Whether the values that definitions got inhabit all instances of the types that are reported for
the definitions, by what they do in the session that is left. -/
structure Session.Inhabited (m : Machine) (types : Table Ty) (values : List (Definition × Value))
    (s : Session) : Prop where
  inhabitation : Machine.Inhabitation m s.globals (Machine.Inhabits m (Module.Reported types))
  values : ∀ p ∈ values, ∃ t, types.get? p.1.name = some t ∧
    ∀ ρ, Machine.Inhabits m (Module.Reported types) p.2 (t.under ρ)

/-- In a self-contained program without warnings that is accepted in a faithful check, values
inhabit the types that are reported. -/
theorem inhabited_of_faithful {source : String} {m : Module} (hm : Module.ofSource source = .ok m)
    (hwarnings : m.warnings = []) (hself : m.SelfContained) (hfaithful : m.Faithful 1) {limit : Nat}
    {types : Table Ty} (hcheck : (m.check limit).outcome? = some (.ok types)) {host : Host}
    (hhost : host.KeepsBuiltins) {depth : Nat} {values : List (Definition × Value)}
    {failure : Option (Definition × EvalError)} {s : Session}
    (hrun : Session.evaluateDefinitions (.ofModule m host) depth m.definitions .empty =
      some ((values, failure), s)) : s.Inhabited (.ofModule m host) types values := by
  obtain ⟨ds, rfl, herrors⟩ := exists_ofSurface_of_ofSource hm
  have horderly := Module.orderly_ofSurface ds herrors hwarnings
  have hreported := Module.hasType_of_reported (Module.wellFormed_ofSurface ds) horderly.ordered
    hself.tools hfaithful hcheck
  have hprovides : (Machine.ofModule (.ofSurface ds) host).Provides (Module.Reported types) := by
    refine Machine.provides_of_keepsBuiltins
      (Module.primitiveTypes_ofSurface ds hself.llmFunctions hself.primOps) hhost fun b k => ?_
    obtain ⟨i, hfields, hresult⟩ := horderly.exists_instance_bool b
    have hnone (R : Value → Nameless → Prop) : List.Forall₂ R [] i.fields := by
      rw [hfields]
      exact .nil
    exact Machine.inhabitsAt_data_iff.2 ⟨_, [], i, rfl, hresult, hnone _⟩
  have hbodies : ∀ d ∈ (Module.ofSurface ds).definitions, ∀ type,
    Module.Reported types d.name type →
      Machine.Realizes (.ofModule (.ofSurface ds) host) (Module.Reported types) [] d.body type := by
    intro d hd type htype
    obtain ⟨Γ, hΓ, hbody⟩ := (hreported d hd).2 type htype
    exact Machine.realizes_of_hasType hprovides hΓ d.body hbody
  have hempty : Machine.GlobalsInhabit (.ofModule (.ofSurface ds) host) (Module.Reported types)
      Session.empty.globals := fun _ _ _ _ hw => nomatch (Table.get?_empty _).symm.trans hw
  obtain ⟨hglobals, hvalues⟩ := Session.inhabits_evaluateDefinitions hbodies hempty hrun
  refine ⟨Machine.inhabitation hglobals, fun p hp => ?_⟩
  obtain ⟨hd, hinhabits⟩ := hvalues p hp
  obtain ⟨t, ht⟩ := (hreported p.1 hd).1
  exact ⟨t, ht, fun ρ => hinhabits _ ⟨t, ρ, ht, rfl⟩⟩

/-- In a self-contained program without warnings and without explicit polymorphism that is accepted,
the values that definitions get when they are evaluated in order, up to the first that fails,
inhabit all instances of the types that are reported. -/
theorem inhabited_of_monomorphic {source : String} {m : Module}
    (hm : Module.ofSource source = .ok m)
    (hwarnings : m.warnings = []) (hself : m.SelfContained) (hmono : m.Monomorphic) {limit : Nat}
    {types : Table Ty} (hcheck : (m.check limit).outcome? = some (.ok types)) {host : Host}
    (hhost : host.KeepsBuiltins) {depth : Nat} {values : List (Definition × Value)}
    {failure : Option (Definition × EvalError)} {s : Session}
    (hrun : Session.evaluateDefinitions (.ofModule m host) depth m.definitions .empty =
      some ((values, failure), s)) : s.Inhabited (.ofModule m host) types values := by
  have hfaithful : m.Faithful 1 := by
    obtain ⟨ds, rfl, -⟩ := exists_ofSurface_of_ofSource hm
    have hprimitives := Module.primitiveTypes_ofSurface ds hself.llmFunctions hself.primOps
    exact Module.faithful_of_typeNames_eq_nil (hmono.typeNames_eq_nil hprimitives)
  exact inhabited_of_faithful hm hwarnings hself hfaithful hcheck hhost hrun

/-- A function on lists, a list of anything and a list of integers. -/
def mapSource : String :=
  "(data (List 'a) Nil (Cons 'a (List 'a)))
(def map : (-> (-> Int Int) (List Int) (List Int))
  (fn f (fn l (case l (Nil Nil) ((Cons x xs) (Cons (f x) (map f xs)))))))
(def n Nil)
(def main (map (fn (x : Int) (+ x 1)) (Cons 1 Nil)))"

theorem inhabited_of_monomorphic_map :
    ∃ m types values s, m.Accepted mapSource ∧ m.Monomorphic ∧
      (∃ limit, (m.check limit).outcome? = some (.ok types)) ∧
      (∃ depth, Session.evaluateDefinitions (.ofModule m .standard) depth m.definitions .empty =
        some ((values, none), s)) ∧
      values.length = 3 ∧ s.Inhabited (.ofModule m .standard) types values := by
  -- All is computed at once, for the source is then parsed once.
  obtain ⟨⟨hacceptable, hmono⟩, hcheck, hrun⟩ :
      ((Module.recover mapSource).isAcceptable mapSource = true ∧
        (Module.recover mapSource).Monomorphic) ∧
      ((Module.recover mapSource).check 12).outcome?.any Except.isOk = true ∧
      (Session.evaluateDefinitions (.ofModule (.recover mapSource) .standard) 12
        (Module.recover mapSource).definitions .empty).any
          (fun r => r.1.1.length == 3 && r.1.2.isNone) = true := by decide +kernel
  obtain ⟨r, hr, hok⟩ := (Option.any_eq_true _ _).1 hcheck
  obtain ⟨⟨⟨values, failure⟩, s⟩, hs, hdone⟩ := (Option.any_eq_true _ _).1 hrun
  rw [Bool.and_eq_true, beq_iff_eq, Option.isNone_iff_eq_none] at hdone
  obtain ⟨hlength, rfl⟩ := hdone
  cases r with
  | error e => cases hok
  | ok types =>
    have haccepted := accepted_of_isAcceptable hacceptable hr
    refine ⟨_, types, values, s, haccepted, hmono, ⟨12, hr⟩, ⟨12, hs⟩, hlength, ?_⟩
    exact inhabited_of_monomorphic haccepted.ofSource haccepted.warnings haccepted.selfContained
      hmono hr Host.keepsBuiltins_standard hs

end PolyLambda
