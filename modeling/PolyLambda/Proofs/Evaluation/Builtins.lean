import PolyLambda.Module.Prelude
import PolyLambda.Proofs.Evaluation.Safe

/-!
# The primitives of the language

Each of them fits the type that every program starts with. Those that compare integers need a data
type of truth values for their results.
-/

namespace PolyLambda

/-! ## Values of primitive types -/

namespace Value

variable {m : Machine} {G : String → Option Nameless}

/-- Only integers and strings have primitive types. -/
theorem HasType.eq_int_or_string {v : Value} {type : String} (h : v.HasType m G (.prim type)) :
    (type = "Int" ∧ ∃ n, v = .int n) ∨ (type = "String" ∧ ∃ text, v = .string text) := by
  cases v with
  | int n =>
    rw [HasType] at h
    exact .inl ⟨Nameless.prim.inj h, n, rfl⟩
  | string text =>
    rw [HasType] at h
    exact .inr ⟨Nameless.prim.inj h, text, rfl⟩
  | con name arity args =>
    rw [HasType] at h
    obtain ⟨i, quantified, -, heq, -⟩ := h
    exact absurd heq.symm (i.partialType_ne_prim _ _ _)
  | closure env body =>
    rw [HasType] at h
    obtain ⟨vars, p, r, heq, -⟩ := h
    cases heq
  | typeClosure env body =>
    rw [HasType] at h
    obtain ⟨vars, b, heq, -⟩ := h
    cases heq
  | prim name op args =>
    obtain ⟨t, p, rest, -, -, -, -, -, heq⟩ := h.prim_eq_arrow
    cases heq

theorem HasType.exists_int {v : Value} (h : v.HasType m G (.prim "Int")) : ∃ n, v = .int n :=
  h.eq_int_or_string.elim And.right fun h => absurd h.1 (by decide)

theorem HasType.exists_string {v : Value} (h : v.HasType m G (.prim "String")) :
    ∃ text, v = .string text :=
  h.eq_int_or_string.elim (fun h => absurd h.1 (by decide)) And.right

theorem HaveTypes.of_cons {vs : List Value} {t : Nameless} {ts : List Nameless}
    (h : HaveTypes m G vs (t :: ts)) :
    ∃ w ws, vs = w :: ws ∧ w.HasType m G t ∧ HaveTypes m G ws ts := by
  cases vs with
  | nil =>
    rw [HaveTypes] at h
    cases h
  | cons w ws =>
    rw [HaveTypes] at h
    obtain ⟨t', ts', heq, hw, hws⟩ := h
    cases heq
    exact ⟨w, ws, rfl, hw, hws⟩

end Value

/-! ## Operations -/

namespace Machine

variable {m : Machine} {G : String → Option Nameless}

theorem fits_unary {name : String} {op : Value → Except EvalError Value} {param result : Ty}
    (hresult : result.splitArrows = ([], result))
    (hop : ∀ v, v.HasType m G param.nameless →
      Permits (Value.HasType m G · result.nameless) (op v)) :
    Fits m G (.unary name op) (.arrow param result) where
  arity := by
    rw [Ty.splitArrows, hresult]
    rfl
  run args hargs := by
    rw [Ty.splitArrows, hresult] at hargs ⊢
    obtain ⟨v, vs, rfl, hv, -⟩ := hargs.of_cons
    exact hop v hv

theorem fits_binary {name : String} {op : Value → Value → Except EvalError Value}
    {left right result : Ty} (hresult : result.splitArrows = ([], result))
    (hop : ∀ v w, v.HasType m G left.nameless → w.HasType m G right.nameless →
      Permits (Value.HasType m G · result.nameless) (op v w)) :
    Fits m G (.binary name op) (Ty.arrows [left, right] result) where
  arity := by
    show _ = (Ty.arrow left (.arrow right result)).splitArrows.1.length
    rw [Ty.splitArrows, Ty.splitArrows, hresult]
    rfl
  run args hargs := by
    show Permits (Value.HasType m G ·
      (Ty.arrow left (.arrow right result)).splitArrows.2.nameless) _
    change Value.HaveTypes m G args
      ((Ty.arrow left (.arrow right result)).splitArrows.1.map Ty.nameless) at hargs
    rw [Ty.splitArrows, Ty.splitArrows, hresult] at hargs ⊢
    obtain ⟨v, vs, rfl, hv, hvs⟩ := hargs.of_cons
    obtain ⟨w, ws, rfl, hw, -⟩ := hvs.of_cons
    exact hop v w hv hw

theorem fits_onInts {name : String} {op : Int64 → Int64 → Except EvalError Value} {result : Ty}
    (hresult : result.splitArrows = ([], result))
    (hop : ∀ a b, Permits (Value.HasType m G · result.nameless) (op a b)) :
    Fits m G (.onInts name op) (Prelude.binary result) := by
  refine fits_binary hresult fun v w hv hw => ?_
  obtain ⟨a, rfl⟩ := hv.exists_int
  obtain ⟨b, rfl⟩ := hw.exists_int
  exact hop a b

theorem permits_int (n : Int64) : Permits (Value.HasType m G · Ty.int.nameless) (.ok (.int n)) := by
  show Value.HasType m G (.int n) (.prim "Int")
  rw [Value.HasType]

theorem permits_string (text : String) :
    Permits (Value.HasType m G · Ty.string.nameless) (.ok (.string text)) := by
  show Value.HasType m G (.string text) (.prim "String")
  rw [Value.HasType]

theorem permits_divide (a b : Int64) :
    Permits (Value.HasType m G · Ty.int.nameless) (Primitive.divide a b) := by
  rw [Primitive.divide]
  split
  next => trivial
  next => exact permits_int _

/-- The primitives of the language fit their types, one by one. -/
theorem fits_builtins (hbool : ∀ b, (Value.bool b).HasType m G (.data "Bool" [])) :
    List.Forall₂ (fun entry p => entry.1 = p.name ∧ Fits m G p entry.2) Prelude.primitives
      Primitive.builtins := by
  refine .cons ⟨rfl, fits_onInts rfl fun _ _ => permits_int _⟩ ?_
  refine .cons ⟨rfl, fits_onInts rfl fun _ _ => permits_int _⟩ ?_
  refine .cons ⟨rfl, fits_onInts rfl fun _ _ => permits_int _⟩ ?_
  refine .cons ⟨rfl, fits_onInts rfl permits_divide⟩ ?_
  refine .cons ⟨rfl, fits_unary rfl fun v hv => ?_⟩ ?_
  · obtain ⟨n, rfl⟩ := hv.exists_int
    exact permits_int _
  refine .cons ⟨rfl, fits_onInts rfl fun _ _ => hbool _⟩ ?_
  refine .cons ⟨rfl, fits_onInts rfl fun _ _ => hbool _⟩ ?_
  refine .cons ⟨rfl, fits_onInts rfl fun _ _ => hbool _⟩ ?_
  refine .cons ⟨rfl, fits_binary rfl fun v w hv hw => ?_⟩ ?_
  · obtain ⟨a, rfl⟩ := hv.exists_string
    obtain ⟨b, rfl⟩ := hw.exists_string
    exact permits_string _
  refine .cons ⟨rfl, fits_unary rfl fun v hv => ?_⟩ .nil
  obtain ⟨text, rfl⟩ := hv.exists_string
  exact permits_int _

end Machine

/-! ## Hosts -/

theorem exists_of_forall₂ {α β : Type} {R : α → β → Prop} {as : List α} {bs : List β}
    (h : List.Forall₂ R as bs) {a : α} (ha : a ∈ as) : ∃ b ∈ bs, R a b := by
  induction h with
  | nil => cases ha
  | @cons a' b as bs hab _ ih =>
    rcases List.mem_cons.1 ha with rfl | ha
    · exact ⟨b, List.mem_cons_self, hab⟩
    · obtain ⟨b', hb', hR⟩ := ih ha
      exact ⟨b', List.mem_cons_of_mem _ hb', hR⟩

/-- Whether a host has the primitives of the language as they are, whatever else it has. -/
def Host.KeepsBuiltins (h : Host) : Prop :=
  ∀ p ∈ Primitive.builtins, h.primitive? p.name = some p

theorem Host.keepsBuiltins_standard : Host.standard.KeepsBuiltins :=
  fun _ hp => Host.primitive?_foldl_of_mem (by decide) (.inl hp)

namespace Machine

theorem implements_of_keepsBuiltins {m : Machine}
    (htypes : m.sig.primitiveTypes = Prelude.signature.primitiveTypes)
    (hhost : m.host.KeepsBuiltins) {G : String → Option Nameless}
    (hbool : ∀ b, (Value.bool b).HasType m G (.data "Bool" [])) : m.Implements G := by
  intro name t ht
  rw [htypes] at ht
  obtain ⟨p, hp, hname, hfits⟩ :=
    exists_of_forall₂ (fits_builtins hbool) (Table.mem_of_get?_ofList ht)
  refine ⟨p, ?_, hfits⟩
  rw [show name = p.name from hname]
  exact hhost p hp

end Machine

end PolyLambda
