import Mathlib.Data.List.Infix
import PolyLambda.Proofs.Module.Signature

/-!
# Constructors and the data types that list them

The types of constructors are kept in a table of their own, by name. Whatever is declared, a
constructor in that table is listed by a data type of the program and has the type that it gives it
(`Owned`).

The other direction, that every listed constructor is in the table (`Complete`), is kept by all
declarations but one. Declaring a data type differently takes the constructors of the old
declaration away by their names, also where another data type lists one of them by now, which is
then without it (`Orphans`). So the tables agree after every declaration exactly if no declaration
orphans a data type (`coherent_iff_not_orphans`), and they do not always agree
(`not_coherent_traffic`).
-/

namespace PolyLambda

/-! ## Entering and taking away many names -/

namespace Table

variable {α β : Type} {key : β → String} {f : β → α} {bs : List β} {t : Table α} {name : String}

/-- What is found after entering many names was entered last under this one, or was there before. -/
theorem get?_foldl_insert {a : α}
    (h : (bs.foldl (fun t b => t.insert (key b) (f b)) t).get? name = some a) :
    (∃ b ∈ bs, key b = name ∧ f b = a) ∨ (∀ b ∈ bs, key b ≠ name) ∧ t.get? name = some a := by
  induction bs generalizing t with
  | nil => exact .inr ⟨by simp, h⟩
  | cons b bs ih =>
    rcases ih h with ⟨c, hc, heq⟩ | ⟨hne, ht⟩
    · exact .inl ⟨c, List.mem_cons_of_mem b hc, heq⟩
    · rw [get?_insert] at ht
      split at ht
      next heq =>
        cases ht
        exact .inl ⟨b, List.mem_cons_self, heq.symm, rfl⟩
      next hname =>
        refine .inr ⟨?_, ht⟩
        intro c hc
        rcases List.mem_cons.1 hc with rfl | hc
        · exact Ne.symm hname
        · exact hne c hc

theorem contains_foldl_insert :
    (bs.foldl (fun t b => t.insert (key b) (f b)) t).contains name = true ↔
      (∃ b ∈ bs, key b = name) ∨ t.contains name = true := by
  induction bs generalizing t with
  | nil => simp
  | cons b bs ih =>
    rw [List.foldl_cons, ih, contains_insert]
    simp only [List.mem_cons, exists_eq_or_imp]
    rw [or_left_comm, or_assoc]

theorem get?_foldl_erase :
    (bs.foldl (fun t b => t.erase (key b)) t).get? name =
      if ∃ b ∈ bs, key b = name then none else t.get? name := by
  induction bs generalizing t with
  | nil => simp
  | cons b bs ih =>
    rw [List.foldl_cons, ih, get?_erase]
    simp only [List.mem_cons, exists_eq_or_imp, eq_comm (a := name)]
    by_cases hb : key b = name <;> simp [hb]

end Table

/-! ## The two tables -/

namespace Signature

theorem mem_ownersOf_iff {sig : Signature} {name : String} {d : DataDecl} :
    d ∈ sig.ownersOf name ↔ (∃ key, sig.dataTypes.get? key = some d) ∧ d.lists name = true := by
  rw [ownersOf, List.mem_filter, Table.mem_values_iff]

/-- Whether data types are kept under their names. -/
def Keyed (sig : Signature) : Prop :=
  ∀ key d, sig.dataTypes.get? key = some d → d.name = key

/-- Whether every constructor that has a type is listed by a data type, with that type. -/
def Owned (sig : Signature) : Prop :=
  ∀ name t, sig.constructorTypes.get? name = some t →
    ∃ d ∈ sig.ownersOf name, ∃ c ∈ d.constructors, c.name = name ∧ t = d.constructorType c

/-- Whether every constructor that a data type lists has a type. -/
def Complete (sig : Signature) : Prop :=
  ∀ name, ∀ d ∈ sig.ownersOf name, sig.constructorTypes.contains name = true

/-- Whether the constructors that have a type are those that the data types list, with the types
that these give them. -/
structure Coherent (sig : Signature) : Prop where
  owned : sig.Owned
  complete : sig.Complete

theorem Coherent.contains_iff {sig : Signature} (h : sig.Coherent) (name : String) :
    sig.constructorTypes.contains name = true ↔ sig.ownersOf name ≠ [] := by
  constructor
  · intro hcontains
    obtain ⟨t, ht⟩ := Option.isSome_iff_exists.1 hcontains
    obtain ⟨d, hd, -⟩ := h.owned name t ht
    exact List.ne_nil_of_mem hd
  · intro hne
    obtain ⟨d, hd⟩ := List.exists_mem_of_ne_nil _ hne
    exact h.complete name d hd

/-! ## A new declaration of a data type -/

section

variable {sig : Signature} {d old : DataDecl}

theorem Keyed.withData (h : sig.Keyed) (d : DataDecl) : (sig.withData d).Keyed := by
  intro key e he
  have he : (sig.dataTypes.insert d.name d).get? key = some e := he
  rw [Table.get?_insert] at he
  split at he
  next heq =>
    cases he
    exact heq.symm
  next => exact h key e he

/-- The owners of a constructor after a declaration are the new data type, if it lists it, and those
before of another name. -/
theorem mem_ownersOf_withData {name : String} {e : DataDecl} (h : sig.Keyed) :
    e ∈ (sig.withData d).ownersOf name ↔
      (e = d ∧ d.lists name = true) ∨ (e ∈ sig.ownersOf name ∧ e.name ≠ d.name) := by
  have hget (key : String) : (sig.withData d).dataTypes.get? key =
      if key = d.name then some d else sig.dataTypes.get? key := Table.get?_insert _ _ _ _
  simp only [mem_ownersOf_iff, hget]
  constructor
  · rintro ⟨⟨key, hkey⟩, hlists⟩
    split at hkey
    next =>
      cases hkey
      exact .inl ⟨rfl, hlists⟩
    next hne =>
      refine .inr ⟨⟨⟨key, hkey⟩, hlists⟩, ?_⟩
      rw [h key e hkey]
      exact hne
  · rintro (⟨rfl, hlists⟩ | ⟨⟨⟨key, hkey⟩, hlists⟩, hne⟩)
    · exact ⟨⟨e.name, if_pos rfl⟩, hlists⟩
    · refine ⟨⟨key, ?_⟩, hlists⟩
      rw [h key e hkey] at hne
      rw [if_neg hne, hkey]

/-- The constructors of a new declaration are owned by it, and the others keep their owners,
provided that none of them is owned by an old declaration of the same data type. -/
theorem Owned.withData (howned : sig.Owned) (hkeyed : sig.Keyed)
    (hothers : ∀ name t, sig.constructorTypes.get? name = some t → ∀ e ∈ sig.ownersOf name,
      e.name ≠ d.name) : (sig.withData d).Owned := by
  intro name t ht
  have hentered : (∃ c ∈ d.constructors, c.name = name ∧ d.constructorType c = t) ∨ _ :=
    Table.get?_foldl_insert ht
  rcases hentered with ⟨c, hc, hname, rfl⟩ | ⟨-, ht⟩
  · refine ⟨d, ?_, c, hc, hname, rfl⟩
    exact (mem_ownersOf_withData hkeyed).2 (.inl ⟨rfl, DataDecl.lists_iff.2 ⟨c, hc, hname⟩⟩)
  · obtain ⟨e, he, hentry⟩ := howned name t ht
    exact ⟨e, (mem_ownersOf_withData hkeyed).2 (.inr ⟨he, hothers name t ht e he⟩), hentry⟩

theorem get?_withoutConstructors (old : DataDecl) (name : String) :
    (sig.withoutConstructors old).constructorTypes.get? name =
      if old.lists name = true then none else sig.constructorTypes.get? name := by
  have herase := @Table.get?_foldl_erase _ _ ConstructorDecl.name old.constructors
    sig.constructorTypes name
  simp only [DataDecl.lists_iff]
  exact herase

theorem Owned.redeclare (howned : sig.Owned) (hkeyed : sig.Keyed)
    (hold : sig.dataTypes.get? d.name = some old) :
    ((sig.withoutConstructors old).withData d).Owned := by
  have hkept : ∀ name t, (sig.withoutConstructors old).constructorTypes.get? name = some t →
      old.lists name = false ∧ sig.constructorTypes.get? name = some t := by
    intro name t ht
    rw [get?_withoutConstructors] at ht
    split at ht
    next => cases ht
    next hlists => exact ⟨Bool.eq_false_iff.2 hlists, ht⟩
  have hcleared : (sig.withoutConstructors old).Owned := by
    intro name t ht
    exact howned name t (hkept name t ht).2
  refine hcleared.withData hkeyed ?_
  intro name t ht e he hname
  obtain ⟨⟨key, hkey⟩, hlists⟩ := mem_ownersOf_iff.1 he
  have hkey : sig.dataTypes.get? key = some e := hkey
  rw [← hkeyed key e hkey, hname, hold] at hkey
  cases hkey
  rw [(hkept name t ht).1] at hlists
  cases hlists

/-- Whether another data type lists a constructor that is taken away with the old declaration `old`
and does not come back with the new one `d`. -/
def Orphans (sig : Signature) (old d : DataDecl) : Prop :=
  ∃ c ∈ old.constructors, d.lists c.name = false ∧ ∃ e ∈ sig.ownersOf c.name, e.name ≠ d.name

/-- A first declaration of a data type keeps listed constructors in the table. -/
theorem Complete.withData (h : sig.Complete) (hkeyed : sig.Keyed) (d : DataDecl) :
    (sig.withData d).Complete := by
  intro name e he
  refine Table.contains_foldl_insert.2 ?_
  rcases (mem_ownersOf_withData hkeyed).1 he with ⟨rfl, hlists⟩ | ⟨he, -⟩
  · exact .inl (DataDecl.lists_iff.1 hlists)
  · exact .inr (h name e he)

/-- A further declaration keeps them there exactly if it orphans no other data type. -/
theorem Complete.redeclare_iff (h : sig.Complete) (hkeyed : sig.Keyed) :
    ((sig.withoutConstructors old).withData d).Complete ↔ ¬ sig.Orphans old d := by
  have hentered (name : String) :
      ((sig.withoutConstructors old).withData d).constructorTypes.contains name = true ↔
        d.lists name = true ∨
        (old.lists name = false ∧ sig.constructorTypes.contains name = true) := by
    rw [DataDecl.lists_iff]
    refine Table.contains_foldl_insert.trans (or_congr_right ?_)
    rw [Table.contains, get?_withoutConstructors]
    cases old.lists name <;> simp [Table.contains]
  have hcleared : (sig.withoutConstructors old).Keyed := hkeyed
  have howners (name : String) (e : DataDecl) :
      e ∈ ((sig.withoutConstructors old).withData d).ownersOf name ↔
        (e = d ∧ d.lists name = true) ∨ (e ∈ sig.ownersOf name ∧ e.name ≠ d.name) :=
    mem_ownersOf_withData hcleared
  constructor
  · rintro hcomplete ⟨c, hc, hgone, e, he, hne⟩
    rcases (hentered c.name).1 (hcomplete c.name e ((howners c.name e).2 (.inr ⟨he, hne⟩))) with
      hlists | ⟨hlists, -⟩
    · rw [hgone] at hlists
      cases hlists
    · rw [DataDecl.lists_iff.2 ⟨c, hc, rfl⟩] at hlists
      cases hlists
  · intro hnot name e he
    refine (hentered name).2 ?_
    rcases (howners name e).1 he with ⟨-, hlists⟩ | ⟨he, hne⟩
    · exact .inl hlists
    · by_cases hlists : d.lists name = true
      · exact .inl hlists
      · refine .inr ⟨?_, h name e he⟩
        rw [Bool.eq_false_iff]
        intro hold
        obtain ⟨c, hc, rfl⟩ := DataDecl.lists_iff.1 hold
        exact hnot ⟨c, hc, Bool.eq_false_iff.2 hlists, e, he, hne⟩

end

end Signature

/-! ## Programs -/

namespace Module

open Signature

/-- Whether a declaration declares a data type differently from before and so orphans another
one. -/
def Orphans (m : Module) : Surface.Declaration → Prop
  | .data d => ∃ decl old, d.resolve m.toSignature = .ok decl ∧
    m.dataTypes.get? decl.name = some old ∧ old ≠ decl ∧ m.toSignature.Orphans old decl
  | _ => False

/-- Declarations of other things than data types leave both tables alone. -/
theorem sameData_declare (m : Module) {d : Surface.Declaration} (hd : ∀ data, d ≠ .data data) :
    (m.declare d).dataTypes = m.dataTypes ∧ (m.declare d).constructorTypes =
    m.constructorTypes := by
  cases d with
  | data d => exact absurd rfl (hd d)
  | primType d =>
    rw [declare_primType]
    exact ⟨rfl, rfl⟩
  | primOp d =>
    rw [declare_primOp]
    split
    next => exact ⟨rfl, rfl⟩
    next => exact ⟨rfl, rfl⟩
  | definition d =>
    rw [declare_definition]
    split
    next definition sig ws h =>
      obtain ⟨-, -, ⟨e, -, -, rfl⟩ | ⟨f, type, -, -, -, -, rfl⟩⟩ := resolveDefinition_eq_ok h
      · show (m.withGlobal definition.name definition.type).dataTypes = _ ∧
          (m.withGlobal definition.name definition.type).constructorTypes = _
        cases definition.type <;> exact ⟨rfl, rfl⟩
      · exact ⟨rfl, rfl⟩
    next => exact ⟨rfl, rfl⟩

theorem keyed_declare {m : Module} (h : m.Keyed) (d : Surface.Declaration) :
    (m.declare d).Keyed := by
  by_cases hd : ∀ data, d ≠ .data data
  · rw [Keyed, (sameData_declare m hd).1]
    exact h
  · obtain ⟨d, rfl⟩ := not_forall_not.1 hd
    rw [declare_data]
    split
    next decl _ =>
      rw [addData]
      split
      next => exact h.withData decl
      next old _ =>
        split
        next => exact h
        next =>
          have hcleared : (m.withoutConstructors old).Keyed := h
          exact hcleared.withData decl
    next => exact h

/-- Every declaration keeps constructors with their owners. -/
theorem owned_declare {m : Module} (h : m.Owned) (hkeyed : m.Keyed) (d : Surface.Declaration) :
    (m.declare d).Owned := by
  by_cases hd : ∀ data, d ≠ .data data
  · obtain ⟨hdata, hconstructors⟩ := sameData_declare m hd
    rw [Owned, hconstructors]
    simp only [ownersOf, hdata]
    exact h
  · obtain ⟨d, rfl⟩ := not_forall_not.1 hd
    rw [declare_data]
    split
    next decl _ =>
      rw [addData]
      split
      next hnew =>
        refine h.withData hkeyed ?_
        intro name t _ e he hname
        obtain ⟨⟨key, hkey⟩, -⟩ := mem_ownersOf_iff.1 he
        rw [← hkeyed key e hkey, hname, hnew] at hkey
        cases hkey
      next old hold =>
        split
        next => exact h
        next => exact h.redeclare hkeyed hold
    next => exact h

/-- Where every listed constructor has a type, this stays so exactly if the declaration orphans no
data type. -/
theorem complete_declare_iff {m : Module} (h : m.Complete) (hkeyed : m.Keyed)
    (d : Surface.Declaration) : (m.declare d).Complete ↔ ¬ m.Orphans d := by
  by_cases hd : ∀ data, d ≠ .data data
  · obtain ⟨hdata, hconstructors⟩ := sameData_declare m hd
    have hnot : ¬ m.Orphans d := by
      cases d with
      | data d => exact absurd rfl (hd d)
      | _ => exact id
    refine iff_of_true ?_ hnot
    rw [Complete, hconstructors]
    simp only [ownersOf, hdata]
    exact h
  · obtain ⟨d, rfl⟩ := not_forall_not.1 hd
    rw [declare_data, Orphans]
    cases hdecl : d.resolve m.toSignature with
    | error e =>
      refine iff_of_true h ?_
      rintro ⟨decl, old, hresolve, -⟩
      cases hresolve
    | ok decl =>
      simp only [Except.ok.injEq, exists_and_left, exists_eq_left']
      rw [addData]
      cases hold : m.dataTypes.get? decl.name with
      | none =>
        refine iff_of_true (h.withData hkeyed decl) ?_
        simp
      | some old =>
        simp only [Option.some.injEq, exists_eq_left']
        split
        next heq => exact iff_of_true h fun horphans => horphans.1 heq
        next hne =>
          rw [and_iff_right hne]
          exact h.redeclare_iff hkeyed

theorem ofSurface_append_singleton (ds : List Surface.Declaration) (d : Surface.Declaration) :
    ofSurface (ds ++ [d]) = (ofSurface ds).declare d :=
  ofSurface_append ds [d]

/-- What every program starts with is the declaration of truth values. -/
theorem prelude_eq_withData : Prelude.signature =
    ({ Prelude.signature with dataTypes := .empty, constructorTypes := .empty } :
      Signature).withData
      Prelude.boolDecl := rfl

theorem coherent_prelude : Prelude.signature.Keyed ∧ Prelude.signature.Coherent := by
  rw [prelude_eq_withData]
  generalize hsig : ({ Prelude.signature with dataTypes := .empty, constructorTypes := .empty } :
    Signature) = sig
  have hkeyed : sig.Keyed := by
    subst hsig
    intro key d h
    cases h
  have howned : sig.Owned := by
    subst hsig
    intro name t h
    cases h
  have howners (name : String) (e : DataDecl) : e ∉ sig.ownersOf name := by
    subst hsig
    intro h
    cases h
  refine ⟨hkeyed.withData _, howned.withData hkeyed ?_, Complete.withData ?_ hkeyed _⟩
  · intro name t _ e he
    exact absurd he (howners name e)
  · intro name e he
    exact absurd he (howners name e)

theorem keyed_ofSurface (ds : List Surface.Declaration) : (ofSurface ds).Keyed := by
  induction ds using List.reverseRecOn with
  | nil => exact coherent_prelude.1
  | append_singleton ds d ih =>
    rw [ofSurface_append_singleton]
    exact keyed_declare ih d

theorem owned_ofSurface (ds : List Surface.Declaration) : (ofSurface ds).Owned := by
  induction ds using List.reverseRecOn with
  | nil => exact coherent_prelude.2.owned
  | append_singleton ds d ih =>
    rw [ofSurface_append_singleton]
    exact owned_declare ih (keyed_ofSurface ds) d

/-- The tables of constructors and of data types agree after every declaration of a program exactly
if no declaration orphans a data type. In any case a constructor with a type is listed, with that
type. -/
theorem coherent_iff_not_orphans (ds : List Surface.Declaration) :
    (ofSurface ds).Owned ∧
      ((∀ before, before <+: ds → (ofSurface before).Coherent) ↔
        ∀ before d, before ++ [d] <+: ds → ¬ (ofSurface before).Orphans d) := by
  refine ⟨owned_ofSurface ds, ?_⟩
  constructor
  · intro h before d hbefore
    have hcoherent := h before ((List.prefix_append before [d]).trans hbefore)
    have hnext := h _ hbefore
    rw [ofSurface_append_singleton] at hnext
    exact (complete_declare_iff hcoherent.complete (keyed_ofSurface before) d).1 hnext.complete
  · intro h before hbefore
    refine ⟨owned_ofSurface before, ?_⟩
    -- A complete module stays complete just if the next declaration leaves nothing orphaned.
    induction before using List.reverseRecOn with
    | nil => exact coherent_prelude.2.complete
    | append_singleton before d ih =>
      rw [ofSurface_append_singleton]
      have hcomplete := ih ((List.prefix_append before [d]).trans hbefore)
      exact (complete_declare_iff hcomplete (keyed_ofSurface before) d).2 (h before d hbefore)

/-- Colours, lights that are red or green, and colours once more without red. -/
def traffic : List Surface.Declaration :=
  [("Colour", ["Red"]), ("Light", ["Red", "Green"]), ("Colour", ["Blue"])].map
  fun (name, constructors) =>
    .data ⟨.origin, name, [], constructors.map fun c => ⟨.origin, c, []⟩⟩

/-- After that there is no red, although lights may be red. -/
theorem not_coherent_traffic :
    (ofSurface traffic).errors = [] ∧
      (ofSurface traffic).constructorTypes.contains "Red" = false ∧
      ((ofSurface traffic).ownersOf "Red").map DataDecl.name = ["Light"] ∧
      ¬ (ofSurface traffic).Coherent := by
  have hmissing : (ofSurface traffic).constructorTypes.contains "Red" = false := by decide
  have howners : ((ofSurface traffic).ownersOf "Red").map DataDecl.name = ["Light"] := by decide
  refine ⟨by decide, hmissing, howners, ?_⟩
  intro hcoherent
  have hcontains := (hcoherent.contains_iff "Red").2 (by
    intro hnil
    rw [hnil] at howners
    cases howners)
  rw [hmissing] at hcontains
  cases hcontains

end Module

end PolyLambda
