import Mathlib.Data.List.Induction
import PolyLambda.Typing.Checker

/-!
# The types that definitions are given

The checker goes through the definitions in order and gives each a type, up to the first that fails
(`giveTypes`). What it returns is a table, in which a name has the type of its last definition
(`get?_entered_of_last`).
-/

namespace PolyLambda

namespace Checker

/-- The definitions with the types that they are given, in order, up to the first that fails. -/
def giveTypes (sig : Signature) (limit : Nat) :
    List Definition → Checker →
      Option ((List (Definition × Ty) × Option (Definition × TypeError)) × Checker)
  | [], c => some (([], none), c)
  | d :: ds, c =>
    match (checkDefinition sig limit d).outcome? c with
    | none => none
    | some (.error e, c') => some (([], some (d, e)), c')
    | some (.ok t, c') =>
      (giveTypes sig limit ds c').map fun r => (((d, t) :: r.1.1, r.1.2), r.2)

/-- A table of types with those that definitions are given. -/
def entered (types : Table Ty) (given : List (Definition × Ty)) : Table Ty :=
  given.foldl (fun types x => types.insert x.1.name x.2) types

variable {sig : Signature} {limit : Nat} {types : Table Ty} {ds : List Definition} {c c' : Checker}
  {given : List (Definition × Ty)}

/-- Definitions are checked by giving them their types. -/
theorem outcome?_checkDefinitions :
    (checkDefinitions sig limit types ds).outcome? c =
      (giveTypes sig limit ds c).map fun r =>
        (match r.1.2 with
          | none => .ok (entered types r.1.1)
          | some (_, e) => .error e,
        r.2) := by
  induction ds generalizing types c with
  | nil => rfl
  | cons d ds ih =>
    rw [checkDefinitions, LimitedState.outcome?_bind, giveTypes]
    cases (checkDefinition sig limit d).outcome? c with
    | none => rfl
    | some o =>
      obtain ⟨r, c₁⟩ := o
      cases r with
      | error e => rfl
      | ok t =>
        dsimp only
        rw [ih, Option.map_map]
        rfl

/-- The first definition fails, or it is given its type and the others are checked. -/
theorem giveTypes_cons {d : Definition} {failure : Option (Definition × TypeError)}
    (h : giveTypes sig limit (d :: ds) c = some ((given, failure), c')) :
    (∃ e, (checkDefinition sig limit d).outcome? c = some (.error e, c') ∧ given = [] ∧
        failure = some (d, e)) ∨
      ∃ t c₁ rest, giveTypes sig limit ds c₁ = some ((rest, failure), c') ∧
        given = (d, t) :: rest := by
  rw [giveTypes] at h
  split at h
  next => cases h
  next e c₁ he =>
    cases h
    exact .inl ⟨e, he, rfl, rfl⟩
  next t c₁ _ =>
    obtain ⟨⟨⟨rest, failure'⟩, c₂⟩, hrest, heq⟩ := Option.map_eq_some_iff.1 h
    cases heq
    exact .inr ⟨t, c₁, rest, hrest, rfl⟩

/-- All definitions are given types if none fails. -/
theorem definitions_of_giveTypes (h : giveTypes sig limit ds c = some ((given, none), c')) :
    given.map Prod.fst = ds := by
  induction ds generalizing c given with
  | nil =>
    cases h
    rfl
  | cons d ds ih =>
    obtain ⟨_, -, -, hnone⟩ | ⟨t, c₁, rest, hrest, rfl⟩ := giveTypes_cons h
    · cases hnone
    · rw [List.map_cons, ih hrest]

/-- What definitions return is a table of the types that they are given. -/
theorem exists_of_checkDefinitions {types' : Table Ty}
    (h : (checkDefinitions sig limit types ds).outcome? c = some (.ok types', c')) :
    ∃ given, given.map Prod.fst = ds ∧ types' = entered types given := by
  rw [outcome?_checkDefinitions] at h
  obtain ⟨⟨⟨given, failure⟩, c₁⟩, hgive, heq⟩ := Option.map_eq_some_iff.1 h
  cases failure with
  | none =>
    cases heq
    exact ⟨given, definitions_of_giveTypes hgive, rfl⟩
  | some x => cases heq

/-- An error names the definition that it was found in. -/
theorem exists_inDeclaration {d : Definition} {e : TypeError}
    (h : (checkDefinition sig limit d).outcome? c = some (.error e, c')) :
    ∃ cause, e = .inDeclaration d.name cause := by
  rw [checkDefinition_eq_bind] at h
  obtain hplaceholder | ⟨placeholder, c₁, -, h⟩ := LimitedState.outcome?_bind_eq_error_iff.1 h
  · cases hd : d.type <;> rw [hd] at hplaceholder <;> cases hplaceholder
  obtain hset | ⟨_, c₂, -, h⟩ := LimitedState.outcome?_bind_eq_error_iff.1 h
  · cases hset
  obtain hbody | ⟨t, c₃, -, h⟩ := LimitedState.outcome?_bind_eq_error_iff.1 h
  · rw [LimitedState.outcome?_tryCatch] at hbody
    split at hbody
    next cause _ _ =>
      cases hbody
      exact ⟨cause, rfl⟩
    next hok => exact absurd hbody (hok e c')
  obtain hset | ⟨_, c₄, -, h⟩ := LimitedState.outcome?_bind_eq_error_iff.1 h
  · cases hset
  · cases h

/-- The definitions before the one that fails are given types. -/
theorem exists_of_giveTypes {d : Definition} {e : TypeError}
    (h : giveTypes sig limit ds c = some ((given, some (d, e)), c')) :
    (∃ after, ds = given.map Prod.fst ++ d :: after) ∧
    ∃ cause, e = .inDeclaration d.name cause := by
  induction ds generalizing c given with
  | nil => cases h
  | cons d' ds ih =>
    obtain ⟨e', he, rfl, heq⟩ | ⟨t, c₁, rest, hrest, rfl⟩ := giveTypes_cons h
    · cases heq
      exact ⟨⟨ds, rfl⟩, exists_inDeclaration he⟩
    · obtain ⟨⟨after, hafter⟩, hcause⟩ := ih hrest
      exact ⟨⟨after, congrArg (d' :: ·) hafter⟩, hcause⟩

/-! ### The last definition of a name -/

theorem get?_entered_of_not_mem {name : String} (h : name ∉ given.map (·.1.name)) :
    (entered types given).get? name = types.get? name := by
  induction given generalizing types with
  | nil => rfl
  | cons x given ih =>
    rw [List.map_cons, List.mem_cons, not_or] at h
    rw [entered, List.foldl_cons]
    refine (ih h.2).trans ?_
    rw [Table.get?_insert, if_neg h.1]

/-- A later type replaces an earlier one of the same name. -/
theorem get?_entered_of_last {before after : List (Definition × Ty)} {d : Definition} {t : Ty}
    (h : d.name ∉ after.map (·.1.name)) :
    (entered types (before ++ (d, t) :: after)).get? d.name = some t := by
  rw [entered, List.foldl_append, List.foldl_cons]
  refine (get?_entered_of_not_mem h).trans ?_
  rw [Table.get?_insert, if_pos rfl]

theorem isSome_get?_entered {d : Definition} (h : d ∈ given.map Prod.fst) :
    ((entered types given).get? d.name).isSome = true := by
  -- from the end, since the last entry of a name is the one that counts
  induction given using List.reverseRecOn with
  | nil => cases h
  | append_singleton given x ih =>
    rw [entered, List.foldl_append, List.foldl_cons, List.foldl_nil, Table.get?_insert]
    split
    next => rfl
    next hne =>
      rw [List.map_append, List.mem_append, List.map_singleton, List.mem_singleton] at h
      exact ih (h.resolve_right fun heq => hne (congrArg Definition.name heq))

/-- Definitions of one name are found with one type. -/
theorem exists_get?_entered (types : Table Ty) (given : List (Definition × Ty)) :
    ∃ shown : String → Ty, ∀ d ∈ given.map Prod.fst,
      (entered types given).get? d.name = some (shown d.name) := by
  refine ⟨fun name => ((entered types given).get? name).getD default, fun d hd => ?_⟩
  obtain ⟨t, ht⟩ := Option.isSome_iff_exists.1 (isSome_get?_entered hd)
  dsimp only
  rw [ht, Option.getD_some]

end Checker

end PolyLambda
