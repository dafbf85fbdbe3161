import PolyLambda.Proofs.Typing.Rename
import PolyLambda.Proofs.Typing.Written

/-!
# Other names for type variables

A program may call its type variables as it likes, as long as all that have one name are renamed
together and no name is that of a meta: exchanging two names throughout a module changes no more
than those names in what the checker reports (`check_exchange`). Where the second name is not in the
module, exchanging is to rename the first one.

The name of a single binder may not be changed. Names are compared across binders: a quantifier is
opened without renaming when two types are compared, a type abstraction makes rigid whatever has its
name, and a source may write the names of metas (`outcome_depends_on_names`).
-/

namespace PolyLambda

open Checker

/-! ## Names with primes -/

/-- Whether a name does not end with a prime. -/
def Unprimed (v : String) : Prop :=
  ¬ "'".toList <:+ v.toList

instance (v : String) : Decidable (Unprimed v) :=
  inferInstanceAs (Decidable (¬ _))

theorem Unprimed.ne_append {v : String} (h : Unprimed v) (w : String) : v ≠ w ++ "'" := by
  rintro rfl
  exact h ⟨w.toList, String.toList_append.symm⟩

/-- A name without primes and their number are told from the name with them. -/
theorem Unprimed.primed_inj {v w : String} (hv : Unprimed v) (hw : Unprimed w) {j k : Nat}
    (h : primed v j = primed w k) : v = w ∧ j = k := by
  induction j generalizing k with
  | zero =>
    cases k with
    | zero => exact ⟨h, rfl⟩
    | succ k => exact absurd h (hv.ne_append _)
  | succ j ih =>
    cases k with
    | zero => exact absurd h.symm (hw.ne_append _)
    | succ k =>
      obtain ⟨hvw, hjk⟩ := ih ((String.append_left_inj "'").1 h)
      exact ⟨hvw, congrArg _ hjk⟩

theorem unprimed_metaName (n : Nat) : Unprimed (metaName n) := by
  intro h
  have hlist : (metaName n).toList = "_t".toList ++ Nat.toDigits 10 n := by
    rw [metaName, String.toList_append, Nat.toString_eq_repr, Nat.toList_repr]
  rw [hlist] at h
  -- The prime would be the last digit.
  have hprime : "'".toList ≠ [] := by decide
  have hmem : "'".toList.getLast hprime ∈ Nat.toDigits 10 n := by
    rw [h.getLast hprime, List.getLast_append_of_ne_nil _ Nat.toDigits_ne_nil]
    exact List.getLast_mem _
  have hdigit := Nat.isDigit_of_mem_toDigits (by decide) (Nat.le_refl 10) hmem
  have hnot : ∀ h, ("'".toList.getLast h).isDigit = false := by decide
  rw [hnot] at hdigit
  cases hdigit

/-- The number of primes that make `v` of `base`. -/
def primesOver (base v : String) : Option Nat :=
  (List.range (v.length + 1)).find? fun k => decide (v = primed base k)

theorem primesOver_eq_some_iff {base v : String} {k : Nat} :
    primesOver base v = some k ↔ v = primed base k := by
  rw [primesOver, List.find?_range_eq_some, decide_eq_true_eq, List.mem_range]
  constructor
  · exact And.left
  · rintro rfl
    refine ⟨rfl, by rw [length_primed]; omega, fun j hj => ?_⟩
    rw [Bool.not_eq_true', decide_eq_false_iff_not]
    exact fun heq => absurd (primed_injective base heq) (by omega)

/-! ## Exchanging two names -/

/-- The name that `v` has when `a` and `b`, with or without primes, are exchanged. -/
def exchangeName (a b v : String) : String :=
  match primesOver a v with
  | some k => primed b k
  | none =>
    match primesOver b v with
    | some k => primed a k
    | none => v

section

variable {a b : String}

theorem exchangeName_left (k : Nat) : exchangeName a b (primed a k) = primed b k := by
  rw [exchangeName, primesOver_eq_some_iff.2 rfl]

theorem exchangeName_of_forall_ne {v : String} (ha : ∀ k, v ≠ primed a k)
    (hb : ∀ k, v ≠ primed b k) : exchangeName a b v = v := by
  have hnone {base : String} (h : ∀ k, v ≠ primed base k) : primesOver base v = none :=
    Option.eq_none_iff_forall_ne_some.2 fun k hk => h k (primesOver_eq_some_iff.1 hk)
  rw [exchangeName, hnone ha, hnone hb]

variable (ha : Unprimed a) (hb : Unprimed b) (hne : a ≠ b)

include ha hb hne

theorem exchangeName_right (k : Nat) : exchangeName a b (primed b k) = primed a k := by
  have hnone : primesOver a (primed b k) = none :=
    Option.eq_none_iff_forall_ne_some.2 fun j hj =>
      hne (hb.primed_inj ha (primesOver_eq_some_iff.1 hj)).1.symm
  rw [exchangeName, hnone, primesOver_eq_some_iff.2 rfl]

/-- Exchanging names twice changes nothing. -/
theorem exchangeName_exchangeName (v : String) : exchangeName a b (exchangeName a b v) = v := by
  by_cases hva : ∃ k, v = primed a k
  · obtain ⟨k, rfl⟩ := hva
    rw [exchangeName_left, exchangeName_right ha hb hne]
  · by_cases hvb : ∃ k, v = primed b k
    · obtain ⟨k, rfl⟩ := hvb
      rw [exchangeName_right ha hb hne, exchangeName_left]
    · rw [exchangeName_of_forall_ne (not_exists.1 hva) (not_exists.1 hvb),
        exchangeName_of_forall_ne (not_exists.1 hva) (not_exists.1 hvb)]

theorem exchangeName_prime (v : String) :
    exchangeName a b (v ++ "'") = exchangeName a b v ++ "'" := by
  by_cases hva : ∃ k, v = primed a k
  · obtain ⟨k, rfl⟩ := hva
    rw [exchangeName_left]
    exact exchangeName_left (k + 1)
  · by_cases hvb : ∃ k, v = primed b k
    · obtain ⟨k, rfl⟩ := hvb
      rw [exchangeName_right ha hb hne]
      exact exchangeName_right ha hb hne (k + 1)
    · have hprime {base : String} (hbase : Unprimed base) (h : ¬ ∃ k, v = primed base k) (k : Nat) :
          v ++ "'" ≠ primed base k := by
        cases k with
        | zero => exact (hbase.ne_append v).symm
        | succ k => exact fun heq => h ⟨k, (String.append_left_inj "'").1 heq⟩
      rw [exchangeName_of_forall_ne (not_exists.1 hva) (not_exists.1 hvb),
        exchangeName_of_forall_ne (hprime ha hva) (hprime hb hvb)]

end

/-- The renaming that exchanges two names, with or without primes. -/
def Renaming.exchange {a b : String} (ha : Unprimed a) (hb : Unprimed b) (hne : a ≠ b) :
    Renaming where
  name := exchangeName a b
  injective := Function.LeftInverse.injective (exchangeName_exchangeName ha hb hne)
  prime := exchangeName_prime ha hb hne

theorem Renaming.keepsMetas_exchange {a b : String} (ha : Unprimed a) (hb : Unprimed b)
    (hne : a ≠ b) (hmeta : ∀ n, a ≠ metaName n ∧ b ≠ metaName n) :
    (exchange ha hb hne).KeepsMetas := by
  intro n
  refine exchangeName_of_forall_ne (fun k h => ?_) fun k h => ?_
  · exact (hmeta n).1 ((unprimed_metaName n).primed_inj ha (j := 0) h).1.symm
  · exact (hmeta n).2 ((unprimed_metaName n).primed_inj hb (j := 0) h).1.symm

/-- Exchanging two names throughout a module, neither of them a meta's, makes the checker come to
the same end with the names exchanged. So the same modules are accepted, and where the free
variables of a reported type are metas, or at least not among the two names, the two types are the
same up to the names of bound variables. -/
theorem check_exchange {a b : String} (ha : Unprimed a) (hb : Unprimed b) (hne : a ≠ b)
    (hmeta : ∀ n, a ≠ metaName n ∧ b ≠ metaName n) (m : Module) (limit : Nat) :
    let π := Renaming.exchange ha hb hne
    ((m.rename π).check limit).outcome? =
        (m.check limit).outcome?.map (renameEnd π (Table.map (Ty.rename π))) ∧
      ∀ types name t, (m.check limit).outcome? = some (.ok types) → types.get? name = some t →
        ∃ types' t', ((m.rename π).check limit).outcome? = some (.ok types') ∧
          types'.get? name = some t' ∧ t' = t.rename π ∧
          ((∀ v ∈ t.freeVars, ∀ k, v ≠ primed a k ∧ v ≠ primed b k) →
            t'.nameless = t.nameless) := by
  intro π
  have hend := Module.check_rename (Renaming.keepsMetas_exchange ha hb hne hmeta) m limit
  refine ⟨hend, fun types name t htypes ht =>
    ⟨types.map (Ty.rename π), t.rename π, ?_, ?_, rfl, ?_⟩⟩
  · rw [hend, htypes]
    rfl
  · rw [Table.get?_map, ht, Option.map_some]
  · exact fun hfree => Ty.nameless_rename π fun v hv =>
      exchangeName_of_forall_ne (fun k => (hfree v hv k).1) fun k => (hfree v hv k).2

/-- The inner type abstraction captures the variable of the outer one. -/
def twiceSource : String :=
  "(def k (tfn 'a (fn (x : 'a) (tfn 'a (fn (y : 'a) x)))))"

def twiceType (v : String) : Ty :=
  .all v (.arrow (.var v) (.all v (.arrow (.var v) (.var v))))

theorem check_exchange_twice :
    ∃ π : Renaming, π "a" = "c" ∧ ∃ types',
      (((Module.recover twiceSource).rename π).check 9).outcome? = some (.ok types') ∧
        types'.get? "k" = some (twiceType "c") := by
  have ha : Unprimed "a" := by decide
  have hc : Unprimed "c" := by decide
  have hmeta (n : Nat) : "a" ≠ metaName n ∧ "c" ≠ metaName n :=
    ⟨ne_metaName (by decide) n, ne_metaName (by decide) n⟩
  have hcheck : ((Module.recover twiceSource).check 9).outcome? =
      some (.ok (Table.empty.insert "k" (twiceType "a"))) := by decide +kernel
  obtain ⟨types', t', hcheck', ht', rfl, -⟩ :=
    (check_exchange ha hc (by decide) hmeta (.recover twiceSource) 9).2 _ "k" _ hcheck rfl
  exact ⟨_, exchangeName_left (a := "a") (b := "c") 0, types', hcheck', ht'⟩

/-! ## One binder among others -/

namespace Term

mutual

/-- The term with another name for the type variable `v` where it is free. -/
def renameFree (v w : String) : Term → Term
  | .var index => .var index
  | .global name => .global name
  | .lam type body => .lam (type.map (·.substitute v (.var w))) (body.renameFree v w)
  | .app fn arg => .app (fn.renameFree v w) (arg.renameFree v w)
  | .tlam u body => .tlam u (if u = v then body else body.renameFree v w)
  | .tapp fn type => .tapp (fn.renameFree v w) (type.substitute v (.var w))
  | .con name args => .con name (renameFreeAll v w args)
  | .case scrutinee branches =>
    .case (scrutinee.renameFree v w) (renameFreeBranches v w branches)
  | .letIn name value body => .letIn name (value.renameFree v w) (body.renameFree v w)
  | .int value => .int value
  | .string text => .string text
  | .prim name => .prim name
  | .tool name args => .tool name (renameFreeAll v w args)

def renameFreeAll (v w : String) : List Term → List Term
  | [] => []
  | arg :: args => arg.renameFree v w :: renameFreeAll v w args

def renameFreeBranches (v w : String) : List Branch → List Branch
  | [] => []
  | .mk constructor vars body :: branches =>
    .mk constructor vars (body.renameFree v w) :: renameFreeBranches v w branches

end

/-- The term with another name for the variable of the type abstraction that it is. -/
def renameBinder (w : String) : Term → Term
  | .tlam v body => .tlam w (body.renameFree v w)
  | t => t

end Term

namespace Module

/-- The module with another name for the variable of the type abstraction that the definition `name`
is. -/
def renameBinder (m : Module) (name w : String) : Module :=
  { m with declarations := m.declarations.map fun
      | .definition d =>
        .definition (if d.name = name then { d with body := d.body.renameBinder w } else d)
      | d => d }

/-- The types that a check reports, up to the names of bound variables; `none` if the module is
rejected. -/
def reported? (m : Module) (limit : Nat) : Option (Option (Table Nameless)) :=
  (m.check limit).outcome?.map fun
    | .ok types => some (types.map Ty.nameless)
    | .error _ => none

end Module

/-- The comparison for `f` gives the name that `g` binds a meaning. -/
def learningSource : String :=
  "(def i (tfn 'a (fn (x : 'a) x)))
(def f : (forall 'b (-> 'b Int)) i)
(def g (tfn 'a (fn (x : 'a) x)))"

/-- The first meta that is made is called `'_t0`. -/
def metaSource : String :=
  "(data (List 'a) Nil (Cons 'a (List 'a)))
(def f : (forall 'a (-> 'a (List Int))) (tfn 'a (fn (x : 'a) (Cons 1 Nil))))"

/-- The new name is nowhere in the program, which is accepted with the binder called either way, and
the reported types differ. -/
def DependsOnName (source name w : String) : Prop :=
  ∃ m limit, Module.ofSource source = .ok m ∧ w ∉ m.typeNames ++ m.paramNames ∧
    m.reported? limit ≠ none ∧ (m.renameBinder name w).reported? limit ≠ none ∧
    (m.renameBinder name w).reported? limit ≠ m.reported? limit

theorem dependsOnName_of_reported? {source name w : String}
    (h : let m := Module.recover source
      (Surface.parse source).errors.isEmpty = true ∧ m.hasErrors = false ∧
        w ∉ m.typeNames ++ m.paramNames ∧ m.reported? 9 ≠ none ∧
        (m.renameBinder name w).reported? 9 ≠ none ∧
        (m.renameBinder name w).reported? 9 ≠ m.reported? 9) :
    DependsOnName source name w := by
  obtain ⟨hparse, hscope, hrest⟩ := h
  exact ⟨.recover source, 9, ofSource_eq_ok hparse hscope, hrest⟩

/-- What the checker reports depends on the name of a single binder, even where the new name is
nowhere in the module. -/
theorem outcome_depends_on_names :
    DependsOnName learningSource "g" "c" ∧ DependsOnName twiceSource "k" "b" ∧
      DependsOnName metaSource "f" "_t0" := by
  refine ⟨?_, ?_, ?_⟩
  all_goals exact dependsOnName_of_reported? (by decide +kernel)

end PolyLambda
