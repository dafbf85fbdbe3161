import Mathlib.Data.Finset.Card
import Mathlib.Order.Interval.Finset.Nat
import PolyLambda.Ty.FreshName

/-!
# Fresh names are fresh

The search for a fresh name looks at `base'`, `base''` and so on, and gives up after as many steps
as there are names to avoid. It never has to give up: the candidates are all different, so `n` names
cannot refuse `n + 1` of them (`le_card_of_forall_mem`).

So the limit has no part in the result. A search that has none (`PrimeSearch`) ends as well, and
with the same name, which has as few primes as will do (`freshName_fewest`).
-/

namespace PolyLambda

/-- The name `base` with `n` primes. -/
def primed (base : String) : Nat → String
  | 0 => base
  | n + 1 => primed base n ++ "'"

theorem length_primed (base : String) (n : Nat) :
    (primed base n).length = base.length + n := by
  induction n with
  | zero => rfl
  | succ n ih => rw [primed, String.length_append, ih]; rfl

theorem prefix_primed (base : String) (n : Nat) : base.toList <+: (primed base n).toList := by
  induction n with
  | zero => exact List.prefix_rfl
  | succ n ih =>
    rw [primed, String.toList_append]
    exact ih.trans (List.prefix_append _ _)

theorem primed_injective (base : String) : Function.Injective (primed base) := by
  intro i j h
  have hlen := congrArg String.length h
  rw [length_primed, length_primed] at hlen
  omega

/-- So many names can refuse no more numbers of primes. -/
theorem le_card_of_forall_mem {base : String} {avoid : List String} {m : Nat}
    (h : ∀ k, 1 ≤ k → k < m → primed base k ∈ avoid) : m ≤ avoid.toFinset.card + 1 := by
  have hsub : (Finset.Ico 1 m).image (primed base) ⊆ avoid.toFinset := by
    intro name hname
    obtain ⟨k, hk, rfl⟩ := Finset.mem_image.1 hname
    obtain ⟨hpos, hlt⟩ := Finset.mem_Ico.1 hk
    exact List.mem_toFinset.2 (h k hpos hlt)
  have hcard := Finset.card_le_card hsub
  rw [Finset.card_image_of_injective _ (primed_injective base), Nat.card_Ico] at hcard
  omega

/-- The search stops at some number of primes. All it has passed is in `avoid`, and where it stops
is not, unless it has run out of steps. -/
theorem exists_addPrimes_eq (avoid : List String) (steps : Nat) (base : String) (n : Nat) :
    ∃ m, addPrimes avoid steps (primed base n) = primed base m ∧ n ≤ m ∧
      (∀ k, n ≤ k → k < m → primed base k ∈ avoid) ∧
      (primed base m ∉ avoid ∨ m = n + steps) := by
  induction steps generalizing n with
  | zero => exact ⟨n, rfl, Nat.le_refl n, fun k h h' => by omega, .inr rfl⟩
  | succ steps ih =>
      rw [addPrimes]
      by_cases h : primed base n ∈ avoid
      · rw [if_pos h]
        obtain ⟨m, heq, hle, hpassed, hstop⟩ := ih (n + 1)
        refine ⟨m, heq, by omega, fun k hk hkm => ?_, hstop.imp_right (by omega)⟩
        rcases Nat.eq_or_lt_of_le hk with rfl | hlt
        · exact h
        · exact hpassed k hlt hkm
      · rw [if_neg h]
        exact ⟨n, rfl, Nat.le_refl n, fun k h h' => by omega, .inl h⟩

/-- A fresh name is `base` with as few primes as will do, at least one. -/
theorem exists_freshName_eq (base : String) (avoid : List String) :
    ∃ m, freshName base avoid = primed base m ∧ 1 ≤ m ∧
      (∀ k, 1 ≤ k → k < m → primed base k ∈ avoid) ∧ primed base m ∉ avoid := by
  obtain ⟨m, heq, hle, hpassed, hstop⟩ := exists_addPrimes_eq avoid avoid.length base 1
  refine ⟨m, heq, hle, hpassed, fun hm => ?_⟩
  -- The candidates from the first to the last would all be in `avoid`, and they are too many.
  have hlast : m = 1 + avoid.length := hstop.resolve_left (not_not_intro hm)
  have hall : ∀ k, 1 ≤ k → k < m + 1 → primed base k ∈ avoid := by
    intro k hk hkm
    rcases Nat.lt_or_ge k m with hlt | hge
    · exact hpassed k hk hlt
    · rw [show k = m by omega]
      exact hm
  have hcard := le_card_of_forall_mem hall
  have hlength := avoid.toFinset_card_le
  omega

/-- The fewest primes that will do are a certain number. -/
theorem eq_of_fewest {base : String} {avoid : List String} {m m' : Nat} (hpos : 1 ≤ m)
    (hpos' : 1 ≤ m')
    (hpassed : ∀ k, 1 ≤ k → k < m → primed base k ∈ avoid) (hfresh : primed base m ∉ avoid)
    (hpassed' : ∀ k, 1 ≤ k → k < m' → primed base k ∈ avoid) (hfresh' : primed base m' ∉ avoid) :
    m = m' := by
  refine Nat.le_antisymm ?_ ?_
  · exact Nat.le_of_not_lt fun hlt => hfresh' (hpassed m' hpos' hlt)
  · exact Nat.le_of_not_lt fun hlt => hfresh (hpassed' m hpos hlt)

/-- Two searches that are refused the same numbers of primes end with the same number. -/
theorem exists_freshName_eq_of_iff {base base' : String} {avoid avoid' : List String}
    (h : ∀ k, primed base' k ∈ avoid' ↔ primed base k ∈ avoid) :
    ∃ m, freshName base avoid = primed base m ∧ freshName base' avoid' = primed base' m := by
  obtain ⟨m, hm, hpos, hpassed, hfresh⟩ := exists_freshName_eq base avoid
  obtain ⟨m', hm', hpos', hpassed', hfresh'⟩ := exists_freshName_eq base' avoid'
  have heq : m = m' := eq_of_fewest hpos hpos' hpassed hfresh
    (fun k hk hkm => (h k).1 (hpassed' k hk hkm)) (mt (h m').2 hfresh')
  exact ⟨m, hm, heq ▸ hm'⟩

/-- Only what is to be avoided matters, not how often or in which order it is listed. -/
theorem freshName_congr {base : String} {avoid avoid' : List String}
    (h : ∀ v, v ∈ avoid' ↔ v ∈ avoid) : freshName base avoid = freshName base avoid' := by
  have hprimed (k : Nat) : primed base k ∈ avoid' ↔ primed base k ∈ avoid := h _
  obtain ⟨m, hm, hm'⟩ := exists_freshName_eq_of_iff hprimed
  rw [hm, hm']

theorem freshName_not_mem (base : String) (avoid : List String) :
    freshName base avoid ∉ avoid := by
  obtain ⟨m, heq, -, -, hfresh⟩ := exists_freshName_eq base avoid
  rwa [heq]

/-! ## The search without a limit -/

/-- How a search goes that adds a prime as long as the candidate is in `avoid`: the candidate it
starts from, how many primes it adds, and the name it ends with. It ends if there are such a number
and such a name. -/
inductive PrimeSearch (avoid : List String) : String → Nat → String → Prop
  | free {candidate : String} (h : candidate ∉ avoid) : PrimeSearch avoid candidate 0 candidate
  | taken {candidate name : String} {added : Nat} (h : candidate ∈ avoid)
    (hnext : PrimeSearch avoid (candidate ++ "'") added name) :
    PrimeSearch avoid candidate (added + 1) name

/-- A search goes through candidates that are in `avoid` and ends with one that is not. -/
theorem primeSearch_iff {avoid : List String} {base name : String} {n added : Nat} :
    PrimeSearch avoid (primed base n) added name ↔
      name = primed base (n + added) ∧ primed base (n + added) ∉ avoid ∧
        ∀ k, n ≤ k → k < n + added → primed base k ∈ avoid := by
  induction added generalizing n with
  | zero =>
      constructor
      · rintro (hfree | _)
        exact ⟨rfl, hfree, fun k hk hkn => by omega⟩
      · rintro ⟨rfl, hfree, -⟩
        exact .free hfree
  | succ added ih =>
      have hnext : PrimeSearch avoid (primed base n ++ "'") added name ↔ _ := ih (n := n + 1)
      rw [show n + 1 + added = n + (added + 1) by omega] at hnext
      constructor
      · rintro (_ | ⟨htaken, hrest⟩)
        obtain ⟨hname, hfree, hpassed⟩ := hnext.1 hrest
        refine ⟨hname, hfree, fun k hk hkn => ?_⟩
        rcases Nat.eq_or_lt_of_le hk with rfl | hlt
        · exact htaken
        · exact hpassed k hlt hkn
      · rintro ⟨hname, hfree, hpassed⟩
        refine .taken (hpassed n (Nat.le_refl n) (by omega)) (hnext.2 ⟨hname, hfree, ?_⟩)
        exact fun k hk hkn => hpassed k (by omega) hkn

/-- A fresh name is `base` with as few primes as will do and at least one; they are at most one more
than there are names to avoid. The search without a limit ends, in one way only, and with the same
name. -/
theorem freshName_fewest (base : String) (avoid : List String) :
    ∃ m, 1 ≤ m ∧ m ≤ avoid.toFinset.card + 1 ∧ freshName base avoid = primed base m ∧
      primed base m ∉ avoid ∧ (∀ j, 1 ≤ j → j < m → primed base j ∈ avoid) ∧
      ∀ added name, PrimeSearch avoid (base ++ "'") added name ↔
        added + 1 = m ∧ name = freshName base avoid := by
  obtain ⟨m, heq, hpos, hpassed, hfresh⟩ := exists_freshName_eq base avoid
  refine ⟨m, hpos, le_card_of_forall_mem hpassed, heq, hfresh, hpassed, fun added name => ?_⟩
  have hsearch : PrimeSearch avoid (base ++ "'") added name ↔ _ := primeSearch_iff (n := 1)
  rw [hsearch, heq]
  constructor
  · rintro ⟨rfl, hfree, htaken⟩
    have hm : 1 + added = m := eq_of_fewest (by omega) hpos htaken hfree hpassed hfresh
    exact ⟨by omega, by rw [hm]⟩
  · rintro ⟨hm, rfl⟩
    rw [show 1 + added = m by omega]
    exact ⟨rfl, hfresh, hpassed⟩

example : freshName "a" ["a'", "b", "a''"] = "a'''" := by decide

end PolyLambda
