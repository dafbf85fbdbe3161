/-!
# Tables

Finite maps from names, kept as lists in the order of their names. A name occurs at most once, so
there is one table for each finite map (`Table.ext`), and a table is printed as it stands.

Whoever uses a table sees it through `get?`, and each operation says what it does to that view.
-/

namespace PolyLambda

/-- A finite map from names to `α`. -/
structure Table (α : Type) where
  entries : List (String × α)
  sorted : entries.Pairwise fun e f => e.1 < f.1
  deriving DecidableEq

namespace Table

variable {α β : Type}

/-- The table that holds nothing. -/
def empty : Table α := ⟨[], .nil⟩

instance : Inhabited (Table α) := ⟨empty⟩

/-- What `t` holds under `name`. -/
def get? (t : Table α) (name : String) : Option α :=
  t.entries.lookup name

/-- Whether `t` holds anything under `name`. -/
def contains (t : Table α) (name : String) : Bool :=
  (t.get? name).isSome

/-- The names that `t` holds something under, in order. -/
def names (t : Table α) : List String :=
  t.entries.map Prod.fst

/-- All that `t` holds, in the order of the names. -/
def values (t : Table α) : List α :=
  t.entries.map Prod.snd

/-! ## Insertion -/

/-- The entry `(name, a)` in its place among the ordered `entries`, instead of one with its name. -/
def insertEntry (name : String) (a : α) : List (String × α) → List (String × α)
  | [] => [(name, a)]
  | (other, b) :: rest =>
    if name < other then (name, a) :: (other, b) :: rest
    else if name = other then (name, a) :: rest
    else (other, b) :: insertEntry name a rest

theorem mem_insertEntry {name : String} {a : α} {entries : List (String × α)}
    {e : String × α} (h : e ∈ insertEntry name a entries) : e = (name, a) ∨ e ∈ entries := by
  induction entries with
  | nil => simpa [insertEntry] using h
  | cons first rest ih =>
    obtain ⟨other, b⟩ := first
    unfold insertEntry at h
    split at h
    · exact List.mem_cons.1 h
    · split at h
      · rcases List.mem_cons.1 h with h | h
        · exact .inl h
        · exact .inr (List.mem_cons_of_mem _ h)
      · rcases List.mem_cons.1 h with h | h
        · exact .inr (h ▸ List.mem_cons_self)
        · exact (ih h).imp_right (List.mem_cons_of_mem _)

theorem sorted_insertEntry (name : String) (a : α) {entries : List (String × α)}
    (h : entries.Pairwise fun e f => e.1 < f.1) :
    (insertEntry name a entries).Pairwise fun e f => e.1 < f.1 := by
  induction entries with
  | nil => exact List.pairwise_singleton _ _
  | cons first rest ih =>
    obtain ⟨other, b⟩ := first
    obtain ⟨hFirst, hRest⟩ := List.pairwise_cons.1 h
    unfold insertEntry
    split
    next hlt =>
      refine List.pairwise_cons.2 ⟨fun e he => ?_, h⟩
      rcases List.mem_cons.1 he with rfl | he
      · exact hlt
      · exact String.lt_trans hlt (hFirst e he)
    next hge =>
      split
      next heq => exact List.pairwise_cons.2 ⟨fun e he => heq ▸ hFirst e he, hRest⟩
      next hne =>
        refine List.pairwise_cons.2 ⟨fun e he => ?_, ih hRest⟩
        rcases mem_insertEntry he with rfl | he
        · exact Std.lt_of_le_of_ne (String.not_lt.1 hge) (Ne.symm hne)
        · exact hFirst e he

/-- The table that maps `name` to `a` and is otherwise `t`. -/
def insert (t : Table α) (name : String) (a : α) : Table α :=
  ⟨insertEntry name a t.entries, sorted_insertEntry name a t.sorted⟩

/-- The table with the given entries, of which a later one wins over an earlier one with its
name. -/
def ofList (entries : List (String × α)) : Table α :=
  entries.foldl (fun t entry => t.insert entry.1 entry.2) empty

/-! ## Other operations -/

/-- The table without what it holds under `name`. -/
def erase (t : Table α) (name : String) : Table α :=
  ⟨t.entries.filter fun entry => entry.1 ≠ name, t.sorted.filter _⟩

/-- The table with `f` applied to all it holds. -/
def map (f : α → β) (t : Table α) : Table β :=
  ⟨t.entries.map fun entry => (entry.1, f entry.2), List.pairwise_map.2 t.sorted⟩

/-! ## The view -/

theorem lookup_cons (name other : String) (b : α) (rest : List (String × α)) :
    List.lookup name ((other, b) :: rest) =
      if name = other then some b else List.lookup name rest := by
  rw [List.lookup_cons]
  by_cases h : name = other
  · rw [if_pos h, beq_iff_eq.2 h]
  · rw [if_neg h, beq_eq_false_iff_ne.2 h]

theorem lookup_eq_none {name : String} {entries : List (String × α)}
    (h : ∀ e ∈ entries, name < e.1) : List.lookup name entries = none := by
  induction entries with
  | nil => rfl
  | cons first rest ih =>
    obtain ⟨other, b⟩ := first
    have hne : name ≠ other := by
      rintro rfl
      exact String.lt_irrefl _ (h _ List.mem_cons_self)
    rw [lookup_cons, if_neg hne]
    exact ih fun e he => h e (List.mem_cons_of_mem _ he)

@[simp]
theorem get?_empty (name : String) : (empty : Table α).get? name = none := rfl

/-- What a table holds under a name is what it has an entry for. -/
theorem mem_entries_iff {t : Table α} {name : String} {a : α} :
    (name, a) ∈ t.entries ↔ t.get? name = some a := by
  obtain ⟨entries, hs⟩ := t
  simp only [get?]
  induction entries with
  | nil => simp only [List.lookup_nil, List.not_mem_nil, reduceCtorEq]
  | cons first rest ih =>
    obtain ⟨other, b⟩ := first
    obtain ⟨hother, hrest⟩ := List.pairwise_cons.1 hs
    rw [List.mem_cons, Prod.mk.injEq, lookup_cons, ih hrest]
    split
    next h =>
      subst h
      rw [lookup_eq_none hother]
      simp only [true_and, reduceCtorEq, or_false, Option.some.injEq, eq_comm]
    next h => simp only [h, false_and, false_or]

theorem mem_names_iff {t : Table α} {name : String} :
    name ∈ t.names ↔ ∃ a, t.get? name = some a := by
  simp only [names, List.mem_map, Prod.exists, exists_and_right, exists_eq_right, mem_entries_iff]

theorem mem_values_iff {t : Table α} {a : α} :
    a ∈ t.values ↔ ∃ name, t.get? name = some a := by
  simp only [values, List.mem_map, Prod.exists, exists_eq_right, mem_entries_iff]

/-- A name is looked up as it was last entered. -/
theorem get?_insert (t : Table α) (name x : String) (a : α) :
    (t.insert name a).get? x = if x = name then some a else t.get? x := by
  obtain ⟨entries, hs⟩ := t
  simp only [get?, insert]
  clear hs
  induction entries with
  | nil => simp only [insertEntry, lookup_cons, List.lookup_nil]
  | cons first rest ih =>
    obtain ⟨other, b⟩ := first
    unfold insertEntry
    split
    · simp only [lookup_cons]
    · split
      next h =>
        subst h
        simp only [lookup_cons]
        split <;> rfl
      next h =>
        simp only [lookup_cons, ih]
        by_cases hx : x = other
        · have hn : x ≠ name := fun hn => h (hn.symm.trans hx)
          rw [if_pos hx, if_pos hx, if_neg hn]
        · rw [if_neg hx, if_neg hx]

theorem contains_insert {t : Table α} {name : String} {a : α} (other : String) :
    (t.insert name a).contains other = true ↔ name = other ∨ t.contains other = true := by
  rw [contains, get?_insert]
  split
  next heq => simp [heq]
  next hne => simp [contains, Ne.symm hne]

theorem get?_erase (t : Table α) (name x : String) :
    (t.erase name).get? x = if x = name then none else t.get? x := by
  obtain ⟨entries, hs⟩ := t
  simp only [get?, erase]
  clear hs
  induction entries with
  | nil => simp only [List.filter_nil, List.lookup_nil, ite_self]
  | cons first rest ih =>
    obtain ⟨other, b⟩ := first
    by_cases h : other = name
    · subst h
      rw [List.filter_cons_of_neg (by simp), ih, lookup_cons]
      split <;> rfl
    · rw [List.filter_cons_of_pos (by simpa using h), lookup_cons, lookup_cons, ih]
      by_cases hx : x = other
      · have hn : x ≠ name := fun hn => h (hx.symm.trans hn)
        rw [if_pos hx, if_pos hx, if_neg hn]
      · rw [if_neg hx, if_neg hx]

theorem get?_map (f : α → β) (t : Table α) (name : String) :
    (t.map f).get? name = (t.get? name).map f := by
  obtain ⟨entries, hs⟩ := t
  simp only [get?, map]
  clear hs
  induction entries with
  | nil => rfl
  | cons first rest ih =>
    obtain ⟨other, b⟩ := first
    simp only [List.map_cons, lookup_cons, ih]
    split <;> rfl

theorem lookup_cons_eq_none {name k : String} {b : α} {entries : List (String × α)} (hlt : name < k)
    (hk : ∀ e ∈ entries, k < e.1) : List.lookup name ((k, b) :: entries) = none := by
  refine lookup_eq_none fun e he => ?_
  rcases List.mem_cons.1 he with rfl | he
  · exact hlt
  · exact String.lt_trans hlt (hk e he)

/-- Tables that hold the same under every name are equal. -/
theorem ext {s t : Table α} (h : ∀ name, s.get? name = t.get? name) : s = t := by
  obtain ⟨es, hs⟩ := s
  obtain ⟨fs, ht⟩ := t
  suffices es = fs by subst this; rfl
  simp only [get?] at h
  induction es generalizing fs with
  | nil =>
    cases fs with
    | nil => rfl
    | cons f fs =>
      have hf := h f.1
      rw [lookup_cons, if_pos rfl] at hf
      cases hf
  | cons e es ih =>
    obtain ⟨k, a⟩ := e
    obtain ⟨hk, hes⟩ := List.pairwise_cons.1 hs
    cases fs with
    | nil =>
      have he := h k
      rw [lookup_cons, if_pos rfl] at he
      cases he
    | cons f fs =>
      obtain ⟨l, b⟩ := f
      obtain ⟨hl, hfs⟩ := List.pairwise_cons.1 ht
      -- The smaller of two different first names is in one of the tables only.
      have hkl : k = l := by
        by_cases hlt : k < l
        · have hk := h k
          rw [lookup_cons_eq_none hlt hl, lookup_cons, if_pos rfl] at hk
          cases hk
        · by_cases hgt : l < k
          · have hl := h l
            rw [lookup_cons_eq_none hgt hk, lookup_cons, if_pos rfl] at hl
            cases hl
          · exact String.le_antisymm (String.not_lt.1 hgt) (String.not_lt.1 hlt)
      subst hkl
      have hab := h k
      rw [lookup_cons, lookup_cons, if_pos rfl, if_pos rfl] at hab
      cases hab
      refine congrArg _ (ih hes fs hfs fun x => ?_)
      by_cases hx : x = k
      · subst hx
        rw [lookup_eq_none hk, lookup_eq_none hl]
      · have hxy := h x
        rwa [lookup_cons, lookup_cons, if_neg hx, if_neg hx] at hxy

theorem mem_of_get?_foldl_insert {entries : List (String × α)} {t : Table α} {name : String} {a : α}
    (h : (entries.foldl (fun t e => t.insert e.1 e.2) t).get? name = some a) :
    (name, a) ∈ entries ∨ t.get? name = some a := by
  induction entries generalizing t with
  | nil => exact .inr h
  | cons e entries ih =>
    rcases ih h with hmem | hmem
    · exact .inl (List.mem_cons_of_mem _ hmem)
    · rw [get?_insert] at hmem
      split at hmem
      next heq =>
        cases hmem
        rw [heq]
        exact .inl List.mem_cons_self
      next => exact .inr hmem

/-- A table that is made from entries holds nothing else. -/
theorem mem_of_get?_ofList {entries : List (String × α)} {name : String} {a : α}
    (h : (ofList entries).get? name = some a) : (name, a) ∈ entries :=
  (mem_of_get?_foldl_insert h).resolve_right nofun

theorem get?_foldl_insert_of_mem {entries : List (String × α)} {t : Table α}
    (hnames : (entries.map Prod.fst).Nodup) {name : String} {a : α}
    (h : (name, a) ∈ entries ∨ name ∉ entries.map Prod.fst ∧ t.get? name = some a) :
    (entries.foldl (fun t e => t.insert e.1 e.2) t).get? name = some a := by
  induction entries generalizing t with
  | nil => exact (h.resolve_left List.not_mem_nil).2
  | cons e entries ih =>
    obtain ⟨hnot, hnames⟩ := List.nodup_cons.1 hnames
    refine ih hnames ?_
    rw [get?_insert]
    rcases h with hmem | ⟨hmem, ht⟩
    · rcases List.mem_cons.1 hmem with rfl | hmem
      · exact .inr ⟨hnot, if_pos rfl⟩
      · exact .inl hmem
    · rw [List.map_cons, List.mem_cons, not_or] at hmem
      rw [if_neg hmem.1]
      exact .inr ⟨hmem.2, ht⟩

/-- A table that is made from entries with different names holds them all. -/
theorem get?_ofList_of_mem {entries : List (String × α)} (hnames : (entries.map Prod.fst).Nodup)
    {name : String} {a : α} (h : (name, a) ∈ entries) : (ofList entries).get? name = some a :=
  get?_foldl_insert_of_mem hnames (.inl h)

theorem get?_foldl_insert_map (f : String → α) (names : List String) (t : Table α) (x : String) :
    ((names.map fun v => (v, f v)).foldl (fun t e => t.insert e.1 e.2) t).get? x =
      if x ∈ names then some (f x) else t.get? x := by
  induction names generalizing t with
  | nil => rfl
  | cons v names ih =>
    rw [List.map_cons, List.foldl_cons, ih, get?_insert]
    by_cases hx : x ∈ names
    · rw [if_pos hx, if_pos (List.mem_cons_of_mem v hx)]
    · rw [if_neg hx]
      split
      next h => rw [h, if_pos List.mem_cons_self]
      next h => rw [if_neg (List.not_mem_cons_of_ne_of_not_mem h hx)]

/-- The table of a function on `names`, which may be listed more than once. -/
theorem get?_ofList_map (f : String → α) (names : List String) (x : String) :
    (ofList (names.map fun v => (v, f v))).get? x = if x ∈ names then some (f x) else none :=
  get?_foldl_insert_map f names empty x

theorem insert_insert (t : Table α) (name : String) (a b : α) :
    (t.insert name a).insert name b = t.insert name b := by
  refine ext fun x => ?_
  simp only [get?_insert]
  split <;> rfl

/-- What is entered again as it is changes nothing. -/
theorem insert_of_get? {t : Table α} {name : String} {a : α} (h : t.get? name = some a) :
    t.insert name a = t := by
  refine ext fun x => ?_
  rw [get?_insert]
  split
  next hx => rw [hx, h]
  next => rfl

theorem erase_insert (t : Table α) (name : String) (a : α) :
    (t.insert name a).erase name = t.erase name := by
  refine ext fun x => ?_
  rw [get?_erase, get?_erase, get?_insert]
  split <;> rfl

theorem erase_of_get? {t : Table α} {name : String} (h : t.get? name = none) :
    t.erase name = t := by
  refine ext fun x => ?_
  rw [get?_erase]
  split
  next hx => rw [hx, h]
  next => rfl

/-- An entry that `p` leaves out may as well not be there. -/
theorem filter_values_insert {p : α → Bool} {a : α} (ha : p a = false) (t : Table α)
    (name : String) :
    (t.insert name a).values.filter p = (t.erase name).values.filter p := by
  have hall : ∀ e ∈ (t.insert name a).entries, p e.2 = true → e.1 ≠ name := by
    rintro ⟨other, b⟩ he hb rfl
    have hget := mem_entries_iff.1 he
    rw [get?_insert, if_pos rfl, Option.some.injEq] at hget
    rw [← hget, ha] at hb
    cases hb
  rw [← erase_insert t name a, values, values, erase, List.filter_map, List.filter_map,
    List.filter_filter]
  refine congrArg (List.map Prod.snd) (List.filter_congr fun e he => ?_)
  rw [Bool.eq_iff_iff, Bool.and_eq_true, decide_eq_true_eq]
  exact (and_iff_left_of_imp (hall e he)).symm

/-! ## What holds of all -/

/-- Whether a property holds of all that a table holds. -/
def All (P : α → Prop) (t : Table α) : Prop :=
  ∀ name a, t.get? name = some a → P a

theorem all_iff_values {P : α → Prop} {t : Table α} : t.All P ↔ ∀ a ∈ t.values, P a := by
  simp only [All, mem_values_iff, forall_exists_index]
  exact forall_comm

theorem all_empty {P : α → Prop} : (empty : Table α).All P := nofun

theorem All.insert {P : α → Prop} {t : Table α} (h : t.All P) (name : String) {a : α} (ha : P a) :
    (t.insert name a).All P := by
  intro other b hb
  rw [get?_insert] at hb
  split at hb
  next =>
    cases hb
    exact ha
  next => exact h other b hb

theorem All.erase {P : α → Prop} {t : Table α} (h : t.All P) (name : String) :
    (t.erase name).All P := by
  intro other b hb
  rw [get?_erase] at hb
  split at hb
  next => cases hb
  next => exact h other b hb

theorem All.foldl_insert {β : Type} {P : α → Prop} (key : β → String) (f : β → α) {bs : List β}
    {t : Table α} (h : t.All P) (hf : ∀ b ∈ bs, P (f b)) :
    (bs.foldl (fun t b => t.insert (key b) (f b)) t).All P := by
  induction bs generalizing t with
  | nil => exact h
  | cons b bs ih =>
    rw [List.forall_mem_cons] at hf
    exact ih (h.insert (key b) hf.1) hf.2

theorem All.foldl_erase {β : Type} {P : α → Prop} (key : β → String) {bs : List β}
    {t : Table α} (h : t.All P) : (bs.foldl (fun t b => t.erase (key b)) t).All P := by
  induction bs generalizing t with
  | nil => exact h
  | cons b bs ih => exact ih (h.erase (key b))

end Table

end PolyLambda
