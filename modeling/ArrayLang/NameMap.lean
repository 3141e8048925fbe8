/-!
# Maps from names

Finite maps whose keys are names, kept in the order of the names. Environments, tables of functions
and the reconciled variables of a join point are such maps. Main statements: looking a name up after
an insertion or an erasure.
-/

namespace ArrayLang

universe u v

/-- A finite map from names, as pairs in strictly increasing order of the names. -/
structure NameMap (α : Type u) where
  entries : List (String × α)
  sorted : entries.Pairwise (fun a b => a.1 < b.1)

namespace NameMap

variable {α : Type u} {β : Type v}

instance : EmptyCollection (NameMap α) := ⟨⟨[], .nil⟩⟩

instance : Inhabited (NameMap α) := ⟨∅⟩

/-- The value of a name. -/
def find? (m : NameMap α) (name : String) : Option α :=
  m.entries.lookup name

def contains (m : NameMap α) (name : String) : Bool :=
  (m.find? name).isSome

def names (m : NameMap α) : List String :=
  m.entries.map (·.1)

def values (m : NameMap α) : List α :=
  m.entries.map (·.2)

/-! ## Insertion -/

/-- Inserts a pair into a sorted list of pairs, in place of one with its name. -/
def insertEntry (name : String) (value : α) : List (String × α) → List (String × α)
  | [] => [(name, value)]
  | (n, v) :: rest =>
    if name < n then (name, value) :: (n, v) :: rest
    else if n < name then (n, v) :: insertEntry name value rest
    else (name, value) :: rest

theorem mem_insertEntry {name : String} {value : α} {l : List (String × α)} {e : String × α}
    (h : e ∈ insertEntry name value l) : e = (name, value) ∨ e ∈ l := by
  induction l with
  | nil => simpa [insertEntry] using h
  | cons x rest ih =>
    simp only [insertEntry] at h
    split at h
    · simpa using h
    · split at h
      · rcases List.mem_cons.1 h with h | h
        · exact .inr (h ▸ List.mem_cons_self)
        · exact (ih h).imp_right (List.mem_cons_of_mem _)
      · rcases List.mem_cons.1 h with h | h
        · exact .inl h
        · exact .inr (List.mem_cons_of_mem _ h)

/-- Two names neither of which is smaller are the same. -/
theorem name_eq_of_not_lt {a b : String} (h₁ : ¬a < b) (h₂ : ¬b < a) : a = b :=
  String.le_antisymm (String.not_lt.1 h₂) (String.not_lt.1 h₁)

theorem pairwise_insertEntry (name : String) (value : α) {l : List (String × α)}
    (h : l.Pairwise (fun a b => a.1 < b.1)) :
    (insertEntry name value l).Pairwise (fun a b => a.1 < b.1) := by
  induction l with
  | nil => simp [insertEntry]
  | cons x rest ih =>
    obtain ⟨n, v⟩ := x
    rw [List.pairwise_cons] at h
    simp only [insertEntry]
    split
    · rename_i lt
      refine List.pairwise_cons.2 ⟨fun e he => ?_, List.pairwise_cons.2 h⟩
      rcases List.mem_cons.1 he with rfl | he
      · exact lt
      · exact String.lt_trans lt (h.1 e he)
    · split
      · rename_i gt
        refine List.pairwise_cons.2 ⟨fun e he => ?_, ih h.2⟩
        rcases mem_insertEntry he with rfl | he
        · exact gt
        · exact h.1 e he
      · rename_i nlt ngt
        have same : name = n := name_eq_of_not_lt nlt ngt
        subst same
        exact List.pairwise_cons.2 ⟨h.1, h.2⟩

/-- The map with `name` bound to `value`, whatever it was bound to before. -/
def insert (m : NameMap α) (name : String) (value : α) : NameMap α :=
  ⟨insertEntry name value m.entries, pairwise_insertEntry name value m.sorted⟩

theorem lookup_insertEntry (name : String) (value : α) (l : List (String × α)) (other : String) :
    (insertEntry name value l).lookup other
      = if other = name then some value else l.lookup other := by
  induction l with
  | nil =>
    by_cases h : other = name
    · simp [insertEntry, h]
    · simp [insertEntry, h, List.lookup_cons, beq_false_of_ne h]
  | cons x rest ih =>
    obtain ⟨n, v⟩ := x
    simp only [insertEntry]
    split
    · by_cases h : other = name
      · simp [h]
      · simp [List.lookup_cons, beq_false_of_ne h, h]
    · split
      · rename_i gt
        by_cases hn : other = n
        · have ne : other ≠ name := by
            rintro rfl
            exact String.lt_irrefl _ (hn ▸ gt)
          simp [hn, hn ▸ ne]
        · simp [List.lookup_cons, beq_false_of_ne hn, ih]
      · rename_i nlt ngt
        have same : name = n := name_eq_of_not_lt nlt ngt
        subst same
        by_cases h : other = name
        · simp [h]
        · simp [List.lookup_cons, beq_false_of_ne h, h]

@[simp] theorem find?_insert (m : NameMap α) (name : String) (value : α) (other : String) :
    (m.insert name value).find? other = if other = name then some value else m.find? other :=
  lookup_insertEntry name value m.entries other

@[simp] theorem find?_empty (name : String) : (∅ : NameMap α).find? name = none := rfl

/-- The map that binds each name to the last value it is paired with. -/
def ofList (pairs : List (String × α)) : NameMap α :=
  pairs.foldl (fun m (name, value) => m.insert name value) ∅

theorem mem_of_find?_foldl {name : String} {value : α} {pairs : List (String × α)}
    {m : NameMap α}
    (h : (pairs.foldl (fun m (name, value) => m.insert name value) m).find? name = some value) :
    (name, value) ∈ pairs ∨ m.find? name = some value := by
  induction pairs generalizing m with
  | nil => exact .inr h
  | cons p pairs ih =>
    obtain ⟨other, v⟩ := p
    rcases ih h with hmem | hfind
    · exact .inl (List.mem_cons_of_mem _ hmem)
    · rw [find?_insert] at hfind
      by_cases heq : name = other
      · rw [if_pos heq, Option.some_inj] at hfind
        exact .inl (by rw [heq, hfind]; exact List.mem_cons_self)
      · rw [if_neg heq] at hfind
        exact .inr hfind

theorem mem_of_find?_ofList {name : String} {value : α} {pairs : List (String × α)}
    (h : (ofList pairs).find? name = some value) : (name, value) ∈ pairs := by
  rcases mem_of_find?_foldl h with hmem | hfind
  · exact hmem
  · cases hfind

/-- Binds several names, from left to right. -/
def insertAll (m : NameMap α) (pairs : List (String × α)) : NameMap α :=
  pairs.foldl (fun m (name, value) => m.insert name value) m

/-- Names in increasing order, without repetitions. -/
def sortNames (names : List String) : List String :=
  (ofList (names.map fun name => (name, ()))).names

/-! ## Removal -/

/-- The map restricted to the names that satisfy a test. -/
def filterNames (m : NameMap α) (keep : String → Bool) : NameMap α :=
  ⟨m.entries.filter (fun e => keep e.1), m.sorted.filter _⟩

/-- The map without a name. -/
def erase (m : NameMap α) (name : String) : NameMap α :=
  m.filterNames (· != name)

theorem lookup_filter_name (keep : String → Bool) (l : List (String × α)) (other : String) :
    (l.filter (fun e => keep e.1)).lookup other = if keep other then l.lookup other else none := by
  induction l with
  | nil => simp
  | cons x rest ih =>
    obtain ⟨n, v⟩ := x
    by_cases h : other = n
    · subst h
      cases hk : keep other <;> simp [hk, ih]
    · cases hk : keep n <;> simp [hk, List.lookup_cons, beq_false_of_ne h, ih]

@[simp] theorem find?_filterNames (m : NameMap α) (keep : String → Bool) (other : String) :
    (m.filterNames keep).find? other = if keep other then m.find? other else none :=
  lookup_filter_name keep m.entries other

@[simp] theorem find?_erase (m : NameMap α) (name other : String) :
    (m.erase name).find? other = if other = name then none else m.find? other := by
  by_cases h : other = name <;> simp [erase, h]

/-! ## Mapping -/

/-- Applies a function to every value. -/
def map (f : α → β) (m : NameMap α) : NameMap β :=
  ⟨m.entries.map (fun e => (e.1, f e.2)), by
    rw [List.pairwise_map]
    exact m.sorted⟩

/-! ## Names -/

/-- The names of a map are those that have a value. -/
theorem mem_names_iff {m : NameMap α} {name : String} :
    name ∈ m.names ↔ m.contains name = true := by
  unfold names contains find?
  rw [List.lookup_isSome_iff, List.mem_map]
  exact exists_congr fun e => and_congr_right fun _ => by rw [beq_iff_eq, eq_comm]

theorem nodup_names (m : NameMap α) : m.names.Nodup := by
  refine List.pairwise_map.2 (m.sorted.imp fun {a b} hlt heq => ?_)
  rw [heq] at hlt
  exact String.lt_irrefl _ hlt

@[simp] theorem contains_insert (m : NameMap α) (name : String) (value : α) (other : String) :
    (m.insert name value).contains other = true ↔ other = name ∨ m.contains other = true := by
  unfold contains
  rw [find?_insert]
  by_cases h : other = name <;> simp [h]

end NameMap

/-! ## Sets of names -/

/-- A finite set of names. -/
abbrev NameSet := NameMap Unit

namespace NameSet

/-- Adds several names, from left to right. -/
def insertNames (s : NameSet) (names : List String) : NameSet :=
  names.foldl (fun s name => s.insert name ()) s

theorem contains_insertNames {s : NameSet} {names : List String} {name : String} :
    (s.insertNames names).contains name = true ↔ s.contains name = true ∨ name ∈ names := by
  unfold insertNames
  induction names generalizing s with
  | nil => simp
  | cons other names ih =>
    rw [List.foldl_cons, ih, NameMap.contains_insert, List.mem_cons, or_assoc, or_left_comm]

/-- Adding the names that belong to each of several things. -/
theorem contains_foldl_insertNames {α : Type} {names : α → List String} {as : List α} {s : NameSet}
    {name : String} :
    (as.foldl (fun s a => s.insertNames (names a)) s).contains name = true
      ↔ s.contains name = true ∨ ∃ a ∈ as, name ∈ names a := by
  induction as generalizing s with
  | nil => exact (or_iff_left fun ⟨_, ha, _⟩ => List.not_mem_nil ha).symm
  | cons a as ih =>
    rw [List.foldl_cons, ih, contains_insertNames, or_assoc]
    simp only [List.mem_cons, exists_eq_or_imp]

end NameSet

/-- Sorting names keeps the names there are. -/
theorem NameMap.mem_sortNames {names : List String} {name : String} :
    name ∈ sortNames names ↔ name ∈ names := by
  have hset : ofList (names.map fun name => (name, ())) = NameSet.insertNames ∅ names := by
    rw [ofList, List.foldl_map]
    rfl
  rw [sortNames, hset, mem_names_iff, NameSet.contains_insertNames]
  exact or_iff_right fun h => by cases h

end ArrayLang
