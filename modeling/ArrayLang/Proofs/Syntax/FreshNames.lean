import ArrayLang.Proofs.Syntax.Names

/-!
# Names from a supply

The names that a supply gives out, whatever they are made from, differ from each other and from all names
that it covers. So entering them into a map of covered names never replaces an entry.

## Main results

- `NameSupply.nodup_freshAll`: names from a supply differ from each other.
- `NameSupply.not_covers_of_mem_freshAll`: they differ from all names that it covers.
- `NameMap.insertsNew`: new names that differ from each other are entered without replacing an entry.
-/

namespace ArrayLang

namespace NameMap

variable {α : Type} {m : NameMap α} {pairs : List (String × α)} {name : String} {value : α}

/-- Binding the names in turn never replaces an entry. -/
def InsertsNew (m : NameMap α) : List (String × α) → Prop
  | [] => True
  | (name, value) :: pairs => m.find? name = none ∧ (m.insert name value).InsertsNew pairs

theorem insertsNew (hnodup : (pairs.map (·.1)).Nodup)
    (hnew : ∀ name ∈ pairs.map (·.1), m.find? name = none) : m.InsertsNew pairs := by
  induction pairs generalizing m with
  | nil => trivial
  | cons pair pairs ih =>
    obtain ⟨other, value⟩ := pair
    rw [List.map_cons, List.nodup_cons] at hnodup
    rw [List.map_cons, List.forall_mem_cons] at hnew
    refine ⟨hnew.1, ih hnodup.2 fun name hname => ?_⟩
    have hne : name ≠ other := fun heq => hnodup.1 (heq ▸ hname)
    rw [find?_insert, if_neg hne]
    exact hnew.2 name hname

/-- Entries that nothing replaces are kept. -/
theorem InsertsNew.find?_of_find? (h : m.InsertsNew pairs) (hname : m.find? name = some value) :
    (m.insertAll pairs).find? name = some value := by
  induction pairs generalizing m with
  | nil => exact hname
  | cons pair pairs ih =>
    obtain ⟨other, v⟩ := pair
    refine ih h.2 ?_
    have hne : name ≠ other := fun heq => by
      rw [heq, h.1] at hname
      cases hname
    rw [find?_insert, if_neg hne]
    exact hname

/-- Every name that is entered keeps its value. -/
theorem InsertsNew.find?_of_mem (h : m.InsertsNew pairs) (hmem : (name, value) ∈ pairs) :
    (m.insertAll pairs).find? name = some value := by
  induction pairs generalizing m with
  | nil => cases hmem
  | cons pair pairs ih =>
    rcases List.mem_cons.1 hmem with rfl | hmem
    · exact h.2.find?_of_find? (by rw [find?_insert, if_pos rfl])
    · exact ih h.2 hmem

end NameMap

namespace NameSupply

variable {name : String}

theorem length_freshAll (bases : List String) : ∀ names : NameSupply,
    (names.freshAll bases).length = bases.length := by
  induction bases with
  | nil => exact fun _ => rfl
  | cons base bases ih => exact fun names => congrArg (· + 1) (ih (names.fresh base).2)

theorem not_covers_of_mem_freshAll {bases : List String} :
    ∀ {names : NameSupply}, name ∈ names.freshAll bases → ¬names.Covers name := by
  induction bases with
  | nil => exact fun h => (List.not_mem_nil h).elim
  | cons base bases ih =>
    intro names h
    rcases List.mem_cons.1 h with rfl | h
    · exact names.not_covers_fresh base
    · exact fun hcovers => ih h (hcovers.fresh base)

/-- A name that was given out is covered from then on, so it is not given out again. -/
theorem nodup_freshAll (bases : List String) : ∀ names : NameSupply, (names.freshAll bases).Nodup := by
  induction bases with
  | nil => exact fun _ => .nil
  | cons base bases ih =>
    intro names
    refine List.nodup_cons.2 ⟨fun h => ?_, ih _⟩
    exact not_covers_of_mem_freshAll h (names.covers_fresh base)

/-- Names from a supply hold a dot. -/
theorem not_dotless_of_mem_freshAll {names : NameSupply} {bases : List String}
    (h : name ∈ names.freshAll bases) : ¬Dotless name :=
  fun hdotless => not_covers_of_mem_freshAll h (.inl hdotless)

/-- The last of several names is made with the number of those before it. -/
theorem freshAll_concat (bases : List String) (base : String) : ∀ names : NameSupply,
    names.freshAll (bases ++ [base])
      = names.freshAll bases ++ [(NameSupply.fresh ⟨names.next + bases.length⟩ base).1] := by
  induction bases with
  | nil => exact fun _ => rfl
  | cons other bases ih =>
    intro names
    show _ :: (names.fresh other).2.freshAll (bases ++ [base]) = _
    rw [ih, List.length_cons, Nat.add_comm bases.length 1, ← Nat.add_assoc]
    rfl

end NameSupply
end ArrayLang
