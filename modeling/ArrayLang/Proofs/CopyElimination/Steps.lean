import ArrayLang.CopyElimination
import ArrayLang.Proofs.Dataflow.Accesses

/-!
# Steps of copy elimination

What is known about a step that is found: which statements it concerns, and the conditions that let
a value be built in the place it is copied to.
-/

namespace ArrayLang

/-- An allocation that is listed for a variable is an assignment to the variable alone, and the only
definition of it. -/
theorem mem_assignments_of_allocations {f : TypedFn} {u : UseDef} {src : String}
    {alloc : Allocation} (h : (allocations f u).find? src = some alloc) :
    ∃ ty? value, (alloc.path, ⟨.var src, ty?⟩, value) ∈ f.body.assignments
      ∧ value.allocKind? = some alloc.kind ∧ (u.defs src).length = 1 := by
  obtain ⟨⟨path, target, value⟩, hmem, h⟩ := List.mem_filterMap.1 (NameMap.mem_of_find?_ofList h)
  obtain ⟨name, hname, h⟩ := Option.bind_eq_some_iff.1 h
  obtain ⟨kind, hkind, h⟩ := Option.bind_eq_some_iff.1 h
  obtain ⟨hdefs, heq⟩ := Option.ite_none_right_eq_some.1 h
  cases heq
  obtain ⟨ty?, rfl⟩ := Expr.eq_of_var?_eq_some hname
  exact ⟨ty?, value, hmem, hkind, hdefs⟩

namespace CopyElimination

variable {f : TypedFn} {facts : DataflowFacts} {dest : String} {indices : List Expr}
  {target value : Expr} {copy : Path} {step : CopyStep}

/-- A chain of guards that succeeds has passed its first guard. -/
theorem guard_eq_some {α : Type} {b : Bool} {k : Unit → Option α} {x : Option α} {a : α}
    (h : (if (!b) = true then none >>= k else x) = some a) : b = true ∧ x = some a := by
  cases b with
  | false => cases h
  | true => exact ⟨rfl, h⟩

/-! ## Fusions -/

/-- The conditions under which the value of `src`, made by `alloc`, is built in the part of `dest` that
it is copied to. -/
structure Fusable (f : TypedFn) (facts : DataflowFacts) (dest : String) (indices : List Expr)
    (target value : Expr) (copy : Path) (src : String) (alloc : Allocation) : Prop where
  array : isArrayVar f dest = true
  var : value.var? = some src
  made : facts.allocations.find? src = some alloc
  before : alloc.path.sameBlockBefore copy = true
  sameType : target.ty? = value.ty?
  inside : facts.aliases.escapes src = false
  alone : (facts.aliases.of src).length = 1
  reads : facts.useDef.reads src = [copy]
  last : facts.useDef.lastUse? src = some copy
  ready : ∀ name ∈ dest :: indices.flatMap Expr.vars,
    (facts.useDef.createdBefore? name copy).any (· < alloc.path) = true
  untouched : ∀ name ∈ facts.aliases.of dest,
    facts.useDef.touchedBetween name alloc.path copy = false

theorem fusion?_eq_some (h : fusion? f facts dest indices target value copy = some step) :
    ∃ src alloc, Fusable f facts dest indices target value copy src alloc
      ∧ ((facts.useDef.writes src = [] ∧ step = .retarget alloc.path copy)
        ∨ (alloc.kind = .raw ∧ fillsWhole f alloc.path src = true
          ∧ step = .viewSlot alloc.path copy)) := by
  unfold fusion? at h
  dsimp only at h
  obtain ⟨harray, h⟩ := guard_eq_some h
  obtain ⟨src, hsrc, h⟩ := Option.bind_eq_some_iff.1 h
  obtain ⟨alloc, halloc, h⟩ := Option.bind_eq_some_iff.1 h
  obtain ⟨hplace, h⟩ := guard_eq_some h
  obtain ⟨hprivate, h⟩ := guard_eq_some h
  obtain ⟨hfree, h⟩ := guard_eq_some h
  simp only [Bool.and_eq_true, Bool.not_eq_true', decide_eq_true_eq, List.all_eq_true] at hplace hprivate hfree
  obtain ⟨⟨⟨hinside, halone⟩, hreads⟩, hlast⟩ := hprivate
  refine ⟨src, alloc, ⟨harray, hsrc, halloc, hplace.1, hplace.2, hinside, halone, hreads, hlast,
    hfree.1, hfree.2⟩, ?_⟩
  by_cases hwrites : (facts.useDef.writes src).isEmpty = true
  · rw [if_pos hwrites, Option.some_inj] at h
    exact .inl ⟨List.isEmpty_iff.1 hwrites, h.symm⟩
  · rw [if_neg hwrites] at h
    obtain ⟨hfill, heq⟩ := Option.ite_none_right_eq_some.1 h
    rw [Bool.and_eq_true, decide_eq_true_eq] at hfill
    exact .inr ⟨hfill.1, hfill.2, (Option.some_inj.1 heq).symm⟩

/-! ## Steps that are found -/

/-- A step that is found concerns a write to a part of an array, and either drops it or builds the
written value in place. -/
theorem findStep?_eq_some (h : findStep? f facts = some step) :
    ∃ copy target value dest indices, (copy, target, value) ∈ f.body.assignments
      ∧ (∃ base index ty?, target = ⟨.index base index, ty?⟩)
      ∧ target.indexTarget? = some (dest, indices)
      ∧ ((isDeadWrite f facts dest target value = true ∧ step = .dropWrite copy)
        ∨ fusion? f facts dest indices target value copy = some step) := by
  obtain ⟨⟨copy, target, value⟩, hcopy, h⟩ := List.exists_of_findSome?_eq_some h
  obtain ⟨hmem, hindex⟩ := List.mem_filter.1 hcopy
  dsimp only at h hindex
  cases htarget : target.indexTarget? with
  | none =>
    rw [htarget] at h
    cases h
  | some p =>
    obtain ⟨dest, indices⟩ := p
    rw [htarget] at h
    dsimp only at h
    refine ⟨copy, target, value, dest, indices, hmem, ?_, htarget, ?_⟩
    · obtain ⟨node, ty?⟩ := target
      dsimp only at hindex
      split at hindex
      · exact ⟨_, _, _, rfl⟩
      · cases hindex
    · by_cases hdead : isDeadWrite f facts dest target value = true
      · rw [if_pos hdead, Option.some_inj] at h
        exact .inl ⟨hdead, h.symm⟩
      · rw [if_neg hdead] at h
        exact .inr h

end CopyElimination
end ArrayLang
