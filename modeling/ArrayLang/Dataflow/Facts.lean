import ArrayLang.Dataflow.Alias
import ArrayLang.Dataflow.UseDef

/-!
# Dataflow facts

What copy elimination needs to know about a specialized function.
-/

namespace ArrayLang

/-- A statement that makes the only value a variable ever has, in storage of its own. -/
structure Allocation where
  path : Path
  kind : AllocKind
deriving DecidableEq

/-- The variables that are defined once, by a statement that makes new storage. -/
def allocations (f : TypedFn) (u : UseDef) : NameMap Allocation :=
  .ofList <| f.body.assignments.filterMap fun (path, target, value) => do
    let name ← target.var?
    let kind ← value.allocKind?
    if (u.defs name).length = 1 then some (name, ⟨path, kind⟩) else none

structure DataflowFacts where
  useDef : UseDef
  aliases : Aliases
  allocations : NameMap Allocation

/-- The dataflow facts of a function. -/
def DataflowFacts.compute (f : TypedFn) : DataflowFacts :=
  let useDef := UseDef.compute f
  { useDef, aliases := Aliases.compute f, allocations := ArrayLang.allocations f useDef }

end ArrayLang
