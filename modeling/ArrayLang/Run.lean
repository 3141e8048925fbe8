import ArrayLang.Array.View

/-!
# Computations with a store

A computation over some context reads and writes the store and the context and may stop with an
error. What it did up to an error is kept.
-/

namespace ArrayLang

/-- The store beside whatever else a computation keeps. -/
structure State (κ : Type) where
  store : Store
  context : κ

/-- A computation that keeps its effects when it stops with an error. -/
abbrev Run (κ ε α : Type) := ExceptT ε (StateM (State κ)) α

namespace Run

variable {κ ε ε' α : Type}

/-- The current store. -/
def getStore : Run κ ε Store := do
  return (← get).store

/-- An operation on the store. -/
def make (f : Store → α × Store) : Run κ ε α :=
  modifyGet fun ⟨store, context⟩ => let (a, store) := f store; (a, ⟨store, context⟩)

/-- An operation that first looks at the store, and then either is carried out or fails and leaves
the store as it was. -/
def attempt (raise : ε' → ε) (plan : Store → Except ε' (Store → α × Store)) : Run κ ε α := do
  match plan (← getStore) with
  | .ok f => make f
  | .error e => throw (raise e)

/-- An operation on the context. -/
def onContext (f : κ → α × κ) : Run κ ε α :=
  modifyGet fun ⟨store, context⟩ => let (a, context) := f context; (a, ⟨store, context⟩)

/-- The same computation with its errors renamed. -/
def mapError (f : ε → ε') (x : Run κ ε α) : Run κ ε' α :=
  ExceptT.adapt f x

/-- A computation over a part of the context. -/
def zoom {κ' : Type} (part : κ' → κ) (replace : κ → κ' → κ') (x : Run κ ε α) : Run κ' ε α :=
  ExceptT.mk fun ⟨store, context⟩ =>
    let (result, ⟨store, inner⟩) := x.run ⟨store, part context⟩
    (result, ⟨store, replace inner context⟩)

/-- Runs a computation to its result or to what stopped it. -/
def outcome (x : Run κ ε α) : Run κ ε' (Except ε α) :=
  ExceptT.lift (ExceptT.run x)

/-- A result known in advance. -/
def ofExcept (raise : ε' → ε) : Except ε' α → Run κ ε α
  | .ok a => pure a
  | .error e => throw (raise e)

end Run
end ArrayLang
