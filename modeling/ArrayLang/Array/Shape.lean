import ArrayLang.Iteration

/-!
# Index spaces

A shape is the list of the lengths of an array's axes. This module lists the indices of a shape in
row-major order, runs steps over them without building that list, and aligns shapes by their
trailing axes.
-/

namespace ArrayLang.Shape

/-- Number of elements of a shape. -/
def size : List Nat → Nat
  | [] => 1
  | dim :: dims => dim * size dims

/-- Every index of a shape, the last axis running fastest. A shape without elements has none, however
long its other axes are. -/
def indices : List Nat → List (List Nat)
  | [] => [[]]
  | dim :: dims =>
    if size (dim :: dims) = 0 then []
    else
      let inner := indices dims
      (List.range dim).flatMap fun i => inner.map (i :: ·)

theorem indices_eq_nil {shape : List Nat} (h : size shape = 0) : indices shape = [] := by
  cases shape with
  | nil => simp [size] at h
  | cons dim dims => simp [indices, h]

/-- The indices that start with 0, then those that start with 1, and so on. -/
theorem indices_cons (dim : Nat) (dims : List Nat) :
    indices (dim :: dims) = (List.range dim).flatMap fun i => (indices dims).map (i :: ·) := by
  rw [indices]
  split
  · next h =>
    rcases Nat.mul_eq_zero.mp h with h | h
    · simp [h]
    · simp [indices_eq_nil h]
  · rfl

section Fold
variable {m : Type → Type} [Monad m] {α : Type}

/-- Runs a step for every index of a shape, in row-major order. -/
@[specialize]
def foldIndicesM (step : α → List Nat → m α) : List Nat → α → m α
  | [], a => step a []
  | dim :: dims, a =>
    if size (dim :: dims) = 0 then pure a
    else foldPositionsM (fun a i => foldIndicesM (fun a index => step a (i :: index)) dims a) 0 dim a

theorem foldlM_flatMap [LawfulMonad m] {β γ : Type} (step : α → γ → m α) (f : β → List γ)
    (l : List β) (a : α) :
    (l.flatMap f).foldlM step a = l.foldlM (fun a b => (f b).foldlM step a) a := by
  induction l generalizing a with
  | nil => rfl
  | cons b l ih => simp only [List.flatMap_cons, List.foldlM_append, List.foldlM_cons, ih]

theorem foldIndicesM_eq_foldlM [LawfulMonad m] (step : α → List Nat → m α) (shape : List Nat)
    (a : α) : foldIndicesM step shape a = (indices shape).foldlM step a := by
  induction shape generalizing step a with
  | nil => simp [foldIndicesM, indices]
  | cons dim dims ih =>
    rw [foldIndicesM, indices]
    split
    · rfl
    · rw [foldPositionsM_eq_foldlM, ← List.range_eq_range', foldlM_flatMap]
      simp only [ih, List.foldlM_map]

end Fold

section Results
variable {ε α : Type}

/-- The results of a computation at every index of a shape, in row-major order, up to the first that
fails. -/
def mapIndicesM (f : List Nat → Except ε α) (shape : List Nat) : Except ε (List α) :=
  List.reverse <$> foldIndicesM (fun results index => do return (← f index) :: results) shape []

theorem mapIndicesM_eq_mapM (f : List Nat → Except ε α) (shape : List Nat) :
    mapIndicesM f shape = (indices shape).mapM f := by
  rw [mapIndicesM, foldIndicesM_eq_foldlM, List.mapM_eq_reverse_foldlM_cons]
  simp only [map_eq_pure_bind]

end Results

/-- Distance in storage between neighbours along each axis, for elements laid out in row-major
order. -/
def contiguousStrides : List Nat → List Int
  | [] => []
  | _ :: dims => (size dims : Int) :: contiguousStrides dims

/-- The length of an axis that serves two lengths: equal ones, or any beside 1. -/
def broadcastDim (a b : Nat) : Option Nat :=
  if a = 1 then some b
  else if b = 1 ∨ b = a then some a
  else none

/-- Broadcasts two shapes given from the last axis on. -/
def broadcastReversed : List Nat → List Nat → Option (List Nat)
  | [], bs => some bs
  | as, [] => some as
  | a :: as, b :: bs => do
    let dim ← broadcastDim a b
    return dim :: (← broadcastReversed as bs)

/-- The least shape that all the given shapes broadcast to, aligned at their trailing axes. -/
def broadcast (shapes : List (List Nat)) : Option (List Nat) :=
  (shapes.foldlM (fun acc shape => broadcastReversed acc shape.reverse) []).map List.reverse

end ArrayLang.Shape
