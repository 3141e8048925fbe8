/-!
# Slices and subscripts

A slice names positions along an axis by a start, a stop and a step, each of which may be left out.
Resolving it against an axis gives the positions themselves, as a first position, a count and a
step. Bounds count from the end when they are negative and are clamped to the axis.
-/

namespace ArrayLang

/-- Why an operation on arrays fails. -/
inductive ArrayError where
  | indexOutOfBounds (index : Int) (len : Nat)
  | tooManyIndices (rank found : Nat)
  | zeroStep
  | shapeMismatch (expected found : List Nat)
  | ragged (first other : List Nat)
deriving DecidableEq

/-- The text of a shape, such as `[2, 3]`. -/
def shapeText (shape : List Nat) : String :=
  "[" ++ ", ".intercalate (shape.map toString) ++ "]"

def ArrayError.message : ArrayError → String
  | .indexOutOfBounds index len =>
    "index " ++ toString index ++ " is out of bounds for axis of length " ++ toString len
  | .tooManyIndices rank found =>
    "too many indices: array has rank " ++ toString rank ++ " but " ++ toString found
      ++ " indices were given"
  | .zeroStep => "slice step cannot be zero"
  | .shapeMismatch expected found =>
    "cannot assign array of shape " ++ shapeText found ++ " into slot of shape "
      ++ shapeText expected
  | .ragged first other =>
    "array literal elements have differing shapes " ++ shapeText first ++ " and "
      ++ shapeText other

/-- A slice whose parts may be left out. -/
structure Slice where
  start? : Option Int64
  stop? : Option Int64
  step? : Option Int64
deriving DecidableEq

/-- The positions `start + k * step` for `k < count`. -/
structure AxisRange where
  start : Int
  count : Nat
  step : Int
deriving DecidableEq

/-- One item of a selection. -/
inductive Subscript where
  | at (index : Int64)
  | slice (slice : Slice)
deriving DecidableEq

namespace Slice

/-- A bound as a position: counted from the end if negative, and moved into `[lower, upper]`. -/
def clamp (len lower upper bound : Int) : Int :=
  if bound < 0 then max (bound + len) lower else min bound upper

/-- Number of steps from `start` that stay strictly before `stop`. -/
def steps (start stop step : Int) : Nat :=
  if 0 < step ∧ start < stop then ((stop - start + step - 1) / step).toNat
  else if step < 0 ∧ stop < start then ((start - stop - step - 1) / -step).toNat
  else 0

/-- The positions a slice selects on an axis of length `len`. A missing step is 1, and a missing
bound lies at the end of the axis that the step leads from or to. -/
def resolve (s : Slice) (len : Nat) : Except ArrayError AxisRange :=
  let step := (s.step?.map Int64.toInt).getD 1
  if step = 0 then .error .zeroStep
  else
    let lower : Int := if step < 0 then -1 else 0
    let upper : Int := if step < 0 then len - 1 else len
    let bound (given? : Option Int64) (missing : Int) : Int :=
      match given? with
      | some b => clamp len lower upper b.toInt
      | none => missing
    let start := bound s.start? (if step < 0 then upper else lower)
    let stop := bound s.stop? (if step < 0 then lower else upper)
    .ok ⟨start, steps start stop step, step⟩

end Slice
end ArrayLang
