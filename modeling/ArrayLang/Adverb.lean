import ArrayLang.Run
import ArrayLang.Value

/-!
# Adverbs

Adverbs call functions along an axis of their array arguments, in ascending order. Other arguments
are passed to every call as they are, and an array is replaced by its slice at the current position.
The calls are an arbitrary computation, `apply`, whose errors are kept apart from the adverb's own.
-/

namespace ArrayLang

/-- Why an adverb itself fails. -/
inductive AdverbError where
  | shapeMismatch (axis expected found : Nat)
  | nonConstantAxis
  | axisOutOfRange (axis rank : Nat)
  | unsupportedElement (found : String)
  | allPairsArgs
  | emptyReduce
  | array (cause : ArrayError)
deriving DecidableEq

def AdverbError.message : AdverbError → String
  | .shapeMismatch axis expected found =>
    "arguments disagree on the length of axis " ++ toString axis ++ ": " ++ toString expected
      ++ " vs " ++ toString found
  | .nonConstantAxis => "adverb axis must be a non-negative integer constant"
  | .axisOutOfRange axis rank =>
    "axis " ++ toString axis ++ " is out of range for an argument of rank " ++ toString rank
  | .unsupportedElement found => "adverb results must be scalars or arrays, found " ++ found
  | .allPairsArgs => "allpairs needs exactly two array arguments"
  | .emptyReduce => "cannot reduce an empty axis without an initial value"
  | .array cause => cause.message

/-- An adverb stops on an error of its own or on one of a call. -/
inductive AdverbStop (ε : Type) where
  | adverb (cause : AdverbError)
  | call (cause : ε)

namespace Adverb

/-- The length of an axis shared by all arrays among the arguments, if there are any. -/
def axisLen (axis : Nat) (args : List Value) : Except AdverbError (Option Nat) :=
  args.foldlM (fun len? arg =>
    match arg with
    | .array v =>
      if v.rank ≤ axis then .error (.axisOutOfRange axis v.rank)
      else
        let found := v.shape.getD axis 0
        match len? with
        | none => .ok (some found)
        | some expected =>
          if expected = found then .ok len? else .error (.shapeMismatch axis expected found)
    | _ => .ok len?) none

/-- Reads an adverb's axis, a non-negative integer. -/
def axisOf : Value → Except AdverbError Nat
  | .scalar (.int n) => if 0 ≤ n then .ok n.toInt.toNat else .error .nonConstantAxis
  | _ => .error .nonConstantAxis

/-- An argument of the call for position `i`. -/
def sliceArg (s : Store) (axis i : Nat) : Value → Value
  | .array v => .ofView s (v.indexAxis axis i)
  | arg => arg

/-- The element type and the shape of what a call returned. -/
def elementLayout (s : Store) : Value → Except AdverbError (ElemType × List Nat)
  | .scalar x => .ok (x.naturalType, [])
  | .array v => .ok (v.elt, v.shape)
  | value => .error (.unsupportedElement (value.text s))

/-- How what a call returned is written into its slot of the output. -/
def writeSlot (slot : View) (value : Value) (s : Store) : Except AdverbError (Store → Store) :=
  match value with
  | .scalar x => .ok (slot.fill x)
  | .array v => ((slot.cellsFrom v s).map slot.setCells).mapError .array
  | _ => .error (.unsupportedElement (value.text s))

/-- The shape and element type of the first array argument. -/
def firstLayout (args : List Value) : ElemType × List Nat :=
  (args.findSome? fun
    | .array v => some (v.elt, v.shape)
    | _ => none).getD (.float64, [0])

variable {κ ε : Type}

/-- A call on behalf of an adverb. -/
def calling (x : Run κ ε Value) : Run κ (AdverbStop ε) Value :=
  x.mapError .call

/-- A step of the adverb's own that may fail. -/
def orFail {α : Type} : Except AdverbError α → Run κ (AdverbStop ε) α :=
  Run.ofExcept .adverb

/-- Nothing runs over an empty axis: the result has the layout of the first array argument. -/
def emptyLike (args : List Value) : Run κ (AdverbStop ε) Value := do
  let (elt, shape) := firstLayout args
  return .array (← Run.make (View.zeros elt shape))

/-- The arguments of the call for position `i`, read from the store as it is now. -/
def sliceArgs (axis : Nat) (args : List Value) (i : Nat) : Run κ (AdverbStop ε) (List Value) := do
  let s ← Run.getStore
  return args.map (sliceArg s axis i)

/-- Writes a result into its slot. -/
def store (slot : View) (value : Value) : Run κ (AdverbStop ε) Unit :=
  Run.attempt .adverb fun s => (writeSlot slot value s).map fun write s => ((), write s)

/-- Stacks the results of `len` steps along an axis. The first result sizes the output; the axis of
the output is moved inside if that result has too few dimensions. -/
def stackResults {α : Type} (axis len : Nat) (step : α → Nat → Run κ (AdverbStop ε) (Value × α))
    (start : α) : Run κ (AdverbStop ε) Value := do
  let (first, a) ← step start 0
  let (elt, shape) ← orFail (elementLayout (← Run.getStore) first)
  let pos := min axis shape.length
  let out ← Run.make (View.zeros elt (shape.insertIdx pos len))
  store (out.indexAxis pos 0) first
  let _ ← foldPositionsM (fun a i => do
    let (value, a) ← step a i
    store (out.indexAxis pos i) value
    return a) 1 (len - 1) a
  return .array out

/-- Calls `func` at each position along the axis and stacks the results. -/
def map (apply : Value → List Value → Run κ ε Value) (func : Value) (args : List Value)
    (axis : Nat) : Run κ (AdverbStop ε) Value := do
  match ← orFail (axisLen axis args) with
  | none => calling (apply func args)
  | some 0 => emptyLike args
  | some len =>
    stackResults axis len (fun _ i => do
      return (← calling (apply func (← sliceArgs axis args i)), ())) ()

/-- Calls `func` on every pair of slices of two arrays, in row-major order. Position `(i, j)` of the
result holds the value for slice `i` of the first and slice `j` of the second. -/
def allPairs (apply : Value → List Value → Run κ ε Value) (func x y : Value) (axis : Nat) :
    Run κ (AdverbStop ε) Value := do
  match x, y with
  | .array xs, .array ys =>
    let nx := (← orFail (axisLen axis [x])).getD 0
    let ny := (← orFail (axisLen axis [y])).getD 0
    if nx = 0 ∨ ny = 0 then
      return .array (← Run.make (View.zeros xs.elt (nx :: ny :: xs.shape.eraseIdx axis)))
    else
      let pair (i j : Nat) : Run κ (AdverbStop ε) Value := do
        let s ← Run.getStore
        calling (apply func [.ofView s (xs.indexAxis axis i), .ofView s (ys.indexAxis axis j)])
      let first ← pair 0 0
      let (elt, shape) ← orFail (elementLayout (← Run.getStore) first)
      let out ← Run.make (View.zeros elt (nx :: ny :: shape))
      let slot (i j : Nat) := (out.indexAxis 0 i).indexAxis 0 j
      store (slot 0 0) first
      let fillRow (i start : Nat) : Run κ (AdverbStop ε) Unit :=
        foldPositionsM (fun _ j => do store (slot i j) (← pair i j)) start (ny - start) ()
      fillRow 0 1
      foldPositionsM (fun _ i => fillRow i 0) 1 (nx - 1) ()
      return .array out
  | _, _ => throw (.adverb .allPairsArgs)

/-- The functions of a reduction and its initial value. -/
structure Fold where
  func : Value
  combine : Value
  start? : Option Value

/-- An array that shares no element with any other, so that an accumulator never writes through a
view of an argument. -/
def detach : Value → Run κ (AdverbStop ε) Value
  | .array v => do return .array (← Run.make (v.cast v.elt))
  | value => return value

namespace Fold

/-- Calls the element function and combines its result with the accumulator. Without one, the result
becomes the accumulator. -/
def step (f : Fold) (apply : Value → List Value → Run κ ε Value) (acc? : Option Value)
    (slices : List Value) : Run κ (AdverbStop ε) Value := do
  let element ← calling (apply f.func slices)
  match acc? with
  | none => detach element
  | some acc => calling (apply f.combine [acc, element])

end Fold

/-- Folds `combine acc (func slices)` over the axis from left to right. -/
def reduce (apply : Value → List Value → Run κ ε Value) (fold : Fold) (args : List Value)
    (axis : Nat) : Run κ (AdverbStop ε) Value := do
  match ← orFail (axisLen axis args) with
  | none => fold.step apply fold.start? args
  | some len =>
    let acc? ← foldPositionsM (fun acc? i => do
      return some (← fold.step apply acc? (← sliceArgs axis args i))) 0 len fold.start?
    match acc? with
    | some acc => return acc
    | none => throw (.adverb .emptyReduce)

/-- Like `reduce`, but stacks what `emit` makes of the accumulator after each position. -/
def scan (apply : Value → List Value → Run κ ε Value) (fold : Fold) (emit : Value)
    (args : List Value) (axis : Nat) : Run κ (AdverbStop ε) Value := do
  match ← orFail (axisLen axis args) with
  | none =>
    let acc ← fold.step apply fold.start? args
    calling (apply emit [acc])
  | some 0 => emptyLike args
  | some len =>
    stackResults axis len (fun acc? i => do
      let acc ← fold.step apply acc? (← sliceArgs axis args i)
      return (← calling (apply emit [acc]), some acc)) fold.start?

end Adverb
end ArrayLang
