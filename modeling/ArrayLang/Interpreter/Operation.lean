import ArrayLang.Interpreter.Fault
import ArrayLang.Operator.Signature

/-!
# Operations on values

What operators, subscripts, attributes and array literals compute. Operators apply elementwise, their
operands broadcast against each other.
-/

namespace ArrayLang

/-! ## Operators on scalars -/

/-- The larger of two doubles. What is not a number yields to the other. -/
def maxFloat (x y : Float) : Float :=
  if x.isNaN then y else if y.isNaN then x else if x < y then y else x

/-- The smaller of two doubles. What is not a number yields to the other. -/
def minFloat (x y : Float) : Float :=
  if x.isNaN then y else if y.isNaN then x else if y < x then y else x

/-- The remainder that takes the sign of the divisor. -/
def floorModFloat (x y : Float) : Float :=
  let r := remainder x y
  if r != 0.0 && decide (r < 0.0) != decide (y < 0.0) then r + y else r

/-- The remainder that takes the sign of the divisor, if the divisor is not zero. -/
def floorModInt? (x y : Int64) : Option Int64 :=
  if y = 0 then none
  else
    let r := x % y
    some (if r ≠ 0 ∧ (decide (r < 0) ≠ decide (y < 0)) then r + y else r)

namespace Operator

/-- An operator on doubles. -/
def onFloats (op : Operator) (x y : Float) : Scalar :=
  match op with
  | .add => .float (x + y)
  | .subtract => .float (x - y)
  | .multiply => .float (x * y)
  | .divide => .float (x / y)
  | .modulo => .float (floorModFloat x y)
  | .negative => .float (-x)
  | .abs => .float x.abs
  | .maximum => .float (maxFloat x y)
  | .minimum => .float (minFloat x y)
  | .sqrt => .float x.sqrt
  | .exp => .float x.exp
  | .log => .float x.log
  | .equal => .bool (x == y)
  | .notEqual => .bool (x != y)
  | .less => .bool (decide (x < y))
  | .lessEqual => .bool (decide (x ≤ y))
  | .greater => .bool (decide (y < x))
  | .greaterEqual => .bool (decide (y ≤ x))
  | .logicalAnd => .bool (x != 0.0 && y != 0.0)
  | .logicalOr => .bool (x != 0.0 || y != 0.0)
  | .logicalNot => .bool (!(x != 0.0))

/-- An operator on integers, wrapping around at 64 bits. The only failure is a remainder by zero. -/
def onInts? (op : Operator) (x y : Int64) : Option Scalar :=
  match op with
  | .add => some (.int (x + y))
  | .subtract => some (.int (x - y))
  | .multiply => some (.int (x * y))
  | .modulo => (floorModInt? x y).map .int
  | .negative => some (.int (-x))
  | .abs => some (.int x.abs)
  | .maximum => some (.int (max x y))
  | .minimum => some (.int (min x y))
  | .equal => some (.bool (x == y))
  | .notEqual => some (.bool (x != y))
  | .less => some (.bool (decide (x < y)))
  | .lessEqual => some (.bool (decide (x ≤ y)))
  | .greater => some (.bool (decide (y < x)))
  | .greaterEqual => some (.bool (decide (y ≤ x)))
  | .logicalAnd => some (.bool (x != 0 && y != 0))
  | .logicalOr => some (.bool (x != 0 || y != 0))
  | .logicalNot => some (.bool (!(x != 0)))
  | .divide | .sqrt | .exp | .log =>
    some (op.onFloats (floatOfInt x.toInt) (floatOfInt y.toInt))

/-- An operator on scalars that have the element type `input`; a single operand serves as both. -/
def onScalars? (op : Operator) (input : ElemType) (args : List Scalar) : Option Scalar :=
  let x := args.headD (.int 0)
  let y := args.getD 1 x
  if input.isFloat then some (op.onFloats x.toFloat y.toFloat)
  else op.onInts? x.toInt64 y.toInt64

end Operator

/-! ## Operators on values -/

/-- The types of operands, which have to be scalars or arrays. -/
def operandTypes? (args : List Value) : Option (List Ty) :=
  args.mapM fun
    | .scalar x => some (.scalar x.naturalType)
    | .array v => some (.array v.elt v.rank)
    | _ => none

/-- The operand's element for one index of the result. -/
def operandAt (s : Store) (index : List Nat) : Value → Scalar
  | .scalar x => x
  | .array v => v.getBroadcast s index
  | _ => .int 0

/-- The element types that the operands of an operator are converted to, and that of its result, which
is the one of `ty?` if that is given. There are none if the operator does not apply. -/
def operatorElts? (op : Operator) (args : List Value) (ty? : Option Ty) :
    Option (List ElemType × ElemType) := do
  let expected ← op.expectedTypes? (← operandTypes? args)
  let result ← (ty?.bind Ty.elt?).or (op.resultType expected).elt?
  return (expected.filterMap Ty.elt?, result)

/-- The value of an array that is made in the store. -/
def newArray (make : Store → View × Store) (s : Store) : Value × Store :=
  let (v, s) := make s
  (.array v, s)

/-- Applies an operator elementwise. The result has the element type of `ty?` if that is given. -/
def applyOperator (op : Operator) (args : List Value) (ty? : Option Ty) (s : Store) :
    Except Fault (Store → Value × Store) := do
  let some (inputs, result) := operatorElts? op args ty?
    | throw (.badOperands op.name (Value.listText s args))
  let compute (scalars : List Scalar) : Except Fault Scalar :=
    match op.onScalars? (inputs.headD .int64) (scalars.zipWith Scalar.cast inputs) with
    | some x => .ok (x.cast result)
    | none => .error .divisionByZero
  if args.all Value.isScalar then
    let x ← compute (args.map (operandAt s []))
    return (.scalar x, ·)
  else
    let shapes := args.map Value.shape
    match Shape.broadcast shapes with
    | none => throw (.broadcast shapes)
    | some shape =>
      let data ← Shape.mapIndicesM (fun index => compute (args.map (operandAt s index))) shape
      return newArray (View.ofFlat result shape data)

/-! ## Subscripts -/

/-- The integer of a scalar that counts as one. -/
def integral? : Scalar → Option Int64
  | .float _ => none
  | x => some x.toInt64

mutual
/-- The subscripts that an index stands for. Inside a tuple each item stands for one subscript. -/
def subscripts? : Value → Option (List Subscript)
  | .scalar x => (integral? x).map fun n => [.at n]
  | .slice x => some [.slice x]
  | .tuple items => itemSubscripts? items
  | _ => none
termination_by structural v => v

/-- The subscripts of the items of a tuple. -/
def itemSubscripts? : List Value → Option (List Subscript)
  | [] => some []
  | v :: vs =>
    match subscripts? v, itemSubscripts? vs with
    | some [item], some items => some (item :: items)
    | _, _ => none
termination_by structural vs => vs
end

/-- A bound of a slice, where none stands for a bound left out. -/
def sliceBound? : Value → Option (Option Int64)
  | .none => some none
  | .scalar x => (integral? x).map some
  | _ => none

/-- The lengths that a shape stands for: a tuple of them, or a single one. -/
def dims? : Value → Option (List Nat)
  | .tuple items => items.mapM dim?
  | v => (dim? v).map ([·])
where
  /-- A non-negative integer as a length. -/
  dim? : Value → Option Nat
    | .scalar (.int n) => if 0 ≤ n then some n.toInt.toNat else none
    | _ => none

/-- The item of a tuple at a position, counted from the end if negative. -/
def tupleItem? (items : List Value) : Value → Option Value
  | .scalar (.int n) =>
    let i := if n.toInt < 0 then n.toInt + items.length else n.toInt
    if 0 ≤ i then items[i.toNat]? else none
  | _ => none

/-- What an index selects from an array or a tuple, if it selects at all. -/
def selection? (s : Store) (base index : Value) : Option (Except ArrayError Value) :=
  match base with
  | .array v => (subscripts? index).map fun items => (v.select items).map (.ofView s)
  | .tuple items => (tupleItem? items index).map .ok
  | _ => none

/-- Selects from an array or a tuple. -/
def indexValue (s : Store) (base index : Value) : Except Fault Value :=
  match selection? s base index with
  | some selected => selected.mapError .array
  | none => .error (.badIndex (base.text s) (index.text s))

/-- How a value is written into the part of an array that an index selects. -/
def assignIndex (base index value : Value) (s : Store) : Except Fault (Store → Store) :=
  match base with
  | .array v =>
    match subscripts? index with
    | none => .error (.badIndex (base.text s) (index.text s))
    | some items =>
      match v.select items with
      | .error e => .error (.array e)
      | .ok slot =>
        match value with
        | .scalar x => .ok (slot.fill x)
        | .array src => ((slot.cellsFrom src s).map slot.setCells).mapError .array
        | _ => .error .badTarget
  | _ => .error .badTarget

/-- A named part of a value, if it has one of that name. -/
def attribute? (base : Value) (name : String) : Option Value :=
  match base with
  | .array v =>
    if name = "shape" then some (.tuple (v.shape.map .ofNat))
    else if name = "ndim" then some (.ofNat v.rank)
    else if name = "size" then some (.ofNat v.size)
    else none
  | .slice x =>
    if name = "start" then some (.ofInt? x.start?)
    else if name = "stop" then some (.ofInt? x.stop?)
    else if name = "step" then some (.ofInt? x.step?)
    else none
  | .struct _ fields => fields.lookup name
  | _ => none

/-- A named part of a value. -/
def attributeOf (s : Store) (base : Value) (name : String) : Except Fault Value :=
  match attribute? base name with
  | some part => .ok part
  | none => .error (.unknownAttribute (base.text s) name)

/-! ## Array literals -/

/-- The element type of an array literal's items, if any item has one. -/
def literalElt? (items : List Value) : Option ElemType :=
  let elts := items.filterMap fun
    | .scalar x => some x.naturalType
    | .array v => some v.elt
    | _ => none
  match elts with
  | [] => none
  | t :: ts => some (ts.foldl ElemType.join t)

/-- Stacks the items of an array literal. The elements have the element type of `ty?` if that is
given. -/
def arrayLiteral (items : List Value) (ty? : Option Ty) (s : Store) :
    Except Fault (Store → Value × Store) := do
  let elt := ((ty?.bind Ty.elt?).or (literalElt? items)).getD .float64
  let parts ← items.mapM fun
    | .scalar x => .ok ([], [x.cast elt])
    | .array v => .ok (v.shape, v.toFlat s)
    | v => .error (.badOperands "array" (v.text s))
  let (shape, data) ← (View.stackItems parts).mapError .array
  return newArray (View.ofFlat elt shape data)

end ArrayLang
