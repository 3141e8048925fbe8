import ArrayLang.Operator.Signature
import ArrayLang.Ty.Join
import ArrayLang.Typing.Error

/-!
# Typing rules

The types of single forms of expressions, from the types of their parts.
-/

namespace ArrayLang.TypingRule

/-- The constant axis of an adverb. -/
def constAxis (axis : Expr) : Except TypingError Nat :=
  match axis.node with
  | .lit (.int n) => if 0 ≤ n then .ok n.toInt.toNat else .error .nonConstantAxis
  | _ => .error .nonConstantAxis

/-- Whether a type can be a bound of a slice. -/
def isSliceBound (t : Ty) : Bool :=
  t = .none || t.isInteger

/-- The number of axes that the items of an index drop, if all items are integers or slices. -/
def droppedAxes? : List Ty → Option Nat
  | [] => some 0
  | .slice _ _ _ :: items => droppedAxes? items
  | t :: items => if t.isInteger then (droppedAxes? items).map (· + 1) else none

/-- The type of a selection from a base of type `base` by an index of type `ty`. A tuple is indexed
by a constant. -/
def indexType (base : Ty) (index : Expr) (ty : Ty) : Except TypingError Ty :=
  let refused := TypingError.badIndex base ty
  match base with
  | .array elt rank =>
    let items := match ty with
      | .tuple items => items
      | other => [other]
    if rank < items.length then .error refused
    else match droppedAxes? items with
      | some dropped => .ok (.arrayOf elt (rank - dropped))
      | none => .error refused
  | .tuple items =>
    match index.node with
    | .lit (.int n) =>
      let i := if n.toInt < 0 then n.toInt + items.length else n.toInt
      match if i < 0 then none else items[i.toNat]? with
      | some item => .ok item
      | none => .error refused
    | _ => .error refused
  | _ => .error refused

/-- The type of a named part of a value. -/
def attributeType (base : Ty) (name : String) : Except TypingError Ty :=
  let unknown := TypingError.unknownAttribute base name
  match base with
  | .array _ rank =>
    if name = "shape" then .ok (.tuple (List.replicate rank .int64))
    else if name = "ndim" ∨ name = "size" then .ok .int64
    else .error unknown
  | .slice start stop step =>
    if name = "start" then .ok start
    else if name = "stop" then .ok stop
    else if name = "step" then .ok step
    else .error unknown
  | .struct _ fields =>
    match fields.lookup name with
    | some ty => .ok ty
    | none => .error unknown
  | _ => .error unknown

/-- The type of an array literal: its items are scalars, or arrays of one rank. -/
def literalType (items : List Ty) : Except TypingError Ty :=
  match items with
  | [] => .ok (.array .float64 1)
  | first :: _ => do
    let compatible (t : Ty) := (t.isScalar || t.isArray) && t.rank = first.rank
    match items.find? (fun t => !compatible t) with
    | some t => throw (.incompatible first t)
    | none =>
      match items.filterMap Ty.elt? with
      | [] => throw (.badElement first)
      | elt :: elts => return .array (elts.foldl ElemType.join elt) (first.rank + 1)

/-- The types of the arguments of one call of an adverb's function. -/
def sliceTypes (axis : Nat) (args : List Ty) : Except TypingError (List Ty) :=
  args.mapM fun
    | .array elt rank =>
      if rank ≤ axis then .error (.axisOutOfRange axis rank)
      else .ok (.arrayOf elt (rank - 1))
    | t => .ok t

/-- The type of the array of an adverb's results along new axes. -/
def stackedType (element : Ty) (axes : Nat) : Except TypingError Ty :=
  match element.stack? axes with
  | some t => .ok t
  | none => .error (.badElement element)

/-- The type of a conversion to an element type. -/
def castType (ty : Ty) (elt : ElemType) : Except TypingError Ty :=
  match ty with
  | .scalar _ => .ok (.scalar elt)
  | .array _ rank => .ok (.array elt rank)
  | other => .error (.incompatible (.scalar elt) other)

/-- The type of a new array whose shape has type `shape`. -/
def allocType (elt : ElemType) (shape : Ty) : Except TypingError Ty :=
  if shape.isInteger then .ok (.array elt 1)
  else
    let refused := TypingError.incompatible (.tuple [.int64]) shape
    match shape with
    | .tuple dims =>
      if !dims.isEmpty && dims.all Ty.isInteger then .ok (.array elt dims.length)
      else .error refused
    | _ => .error refused

/-- The types that an operator's operands are converted to. -/
def operandTypes (op : Operator) (args : List Ty) : Except TypingError (List Ty) :=
  match op.expectedTypes? args with
  | some types => .ok types
  | none => .error (.badOperands op.name (Ty.tuple args).text)

/-- Item `i` of a tuple type. -/
def itemType (base : Ty) (i : Nat) : Except TypingError Ty :=
  match base with
  | .tuple items =>
    match items[i]? with
    | some t => .ok t
    | none => .error (.badIndex base .int64)
  | _ => .error (.badIndex base .int64)

/-- Captured value `i` of a closure type. -/
def capturedType (base : Ty) (i : Nat) : Except TypingError Ty :=
  match base with
  | .closure _ captured =>
    match captured[i]? with
    | some t => .ok t
    | none => .error (.badIndex base .int64)
  | _ => .error (.badIndex base .int64)

end ArrayLang.TypingRule
