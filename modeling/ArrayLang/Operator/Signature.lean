import ArrayLang.Operator.Basic
import ArrayLang.Ty.Basic

/-!
# Signatures of operators

An operator first names the types its operands are converted to, then the type of the result of
operands that have been converted.
-/

namespace ArrayLang.Operator

/-- The element type an operator computes on, from the join of its operands' element types:
arithmetic does not compute on truth values, float functions only compute on floats. -/
def inputElt (category : OperatorCategory) (joined : ElemType) : ElemType :=
  match category with
  | .logical => .bool
  | .arith => if joined = .bool then .int64 else joined
  | .float => if joined.isFloat then joined else .float64
  | .compare => joined

/-- The join of a list of element types, `int64` for the empty list. -/
def joinElts : List ElemType → ElemType
  | [] => .int64
  | t :: ts => ts.foldl ElemType.join t

/-- The types the operands have to be converted to, if the operator applies to them at all: as many
operands as its arity, all scalars or arrays. -/
def expectedTypes? (op : Operator) (args : List Ty) : Option (List Ty) := do
  if args.length ≠ op.arity then none
  else
    let elts ← args.mapM Ty.elt?
    let elt := inputElt op.category (joinElts elts)
    some (args.map fun t => Ty.arrayOf elt t.rank)

/-- The type of the result on converted operands: of the largest rank, and of the operands' element
type unless the operator answers a truth value. -/
def resultType (op : Operator) (args : List Ty) : Ty :=
  let rank := (args.map Ty.rank).foldl max 0
  let input := (args.head?.bind Ty.elt?).getD .int64
  let elt := match op.category with
    | .arith | .float => input
    | .compare | .logical => .bool
  Ty.arrayOf elt rank

end ArrayLang.Operator
