import ArrayLang.Typing.Error

/-!
# Conversions

Where a context requires a type, a typed expression is converted to it. A value only converts by
casting scalars, one by one inside a tuple that is written out; the elements of an array are
converted only where an operator or a write to a part of an array consumes them.
-/

namespace ArrayLang

open Typing

mutual
/-- Converts a typed expression to a type. -/
def coerce : Expr → Ty → Typing Expr
  | ⟨_, none⟩, _ => throw .untyped
  | ⟨.tuple items, some ty⟩, target => do
    if ty = target then return ⟨.tuple items, some ty⟩
    match target with
    | .tuple targets =>
      if items.length ≠ targets.length then
        fail (.incompatible target (.tuple (← typesOf items)))
      else return .typed (.tuple (← coerceAll items targets)) target
    | _ => coerceScalar ⟨.tuple items, some ty⟩ ty target
  | ⟨node, some ty⟩, target => do
    if ty = target then return ⟨node, some ty⟩
    coerceScalar ⟨node, some ty⟩ ty target
termination_by structural e => e

/-- Converts typed expressions to types, pairwise. -/
def coerceAll : List Expr → List Ty → Typing (List Expr)
  | e :: es, target :: targets => do
    let e ← coerce e target
    return e :: (← coerceAll es targets)
  | _, _ => return []
termination_by structural es => es

/-- Converts an expression of type `ty`, which has to be a scalar type, to another scalar type. -/
def coerceScalar (e : Expr) (ty target : Ty) : Typing Expr :=
  match ty, target with
  | .scalar _, .scalar elt => return .typed (.cast e elt) target
  | _, _ => fail (.incompatible target ty)
end

/-- Converts the elements of an array. Anything else is left as it is. -/
def convertElements (value : Expr) (ty : Ty) (elt : ElemType) : Expr :=
  match ty with
  | .array found rank =>
    if found = elt then value else .typed (.cast value elt) (.array elt rank)
  | _ => value

/-- Converts an operand of an operator. The elements of an array are converted in place. -/
def coerceOperand (value : Expr) (target : Ty) : Typing Expr := do
  let ty ← typeOf value
  match ty, target with
  | .array _ rank, .array elt targetRank =>
    if rank = targetRank then return convertElements value ty elt
    else coerce value target
  | _, _ => coerce value target

/-- Converts a value that is written to a part of an array. A scalar fills the part and an array of
lower rank is broadcast to it, so only the element type has to agree. -/
def coerceSlot (value : Expr) (slot : Ty) : Typing Expr := do
  let ty ← typeOf value
  match ty, slot with
  | .scalar _, .array elt _ => coerce value (.scalar elt)
  | .array _ rank, .array elt slotRank =>
    if rank ≤ slotRank then return convertElements value ty elt
    else coerce value slot
  | _, _ => coerce value slot

end ArrayLang
