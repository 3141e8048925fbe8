import ArrayLang.ElemType
import ArrayLang.Number.Decimal

/-!
# Scalars

A scalar is a truth value, a 64-bit integer or a double. The eight element types are represented by
these three: a narrower type only restricts the numbers, and `cast` moves a scalar into the
representation of a type.
-/

namespace ArrayLang

inductive Scalar where
  | bool (value : Bool)
  | int (value : Int64)
  | float (value : Float)
deriving Inhabited

/-- Whether two scalars compare equal. Doubles compare as numbers: zeros of both signs are equal,
and what is not a number differs from itself. -/
def Scalar.same : Scalar → Scalar → Bool
  | .bool a, .bool b => a == b
  | .int a, .int b => a == b
  | .float a, .float b => a == b
  | _, _ => false

namespace Scalar

/-- The element type a scalar has on its own. -/
def naturalType : Scalar → ElemType
  | .bool _ => .bool
  | .int _ => .int64
  | .float _ => .float64

/-- Whether a scalar counts as true: every number but zero does. -/
def truthy : Scalar → Bool
  | .bool b => b
  | .int n => n != 0
  | .float x => x != 0.0

/-- The scalar as an integer. Doubles lose their fraction and are clamped. -/
def toInt64 : Scalar → Int64
  | .bool b => if b then 1 else 0
  | .int n => n
  | .float x => truncateFloat x

/-- The scalar as a double. -/
def toFloat : Scalar → Float
  | .bool b => if b then 1.0 else 0.0
  | .int n => floatOfInt n.toInt
  | .float x => x

/-- The integer of a type's range that is congruent to `n` modulo two to the type's width. -/
def wrap (elt : ElemType) (n : Int64) : Int64 :=
  match elt with
  | .uint8 => Int64.ofInt (n.toInt % pow2 8)
  | .int8 => Int64.ofInt (n.toInt.bmod (pow2 8))
  | .int16 => Int64.ofInt (n.toInt.bmod (pow2 16))
  | .int32 => Int64.ofInt (n.toInt.bmod (pow2 32))
  | _ => n

/-- The scalar in the representation of an element type, integers wrapping to its width. -/
def cast (s : Scalar) (elt : ElemType) : Scalar :=
  match elt with
  | .bool => .bool s.truthy
  | .uint8 | .int8 | .int16 | .int32 | .int64 => .int (wrap elt s.toInt64)
  | .float32 => .float (roundToSingle s.toFloat)
  | .float64 => .float s.toFloat

def text : Scalar → String
  | .bool b => if b then "true" else "false"
  | .int n => toString n.toInt
  | .float x => decimalText x

end Scalar
end ArrayLang
