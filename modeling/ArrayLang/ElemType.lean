/-!
# Element types

The eight types a scalar or an array element can have, and how two of them combine.
-/

namespace ArrayLang

/-- The type of a scalar or of an array's elements. -/
inductive ElemType where
  | bool
  | uint8
  | int8
  | int16
  | int32
  | int64
  | float32
  | float64
deriving DecidableEq, Inhabited

/-- What sort of number an element type holds. -/
inductive ElemKind where
  | bool
  | unsigned
  | signed
  | float
deriving DecidableEq

namespace ElemType

/-- Every element type, in order of declaration. -/
def all : List ElemType :=
  [bool, uint8, int8, int16, int32, int64, float32, float64]

/-- Storage size in bytes. -/
def bytes : ElemType → Nat
  | bool | uint8 | int8 => 1
  | int16 => 2
  | int32 | float32 => 4
  | int64 | float64 => 8

def kind : ElemType → ElemKind
  | bool => .bool
  | uint8 => .unsigned
  | int8 | int16 | int32 | int64 => .signed
  | float32 | float64 => .float

def isFloat (t : ElemType) : Bool :=
  t.kind = .float

def isInteger (t : ElemType) : Bool :=
  t.kind = .signed || t.kind = .unsigned

def name : ElemType → String
  | bool => "bool"
  | uint8 => "uint8"
  | int8 => "int8"
  | int16 => "int16"
  | int32 => "int32"
  | int64 => "int64"
  | float32 => "float32"
  | float64 => "float64"

/-- The element type with the given name. -/
def ofName? (s : String) : Option ElemType :=
  all.find? (·.name == s)

/-- The signed integer type of a storage size. -/
def signedOfBytes : Nat → ElemType
  | 1 => int8
  | 2 => int16
  | 4 => int32
  | _ => int64

/-- The float type that holds `float` and an integer type: single precision only reaches as far as
integers of at most two bytes. -/
def floatOver (float integer : ElemType) : ElemType :=
  if float = float64 ∨ 4 ≤ integer.bytes then float64 else float32

/-- The smallest type both types convert into without losing their kind. An unsigned byte next to a
signed integer needs one more byte of headroom. -/
def join (a b : ElemType) : ElemType :=
  if a = b then a
  else match a.kind, b.kind with
    | .bool, _ => b
    | _, .bool => a
    | .float, .float => float64
    | .float, _ => floatOver a b
    | _, .float => floatOver b a
    | .signed, .signed => signedOfBytes (max a.bytes b.bytes)
    | .unsigned, .unsigned => uint8
    | .unsigned, .signed | .signed, .unsigned =>
      let widest := max a.bytes b.bytes
      signedOfBytes (if widest = 1 then 2 else widest)

end ElemType
end ArrayLang
