import ArrayLang.SymbolicShape.Basic
import ArrayLang.Value

/-!
# Evaluating symbolic shapes

A symbolic shape is evaluated on a summary of the arguments: integers keep their value and arrays
their dimensions.
-/

namespace ArrayLang

/-- What a value contributes to a shape. -/
inductive ShapeValue where
  | int (value : Int64)
  | tuple (items : List ShapeValue)
  /-- An array argument, by its dimensions. -/
  | array (dims : List Int64)
deriving Inhabited

/-- Why a symbolic shape has no value. The last two are faults of whoever built the shape. -/
inductive ShapeEvalError where
  | unknown
  | unboundVar (index : Nat)
  | dimOutOfRange (index len : Nat)
  | argCount (expected found : Nat)
  | closure (name : String)
  | notInteger
deriving DecidableEq

namespace ShapeEvalError

def message : ShapeEvalError → String
  | unknown => "the shape depends on values that are only known at runtime"
  | unboundVar index => "shape variable " ++ toString index ++ " is not bound to any argument"
  | dimOutOfRange index len =>
    "dimension " ++ toString index ++ " is out of range for a shape with " ++ toString len
      ++ " entries"
  | argCount expected found =>
    "expected " ++ toString expected ++ " arguments, found " ++ toString found
  | closure name => "closure " ++ name ++ " cannot be turned into a shape computation"
  | notInteger => "expected an integer in a shape computation, found"

/-- Whether the shape itself was ill-formed. -/
def isInternal : ShapeEvalError → Bool
  | closure _ => true
  | notInteger => true
  | _ => false

end ShapeEvalError

namespace ShapeValue

mutual
/-- Structural equality test. -/
def same : ShapeValue → ShapeValue → Bool
  | int a, int b => a = b
  | tuple as, tuple bs => sameList as bs
  | array as, array bs => as = bs
  | _, _ => false
termination_by structural v => v

def sameList : List ShapeValue → List ShapeValue → Bool
  | [], [] => true
  | a :: as, b :: bs => a.same b && sameList as bs
  | _, _ => false
termination_by structural vs => vs
end

mutual
/-- The text of a shape value, spelled out by its constructors. -/
def text : ShapeValue → String
  | int value => "Int(" ++ toString value.toInt ++ ")"
  | tuple items => "Tuple([" ++ ", ".intercalate (texts items) ++ "])"
  | array dims => "Array([" ++ ", ".intercalate (dims.map fun d => toString d.toInt) ++ "])"
termination_by structural v => v

def texts : List ShapeValue → List String
  | [] => []
  | v :: vs => v.text :: texts vs
termination_by structural vs => vs
end

/-- Dimensions as integers. -/
def ofDims (dims : List Int64) : List ShapeValue :=
  dims.map int

mutual
/-- The summary of an argument. -/
def ofArg : Value → ShapeValue
  | .tuple items => tuple (ofArgs items)
  | .array v => array (v.shape.map Int64.ofNat)
  | .scalar x => int x.toInt64
  | _ => tuple []
termination_by structural v => v

def ofArgs : List Value → List ShapeValue
  | [] => []
  | v :: vs => ofArg v :: ofArgs vs
termination_by structural vs => vs
end

mutual
/-- The shape of a result, in the form that symbolic shapes evaluate to. -/
def ofResult : Value → ShapeValue
  | .tuple items => tuple (ofResults items)
  | .array v => tuple (ofDims (v.shape.map Int64.ofNat))
  | _ => tuple []
termination_by structural v => v

def ofResults : List Value → List ShapeValue
  | [] => []
  | v :: vs => ofResult v :: ofResults vs
termination_by structural vs => vs
end

/-- The shape tuple of an argument: empty for anything but an array. -/
def shapeOf : ShapeValue → ShapeValue
  | array dims => tuple (ofDims dims)
  | _ => tuple []

/-- The entries of a tuple, or of an array's dimensions. -/
def entries : ShapeValue → List ShapeValue
  | tuple items => items
  | array dims => ofDims dims
  | int _ => []

def int? : ShapeValue → Option Int64
  | int value => some value
  | _ => none

end ShapeValue

/-- Values of shape variables. -/
abbrev ShapeBindings := List (Nat × ShapeValue)

namespace ParamShape

mutual
/-- The variables of a parameter, bound to what its argument contributes. -/
def bind : ParamShape → ShapeValue → ShapeBindings
  | scalar var, arg => [(var, arg)]
  | array var _, arg => [(var, arg.shapeOf)]
  | tuple items, arg => bindAll items arg.entries
  | untracked, _ => []
termination_by structural p => p

def bindAll : List ParamShape → List ShapeValue → ShapeBindings
  | p :: ps, arg :: args => p.bind arg ++ bindAll ps args
  | _, _ => []
termination_by structural ps => ps
end

end ParamShape

namespace SymbolicShape

mutual
/-- The value of a symbolic shape. -/
def eval (bindings : ShapeBindings) : SymbolicShape → Except ShapeEvalError ShapeValue
  | var index =>
    match bindings.lookup index with
    | some value => .ok value
    | none => .error (.unboundVar index)
  | const value => .ok (.int value)
  | dim inner i => do
    let entries := (← inner.eval bindings).entries
    match entries[i]? with
    | some entry => .ok entry
    | none => .error (.dimOutOfRange i entries.length)
  | tuple items => return .tuple (← evalList bindings items)
  | binop op lhs rhs => do
    let lhs ← lhs.eval bindings
    let rhs ← rhs.eval bindings
    match lhs.int?, rhs.int? with
    | some a, some b => .ok (.int (op.apply a b))
    | _, _ => .error .notInteger
  | closure name _ => .error (.closure name)
  | unknown => .error .unknown
termination_by structural s => s

/-- The values of several symbolic shapes, from left to right. -/
def evalList (bindings : ShapeBindings) : List SymbolicShape → Except ShapeEvalError (List ShapeValue)
  | [] => .ok []
  | s :: ss => do
    let value ← s.eval bindings
    return value :: (← evalList bindings ss)
termination_by structural ss => ss
end

/-- The value of a symbolic shape on the arguments of a function with the given parameter types. -/
def evalOn (types : List Ty) (args : List ShapeValue) (shape : SymbolicShape) :
    Except ShapeEvalError ShapeValue :=
  if types.length ≠ args.length then .error (.argCount types.length args.length)
  else shape.eval (ParamShape.bindAll (ParamShape.layout types) args)

end SymbolicShape
end ArrayLang
