import ArrayLang.Adverb
import ArrayLang.Session

/-!
# Faults

Why running code stops, with the chain of calls that were active.
-/

namespace ArrayLang

/-- What went wrong while code was running. Values appear as their texts. -/
inductive Fault where
  | bind (cause : BindError)
  | adverb (cause : AdverbError)
  | array (cause : ArrayError)
  | convert (cause : ConvertError)
  | unboundVariable (name : String)
  | unknownFunction (name : String)
  | notCallable (found : String)
  | argCount (func : String) (expected found : Nat)
  | badOperands (op args : String)
  | broadcast (shapes : List (List Nat))
  | divisionByZero
  | badIndex (base index : String)
  | unknownAttribute (base name : String)
  | unpack (expected : Nat) (found : String)
  | badCondition (found : String)
  | badTarget
  | badShape (found : String)
  | badCast (found : String)
deriving DecidableEq

def Fault.message : Fault → String
  | .bind cause => cause.message
  | .adverb cause => cause.message
  | .array cause => cause.message
  | .convert cause => cause.message
  | .unboundVariable name => "variable '" ++ name ++ "' is not bound"
  | .unknownFunction name => "unknown function '" ++ name ++ "'"
  | .notCallable found => found ++ " is not callable"
  | .argCount func expected found =>
    func ++ " takes " ++ toString expected ++ " arguments but " ++ toString found ++ " were given"
  | .badOperands op args => "operator " ++ op ++ " does not accept arguments " ++ args
  | .broadcast shapes =>
    "operands with shapes [" ++ ", ".intercalate (shapes.map shapeText)
      ++ "] cannot be broadcast together"
  | .divisionByZero => "integer modulo by zero"
  | .badIndex base index => "cannot index " ++ base ++ " with " ++ index
  | .unknownAttribute base name => base ++ " has no attribute '" ++ name ++ "'"
  | .unpack expected found =>
    "cannot unpack " ++ found ++ " into " ++ toString expected ++ " targets"
  | .badCondition found => "condition must be a scalar, found " ++ found
  | .badTarget => "cannot assign to this kind of expression"
  | .badShape found => "cannot allocate an array of shape " ++ found
  | .badCast found => "cannot cast " ++ found

/-- The functions that were entered and have not returned, innermost first. -/
abbrev Trace := List String

/-- The lines of a text without their line breaks. A line break at the end of the text opens no
further line. -/
def textLines (s : String) : List String :=
  let chop (line : List Char) : List Char :=
    if line.getLast? = some '\x0d' then line.dropLast else line
  let rec go : List Char → List Char → List (List Char)
    | line, [] => if line.isEmpty then [] else [line.reverse]
    | line, '\n' :: rest => chop line.reverse :: go [] rest
    | line, c :: rest => go (c :: line) rest
  (go [] s.toList).map String.ofList

/-- The text of a trace: a heading and a line for each call, outermost first, with line breaks inside
a function's name replaced by blanks. -/
def Trace.text (t : Trace) : String :=
  "\n".intercalate
    ("Stacktrace:" :: t.reverse.map fun name => " ".intercalate (textLines ("func: " ++ name)))

/-- Why running code stopped. -/
inductive Stop where
  | fault (kind : Fault) (trace : Trace)
  | outOfFuel
deriving DecidableEq

/-- A computation of the interpreter. -/
abbrev Eval := Run Session Stop

end ArrayLang
