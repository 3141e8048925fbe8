/-!
# Primitive operators

The elementwise operators, their names and arities.
-/

namespace ArrayLang

/-- A primitive elementwise operator. -/
inductive Operator where
  | add
  | subtract
  | multiply
  | divide
  | modulo
  | negative
  | abs
  | maximum
  | minimum
  | sqrt
  | exp
  | log
  | equal
  | notEqual
  | less
  | lessEqual
  | greater
  | greaterEqual
  | logicalAnd
  | logicalOr
  | logicalNot
deriving DecidableEq

/-- Which element types an operator computes on. -/
inductive OperatorCategory where
  | arith
  | float
  | compare
  | logical
deriving DecidableEq

namespace Operator

/-- Every operator, in order of declaration. -/
def all : List Operator :=
  [add, subtract, multiply, divide, modulo, negative, abs, maximum, minimum, sqrt, exp, log, equal,
    notEqual, less, lessEqual, greater, greaterEqual, logicalAnd, logicalOr, logicalNot]

def name : Operator → String
  | add => "add"
  | subtract => "subtract"
  | multiply => "multiply"
  | divide => "divide"
  | modulo => "mod"
  | negative => "negative"
  | abs => "abs"
  | maximum => "maximum"
  | minimum => "minimum"
  | sqrt => "sqrt"
  | exp => "exp"
  | log => "log"
  | equal => "equal"
  | notEqual => "not_equal"
  | less => "less"
  | lessEqual => "less_equal"
  | greater => "greater"
  | greaterEqual => "greater_equal"
  | logicalAnd => "logical_and"
  | logicalOr => "logical_or"
  | logicalNot => "logical_not"

/-- The operator with the given name. -/
def ofName? (s : String) : Option Operator :=
  all.find? (·.name == s)

def arity : Operator → Nat
  | negative | abs | sqrt | exp | log | logicalNot => 1
  | _ => 2

def category : Operator → OperatorCategory
  | add | subtract | multiply | modulo | negative | abs | maximum | minimum => .arith
  | divide | sqrt | exp | log => .float
  | equal | notEqual | less | lessEqual | greater | greaterEqual => .compare
  | logicalAnd | logicalOr | logicalNot => .logical

end Operator
end ArrayLang
