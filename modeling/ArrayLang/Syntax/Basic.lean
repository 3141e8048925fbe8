import ArrayLang.NameMap
import ArrayLang.Operator.Basic
import ArrayLang.Ty.Basic

/-!
# Syntax

Programs are lists of statements over expressions. The same syntax serves source code, whose nodes
carry no types, and specialized code, whose nodes all do. Where two control-flow paths meet, a
statement lists the variables that are reconciled there.
-/

namespace ArrayLang

/-- A constant of the language. -/
inductive Literal where
  | none
  | bool (value : Bool)
  | int (value : Int64)
  | float (value : Float)
deriving Inhabited

namespace Literal

/-- The type of a constant. -/
def ty : Literal → Ty
  | none => .none
  | bool _ => .scalar .bool
  | int _ => .scalar .int64
  | float _ => .scalar .float64

end Literal

/-- The parameters of a function. -/
structure Params where
  /-- Parameters that take one argument each. -/
  positional : List String
  /-- Values of the parameters that a caller may leave out. -/
  defaults : List (String × Literal)
  /-- The parameter that collects all further arguments into a tuple. -/
  rest? : Option String

namespace Params

/-- The first default given for a parameter. -/
def default? (p : Params) (name : String) : Option Literal :=
  p.defaults.lookup name

/-- The parameters in the order in which they are bound. -/
def names (p : Params) : List String :=
  p.positional ++ p.rest?.toList

end Params

mutual
/-- An expression: a node and the type it was given, if any. -/
structure Expr where
  node : Node
  ty? : Option Ty

/-- The forms of expressions. -/
inductive Node where
  /-- A constant. -/
  | lit (value : Literal)
  | var (name : String)
  | tuple (items : List Expr)
  /-- Component `i` of a tuple. -/
  | proj (base : Expr) (i : Nat)
  | array (items : List Expr)
  /-- A selection; the index is an integer, a slice, or a tuple of those. -/
  | index (base index : Expr)
  | slice (start stop : Expr) (step : Option Expr)
  /-- A named part of a value. -/
  | attr (base : Expr) (name : String)
  /-- An operator applied to operands. -/
  | op (op : Operator) (args : List Expr)
  /-- An operator as a value. -/
  | opValue (op : Operator)
  /-- A call of a named function. -/
  | call (func : String) (args : List Expr)
  /-- A call of a computed function. -/
  | invoke (callee : Expr) (args : List Expr)
  /-- A named function together with its first arguments. -/
  | closure (func : String) (captured : List Expr)
  /-- Captured value `i` of a closure. -/
  | captured (base : Expr) (i : Nat)
  /-- A function written in place. -/
  | lambda (decl : FnDecl)
  | cast (value : Expr) (elt : ElemType)
  | struct (name : String) (fields : List (String × Expr))
  /-- A new array of zeros. -/
  | alloc (elt : ElemType) (shape : Expr)
  | map (func : Expr) (args : List Expr) (axis : Expr)
  | allPairs (func : Expr) (args : List Expr) (axis : Expr)
  | reduce (func combine : Expr) (start : Option Expr) (args : List Expr) (axis : Expr)
  | scan (func combine emit : Expr) (start : Option Expr) (args : List Expr) (axis : Expr)

/-- A variable reconciled where two paths meet. At a conditional, `left` is its value after the
true branch and `right` after the false branch; at a loop, `left` is its value on entry and `right`
after each run of the body. -/
structure Phi where
  name : String
  left : Expr
  right : Expr

/-- Statements. The reconciled variables of a statement are in increasing order of their names. -/
inductive Stmt where
  | assign (target value : Expr)
  | ret (value : Expr)
  | branch (cond : Expr) (onTrue onFalse : List Stmt) (merge : List Phi)
  | loop (cond : Expr) (body : List Stmt) (merge : List Phi)

/-- A source function. Its nonlocals are captured where it is defined and are bound before its
parameters. -/
structure FnDecl where
  name : String
  params : Params
  nonlocals : List String
  body : List Stmt
end

/-- A sequence of statements. -/
abbrev Block := List Stmt

instance : Inhabited Expr := ⟨⟨.lit .none, none⟩⟩

namespace Expr

/-- A node without a type. -/
def plain (node : Node) : Expr := ⟨node, none⟩

/-- A node with a type. -/
def typed (node : Node) (ty : Ty) : Expr := ⟨node, some ty⟩

/-- The name of a variable. -/
def var? (e : Expr) : Option String :=
  match e.node with
  | .var name => some name
  | _ => none

end Expr

/-- Which kind of new storage an expression makes. -/
inductive AllocKind where
  | raw
  | struct
  | adverb
deriving DecidableEq

/-- The kind of storage that an allocating expression makes. -/
def Expr.allocKind? (e : Expr) : Option AllocKind :=
  match e.node with
  | .alloc .. => some .raw
  | .struct .. => some .struct
  | .map .. | .allPairs .. | .reduce .. | .scan .. => some .adverb
  | _ => none

/-- Types of variables. -/
abbrev TypeEnv := NameMap Ty

/-- A function specialized for one signature. Its type environment covers the parameters, the local
variables and the temporaries. -/
structure TypedFn where
  name : String
  argNames : List String
  inputTypes : List Ty
  body : Block
  returnType : Ty
  typeEnv : TypeEnv

namespace TypedFn

/-- The parameters with their types. -/
def params (f : TypedFn) : List (String × Ty) :=
  f.argNames.zip f.inputTypes

/-- Whether every variable holds a scalar. -/
def allScalar (f : TypedFn) : Bool :=
  f.typeEnv.values.all Ty.isScalar

end TypedFn

/-- The name of a specialization, such as `norm[array1<float64>,int64]`. -/
def specializedName (name : String) (types : List Ty) : String :=
  name ++ "[" ++ ",".intercalate (Ty.texts types) ++ "]"

end ArrayLang
