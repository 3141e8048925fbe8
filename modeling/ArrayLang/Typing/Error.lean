import ArrayLang.Session

/-!
# Typing errors

Why code cannot be specialized, and the computations that specialize it.
-/

namespace ArrayLang

inductive TypingError where
  | incompatible (expected found : Ty)
  | conflicting (var : String) (first second : Ty)
  | unboundVariable (name : String)
  | unknownFunction (name : String)
  | notCallable (found : Ty)
  | operatorValue (op : String)
  | recursive (func : String)
  | bind (cause : BindError)
  | badOperands (op args : String)
  | badIndex (base index : Ty)
  | unknownAttribute (base : Ty) (name : String)
  | badTarget
  | nonConstantAxis
  | axisOutOfRange (axis rank : Nat)
  | badElement (found : Ty)
  | allPairsArgs
  | adverbArity (func : String) (found : Nat)
  | tooManyCaptured (func : String)
  | noFixedPoint (name : String)
deriving DecidableEq

def TypingError.message : TypingError → String
  | .incompatible expected found =>
    "incompatible types: expected " ++ expected.text ++ ", found " ++ found.text
  | .conflicting var first second =>
    "variable '" ++ var ++ "' is assigned both " ++ first.text ++ " and " ++ second.text
  | .unboundVariable name => "variable '" ++ name ++ "' is used before it is assigned"
  | .unknownFunction name => "unknown function '" ++ name ++ "'"
  | .notCallable found => "a value of type " ++ found.text ++ " is not callable"
  | .operatorValue op => "primitive '" ++ op ++ "' cannot be passed as a value in typed code"
  | .recursive func => func ++ " calls itself, and recursive specialization is not supported"
  | .bind cause => cause.message
  | .badOperands op args => "operator " ++ op ++ " does not accept arguments of types " ++ args
  | .badIndex base index => "cannot index " ++ base.text ++ " with " ++ index.text
  | .unknownAttribute base name => base.text ++ " has no attribute '" ++ name ++ "'"
  | .badTarget => "cannot assign to this kind of expression"
  | .nonConstantAxis => "adverb axis must be a non-negative integer constant"
  | .axisOutOfRange axis rank =>
    "axis " ++ toString axis ++ " is out of range for an argument of rank " ++ toString rank
  | .badElement found => "adverbs cannot produce elements of type " ++ found.text
  | .allPairsArgs => "allpairs needs exactly two array arguments"
  | .adverbArity func found =>
    func ++ " cannot be applied element-wise to " ++ toString found ++ " arguments"
  | .tooManyCaptured func => "the closure captures more values than " ++ func ++ " has parameters"
  | .noFixedPoint name => "the type of '" ++ name ++ "' does not settle"

/-- Why specialization stopped. -/
inductive TypingStop where
  | error (cause : TypingError)
  /-- Code that should be specialized has a node without a type. -/
  | untyped
  /-- The specializations of called functions are nested too deeply. -/
  | outOfFuel
deriving DecidableEq

/-- A computation that types code. What it recorded in the session is kept when it stops. -/
abbrev Typing := ExceptT TypingStop (StateM Session)

namespace Typing

/-- Stops with an error. -/
def fail {α : Type} (cause : TypingError) : Typing α :=
  throw (.error cause)

/-- A result known in advance. -/
def check {α : Type} : Except TypingError α → Typing α
  | .ok a => pure a
  | .error cause => fail cause

/-- A result known in advance that may be missing. -/
def require {α : Type} (cause : TypingError) : Option α → Typing α
  | some a => pure a
  | none => fail cause

/-- The type of a node of specialized code. -/
def typeOf (e : Expr) : Typing Ty :=
  match e.ty? with
  | some ty => pure ty
  | none => throw .untyped

/-- The types of nodes of specialized code. -/
def typesOf (es : List Expr) : Typing (List Ty) :=
  es.mapM typeOf

/-- Runs a computation to its result or to what stopped it. -/
def attempt {α : Type} (x : Typing α) : Typing (Except TypingStop α) :=
  ExceptT.lift x.run

end Typing

/-- Specializes a function for the types of its bound parameters. -/
abbrev Specializer := FnDecl → List (String × Ty) → Typing TypedFn

end ArrayLang
