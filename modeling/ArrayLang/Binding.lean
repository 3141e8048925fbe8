import ArrayLang.Syntax.Basic

/-!
# Binding arguments to parameters

A call's arguments are bound to nonlocals first, then to positional parameters, then to the
parameter that collects the rest. The same rules bind values when code runs, types when a function
is specialized, and expressions when a call is typed.
-/

namespace ArrayLang

/-- Why arguments do not fit parameters. -/
inductive BindError where
  | tooManyArgs (func : String) (expected found : Nat)
  | missingArg (func name : String)
  | unknownKeyword (func name : String)
  | duplicateArg (func name : String)
deriving DecidableEq

def BindError.message : BindError → String
  | .tooManyArgs func expected found =>
    func ++ " takes " ++ toString expected ++ " positional arguments but " ++ toString found
      ++ " were given"
  | .missingArg func name => func ++ " is missing a value for argument '" ++ name ++ "'"
  | .unknownKeyword func name => func ++ " got an unexpected keyword argument '" ++ name ++ "'"
  | .duplicateArg func name => func ++ " got multiple values for argument '" ++ name ++ "'"

/-- What can be bound to a parameter. -/
class Bindable (α : Type) where
  /-- The value of a parameter that is left to its default. -/
  ofLiteral : Literal → α
  /-- The value of the parameter that collects the further arguments. -/
  ofRest : List α → α

instance : Bindable Ty := ⟨Literal.ty, .tuple⟩

instance : Bindable Expr := ⟨fun lit => .plain (.lit lit), fun items => .plain (.tuple items)⟩

namespace Binding

variable {α : Type}

/-- Binds each nonlocal to the next argument and returns the arguments that are left. -/
def bindNonlocals (func : String) :
    List String → List α → Except BindError (List (String × α) × List α)
  | [], args => .ok ([], args)
  | name :: _, [] => .error (.missingArg func name)
  | name :: names, arg :: args => do
    let (bound, left) ← bindNonlocals func names args
    return ((name, arg) :: bound, left)

/-- A slot for each positional parameter, the leading ones filled by the arguments. -/
def slots (names : List String) (args : List α) : List (String × Option α) :=
  names.zip (args.map some ++ List.replicate (names.length - args.length) none)

/-- Puts a keyword argument into the first slot of its name. -/
def placeKeyword (func name : String) (value : α) :
    List (String × Option α) → Except BindError (List (String × Option α))
  | [] => .error (.unknownKeyword func name)
  | (slot, held) :: rest =>
    if slot = name then
      match held with
      | some _ => .error (.duplicateArg func name)
      | none => .ok ((slot, some value) :: rest)
    else do return (slot, held) :: (← placeKeyword func name value rest)

/-- Puts keyword arguments into their slots, from left to right. -/
def placeKeywords (func : String) (slots : List (String × Option α))
    (keywords : List (String × α)) : Except BindError (List (String × Option α)) :=
  keywords.foldlM (fun slots (name, value) => placeKeyword func name value slots) slots

/-- The value of a slot, from the defaults if it is empty. -/
def fillSlot [Bindable α] (func : String) (params : Params) :
    String × Option α → Except BindError (String × α)
  | (name, some value) => .ok (name, value)
  | (name, none) =>
    match params.default? name with
    | some lit => .ok (name, Bindable.ofLiteral lit)
    | none => .error (.missingArg func name)

end Binding

open Binding in
/-- Binds arguments to the parameters of `func`, in the order of the parameters. -/
def bindArgs {α : Type} [Bindable α] (func : String) (params : Params) (nonlocals : List String)
    (args : List α) (keywords : List (String × α)) : Except BindError (List (String × α)) := do
  let (captured, args) ← bindNonlocals func nonlocals args
  let count := params.positional.length
  let extra := args.drop count
  if !extra.isEmpty && params.rest?.isNone then
    throw (.tooManyArgs func count (count + extra.length))
  let slots ← placeKeywords func (slots params.positional args) keywords
  let filled ← slots.mapM (fillSlot func params)
  let rest := params.rest?.toList.map fun name => (name, Bindable.ofRest extra)
  return captured ++ filled ++ rest

end ArrayLang
