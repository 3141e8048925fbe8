import ArrayLang.Typing.Rules

/-!
# Annotating expressions

Gives every node of an expression a type. Calls name their specialized callees with all arguments
bound, closures and the functions of adverbs become closures over specialized functions, functions
written in place become closures over their nonlocals, and a slice without a step gets the step 1.
No conversions are inserted here.
-/

namespace ArrayLang

open Typing TypingRule

namespace Annotate

/-- Stands for the argument of one call of an adverb's function. -/
def elementPlaceholder : String := "<elt>"

/-- How often the type of an accumulator may be widened. -/
def maxPasses : Nat := 32

/-- A typed constant. -/
def literal (value : Literal) : Expr :=
  .typed (.lit value) value.ty

/-- A typed variable. -/
def declaredVar? (env : TypeEnv) (name : String) : Except TypingError Expr :=
  match env.find? name with
  | some ty => .ok (.typed (.var name) ty)
  | none => .error (.unboundVariable name)

/-- A closure over typed captured values. -/
def closureOf (func : String) (captured : List Expr) : Typing Expr := do
  return .typed (.closure func captured) (.closure func (← typesOf captured))

mutual
/-- Types the constants and tuples that binding arguments makes. -/
def complete : Expr → Typing Expr
  | ⟨node, some ty⟩ => return ⟨node, some ty⟩
  | ⟨.lit value, none⟩ => return literal value
  | ⟨.tuple items, none⟩ => do
    let items ← completeAll items
    return .typed (.tuple items) (.tuple (← typesOf items))
  | _ => throw .untyped
termination_by structural e => e

def completeAll : List Expr → Typing (List Expr)
  | [] => return []
  | e :: es => do
    let e ← complete e
    return e :: (← completeAll es)
termination_by structural es => es
end

/-- Binds typed arguments to a function's parameters. -/
def bindExprs (func : FnDecl) (args : List Expr) : Typing (List (String × Expr)) := do
  let bound ← check ((bindArgs func.name func.params func.nonlocals args []).mapError .bind)
  bound.mapM fun (name, e) => do return (name, ← complete e)

/-- The parameters of a specialization for bound arguments. -/
def paramTypes (bound : List (String × Expr)) : Typing (List (String × Ty)) :=
  bound.mapM fun (name, e) => do return (name, ← typeOf e)

section
variable (specialize : Specializer)

/-- The function that a closure of a given type calls on arguments of the given types. -/
def specializeNamed (name : String) (types : List Ty) : Typing TypedFn := do
  let func ← require (.unknownFunction name) ((← get).sources.find? name)
  let bound ← check ((bindArgs name func.params func.nonlocals types []).mapError .bind)
  specialize func bound

/-- The function that a closure calls on arguments of the given types. One that was specialized has
to be called at its own types. -/
def specializeClosure (func : String) (captured types : List Ty) : Typing TypedFn := do
  let all := captured ++ types
  match (← get).typed.find? func with
  | some typed =>
    if typed.inputTypes = all then return typed
    else fail (.incompatible (.tuple typed.inputTypes) (.tuple all))
  | none => specializeNamed specialize func all

/-- A call of a named function with typed arguments. -/
def annotateCall (name : String) (args : List Expr) : Typing Expr := do
  match (← get).typed.find? name with
  | some typed =>
    let found ← typesOf args
    if found = typed.inputTypes then return .typed (.call name args) typed.returnType
    else fail (.incompatible (.tuple typed.inputTypes) (.tuple found))
  | none =>
    let func ← require (.unknownFunction name) ((← get).sources.find? name)
    let bound ← bindExprs func args
    let typed ← specialize func (← paramTypes bound)
    return .typed (.call typed.name (bound.map (·.2))) typed.returnType

/-- The captured values of a closure-typed expression. -/
def capturedValues (callee : Expr) (types : List Ty) : List Expr :=
  match callee.node with
  | .closure _ captured => captured
  | _ => types.mapIdx fun i ty => .typed (.captured callee i) ty

/-- Resolves a call through a closure-typed expression: the specialized closure to call, the
arguments that are left to pass, and the function that is called. -/
def specializeCallee (callee : Expr) (args : List Expr) :
    Typing (Expr × List Expr × TypedFn) := do
  match ← typeOf callee with
  | .closure name types =>
    let captured := capturedValues callee types
    if (← get).typed.contains name then
      let typed ← specializeClosure specialize name types (← typesOf args)
      return (.typed (.closure typed.name captured) (.closure name types), args, typed)
    else
      let func ← require (.unknownFunction name) ((← get).sources.find? name)
      if func.nonlocals.length + func.params.positional.length < types.length then
        fail (.tooManyCaptured func.name)
      let bound ← bindExprs func (captured ++ args)
      let typed ← specialize func (← paramTypes bound)
      let all := bound.map (·.2)
      let fixed := all.take types.length
      return (← closureOf typed.name fixed, all.drop types.length, typed)
  | other => fail (.notCallable other)

/-- Specializes the function of an adverb for the types of one call's arguments, which have to be
all that the function takes beyond its captured values. -/
def specializeElementwise (func : Expr) (types : List Ty) : Typing (Expr × TypedFn) := do
  let args := types.map fun ty => Expr.typed (.var elementPlaceholder) ty
  let (closure, rest, typed) ← specializeCallee specialize func args
  if rest.length = types.length ∧ rest.all (·.var? = some elementPlaceholder) then
    return (closure, typed)
  else fail (.adverbArity typed.name types.length)

/-- Finds the type of a reduction's accumulator: the least one that holds the starting value and all
that `combine` returns for it. -/
def settleAccumulator (combine : Expr) (element : Ty) : Nat → Ty → Typing (Expr × Ty)
  | 0, _ => fail (.noFixedPoint "<accumulator>")
  | passes + 1, acc => do
    let (typedCombine, typed) ← specializeElementwise specialize combine [acc, element]
    let joined ← require (.conflicting "<accumulator>" acc typed.returnType)
      (acc.join? typed.returnType)
    if joined = acc then return (typedCombine, acc)
    else settleAccumulator combine element passes joined

end
end Annotate

open Annotate

section
variable (specialize : Specializer) (env : TypeEnv)

mutual
/-- Types an expression. -/
def annotate : Expr → Typing Expr
  | ⟨.lit value, _⟩ => return literal value
  | ⟨.var name, _⟩ => check (declaredVar? env name)
  | ⟨.tuple items, _⟩ => do
    let items ← annotateAll items
    return .typed (.tuple items) (.tuple (← typesOf items))
  | ⟨.proj base i, _⟩ => do
    let base ← annotate base
    return .typed (.proj base i) (← check (itemType (← typeOf base) i))
  | ⟨.array items, _⟩ => do
    let items ← annotateAll items
    return .typed (.array items) (← check (literalType (← typesOf items)))
  | ⟨.index base index, _⟩ => do
    let base ← annotate base
    let index ← annotate index
    let ty ← check (indexType (← typeOf base) index (← typeOf index))
    return .typed (.index base index) ty
  | ⟨.slice start stop step, _⟩ => do
    let start ← annotate start
    let stop ← annotate stop
    let step := (← annotateOption step).getD (literal (.int 1))
    let types ← typesOf [start, stop, step]
    match types.find? (fun t => !isSliceBound t) with
    | some t => fail (.incompatible .int64 t)
    | none =>
      return .typed (.slice start stop (some step))
        (.slice (← typeOf start) (← typeOf stop) (← typeOf step))
  | ⟨.attr base name, _⟩ => do
    let base ← annotate base
    return .typed (.attr base name) (← check (attributeType (← typeOf base) name))
  | ⟨.op op args, _⟩ => do
    let args ← annotateAll args
    let expected ← check (operandTypes op (← typesOf args))
    return .typed (.op op args) (op.resultType expected)
  | ⟨.opValue op, _⟩ => fail (.operatorValue op.name)
  | ⟨.call func args, _⟩ => do annotateCall specialize func (← annotateAll args)
  | ⟨.invoke callee args, _⟩ => do
    let callee ← annotate callee
    let args ← annotateAll args
    let (closure, args, typed) ← specializeCallee specialize callee args
    return .typed (.invoke closure args) typed.returnType
  | ⟨.closure func captured, _⟩ => do
    let session ← get
    if session.sources.contains func || session.typed.contains func then
      closureOf func (← annotateAll captured)
    else fail (.unknownFunction func)
  | ⟨.captured base i, _⟩ => do
    let base ← annotate base
    return .typed (.captured base i) (← check (capturedType (← typeOf base) i))
  | ⟨.lambda decl, _⟩ => do
    modify fun session => (session.register decl).2
    let captured ← decl.nonlocals.mapM fun name => check (declaredVar? env name)
    closureOf decl.name captured
  | ⟨.cast value elt, _⟩ => do
    let value ← annotate value
    return .typed (.cast value elt) (← check (castType (← typeOf value) elt))
  | ⟨.struct name fields, _⟩ => do
    let fields ← annotateFields fields
    let types ← fields.mapM fun (field, e) => do return (field, ← typeOf e)
    return .typed (.struct name fields) (.struct name types)
  | ⟨.alloc elt shape, _⟩ => do
    let shape ← annotate shape
    return .typed (.alloc elt shape) (← check (allocType elt (← typeOf shape)))
  | ⟨.map func args axis, _⟩ => do
    let i ← check (constAxis axis)
    let axis ← annotate axis
    let func ← annotate func
    let args ← annotateAll args
    let types ← typesOf args
    let (func, typed) ← specializeElementwise specialize func (← check (sliceTypes i types))
    let ty ← if types.any Ty.isArray then check (stackedType typed.returnType 1)
      else pure typed.returnType
    return .typed (.map func args axis) ty
  | ⟨.allPairs func args axis, _⟩ => do
    let i ← check (constAxis axis)
    let axis ← annotate axis
    let func ← annotate func
    let args ← annotateAll args
    let types ← typesOf args
    if types.length ≠ 2 || !types.all Ty.isArray then fail .allPairsArgs
    let (func, typed) ← specializeElementwise specialize func (← check (sliceTypes i types))
    return .typed (.allPairs func args axis) (← check (stackedType typed.returnType 2))
  | ⟨.reduce func combine start args axis, _⟩ => do
    let i ← check (constAxis axis)
    let axis ← annotate axis
    let func ← annotate func
    let combine ← annotate combine
    let start? ← annotateOption start
    let args ← annotateAll args
    let slices ← check (sliceTypes i (← typesOf args))
    let (func, typed) ← specializeElementwise specialize func slices
    let element := typed.returnType
    let first ← match start? with
      | some start => typeOf start
      | none => pure element
    let (combine, acc) ← settleAccumulator specialize combine element maxPasses first
    return .typed (.reduce func combine start? args axis) acc
  | ⟨.scan func combine emit start args axis, _⟩ => do
    let i ← check (constAxis axis)
    let axis ← annotate axis
    let func ← annotate func
    let combine ← annotate combine
    let emit ← annotate emit
    let start? ← annotateOption start
    let args ← annotateAll args
    let types ← typesOf args
    let (func, typed) ← specializeElementwise specialize func (← check (sliceTypes i types))
    let element := typed.returnType
    let first ← match start? with
      | some start => typeOf start
      | none => pure element
    let (combine, acc) ← settleAccumulator specialize combine element maxPasses first
    let (emit, emitted) ← specializeElementwise specialize emit [acc]
    let ty ← if types.any Ty.isArray then check (stackedType emitted.returnType 1)
      else pure emitted.returnType
    return .typed (.scan func combine emit start? args axis) ty
termination_by structural e => e

/-- Types several expressions, from left to right. -/
def annotateAll : List Expr → Typing (List Expr)
  | [] => return []
  | e :: es => do
    let e ← annotate e
    return e :: (← annotateAll es)
termination_by structural es => es

/-- Types an optional expression. -/
def annotateOption : Option Expr → Typing (Option Expr)
  | none => return none
  | some e => return some (← annotate e)
termination_by structural e => e

/-- Types the fields of a struct. -/
def annotateFields : List (String × Expr) → Typing (List (String × Expr))
  | [] => return []
  | (name, e) :: rest => do
    let e ← annotate e
    return (name, e) :: (← annotateFields rest)
termination_by structural es => es
end

end
end ArrayLang
