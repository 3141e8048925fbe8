import ArrayLang.Pipeline.Backend
import ArrayLang.Pipeline.Passes
import ArrayLang.SymbolicShape.Inference

/-!
# Execution

Running a named function on values: it is specialized for their types, optimized and executed. A
function that cannot be specialized may be interpreted from its source instead.
-/

namespace ArrayLang

mutual
/-- Whether values of a type may hold closures. -/
def Ty.holdsClosure : Ty → Bool
  | .closure _ _ => true
  | .tuple items => Ty.anyHoldsClosure items
  | .struct _ fields => Ty.anyFieldHoldsClosure fields
  | _ => false
termination_by structural t => t

def Ty.anyHoldsClosure : List Ty → Bool
  | [] => false
  | t :: ts => t.holdsClosure || Ty.anyHoldsClosure ts
termination_by structural ts => ts

def Ty.anyFieldHoldsClosure : List (String × Ty) → Bool
  | [] => false
  | (_, t) :: ts => t.holdsClosure || Ty.anyFieldHoldsClosure ts
termination_by structural ts => ts
end

namespace Pipeline

/-- Hands the specialization of a function to a backend. -/
def compile (fuel : Nat) (options : RunOptions) (backend : Backend) (name : String)
    (types : List Ty) : Pipeline Compiled := do
  let params ← bindTo name types
  let typed ← specializeAndOptimize fuel options name params
  Run.ofExcept (fun cause => .error (.backend cause)) (backend (← getSession) typed)

/-! ## Arguments -/

mutual
/-- An argument in the form in which code can use it: a host function becomes a closure over its
source, also inside tuples and among what a host function captured. -/
def prepareArg : Value → Pipeline Value
  | .host id name captured => do
    match ← onSession (·.convert id name captured) with
    | .error cause => fail (.convert cause)
    | .ok decl => return .closure (.source decl) (← prepareArgs captured)
  | .tuple items => return .tuple (← prepareArgs items)
  | value => return value
termination_by structural v => v

/-- Prepares several arguments, from left to right. -/
def prepareArgs : List Value → Pipeline (List Value)
  | [] => return []
  | v :: vs => do
    let value ← prepareArg v
    return value :: (← prepareArgs vs)
termination_by structural vs => vs
end

/-- The types of bound arguments. The first that has none is refused. -/
def paramTypes (name : String) (bound : List (String × Value)) :
    Except PipelineError (List (String × Ty)) :=
  bound.zipIdx.mapM fun ((param, value), index) =>
    match value.ty? with
    | some ty => .ok (param, ty)
    | none => .error (.untypedArgument name index)

/-! ## Results -/

/-- The shape that a function's result should have for arguments summarized by `args`, where it can
be known. -/
def expectedShape? (session : Session) (func : TypedFn) (args : List ShapeValue) :
    Except Defect (Option ShapeValue) :=
  if func.returnType.holdsClosure then .ok none
  else
    match resultShape session func with
    | .error .untyped => .error .untyped
    | .error _ => .ok none
    | .ok shape =>
      match shape.evalOn func.inputTypes args with
      | .ok expected => .ok (some expected)
      | .error cause => if cause.isInternal then .error (.shape cause) else .ok none

/-- Compares the shape of a result with the inferred one, where there is one. -/
def checkShape (func : TypedFn) (args : List ShapeValue) (result : Value) : Pipeline Unit := do
  match ← Run.ofExcept .defect (expectedShape? (← getSession) func args) with
  | none => return
  | some expected =>
    let found := ShapeValue.ofResult result
    unless expected.same found do
      fail (.shapeMismatch func.name expected found)

/-! ## Runs -/

/-- Specializes a function for bound arguments and runs the passes. -/
def prepareTyped (fuel : Nat) (options : RunOptions) (name : String)
    (bound : List (String × Value)) : Pipeline TypedFn := do
  let params ← Run.ofExcept .error (paramTypes name bound)
  specializeAndOptimize fuel options name params

/-- Executes a specialized function as the options ask. -/
def execute (fuel : Nat) (options : RunOptions) (backend : Backend) (func : TypedFn)
    (args : List Value) : Pipeline Value := do
  match options.mode with
  | .interpret => executing .execute (Interpreter.callTyped fuel func args)
  | .compile =>
    let compiled ← Run.ofExcept (fun cause => .error (.backend cause))
      (backend (← getSession) func)
    executing (fun kind trace => .backend (.runtime kind trace)) (compiled.call args)

/-- Runs a named function on values. -/
def run (fuel : Nat) (options : RunOptions) (backend : Backend) (name : String)
    (args : List Value) : Pipeline Value := do
  let args ← prepareArgs args
  let bound ← bindTo name args
  match ← Run.outcome (prepareTyped fuel options name bound) with
  | .ok typed =>
    let values := bound.map (·.2)
    let shapes := values.map ShapeValue.ofArg
    let result ← execute fuel options backend typed values
    if options.checkShapes then checkShape typed shapes result
    return result
  | .error (.error cause) =>
    if options.fallback = .interpret && cause.isUnspecializable then
      executing .execute (Interpreter.callSource fuel name args)
    else fail cause
  | .error stop => throw stop

end Pipeline
end ArrayLang
