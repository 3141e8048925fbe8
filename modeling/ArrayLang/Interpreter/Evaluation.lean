import ArrayLang.Interpreter.Operation

/-!
# Evaluation

A reference interpreter for source and specialized code. Expressions and statements are evaluated by
recursion on their structure; calling a function is a parameter of that recursion. `applyFn` ties
the knot with fuel, which bounds the depth of calls and the passes of each run of a loop. Running
out of fuel is told apart from every fault.
-/

namespace ArrayLang

/-- Values of variables. -/
abbrev Env := NameMap Value

/-- How control leaves a sequence of statements. -/
inductive Flow where
  | next (env : Env)
  | ret (value : Value)

namespace Interpreter

/-- Calls a function under the calls that are active. -/
abbrev Apply := Trace → FnDef → List Value → Eval Value

/-- Stops with a fault under the calls that are active. -/
def fail {α : Type} (trace : Trace) (kind : Fault) : Eval α :=
  throw (.fault kind trace)

/-- A step that may fault, under the calls that are active. -/
def orFault {α : Type} (trace : Trace) : Except Fault α → Eval α :=
  Run.ofExcept (.fault · trace)

/-- An operation on the store that may fault instead of being carried out. -/
def operate {α : Type} (trace : Trace) (plan : Store → Except Fault (Store → α × Store)) : Eval α :=
  Run.attempt (.fault · trace) plan

/-- The function of a name: its specialized form if there is one, or else its source. -/
def namedFn? (session : Session) (name : String) : Option FnDef :=
  ((session.typed.find? name).map .typed).or ((session.sources.find? name).map .source)

/-- The function of a name, or a fault. -/
def namedFn (trace : Trace) (name : String) : Eval FnDef := do
  match namedFn? (← get).context name with
  | some func => return func
  | none => fail trace (.unknownFunction name)

/-- Calls a closure, an operator or a host function. A host function is converted to source first. -/
def callValue (apply : Apply) (trace : Trace) (target : Value) (args : List Value) :
    Eval Value := do
  match target with
  | .closure func fixed => apply trace func (fixed ++ args)
  | .op op => operate trace (applyOperator op args none)
  | .host id name captured =>
    match ← Run.onContext (·.convert id name captured) with
    | .ok decl => apply trace (.source decl) (captured ++ args)
    | .error e => fail trace (.convert e)
  | other => fail trace (.notCallable (other.text (← Run.getStore)))

/-- Runs an adverb, whose own errors arise under the calls that are active. -/
def runAdverb (trace : Trace) (x : Run Session (AdverbStop Stop) Value) : Eval Value :=
  x.mapError fun
    | .adverb cause => .fault (.adverb cause) trace
    | .call stop => stop

/-- The value of a constant, in the representation of its type if that is a scalar type. -/
def literalValue (lit : Literal) (ty? : Option Ty) : Value :=
  match Value.ofLiteral lit, ty? with
  | .scalar x, some (.scalar elt) => .scalar (x.cast elt)
  | v, _ => v

/-- Converts a scalar or an array to an element type. -/
def castValue (elt : ElemType) (value : Value) (s : Store) :
    Except Fault (Store → Value × Store) :=
  match value with
  | .scalar x => .ok (.scalar (x.cast elt), ·)
  | .array v => .ok (newArray (v.cast elt))
  | _ => .error (.badCast (value.text s))

/-- A new array of zeros of a shape given as a value. -/
def allocValue (elt : ElemType) (shape : Value) (s : Store) :
    Except Fault (Store → Value × Store) :=
  match dims? shape with
  | some dims => .ok (newArray (View.zeros elt dims))
  | none => .error (.badShape (shape.text s))

/-- The value of a variable. Code may also name a source function directly. -/
def readVar (trace : Trace) (env : Env) (name : String) : Eval Value := do
  match env.find? name with
  | some value => return value
  | none =>
    match (← get).context.sources.find? name with
    | some decl => return .closure (.source decl) []
    | none => fail trace (.unboundVariable name)

/-- The captured values of a function written in place. -/
def captureAll (trace : Trace) (env : Env) (names : List String) : Eval (List Value) :=
  names.mapM fun name =>
    match env.find? name with
    | some value => pure value
    | none => fail trace (.unboundVariable name)

/-- Reads the axis of an adverb. -/
def axisValue (trace : Trace) (value : Value) : Eval Nat :=
  orFault trace ((Adverb.axisOf value).mapError .adverb)

/-! ## Expressions -/

section Expressions
variable (apply : Apply) (trace : Trace) (env : Env)

mutual
/-- The value of an expression. -/
def evalExpr : Expr → Eval Value
  | ⟨.lit value, ty?⟩ => return literalValue value ty?
  | ⟨.var name, _⟩ => readVar trace env name
  | ⟨.tuple items, _⟩ => return .tuple (← evalExprs items)
  | ⟨.proj base i, _⟩ => do
    let value ← evalExpr base
    let refused (s : Store) := Fault.badIndex (value.text s) (toString i)
    match value with
    | .tuple items =>
      match items[i]? with
      | some item => return item
      | none => fail trace (refused (← Run.getStore))
    | _ => fail trace (refused (← Run.getStore))
  | ⟨.array items, ty?⟩ => do
    let items ← evalExprs items
    operate trace (arrayLiteral items ty?)
  | ⟨.index base index, _⟩ => do
    let base ← evalExpr base
    let index ← evalExpr index
    orFault trace (indexValue (← Run.getStore) base index)
  | ⟨.slice start stop step, _⟩ => do
    let start ← evalExpr start
    let stop ← evalExpr stop
    let step ← evalOption step
    match sliceBound? start, sliceBound? stop, sliceBound? (step.getD .none) with
    | some start?, some stop?, some step? => return .slice ⟨start?, stop?, step?⟩
    | _, _, _ =>
      let s ← Run.getStore
      fail trace (.badIndex "a slice" (Value.listText s [start, stop, step.getD .none]))
  | ⟨.attr base name, _⟩ => do
    let base ← evalExpr base
    orFault trace (attributeOf (← Run.getStore) base name)
  | ⟨.op op args, ty?⟩ => do
    let args ← evalExprs args
    operate trace (applyOperator op args ty?)
  | ⟨.opValue op, _⟩ => return .op op
  | ⟨.call func args, _⟩ => do
    let args ← evalExprs args
    apply trace (← namedFn trace func) args
  | ⟨.invoke callee args, _⟩ => do
    let callee ← evalExpr callee
    let args ← evalExprs args
    callValue apply trace callee args
  | ⟨.closure func values, _⟩ => do
    let fixed ← evalExprs values
    return .closure (← namedFn trace func) fixed
  | ⟨.captured base i, _⟩ => do
    let value ← evalExpr base
    let refused (s : Store) := Fault.badIndex (value.text s) (toString i)
    match value with
    | .closure _ fixed =>
      match fixed[i]? with
      | some item => return item
      | none => fail trace (refused (← Run.getStore))
    | _ => fail trace (refused (← Run.getStore))
  | ⟨.lambda decl, _⟩ => do
    let decl ← Run.onContext (·.register decl)
    return .closure (.source decl) (← captureAll trace env decl.nonlocals)
  | ⟨.cast value elt, _⟩ => do
    let value ← evalExpr value
    operate trace (castValue elt value)
  | ⟨.struct name fields, _⟩ => return .struct name (← evalFields fields)
  | ⟨.alloc elt shape, _⟩ => do
    let shape ← evalExpr shape
    operate trace (allocValue elt shape)
  | ⟨.map func args axis, _⟩ => do
    let func ← evalExpr func
    let args ← evalExprs args
    let axis ← axisValue trace (← evalExpr axis)
    runAdverb trace (Adverb.map (callValue apply trace) func args axis)
  | ⟨.allPairs func args axis, _⟩ => do
    let func ← evalExpr func
    let args ← evalExprs args
    let axis ← axisValue trace (← evalExpr axis)
    match args with
    | [x, y] => runAdverb trace (Adverb.allPairs (callValue apply trace) func x y axis)
    | _ => fail trace (.adverb .allPairsArgs)
  | ⟨.reduce func combine start args axis, _⟩ => do
    let func ← evalExpr func
    let combine ← evalExpr combine
    let start? ← evalOption start
    let args ← evalExprs args
    let axis ← axisValue trace (← evalExpr axis)
    runAdverb trace (Adverb.reduce (callValue apply trace) ⟨func, combine, start?⟩ args axis)
  | ⟨.scan func combine emit start args axis, _⟩ => do
    let func ← evalExpr func
    let combine ← evalExpr combine
    let emit ← evalExpr emit
    let start? ← evalOption start
    let args ← evalExprs args
    let axis ← axisValue trace (← evalExpr axis)
    runAdverb trace (Adverb.scan (callValue apply trace) ⟨func, combine, start?⟩ emit args axis)
termination_by structural e => e

/-- The values of several expressions, from left to right. -/
def evalExprs : List Expr → Eval (List Value)
  | [] => return []
  | e :: es => do
    let value ← evalExpr e
    return value :: (← evalExprs es)
termination_by structural es => es

/-- The value of an optional expression. -/
def evalOption : Option Expr → Eval (Option Value)
  | none => return none
  | some e => return some (← evalExpr e)
termination_by structural e => e

/-- The values of the fields of a struct, in order. -/
def evalFields : List (String × Expr) → Eval (List (String × Value))
  | [] => return []
  | (name, e) :: rest => do
    let value ← evalExpr e
    return (name, value) :: (← evalFields rest)
termination_by structural es => es
end

end Expressions

/-! ## Statements -/

section Statements
variable (apply : Apply) (trace : Trace)

mutual
/-- Assigns a value to a target: a variable, a part of an array, or a tuple of targets. -/
def assign : Expr → Value → Env → Eval Env
  | ⟨.var name, _⟩, value, env => return env.insert name value
  | ⟨.tuple targets, _⟩, value, env => do
    let refused (s : Store) := Fault.unpack targets.length (value.text s)
    match value with
    | .tuple items =>
      if items.length = targets.length then assignAll targets items env
      else fail trace (refused (← Run.getStore))
    | _ => fail trace (refused (← Run.getStore))
  | ⟨.index base index, _⟩, value, env => do
    let base ← evalExpr apply trace env base
    let index ← evalExpr apply trace env index
    operate trace fun s => (assignIndex base index value s).map fun write s => ((), write s)
    return env
  | _, _, _ => fail trace .badTarget
termination_by structural target => target

/-- Assigns values to targets, pairwise from left to right. -/
def assignAll : List Expr → List Value → Env → Eval Env
  | target :: targets, value :: values, env => do
    let env ← assign target value env
    assignAll targets values env
  | _, _, env => return env
termination_by structural targets => targets
end

/-- Whether a condition holds. -/
def evalCond (cond : Expr) (env : Env) : Eval Bool := do
  match ← evalExpr apply trace env cond with
  | .scalar x => return x.truthy
  | other => fail trace (.badCondition (other.text (← Run.getStore)))

/-- Binds reconciled variables to one of their sides. All sides are evaluated first, since they may
refer to each other's variables. -/
def bindMerge (side : Phi → Expr) (merge : List Phi) (env : Env) : Eval Env := do
  let values ← evalExprs apply trace env (merge.map side)
  return env.insertAll ((merge.map (·.name)).zip values)

/-- Runs a loop from a test of its condition on, at most `fuel` passes. -/
def runLoop (test : Env → Eval Bool) (pass : Env → Eval Flow) : Nat → Env → Eval Flow
  | 0, _ => throw .outOfFuel
  | fuel + 1, env => do
    if ← test env then
      match ← pass env with
      | .ret value => return .ret value
      | .next env => runLoop test pass fuel env
    else return .next env

variable (fuel : Nat)

mutual
/-- Runs a statement. -/
def runStmt : Stmt → Env → Eval Flow
  | .assign target value, env => do
    let value ← evalExpr apply trace env value
    return .next (← assign apply trace target value env)
  | .ret value, env => return .ret (← evalExpr apply trace env value)
  | .branch cond onTrue onFalse merge, env => do
    if ← evalCond apply trace cond env then
      match ← runBlock onTrue env with
      | .ret value => return .ret value
      | .next env => return .next (← bindMerge apply trace Phi.left merge env)
    else
      match ← runBlock onFalse env with
      | .ret value => return .ret value
      | .next env => return .next (← bindMerge apply trace Phi.right merge env)
  | .loop cond body merge, env => do
    let env ← bindMerge apply trace Phi.left merge env
    runLoop (evalCond apply trace cond) (fun env => do
      match ← runBlock body env with
      | .ret value => return .ret value
      | .next env => return .next (← bindMerge apply trace Phi.right merge env)) fuel env
termination_by structural s => s

/-- Runs statements until one returns. -/
def runBlock : List Stmt → Env → Eval Flow
  | [], env => return .next env
  | s :: ss, env => do
    match ← runStmt s env with
    | .ret value => return .ret value
    | .next env => runBlock ss env
termination_by structural ss => ss
end

/-- Runs the body of a function. One that does not return has the value none. -/
def runBody (body : Block) (env : Env) : Eval Value := do
  match ← runBlock apply trace fuel body env with
  | .ret value => return value
  | .next _ => return .none

end Statements

/-! ## Calls -/

/-- The variables of a called function, bound to its arguments. -/
def bindCall (func : FnDef) (args : List Value) : Except Fault Env :=
  match func with
  | .source decl =>
    match bindArgs decl.name decl.params decl.nonlocals args [] with
    | .ok bound => .ok (.ofList bound)
    | .error e => .error (.bind e)
  | .typed func =>
    if args.length = func.argNames.length then .ok (.ofList (func.argNames.zip args))
    else .error (.argCount func.name func.argNames.length args.length)

/-- The statements of a function. -/
def bodyOf : FnDef → Block
  | .source decl => decl.body
  | .typed func => func.body

/-- Calls a function. Fuel bounds the depth of calls and the passes of each run of a loop. -/
def applyFn : Nat → Apply
  | 0, _, _, _ => throw .outOfFuel
  | fuel + 1, trace, func, args => do
    let trace := func.name :: trace
    let env ← orFault trace (bindCall func args)
    runBody (applyFn fuel) trace fuel (bodyOf func) env

/-- Calls a function value. -/
def call (fuel : Nat) (target : Value) (args : List Value) : Eval Value :=
  callValue (applyFn fuel) [] target args

/-- Calls the source function of a name. -/
def callSource (fuel : Nat) (name : String) (args : List Value) : Eval Value := do
  match (← get).context.sources.find? name with
  | some decl => applyFn fuel [] (.source decl) args
  | none => fail [] (.unknownFunction name)

/-- Calls a specialized function. -/
def callTyped (fuel : Nat) (func : TypedFn) (args : List Value) : Eval Value :=
  applyFn fuel [] (.typed func) args

end Interpreter
end ArrayLang
