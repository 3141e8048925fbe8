import ArrayLang.Syntax.FreshName
import ArrayLang.Syntax.Traversal
import ArrayLang.Typing.Coercion
import ArrayLang.Typing.Inference

/-!
# Lowering to specialized code

Once the types of all variables are known, a function is built anew from typed nodes, with
conversions wherever a value does not have the type that its context requires. Literals of arrays
become an allocation and a write per item, and a tuple that cannot be converted as a whole is
unpacked through a temporary.
-/

namespace ArrayLang

/-- The state of lowering a function. -/
structure LowerState where
  env : TypeEnv
  names : NameSupply
  /-- The statements that were emitted so far. -/
  emitted : Block

/-- A computation that lowers code. -/
abbrev Lower := StateT LowerState Typing

namespace Lower

open Typing TypingRule

/-- Appends a statement. -/
def emit (s : Stmt) : Lower Unit :=
  modify fun st => { st with emitted := st.emitted ++ [s] }

/-- Appends statements. -/
def emitAll (ss : Block) : Lower Unit :=
  modify fun st => { st with emitted := st.emitted ++ ss }

/-- Runs a computation that emits statements of its own, after the given ones, and returns those
beside its result. -/
def collectAfter {α : Type} (before : Block) (x : Lower α) : Lower (α × Block) := do
  let outer := (← get).emitted
  modify fun st => { st with emitted := before }
  let a ← x
  let inner := (← get).emitted
  modify fun st => { st with emitted := outer }
  return (a, inner)

/-- A new variable of the given type. -/
def temp (base : String) (ty : Ty) : Lower Expr := do
  let (name, names) := (← get).names.fresh base
  modify fun st => { st with names, env := st.env.insert name ty }
  return .typed (.var name) ty

/-- The type of a variable. -/
def varType (name : String) : Lower Ty := do
  match (← get).env.find? name with
  | some ty => return ty
  | none => Typing.fail (.unboundVariable name)

/-- An integer constant. -/
def intConst (n : Nat) : Expr :=
  .typed (.lit (.int (Int64.ofNat n))) .int64

/-- Converts the initial value of a reduction to its accumulator's type, which is that of the first
parameter of the combining function that is not captured. -/
def coerceStart (combine : Expr) : Option Expr → Lower (Option Expr)
  | none => return none
  | some start => do
    match combine.node with
    | .closure name captured =>
      let session : Session ← getThe Session
      match session.typed.find? name with
      | none => Typing.fail (.unknownFunction name)
      | some typed =>
        match typed.inputTypes[captured.length]? with
        | some acc => return some (← coerce start acc)
        | none => Typing.fail (.adverbArity typed.name 0)
    | _ => Typing.fail (.notCallable (← typeOf combine))

/-- Builds a literal of arrays: the result is allocated from the number of items and the shape of
the first, and then every item is written to its place. -/
def expandLiteral (first : Expr) (rest : List Expr) (elt : ElemType) (rank : Nat) :
    Lower Expr := do
  let ty := Ty.array elt rank
  let firstVar ← temp "array.first" (← typeOf first)
  emit (.assign firstVar first)
  let shape := Expr.typed (.attr firstVar "shape") (.tuple (List.replicate (rank - 1) .int64))
  let dims := intConst (rest.length + 1)
    :: (List.range (rank - 1)).map fun i => .typed (.proj shape i) .int64
  let result ← temp "array" ty
  emit (.assign result
    (.typed (.alloc elt (.typed (.tuple dims) (.tuple (List.replicate rank .int64)))) ty))
  let slotType := Ty.arrayOf elt (rank - 1)
  (firstVar :: rest).zipIdx.forM fun (value, i) => do
    let slot := Expr.typed (.index result (intConst i)) slotType
    emit (.assign slot (← coerceSlot value slotType))
  return result

/-- Inserts the conversions that the children of a typed node need. -/
def convertNode (e : Expr) : Lower Expr := do
  let ty ← typeOf e
  match e.node with
  | .op op args =>
    let expected ← check (operandTypes op (← typesOf args))
    let args ← (args.zip expected).mapM fun (arg, target) => coerceOperand arg target
    return .typed (.op op args) (op.resultType expected)
  | .array items =>
    match ty, items with
    | .array elt 1, _ => return .typed (.array (← items.mapM (coerce · (.scalar elt)))) ty
    | .array elt rank, first :: rest => expandLiteral first rest elt rank
    | _, _ => return .typed (.array items) ty
  | .reduce func combine start args axis =>
    return .typed (.reduce func combine (← coerceStart combine start) args axis) ty
  | .scan func combine emit start args axis =>
    return .typed (.scan func combine emit (← coerceStart combine start) args axis) ty
  | _ => return e

section
variable (specialize : Specializer)

/-- Types an expression and inserts the conversions that it needs. Statements that compute
temporaries of it are emitted. -/
def lowerExpr (e : Expr) : Lower Expr := do
  let typed ← (annotate specialize (← get).env e : Typing Expr)
  typed.rebuildM convertNode

/-! ## Assignments -/

mutual
/-- The type of a target made of variables. -/
def targetType : Expr → Lower Ty
  | ⟨.var name, _⟩ => varType name
  | ⟨.tuple items, _⟩ => return .tuple (← targetTypes items)
  | _ => Typing.fail .badTarget
termination_by structural e => e

def targetTypes : List Expr → Lower (List Ty)
  | [] => return []
  | e :: es => do
    let ty ← targetType e
    return ty :: (← targetTypes es)
termination_by structural es => es
end

mutual
/-- A target made of variables, with types. -/
def typedTarget : Expr → Lower Expr
  | ⟨.var name, _⟩ => return .typed (.var name) (← varType name)
  | ⟨.tuple items, _⟩ => do
    let items ← typedTargets items
    return .typed (.tuple items) (.tuple (← typesOf items))
  | _ => Typing.fail .badTarget
termination_by structural e => e

def typedTargets : List Expr → Lower (List Expr)
  | [] => return []
  | e :: es => do
    let e ← typedTarget e
    return e :: (← typedTargets es)
termination_by structural es => es
end

/-- Whether an expression is a tuple that is written out. -/
def isTuple (e : Expr) : Bool :=
  match e.node with
  | .tuple _ => true
  | _ => false

mutual
/-- Emits the assignment of a typed value to a target. -/
def lowerAssign : Expr → Expr → Lower Unit
  | ⟨.index base index, ty?⟩, value => do
    let target ← lowerExpr specialize ⟨.index base index, ty?⟩
    let value ← coerceSlot value (← typeOf target)
    emit (.assign target value)
  | ⟨.tuple items, ty?⟩, value => do
    let target ← targetType ⟨.tuple items, ty?⟩
    let found ← typeOf value
    if found = target || isTuple value then
      let value ← coerce value target
      emit (.assign (← typedTarget ⟨.tuple items, ty?⟩) value)
    else
      match found with
      | .tuple types =>
        if types.length ≠ items.length then Typing.fail (.incompatible target found)
        else
          let temp ← temp "unpack" found
          emit (.assign temp value)
          lowerComponents temp 0 items types
      | _ => Typing.fail (.incompatible target found)
  | ⟨.var name, _⟩, value => do
    let target ← varType name
    let value ← coerce value target
    emit (.assign (.typed (.var name) target) value)
  | _, _ => Typing.fail .badTarget
termination_by structural target => target

/-- Emits the assignments of a tuple's components, from component `i` on. -/
def lowerComponents (temp : Expr) (i : Nat) : List Expr → List Ty → Lower Unit
  | target :: targets, ty :: types => do
    lowerAssign target (.typed (.proj temp i) ty)
    lowerComponents temp (i + 1) targets types
  | _, _ => return
termination_by structural targets => targets
end

/-! ## Statements -/

/-- One side of a reconciled variable, converted to the variable's type. -/
def lowerSide (name : String) (value : Expr) : Lower Expr := do
  let target ← varType name
  let value ← lowerExpr specialize value
  coerce value target

/-- A condition, converted to a truth value. -/
def lowerCond (cond : Expr) : Lower Expr := do
  coerce (← lowerExpr specialize cond) .bool

variable (returnType : Ty)

mutual
/-- Emits the specialized form of a statement. The temporaries of a side of a reconciled variable
belong to the block that leads there; those of a loop's condition are computed before each test. -/
def lowerStmt : Stmt → Lower Unit
  | .assign target value => do lowerAssign specialize target (← lowerExpr specialize value)
  | .ret value => do
    let value ← lowerExpr specialize value
    emit (.ret (← coerce value returnType))
  | .branch cond onTrue onFalse merge => do
    let cond ← lowerCond specialize cond
    let ((), onTrue) ← collectAfter [] (lowerBlock onTrue)
    let ((), onFalse) ← collectAfter [] (lowerBlock onFalse)
    let (phis, onTrue, onFalse) ← merge.foldlM (fun (phis, onTrue, onFalse) phi => do
      let (left, onTrue) ← collectAfter onTrue (lowerSide specialize phi.name phi.left)
      let (right, onFalse) ← collectAfter onFalse (lowerSide specialize phi.name phi.right)
      return (phis ++ [⟨phi.name, left, right⟩], onTrue, onFalse)) ([], onTrue, onFalse)
    emit (.branch cond onTrue onFalse phis)
  | .loop cond body merge => do
    let lefts ← merge.mapM fun phi => lowerSide specialize phi.name phi.left
    let (cond, setup) ← collectAfter [] (lowerCond specialize cond)
    emitAll setup
    let ((), body) ← collectAfter [] (lowerBlock body)
    let (rights, body) ← collectAfter body
      (merge.mapM fun phi => lowerSide specialize phi.name phi.right)
    let phis := merge.zipWith (fun phi (left, right) => (⟨phi.name, left, right⟩ : Phi))
      (lefts.zip rights)
    emit (.loop cond (body ++ setup) phis)
termination_by structural s => s

def lowerBlock : List Stmt → Lower Unit
  | [] => return
  | s :: ss => do
    lowerStmt s
    lowerBlock ss
termination_by structural ss => ss
end

end
end Lower

/-- A function's parameters, body and variables in specialized form. -/
structure Lowered where
  argNames : List String
  body : Block
  typeEnv : TypeEnv

namespace Lower

/-- Emits what a parameter needs and returns the name under which its argument comes in. A parameter
whose variable is wider than its argument comes in under a new name and is converted first. -/
def lowerParam (name : String) (ty : Ty) : Lower String := do
  let localTy := ((← get).env.find? name).getD ty
  if localTy = ty then return name
  else
    let incoming ← temp (name ++ ".in") ty
    let value ← coerce incoming localTy
    emit (.assign (.typed (.var name) localTy) value)
    return (incoming.var?).getD name

end Lower

/-- Lowers a function whose types have been inferred for the given parameters. -/
def lowerFn (specialize : Specializer) (func : FnDecl) (params : List (String × Ty))
    (inference : Inference) : Typing Lowered := do
  let start : LowerState := ⟨inference.env, {}, []⟩
  let (argNames, st) ← (do
    let argNames ← params.mapM fun (name, ty) => Lower.lowerParam name ty
    Lower.lowerBlock specialize inference.returnType func.body
    return argNames : Lower (List String)).run start
  return ⟨argNames, st.emitted, st.env⟩

end ArrayLang
