import ArrayLang.Session
import ArrayLang.SymbolicShape.Basic

/-!
# Shape inference

Specialized code is run on abstract values, which keep the dimensions of arrays and the values of
integer scalars as symbolic shapes. Where two paths meet, what they disagree on becomes unknown.
Recursion is refused, so that the walk through the calls of a session ends.
-/

namespace ArrayLang

/-- Why the shape of a result cannot be inferred. -/
inductive ShapeInferError where
  | dataDependent (func : String)
  | unknownFunction (name : String)
  | recursive (func : String)
  | notCallable (found : Ty)
  | nonConstantAxis
  /-- The code is not specialized: some node has no type. -/
  | untyped
deriving DecidableEq

def ShapeInferError.message : ShapeInferError → String
  | .dataDependent func => "the result shape of " ++ func ++ " depends on runtime data"
  | .unknownFunction name => "unknown function '" ++ name ++ "'"
  | .recursive func => func ++ " is recursive, so its result shape cannot be inferred"
  | .notCallable found => "cannot infer the shape of a call through a value of type " ++ found.text
  | .nonConstantAxis => "adverb axis must be a non-negative integer constant"
  | .untyped => "expression has no type in typed IR:"

/-! ## Abstract values -/

/-- What is known about a value. -/
inductive AbstractValue where
  /-- A scalar, with its value if that is known. -/
  | scalar (value : SymbolicShape)
  | array (dims : List SymbolicShape)
  | tuple (items : List AbstractValue)
  | closure (func : String) (captured : List AbstractValue)
  | untracked
deriving Inhabited

namespace AbstractValue

mutual
/-- Structural equality test. -/
def beq : AbstractValue → AbstractValue → Bool
  | scalar a, scalar b => a = b
  | array as, array bs => as = bs
  | tuple as, tuple bs => beqList as bs
  | closure f as, closure g bs => f = g && beqList as bs
  | untracked, untracked => true
  | _, _ => false
termination_by structural v => v

/-- Structural equality test, item by item. -/
def beqList : List AbstractValue → List AbstractValue → Bool
  | [], [] => true
  | a :: as, b :: bs => a.beq b && beqList as bs
  | _, _ => false
termination_by structural vs => vs
end

mutual
/-- A value of a type about which nothing else is known. -/
def unknownOf : Ty → AbstractValue
  | .scalar _ => scalar .unknown
  | .array _ rank => array (List.replicate rank .unknown)
  | .tuple items => tuple (unknownOfList items)
  | .struct _ fields => tuple (unknownOfFields fields)
  | .closure func captured => closure func (unknownOfList captured)
  | .none => untracked
  | .slice _ _ _ => untracked
termination_by structural t => t

def unknownOfList : List Ty → List AbstractValue
  | [] => []
  | t :: ts => unknownOf t :: unknownOfList ts
termination_by structural ts => ts

def unknownOfFields : List (String × Ty) → List AbstractValue
  | [] => []
  | (_, t) :: ts => unknownOf t :: unknownOfFields ts
termination_by structural ts => ts
end

/-- Two dimensions agree or become unknown. -/
def joinDim (a b : SymbolicShape) : SymbolicShape :=
  if a = b then a else .unknown

mutual
/-- What is known about a value that is one of two. -/
def join : AbstractValue → AbstractValue → AbstractValue
  | scalar a, scalar b => scalar (joinDim a b)
  | array as, array bs =>
    if as.length = bs.length then array (as.zipWith joinDim bs) else untracked
  | tuple as, tuple bs => if as.length = bs.length then tuple (joinList as bs) else untracked
  | closure f as, closure g bs =>
    if f = g ∧ as.length = bs.length then closure f (joinList as bs) else untracked
  | _, _ => untracked
termination_by structural v => v

def joinList : List AbstractValue → List AbstractValue → List AbstractValue
  | a :: as, b :: bs => a.join b :: joinList as bs
  | _, _ => []
termination_by structural vs => vs
end

mutual
/-- The shape of a value. -/
def toShape : AbstractValue → SymbolicShape
  | scalar _ => .scalar
  | array dims => .tuple dims
  | tuple items => .tuple (toShapes items)
  | closure func captured => .closure func (toShapes captured)
  | untracked => .unknown
termination_by structural v => v

def toShapes : List AbstractValue → List SymbolicShape
  | [] => []
  | v :: vs => v.toShape :: toShapes vs
termination_by structural vs => vs
end

/-- The value of a scalar. -/
def value : AbstractValue → SymbolicShape
  | scalar v => v
  | _ => .unknown

def isArray : AbstractValue → Bool
  | array _ => true
  | _ => false

mutual
/-- What is known about a parameter from its description. -/
def ofParam : ParamShape → Ty → AbstractValue
  | .scalar var, _ => scalar (.var var)
  | .array var rank, _ => array ((List.range rank).map fun i => .dim (.var var) i)
  | .tuple items, .tuple types => tuple (ofParams items types)
  | _, ty => unknownOf ty
termination_by structural p => p

def ofParams : List ParamShape → List Ty → List AbstractValue
  | p :: ps, t :: ts => ofParam p t :: ofParams ps ts
  | _, _ => []
termination_by structural ps => ps
end

end AbstractValue

namespace ShapeInference

open AbstractValue

/-- Abstract values of variables. -/
abbrev AbstractEnv := NameMap AbstractValue

/-- Whether two environments bind the same names to the same abstract values. -/
def sameEnv (a b : AbstractEnv) : Bool :=
  a.names = b.names && beqList a.values b.values

/-- What is known about the variables of either environment where two paths meet. -/
def joinEnv (a b : AbstractEnv) : AbstractEnv :=
  b.entries.foldl (fun joined (name, value) =>
    match joined.find? name with
    | some known => joined.insert name (known.join value)
    | none => joined.insert name value) a

/-- The state of a walk through a function: its variables and what it has returned so far. -/
structure Frame where
  env : AbstractEnv
  returned? : Option AbstractValue

/-- Takes a returned value into account. -/
def Frame.recordReturn (f : Frame) (value : AbstractValue) : Frame :=
  { f with returned? := some (match f.returned? with
    | none => value
    | some known => known.join value) }

/-- Takes an optional returned value into account. -/
def Frame.recordReturn? (f : Frame) : Option AbstractValue → Frame
  | some value => f.recordReturn value
  | none => f

/-! ## Rules -/

/-- The arithmetic of an operator on integers. -/
def shapeOp? : Operator → Option ShapeOp
  | .add => some .add
  | .subtract => some .sub
  | .multiply => some .mul
  | .divide => some .div
  | .modulo => some .mod
  | _ => none

/-- The dimensions of operands broadcast to a rank: of the dimensions at a position from the end,
the first that is not 1. -/
def broadcastDims (args : List AbstractValue) (rank : Nat) : List SymbolicShape :=
  (List.range rank).map fun pos =>
    let back := rank - 1 - pos
    let candidates := args.filterMap fun
      | array dims => dims.reverse[back]?
      | _ => none
    (candidates.find? (· ≠ .const 1)).getD (.const 1)

/-- The stack of `len` results along an axis. -/
def stackElement (element : AbstractValue) (len : SymbolicShape) (axis : Nat) : AbstractValue :=
  match element with
  | scalar _ => array [len]
  | array dims => array (dims.insertIdx (min axis dims.length) len)
  | _ => untracked

/-- An argument's slice along an axis. -/
def sliceArg (axis : Nat) : AbstractValue → AbstractValue
  | array dims =>
    if axis < dims.length then
      let dims := dims.eraseIdx axis
      if dims.isEmpty then scalar .unknown else array dims
    else array dims
  | v => v

/-- The first known length of an axis among the arguments. -/
def axisLength (axis : Nat) (args : List AbstractValue) : SymbolicShape :=
  (args.findSome? fun
    | array dims =>
      match dims[axis]? with
      | some dim => if dim = .unknown then none else some dim
      | none => none
    | _ => none).getD .unknown

/-- The result of applying operands whose values are known to an operator on a type. -/
def operatorResult (op : Operator) (ty : Ty) (args : List AbstractValue) : AbstractValue :=
  match ty with
  | .array _ rank => array (broadcastDims args rank)
  | .scalar elt =>
    if elt.isInteger then
      match shapeOp? op, args with
      | some op, [lhs, rhs] => scalar (.fold op lhs.value rhs.value)
      | _, _ => scalar .unknown
    else unknownOf ty
  | _ => unknownOf ty

/-- A named part of a value whose own type is `base` and whose part has type `ty`. -/
def attributeResult (value : AbstractValue) (base : Ty) (name : String) (ty : Ty) : AbstractValue :=
  match value with
  | array dims =>
    if name = "shape" then tuple (dims.map scalar)
    else if name = "ndim" then scalar (.const (Int64.ofNat dims.length))
    else if name = "size" then scalar (dims.foldl (.fold .mul) (.const 1))
    else unknownOf ty
  | tuple fields =>
    match base with
    | .struct _ types =>
      match types.findIdx? (·.1 = name) with
      | some i => (fields[i]?).getD (unknownOf ty)
      | none => unknownOf ty
    | _ => unknownOf ty
  | _ => unknownOf ty

/-- An item of a tuple by a constant position, counted from the end if negative. -/
def tupleItem (items : List AbstractValue) (i : Int) (ty : Ty) : AbstractValue :=
  let i := if i < 0 then i + items.length else i
  (if i < 0 then none else items[i.toNat]?).getD (unknownOf ty)

/-- The array literal of some items. -/
def literalResult (items : List AbstractValue) : AbstractValue :=
  let inner := match items.head? with
    | some (array dims) => dims
    | _ => []
  array (.const (Int64.ofNat items.length) :: inner)

/-- A new array of a shape. -/
def allocResult (shape : AbstractValue) (ty : Ty) : AbstractValue :=
  match shape with
  | scalar len => array [len]
  | tuple dims => array (dims.map value)
  | _ => unknownOf ty

/-- An array from which some axes were dropped or sliced. -/
def selected (dims : List SymbolicShape) : AbstractValue :=
  if dims.isEmpty then scalar .unknown else array dims

/-- The constant axis of an adverb. -/
def constAxis (axis : Expr) : Except ShapeInferError Nat :=
  match axis.node with
  | .lit (.int n) => if 0 ≤ n then .ok n.toInt.toNat else .error .nonConstantAxis
  | _ => .error .nonConstantAxis

/-- Whether a slice's step is 1. -/
def isUnitStep : Option Expr → Bool
  | none => true
  | some ⟨.lit (.int n), _⟩ => n = 1
  | _ => false

/-- The value of a slice's bound, or what a bound left out stands for. A bound that counts from the
end is clamped when the code runs. -/
def sliceBound (missing : SymbolicShape) (bound : Expr)
    (inferred : Except ShapeInferError AbstractValue) : Except ShapeInferError SymbolicShape :=
  match bound.node with
  | .lit .none => .ok missing
  | .lit (.int n) => if n < 0 then .ok .unknown else inferred.map value
  | _ => inferred.map value

/-- The type of a node of specialized code. -/
def nodeTy (ty? : Option Ty) : Except ShapeInferError Ty :=
  match ty? with
  | some ty => .ok ty
  | none => .error .untyped

/-! ## Expressions -/

/-- The abstract result of calling a named function. -/
abbrev Call := String → List AbstractValue → Except ShapeInferError AbstractValue

/-- Calls an abstract closure. -/
def invoke (call : Call) (callee : AbstractValue) (args : List AbstractValue) :
    Except ShapeInferError AbstractValue :=
  match callee with
  | .closure func fixed => call func (fixed ++ args)
  | _ => .error (.notCallable .none)

section Expressions
variable (call : Call) (env : AbstractEnv)

mutual
/-- The abstract value of an expression. -/
def inferExpr : Expr → Except ShapeInferError AbstractValue
  | ⟨.lit value, ty?⟩ => do
    let _ ← nodeTy ty?
    match value with
    | .int n => return scalar (.const n)
    | .none => return untracked
    | _ => return scalar .unknown
  | ⟨.var name, ty?⟩ => do
    let ty ← nodeTy ty?
    return (env.find? name).getD (unknownOf ty)
  | ⟨.tuple items, ty?⟩ => do
    let _ ← nodeTy ty?
    return tuple (← inferExprs items)
  | ⟨.proj base i, ty?⟩ => do
    let ty ← nodeTy ty?
    match ← inferExpr base with
    | tuple items => return (items[i]?).getD (unknownOf ty)
    | _ => return unknownOf ty
  | ⟨.array items, ty?⟩ => do
    let _ ← nodeTy ty?
    return literalResult (← inferExprs items)
  | ⟨.index base index, ty?⟩ => do
    let ty ← nodeTy ty?
    match ← inferExpr base with
    | array dims =>
      match index with
      | ⟨.tuple items, _⟩ =>
        return selected ((← sliceExtents dims items) ++ dims.drop items.length)
      | item => return selected ((← sliceExtent dims.head? item) ++ dims.drop 1)
    | tuple items =>
      match index.node with
      | .lit (.int n) => return tupleItem items n.toInt ty
      | _ => return unknownOf ty
    | _ => return unknownOf ty
  | ⟨.slice _ _ _, ty?⟩ => do
    let _ ← nodeTy ty?
    return untracked
  | ⟨.attr base name, ty?⟩ => do
    let ty ← nodeTy ty?
    let value ← inferExpr base
    match value with
    | tuple _ => return attributeResult value (← nodeTy base.ty?) name ty
    | _ => return attributeResult value .none name ty
  | ⟨.op op args, ty?⟩ => do
    let ty ← nodeTy ty?
    return operatorResult op ty (← inferExprs args)
  | ⟨.opValue _, ty?⟩ => do
    let _ ← nodeTy ty?
    return untracked
  | ⟨.lambda _, ty?⟩ => do
    let _ ← nodeTy ty?
    return untracked
  | ⟨.call func args, ty?⟩ => do
    let _ ← nodeTy ty?
    call func (← inferExprs args)
  | ⟨.invoke callee args, ty?⟩ => do
    let _ ← nodeTy ty?
    let callee ← inferExpr callee
    invoke call callee (← inferExprs args)
  | ⟨.closure func captured, ty?⟩ => do
    let _ ← nodeTy ty?
    return .closure func (← inferExprs captured)
  | ⟨.captured base i, ty?⟩ => do
    let ty ← nodeTy ty?
    match ← inferExpr base with
    | .closure _ captured => return (captured[i]?).getD (unknownOf ty)
    | _ => return unknownOf ty
  | ⟨.cast value _, ty?⟩ => do
    let ty ← nodeTy ty?
    match ← inferExpr value with
    | scalar v => return scalar (if (ty.elt?.any ElemType.isInteger) then v else .unknown)
    | v => return v
  | ⟨.struct _ fields, ty?⟩ => do
    let _ ← nodeTy ty?
    return tuple (← inferFields fields)
  | ⟨.alloc _ shape, ty?⟩ => do
    let ty ← nodeTy ty?
    return allocResult (← inferExpr shape) ty
  | ⟨.map func args axis, ty?⟩ => do
    let _ ← nodeTy ty?
    let axis ← constAxis axis
    let func ← inferExpr func
    let args ← inferExprs args
    let element ← invoke call func (args.map (sliceArg axis))
    return if args.any isArray then stackElement element (axisLength axis args) axis else element
  | ⟨.allPairs func args axis, ty?⟩ => do
    let ty ← nodeTy ty?
    let axis ← constAxis axis
    let func ← inferExpr func
    match ← inferExprs args with
    | [x, y] =>
      let nx := axisLength axis [x]
      let ny := axisLength axis [y]
      match ← invoke call func [sliceArg axis x, sliceArg axis y] with
      | scalar _ => return array [nx, ny]
      | array dims => return array (nx :: ny :: dims)
      | _ => return unknownOf ty
    | _ => return unknownOf ty
  | ⟨.reduce func combine start args axis, ty?⟩ => do
    let _ ← nodeTy ty?
    let axis ← constAxis axis
    let func ← inferExpr func
    let combine ← inferExpr combine
    let args ← inferExprs args
    let element ← invoke call func (args.map (sliceArg axis))
    let acc := (← inferOption start).getD element
    return acc.join (← invoke call combine [acc, element])
  | ⟨.scan func combine emit start args axis, ty?⟩ => do
    let _ ← nodeTy ty?
    let axis ← constAxis axis
    let func ← inferExpr func
    let combine ← inferExpr combine
    let emit ← inferExpr emit
    let args ← inferExprs args
    let element ← invoke call func (args.map (sliceArg axis))
    let acc := (← inferOption start).getD element
    let combined ← invoke call combine [acc, element]
    let emitted ← invoke call emit [acc.join combined]
    return if args.any isArray then stackElement emitted (axisLength axis args) axis else emitted
termination_by structural e => e

/-- The abstract values of several expressions, from left to right. -/
def inferExprs : List Expr → Except ShapeInferError (List AbstractValue)
  | [] => return []
  | e :: es => do
    let value ← inferExpr e
    return value :: (← inferExprs es)
termination_by structural es => es

/-- The abstract value of an optional expression. -/
def inferOption : Option Expr → Except ShapeInferError (Option AbstractValue)
  | none => return none
  | some e => return some (← inferExpr e)
termination_by structural e => e

/-- The abstract values of the fields of a struct. -/
def inferFields : List (String × Expr) → Except ShapeInferError (List AbstractValue)
  | [] => return []
  | (_, e) :: rest => do
    let value ← inferExpr e
    return value :: (← inferFields rest)
termination_by structural es => es

/-- The dimension that one item of an index keeps, if it keeps one. The extent of a slice is known
for a unit step and bounds that do not count from the end. -/
def sliceExtent (dim? : Option SymbolicShape) : Expr → Except ShapeInferError (List SymbolicShape)
  | ⟨.slice start stop step, ty?⟩ => do
    match ← nodeTy ty? with
    | .slice _ _ _ =>
      if isUnitStep step then
        let low ← sliceBound (.const 0) start (inferExpr start)
        let high ← sliceBound (dim?.getD .unknown) stop (inferExpr stop)
        return [.fold .sub high low]
      else return [.unknown]
    | _ => return []
  | ⟨_, ty?⟩ => do
    match ← nodeTy ty? with
    | .slice _ _ _ => return [.unknown]
    | _ => return []
termination_by structural e => e

/-- The dimensions that the items of an index keep, each on its own axis. -/
def sliceExtents : List SymbolicShape → List Expr → Except ShapeInferError (List SymbolicShape)
  | _, [] => return []
  | dims, e :: es => do
    let kept ← sliceExtent dims.head? e
    return kept ++ (← sliceExtents dims.tail es)
termination_by structural _ es => es
end

end Expressions

/-! ## Statements -/

/-- How many passes over a loop are made before its shapes are given up on. -/
def loopPasses : Nat := 8

mutual
/-- Binds a target to an abstract value. Writes into an array never change its shape. -/
def bindTarget : Expr → AbstractValue → AbstractEnv → Except ShapeInferError AbstractEnv
  | ⟨.var name, _⟩, value, env => .ok (env.insert name value)
  | ⟨.tuple targets, _⟩, .tuple items, env => bindTargets targets items env
  | ⟨.tuple targets, _⟩, _, env => bindTargets targets [] env
  | _, _, env => .ok env
termination_by structural target => target

/-- Binds targets to the items of a tuple, and to unknown values where there are no more items. -/
def bindTargets :
    List Expr → List AbstractValue → AbstractEnv → Except ShapeInferError AbstractEnv
  | [], _, env => .ok env
  | target :: targets, value :: values, env => do
    let env ← bindTarget target value env
    bindTargets targets values env
  | target :: targets, [], env => do
    let env ← bindTarget target (unknownOf (← nodeTy target.ty?)) env
    bindTargets targets [] env
termination_by structural targets => targets
end

section Statements
variable (call : Call) (func : String)

/-- Runs passes over a loop until one changes no variable. Each pass joins what it finds into the
state before it. -/
def settleLoop (pass : Frame → Except ShapeInferError Frame) :
    Nat → Frame → Except ShapeInferError Frame
  | 0, _ => .error (.dataDependent func)
  | passes + 1, frame => do
    let after ← pass frame
    let joined := joinEnv frame.env after.env
    let next := frame.recordReturn? after.returned?
    if sameEnv joined frame.env then return next
    else settleLoop pass passes { next with env := joined }

/-- Binds reconciled variables to one of their sides, in order. -/
def bindSides (side : Phi → Expr) (merge : List Phi) (env : AbstractEnv) :
    Except ShapeInferError AbstractEnv :=
  merge.foldlM (fun env phi => do
    return env.insert phi.name (← inferExpr call env (side phi))) env

mutual
/-- The state after a statement. -/
def inferStmt : Stmt → Frame → Except ShapeInferError Frame
  | .assign target value, frame => do
    let value ← inferExpr call frame.env value
    return { frame with env := ← bindTarget target value frame.env }
  | .ret value, frame => do
    return frame.recordReturn (← inferExpr call frame.env value)
  | .branch _ onTrue onFalse merge, frame => do
    let whenTrue ← inferBlock onTrue frame
    let whenFalse ← inferBlock onFalse frame
    let merged ← merge.mapM fun phi => do
      let left ← inferExpr call whenTrue.env phi.left
      let right ← inferExpr call whenFalse.env phi.right
      return (phi.name, left.join right)
    let env := (joinEnv whenTrue.env whenFalse.env).insertAll merged
    return (({ frame with env }).recordReturn? whenTrue.returned?).recordReturn?
      whenFalse.returned?
  | .loop _ body merge, frame => do
    let env ← bindSides call Phi.left merge frame.env
    settleLoop func (fun frame => do
      let after ← inferBlock body frame
      return { after with env := ← bindSides call Phi.right merge after.env })
      loopPasses { frame with env }
termination_by structural s => s

/-- The state after several statements. -/
def inferBlock : List Stmt → Frame → Except ShapeInferError Frame
  | [], frame => .ok frame
  | s :: ss, frame => do
    let frame ← inferStmt s frame
    inferBlock ss frame
termination_by structural ss => ss
end

end Statements

/-! ## Calls -/

/-- The abstract result of a function, given the functions whose bodies are being walked. Those are
all different, so `depth` of them beyond the session's functions cannot be active without a
recursion. -/
def inferFn (session : Session) :
    Nat → List String → TypedFn → List AbstractValue → Except ShapeInferError AbstractValue
  | 0, _, func, _ => .error (.recursive func.name)
  | depth + 1, active, func, args => do
    if active.contains func.name then throw (.recursive func.name)
    let call : Call := fun name args =>
      match session.typed.find? name with
      | some callee => inferFn session depth (func.name :: active) callee args
      | none => .error (.unknownFunction name)
    let frame ← inferBlock call func.name func.body
      ⟨.ofList (func.argNames.zip args), none⟩
    return frame.returned?.getD untracked

end ShapeInference

open ShapeInference in
/-- The shape of a function's result in terms of the shape variables of its parameters. -/
def resultShape (session : Session) (func : TypedFn) : Except ShapeInferError SymbolicShape := do
  let args := AbstractValue.ofParams (ParamShape.layout func.inputTypes) func.inputTypes
  let result ← inferFn session (session.typed.entries.length + 1) [] func args
  let shape := result.toShape
  if shape.hasUnknown then throw (.dataDependent func.name)
  return shape

end ArrayLang
