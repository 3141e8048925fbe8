import ArrayLang.Operator.Signature
import ArrayLang.Syntax.Traversal

/-!
# Checking specialized code

Specialized code is well typed when every node carries a type, and every assignment, return,
reconciled variable and condition has exactly the type that its context requires. A violation is a
fault of whatever made the code.
-/

namespace ArrayLang

/-- How a specialized function is ill-typed. -/
inductive Violation where
  | untypedNode
  | undeclaredVariable (name : String)
  | variableType (name : String)
  | badOperands (op : String)
  | unconvertedOperands (op : String)
  | resultType (op : String)
  | operatorValue (op : String)
  | lambda (name : String)
  | literalElement
  | slotType (slot value : Ty)
  | untypedTarget
  | tupleTarget
  | badTarget
  | undeclaredMerge (name : String)
  | mergeType (name : String)
  | assignType
  | returnType
  | condType
  | paramCount
  | paramType (name : String)
deriving DecidableEq

namespace Violation

/-- The text of a violation in a function. -/
def message (func : String) : Violation → String
  | untypedNode => func ++ ": untyped expression"
  | undeclaredVariable name => func ++ ": variable '" ++ name ++ "' has no declared type"
  | variableType name => func ++ ": variable '" ++ name ++ "' used at the wrong type"
  | badOperands op => func ++ ": " ++ op ++ " applied to invalid arguments"
  | unconvertedOperands op => func ++ ": uncoerced arguments to " ++ op
  | resultType op => func ++ ": wrong result type for " ++ op
  | operatorValue op => func ++ ": first-class primitive " ++ op ++ " in typed code"
  | lambda name => func ++ ": function literal " ++ name ++ " in typed code"
  | literalElement => func ++ ": uncoerced array literal element"
  | slotType slot value =>
    func ++ ": cannot write " ++ value.text ++ " into a slot of type " ++ slot.text
  | untypedTarget => "expression has no type in typed IR:"
  | tupleTarget => func ++ ": tuple target typed inconsistently"
  | badTarget => func ++ ": invalid assignment target"
  | undeclaredMerge name => func ++ ": merged variable '" ++ name ++ "' is undeclared"
  | mergeType name => func ++ ": merge of '" ++ name ++ "'"
  | assignType => func ++ ": assignment of mismatched type"
  | returnType => func ++ ": return of mismatched type"
  | condType => func ++ ": non-boolean condition"
  | paramCount => func ++ ": parameter list and signature disagree"
  | paramType name => func ++ ": parameter '" ++ name ++ "' declared at the wrong type"

end Violation

namespace Check

/-- Refuses code unless a condition holds. -/
def require (violation : Violation) (p : Prop) [Decidable p] : Except Violation Unit :=
  if p then .ok () else .error violation

/-- The types of children that have been checked. -/
def typesOf (es : List Expr) : List Ty :=
  es.filterMap (·.ty?)

/-- Checks a node of type `ty` whose children have been checked. -/
def checkNode (env : TypeEnv) (node : Node) (ty : Ty) : Except Violation Unit :=
  match node with
  | .var name =>
    match env.find? name with
    | none => .error (.undeclaredVariable name)
    | some declared => require (.variableType name) (declared = ty)
  | .op op args =>
    match op.expectedTypes? (typesOf args) with
    | none => .error (.badOperands op.name)
    | some expected => do
      require (.unconvertedOperands op.name) (expected = typesOf args)
      require (.resultType op.name) (op.resultType expected = ty)
  | .opValue op => .error (.operatorValue op.name)
  | .lambda decl => .error (.lambda decl.name)
  | .array items =>
    match ty with
    | .array elt 1 => require .literalElement (∀ t ∈ typesOf items, t = .scalar elt)
    | _ => .ok ()
  | _ => .ok ()

/-- Checks an expression. -/
def checkExpr (env : TypeEnv) (e : Expr) : Except Violation Unit := do
  match e.ty? with
  | none => throw .untypedNode
  | some ty =>
    e.children.attach.forM fun c => checkExpr env c.1
    checkNode env e.node ty
termination_by sizeOf e
decreasing_by exact Expr.sizeOf_lt_of_mem_children c.2

/-- Whether a value of a type can be written to a part of an array of type `slot`. -/
def fitsSlot (slot value : Ty) : Bool :=
  slot = value || match slot, value with
    | .array elt _, .scalar found => elt = found
    | .array elt rank, .array found foundRank => elt = found && foundRank ≤ rank
    | _, _ => false

mutual
/-- Checks the target of an assignment. -/
def checkTarget (env : TypeEnv) : Expr → Except Violation Unit
  | ⟨.var name, ty?⟩ => checkExpr env ⟨.var name, ty?⟩
  | ⟨.index base index, ty?⟩ => checkExpr env ⟨.index base index, ty?⟩
  | ⟨.tuple items, ty?⟩ => do
    checkTargets env items
    if items.any (·.ty?.isNone) || ty?.isNone then throw .untypedTarget
    require .tupleTarget (ty? = some (.tuple (typesOf items)))
  | _ => .error .badTarget
termination_by structural e => e

def checkTargets (env : TypeEnv) : List Expr → Except Violation Unit
  | [] => .ok ()
  | e :: es => do
    checkTarget env e
    checkTargets env es
termination_by structural es => es
end

/-- Checks a reconciled variable. -/
def checkPhi (env : TypeEnv) (phi : Phi) : Except Violation Unit :=
  match env.find? phi.name with
  | none => .error (.undeclaredMerge phi.name)
  | some declared => do
    checkExpr env phi.left
    checkExpr env phi.right
    require (.mergeType phi.name) (phi.left.ty? = some declared)
    require (.mergeType phi.name) (phi.right.ty? = some declared)

/-- Checks an assignment whose sides have been checked. -/
def checkAssign (target value : Expr) : Except Violation Unit :=
  match target.node, target.ty?, value.ty? with
  | .index _ _, some slot, some ty => require (.slotType slot ty) (fitsSlot slot ty = true)
  | _, _, _ => require .assignType (target.ty? = value.ty?)

mutual
/-- Checks a statement of a function that returns values of type `result`. -/
def checkStmt (env : TypeEnv) (result : Ty) : Stmt → Except Violation Unit
  | .assign target value => do
    checkTarget env target
    checkExpr env value
    checkAssign target value
  | .ret value => do
    checkExpr env value
    require .returnType (value.ty? = some result)
  | .branch cond onTrue onFalse merge => do
    checkExpr env cond
    require .condType (cond.ty? = some .bool)
    checkBlock env result onTrue
    checkBlock env result onFalse
    merge.forM (checkPhi env)
  | .loop cond body merge => do
    checkExpr env cond
    require .condType (cond.ty? = some .bool)
    checkBlock env result body
    merge.forM (checkPhi env)
termination_by structural s => s

def checkBlock (env : TypeEnv) (result : Ty) : List Stmt → Except Violation Unit
  | [] => .ok ()
  | s :: ss => do
    checkStmt env result s
    checkBlock env result ss
termination_by structural ss => ss
end

end Check

open Check in
/-- Checks a specialized function. -/
def TypedFn.check (f : TypedFn) : Except Violation Unit := do
  require .paramCount (f.argNames.length = f.inputTypes.length)
  f.params.forM fun (name, ty) => require (.paramType name) (f.typeEnv.find? name = some ty)
  checkBlock f.typeEnv f.returnType f.body

end ArrayLang
