import ArrayLang.Dataflow.Facts
import ArrayLang.Session

/-!
# Copy elimination

Removes writes that nothing can observe, and builds a new value that is only copied into a part of
an array in that part at once. Steps are made until none applies; each removes a statement.
-/

namespace ArrayLang

/-- A step of copy elimination, by the paths of the statements it concerns. -/
inductive CopyStep where
  /-- The write `dest[i] = src` is removed. -/
  | dropWrite (copy : Path)
  /-- `src = e; …; dest[i] = src` becomes `dest[i] = e; …`. -/
  | retarget (alloc copy : Path)
  /-- `src = alloc(…); src[:] = e; …; dest[i] = src` becomes `src = dest[i]; src[:] = e; …`. -/
  | viewSlot (alloc copy : Path)
deriving DecidableEq

namespace CopyElimination

/-- Whether evaluating a node runs no code that could write to its arguments. -/
def isPureNode : Node → Bool
  | .call _ _ => false
  | .invoke _ _ => false
  | .map _ _ _ => false
  | .allPairs _ _ _ => false
  | .reduce _ _ _ _ _ => false
  | .scan _ _ _ _ _ _ => false
  | _ => true

/-- Whether evaluating an expression can only read storage. -/
def isPure (e : Expr) : Bool :=
  e.subexprs.all fun sub => isPureNode sub.node

/-- The writes to parts of arrays, in program order. -/
def copies (f : TypedFn) : List (Path × Expr × Expr) :=
  f.body.assignments.filter fun (_, target, _) =>
    match target.node with
    | .index _ _ => true
    | _ => false

/-- Whether a variable is declared to hold an array. -/
def isArrayVar (f : TypedFn) (name : String) : Bool :=
  (f.typeEnv.find? name).any Ty.isArray

/-- Whether a write to a part of `dest` can never be observed: the variable is never read, shares its
storage with no other array variable and does not escape, and evaluating the write has no effect. -/
def isDeadWrite (f : TypedFn) (facts : DataflowFacts) (dest : String) (target value : Expr) :
    Bool :=
  (facts.useDef.reads dest).isEmpty
    && !facts.aliases.escapes dest
    && ((facts.aliases.of dest).filter (isArrayVar f)).length ≤ 1
    && isPure target
    && isPure value

def isNone (e : Expr) : Bool :=
  match e.node with
  | .lit .none => true
  | _ => false

/-- Whether a slice's step is left out or 1. -/
def isUnitStep (e : Expr) : Bool :=
  match e.node with
  | .lit .none => true
  | .lit (.int n) => n = 1
  | _ => false

/-- Whether an index selects a whole axis in order. -/
def isFullSlice (index : Expr) : Bool :=
  match index.node with
  | .slice start stop step => isNone start && isNone stop && step.all isUnitStep
  | _ => false

/-- Whether the statement right after an allocation overwrites all of `src` without reading it. A raw
allocation starts out as zeros, so a part of another array can stand in for it only if nothing sees
its first content. -/
def fillsWhole (f : TypedFn) (alloc : Path) (src : String) : Bool :=
  match alloc.getLast? with
  | none => false
  | some i =>
    match f.body.stmtAt? (alloc.dropLast ++ [i + 1]) with
    | some (.assign ⟨.index base index, _⟩ value) =>
      let rank := ((f.typeEnv.find? src).map Ty.rank).getD 0
      let covers := match index.node with
        | .tuple items => items.length = rank && items.all isFullSlice
        | _ => rank = 1 && isFullSlice index
      base.var? = some src && covers && !value.mentions src
    | _ => false

/-- The step that builds a copied value in the place it is copied to, if there is one. The value is
made by a statement of the same block and used for nothing but the copy, the destination and the
indices already have the values they have at the copy, and nothing touches the destination in
between. -/
def fusion? (f : TypedFn) (facts : DataflowFacts) (dest : String) (indices : List Expr)
    (target value : Expr) (copy : Path) : Option CopyStep := do
  let u := facts.useDef
  if !isArrayVar f dest then none
  let src ← value.var?
  let alloc ← facts.allocations.find? src
  if !(alloc.path.sameBlockBefore copy && target.ty? = value.ty?) then none
  let private_ := !facts.aliases.escapes src && (facts.aliases.of src).length = 1
    && u.reads src = [copy] && u.lastUse? src = some copy
  if !private_ then none
  let inputs := dest :: indices.flatMap Expr.vars
  let ready := inputs.all fun name => (u.createdBefore? name copy).any (· < alloc.path)
  let untouched := (facts.aliases.of dest).all fun name => !u.touchedBetween name alloc.path copy
  if !(ready && untouched) then none
  if (u.writes src).isEmpty then some (.retarget alloc.path copy)
  else if alloc.kind = .raw && fillsWhole f alloc.path src then some (.viewSlot alloc.path copy)
  else none

/-- The first step that applies. -/
def findStep? (f : TypedFn) (facts : DataflowFacts) : Option CopyStep :=
  (copies f).findSome? fun (copy, target, value) =>
    match target.indexTarget? with
    | none => none
    | some (dest, indices) =>
      if isDeadWrite f facts dest target value then some (.dropWrite copy)
      else fusion? f facts dest indices target value copy

/-- The block without the statement at a path, and that statement. -/
def removeAt? (body : Block) (path : Path) : Option (Stmt × Block) := do
  let s ← body.stmtAt? path
  let body ← body.modifyAt? (fun i block => some (block.eraseIdx i)) path
  return (s, body)

/-- The block with a change to the assignment at a path. -/
def changeAssign? (body : Block) (path : Path) (change : Expr → Expr → Expr × Expr) :
    Option Block :=
  body.modifyAt? (fun i block =>
    match block[i]? with
    | some (.assign target value) =>
      let (target, value) := change target value
      some (block.set i (.assign target value))
    | _ => none) path

/-- Makes a step, if its paths lead to assignments. -/
def applyStep? (f : TypedFn) : CopyStep → Option TypedFn
  | .dropWrite copy => do
    let (_, body) ← removeAt? f.body copy
    return { f with body }
  | .retarget alloc copy => do
    let (.assign slot _, body) ← removeAt? f.body copy | none
    let .assign src _ ← body.stmtAt? alloc | none
    let typeEnv := match src.var? with
      | some name => f.typeEnv.erase name
      | none => f.typeEnv
    let body ← changeAssign? body alloc fun _ value => (slot, value)
    return { f with body, typeEnv }
  | .viewSlot alloc copy => do
    let (.assign slot _, body) ← removeAt? f.body copy | none
    let body ← changeAssign? body alloc fun target _ => (target, slot)
    return { f with body }

/-- The first step that applies to a function, made. -/
def step? (f : TypedFn) : Option TypedFn := do
  applyStep? f (← findStep? f (DataflowFacts.compute f))

/-- Makes steps while one applies, at most the given number. -/
def makeSteps : Nat → TypedFn → TypedFn
  | 0, f => f
  | steps + 1, f =>
    match step? f with
    | some g => makeSteps steps g
    | none => f

end CopyElimination

open CopyElimination in
/-- Eliminates copies until none is left. A function all of whose variables are scalars has none, and
no more steps can be made than there are statements. -/
def TypedFn.eliminateCopies (f : TypedFn) : TypedFn :=
  if f.allScalar then f else makeSteps (Stmt.countAll f.body) f

/-- Eliminates copies in every specialized function of a session. -/
def Session.eliminateCopies (s : Session) : Session :=
  s.typed.values.foldl (fun s f =>
    let g := f.eliminateCopies
    if f.same g then s else s.insertTyped g) s

end ArrayLang
