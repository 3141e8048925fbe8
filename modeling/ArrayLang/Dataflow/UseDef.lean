import ArrayLang.Dataflow.Path
import ArrayLang.Syntax.Traversal

/-!
# Uses and definitions

Where a specialized function reads variables, writes through them, and defines them. Accesses are
listed in program order.
-/

namespace ArrayLang

inductive AccessKind where
  | read
  /-- An assignment to a part of the variable's value. -/
  | write
  | define
deriving DecidableEq

/-- One access to a variable. -/
structure Access where
  kind : AccessKind
  name : String
  path : Path

namespace Access

/-- The reads of an expression, one for each variable. -/
def ofExpr (path : Path) (e : Expr) : List Access :=
  e.vars.map fun name => ⟨.read, name, path⟩

mutual
/-- The accesses of an assignment's target. -/
def ofTarget (path : Path) : Expr → List Access
  | ⟨.var name, _⟩ => [⟨.define, name, path⟩]
  | ⟨.tuple items, _⟩ => ofTargets path items
  | e =>
    match e.indexTarget? with
    | some (root, indices) => ⟨.write, root, path⟩ :: indices.flatMap (ofExpr path)
    | none => ofExpr path e
termination_by structural e => e

def ofTargets (path : Path) : List Expr → List Access
  | [] => []
  | e :: es => ofTarget path e ++ ofTargets path es
termination_by structural es => es
end

/-- The accesses of reconciled variables on one side. -/
def ofSide (path : Path) (side : Phi → Expr) (merge : List Phi) : List Access :=
  merge.flatMap fun phi => ofExpr path (side phi) ++ [⟨.define, phi.name, path⟩]

mutual
/-- The accesses of a statement at a path. A conditional's merge counts as one point for both of
its sides. -/
def ofStmt (path : Path) : Stmt → List Access
  | .assign target value => ofExpr path value ++ ofTarget path target
  | .ret value => ofExpr path value
  | .branch cond onTrue onFalse merge =>
    ofExpr (path ++ [0]) cond ++ ofBlock (path ++ [1]) 0 onTrue ++ ofBlock (path ++ [2]) 0 onFalse
      ++ ofSide (path ++ [3]) Phi.left merge
      ++ merge.flatMap fun phi => ofExpr (path ++ [3]) phi.right
  | .loop cond body merge =>
    ofSide (path ++ [0]) Phi.left merge ++ ofExpr (path ++ [1]) cond
      ++ ofBlock (path ++ [2]) 0 body ++ ofSide (path ++ [3]) Phi.right merge
termination_by structural s => s

/-- The accesses of the statements of a block from index `i` on. -/
def ofBlock (path : Path) (i : Nat) : List Stmt → List Access
  | [] => []
  | s :: ss => ofStmt (path ++ [i]) s ++ ofBlock path (i + 1) ss
termination_by structural ss => ss
end

end Access

/-- All accesses of a function, in program order. -/
structure UseDef where
  accesses : List Access

namespace UseDef

/-- The accesses of a function. Its parameters are defined at the empty path. -/
def compute (f : TypedFn) : UseDef where
  accesses := f.argNames.map (⟨.define, ·, []⟩) ++ Access.ofBlock [] 0 f.body

/-- Whether there is any access to a variable. -/
def known (u : UseDef) (name : String) : Bool :=
  u.accesses.any (·.name = name)

/-- The points of the accesses of one kind to a variable. -/
def points (u : UseDef) (kind : AccessKind) (name : String) : List Path :=
  (u.accesses.filter fun a => a.kind = kind && a.name = name).map (·.path)

def reads (u : UseDef) (name : String) : List Path :=
  u.points .read name

def writes (u : UseDef) (name : String) : List Path :=
  u.points .write name

def defs (u : UseDef) (name : String) : List Path :=
  u.points .define name

/-- The earliest read or write. -/
def firstUse? (u : UseDef) (name : String) : Option Path :=
  match (u.reads name).head?, (u.writes name).head? with
  | some r, some w => some (if w < r then w else r)
  | r, w => r.or w

/-- The latest read or write. -/
def lastUse? (u : UseDef) (name : String) : Option Path :=
  match (u.reads name).getLast?, (u.writes name).getLast? with
  | some r, some w => some (if w < r then r else w)
  | r, w => r.or w

/-- The latest definition before a point, which made the value that is visible there when control
flows straight through. -/
def createdBefore? (u : UseDef) (name : String) (point : Path) : Option Path :=
  (u.defs name).reverse.find? (· < point)

/-- Whether a variable is accessed strictly between two points. -/
def touchedBetween (u : UseDef) (name : String) (start stop : Path) : Bool :=
  u.accesses.any fun a => a.name = name && a.path.between start stop

end UseDef
end ArrayLang
