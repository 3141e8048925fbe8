import ArrayLang.Syntax.Basic

/-!
# Program points

A program point is a path of indices through nested blocks. Paths compare lexicographically, which
is program order. Within a conditional at `k`, the condition is `[k, 0]`, the branches are `[k, 1, …]`
and `[k, 2, …]`, and the merge is `[k, 3]`. Within a loop, entering it is `[k, 0]`, the condition
`[k, 1]`, the body `[k, 2, …]`, and going round it `[k, 3]`. Parameters are defined at the empty path.
-/

namespace ArrayLang

abbrev Path := List Nat

namespace Path

/-- Whether a path lies strictly between two others, after `start` and before `stop`. -/
def between (path start stop : Path) : Bool :=
  start < path && path < stop

/-- Whether two paths lead into one block, the first to an earlier statement. -/
def sameBlockBefore (earlier later : Path) : Bool :=
  match earlier.getLast?, later.getLast? with
  | some i, some j => earlier.dropLast = later.dropLast && i < j
  | _, _ => false

end Path

/-- The nested block of a statement with the given number. -/
def Stmt.part? : Stmt → Nat → Option Block
  | .branch _ onTrue _ _, 1 => some onTrue
  | .branch _ _ onFalse _, 2 => some onFalse
  | .loop _ body _, 2 => some body
  | _, _ => none

/-- The statement with its nested block of the given number replaced. -/
def Stmt.setPart : Stmt → Nat → Block → Stmt
  | .branch cond _ onFalse merge, 1, block => .branch cond block onFalse merge
  | .branch cond onTrue _ merge, 2, block => .branch cond onTrue block merge
  | .loop cond _ merge, 2, block => .loop cond block merge
  | s, _, _ => s

namespace Block

/-- The block that a path leads into. -/
def blockAt? (block : Block) : Path → Option Block
  | [] => none
  | [_] => some block
  | k :: part :: rest => do
    let s ← block[k]?
    let inner ← s.part? part
    blockAt? inner rest

/-- The statement that a path leads to. -/
def stmtAt? (block : Block) : Path → Option Stmt
  | [] => none
  | [k] => block[k]?
  | k :: part :: rest => do
    let s ← block[k]?
    let inner ← s.part? part
    stmtAt? inner rest

/-- Applies a change to the block that a path leads into, given the path's last index. -/
def modifyAt? (f : Nat → Block → Option Block) (block : Block) : Path → Option Block
  | [] => none
  | [k] => f k block
  | k :: part :: rest => do
    let s ← block[k]?
    let inner ← s.part? part
    let inner ← modifyAt? f inner rest
    return block.set k (s.setPart part inner)

end Block

mutual
/-- Number of statements in a statement, itself included. -/
def Stmt.count : Stmt → Nat
  | .assign _ _ => 1
  | .ret _ => 1
  | .branch _ onTrue onFalse _ => Stmt.countAll onTrue + Stmt.countAll onFalse + 1
  | .loop _ body _ => Stmt.countAll body + 1
termination_by structural s => s

/-- Number of statements in a block, at any depth. -/
def Stmt.countAll : List Stmt → Nat
  | [] => 0
  | s :: ss => s.count + Stmt.countAll ss
termination_by structural ss => ss
end

mutual
/-- The assignments of a statement at a path, in program order. -/
def Stmt.assignments (path : Path) : Stmt → List (Path × Expr × Expr)
  | .assign target value => [(path, target, value)]
  | .ret _ => []
  | .branch _ onTrue onFalse _ =>
    Stmt.assignmentsFrom (path ++ [1]) 0 onTrue ++ Stmt.assignmentsFrom (path ++ [2]) 0 onFalse
  | .loop _ body _ => Stmt.assignmentsFrom (path ++ [2]) 0 body
termination_by structural s => s

/-- The assignments of the statements of a block from index `i` on, at any depth, in program
order. -/
def Stmt.assignmentsFrom (path : Path) (i : Nat) : List Stmt → List (Path × Expr × Expr)
  | [] => []
  | s :: ss => s.assignments (path ++ [i]) ++ Stmt.assignmentsFrom path (i + 1) ss
termination_by structural ss => ss
end

/-- The assignments of a block, at any depth, in program order. -/
def Block.assignments (block : Block) : List (Path × Expr × Expr) :=
  Stmt.assignmentsFrom [] 0 block

end ArrayLang
