import ArrayLang.Dataflow.UnionFind
import ArrayLang.Syntax.Traversal

/-!
# Aliases

Which variables of a specialized function may share storage, and which storage may be seen outside
the function. Binding a variable to a value unites its tree with those of the variables whose storage
the value may share. The trees that the whole body leaves are then read back as classes.
-/

namespace ArrayLang

mutual
/-- The variables whose storage a value may share. Selections, aggregates and the results of calls
share that of their operands. What adverbs, operators, conversions, literals and allocations make is
new, and scalars share nothing. -/
def Expr.aliasRoots : Expr → List String
  | ⟨node, ty?⟩ =>
    match ty? with
    | some (.scalar _) => []
    | some .none => []
    | _ => node.aliasRoots
termination_by structural e => e

def Node.aliasRoots : Node → List String
  | .var name => [name]
  | .index base _ => base.aliasRoots
  | .proj base _ => base.aliasRoots
  | .attr base _ => base.aliasRoots
  | .captured base _ => base.aliasRoots
  | .tuple items => Expr.aliasRootsList items
  | .closure _ items => Expr.aliasRootsList items
  | .call _ items => Expr.aliasRootsList items
  | .struct _ fields => Expr.aliasRootsFields fields
  | .invoke callee args => callee.aliasRoots ++ Expr.aliasRootsList args
  | _ => []
termination_by structural n => n

def Expr.aliasRootsList : List Expr → List String
  | [] => []
  | e :: es => e.aliasRoots ++ Expr.aliasRootsList es
termination_by structural es => es

def Expr.aliasRootsFields : List (String × Expr) → List String
  | [] => []
  | (_, e) :: es => e.aliasRoots ++ Expr.aliasRootsFields es
termination_by structural es => es
end

mutual
/-- The variables that a target binds as a whole. -/
def Expr.targetVars : Expr → List String
  | ⟨.var name, _⟩ => [name]
  | ⟨.tuple items, _⟩ => Expr.targetVarsList items
  | _ => []
termination_by structural e => e

def Expr.targetVarsList : List Expr → List String
  | [] => []
  | e :: es => e.targetVars ++ Expr.targetVarsList es
termination_by structural es => es
end

namespace Alias

/-! ## The walk over the body -/

/-- The trees that the statements so far have united, and the variables that these make visible
outside. -/
structure Builder where
  forest : UnionFind
  roots : NameSet

/-- Unites a variable with the alias roots of the value that it is bound to. -/
def Builder.bind (b : Builder) (name : String) (value : Expr) : Builder :=
  let forest := (b.forest.find name).2
  { b with forest := (NameMap.sortNames value.aliasRoots).foldl (·.union name ·) forest }

/-- Binds each reconciled variable to its values on both sides. -/
def Builder.bindMerge (b : Builder) (merge : List Phi) : Builder :=
  merge.foldl (fun b phi => (b.bind phi.name phi.left).bind phi.name phi.right) b

mutual
/-- Takes a statement into account, and those in its blocks. -/
def visitStmt : Stmt → Builder → Builder
  | .assign target value, b => target.targetVars.foldl (·.bind · value) b
  | .ret value, b => { b with roots := b.roots.insertNames value.vars }
  | .branch _ onTrue onFalse merge, b =>
    (visitBlock onFalse (visitBlock onTrue b)).bindMerge merge
  | .loop _ body merge, b => (visitBlock body b).bindMerge merge
termination_by structural s => s

def visitBlock : List Stmt → Builder → Builder
  | [], b => b
  | s :: ss, b => visitBlock ss (visitStmt s b)
termination_by structural ss => ss
end

/-- What the body of a function leaves. At first each variable is alone, and the parameters are visible
outside. -/
def visitFn (f : TypedFn) : Builder :=
  visitBlock f.body
    { forest := f.typeEnv.names.foldl (fun forest name => (forest.find name).2) ∅
      roots := NameSet.insertNames ∅ f.argNames }

/-! ## Classes -/

/-- The variables of each root, and the root of each variable. -/
structure Classes where
  members : NameMap NameSet
  rootOf : NameMap String

/-- Puts a variable into the class of its root. -/
def Classes.add (c : Classes) (name root : String) : Classes where
  members := c.members.insert root (((c.members.find? root).getD ∅).insert name ())
  rootOf := c.rootOf.insert name root

/-- Puts variables into the classes of their roots in a forest. -/
def Classes.addAll (forest : UnionFind) : List String → Classes → Classes
  | [], c => c
  | name :: names, c =>
    let (root, forest) := forest.find name
    addAll forest names (c.add name root)

/-- The class of a variable. One that is not in the forest is alone. -/
def Classes.of (c : Classes) (name : String) : NameSet :=
  match c.rootOf.find? name with
  | some root => (c.members.find? root).getD ∅
  | none => NameSet.insertNames ∅ [name]

end Alias

/-- The classes of aliases of a function, and the variables whose storage may be seen outside it. -/
structure Aliases where
  classes : Alias.Classes
  escaping : NameSet

namespace Aliases

/-- The aliases of a function. -/
def compute (f : TypedFn) : Aliases :=
  let built := Alias.visitFn f
  let classes := Alias.Classes.addAll built.forest built.forest.parent.names ⟨∅, ∅⟩
  { classes
    escaping := built.roots.names.foldl (fun seen root => seen.insertNames (classes.of root).names) ∅ }

/-- Every variable that may share storage with a variable, itself included. -/
def of (a : Aliases) (name : String) : List String :=
  (a.classes.of name).names

/-- Whether two variables may share storage. -/
def mayAlias (a : Aliases) (x y : String) : Bool :=
  x == y || match a.classes.rootOf.find? x, a.classes.rootOf.find? y with
    | some r, some r' => r == r'
    | _, _ => false

/-- Whether a variable's storage may be seen outside the function. -/
def escapes (a : Aliases) (name : String) : Bool :=
  a.escaping.contains name

end Aliases
end ArrayLang
