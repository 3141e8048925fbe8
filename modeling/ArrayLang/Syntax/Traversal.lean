import ArrayLang.Syntax.Basic

/-!
# Traversals of expressions

The direct children of an expression, rebuilding an expression from new children, and what an
expression mentions. A function written in place is a leaf: its body belongs to another scope.
-/

namespace ArrayLang

namespace Node

/-- The direct subexpressions, in the order in which they are evaluated. -/
def children : Node → List Expr
  | .lit _ | .var _ | .opValue _ | .lambda _ => []
  | .tuple items | .array items | .op _ items | .call _ items | .closure _ items => items
  | .proj base _ | .attr base _ | .captured base _ | .cast base _ => [base]
  | .index base key => [base, key]
  | .slice start stop step => start :: stop :: step.toList
  | .invoke callee args => callee :: args
  | .struct _ fields => fields.map (·.2)
  | .alloc _ shape => [shape]
  | .map func args axis | .allPairs func args axis => func :: (args ++ [axis])
  | .reduce func combine start args axis =>
    func :: combine :: (start.toList ++ (args ++ [axis]))
  | .scan func combine emit start args axis =>
    func :: combine :: emit :: (start.toList ++ (args ++ [axis]))

variable {m : Type → Type} [Monad m]

/-- Rebuilds a node with `f` applied to each child in order, keeping its form. -/
def mapChildrenM (f : Expr → m Expr) : Node → m Node
  | .lit value => pure (.lit value)
  | .var name => pure (.var name)
  | .opValue o => pure (.opValue o)
  | .lambda decl => pure (.lambda decl)
  | .tuple items => do return .tuple (← items.mapM f)
  | .proj base i => do return .proj (← f base) i
  | .array items => do return .array (← items.mapM f)
  | .index base key => do
    let base ← f base
    return .index base (← f key)
  | .slice start stop step => do
    let start ← f start
    let stop ← f stop
    return .slice start stop (← step.mapM f)
  | .attr base name => do return .attr (← f base) name
  | .op o args => do return .op o (← args.mapM f)
  | .call func args => do return .call func (← args.mapM f)
  | .invoke callee args => do
    let callee ← f callee
    return .invoke callee (← args.mapM f)
  | .closure func values => do return .closure func (← values.mapM f)
  | .captured base i => do return .captured (← f base) i
  | .cast value elt => do return .cast (← f value) elt
  | .struct name fields => do
    return .struct name (← fields.mapM fun (field, value) => do return (field, ← f value))
  | .alloc elt shape => do return .alloc elt (← f shape)
  | .map func args axis => do
    let func ← f func
    let args ← args.mapM f
    return .map func args (← f axis)
  | .allPairs func args axis => do
    let func ← f func
    let args ← args.mapM f
    return .allPairs func args (← f axis)
  | .reduce func combine start args axis => do
    let func ← f func
    let combine ← f combine
    let start ← start.mapM f
    let args ← args.mapM f
    return .reduce func combine start args (← f axis)
  | .scan func combine emit start args axis => do
    let func ← f func
    let combine ← f combine
    let emit ← f emit
    let start ← start.mapM f
    let args ← args.mapM f
    return .scan func combine emit start args (← f axis)

end Node

namespace Expr

/-- The direct subexpressions, in the order in which they are evaluated. -/
def children (e : Expr) : List Expr :=
  e.node.children

/-- Rebuilds an expression with `f` applied to each child in order, keeping its form and type. -/
def mapChildrenM {m : Type → Type} [Monad m] (f : Expr → m Expr) (e : Expr) : m Expr := do
  return ⟨← e.node.mapChildrenM f, e.ty?⟩

theorem sizeOf_lt_of_mem_children {c e : Expr} (h : c ∈ e.children) : sizeOf c < sizeOf e := by
  obtain ⟨node, ty⟩ := e
  have inList : ∀ {xs : List Expr}, c ∈ xs → sizeOf c < sizeOf xs := List.sizeOf_lt_of_mem
  have inOption : ∀ {x : Option Expr}, x = some c → sizeOf c < sizeOf x := by
    rintro _ rfl
    simp
  have inFields : ∀ {fs : List (String × Expr)} {n : String}, (n, c) ∈ fs →
      sizeOf c < sizeOf fs := by
    intro fs n h
    have := List.sizeOf_lt_of_mem h
    simp only [Prod.mk.sizeOf_spec] at this
    omega
  cases node <;>
    simp only [children, Node.children, List.mem_cons, List.mem_append, List.not_mem_nil,
      Option.mem_toList, List.mem_map, Prod.exists, exists_eq_right, or_false]
      at h <;>
    simp only [Expr.mk.sizeOf_spec, Node.tuple.sizeOf_spec,
      Node.proj.sizeOf_spec, Node.array.sizeOf_spec, Node.index.sizeOf_spec,
      Node.slice.sizeOf_spec, Node.attr.sizeOf_spec, Node.op.sizeOf_spec, Node.call.sizeOf_spec,
      Node.invoke.sizeOf_spec, Node.closure.sizeOf_spec, Node.captured.sizeOf_spec,
      Node.cast.sizeOf_spec, Node.struct.sizeOf_spec, Node.alloc.sizeOf_spec,
      Node.map.sizeOf_spec, Node.allPairs.sizeOf_spec, Node.reduce.sizeOf_spec,
      Node.scan.sizeOf_spec]
  case tuple | array | op | call | closure => have := inList h; omega
  case proj | attr | captured | cast | alloc => subst h; omega
  case index => rcases h with rfl | rfl <;> omega
  case struct =>
    obtain ⟨n, h⟩ := h
    have := inFields h
    omega
  case slice =>
    rcases h with rfl | rfl | h
    · omega
    · omega
    · have := inOption h; omega
  case invoke =>
    rcases h with rfl | h
    · omega
    · have := inList h; omega
  case map | allPairs =>
    rcases h with rfl | h | rfl
    · omega
    · have := inList h; omega
    · omega
  case reduce =>
    rcases h with rfl | rfl | h | h | rfl
    · omega
    · omega
    · have := inOption h; omega
    · have := inList h; omega
    · omega
  case scan =>
    rcases h with rfl | rfl | rfl | h | h | rfl
    · omega
    · omega
    · omega
    · have := inOption h; omega
    · have := inList h; omega
    · omega

/-- The expression and everything inside it, outermost first. -/
def subexprs (e : Expr) : List Expr :=
  e :: e.children.attach.flatMap fun c => subexprs c.1
termination_by sizeOf e
decreasing_by exact sizeOf_lt_of_mem_children c.2

theorem subexprs_eq (e : Expr) : e.subexprs = e :: e.children.flatMap subexprs := by
  rw [subexprs, List.flatMap_subtype (g := subexprs) (by intros; rfl), List.unattach_attach]

/-- The variables an expression reads, one entry per occurrence. -/
def varOccurrences (e : Expr) : List String :=
  e.subexprs.filterMap var?

/-- The variables an expression reads, each once, in order of first occurrence. -/
def vars (e : Expr) : List String :=
  e.varOccurrences.eraseDups

/-- Whether an expression reads a variable. -/
def mentions (e : Expr) (name : String) : Bool :=
  e.varOccurrences.contains name

/-- Splits an assignment target such as `x[i][j]` into its variable and its indices. -/
def indexTarget? : Expr → Option (String × List Expr)
  | ⟨.var name, _⟩ => some (name, [])
  | ⟨.index base index, _⟩ =>
    (indexTarget? base).map fun (root, indices) => (root, indices ++ [index])
  | _ => none
termination_by structural e => e

end Expr

/-! ## Rebuilding from the leaves up -/

namespace Expr

variable {m : Type → Type} [Monad m]

mutual
/-- Rebuilds an expression from the leaves up, applying `f` to every node once its children have
been rebuilt. -/
def rebuildM (f : Expr → m Expr) : Expr → m Expr
  | ⟨.tuple items, t⟩ => do f ⟨.tuple (← rebuildListM f items), t⟩
  | ⟨.proj base i, t⟩ => do f ⟨.proj (← base.rebuildM f) i, t⟩
  | ⟨.array items, t⟩ => do f ⟨.array (← rebuildListM f items), t⟩
  | ⟨.index base index, t⟩ => do
    let base ← base.rebuildM f
    f ⟨.index base (← index.rebuildM f), t⟩
  | ⟨.slice start stop step, t⟩ => do
    let start ← start.rebuildM f
    let stop ← stop.rebuildM f
    f ⟨.slice start stop (← rebuildOptionM f step), t⟩
  | ⟨.attr base name, t⟩ => do f ⟨.attr (← base.rebuildM f) name, t⟩
  | ⟨.op op args, t⟩ => do f ⟨.op op (← rebuildListM f args), t⟩
  | ⟨.call func args, t⟩ => do f ⟨.call func (← rebuildListM f args), t⟩
  | ⟨.invoke callee args, t⟩ => do
    let callee ← callee.rebuildM f
    f ⟨.invoke callee (← rebuildListM f args), t⟩
  | ⟨.closure func captured, t⟩ => do f ⟨.closure func (← rebuildListM f captured), t⟩
  | ⟨.captured base i, t⟩ => do f ⟨.captured (← base.rebuildM f) i, t⟩
  | ⟨.cast value elt, t⟩ => do f ⟨.cast (← value.rebuildM f) elt, t⟩
  | ⟨.struct name fields, t⟩ => do f ⟨.struct name (← rebuildFieldsM f fields), t⟩
  | ⟨.alloc elt shape, t⟩ => do f ⟨.alloc elt (← shape.rebuildM f), t⟩
  | ⟨.map func args axis, t⟩ => do
    let func ← func.rebuildM f
    let args ← rebuildListM f args
    f ⟨.map func args (← axis.rebuildM f), t⟩
  | ⟨.allPairs func args axis, t⟩ => do
    let func ← func.rebuildM f
    let args ← rebuildListM f args
    f ⟨.allPairs func args (← axis.rebuildM f), t⟩
  | ⟨.reduce func combine start args axis, t⟩ => do
    let func ← func.rebuildM f
    let combine ← combine.rebuildM f
    let start ← rebuildOptionM f start
    let args ← rebuildListM f args
    f ⟨.reduce func combine start args (← axis.rebuildM f), t⟩
  | ⟨.scan func combine emit start args axis, t⟩ => do
    let func ← func.rebuildM f
    let combine ← combine.rebuildM f
    let emit ← emit.rebuildM f
    let start ← rebuildOptionM f start
    let args ← rebuildListM f args
    f ⟨.scan func combine emit start args (← axis.rebuildM f), t⟩
  | ⟨.lit value, t⟩ => f ⟨.lit value, t⟩
  | ⟨.var name, t⟩ => f ⟨.var name, t⟩
  | ⟨.opValue op, t⟩ => f ⟨.opValue op, t⟩
  | ⟨.lambda decl, t⟩ => f ⟨.lambda decl, t⟩
termination_by structural e => e

/-- Rebuilds several expressions in order. -/
def rebuildListM (f : Expr → m Expr) : List Expr → m (List Expr)
  | [] => pure []
  | e :: es => do
    let e ← e.rebuildM f
    return e :: (← rebuildListM f es)
termination_by structural es => es

/-- Rebuilds an optional expression. -/
def rebuildOptionM (f : Expr → m Expr) : Option Expr → m (Option Expr)
  | none => pure none
  | some e => do return some (← e.rebuildM f)
termination_by structural e => e

/-- Rebuilds named expressions in order. -/
def rebuildFieldsM (f : Expr → m Expr) : List (String × Expr) → m (List (String × Expr))
  | [] => pure []
  | (name, e) :: rest => do
    let e ← e.rebuildM f
    return (name, e) :: (← rebuildFieldsM f rest)
termination_by structural es => es
end

end Expr
end ArrayLang
