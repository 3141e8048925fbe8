import Mathlib.Data.List.Basic
import ArrayLang.Proofs.Run
import ArrayLang.Syntax.Traversal

/-!
# Children and their order

An expression is its form and its children: the list of the children is read off by one definition, and
they are replaced one by one by another. Both go through them in the same order and forget none, so that
replacing the children of an expression is visiting that list from left to right, and building the same
form over what comes out.

## Main results

- `Node.build_form`: a node is its form over its children.
- `Node.mapChildrenM_eq`: replacing the children is mapping their list.
- `Expr.rebuildM_eq`: rebuilding an expression rebuilds the children first.
- `Expr.mapChildrenM_visits`: which children are visited, and what comes out.
-/

namespace ArrayLang

/-! ## Forms -/

/-- What there is of a node besides its children. -/
inductive Form where
  | lit (value : Literal)
  | var (name : String)
  | tuple
  | proj (i : Nat)
  | array
  | index
  | slice (hasStep : Bool)
  | attr (name : String)
  | op (op : Operator)
  | opValue (op : Operator)
  | call (func : String)
  | invoke
  | closure (func : String)
  | captured (i : Nat)
  | lambda (decl : FnDecl)
  | cast (elt : ElemType)
  | struct (name : String) (fields : List String)
  | alloc (elt : ElemType)
  | map
  | allPairs
  | reduce (hasStart : Bool)
  | scan (hasStart : Bool)

namespace Node

/-- The form of a node. -/
def form : Node → Form
  | .lit value => .lit value
  | .var name => .var name
  | .tuple _ => .tuple
  | .proj _ i => .proj i
  | .array _ => .array
  | .index _ _ => .index
  | .slice _ _ step => .slice step.isSome
  | .attr _ name => .attr name
  | .op o _ => .op o
  | .opValue o => .opValue o
  | .call func _ => .call func
  | .invoke _ _ => .invoke
  | .closure func _ => .closure func
  | .captured _ i => .captured i
  | .lambda decl => .lambda decl
  | .cast _ elt => .cast elt
  | .struct name fields => .struct name (fields.map (·.1))
  | .alloc elt _ => .alloc elt
  | .map _ _ _ => .map
  | .allPairs _ _ _ => .allPairs
  | .reduce _ _ start _ _ => .reduce start.isSome
  | .scan _ _ _ start _ _ => .scan start.isSome

end Node

namespace Form

/-- The last of several children, which is the axis of an adverb. -/
def axis (children : List Expr) : Expr :=
  children.getLastD default

/-- The node of a form over the given children. -/
def build : Form → List Expr → Node
  | lit value, _ => .lit value
  | var name, _ => .var name
  | opValue o, _ => .opValue o
  | lambda decl, _ => .lambda decl
  | tuple, items => .tuple items
  | array, items => .array items
  | op o, args => .op o args
  | call func, args => .call func args
  | closure func, values => .closure func values
  | struct name fields, values => .struct name (fields.zip values)
  | proj i, [base] => .proj base i
  | attr name, [base] => .attr base name
  | captured i, [base] => .captured base i
  | cast elt, [value] => .cast value elt
  | alloc elt, [shape] => .alloc elt shape
  | index, [base, key] => .index base key
  | slice false, [start, stop] => .slice start stop none
  | slice true, [start, stop, step] => .slice start stop (some step)
  | invoke, callee :: args => .invoke callee args
  | map, func :: rest => .map func rest.dropLast (axis rest)
  | allPairs, func :: rest => .allPairs func rest.dropLast (axis rest)
  | reduce false, func :: combine :: rest => .reduce func combine none rest.dropLast (axis rest)
  | reduce true, func :: combine :: start :: rest =>
    .reduce func combine (some start) rest.dropLast (axis rest)
  | scan false, func :: combine :: emit :: rest =>
    .scan func combine emit none rest.dropLast (axis rest)
  | scan true, func :: combine :: emit :: start :: rest =>
    .scan func combine emit (some start) rest.dropLast (axis rest)
  | _, _ => .lit .none

@[simp] theorem axis_concat (args : List Expr) (e : Expr) : axis (args ++ [e]) = e :=
  List.getLastD_concat

/-- The children of an adverb after its functions are its arguments and its axis. -/
theorem dropLast_concat_axis {cs args : List Expr} {e : Expr}
    (h : cs.length = (args ++ [e]).length) : cs.dropLast ++ [axis cs] = cs := by
  obtain rfl | ⟨args, e, rfl⟩ := cs.eq_nil_or_concat
  · simp at h
  · simp

end Form

namespace Node

section
variable {m : Type → Type} [Monad m] [LawfulMonad m]

/-- Replacing the values of fields is mapping the list of these values. -/
theorem mapM_fields (f : Expr → m Expr) (fields : List (String × Expr)) :
    (fields.mapM fun (field, value) => do return (field, ← f value))
      = do return (fields.map (·.1)).zip (← (fields.map (·.2)).mapM f) := by
  induction fields with
  | nil => simp
  | cons entry fields ih =>
    rw [List.mapM_cons, ih, List.map_cons, List.map_cons, List.mapM_cons]
    simp

/-- Replacing the children of a node is mapping their list and building the same form. -/
theorem mapChildrenM_eq (f : Expr → m Expr) (n : Node) :
    n.mapChildrenM f = do return n.form.build (← n.children.mapM f) := by
  cases n with
  | struct name fields =>
    rw [mapChildrenM, mapM_fields]
    simp [children, form, Form.build]
  | slice start stop step => cases step <;> simp [mapChildrenM, children, form, Form.build]
  | reduce func combine start args axis =>
    cases start <;> simp [mapChildrenM, children, form, Form.build]
  | scan func combine emit start args axis =>
    cases start <;> simp [mapChildrenM, children, form, Form.build]
  | _ => simp [mapChildrenM, children, form, Form.build]

end

/-- A node is its form over its children. -/
theorem build_form (n : Node) : n.form.build n.children = n := by
  cases n with
  | struct name fields =>
    exact congrArg (Node.struct name) (List.zip_of_prod rfl rfl).symm
  | slice start stop step => cases step <;> rfl
  | reduce func combine start args axis => cases start <;> simp [form, children, Form.build]
  | scan func combine emit start args axis => cases start <;> simp [form, children, Form.build]
  | map | allPairs => simp [form, children, Form.build]
  | _ => rfl

/-- A list as long as one with a first item has a first item. -/
theorem exists_cons_of_length {cs es : List Expr} {e : Expr} (h : cs.length = (e :: es).length) :
    ∃ c rest, cs = c :: rest ∧ rest.length = es.length := by
  obtain ⟨c, rest, rfl⟩ := List.exists_cons_of_length_eq_add_one h
  exact ⟨c, rest, rfl, Nat.succ.inj h⟩

/-- As many children as there were can take their place: the form is kept. -/
theorem form_build {n : Node} {cs : List Expr} (h : cs.length = n.children.length) :
    (n.form.build cs).form = n.form ∧ (n.form.build cs).children = cs := by
  cases n with
  | lit | var | opValue | lambda =>
    obtain rfl := List.eq_nil_of_length_eq_zero h
    exact ⟨rfl, rfl⟩
  | tuple | array | op | call | closure => exact ⟨rfl, rfl⟩
  | proj | attr | captured | cast | alloc =>
    obtain ⟨c, rfl⟩ := List.length_eq_one_iff.1 h
    exact ⟨rfl, rfl⟩
  | index =>
    obtain ⟨base, key, rfl⟩ := List.length_eq_two.1 h
    exact ⟨rfl, rfl⟩
  | struct name fields =>
    have hlen : (fields.map (·.1)).length = cs.length := by simpa [children] using h.symm
    have hnames := List.map_fst_zip (Nat.le_of_eq hlen)
    exact ⟨congrArg (Form.struct name) hnames, List.map_snd_zip (Nat.le_of_eq hlen.symm)⟩
  | slice start stop step =>
    cases step with
    | none =>
      obtain ⟨start, stop, rfl⟩ := List.length_eq_two.1 h
      exact ⟨rfl, rfl⟩
    | some step =>
      obtain ⟨start, stop, step, rfl⟩ := List.length_eq_three.1 h
      exact ⟨rfl, rfl⟩
  | invoke callee args =>
    obtain ⟨callee, args, rfl, -⟩ := exists_cons_of_length h
    exact ⟨rfl, rfl⟩
  | map | allPairs =>
    obtain ⟨func, rest, rfl, hrest⟩ := exists_cons_of_length h
    exact ⟨rfl, congrArg (func :: ·) (Form.dropLast_concat_axis hrest)⟩
  | reduce _ _ start args =>
    obtain ⟨func, rest, rfl, h₁⟩ := exists_cons_of_length h
    obtain ⟨combine, rest, rfl, h₂⟩ := exists_cons_of_length h₁
    cases start with
    | none =>
      have hrest := Form.dropLast_concat_axis h₂
      exact ⟨rfl, congrArg (func :: combine :: ·) hrest⟩
    | some =>
      obtain ⟨start, rest, rfl, h₃⟩ := exists_cons_of_length h₂
      have hrest := Form.dropLast_concat_axis h₃
      exact ⟨rfl, congrArg (func :: combine :: start :: ·) hrest⟩
  | scan _ _ _ start args =>
    obtain ⟨func, rest, rfl, h₁⟩ := exists_cons_of_length h
    obtain ⟨combine, rest, rfl, h₂⟩ := exists_cons_of_length h₁
    obtain ⟨emit, rest, rfl, h₃⟩ := exists_cons_of_length h₂
    cases start with
    | none =>
      have hrest := Form.dropLast_concat_axis h₃
      exact ⟨rfl, congrArg (func :: combine :: emit :: ·) hrest⟩
    | some =>
      obtain ⟨start, rest, rfl, h₄⟩ := exists_cons_of_length h₃
      have hrest := Form.dropLast_concat_axis h₄
      exact ⟨rfl, congrArg (func :: combine :: emit :: start :: ·) hrest⟩

end Node

/-! ## Rebuilding -/

namespace Expr

section
variable {m : Type → Type} [Monad m] [LawfulMonad m] (f : Expr → m Expr)

theorem mapChildrenM_eq (e : Expr) :
    e.mapChildrenM f = do return ⟨e.node.form.build (← e.children.mapM f), e.ty?⟩ := by
  rw [mapChildrenM, Node.mapChildrenM_eq]
  simp [children]

/-- Replacing each child by itself changes nothing. -/
theorem mapChildrenM_pure (e : Expr) : e.mapChildrenM (pure : Expr → m Expr) = pure e := by
  obtain ⟨node, ty?⟩ := e
  rw [mapChildrenM_eq, List.mapM_pure, pure_bind, List.map_id', children, Node.build_form]

theorem rebuildListM_eq_mapM (es : List Expr) : rebuildListM f es = es.mapM (rebuildM f) := by
  induction es with
  | nil => simp [rebuildListM]
  | cons e es ih => simp [rebuildListM, ih]

theorem rebuildOptionM_eq_mapM (e? : Option Expr) : rebuildOptionM f e? = e?.mapM (rebuildM f) := by
  cases e? <;> simp [rebuildOptionM]

theorem rebuildFieldsM_eq_mapM (fields : List (String × Expr)) :
    rebuildFieldsM f fields
      = fields.mapM fun (field, value) => do return (field, ← value.rebuildM f) := by
  induction fields with
  | nil => simp [rebuildFieldsM]
  | cons entry fields ih => simp [rebuildFieldsM, ih]

/-- Rebuilding an expression rebuilds its children, in their order, and then converts the node. -/
theorem rebuildM_eq (e : Expr) : e.rebuildM f = e.mapChildrenM (rebuildM f) >>= f := by
  obtain ⟨node, ty?⟩ := e
  cases node <;>
    simp [rebuildM, mapChildrenM, Node.mapChildrenM, rebuildListM_eq_mapM,
      rebuildOptionM_eq_mapM, rebuildFieldsM_eq_mapM]

end

/-! ## Visits -/

section
variable {κ ε : Type}

/-- Runs `g` once on each expression of a list, from left to right, and gives its results. -/
inductive Visits (g : Expr → Run κ ε Expr) : List Expr → State κ → List Expr → State κ → Prop
  | nil (s : State κ) : Visits g [] s [] s
  | cons {c d : Expr} {cs ds : List Expr} {s s' s'' : State κ}
      (hc : Run.exec (g c) s = (.ok d, s')) (hcs : Visits g cs s' ds s'') :
      Visits g (c :: cs) s (d :: ds) s''

/-- The expression has the form and the type of another one. -/
structure SameForm (e e' : Expr) : Prop where
  form : e.node.form = e'.node.form
  ty? : e.ty? = e'.ty?

variable {g : Expr → Run κ ε Expr} {cs ds : List Expr} {s s' : State κ}

theorem Visits.length_eq (h : Visits g cs s ds s') : ds.length = cs.length := by
  induction h with
  | nil s => rfl
  | cons _ _ ih => rw [List.length_cons, List.length_cons, ih]

/-- Mapping a list succeeds exactly by visiting all of it. -/
theorem exec_mapM_eq_ok_iff : Run.exec (cs.mapM g) s = (.ok ds, s') ↔ Visits g cs s ds s' := by
  induction cs generalizing s ds with
  | nil =>
    rw [List.mapM_nil, Run.exec_pure]
    constructor
    · intro h
      cases h
      exact .nil _
    · rintro ⟨⟩
      rfl
  | cons c cs ih =>
    rw [List.mapM_cons]
    constructor
    · intro h
      obtain ⟨d, s₁, hc, h⟩ := Run.exec_bind_eq_ok h
      obtain ⟨ds, s₂, hcs, h⟩ := Run.exec_bind_eq_ok h
      cases h
      exact .cons hc (ih.1 hcs)
    · rintro (_ | ⟨hc, hcs⟩)
      rw [Run.exec_bind_ok hc, Run.exec_bind_ok (ih.2 hcs), Run.exec_pure]

/-- It fails as the first member that fails does, and the members after that one are not visited. -/
theorem exec_mapM_eq_error_iff {err : ε} :
    Run.exec (cs.mapM g) s = (.error err, s') ↔ ∃ before c after images s₁,
      cs = before ++ c :: after ∧ Visits g before s images s₁
        ∧ Run.exec (g c) s₁ = (.error err, s') := by
  induction cs generalizing s with
  | nil =>
    rw [List.mapM_nil, Run.exec_pure]
    constructor
    · rintro ⟨⟩
    · rintro ⟨before, c, after, _, _, h, -⟩
      exact absurd h.symm (List.append_ne_nil_of_right_ne_nil before (List.cons_ne_nil c after))
  | cons c cs ih =>
    rw [List.mapM_cons]
    constructor
    · intro h
      rcases Run.exec_bind_eq_error h with hc | ⟨d, s₁, hc, h⟩
      · exact ⟨[], c, cs, [], s, rfl, .nil s, hc⟩
      · rcases Run.exec_bind_eq_error h with hcs | ⟨ds, s₂, hcs, h⟩
        · obtain ⟨before, c', after, images, s₂, rfl, hbefore, hc'⟩ := ih.1 hcs
          exact ⟨c :: before, c', after, d :: images, s₂, rfl, .cons hc hbefore, hc'⟩
        · cases h
    · rintro ⟨before, c', after, images, s₁, heq, hbefore, hc'⟩
      cases hbefore with
      | nil =>
        obtain ⟨rfl, rfl⟩ := List.cons.inj heq
        exact Run.exec_bind_of_error hc'
      | cons hc hbefore =>
        obtain ⟨rfl, rfl⟩ := List.cons.inj heq
        rw [Run.exec_bind_ok hc]
        exact Run.exec_bind_of_error (ih.2 ⟨_, c', after, _, s₁, rfl, hbefore, hc'⟩)

/-- Replacing the children of an expression by what `g` makes of them, which may change the state and may
fail. It succeeds exactly if `g` does on one child after the other, and then nothing but the children is
replaced, each by its own image. It fails exactly as `g` does on some child, all children before that one
having been visited and none after it. Replacing each child by itself changes nothing, and rebuilding a
whole expression replaces the children by their rebuilt ones before it converts the node. -/
theorem mapChildrenM_visits (g : Expr → Run κ ε Expr) (e : Expr) (s : State κ) :
    (∀ e' s', Run.exec (e.mapChildrenM g) s = (.ok e', s') ↔
        Visits g e.children s e'.children s' ∧ e'.SameForm e)
      ∧ (∀ err s', Run.exec (e.mapChildrenM g) s = (.error err, s') ↔
        ∃ before c after images s₁, e.children = before ++ c :: after
          ∧ Visits g before s images s₁ ∧ Run.exec (g c) s₁ = (.error err, s'))
      ∧ e.mapChildrenM (pure : Expr → Run κ ε Expr) = pure e
      ∧ e.rebuildM g = e.mapChildrenM (rebuildM g) >>= g := by
  refine ⟨fun e' s' => ?_, fun err s' => ?_, mapChildrenM_pure e, rebuildM_eq g e⟩
  · rw [mapChildrenM_eq]
    constructor
    · intro h
      obtain ⟨cs, s₁, hcs, h⟩ := Run.exec_bind_eq_ok h
      cases h
      have hvisits := exec_mapM_eq_ok_iff.1 hcs
      obtain ⟨hform, hchildren⟩ := Node.form_build (n := e.node) hvisits.length_eq
      refine ⟨?_, hform, rfl⟩
      show Visits g e.children s (e.node.form.build cs).children s'
      rw [hchildren]
      exact hvisits
    · obtain ⟨node, ty?⟩ := e'
      rintro ⟨hvisits, hform, hty⟩
      rw [Run.exec_bind_ok (exec_mapM_eq_ok_iff.2 hvisits), Run.exec_pure, ← hform, ← hty, children,
        Node.build_form]
  · rw [mapChildrenM_eq, ← exec_mapM_eq_error_iff]
    constructor
    · intro h
      rcases Run.exec_bind_eq_error h with h | ⟨cs, s₁, -, h⟩
      · exact h
      · cases h
    · exact Run.exec_bind_of_error

end
end Expr
end ArrayLang
