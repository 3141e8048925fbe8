import ArrayLang.Ty.Basic

/-!
# Symbolic shapes

The shape of a function's result as an expression over the function's parameters. Each scalar or
array among the parameters has one shape variable: a scalar's stands for its value, an array's for
the tuple of its dimensions. Expressions without variables are folded as they are built.
-/

namespace ArrayLang

/-- Arithmetic on dimensions. -/
inductive ShapeOp where
  | add
  | sub
  | mul
  | div
  | mod
deriving DecidableEq

namespace ShapeOp

def text : ShapeOp → String
  | add => "+"
  | sub => "-"
  | mul => "*"
  | div => "/"
  | mod => "%"

/-- Every operator. -/
def all : List ShapeOp :=
  [add, sub, mul, div, mod]

/-- The operator with the given text. -/
def ofText? (s : String) : Option ShapeOp :=
  all.find? (·.text = s)

/-- The operator's result, division and remainder being Euclidean. Where there is no result in
64 bits, by a division by zero or of the least integer by -1, it is zero. -/
def apply (op : ShapeOp) (a b : Int64) : Int64 :=
  match op with
  | add => a + b
  | sub => a - b
  | mul => a * b
  | div => if b = 0 ∨ (a = Int64.minValue ∧ b = -1) then 0 else Int64.ofInt (a.toInt / b.toInt)
  | mod => if b = 0 ∨ (a = Int64.minValue ∧ b = -1) then 0 else Int64.ofInt (a.toInt % b.toInt)

end ShapeOp

/-- A shape in terms of shape variables. -/
inductive SymbolicShape where
  | var (index : Nat)
  | const (value : Int64)
  /-- Entry `i` of the tuple that the inner expression stands for. -/
  | dim (inner : SymbolicShape) (i : Nat)
  | tuple (items : List SymbolicShape)
  | binop (op : ShapeOp) (lhs rhs : SymbolicShape)
  /-- A closure has no shape; it only carries those of what it captures. -/
  | closure (name : String) (captured : List SymbolicShape)
  /-- Depends on more than the parameters' shapes. -/
  | unknown
deriving Inhabited

namespace SymbolicShape

/-! ## Equality -/

mutual
/-- Structural equality test. -/
def beq : SymbolicShape → SymbolicShape → Bool
  | var i, var j => i = j
  | const a, const b => a = b
  | dim a i, dim b j => a.beq b && i = j
  | tuple as, tuple bs => beqList as bs
  | binop o a b, binop o' a' b' => o = o' && a.beq a' && b.beq b'
  | closure f as, closure g bs => f = g && beqList as bs
  | unknown, unknown => true
  | _, _ => false
termination_by structural s => s

/-- Structural equality test, item by item. -/
def beqList : List SymbolicShape → List SymbolicShape → Bool
  | [], [] => true
  | a :: as, b :: bs => a.beq b && beqList as bs
  | _, _ => false
termination_by structural ss => ss
end

mutual
theorem eq_of_beq : ∀ {a b : SymbolicShape}, a.beq b = true → a = b
  | var _, b, h => by cases b <;> simp_all [beq]
  | const _, b, h => by cases b <;> simp_all [beq]
  | unknown, b, h => by cases b <;> simp_all [beq]
  | dim a i, b, h => by
    cases b with
    | dim a' j =>
      simp only [beq, Bool.and_eq_true, decide_eq_true_eq] at h
      rw [eq_of_beq h.1, h.2]
    | _ => simp [beq] at h
  | tuple as, b, h => by
    cases b with
    | tuple bs => exact congrArg tuple (eq_of_beqList (by simpa [beq] using h))
    | _ => simp [beq] at h
  | binop o x y, b, h => by
    cases b with
    | binop o' x' y' =>
      simp only [beq, Bool.and_eq_true, decide_eq_true_eq] at h
      rw [h.1.1, eq_of_beq h.1.2, eq_of_beq h.2]
    | _ => simp [beq] at h
  | closure f as, b, h => by
    cases b with
    | closure g bs =>
      simp only [beq, Bool.and_eq_true, decide_eq_true_eq] at h
      rw [h.1, eq_of_beqList h.2]
    | _ => simp [beq] at h

theorem eq_of_beqList : ∀ {as bs : List SymbolicShape}, beqList as bs = true → as = bs
  | [], bs, h => by cases bs <;> simp_all [beqList]
  | a :: as, bs, h => by
    cases bs with
    | nil => simp [beqList] at h
    | cons b bs =>
      simp only [beqList, Bool.and_eq_true] at h
      rw [eq_of_beq h.1, eq_of_beqList h.2]
end

mutual
theorem beq_self : ∀ a : SymbolicShape, a.beq a = true
  | var _ => by simp [beq]
  | const _ => by simp [beq]
  | unknown => by simp [beq]
  | dim a _ => by simp [beq, beq_self a]
  | tuple as => by simp [beq, beqList_self as]
  | binop _ a b => by simp [beq, beq_self a, beq_self b]
  | closure _ as => by simp [beq, beqList_self as]

theorem beqList_self : ∀ as : List SymbolicShape, beqList as as = true
  | [] => by simp [beqList]
  | a :: as => by simp [beqList, beq_self a, beqList_self as]
end

theorem beq_iff_eq {a b : SymbolicShape} : a.beq b = true ↔ a = b :=
  ⟨eq_of_beq, fun h => h ▸ beq_self a⟩

instance : DecidableEq SymbolicShape := fun _ _ => decidable_of_iff _ beq_iff_eq

/-! ## Building -/

/-- The shape of a scalar. -/
def scalar : SymbolicShape := .tuple []

/-- Joins two dimensions by an operator, folding constants and dropping neutral operands. A division
by the constant zero is kept as it is. -/
def fold (op : ShapeOp) (lhs rhs : SymbolicShape) : SymbolicShape :=
  match op, lhs, rhs with
  | _, unknown, _ => unknown
  | _, _, unknown => unknown
  | .add, const a, const b => const (ShapeOp.add.apply a b)
  | .sub, const a, const b => const (ShapeOp.sub.apply a b)
  | .mul, const a, const b => const (ShapeOp.mul.apply a b)
  | .div, const a, const b =>
    if b = 0 then binop .div (const a) (const b) else const (ShapeOp.div.apply a b)
  | .mod, const a, const b =>
    if b = 0 then binop .mod (const a) (const b) else const (ShapeOp.mod.apply a b)
  | .add, a, const b => if b = 0 then a else binop .add a (const b)
  | .add, const a, b => if a = 0 then b else binop .add (const a) b
  | .sub, a, const b => if b = 0 then a else binop .sub a (const b)
  | .mul, a, const b => if b = 1 then a else binop .mul a (const b)
  | .mul, const a, b => if a = 1 then b else binop .mul (const a) b
  | .div, a, const b => if b = 1 then a else binop .div a (const b)
  | op, a, b => binop op a b

mutual
/-- Whether some part depends on more than the parameters' shapes. -/
def hasUnknown : SymbolicShape → Bool
  | unknown => true
  | var _ => false
  | const _ => false
  | dim inner _ => inner.hasUnknown
  | tuple items => hasUnknownList items
  | closure _ items => hasUnknownList items
  | binop _ lhs rhs => lhs.hasUnknown || rhs.hasUnknown
termination_by structural s => s

def hasUnknownList : List SymbolicShape → Bool
  | [] => false
  | s :: ss => s.hasUnknown || hasUnknownList ss
termination_by structural ss => ss
end

/-! ## Text -/

mutual
/-- The text of a symbolic shape. -/
def text : SymbolicShape → String
  | var index => "%" ++ toString index
  | const value => toString value.toInt
  | dim inner i => "dim(" ++ inner.text ++ ", " ++ toString i ++ ")"
  | tuple items => "(" ++ ", ".intercalate (texts items) ++ ")"
  | binop op lhs rhs => "(" ++ lhs.text ++ " " ++ op.text ++ " " ++ rhs.text ++ ")"
  | closure name _ => "closure " ++ name
  | unknown => "?"
termination_by structural s => s

def texts : List SymbolicShape → List String
  | [] => []
  | s :: ss => s.text :: texts ss
termination_by structural ss => ss
end

end SymbolicShape

/-! ## Parameters -/

/-- How a parameter is described by shape variables. -/
inductive ParamShape where
  | scalar (var : Nat)
  | array (var rank : Nat)
  | tuple (items : List ParamShape)
  /-- Carries no shape information. -/
  | untracked
deriving Inhabited

namespace ParamShape

mutual
/-- The description of a parameter whose first free variable is `next`, with the next free one. -/
def ofTy : Ty → Nat → ParamShape × Nat
  | .scalar _, next => (scalar next, next + 1)
  | .array _ rank, next => (array next rank, next + 1)
  | .tuple items, next =>
    let (items, next) := ofTys items next
    (tuple items, next)
  | _, next => (untracked, next)
termination_by structural t => t

/-- The descriptions of several parameters, their variables numbered on. -/
def ofTys : List Ty → Nat → List ParamShape × Nat
  | [], next => ([], next)
  | t :: ts, next =>
    let (p, next) := ofTy t next
    let (ps, next) := ofTys ts next
    (p :: ps, next)
termination_by structural ts => ts
end

/-- The descriptions of all parameters of a function, in order. -/
def layout (types : List Ty) : List ParamShape :=
  (ofTys types 0).1

end ParamShape
end ArrayLang
