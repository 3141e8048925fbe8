import ArrayLang.ElemType

/-!
# Types of values

Types of values, with decidable equality, their text, and the operations that move between a
value and its slices along an axis.
-/

namespace ArrayLang

/-- The type of a value. A rank of an array type is at least 1 in well-formed types. A closure's
`func` names a function of the session. -/
inductive Ty where
  | none
  | scalar (elt : ElemType)
  | array (elt : ElemType) (rank : Nat)
  | tuple (items : List Ty)
  | struct (name : String) (fields : List (String × Ty))
  | slice (start stop step : Ty)
  | closure (func : String) (captured : List Ty)
deriving Inhabited

namespace Ty

/-! ## Equality -/

mutual
/-- Structural equality test. -/
def beq : Ty → Ty → Bool
  | .none, .none => true
  | .scalar a, .scalar b => a = b
  | .array a r, .array b s => a = b && r = s
  | .tuple as, .tuple bs => beqList as bs
  | .struct n fs, .struct m gs => n = m && beqFields fs gs
  | .slice a b c, .slice a' b' c' => a.beq a' && b.beq b' && c.beq c'
  | .closure f cs, .closure g ds => f = g && beqList cs ds
  | _, _ => false
termination_by structural t => t

/-- Structural equality test, item by item. -/
def beqList : List Ty → List Ty → Bool
  | [], [] => true
  | a :: as, b :: bs => a.beq b && beqList as bs
  | _, _ => false
termination_by structural ts => ts

/-- Structural equality test, field by field. -/
def beqFields : List (String × Ty) → List (String × Ty) → Bool
  | [], [] => true
  | (n, a) :: as, (m, b) :: bs => n = m && a.beq b && beqFields as bs
  | _, _ => false
termination_by structural ts => ts
end

mutual
theorem eq_of_beq : ∀ {a b : Ty}, a.beq b = true → a = b
  | .none, b, h => by cases b <;> simp_all [beq]
  | .scalar _, b, h => by cases b <;> simp_all [beq]
  | .array _ _, b, h => by cases b <;> simp_all [beq]
  | .tuple as, b, h => by
    cases b with
    | tuple bs => exact congrArg Ty.tuple (eq_of_beqList (by simpa [beq] using h))
    | _ => simp [beq] at h
  | .struct n fs, b, h => by
    cases b with
    | struct m gs =>
      simp only [beq, Bool.and_eq_true, decide_eq_true_eq] at h
      rw [h.1, eq_of_beqFields h.2]
    | _ => simp [beq] at h
  | .slice x y z, b, h => by
    cases b with
    | slice x' y' z' =>
      simp only [beq, Bool.and_eq_true] at h
      rw [eq_of_beq h.1.1, eq_of_beq h.1.2, eq_of_beq h.2]
    | _ => simp [beq] at h
  | .closure f cs, b, h => by
    cases b with
    | closure g ds =>
      simp only [beq, Bool.and_eq_true, decide_eq_true_eq] at h
      rw [h.1, eq_of_beqList h.2]
    | _ => simp [beq] at h

theorem eq_of_beqList : ∀ {as bs : List Ty}, beqList as bs = true → as = bs
  | [], bs, h => by cases bs <;> simp_all [beqList]
  | a :: as, bs, h => by
    cases bs with
    | nil => simp [beqList] at h
    | cons b bs =>
      simp only [beqList, Bool.and_eq_true] at h
      rw [eq_of_beq h.1, eq_of_beqList h.2]

theorem eq_of_beqFields : ∀ {as bs : List (String × Ty)}, beqFields as bs = true → as = bs
  | [], bs, h => by cases bs <;> simp_all [beqFields]
  | (n, a) :: as, bs, h => by
    cases bs with
    | nil => simp [beqFields] at h
    | cons b bs =>
      simp only [beqFields, Bool.and_eq_true, decide_eq_true_eq] at h
      obtain ⟨m, b⟩ := b
      rw [show n = m from h.1.1, eq_of_beq h.1.2, eq_of_beqFields h.2]
end

mutual
theorem beq_self : ∀ a : Ty, a.beq a = true
  | .none => by simp [beq]
  | .scalar _ => by simp [beq]
  | .array _ _ => by simp [beq]
  | .tuple as => by simp [beq, beqList_self as]
  | .struct n fs => by simp [beq, beqFields_self fs]
  | .slice x y z => by simp [beq, beq_self x, beq_self y, beq_self z]
  | .closure f cs => by simp [beq, beqList_self cs]

theorem beqList_self : ∀ as : List Ty, beqList as as = true
  | [] => by simp [beqList]
  | a :: as => by simp [beqList, beq_self a, beqList_self as]

theorem beqFields_self : ∀ as : List (String × Ty), beqFields as as = true
  | [] => by simp [beqFields]
  | (n, a) :: as => by simp [beqFields, beq_self a, beqFields_self as]
end

theorem beq_iff_eq {a b : Ty} : a.beq b = true ↔ a = b :=
  ⟨eq_of_beq, fun h => h ▸ beq_self a⟩

instance : DecidableEq Ty := fun _ _ => decidable_of_iff _ beq_iff_eq

/-! ## Text -/

mutual
/-- The text of a type. A tuple of one item keeps a trailing comma. -/
def text : Ty → String
  | .none => "none"
  | .scalar elt => elt.name
  | .array elt rank => "array" ++ toString rank ++ "<" ++ elt.name ++ ">"
  | .tuple items =>
    let body := ", ".intercalate (texts items)
    if items.length = 1 then "(" ++ body ++ ",)" else "(" ++ body ++ ")"
  | .struct name _ => "struct " ++ name
  | .slice start stop step => "slice(" ++ start.text ++ ", " ++ stop.text ++ ", " ++ step.text ++ ")"
  | .closure func captured => "closure " ++ func ++ "[" ++ ", ".intercalate (texts captured) ++ "]"
termination_by structural t => t

/-- The texts of several types. -/
def texts : List Ty → List String
  | [] => []
  | t :: ts => t.text :: texts ts
termination_by structural ts => ts
end

/-! ## Parts of a type -/

def bool : Ty := .scalar .bool

def int64 : Ty := .scalar .int64

/-- An array of the given rank, which is the element type itself at rank 0. -/
def arrayOf (elt : ElemType) (rank : Nat) : Ty :=
  if rank = 0 then .scalar elt else .array elt rank

def isScalar : Ty → Bool
  | .scalar _ => true
  | _ => false

def isArray : Ty → Bool
  | .array _ _ => true
  | _ => false

/-- Number of dimensions, none for anything but arrays. -/
def rank : Ty → Nat
  | .array _ rank => rank
  | _ => 0

/-- The element type of a scalar or an array. -/
def elt? : Ty → Option ElemType
  | .scalar elt | .array elt _ => some elt
  | _ => Option.none

/-- Whether the type is a scalar of an integer type. -/
def isInteger : Ty → Bool
  | .scalar elt => elt.isInteger
  | _ => false

/-- The type of one slice along an axis. Only arrays lose a dimension. -/
def sliceAlongAxis : Ty → Ty
  | .array elt rank => arrayOf elt (rank - 1)
  | t => t

/-- The type of the array that holds one value per position of `extra` new dimensions. -/
def stack? (extra : Nat) : Ty → Option Ty
  | .scalar elt => some (.array elt extra)
  | .array elt rank => some (.array elt (rank + extra))
  | _ => Option.none

end Ty
end ArrayLang
