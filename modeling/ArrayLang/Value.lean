import ArrayLang.Array.View
import ArrayLang.Binding
import ArrayLang.Syntax.Basic

/-!
# Values

The values of running code, with their types, their text and their equality. What depends on the
elements of arrays takes the store.
-/

namespace ArrayLang

/-- A function that a closure calls, as it was when the closure was made. -/
inductive FnDef where
  | source (decl : FnDecl)
  | typed (func : TypedFn)

def FnDef.name : FnDef → String
  | .source decl => decl.name
  | .typed func => func.name

/-- A value. A host function belongs to the embedding program; its captured values are those of the
nonlocals of its source. -/
inductive Value where
  | none
  | scalar (value : Scalar)
  | array (view : View)
  | tuple (items : List Value)
  | struct (name : String) (fields : List (String × Value))
  | slice (slice : Slice)
  | closure (func : FnDef) (fixed : List Value)
  | op (op : Operator)
  | host (id : Nat) (name : String) (captured : List Value)

instance : Inhabited Value := ⟨.none⟩

namespace Value

def int (n : Int64) : Value := .scalar (.int n)

/-- A length as a value. -/
def ofNat (n : Nat) : Value := int (Int64.ofNat n)

/-- An optional integer as a value. -/
def ofInt? : Option Int64 → Value
  | some n => int n
  | Option.none => none

def ofLiteral : Literal → Value
  | .none => none
  | .bool b => scalar (.bool b)
  | .int n => scalar (.int n)
  | .float x => scalar (.float x)

instance : Bindable Value := ⟨ofLiteral, tuple⟩

/-- A selected view as a value: a view without axes is the scalar it points at. -/
def ofView (s : Store) (v : View) : Value :=
  if v.rank = 0 then scalar (v.get s []) else array v

def shape : Value → List Nat
  | array v => v.shape
  | _ => []

def isScalar : Value → Bool
  | scalar _ => true
  | _ => false

def isArray : Value → Bool
  | array _ => true
  | _ => false

/-! ## Types -/

/-- The type of a part of a slice. -/
def slicePartTy : Option Int64 → Ty
  | some _ => .int64
  | Option.none => .none

mutual
/-- The type a specialization for this value is made for. Operators and host functions have none. -/
def ty? : Value → Option Ty
  | none => some .none
  | scalar s => some (.scalar s.naturalType)
  | array v => some (.array v.elt v.rank)
  | tuple items => (tys? items).map .tuple
  | struct name fields => (fieldTys? fields).map (.struct name)
  | slice s => some (.slice (slicePartTy s.start?) (slicePartTy s.stop?) (slicePartTy s.step?))
  | closure func fixed => (tys? fixed).map (.closure func.name)
  | op _ => Option.none
  | host _ _ _ => Option.none
termination_by structural v => v

/-- The types of several values, if all have one. -/
def tys? : List Value → Option (List Ty)
  | [] => some []
  | v :: vs =>
    match v.ty?, tys? vs with
    | some t, some ts => some (t :: ts)
    | _, _ => Option.none
termination_by structural vs => vs

/-- The types of named values, if all have one. -/
def fieldTys? : List (String × Value) → Option (List (String × Ty))
  | [] => some []
  | (name, v) :: vs =>
    match v.ty?, fieldTys? vs with
    | some t, some ts => some ((name, t) :: ts)
    | _, _ => Option.none
termination_by structural vs => vs
end

/-! ## Text -/

/-- Nested brackets around the cells of a shape. -/
def nestedText (cell : List Nat → String) : List Nat → String
  | [] => cell []
  | dim :: dims =>
    "[" ++ ", ".intercalate
      ((List.range dim).map fun i => nestedText (fun index => cell (i :: index)) dims) ++ "]"

/-- The text of a slice's part, empty if it is left out. -/
def slicePartText : Option Int64 → String
  | some n => toString n.toInt
  | Option.none => ""

mutual
/-- The text of a value. -/
def text (s : Store) : Value → String
  | none => "None"
  | scalar x => x.text
  | array v => nestedText (fun index => (v.get s index).text) v.shape
  | tuple items => "(" ++ ", ".intercalate (texts s items) ++ ")"
  | struct name fields => name ++ " \x7b" ++ ",".intercalate (fieldTexts s fields) ++ " \x7d"
  | slice x =>
    slicePartText x.start? ++ ":" ++ slicePartText x.stop? ++ ":" ++ slicePartText x.step?
  | closure func _ => "<closure " ++ func.name ++ ">"
  | op o => "<prim " ++ o.name ++ ">"
  | host _ name _ => "<host function " ++ name ++ ">"
termination_by structural v => v

/-- The texts of several values. -/
def texts (s : Store) : List Value → List String
  | [] => []
  | v :: vs => v.text s :: texts s vs
termination_by structural vs => vs

/-- The texts of the fields of a struct. -/
def fieldTexts (s : Store) : List (String × Value) → List String
  | [] => []
  | (name, v) :: vs => (" " ++ name ++ ": " ++ v.text s) :: fieldTexts s vs
termination_by structural vs => vs
end

/-- The text of a list of arguments. -/
def listText (s : Store) (values : List Value) : String :=
  "(" ++ ", ".intercalate (texts s values) ++ ")"

/-! ## Equality -/

mutual
/-- Whether two values are equal: arrays by shape and elements, host functions by identity, closures
by the name of their function and their captured values. -/
def same (s : Store) : Value → Value → Bool
  | none, none => true
  | scalar a, scalar b => a.same b
  | array a, array b => a.same b s
  | tuple as, tuple bs => sameList s as bs
  | struct n as, struct m bs => n = m && sameFields s as bs
  | slice a, slice b => a = b
  | op a, op b => a = b
  | host i _ _, host j _ _ => i = j
  | closure f as, closure g bs => f.name = g.name && sameList s as bs
  | _, _ => false
termination_by structural v => v

def sameList (s : Store) : List Value → List Value → Bool
  | [], [] => true
  | a :: as, b :: bs => a.same s b && sameList s as bs
  | _, _ => false
termination_by structural vs => vs

def sameFields (s : Store) : List (String × Value) → List (String × Value) → Bool
  | [], [] => true
  | (n, a) :: as, (m, b) :: bs => n = m && a.same s b && sameFields s as bs
  | _, _ => false
termination_by structural vs => vs
end

end Value
end ArrayLang
