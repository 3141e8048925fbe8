import ArrayLang.Syntax.Equality
import ArrayLang.Value

/-!
# Sessions

What is known while programs run and are specialized: source functions, their specializations, and
the conversions of host functions. Nothing that was recorded is forgotten; the first definition of
a name and the first conversion of a host function stay.
-/

namespace ArrayLang

/-- Why a host function cannot be converted. -/
inductive ConvertError where
  | noConverter (name : String)
  | unsupported (name reason : String)
deriving DecidableEq

def ConvertError.message : ConvertError → String
  | .noConverter name =>
    "no translator is installed, so host function " ++ name ++ " cannot be called"
  | .unsupported name reason => "could not translate host function " ++ name ++ ": " ++ reason

/-- Turns host functions, given by name and captured values, into source functions. A converter may
learn from what it is asked, so its answer also depends on how often it was asked before. -/
abbrev Converter :=
  (asked : Nat) → (name : String) → (captured : List Value) → Except ConvertError FnDecl

/-- Looks host functions up in a table by their names. -/
def Converter.ofTable (table : List (String × FnDecl)) : Converter := fun _ name _ =>
  match table.lookup name with
  | some decl => .ok decl
  | none => .error (.unsupported name "not in the table")

/-- A function's name and the types of its parameters, which identify one specialization. -/
abbrev Signature := String × List Ty

structure Session where
  /-- Source functions. -/
  sources : NameMap FnDecl
  /-- Specialized functions. -/
  typed : NameMap TypedFn
  /-- The names under which signatures were specialized, latest first. -/
  specializations : List (Signature × String)
  /-- The signatures being specialized, innermost first. -/
  inProgress : List Signature
  /-- How many host functions were made. -/
  hostCount : Nat
  /-- Source functions of the host functions that were converted, by identity. -/
  conversions : List (Nat × FnDecl)
  converter? : Option Converter
  /-- The host functions that the converter was asked for, by identity, latest first. -/
  requests : List Nat

namespace Session

/-- How often the converter was asked. -/
def consultations (s : Session) : Nat :=
  s.requests.length

/-- A session that knows nothing yet. -/
def new (converter? : Option Converter) : Session where
  sources := ∅
  typed := ∅
  specializations := []
  inProgress := []
  hostCount := 0
  conversions := []
  converter?
  requests := []

/-- Records a source function unless its name is taken, and returns the definition of the name. -/
def register (s : Session) (decl : FnDecl) : FnDecl × Session :=
  match s.sources.find? decl.name with
  | some known => (known, s)
  | none => (decl, { s with sources := s.sources.insert decl.name decl })

/-- A session with the given source functions. -/
def ofSources (converter? : Option Converter) (decls : List FnDecl) : Session :=
  decls.foldl (fun s decl => (s.register decl).2) (new converter?)

/-- Records a specialized function, in place of one with its name. -/
def insertTyped (s : Session) (func : TypedFn) : Session :=
  { s with typed := s.typed.insert func.name func }

/-! ## Specializations -/

/-- The function recorded for a signature. -/
def specialization? (s : Session) (key : Signature) : Option TypedFn := do
  let name ← s.specializations.lookup key
  s.typed.find? name

/-- Records the function of a signature. -/
def recordSpecialization (s : Session) (key : Signature) (func : TypedFn) : Session :=
  let s := s.insertTyped func
  { s with specializations := (key, func.name) :: s.specializations }

/-- Marks a signature as being specialized. -/
def beginSpecialization (s : Session) (key : Signature) : Session :=
  { s with inProgress := key :: s.inProgress }

/-- Unmarks a signature. -/
def endSpecialization (s : Session) (key : Signature) : Session :=
  { s with inProgress := s.inProgress.filter (· ≠ key) }

/-! ## Host functions -/

/-- Makes a host function with an identity of its own. -/
def hostFunction (s : Session) (name : String) (captured : List Value) : Value × Session :=
  (.host s.hostCount name captured, { s with hostCount := s.hostCount + 1 })

/-- The source function of a host function, asking the converter the first time only. -/
def convert (s : Session) (id : Nat) (name : String) (captured : List Value) :
    Except ConvertError FnDecl × Session :=
  match s.conversions.lookup id with
  | some decl => (.ok decl, s)
  | none =>
    match s.converter? with
    | none => (.error (.noConverter name), s)
    | some converter =>
      let asked := s.consultations
      let s := { s with requests := id :: s.requests }
      match converter asked name captured with
      | .error e => (.error e, s)
      | .ok decl =>
        let (kept, s) := s.register decl
        (.ok kept, { s with conversions := (id, kept) :: s.conversions })

end Session
end ArrayLang
