import ArrayLang.Typing.Annotate

/-!
# Type inference

Finds the types of a function's variables and of its result: the least types that hold every value
assigned or returned. The statements are walked again until no type changes, and a type that keeps
widening is an error.
-/

namespace ArrayLang

/-- What inference has found so far. -/
structure InferState where
  env : TypeEnv
  returned? : Option Ty
  /-- How often a type has changed. -/
  version : Nat

/-- The types of a function's variables and of its result. -/
structure Inference where
  env : TypeEnv
  returnType : Ty

/-- A walk through statements. -/
abbrev Infer := StateT InferState Typing

namespace Infer

/-- How many passes may follow a pass that changed a type. -/
def maxPasses : Nat := 32

/-- Widens the type of a variable to hold a value of type `ty`. -/
def bindVar (name : String) (ty : Ty) : Infer Unit := do
  match (← get).env.find? name with
  | none => modify fun s => { s with env := s.env.insert name ty, version := s.version + 1 }
  | some known =>
    let joined ← Typing.require (.conflicting name known ty) (known.join? ty)
    if joined ≠ known then
      modify fun s => { s with env := s.env.insert name joined, version := s.version + 1 }

/-- Widens the type of the result to hold a value of type `ty`. -/
def bindReturn (ty : Ty) : Infer Unit := do
  match (← get).returned? with
  | none => modify fun s => { s with returned? := some ty, version := s.version + 1 }
  | some known =>
    let joined ← Typing.require (.conflicting "<return>" known ty) (known.join? ty)
    if joined ≠ known then
      modify fun s => { s with returned? := some joined, version := s.version + 1 }

/-- Makes a pass and says whether it changed a type. -/
def changes (pass : Infer Unit) : Infer Bool := do
  let before := (← get).version
  pass
  return (← get).version ≠ before

/-- Repeats a pass until it changes no type, at most as often as given after the first. -/
def settle (name : String) (pass : Infer Unit) : Nat → Infer Unit
  | 0 => do if ← changes pass then Typing.fail (.noFixedPoint name)
  | more + 1 => do if ← changes pass then settle name pass more

section
variable (specialize : Specializer)

/-- Types an expression under the types found so far. -/
def annotated (e : Expr) : Infer Expr := do
  annotate specialize (← get).env e

/-- The type of an expression under the types found so far. -/
def typed (e : Expr) : Infer Ty := do
  Typing.typeOf (← annotated specialize e)

mutual
/-- Widens the variables of a target to hold a value of type `ty`. A part of an array is not
rebound, but it has to make sense. -/
def bindTarget : Expr → Ty → Infer Unit
  | ⟨.var name, _⟩, ty => bindVar name ty
  | ⟨.tuple targets, _⟩, ty => do
    let refused := TypingError.incompatible (.tuple (List.replicate targets.length .none)) ty
    match ty with
    | .tuple types =>
      if types.length = targets.length then bindTargets targets types
      else Typing.fail refused
    | _ => Typing.fail refused
  | ⟨.index base index, ty?⟩, _ => do
    let _ ← annotated specialize ⟨.index base index, ty?⟩
  | _, _ => Typing.fail .badTarget
termination_by structural target => target

def bindTargets : List Expr → List Ty → Infer Unit
  | target :: targets, ty :: types => do
    bindTarget target ty
    bindTargets targets types
  | _, _ => return
termination_by structural targets => targets
end

/-- Widens reconciled variables to hold the values of one side. -/
def bindSide (side : Phi → Expr) (merge : List Phi) : Infer Unit :=
  merge.forM fun phi => do bindVar phi.name (← typed specialize (side phi))

mutual
/-- Walks a statement once, and a loop until it settles. -/
def inferStmt : Stmt → Infer Unit
  | .assign target value => do bindTarget specialize target (← typed specialize value)
  | .ret value => do bindReturn (← typed specialize value)
  | .branch cond onTrue onFalse merge => do
    let _ ← annotated specialize cond
    inferBlock onTrue
    inferBlock onFalse
    merge.forM fun phi => do
      let left ← typed specialize phi.left
      let right ← typed specialize phi.right
      bindVar phi.name left
      bindVar phi.name right
  | .loop cond body merge => do
    bindSide specialize Phi.left merge
    settle ((merge.head?.map (·.name)).getD "") (do
      let _ ← annotated specialize cond
      inferBlock body
      bindSide specialize Phi.right merge) maxPasses
termination_by structural s => s

def inferBlock : List Stmt → Infer Unit
  | [] => return
  | s :: ss => do
    inferStmt s
    inferBlock ss
termination_by structural ss => ss
end

end
end Infer

/-- The types of a function's variables and of its result, for the given types of its parameters. A
function that never returns has no value. -/
def inferFn (specialize : Specializer) (func : FnDecl) (params : List (String × Ty)) :
    Typing Inference := do
  let start : InferState := ⟨.ofList params, none, 0⟩
  let ((), found) ←
    (Infer.settle func.name (Infer.inferBlock specialize func.body) Infer.maxPasses).run start
  return ⟨found.env, found.returned?.getD .none⟩

end ArrayLang
