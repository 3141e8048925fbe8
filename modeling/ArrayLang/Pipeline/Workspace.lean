import ArrayLang.Pipeline.Error
import ArrayLang.Run

/-!
# Workspaces

What a pipeline works on: a session, and the files that artifacts are written to. What was done up
to a failure is kept.
-/

namespace ArrayLang

structure Workspace where
  session : Session
  files : Files

/-- A computation of the pipeline. -/
abbrev Pipeline := Run Workspace PipelineStop

namespace Pipeline

variable {ε α : Type}

/-- Stops with an error. -/
def fail (cause : PipelineError) : Pipeline α :=
  throw (.error cause)

/-- The current session. -/
def getSession : Pipeline Session := do
  return (← get).context.session

/-- An operation on the session. -/
def onSession (f : Session → α × Session) : Pipeline α :=
  Run.onContext fun w => let (a, session) := f w.session; (a, { w with session })

/-- A computation that sees the session and the store. -/
def running (raise : ε → PipelineStop) (x : Run Session ε α) : Pipeline α :=
  (x.zoom Workspace.session fun session w => { w with session }).mapError raise

/-- Runs code. What stops it is reported as `report` says. -/
def executing (report : Fault → Trace → PipelineError) (x : Eval α) : Pipeline α :=
  running (fun
    | .fault kind trace => .error (report kind trace)
    | .outOfFuel => .outOfFuel) x

/-- Specializes a function. -/
def typing (func : String) (x : Typing α) : Pipeline α := do
  match ← onSession fun session => x.run session with
  | .ok a => return a
  | .error (.error cause) => fail (.specialize func cause)
  | .error .untyped => throw (.defect .untyped)
  | .error .outOfFuel => throw .outOfFuel

/-- The source function of a name. -/
def source (name : String) : Pipeline FnDecl := do
  match (← getSession).sources.find? name with
  | some func => return func
  | none => fail (.unknownFunction name)

/-- Binds positional arguments to the parameters of a named source function. -/
def bindTo [Bindable α] (name : String) (args : List α) : Pipeline (List (String × α)) := do
  let func ← source name
  Run.ofExcept (fun cause => .error (.bind cause))
    (bindArgs name func.params func.nonlocals args [])

end Pipeline
end ArrayLang
