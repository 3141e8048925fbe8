import ArrayLang.Artifact
import ArrayLang.Interpreter.Fault
import ArrayLang.SymbolicShape.Evaluation
import ArrayLang.Typing.Check
import ArrayLang.Typing.Error

/-!
# Failures of a run

A run fails with an error that is reported to whoever asked for it. A defect is a fault of the
code that runs were given or that passes made, and stops everything.
-/

namespace ArrayLang

/-- Why a backend fails. -/
inductive BackendError where
  | unsupported (func reason : String)
  | runtime (kind : Fault) (trace : Trace)
deriving DecidableEq

/-- The text of a fault with its trace. -/
def Fault.report (kind : Fault) (trace : Trace) : String :=
  kind.message ++ "\n" ++ trace.text

def BackendError.message : BackendError → String
  | .unsupported func reason => "backend cannot lower " ++ func ++ ": " ++ reason
  | .runtime kind trace => kind.report trace

inductive PipelineError where
  | unknownFunction (name : String)
  | bind (cause : BindError)
  | convert (cause : ConvertError)
  | untypedArgument (func : String) (index : Nat)
  | specialize (func : String) (cause : TypingError)
  | execute (kind : Fault) (trace : Trace)
  | backend (cause : BackendError)
  | writeArtifact (cause : FileError)
  | shapeMismatch (func : String) (expected found : ShapeValue)

namespace PipelineError

/-- What an error says, on one line or, where it holds a trace, on several. -/
def message : PipelineError → String
  | unknownFunction name => "No function named '" ++ name ++ "' is registered"
  | bind cause => "Could not bind arguments: " ++ cause.message
  | convert cause => "Could not translate argument: " ++ cause.message
  | untypedArgument func index =>
    "Argument " ++ toString index ++ " of " ++ func ++ " has no static type, so " ++ func
      ++ " cannot be specialized"
  | specialize func cause => "Cannot specialize " ++ func ++ ": " ++ cause.message
  | execute kind trace => "Runtime error: " ++ kind.report trace
  | backend cause => "Backend error: " ++ cause.message
  | writeArtifact cause => "Could not write intermediate representation: " ++ cause.message
  | shapeMismatch func expected found =>
    "Result of " ++ func ++ " has shape " ++ found.text ++ ", but its inferred shape is "
      ++ expected.text

/-- The report of an error, which ends its last line. -/
def report (e : PipelineError) : String :=
  e.message ++ "\n"

/-- Every error ends the process with the same status. -/
def exitStatus : PipelineError → Nat
  | _ => 1

/-- Whether the function cannot be specialized, so that its source may run instead. -/
def isUnspecializable : PipelineError → Bool
  | specialize _ _ => true
  | untypedArgument _ _ => true
  | _ => false

end PipelineError

/-- A fault of the code itself. -/
inductive Defect where
  | illTyped (func : String) (violation : Violation)
  /-- Code that should be specialized has a node without a type. -/
  | untyped
  /-- A symbolic shape that stands for no shape. -/
  | shape (cause : ShapeEvalError)
deriving DecidableEq

def Defect.message : Defect → String
  | .illTyped func violation => violation.message func
  | .untyped => Violation.untypedTarget.message ""
  | .shape cause => cause.message

/-- Why a pipeline stops. -/
inductive PipelineStop where
  | error (cause : PipelineError)
  | defect (cause : Defect)
  | outOfFuel

end ArrayLang
