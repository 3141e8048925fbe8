import ArrayLang.Interpreter.Evaluation
import ArrayLang.Pipeline.Error

/-!
# Backends

A backend makes something that can be called of a specialized function, or refuses it.
-/

namespace ArrayLang

/-- A function as a backend made it. -/
structure Compiled where
  call : List Value → Eval Value
  returnType : Ty

/-- What a backend makes of the functions of a session. -/
abbrev Backend := Session → TypedFn → Except BackendError Compiled

namespace Backend

/-- Keeps the specialized code and runs it in the reference interpreter. -/
def interpreter (fuel : Nat) : Backend := fun _ func =>
  .ok ⟨Interpreter.callTyped fuel func, func.returnType⟩

/-- Refuses every function. -/
def refusing (reason : String) : Backend := fun _ func =>
  .error (.unsupported func.name reason)

end Backend
end ArrayLang
