import ArrayLang.CopyElimination
import ArrayLang.Pipeline.Options
import ArrayLang.Pipeline.Workspace
import ArrayLang.Syntax.Printer
import ArrayLang.Typing.Specialization

/-!
# Passes

A function is specialized, and then the passes that the options ask for are run on every specialized
function of the session. The code is written out before and after them.
-/

namespace ArrayLang.Pipeline

/-- Checks every specialized function of the session. The first that is ill-typed is a defect. -/
def verifyTypes : Pipeline Unit := do
  (← getSession).typed.values.forM fun func =>
    match func.check with
    | .ok () => return
    | .error violation => throw (.defect (.illTyped func.name violation))

/-- The text of every specialized function, in order of their names. -/
def typedText (session : Session) : String :=
  String.join (session.typed.values.map TypedFn.text)

/-- Writes all specialized code to the artifact with an extension, if artifacts are asked for. -/
def writeArtifact (options : RunOptions) (ext : String) : Pipeline Unit := do
  match options.artifactDir? with
  | none => return
  | some dir =>
    let w := (← get).context
    let files ← Run.ofExcept (fun cause => .error (.writeArtifact cause))
      (w.files.write (dir.path ext) (typedText w.session))
    Run.onContext fun w => ((), { w with files })

/-- Specializes a function for the types of its bound parameters and runs the passes. The result is
the function as the passes left it. -/
def specializeAndOptimize (fuel : Nat) (options : RunOptions) (name : String)
    (params : List (String × Ty)) : Pipeline TypedFn := do
  let func ← source name
  let typed ← typing name (specializeBound fuel func params)
  if options.verifyTypes then verifyTypes
  writeArtifact options "typed"
  if options.copyElimination then
    onSession fun session => ((), session.eliminateCopies)
    if options.verifyTypes then verifyTypes
  writeArtifact options "optimized"
  return ((← getSession).typed.find? typed.name).getD typed

end ArrayLang.Pipeline
