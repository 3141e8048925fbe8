import ArrayLang.Artifact

/-!
# Options of a run
-/

namespace ArrayLang

/-- How specialized code is executed. -/
inductive ExecutionMode where
  | interpret
  /-- By what a backend makes of it. -/
  | compile
deriving DecidableEq

/-- What becomes of a function that cannot be specialized for its arguments. -/
inductive Fallback where
  /-- Its source is interpreted. -/
  | interpret
  /-- The run fails. -/
  | fail
deriving DecidableEq

structure RunOptions where
  mode : ExecutionMode := .interpret
  copyElimination : Bool := true
  /-- Specialized code is checked after every pass. -/
  verifyTypes : Bool := true
  /-- The shape of a result is compared with the inferred one. -/
  checkShapes : Bool := false
  fallback : Fallback := .interpret
  /-- Where specialized code is written, if anywhere. -/
  artifactDir? : Option ArtifactDir := none

end ArrayLang
