import ArrayLang.Interpreter.Evaluation
import ArrayLang.Proofs.Run

/-!
# The points of a run

A run of a function visits points: before each statement, where variables are reconciled, before each
test of a loop, and where a block ends. A walk says that a property holds at every point that a piece
of code visits, given the variables and the state it starts from. Nothing is said of points that are
not reached because the code fails or returns before.
-/

namespace ArrayLang.Interpreter

/-- What comes next at a point of a run. -/
inductive Point where
  | stmt (next : Stmt)
  | merge (side : Phi → Expr) (merge : List Phi)
  | test
  | done

/-- A property of points, of the variables and of the state there. -/
abbrev AtPoint := Point → Env → State Session → Prop

/-- Whether a property holds at every point that a piece of code visits. -/
abbrev Walk := AtPoint → Env → State Session → Prop

namespace Walk

/-- The walk of a single point. -/
def here (point : Point) : Walk :=
  fun P env σ => P point env σ

/-- The walk that starts at a point. -/
def startAt (point : Point) (w : Walk) : Walk :=
  fun P env σ => P point env σ ∧ w P env σ

/-- One walk after the other, if control goes on. -/
def andThen (w : Walk) (run : Env → Eval Flow) (w' : Walk) : Walk :=
  fun P env σ => w P env σ
    ∧ ∀ env' σ', Run.exec (run env) σ = (.ok (.next env'), σ') → w' P env' σ'

/-- The walk that a test chooses. -/
def branch (test : Env → Eval Bool) (w w' : Walk) : Walk :=
  fun P env σ => ∀ b σ', Run.exec (test env) σ = (.ok b, σ') →
    if b then w P env σ' else w' P env σ'

/-- The walk through the passes of a loop. -/
def loop (test : Env → Eval Bool) (pass : Env → Eval Flow) (w : Walk) : Nat → Walk
  | 0 => fun _ _ _ => True
  | fuel + 1 => startAt .test (branch test (w.andThen pass (loop test pass w fuel)) (here .done))

/-- Two properties that hold at all points hold together. -/
def Joint (w : Walk) : Prop :=
  ∀ P Q R : AtPoint, (∀ point env σ, P point env σ → Q point env σ → R point env σ) →
    ∀ env σ, w P env σ → w Q env σ → w R env σ

/-- The property may be weakened. -/
def Mono (w : Walk) : Prop :=
  ∀ P Q : AtPoint, (∀ point env σ, P point env σ → Q point env σ) → ∀ env σ, w P env σ → w Q env σ

namespace Joint

variable {w w' : Walk}

theorem mono (hw : w.Joint) : w.Mono :=
  fun P Q h env σ hP => hw P P Q (fun point env σ hP _ => h point env σ hP) env σ hP hP

theorem here (point : Point) : Joint (.here point) :=
  fun _ _ _ h env σ => h point env σ

theorem startAt (point : Point) (hw : w.Joint) : (w.startAt point).Joint :=
  fun P Q R h env σ hP hQ => ⟨h point env σ hP.1 hQ.1, hw P Q R h env σ hP.2 hQ.2⟩

theorem andThen {run : Env → Eval Flow} (hw : w.Joint) (hw' : w'.Joint) : (w.andThen run w').Joint :=
  fun P Q R h env σ hP hQ => ⟨hw P Q R h env σ hP.1 hQ.1, fun env' σ' hrun =>
    hw' P Q R h env' σ' (hP.2 env' σ' hrun) (hQ.2 env' σ' hrun)⟩

theorem branch {test : Env → Eval Bool} (hw : w.Joint) (hw' : w'.Joint) :
    (Walk.branch test w w').Joint := by
  intro P Q R h env σ hP hQ b σ' htest
  have hP := hP b σ' htest
  have hQ := hQ b σ' htest
  cases b with
  | true => exact hw P Q R h env σ' hP hQ
  | false => exact hw' P Q R h env σ' hP hQ

theorem loop {test : Env → Eval Bool} {pass : Env → Eval Flow} (hw : w.Joint) (fuel : Nat) :
    (Walk.loop test pass w fuel).Joint := by
  induction fuel with
  | zero => exact fun _ _ _ _ _ _ _ _ => trivial
  | succ fuel ih => exact ((hw.andThen ih).branch (.here _)).startAt _

end Joint
end Walk

/-! ## Statements -/

section
variable (apply : Apply) (trace : Trace) (fuel : Nat)

/-- Reconciling the variables where paths meet, as a step of control. -/
def reconcile (side : Phi → Expr) (merge : List Phi) (env : Env) : Eval Flow := do
  return .next (← bindMerge apply trace side merge env)

/-- What runs a block of a conditional and then reconciles the variables. -/
def runArm (side : Phi → Expr) (block : Block) (merge : List Phi) (env : Env) : Eval Flow := do
  match ← runBlock apply trace fuel block env with
  | .ret value => return .ret value
  | .next env => reconcile apply trace side merge env

/-- The points of a block and of the reconciliation after it. -/
def armWalk (side : Phi → Expr) (block : Block) (merge : List Phi) (w : Walk) : Walk :=
  w.andThen (runBlock apply trace fuel block) (.here (.merge side merge))

mutual
/-- The points of a statement. -/
def stmtWalk : Stmt → Walk
  | .assign target value => .here (.stmt (.assign target value))
  | .ret value => .here (.stmt (.ret value))
  | .branch cond onTrue onFalse merge =>
    .startAt (.stmt (.branch cond onTrue onFalse merge)) <| .branch (evalCond apply trace cond)
      (armWalk apply trace fuel Phi.left onTrue merge (blockWalk onTrue))
      (armWalk apply trace fuel Phi.right onFalse merge (blockWalk onFalse))
  | .loop cond body merge =>
    .startAt (.stmt (.loop cond body merge)) <|
      (Walk.here (.merge Phi.left merge)).andThen (reconcile apply trace Phi.left merge) <|
        .loop (evalCond apply trace cond) (runArm apply trace fuel Phi.right body merge)
          (armWalk apply trace fuel Phi.right body merge (blockWalk body)) fuel
termination_by structural s => s

/-- The points of a block. -/
def blockWalk : List Stmt → Walk
  | [] => .here .done
  | s :: ss => (stmtWalk s).andThen (runStmt apply trace fuel s) (blockWalk ss)
termination_by structural ss => ss
end

mutual
theorem stmtWalk_joint : ∀ s : Stmt, (stmtWalk apply trace fuel s).Joint
  | .assign _ _ => .here _
  | .ret _ => .here _
  | .branch _ onTrue onFalse _ => .startAt _
    (((blockWalk_joint onTrue).andThen (.here _)).branch ((blockWalk_joint onFalse).andThen (.here _)))
  | .loop _ body _ =>
    .startAt _ ((Walk.Joint.here _).andThen (((blockWalk_joint body).andThen (.here _)).loop fuel))
termination_by structural s => s

theorem blockWalk_joint : ∀ ss : List Stmt, (blockWalk apply trace fuel ss).Joint
  | [] => .here _
  | s :: ss => (stmtWalk_joint s).andThen (blockWalk_joint ss)
termination_by structural ss => ss
end

theorem blockWalk_mono (ss : List Stmt) : (blockWalk apply trace fuel ss).Mono :=
  (blockWalk_joint apply trace fuel ss).mono

variable {apply trace fuel} {P : AtPoint} {env env' : Env} {σ σ' : State Session}

/-- The points of a block begin where it starts. -/
theorem blockWalk_start {ss : List Stmt} (h : blockWalk apply trace fuel ss P env σ) :
    ∃ point, P point env σ := by
  match ss with
  | [] => exact ⟨_, h⟩
  | .assign _ _ :: _ => exact ⟨_, h.1⟩
  | .ret _ :: _ => exact ⟨_, h.1⟩
  | .branch _ _ _ _ :: _ => exact ⟨_, h.1.1⟩
  | .loop _ _ _ :: _ => exact ⟨_, h.1.1⟩

/-- The points after some statements of a block are those of the rest. -/
theorem blockWalk_append {ss ss' : List Stmt} (h : blockWalk apply trace fuel (ss ++ ss') P env σ)
    (hrun : Run.exec (runBlock apply trace fuel ss env) σ = (.ok (.next env'), σ')) :
    blockWalk apply trace fuel ss' P env' σ' := by
  induction ss generalizing env σ with
  | nil =>
    cases hrun
    exact h
  | cons s ss ih =>
    obtain ⟨flow, σ₁, hflow, hrun⟩ := Run.exec_bind_eq_ok hrun
    cases flow with
    | ret value => cases hrun
    | next env₁ => exact ih (h.2 env₁ σ₁ hflow) hrun

end
end ArrayLang.Interpreter
