import ArrayLang.Dataflow.Alias
import ArrayLang.Proofs.Interpreter.Sources
import Mathlib.Control.Monad.Writer

/-!
# Itineraries

The interpreter, with a log of the program points that a run visits and of the definitions that it makes.
Apart from the log it is the interpreter: what it computes is what the interpreter computes, from every
state. An itinerary covers the code of one function; the calls that this code makes do not show in it.

## Main results

- `erase_followCall`: without its log, a call that is followed is a call.
- `assign_yields`: an assignment defines the variables of its target, and nothing else.
-/

namespace ArrayLang

/-- A point that a run visits: a statement as such, or a numbered part of it. -/
structure Visit where
  path : Path
  stmt : Stmt
  part? : Option Nat
  /-- The variables there. -/
  env : Env

/-- The program point that is visited. -/
def Visit.point (v : Visit) : Path :=
  v.path ++ v.part?.toList

/-- What is recorded of a run. -/
inductive Event where
  | visit (v : Visit)
  /-- A variable gets a value, at a program point. -/
  | define (point : Path) (name : String) (value : Value)

/-- The points that are visited, in order. -/
def visits (events : List Event) : List Visit :=
  events.filterMap fun
    | .visit v => some v
    | .define _ _ _ => none

/-- Where a variable is defined and the values it gets, in order. -/
def definitions (name : String) : List Event → List (Path × Value)
  | [] => []
  | .visit _ :: es => definitions name es
  | .define point other value :: es =>
    if other = name then (point, value) :: definitions name es else definitions name es

namespace Interpreter

/-- A computation with a log. -/
abbrev Logged := ExceptT Stop (WriterT (List Event) (StateM (State Session)))

namespace Logged

variable {α β : Type}

/-- A computation that logs nothing. -/
def silent (x : Eval α) : Logged α :=
  ExceptT.mk (WriterT.mk fun σ => (((Run.exec x σ).1, []), (Run.exec x σ).2))

/-- Logs a point that is visited. -/
def visit (v : Visit) : Logged Unit :=
  ExceptT.lift (tell [.visit v])

/-- Gives values to variables at a program point. -/
def define (point : Path) (bindings : List (String × Value)) (env : Env) : Logged Env := do
  let events := bindings.map fun (name, value) => Event.define point name value
  ExceptT.lift (tell events)
  return env.insertAll bindings

/-- The outcome of a computation, its log, and the state that it leaves behind. -/
def follow (x : Logged α) (σ : State Session) : (Except Stop α × List Event) × State Session :=
  x.run.run.run σ

/-- The log of a computation, from a state on. -/
def events (x : Logged α) (σ : State Session) : List Event :=
  (follow x σ).1.2

/-- A computation without its log. -/
def erase (x : Logged α) : Eval α :=
  ExceptT.mk fun σ => ((follow x σ).1.1, (follow x σ).2)

theorem follow_bind (x : Logged α) (f : α → Logged β) (σ : State Session) :
    follow (x >>= f) σ = match follow x σ with
      | ((.ok a, log), σ') => (((follow (f a) σ').1.1, log ++ (follow (f a) σ').1.2), (follow (f a) σ').2)
      | ((.error e, log), σ') => ((.error e, log ++ []), σ') := by
  have h : follow (x >>= f) σ = match follow x σ with
      | ((r, log), σ') => match follow (ExceptT.mk (ExceptT.bindCont f r)) σ' with
        | ((r', log'), σ'') => ((r', log ++ log'), σ'') := rfl
  rw [h]
  cases follow x σ with
  | mk rl σ' =>
    obtain ⟨r, log⟩ := rl
    cases r <;> rfl

theorem exec_erase (x : Logged α) (σ : State Session) :
    Run.exec (erase x) σ = ((follow x σ).1.1, (follow x σ).2) :=
  rfl

theorem events_bind (x : Logged α) (f : α → Logged β) (σ : State Session) :
    events (x >>= f) σ = events x σ ++ match Run.exec (erase x) σ with
      | (.ok a, σ') => events (f a) σ'
      | (.error _, _) => [] := by
  rw [events, events, exec_erase, follow_bind]
  cases h : follow x σ with
  | mk rl σ' =>
    obtain ⟨r, log⟩ := rl
    cases r <;> rfl

theorem erase_bind (x : Logged α) (f : α → Logged β) :
    erase (x >>= f) = erase x >>= fun a => erase (f a) := by
  refine Run.eq_of_exec fun σ => ?_
  rw [Run.exec_bind, exec_erase, exec_erase, follow_bind]
  cases h : follow x σ with
  | mk rl σ' =>
    obtain ⟨r, log⟩ := rl
    cases r <;> rfl

/-- What is done with the result need not be logged. -/
theorem events_bind_quiet {x : Logged α} {f : α → Logged β} (h : ∀ a σ, events (f a) σ = [])
    (σ : State Session) : events (x >>= f) σ = events x σ := by
  rw [events_bind]
  cases Run.exec (erase x) σ with
  | mk r σ' =>
    cases r with
    | error e => exact List.append_nil _
    | ok a =>
      dsimp only
      rw [h, List.append_nil]

theorem events_visit_bind (v : Visit) (f : Unit → Logged β) (σ : State Session) :
    events (visit v >>= f) σ = .visit v :: events (f ()) σ :=
  events_bind (visit v) f σ

theorem erase_visit_bind (v : Visit) (f : Unit → Logged β) :
    erase (visit v >>= f) = erase (f ()) :=
  erase_bind (visit v) f

theorem events_silent_bind (x : Eval α) (f : α → Logged β) (σ : State Session) :
    events (silent x >>= f) σ = match Run.exec x σ with
      | (.ok a, σ') => events (f a) σ'
      | (.error _, _) => [] :=
  events_bind (silent x) f σ

@[simp] theorem erase_silent (x : Eval α) : erase (silent x) = x :=
  rfl

@[simp] theorem erase_visit (v : Visit) : erase (visit v) = pure () :=
  rfl

@[simp] theorem erase_define (point : Path) (bindings : List (String × Value)) (env : Env) :
    erase (define point bindings env) = pure (env.insertAll bindings) :=
  rfl

@[simp] theorem events_pure (a : α) (σ : State Session) : events (pure a) σ = [] :=
  rfl

@[simp] theorem events_define (point : Path) (bindings : List (String × Value)) (env : Env)
    (σ : State Session) :
    events (define point bindings env) σ = bindings.map fun (name, value) => .define point name value :=
  List.append_nil _

end Logged
end Interpreter

/-! ## Assignments -/

mutual
/-- What assigning a value to a target gives to variables. -/
def Expr.assigned : Expr → Value → List (String × Value)
  | ⟨.var name, _⟩, value => [(name, value)]
  | ⟨.tuple targets, _⟩, .tuple items => Expr.assignedAll targets items
  | _, _ => []
termination_by structural target => target

def Expr.assignedAll : List Expr → List Value → List (String × Value)
  | target :: targets, value :: values => target.assigned value ++ Expr.assignedAll targets values
  | _, _ => []
termination_by structural targets => targets
end

theorem NameMap.insertAll_append {α : Type} (m : NameMap α) (pairs pairs' : List (String × α)) :
    m.insertAll (pairs ++ pairs') = (m.insertAll pairs).insertAll pairs' :=
  List.foldl_append

namespace Interpreter

section
variable (apply : Apply) (trace : Trace)

mutual
/-- An assignment that succeeds gives the variables of its target their values and leaves the others. -/
theorem assign_yields {node : Node} {ty? : Option Ty} (value : Value) (env : Env) :
    Run.Yields (fun _ => True) (fun env' _ => env' = env.insertAll (Expr.assigned ⟨node, ty?⟩ value)
        ∧ (Expr.assigned ⟨node, ty?⟩ value).map (·.1) = Expr.targetVars ⟨node, ty?⟩)
      (assign apply trace ⟨node, ty?⟩ value env) := by
  cases node with
  | var name => exact .pure fun _ _ => ⟨rfl, rfl⟩
  | tuple targets =>
    cases value with
    | tuple items =>
      rw [assign]
      split
      · rename_i hlength
        exact assignAll_yields targets items env hlength
      · exact failText_yields trace _
    | _ => exact failText_yields trace _
  | index base index =>
    rw [assign]
    refine Run.Yields.bind (Q := fun _ _ => True) (fun _ _ _ _ _ => trivial) fun _ => ?_
    refine Run.Yields.bind (Q := fun _ _ => True) (fun _ _ _ _ _ => trivial) fun _ => ?_
    refine Run.Yields.bind (Q := fun _ _ => True) (fun _ _ _ _ _ => trivial) fun _ => ?_
    exact .pure fun _ _ => ⟨rfl, rfl⟩
  | _ => exact .throw _
termination_by sizeOf node

theorem assignAll_yields : ∀ (targets : List Expr) (values : List Value) (env : Env),
    values.length = targets.length →
      Run.Yields (fun _ => True) (fun env' _ => env' = env.insertAll (Expr.assignedAll targets values)
          ∧ (Expr.assignedAll targets values).map (·.1) = Expr.targetVarsList targets)
        (assignAll apply trace targets values env)
  | [], _, _, _ => .pure fun _ _ => ⟨rfl, rfl⟩
  | ⟨node, ty?⟩ :: targets, value :: values, env, h => by
    rw [assignAll]
    refine (assign_yields value env).bind fun env' => ?_
    have hrest := assignAll_yields targets values env' (Nat.succ.inj h)
    rintro σ env'' σ' ⟨rfl, hnames⟩ hx
    obtain ⟨rfl, hrest⟩ := hrest σ env'' σ' trivial hx
    rw [Expr.assignedAll, NameMap.insertAll_append, List.map_append, hnames, hrest]
    exact ⟨rfl, rfl⟩
termination_by targets => sizeOf targets
end

end

/-! ## Following a run -/

open Logged

/-- A loop with a log, from a test of its condition on. -/
def followLoop (test : Env → Logged Bool) (pass : Env → Logged Flow) : Nat → Env → Logged Flow
  | 0, _ => throw .outOfFuel
  | fuel + 1, env => do
    if ← test env then
      match ← pass env with
      | .ret value => return .ret value
      | .next env => followLoop test pass fuel env
    else return .next env

section
variable (apply : Apply) (trace : Trace)

/-- Tests the condition of a statement, which is the numbered part of it. -/
def followCond (path : Path) (s : Stmt) (part : Nat) (cond : Expr) (env : Env) : Logged Bool := do
  visit ⟨path, s, some part, env⟩
  silent (evalCond apply trace cond env)

/-- Binds the reconciled variables of a statement to one of their sides, in the numbered part of it. -/
def followMerge (path : Path) (s : Stmt) (part : Nat) (side : Phi → Expr) (merge : List Phi)
    (env : Env) : Logged Env := do
  visit ⟨path, s, some part, env⟩
  let values ← silent (evalExprs apply trace env (merge.map side))
  define (path ++ [part]) ((merge.map (·.name)).zip values) env

/-- Runs the block of a statement that is the numbered part of it, and then binds the reconciled
variables. -/
def followArm (path : Path) (s : Stmt) (part : Nat) (side : Phi → Expr) (merge : List Phi)
    (block : Env → Logged Flow) (env : Env) : Logged Flow := do
  visit ⟨path, s, some part, env⟩
  match ← block env with
  | .ret value => return .ret value
  | .next env => return .next (← followMerge apply trace path s 3 side merge env)

variable (fuel : Nat)

mutual
/-- Runs the statement at a path. -/
def followStmt (path : Path) : Stmt → Env → Logged Flow
  | .assign target value, env => do
    visit ⟨path, .assign target value, none, env⟩
    let value ← silent (evalExpr apply trace env value)
    let _ ← silent (assign apply trace target value env)
    return .next (← define path (target.assigned value) env)
  | .ret value, env => do
    visit ⟨path, .ret value, none, env⟩
    return .ret (← silent (evalExpr apply trace env value))
  | .branch cond onTrue onFalse merge, env => do
    let s := Stmt.branch cond onTrue onFalse merge
    visit ⟨path, s, none, env⟩
    if ← followCond apply trace path s 0 cond env then
      followArm apply trace path s 1 Phi.left merge (followBlock (path ++ [1]) 0 onTrue) env
    else followArm apply trace path s 2 Phi.right merge (followBlock (path ++ [2]) 0 onFalse) env
  | .loop cond body merge, env => do
    let s := Stmt.loop cond body merge
    visit ⟨path, s, none, env⟩
    let env ← followMerge apply trace path s 0 Phi.left merge env
    followLoop (followCond apply trace path s 1 cond)
      (followArm apply trace path s 2 Phi.right merge (followBlock (path ++ [2]) 0 body)) fuel env
termination_by structural s => s

/-- Runs the statements of a block from index `i` on until one returns. -/
def followBlock (base : Path) (i : Nat) : List Stmt → Env → Logged Flow
  | [], env => return .next env
  | s :: ss, env => do
    match ← followStmt (base ++ [i]) s env with
    | .ret value => return .ret value
    | .next env => followBlock base (i + 1) ss env
termination_by structural ss => ss
end

end

/-- Calls a specialized function. Its parameters are defined at the empty path. -/
def followCall (fuel : Nat) (trace : Trace) (func : TypedFn) (args : List Value) : Logged Value := do
  let trace := func.name :: trace
  let _ ← silent (orFault trace (bindCall (.typed func) args))
  let env ← define [] (func.argNames.zip args) ∅
  match ← followBlock (applyFn fuel) trace fuel [] 0 func.body env with
  | .ret value => return value
  | .next _ => return .none

/-! ## The run without its log -/

theorem erase_followLoop (test : Env → Logged Bool) (pass : Env → Logged Flow) (fuel : Nat) :
    ∀ env, erase (followLoop test pass fuel env)
      = runLoop (fun env => erase (test env)) (fun env => erase (pass env)) fuel env := by
  induction fuel with
  | zero => exact fun _ => rfl
  | succ fuel ih =>
    intro env
    rw [followLoop, runLoop, erase_bind]
    refine bind_congr fun b => ?_
    cases b with
    | false => rfl
    | true =>
      rw [if_pos rfl, if_pos rfl, erase_bind]
      refine bind_congr fun flow => ?_
      cases flow with
      | ret value => rfl
      | next env => exact ih env

section
variable (apply : Apply) (trace : Trace)

theorem erase_followCond (path : Path) (s : Stmt) (part : Nat) (cond : Expr) (env : Env) :
    erase (followCond apply trace path s part cond env) = evalCond apply trace cond env :=
  rfl

theorem erase_followMerge (path : Path) (s : Stmt) (part : Nat) (side : Phi → Expr)
    (merge : List Phi) (env : Env) :
    erase (followMerge apply trace path s part side merge env) = bindMerge apply trace side merge env := by
  rw [followMerge, erase_bind, erase_visit, pure_bind, erase_bind]
  rfl

theorem erase_followArm (path : Path) (s : Stmt) (part : Nat) (side : Phi → Expr)
    (merge : List Phi) (block : Env → Logged Flow) (env : Env) :
    erase (followArm apply trace path s part side merge block env) = (do
      match ← erase (block env) with
      | .ret value => return .ret value
      | .next env => return .next (← bindMerge apply trace side merge env)) := by
  rw [followArm, erase_bind, erase_visit, pure_bind, erase_bind]
  refine bind_congr fun flow => ?_
  cases flow with
  | ret value => rfl
  | next env =>
    dsimp only
    rw [erase_bind, erase_followMerge]
    rfl

variable (fuel : Nat)

mutual
/-- Without its log, a statement that is followed runs. -/
theorem erase_followStmt : ∀ (path : Path) (s : Stmt) (env : Env),
    erase (followStmt apply trace fuel path s env) = runStmt apply trace fuel s env
  | path, .assign ⟨node, ty?⟩ value, env => by
    rw [followStmt, runStmt, erase_bind, erase_visit, pure_bind, erase_bind, erase_silent]
    refine bind_congr fun v => Run.eq_of_exec fun σ => ?_
    rw [erase_bind, erase_silent, Run.exec_bind, Run.exec_bind]
    cases h : Run.exec (assign apply trace ⟨node, ty?⟩ v env) σ with
    | mk r σ' =>
      cases r with
      | error e => rfl
      | ok env' =>
        obtain ⟨rfl, -⟩ := assign_yields apply trace v env σ env' σ' trivial h
        rfl
  | path, .ret value, env => by
    rw [followStmt, runStmt, erase_bind, erase_visit, pure_bind, erase_bind]
    rfl
  | path, .branch cond onTrue onFalse merge, env => by
    rw [followStmt, runStmt, erase_bind, erase_visit, pure_bind, erase_bind, erase_followCond]
    refine bind_congr fun b => ?_
    cases b with
    | true =>
      rw [if_pos rfl, if_pos rfl, ← erase_followBlock (path ++ [1]) 0 onTrue]
      exact erase_followArm apply trace path _ 1 Phi.left merge _ env
    | false =>
      rw [if_neg Bool.false_ne_true, if_neg Bool.false_ne_true,
        ← erase_followBlock (path ++ [2]) 0 onFalse]
      exact erase_followArm apply trace path _ 2 Phi.right merge _ env
  | path, .loop cond body merge, env => by
    rw [followStmt, runStmt, erase_bind, erase_visit, pure_bind, erase_bind, erase_followMerge]
    refine bind_congr fun env => ?_
    rw [erase_followLoop]
    refine congrArg (runLoop (evalCond apply trace cond) · fuel env) (funext fun env => ?_)
    rw [← erase_followBlock (path ++ [2]) 0 body]
    exact erase_followArm apply trace path _ 2 Phi.right merge _ env
termination_by structural _ s => s

theorem erase_followBlock : ∀ (base : Path) (i : Nat) (ss : List Stmt) (env : Env),
    erase (followBlock apply trace fuel base i ss env) = runBlock apply trace fuel ss env
  | _, _, [], _ => rfl
  | base, i, s :: ss, env => by
    rw [followBlock, runBlock, erase_bind, erase_followStmt (base ++ [i]) s]
    refine bind_congr fun flow => ?_
    cases flow with
    | ret value => rfl
    | next env => exact erase_followBlock base (i + 1) ss env
termination_by structural _ _ ss => ss
end

end

/-- Without its log, a call that is followed is a call. -/
theorem erase_followCall (fuel : Nat) (trace : Trace) (func : TypedFn) (args : List Value) :
    erase (followCall fuel trace func args) = applyFn (fuel + 1) trace (.typed func) args := by
  refine Run.eq_of_exec fun σ => ?_
  rw [followCall, applyFn, erase_bind, erase_silent, Run.exec_bind, Run.exec_bind]
  by_cases h : args.length = func.argNames.length
  · have hbind : bindCall (.typed func) args = .ok (.ofList (func.argNames.zip args)) := if_pos h
    rw [hbind]
    show Run.exec (erase _) σ = Run.exec (runBody _ _ _ _ _) σ
    rw [erase_bind, erase_define, pure_bind, erase_bind, erase_followBlock, runBody]
    congr 2
    funext flow
    cases flow <;> rfl
  · have hbind : bindCall (.typed func) args
        = .error (.argCount func.name func.argNames.length args.length) := if_neg h
    rw [hbind]
    rfl

end Interpreter
end ArrayLang
