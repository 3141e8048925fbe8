import ArrayLang.Interpreter.Evaluation
import ArrayLang.Proofs.Run

/-!
# What running code does to the session

Running code registers functions written in place and converts host functions, and does nothing else
to the session. Whatever invariant of sessions these two keep is kept by every run, also by one that
stops with a fault or runs out of fuel.
-/

namespace ArrayLang.Interpreter

open Run

/-- An invariant of sessions that running code keeps. -/
structure RunInvariant (J : Session → Prop) : Prop where
  register {s : Session} (decl : FnDecl) (hs : J s) : J (s.register decl).2
  convert {s : Session} (id : Nat) (name : String) (captured : List Value) (hs : J s) :
    J (s.convert id name captured).2

variable {J : Session → Prop} {α : Type}

theorem fail_keeps (trace : Trace) (kind : Fault) : Keeps J (fail trace kind : Eval α) :=
  .throw _

theorem failAfterStore_keeps (trace : Trace) (kind : Store → Fault) :
    Keeps J (do fail trace (kind (← getStore)) : Eval α) :=
  Keeps.getStore.bind fun _ => fail_keeps trace _

theorem operate_keeps (trace : Trace) (plan : Store → Except Fault (Store → α × Store)) :
    Keeps J (operate trace plan) :=
  .attempt _ _

theorem orFault_keeps (trace : Trace) (r : Except Fault α) : Keeps J (orFault trace r) :=
  .ofExcept _ _

theorem namedFn_keeps (trace : Trace) (name : String) : Keeps J (namedFn trace name) := by
  unfold namedFn
  refine Keeps.get.bind fun σ => ?_
  split
  · exact .pure _
  · exact fail_keeps trace _

/-- Calls under any trace of any function on any arguments keep the invariant. -/
def CallsKeep (J : Session → Prop) (apply : Apply) : Prop :=
  ∀ trace func args, Keeps J (apply trace func args)

variable {apply : Apply}

theorem callValue_keeps (hJ : RunInvariant J) (happly : CallsKeep J apply) (trace : Trace)
    (target : Value) (args : List Value) : Keeps J (callValue apply trace target args) := by
  unfold callValue
  split
  · exact happly trace _ _
  · exact operate_keeps trace _
  · refine (Keeps.onContext fun _ hc => hJ.convert _ _ _ hc).bind fun r => ?_
    split
    · exact happly trace _ _
    · exact fail_keeps trace _
  · exact failAfterStore_keeps trace _

theorem readVar_keeps (trace : Trace) (env : Env) (name : String) :
    Keeps J (readVar trace env name) := by
  unfold readVar
  split
  · exact .pure _
  · refine Keeps.get.bind fun σ => ?_
    split
    · exact .pure _
    · exact fail_keeps trace _

theorem captureAll_keeps (trace : Trace) (env : Env) (names : List String) :
    Keeps J (captureAll trace env names) := by
  refine Keeps.mapM _ fun name _ => ?_
  split
  · exact .pure _
  · exact fail_keeps trace _

/-! ## Expressions -/

mutual
theorem evalExpr_keeps (hJ : RunInvariant J) (happly : CallsKeep J apply) (trace : Trace)
    (env : Env) : ∀ e : Expr, Keeps J (evalExpr apply trace env e)
  | ⟨.lit value, _⟩ => .pure _
  | ⟨.var name, _⟩ => readVar_keeps trace env name
  | ⟨.tuple items, _⟩ => (evalExprs_keeps hJ happly trace env items).bind fun _ => .pure _
  | ⟨.proj base i, _⟩ => by
    rw [evalExpr]
    refine (evalExpr_keeps hJ happly trace env base).bind fun value => ?_
    dsimp only
    split
    · split
      · exact .pure _
      · exact failAfterStore_keeps trace _
    · exact failAfterStore_keeps trace _
  | ⟨.array items, _⟩ => (evalExprs_keeps hJ happly trace env items).bind fun _ =>
    operate_keeps trace _
  | ⟨.index base key, _⟩ => by
    rw [evalExpr]
    refine (evalExpr_keeps hJ happly trace env base).bind fun base =>
      (evalExpr_keeps hJ happly trace env key).bind fun key => ?_
    exact Keeps.getStore.bind fun s => orFault_keeps trace _
  | ⟨.slice start stop step, _⟩ => by
    rw [evalExpr]
    refine (evalExpr_keeps hJ happly trace env start).bind fun start =>
      (evalExpr_keeps hJ happly trace env stop).bind fun stop => ?_
    refine (evalOption_keeps hJ happly trace env step).bind fun step => ?_
    split
    · exact .pure _
    · exact failAfterStore_keeps trace _
  | ⟨.attr base name, _⟩ => by
    rw [evalExpr]
    exact (evalExpr_keeps hJ happly trace env base).bind fun base => Keeps.getStore.bind fun s =>
      orFault_keeps trace _
  | ⟨.op op args, _⟩ => (evalExprs_keeps hJ happly trace env args).bind fun _ =>
    operate_keeps trace _
  | ⟨.opValue op, _⟩ => .pure _
  | ⟨.call func args, _⟩ => by
    rw [evalExpr]
    refine (evalExprs_keeps hJ happly trace env args).bind fun args =>
      (namedFn_keeps trace func).bind fun func => ?_
    exact happly trace func args
  | ⟨.invoke callee args, _⟩ => by
    rw [evalExpr]
    refine (evalExpr_keeps hJ happly trace env callee).bind fun callee =>
      (evalExprs_keeps hJ happly trace env args).bind fun args => ?_
    exact callValue_keeps hJ happly trace callee args
  | ⟨.closure func values, _⟩ => by
    rw [evalExpr]
    exact (evalExprs_keeps hJ happly trace env values).bind fun _ =>
      (namedFn_keeps trace func).bind fun _ => .pure _
  | ⟨.captured base i, _⟩ => by
    rw [evalExpr]
    refine (evalExpr_keeps hJ happly trace env base).bind fun value => ?_
    dsimp only
    split
    · split
      · exact .pure _
      · exact failAfterStore_keeps trace _
    · exact failAfterStore_keeps trace _
  | ⟨.lambda decl, _⟩ => by
    rw [evalExpr]
    refine (Keeps.onContext fun _ hc => hJ.register decl hc).bind fun decl => ?_
    exact (captureAll_keeps trace env _).bind fun _ => .pure _
  | ⟨.cast value elt, _⟩ => (evalExpr_keeps hJ happly trace env value).bind fun _ =>
    operate_keeps trace _
  | ⟨.struct name fields, _⟩ => (evalFields_keeps hJ happly trace env fields).bind fun _ => .pure _
  | ⟨.alloc elt shape, _⟩ => (evalExpr_keeps hJ happly trace env shape).bind fun _ =>
    operate_keeps trace _
  | ⟨.map func args axis, _⟩ => by
    rw [evalExpr]
    refine (evalExpr_keeps hJ happly trace env func).bind fun func =>
      (evalExprs_keeps hJ happly trace env args).bind fun args => ?_
    refine (evalExpr_keeps hJ happly trace env axis).bind fun axis =>
      (orFault_keeps trace _).bind fun axis => ?_
    exact (map_keeps (callValue_keeps hJ happly trace) func args axis).mapError _
  | ⟨.allPairs func args axis, _⟩ => by
    rw [evalExpr]
    refine (evalExpr_keeps hJ happly trace env func).bind fun func =>
      (evalExprs_keeps hJ happly trace env args).bind fun args => ?_
    refine (evalExpr_keeps hJ happly trace env axis).bind fun axis =>
      (orFault_keeps trace _).bind fun axis => ?_
    split
    · exact (allPairs_keeps (callValue_keeps hJ happly trace) func _ _ axis).mapError _
    · exact fail_keeps trace _
  | ⟨.reduce func combine start args axis, _⟩ => by
    rw [evalExpr]
    refine (evalExpr_keeps hJ happly trace env func).bind fun func =>
      (evalExpr_keeps hJ happly trace env combine).bind fun combine => ?_
    refine (evalOption_keeps hJ happly trace env start).bind fun start? =>
      (evalExprs_keeps hJ happly trace env args).bind fun args => ?_
    refine (evalExpr_keeps hJ happly trace env axis).bind fun axis =>
      (orFault_keeps trace _).bind fun axis => ?_
    exact (reduce_keeps (callValue_keeps hJ happly trace) _ args axis).mapError _
  | ⟨.scan func combine emit start args axis, _⟩ => by
    rw [evalExpr]
    refine (evalExpr_keeps hJ happly trace env func).bind fun func =>
      (evalExpr_keeps hJ happly trace env combine).bind fun combine => ?_
    refine (evalExpr_keeps hJ happly trace env emit).bind fun emit =>
      (evalOption_keeps hJ happly trace env start).bind fun start? => ?_
    refine (evalExprs_keeps hJ happly trace env args).bind fun args =>
      (evalExpr_keeps hJ happly trace env axis).bind fun axis => ?_
    refine (orFault_keeps trace _).bind fun axis => ?_
    exact (scan_keeps (callValue_keeps hJ happly trace) _ emit args axis).mapError _
termination_by structural e => e

theorem evalExprs_keeps (hJ : RunInvariant J) (happly : CallsKeep J apply) (trace : Trace)
    (env : Env) : ∀ es : List Expr, Keeps J (evalExprs apply trace env es)
  | [] => .pure _
  | e :: es => (evalExpr_keeps hJ happly trace env e).bind fun _ =>
    (evalExprs_keeps hJ happly trace env es).bind fun _ => .pure _
termination_by structural es => es

theorem evalOption_keeps (hJ : RunInvariant J) (happly : CallsKeep J apply) (trace : Trace)
    (env : Env) : ∀ e? : Option Expr, Keeps J (evalOption apply trace env e?)
  | none => .pure _
  | some e => (evalExpr_keeps hJ happly trace env e).bind fun _ => .pure _
termination_by structural e? => e?

theorem evalFields_keeps (hJ : RunInvariant J) (happly : CallsKeep J apply) (trace : Trace)
    (env : Env) :
    ∀ fields : List (String × Expr), Keeps J (evalFields apply trace env fields)
  | [] => .pure _
  | (_, e) :: fields =>
    (evalExpr_keeps hJ happly trace env e).bind fun _ =>
      (evalFields_keeps hJ happly trace env fields).bind fun _ => .pure _
termination_by structural fields => fields
end

/-! ## Statements -/

mutual
theorem assign_keeps (hJ : RunInvariant J) (happly : CallsKeep J apply) (trace : Trace)
    {node : Node} {ty? : Option Ty} (value : Value) (env : Env) :
    Keeps J (assign apply trace ⟨node, ty?⟩ value env) := by
  cases node with
  | var name => exact .pure _
  | tuple targets =>
    cases value with
    | tuple items =>
      rw [assign]
      exact .ite (assignAll_keeps hJ happly trace targets items env) (failAfterStore_keeps trace _)
    | _ => exact failAfterStore_keeps trace _
  | index base key =>
    rw [assign]
    refine (evalExpr_keeps hJ happly trace env base).bind fun base => ?_
    refine (evalExpr_keeps hJ happly trace env key).bind fun key => ?_
    exact (operate_keeps trace _).bind fun _ => .pure _
  | _ => exact fail_keeps trace _
termination_by sizeOf node

theorem assignAll_keeps (hJ : RunInvariant J) (happly : CallsKeep J apply) (trace : Trace) :
    ∀ (targets : List Expr) (values : List Value) (env : Env),
      Keeps J (assignAll apply trace targets values env)
  | ⟨node, ty?⟩ :: targets, value :: values, env => by
    rw [assignAll]
    exact (assign_keeps hJ happly trace value env).bind fun env =>
      assignAll_keeps hJ happly trace targets values env
  | [], _, _ => .pure _
  | _ :: _, [], _ => .pure _
termination_by targets => sizeOf targets
end

section
variable (hJ : RunInvariant J) (happly : CallsKeep J apply) (trace : Trace)
include hJ happly

theorem evalCond_keeps (cond : Expr) (env : Env) : Keeps J (evalCond apply trace cond env) := by
  unfold evalCond
  refine (evalExpr_keeps hJ happly trace env cond).bind fun value => ?_
  split
  · exact .pure _
  · exact failAfterStore_keeps trace _

theorem bindMerge_keeps (side : Phi → Expr) (merge : List Phi) (env : Env) :
    Keeps J (bindMerge apply trace side merge env) :=
  (evalExprs_keeps hJ happly trace env _).bind fun _ => .pure _

omit hJ happly in
theorem runLoop_keeps {test : Env → Eval Bool} {pass : Env → Eval Flow}
    (htest : ∀ env, Keeps J (test env)) (hpass : ∀ env, Keeps J (pass env)) (fuel : Nat)
    (env : Env) : Keeps J (runLoop test pass fuel env) := by
  induction fuel generalizing env with
  | zero => exact .throw _
  | succ fuel ih =>
    rw [runLoop]
    refine (htest env).bind fun holds => .ite ((hpass env).bind fun flow => ?_) (.pure _)
    cases flow with
    | ret value => exact .pure _
    | next env => exact ih env

omit hJ happly in
mutual
theorem runStmt_keeps (hJ : RunInvariant J) (happly : CallsKeep J apply) (trace : Trace)
    (fuel : Nat) : ∀ (s : Stmt) (env : Env), Keeps J (runStmt apply trace fuel s env)
  | .assign ⟨node, ty?⟩ value, env => by
    rw [runStmt]
    refine (evalExpr_keeps hJ happly trace env value).bind fun value => ?_
    exact (assign_keeps hJ happly trace value env).bind fun _ => .pure _
  | .ret value, env => (evalExpr_keeps hJ happly trace env value).bind fun _ => .pure _
  | .branch cond onTrue onFalse merge, env => by
    rw [runStmt]
    refine (evalCond_keeps hJ happly trace cond env).bind fun holds => .ite ?_ ?_
    · refine (runBlock_keeps hJ happly trace fuel onTrue env).bind fun flow => ?_
      cases flow with
      | ret value => exact .pure _
      | next env => exact (bindMerge_keeps hJ happly trace _ _ env).bind fun _ => .pure _
    · refine (runBlock_keeps hJ happly trace fuel onFalse env).bind fun flow => ?_
      cases flow with
      | ret value => exact .pure _
      | next env => exact (bindMerge_keeps hJ happly trace _ _ env).bind fun _ => .pure _
  | .loop cond body merge, env => by
    rw [runStmt]
    refine (bindMerge_keeps hJ happly trace _ _ env).bind fun env => ?_
    refine runLoop_keeps (evalCond_keeps hJ happly trace cond) (fun env => ?_) fuel env
    refine (runBlock_keeps hJ happly trace fuel body env).bind fun flow => ?_
    cases flow with
    | ret value => exact .pure _
    | next env => exact (bindMerge_keeps hJ happly trace _ _ env).bind fun _ => .pure _
termination_by structural s => s

theorem runBlock_keeps (hJ : RunInvariant J) (happly : CallsKeep J apply) (trace : Trace)
    (fuel : Nat) : ∀ (ss : Block) (env : Env), Keeps J (runBlock apply trace fuel ss env)
  | [], _ => .pure _
  | s :: ss, env => by
    rw [runBlock]
    refine (runStmt_keeps hJ happly trace fuel s env).bind fun flow => ?_
    cases flow with
    | ret value => exact .pure _
    | next env => exact runBlock_keeps hJ happly trace fuel ss env
termination_by structural ss => ss
end

theorem runBody_keeps (fuel : Nat) (body : Block) (env : Env) :
    Keeps J (runBody apply trace fuel body env) := by
  unfold runBody
  refine (runBlock_keeps hJ happly trace fuel body env).bind fun flow => ?_
  cases flow <;> exact .pure _

end

/-! ## Calls -/

/-- A call keeps the invariant: the induction is on the fuel, which bounds the depth of calls. -/
theorem applyFn_keeps (hJ : RunInvariant J) (fuel : Nat) : CallsKeep J (applyFn fuel) := by
  induction fuel with
  | zero => exact fun _ _ _ => .throw _
  | succ fuel ih =>
    intro trace func args
    rw [applyFn]
    exact (orFault_keeps _ _).bind fun env => runBody_keeps hJ ih _ fuel _ env

theorem call_keeps (hJ : RunInvariant J) (fuel : Nat) (target : Value) (args : List Value) :
    Keeps J (call fuel target args) :=
  callValue_keeps hJ (applyFn_keeps hJ fuel) [] target args

theorem callSource_keeps (hJ : RunInvariant J) (fuel : Nat) (name : String) (args : List Value) :
    Keeps J (callSource fuel name args) := by
  unfold callSource
  refine Keeps.get.bind fun σ => ?_
  split
  · exact applyFn_keeps hJ fuel _ _ _
  · exact fail_keeps _ _

theorem callTyped_keeps (hJ : RunInvariant J) (fuel : Nat) (func : TypedFn) (args : List Value) :
    Keeps J (callTyped fuel func args) :=
  applyFn_keeps hJ fuel [] (.typed func) args

end ArrayLang.Interpreter
