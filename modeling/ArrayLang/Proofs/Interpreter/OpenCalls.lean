import ArrayLang.Interpreter.Evaluation
import ArrayLang.Proofs.Run

/-!
# Computations with open calls

The interpreter is told how functions are called. So each of its computations is a function of that,
and it is built from steps that do without it and from calls that are left to it. While the body of a
function runs, the active calls do not change. Whatever a step of its own raises, it raises under
these, and every call is made under them, through closures, host functions and adverbs alike.

## Main results

- `evalExpr_scripted`, `runBody_scripted`: code is built in this way from steps and calls.
- `Scripted.fault_origin`: a fault was raised under the active calls, or it is the fault of a call that
  was made under them.
-/

namespace ArrayLang.Interpreter

variable {α β : Type} {trace : Trace}

/-- A computation that is told how functions are called. -/
abbrev Open (α : Type) := Apply → Eval α

/-- Whatever fault the computation stops with, it carries the given trace. -/
def FaultsUnder (trace : Trace) (x : Eval α) : Prop :=
  ∀ σ kind trace' σ', Run.exec x σ = (.error (.fault kind trace'), σ') → trace' = trace

/-- The computation is built from steps that make no call, and whose own faults carry the given trace,
and from calls under this trace. -/
inductive Scripted (trace : Trace) : {α : Type} → Open α → Prop
  | step {α : Type} {x : Eval α} (h : FaultsUnder trace x) : Scripted trace fun _ => x
  | call (func : FnDef) (args : List Value) : Scripted trace fun apply => apply trace func args
  | bind {α β : Type} {x : Open α} {f : α → Open β} (hx : Scripted trace x)
    (hf : ∀ a, Scripted trace (f a)) : Scripted trace fun apply => x apply >>= fun a => f a apply

/-! ## Where faults come from -/

/-- A fault of a computation carries the trace that the computation runs under, or it is the fault of a
call that was made under this trace. -/
theorem Scripted.fault_origin {x : Open α} (h : Scripted trace x) (apply : Apply) {σ σ' : State Session}
    {kind : Fault} {trace' : Trace}
    (hx : Run.exec (x apply) σ = (.error (.fault kind trace'), σ')) :
    trace' = trace ∨ ∃ func args σ₁,
      Run.exec (apply trace func args) σ₁ = (.error (.fault kind trace'), σ') := by
  induction h generalizing σ with
  | step h => exact .inl (h σ kind trace' σ' hx)
  | call func args => exact .inr ⟨func, args, σ, hx⟩
  | bind _ _ ihx ihf =>
    rcases Run.exec_bind_eq_error hx with hx | ⟨a, σ₁, -, hf⟩
    · exact ihx hx
    · exact ihf a hf

/-! ## Steps -/

namespace Scripted

theorem pure (a : α) : Scripted trace fun _ => (Pure.pure a : Eval α) :=
  .step fun _ _ _ _ h => by cases h

theorem get : Scripted trace fun _ => (MonadState.get : Eval (State Session)) :=
  .step fun _ _ _ _ h => by cases h

theorem getStore : Scripted trace fun _ => (Run.getStore : Eval Store) :=
  .step fun _ _ _ _ h => by cases h

theorem onContext (f : Session → α × Session) : Scripted trace fun _ => (Run.onContext f : Eval α) :=
  .step fun _ _ _ _ h => by cases h

theorem outOfFuel : Scripted trace fun _ => (throw .outOfFuel : Eval α) :=
  .step fun _ _ _ _ h => by cases h

theorem fail (kind : Fault) : Scripted trace fun _ => (Interpreter.fail trace kind : Eval α) :=
  .step fun _ _ _ _ h => by cases h; rfl

theorem failText (kind : Store → Fault) :
    Scripted trace fun _ => (do Interpreter.fail trace (kind (← Run.getStore)) : Eval α) :=
  getStore.bind fun s => fail (kind s)

theorem orFault (r : Except Fault α) : Scripted trace fun _ => Interpreter.orFault trace r := by
  cases r with
  | ok a => exact pure a
  | error kind => exact fail kind

theorem operate (plan : Store → Except Fault (Store → α × Store)) :
    Scripted trace fun _ => Interpreter.operate trace plan := by
  refine .step fun σ kind trace' σ' h => ?_
  rw [Interpreter.operate, Run.exec_attempt] at h
  cases hplan : plan σ.store with
  | ok f =>
    rw [hplan] at h
    cases h
  | error e =>
    rw [hplan] at h
    cases h
    rfl

theorem ite {p : Prop} [Decidable p] {x y : Open α} (hx : Scripted trace x) (hy : Scripted trace y) :
    Scripted trace fun apply => if p then x apply else y apply := by
  split
  · exact hx
  · exact hy

end Scripted

theorem namedFn_scripted (name : String) : Scripted trace fun _ => namedFn trace name := by
  refine Scripted.get.bind fun σ => ?_
  cases namedFn? σ.context name with
  | some func => exact .pure func
  | none => exact .fail _

theorem readVar_scripted (env : Env) (name : String) :
    Scripted trace fun _ => readVar trace env name := by
  unfold readVar
  cases env.find? name with
  | some value => exact .pure value
  | none =>
    refine Scripted.get.bind fun σ => ?_
    cases σ.context.sources.find? name with
    | some decl => exact .pure _
    | none => exact .fail _

theorem captureAll_scripted (env : Env) (names : List String) :
    Scripted trace fun _ => captureAll trace env names := by
  unfold captureAll
  induction names with
  | nil => exact .pure []
  | cons name names ih =>
    simp only [List.mapM_cons]
    refine Scripted.bind (x := fun _ => _) ?_ fun value => ih.bind fun _ => .pure _
    cases env.find? name with
    | some value => exact .pure value
    | none => exact .fail _

theorem callValue_scripted (target : Value) (args : List Value) :
    Scripted trace fun apply => callValue apply trace target args := by
  cases target with
  | closure func fixed => exact .call func (fixed ++ args)
  | op op => exact .operate _
  | host id name captured =>
    refine (Scripted.onContext (·.convert id name captured)).bind fun r => ?_
    cases r with
    | ok decl => exact .call (.source decl) (captured ++ args)
    | error e => exact .fail _
  | _ => exact .failText _

/-! ## Adverbs -/

/-- What becomes of a stop of an adverb: one of its own arises under the active calls. -/
def settle (trace : Trace) : AdverbStop Stop → Stop
  | .adverb cause => .fault (.adverb cause) trace
  | .call stop => stop

/-- The part of an adverb is scripted once its stops are settled. -/
def AdverbScripted (trace : Trace) (x : Apply → Run Session (AdverbStop Stop) α) : Prop :=
  Scripted trace fun apply => Run.mapError (settle trace) (x apply)

namespace AdverbScripted

theorem bind {x : Apply → Run Session (AdverbStop Stop) α}
    {f : α → Apply → Run Session (AdverbStop Stop) β} (hx : AdverbScripted trace x)
    (hf : ∀ a, AdverbScripted trace (f a)) :
    AdverbScripted trace fun apply => x apply >>= fun a => f a apply := by
  unfold AdverbScripted
  simp only [Run.mapError_bind]
  exact Scripted.bind hx hf

/-- A step that makes no call and stops only with errors of the adverb. -/
theorem step {x : Run Session (AdverbStop Stop) α}
    (h : ∀ σ stop σ', Run.exec x σ = (.error stop, σ') → ∃ cause, stop = .adverb cause) :
    AdverbScripted trace fun _ => x := by
  refine Scripted.step fun σ kind trace' σ' hx => ?_
  rw [Run.exec_mapError] at hx
  cases hr : Run.exec x σ with
  | mk r σ₁ =>
    rw [hr] at hx
    cases r with
    | ok a => cases hx
    | error stop =>
      obtain ⟨cause, rfl⟩ := h σ stop σ₁ hr
      cases hx
      rfl

theorem pure (a : α) :
    AdverbScripted trace fun _ => (Pure.pure a : Run Session (AdverbStop Stop) α) :=
  step fun _ _ _ h => by cases h

theorem throw (cause : AdverbError) : AdverbScripted trace fun _ =>
    (MonadExcept.throw (.adverb cause) : Run Session (AdverbStop Stop) α) :=
  step fun _ _ _ h => by cases h; exact ⟨cause, rfl⟩

theorem getStore :
    AdverbScripted trace fun _ => (Run.getStore : Run Session (AdverbStop Stop) Store) :=
  step fun _ _ _ h => by cases h

theorem make (f : Store → α × Store) :
    AdverbScripted trace fun _ => (Run.make f : Run Session (AdverbStop Stop) α) :=
  step fun _ _ _ h => by cases h

theorem orFail (r : Except AdverbError α) :
    AdverbScripted trace fun _ => (Adverb.orFail r : Run Session (AdverbStop Stop) α) := by
  cases r with
  | ok a => exact pure a
  | error cause => exact throw cause

theorem store (slot : View) (value : Value) :
    AdverbScripted trace fun _ =>
      (Adverb.store slot value : Run Session (AdverbStop Stop) Unit) := by
  refine step fun σ stop σ' h => ?_
  rw [Adverb.store, Run.exec_attempt] at h
  split at h
  · cases h
  · cases h
    exact ⟨_, rfl⟩

/-- The stops of a call are left as they are. -/
theorem calling {x : Open Value} (hx : Scripted trace x) :
    AdverbScripted trace fun apply => Adverb.calling (x apply) := by
  have hsettled (y : Eval Value) : Run.mapError (settle trace) (Adverb.calling y) = y := by
    refine Run.eq_of_exec fun σ => ?_
    rw [Adverb.calling, Run.exec_mapError, Run.exec_mapError]
    cases Run.exec y σ with
    | mk r σ' => cases r <;> rfl
  unfold AdverbScripted
  simp only [hsettled]
  exact hx

theorem ite {p : Prop} [Decidable p] {x y : Apply → Run Session (AdverbStop Stop) α}
    (hx : AdverbScripted trace x) (hy : AdverbScripted trace y) :
    AdverbScripted trace fun apply => if p then x apply else y apply := by
  split
  · exact hx
  · exact hy

theorem foldPositionsM {step : α → Nat → Apply → Run Session (AdverbStop Stop) α}
    (h : ∀ a i, AdverbScripted trace (step a i)) (i count : Nat) (a : α) :
    AdverbScripted trace fun apply =>
      ArrayLang.foldPositionsM (fun a i => step a i apply) i count a := by
  induction count generalizing i a with
  | zero => exact pure a
  | succ count ih => exact (h a i).bind fun a => ih (i + 1) a

end AdverbScripted

section

open Adverb

theorem calling_scripted (func : Value) (args : List Value) :
    AdverbScripted trace fun apply => calling (callValue apply trace func args) :=
  .calling (callValue_scripted func args)

theorem emptyLike_scripted (args : List Value) :
    AdverbScripted trace fun _ => (emptyLike args : Run Session (AdverbStop Stop) Value) :=
  (AdverbScripted.make _).bind fun _ => .pure _

theorem sliceArgs_scripted (axis : Nat) (args : List Value) (i : Nat) :
    AdverbScripted trace fun _ =>
      (sliceArgs axis args i : Run Session (AdverbStop Stop) (List Value)) :=
  AdverbScripted.getStore.bind fun _ => .pure _

theorem detach_scripted (value : Value) :
    AdverbScripted trace fun _ => (detach value : Run Session (AdverbStop Stop) Value) := by
  cases value with
  | array v => exact (AdverbScripted.make _).bind fun _ => .pure _
  | _ => exact .pure _

theorem stackResults_scripted (axis len : Nat)
    {step : Apply → α → Nat → Run Session (AdverbStop Stop) (Value × α)}
    (h : ∀ a i, AdverbScripted trace fun apply => step apply a i) (start : α) :
    AdverbScripted trace fun apply => stackResults axis len (step apply) start := by
  unfold stackResults
  refine (h start 0).bind fun r => AdverbScripted.getStore.bind fun s => ?_
  refine (AdverbScripted.orFail _).bind fun layout => (AdverbScripted.make _).bind fun out => ?_
  refine (AdverbScripted.store _ _).bind fun _ => ?_
  refine AdverbScripted.bind (AdverbScripted.foldPositionsM (fun a i => ?_) 1 (len - 1) r.2)
    fun _ => .pure _
  exact (h a i).bind fun r => (AdverbScripted.store _ _).bind fun _ => .pure _

theorem map_scripted (func : Value) (args : List Value) (axis : Nat) :
    AdverbScripted trace fun apply => Adverb.map (callValue apply trace) func args axis := by
  unfold Adverb.map
  refine (AdverbScripted.orFail _).bind fun len? => ?_
  match len? with
  | none => exact calling_scripted func args
  | some 0 => exact emptyLike_scripted args
  | some (n + 1) =>
    refine stackResults_scripted axis (n + 1) (fun _ i => ?_) ()
    exact (sliceArgs_scripted axis args i).bind fun slices =>
      (calling_scripted func slices).bind fun _ => .pure _

theorem allPairs_scripted (func x y : Value) (axis : Nat) :
    AdverbScripted trace fun apply => Adverb.allPairs (callValue apply trace) func x y axis := by
  unfold Adverb.allPairs
  split
  · rename_i xs ys
    have hpair (i j : Nat) : AdverbScripted trace fun apply => (do
        let s ← Run.getStore
        calling (callValue apply trace func
          [.ofView s (xs.indexAxis axis i), .ofView s (ys.indexAxis axis j)])) :=
      AdverbScripted.getStore.bind fun _ => calling_scripted func _
    refine (AdverbScripted.orFail _).bind fun nx => (AdverbScripted.orFail _).bind fun ny => ?_
    refine .ite ((AdverbScripted.make _).bind fun _ => .pure _) ?_
    refine (hpair 0 0).bind fun first => AdverbScripted.getStore.bind fun s => ?_
    refine (AdverbScripted.orFail _).bind fun layout => (AdverbScripted.make _).bind fun out => ?_
    -- What is left of a row of the result.
    have hrow (i start count : Nat) (slot : Nat → View) :
        AdverbScripted trace fun apply => foldPositionsM (fun _ j => do
          Adverb.store (slot j) (← (do
            let s ← Run.getStore
            calling (callValue apply trace func
              [.ofView s (xs.indexAxis axis i), .ofView s (ys.indexAxis axis j)])))) start count () :=
      .foldPositionsM (fun _ j => (hpair i j).bind fun _ => .store _ _) start count ()
    refine (AdverbScripted.store _ _).bind fun _ => (hrow 0 1 _ _).bind fun _ => ?_
    refine AdverbScripted.bind (AdverbScripted.foldPositionsM (fun _ i => ?_) 1 _ ()) fun _ => .pure _
    exact hrow i 0 _ _
  · exact .throw _

theorem step_scripted (fold : Fold) (acc? : Option Value) (slices : List Value) :
    AdverbScripted trace fun apply => fold.step (callValue apply trace) acc? slices := by
  unfold Fold.step
  refine (calling_scripted fold.func slices).bind fun element => ?_
  cases acc? with
  | none => exact detach_scripted element
  | some acc => exact calling_scripted _ _

theorem reduce_scripted (fold : Fold) (args : List Value) (axis : Nat) :
    AdverbScripted trace fun apply => Adverb.reduce (callValue apply trace) fold args axis := by
  unfold Adverb.reduce
  refine (AdverbScripted.orFail _).bind fun len? => ?_
  cases len? with
  | none => exact step_scripted fold _ _
  | some len =>
    refine AdverbScripted.bind (AdverbScripted.foldPositionsM (fun acc? i => ?_) 0 len _)
      fun acc? => ?_
    · exact (sliceArgs_scripted axis args i).bind fun slices =>
        (step_scripted fold acc? slices).bind fun _ => .pure _
    · cases acc? with
      | some acc => exact .pure _
      | none => exact .throw _

theorem scan_scripted (fold : Fold) (emit : Value) (args : List Value) (axis : Nat) :
    AdverbScripted trace fun apply => Adverb.scan (callValue apply trace) fold emit args axis := by
  unfold Adverb.scan
  refine (AdverbScripted.orFail _).bind fun len? => ?_
  match len? with
  | none => exact (step_scripted fold _ _).bind fun acc => calling_scripted _ _
  | some 0 => exact emptyLike_scripted args
  | some (n + 1) =>
    refine stackResults_scripted axis (n + 1) (fun acc? i => ?_) _
    exact (sliceArgs_scripted axis args i).bind fun slices =>
      (step_scripted fold acc? slices).bind fun acc =>
        (calling_scripted _ _).bind fun _ => .pure _

end

/-- An adverb run by the interpreter. -/
theorem runAdverb_scripted {x : Apply → Run Session (AdverbStop Stop) Value}
    (h : AdverbScripted trace x) : Scripted trace fun apply => runAdverb trace (x apply) := by
  have hsettle (y : Run Session (AdverbStop Stop) Value) :
      runAdverb trace y = Run.mapError (settle trace) y :=
    congrArg (Run.mapError · y) (funext fun stop => by cases stop <;> rfl)
  simp only [hsettle]
  exact h

theorem axisValue_scripted (value : Value) : Scripted trace fun _ => axisValue trace value :=
  .orFault _

/-! ## Expressions -/

section
variable (env : Env)

mutual
theorem evalExpr_scripted : ∀ e : Expr, Scripted trace fun apply => evalExpr apply trace env e
  | ⟨.lit value, _⟩ => .pure _
  | ⟨.var name, _⟩ => readVar_scripted env name
  | ⟨.tuple items, _⟩ => (evalExprs_scripted items).bind fun _ => .pure _
  | ⟨.proj base i, _⟩ => by
    simp only [evalExpr]
    refine (evalExpr_scripted base).bind fun value => ?_
    split
    · split
      · exact .pure _
      · exact .failText _
    · exact .failText _
  | ⟨.array items, _⟩ => (evalExprs_scripted items).bind fun _ => .operate _
  | ⟨.index base key, _⟩ => by
    simp only [evalExpr]
    refine (evalExpr_scripted base).bind fun base => (evalExpr_scripted key).bind fun key => ?_
    exact Scripted.getStore.bind fun s => .orFault _
  | ⟨.slice start stop step, _⟩ => by
    simp only [evalExpr]
    refine (evalExpr_scripted start).bind fun start => (evalExpr_scripted stop).bind fun stop => ?_
    refine (evalOption_scripted step).bind fun step => ?_
    split
    · exact .pure _
    · exact .failText _
  | ⟨.attr base name, _⟩ => by
    simp only [evalExpr]
    exact (evalExpr_scripted base).bind fun base => Scripted.getStore.bind fun s => .orFault _
  | ⟨.op op args, _⟩ => (evalExprs_scripted args).bind fun _ => .operate _
  | ⟨.opValue op, _⟩ => .pure _
  | ⟨.call func args, _⟩ => by
    simp only [evalExpr]
    refine (evalExprs_scripted args).bind fun args => (namedFn_scripted func).bind fun func => ?_
    exact .call func args
  | ⟨.invoke callee args, _⟩ => by
    simp only [evalExpr]
    refine (evalExpr_scripted callee).bind fun callee => (evalExprs_scripted args).bind fun args => ?_
    exact callValue_scripted callee args
  | ⟨.closure func values, _⟩ => by
    simp only [evalExpr]
    exact (evalExprs_scripted values).bind fun _ => (namedFn_scripted func).bind fun _ => .pure _
  | ⟨.captured base i, _⟩ => by
    simp only [evalExpr]
    refine (evalExpr_scripted base).bind fun value => ?_
    split
    · split
      · exact .pure _
      · exact .failText _
    · exact .failText _
  | ⟨.lambda decl, _⟩ => by
    simp only [evalExpr]
    refine (Scripted.onContext (·.register decl)).bind fun decl => ?_
    exact (captureAll_scripted env _).bind fun _ => .pure _
  | ⟨.cast value elt, _⟩ => (evalExpr_scripted value).bind fun _ => .operate _
  | ⟨.struct name fields, _⟩ => (evalFields_scripted fields).bind fun _ => .pure _
  | ⟨.alloc elt shape, _⟩ => (evalExpr_scripted shape).bind fun _ => .operate _
  | ⟨.map func args axis, _⟩ => by
    simp only [evalExpr]
    refine (evalExpr_scripted func).bind fun func => (evalExprs_scripted args).bind fun args => ?_
    refine (evalExpr_scripted axis).bind fun axis => (axisValue_scripted axis).bind fun axis => ?_
    exact runAdverb_scripted (map_scripted func args axis)
  | ⟨.allPairs func args axis, _⟩ => by
    simp only [evalExpr]
    refine (evalExpr_scripted func).bind fun func => (evalExprs_scripted args).bind fun args => ?_
    refine (evalExpr_scripted axis).bind fun axis => (axisValue_scripted axis).bind fun axis => ?_
    split
    · exact runAdverb_scripted (allPairs_scripted func _ _ axis)
    · exact .fail _
  | ⟨.reduce func combine start args axis, _⟩ => by
    simp only [evalExpr]
    refine (evalExpr_scripted func).bind fun func => (evalExpr_scripted combine).bind fun combine => ?_
    refine (evalOption_scripted start).bind fun start? => (evalExprs_scripted args).bind fun args => ?_
    refine (evalExpr_scripted axis).bind fun axis => (axisValue_scripted axis).bind fun axis => ?_
    exact runAdverb_scripted (reduce_scripted _ args axis)
  | ⟨.scan func combine emit start args axis, _⟩ => by
    simp only [evalExpr]
    refine (evalExpr_scripted func).bind fun func => (evalExpr_scripted combine).bind fun combine => ?_
    refine (evalExpr_scripted emit).bind fun emit => (evalOption_scripted start).bind fun start? => ?_
    refine (evalExprs_scripted args).bind fun args => (evalExpr_scripted axis).bind fun axis => ?_
    refine (axisValue_scripted axis).bind fun axis => ?_
    exact runAdverb_scripted (scan_scripted _ emit args axis)
termination_by structural e => e

theorem evalExprs_scripted :
    ∀ es : List Expr, Scripted trace fun apply => evalExprs apply trace env es
  | [] => .pure _
  | e :: es => (evalExpr_scripted e).bind fun _ => (evalExprs_scripted es).bind fun _ => .pure _
termination_by structural es => es

theorem evalOption_scripted :
    ∀ e? : Option Expr, Scripted trace fun apply => evalOption apply trace env e?
  | none => .pure _
  | some e => (evalExpr_scripted e).bind fun _ => .pure _
termination_by structural e? => e?

theorem evalFields_scripted :
    ∀ fields : List (String × Expr), Scripted trace fun apply => evalFields apply trace env fields
  | [] => .pure _
  | (_, e) :: fields =>
    (evalExpr_scripted e).bind fun _ => (evalFields_scripted fields).bind fun _ => .pure _
termination_by structural fields => fields
end

end

/-! ## Statements -/

mutual
theorem assign_scripted {node : Node} {ty? : Option Ty} (value : Value) (env : Env) :
    Scripted trace fun apply => assign apply trace ⟨node, ty?⟩ value env := by
  cases node with
  | var name => exact .pure _
  | tuple targets =>
    cases value with
    | tuple items =>
      simp only [assign]
      exact .ite (assignAll_scripted targets items env) (.failText _)
    | _ => exact .failText _
  | index base key =>
    simp only [assign]
    refine (evalExpr_scripted env base).bind fun base => ?_
    refine (evalExpr_scripted env key).bind fun key => ?_
    exact (Scripted.operate _).bind fun _ => .pure _
  | _ => exact .fail _
termination_by sizeOf node

theorem assignAll_scripted : ∀ (targets : List Expr) (values : List Value) (env : Env),
    Scripted trace fun apply => assignAll apply trace targets values env
  | ⟨node, ty?⟩ :: targets, value :: values, env => by
    simp only [assignAll]
    exact (assign_scripted value env).bind fun env => assignAll_scripted targets values env
  | [], _, _ => .pure _
  | _ :: _, [], _ => .pure _
termination_by targets => sizeOf targets
end

theorem evalCond_scripted (cond : Expr) (env : Env) :
    Scripted trace fun apply => evalCond apply trace cond env := by
  unfold evalCond
  refine (evalExpr_scripted env cond).bind fun value => ?_
  split
  · exact .pure _
  · exact .failText _

theorem bindMerge_scripted (side : Phi → Expr) (merge : List Phi) (env : Env) :
    Scripted trace fun apply => bindMerge apply trace side merge env :=
  (evalExprs_scripted env _).bind fun _ => .pure _

theorem runLoop_scripted {test : Env → Open Bool} {pass : Env → Open Flow}
    (htest : ∀ env, Scripted trace (test env)) (hpass : ∀ env, Scripted trace (pass env))
    (fuel : Nat) (env : Env) :
    Scripted trace fun apply => runLoop (test · apply) (pass · apply) fuel env := by
  induction fuel generalizing env with
  | zero => exact .outOfFuel
  | succ fuel ih =>
    simp only [runLoop]
    refine (htest env).bind fun holds => .ite ((hpass env).bind fun flow => ?_) (.pure _)
    cases flow with
    | ret value => exact .pure _
    | next env => exact ih env

mutual
theorem runStmt_scripted (fuel : Nat) :
    ∀ (s : Stmt) (env : Env), Scripted trace fun apply => runStmt apply trace fuel s env
  | .assign ⟨node, ty?⟩ value, env => by
    simp only [runStmt]
    refine (evalExpr_scripted env value).bind fun value => ?_
    exact (assign_scripted value env).bind fun _ => .pure _
  | .ret value, env => (evalExpr_scripted env value).bind fun _ => .pure _
  | .branch cond onTrue onFalse merge, env => by
    simp only [runStmt]
    refine (evalCond_scripted cond env).bind fun holds => .ite ?_ ?_
    · refine (runBlock_scripted fuel onTrue env).bind fun flow => ?_
      cases flow with
      | ret value => exact .pure _
      | next env => exact (bindMerge_scripted _ _ env).bind fun _ => .pure _
    · refine (runBlock_scripted fuel onFalse env).bind fun flow => ?_
      cases flow with
      | ret value => exact .pure _
      | next env => exact (bindMerge_scripted _ _ env).bind fun _ => .pure _
  | .loop cond body merge, env => by
    simp only [runStmt]
    refine (bindMerge_scripted _ _ env).bind fun env => ?_
    refine runLoop_scripted (evalCond_scripted cond) (fun env => ?_) fuel env
    refine (runBlock_scripted fuel body env).bind fun flow => ?_
    cases flow with
    | ret value => exact .pure _
    | next env => exact (bindMerge_scripted _ _ env).bind fun _ => .pure _
termination_by structural s => s

theorem runBlock_scripted (fuel : Nat) :
    ∀ (ss : Block) (env : Env), Scripted trace fun apply => runBlock apply trace fuel ss env
  | [], _ => .pure _
  | s :: ss, env => by
    simp only [runBlock]
    refine (runStmt_scripted fuel s env).bind fun flow => ?_
    cases flow with
    | ret value => exact .pure _
    | next env => exact runBlock_scripted fuel ss env
termination_by structural ss => ss
end

theorem runBody_scripted (fuel : Nat) (body : Block) (env : Env) :
    Scripted trace fun apply => runBody apply trace fuel body env := by
  unfold runBody
  refine (runBlock_scripted fuel body env).bind fun flow => ?_
  cases flow <;> exact .pure _

end ArrayLang.Interpreter
