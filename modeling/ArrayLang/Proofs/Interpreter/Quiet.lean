import ArrayLang.CopyElimination
import ArrayLang.Interpreter.Evaluation
import ArrayLang.Proofs.Interpreter.Operation
import ArrayLang.Proofs.Run
import ArrayLang.Proofs.Typing.WellTyped

/-!
# Expressions without effects

Evaluating an expression that calls no function may add blocks to the store, but changes no block
that is there and leaves the session as it was.
-/

namespace ArrayLang

/-! ## Quiet computations -/

namespace Run

variable {κ ε ε' α β : Type}

/-- The computation leaves the context and the blocks of the store as they were. -/
def Quiet (x : Run κ ε α) : Prop :=
  ∀ σ, (exec x σ).2.context = σ.context
    ∧ σ.store.TouchesOnly (fun _ => False) (exec x σ).2.store

namespace Quiet

theorem bind {x : Run κ ε α} {f : α → Run κ ε β} (hx : Quiet x) (hf : ∀ a, Quiet (f a)) :
    Quiet (x >>= f) := by
  intro σ
  obtain ⟨hcontext, hstore⟩ := hx σ
  rw [exec_bind]
  cases h : exec x σ with
  | mk r σ' =>
    rw [h] at hcontext hstore
    cases r with
    | error e => exact ⟨hcontext, hstore⟩
    | ok a =>
      obtain ⟨hcontext', hstore'⟩ := hf a σ'
      exact ⟨hcontext'.trans hcontext, hstore.trans hstore' fun _ _ => id⟩

theorem pure (a : α) : Quiet (Pure.pure a : Run κ ε α) :=
  fun σ => ⟨rfl, .refl _ σ.store⟩

theorem throw (e : ε) : Quiet (throw e : Run κ ε α) :=
  fun σ => ⟨rfl, .refl _ σ.store⟩

theorem getStore : Quiet (getStore : Run κ ε Store) :=
  fun σ => ⟨rfl, .refl _ σ.store⟩

theorem get : Quiet (get : Run κ ε (State κ)) :=
  fun σ => ⟨rfl, .refl _ σ.store⟩

theorem ofExcept (raise : ε' → ε) (r : Except ε' α) : Quiet (ofExcept raise r : Run κ ε α) := by
  intro σ
  rw [exec_ofExcept]
  exact ⟨rfl, .refl _ σ.store⟩

theorem attempt (raise : ε' → ε) {plan : Store → Except ε' (Store → α × Store)}
    (h : ∀ s f, plan s = .ok f → s.TouchesOnly (fun _ => False) (f s).2) :
    Quiet (attempt raise plan : Run κ ε α) := by
  intro σ
  rw [exec_attempt]
  cases hplan : plan σ.store with
  | error e => exact ⟨rfl, .refl _ σ.store⟩
  | ok f => exact ⟨rfl, h σ.store f hplan⟩

end Quiet
end Run

/-- The expression calls no function and holds no function written in place. -/
def Expr.CallsNothing (e : Expr) : Prop :=
  e.Forall fun s => CopyElimination.isPureNode s.node = true ∧ ∀ decl, s.node ≠ .lambda decl

theorem Expr.CallsNothing.child {node : Node} {ty? : Option Ty} {c : Expr}
    (h : Expr.CallsNothing ⟨node, ty?⟩) (hc : c ∈ node.children) : c.CallsNothing :=
  Forall.of_mem_children h hc

/-! ## Operations -/

open Pairing

/-- What makes the same in any two stores touches nothing. -/
theorem Pairing.Makes.touches {α : Type} {s : Store} {Q : Pairing → α → α → Prop}
    {f : Store → α × Store} (h : empty.Makes s s Q f f) :
    s.TouchesOnly (fun _ => False) (f s).2 := by
  obtain ⟨ρ, hρ, -⟩ := h
  exact hρ.left.mono fun b ⟨c, hbc⟩ => hbc

namespace Interpreter

variable {apply : Apply} (trace : Trace) (env : Env)

theorem operate_quiet {α : Type} {plan : Store → Except Fault (Store → α × Store)}
    (h : ∀ s f, plan s = .ok f → s.TouchesOnly (fun _ => False) (f s).2) :
    Run.Quiet (operate trace plan) :=
  .attempt _ h

theorem fail_quiet {α : Type} (kind : Fault) : Run.Quiet (fail trace kind : Eval α) :=
  .throw _

theorem failText_quiet {α : Type} (kind : Store → Fault) :
    Run.Quiet (do fail trace (kind (← Run.getStore)) : Eval α) :=
  Run.Quiet.getStore.bind fun _ => .throw _

theorem namedFn_quiet (name : String) : Run.Quiet (namedFn trace name) := by
  refine Run.Quiet.get.bind fun σ => ?_
  split
  · exact .pure _
  · exact fail_quiet trace _

theorem readVar_quiet (name : String) : Run.Quiet (readVar trace env name) := by
  unfold readVar
  split
  · exact .pure _
  · refine Run.Quiet.get.bind fun σ => ?_
    split
    · exact .pure _
    · exact fail_quiet trace _

theorem applyOperator_quiet {op : Operator} {args : List Value} {ty? : Option Ty} :
    Run.Quiet (operate trace (applyOperator op args ty?)) :=
  operate_quiet trace fun s _ h => (applyOperator_makes (empty_matches s s) h).touches

theorem arrayLiteral_quiet {items : List Value} {ty? : Option Ty} :
    Run.Quiet (operate trace (arrayLiteral items ty?)) :=
  operate_quiet trace fun s _ h => (arrayLiteral_makes (empty_matches s s) h).touches

theorem castValue_quiet {value : Value} {elt : ElemType} :
    Run.Quiet (operate trace (castValue elt value)) := by
  refine operate_quiet trace fun s f h => ?_
  cases value with
  | scalar x =>
    cases h
    exact .refl _ s
  | array v =>
    cases h
    exact .alloc _ s _
  | _ => cases h

theorem allocValue_quiet {shape : Value} {elt : ElemType} :
    Run.Quiet (operate trace (allocValue elt shape)) := by
  refine operate_quiet trace fun s f h => ?_
  unfold allocValue at h
  split at h
  · cases h
    exact .alloc _ s _
  · cases h

/-! ## Expressions -/

section
variable (apply : Apply)

mutual
/-- Evaluating an expression that calls no function changes nothing that is there. -/
theorem evalExpr_quiet : ∀ e : Expr, e.CallsNothing → Run.Quiet (evalExpr apply trace env e)
  | ⟨.lit _, _⟩, _ => .pure _
  | ⟨.var name, _⟩, _ => readVar_quiet trace env name
  | ⟨.tuple items, _⟩, h => (evalExprs_quiet items fun _ hc => h.child hc).bind fun _ => .pure _
  | ⟨.proj base i, _⟩, h => by
    rw [evalExpr]
    refine (evalExpr_quiet base (h.child (.head _))).bind fun value => ?_
    dsimp only
    split
    · split
      · exact .pure _
      · exact failText_quiet trace _
    · exact failText_quiet trace _
  | ⟨.array items, _⟩, h =>
    (evalExprs_quiet items fun _ hc => h.child hc).bind fun _ => arrayLiteral_quiet trace
  | ⟨.index base key, _⟩, h => by
    rw [evalExpr]
    refine (evalExpr_quiet base (h.child (.head _))).bind fun base => ?_
    refine (evalExpr_quiet key (h.child (.tail _ (.head _)))).bind fun key => ?_
    exact Run.Quiet.getStore.bind fun s => .ofExcept _ _
  | ⟨.slice start stop step, _⟩, h => by
    rw [evalExpr]
    refine (evalExpr_quiet start (h.child (.head _))).bind fun start => ?_
    refine (evalExpr_quiet stop (h.child (.tail _ (.head _)))).bind fun stop => ?_
    refine (evalOption_quiet step fun c hc => h.child (.tail _ (.tail _ hc))).bind fun step => ?_
    split
    · exact .pure _
    · exact failText_quiet trace _
  | ⟨.attr base name, _⟩, h => by
    rw [evalExpr]
    refine (evalExpr_quiet base (h.child (.head _))).bind fun base => ?_
    exact Run.Quiet.getStore.bind fun s => .ofExcept _ _
  | ⟨.op op args, _⟩, h =>
    (evalExprs_quiet args fun _ hc => h.child hc).bind fun _ => applyOperator_quiet trace
  | ⟨.opValue op, _⟩, _ => .pure _
  | ⟨.closure func values, _⟩, h => by
    rw [evalExpr]
    refine (evalExprs_quiet values fun _ hc => h.child hc).bind fun _ => ?_
    exact (namedFn_quiet trace func).bind fun _ => .pure _
  | ⟨.captured base i, _⟩, h => by
    rw [evalExpr]
    refine (evalExpr_quiet base (h.child (.head _))).bind fun value => ?_
    dsimp only
    split
    · split
      · exact .pure _
      · exact failText_quiet trace _
    · exact failText_quiet trace _
  | ⟨.cast value elt, _⟩, h =>
    (evalExpr_quiet value (h.child (.head _))).bind fun _ => castValue_quiet trace
  | ⟨.struct name fields, _⟩, h =>
    (evalFields_quiet fields fun _ hc => h.child hc).bind fun _ => .pure _
  | ⟨.alloc elt shape, _⟩, h =>
    (evalExpr_quiet shape (h.child (.head _))).bind fun _ => allocValue_quiet trace
  | ⟨.lambda decl, _⟩, h => absurd rfl (h.self.2 decl)
  | ⟨.call _ _, _⟩, h => by cases h.self.1
  | ⟨.invoke _ _, _⟩, h => by cases h.self.1
  | ⟨.map _ _ _, _⟩, h => by cases h.self.1
  | ⟨.allPairs _ _ _, _⟩, h => by cases h.self.1
  | ⟨.reduce _ _ _ _ _, _⟩, h => by cases h.self.1
  | ⟨.scan _ _ _ _ _ _, _⟩, h => by cases h.self.1
termination_by structural e => e

theorem evalExprs_quiet : ∀ es : List Expr, (∀ e ∈ es, e.CallsNothing) →
    Run.Quiet (evalExprs apply trace env es)
  | [], _ => .pure _
  | e :: es, hes => by
    obtain ⟨he, hes⟩ := List.forall_mem_cons.1 hes
    rw [evalExprs]
    exact (evalExpr_quiet e he).bind fun _ => (evalExprs_quiet es hes).bind fun _ => .pure _
termination_by structural es => es

theorem evalOption_quiet : ∀ e? : Option Expr, (∀ e ∈ e?.toList, e.CallsNothing) →
    Run.Quiet (evalOption apply trace env e?)
  | none, _ => .pure _
  | some e, he => (evalExpr_quiet e (he e (.head _))).bind fun _ => .pure _
termination_by structural e? => e?

theorem evalFields_quiet : ∀ fields : List (String × Expr),
    (∀ e ∈ fields.map (·.2), e.CallsNothing) → Run.Quiet (evalFields apply trace env fields)
  | [], _ => .pure _
  | (_, e) :: fields, hes => by
    obtain ⟨he, hes⟩ := List.forall_mem_cons.1 hes
    rw [evalFields]
    exact (evalExpr_quiet e he).bind fun _ => (evalFields_quiet fields hes).bind fun _ => .pure _
termination_by structural fields => fields
end

end
end Interpreter
end ArrayLang
