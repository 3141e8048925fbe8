import ArrayLang.Proofs.Interpreter.Walk
import ArrayLang.Proofs.Interpreter.AlikeStatement
import ArrayLang.Proofs.Storage.Follow

/-!
# Following a run along its points

Code follows other code, from variables that stand for each other, where it succeeds whenever the other
code does and what holds at the points of that run makes up for their differences. The code around two
pieces of which one follows the other does not need to know what the points are for.
-/

namespace ArrayLang

open Pairing Value

namespace Interpreter

variable {P : AtPoint} {p : String → Prop} {w w' : Walk} {run run' next next' : Env → Eval Flow}

/-- A run from `t` that does as one that has ended in `σ`: control leaves it in the same way, with variables
or a result that stand for those of the other. -/
def DoesAs (p : String → Prop) (ρ : Pairing) (flow : Flow) (σ : State Session) (y : Eval Flow)
    (t : State Session) : Prop :=
  σ.context.Impartial ∧ ∃ ρ' flow' t', Run.exec y t = (.ok flow', ⟨t', σ.context⟩) ∧ ρ ≤ ρ'
    ∧ ρ'.Matches σ.store t' ∧ FlowRel (EnvPaired ρ' p) (Paired ρ') flow flow'

theorem DoesAs.mono {ρ ρ' : Pairing} {flow : Flow} {σ t : State Session} {y : Eval Flow} (hle : ρ ≤ ρ')
    (h : DoesAs p ρ' flow σ y t) : DoesAs p ρ flow σ y t := by
  obtain ⟨hc, ρ'', flow', t', hy, hle', hs, hflow⟩ := h
  exact ⟨hc, ρ'', flow', t', hy, le_trans hle hle', hs, hflow⟩

/-- Wherever `P` holds at the points of the first run and it succeeds, the second one does the same from
variables that stand for the first one's where they satisfy `p`. -/
def FollowsAlong (P : AtPoint) (p : String → Prop) (w : Walk) (run run' : Env → Eval Flow) : Prop :=
  ∀ ρ env env' s t c flow σ, EnvPaired ρ p env env' → ρ.Matches s t → c.Impartial →
    w P env ⟨s, c⟩ → Run.exec (run env) ⟨s, c⟩ = (.ok flow, σ) →
      DoesAs p ρ flow σ (run' env') ⟨t, c⟩

namespace FollowsAlong

/-- Code that is alike follows, whatever holds at its points. -/
theorem of_alike (h : ∀ ρ env env', EnvPaired ρ p env env' → Run.Alike Session.Impartial ρ
      (fun ρ' => FlowRel (EnvPaired ρ' p) (Paired ρ')) (run env) (run' env')) :
    FollowsAlong P p w run run' :=
  fun ρ env env' s t c flow σ henv hs hc _ hx => (h ρ env env' henv).follows s t c flow σ hs hc hx

/-- What follows a piece of code, unless it has returned. -/
theorem andThen (h : FollowsAlong P p w run run') (h' : FollowsAlong P p w' next next') :
    FollowsAlong P p (w.andThen run w') (fun env => do (← run env).andThen next)
      (fun env => do (← run' env).andThen next') := by
  intro ρ env env' s t c flow σ henv hs hc hw hx
  obtain ⟨flow₁, ⟨s₁, c₁⟩, hrun, hx⟩ := Run.exec_bind_eq_ok hx
  obtain ⟨hc₁, ρ₁, flow₁', t₁, hrun', hle₁, hs₁, hflow⟩ :=
    h ρ env env' s t c flow₁ _ henv hs hc hw.1 hrun
  unfold DoesAs
  rw [Run.exec_bind_ok hrun']
  cases hflow with
  | ret hvw =>
    cases hx
    exact ⟨hc₁, ρ₁, _, t₁, rfl, hle₁, hs₁, .ret hvw⟩
  | next henv₁ =>
    exact (h' ρ₁ _ _ s₁ t₁ c₁ flow σ henv₁ hs₁ hc₁ (hw.2 _ _ hrun) hx).mono hle₁

theorem startAt {point : Point} (h : FollowsAlong P p w run run') :
    FollowsAlong P p (w.startAt point) run run' :=
  fun ρ env env' s t c flow σ henv hs hc hw hx => h ρ env env' s t c flow σ henv hs hc hw.2 hx

/-- A test that does not tell the variables apart. -/
theorem branch {test test' : Env → Eval Bool}
    (htest : ∀ ρ env env', EnvPaired ρ p env env' →
      Run.Alike Session.Impartial ρ (fun _ a b => b = a) (test env) (test' env'))
    (h : FollowsAlong P p w run run') (h' : FollowsAlong P p w' next next') :
    FollowsAlong P p (.branch test w w') (fun env => do if ← test env then run env else next env)
      (fun env => do if ← test' env then run' env else next' env) := by
  intro ρ env env' s t c flow σ henv hs hc hw hx
  obtain ⟨b, ⟨s₁, c₁⟩, hb, hx⟩ := Run.exec_bind_eq_ok hx
  obtain ⟨hc₁, ρ₁, _, t₁, hb', hle₁, hs₁, rfl⟩ :=
    (htest ρ env env' henv).follows s t c b _ hs hc hb
  have hw₁ := hw _ _ hb
  unfold DoesAs
  rw [Run.exec_bind_ok hb']
  rename_i b
  cases b with
  | true => exact (h ρ₁ env env' s₁ t₁ c₁ flow σ (henv.mono hle₁) hs₁ hc₁ hw₁ hx).mono hle₁
  | false => exact (h' ρ₁ env env' s₁ t₁ c₁ flow σ (henv.mono hle₁) hs₁ hc₁ hw₁ hx).mono hle₁

theorem loop {test test' : Env → Eval Bool}
    (htest : ∀ ρ env env', EnvPaired ρ p env env' →
      Run.Alike Session.Impartial ρ (fun _ a b => b = a) (test env) (test' env'))
    (h : FollowsAlong P p w run run') (fuel : Nat) :
    FollowsAlong P p (.loop test run w fuel) (runLoop test run fuel) (runLoop test' run' fuel) := by
  induction fuel with
  | zero =>
    intro ρ env env' s t c flow σ _ _ _ _ hx
    cases hx
  | succ fuel ih =>
    refine (branch htest (h.andThen ih) (.of_alike fun ρ env env' henv => ?_)).startAt
    exact .pure (.next henv)

end FollowsAlong

section
variable {apply : Apply} (happly : ApplyAlike apply) {trace : Trace} {fuel : Nat} {ss ss' : Block}
  {s s' : Stmt} {cond : Expr} {onTrue onTrue' onFalse onFalse' body body' : Block} {merge : List Phi}
include happly

/-- Code that names only variables that satisfy `p` follows itself. -/
theorem runBlock_followsAlong (hss : Stmt.AllWithin p ss) (w : Walk) :
    FollowsAlong P p w (runBlock apply trace fuel ss) (runBlock apply trace fuel ss) := by
  refine .of_alike fun ρ env env' henv => ?_
  refine (runBlock_alike happly trace fuel ss hss (.refl henv)).mono fun ρ' flow flow' _ hflow => ?_
  cases hflow with
  | ret hvw => exact .ret hvw
  | next h => exact .next h.paired

theorem runStmt_followsAlong (hs : s.Within p) (w : Walk) :
    FollowsAlong P p w (runStmt apply trace fuel s) (runStmt apply trace fuel s) := by
  refine .of_alike fun ρ env env' henv => ?_
  refine (runStmt_alike happly trace fuel s hs (.refl henv)).mono fun ρ' flow flow' _ hflow => ?_
  cases hflow with
  | ret hvw => exact .ret hvw
  | next h => exact .next h.paired

theorem reconcile_followsAlong (side : Phi → Expr) (hmerge : ∀ phi ∈ merge, phi.Within p)
    (hside : ∀ phi ∈ merge, (side phi).ReadsOnly p) (w : Walk) :
    FollowsAlong P p w (reconcile apply trace side merge) (reconcile apply trace side merge) := by
  refine .of_alike fun ρ env env' henv => ?_
  refine (bindMerge_alike happly trace side merge (fun phi h => (hmerge phi h).name) hside
    (.refl henv)).bind fun ρ' _ _ _ henv' => .pure (.next henv'.paired)

/-- A conditional whose blocks follow those of another one. -/
theorem branch_followsAlong (hcond : cond.ReadsOnly p) (hmerge : ∀ phi ∈ merge, phi.Within p)
    (htrue : FollowsAlong P p (blockWalk apply trace fuel onTrue) (runBlock apply trace fuel onTrue)
      (runBlock apply trace fuel onTrue'))
    (hfalse : FollowsAlong P p (blockWalk apply trace fuel onFalse) (runBlock apply trace fuel onFalse)
      (runBlock apply trace fuel onFalse')) :
    FollowsAlong P p (stmtWalk apply trace fuel (.branch cond onTrue onFalse merge))
      (runStmt apply trace fuel (.branch cond onTrue onFalse merge))
      (runStmt apply trace fuel (.branch cond onTrue' onFalse' merge)) :=
  have hleft := reconcile_followsAlong happly Phi.left hmerge (fun phi h => (hmerge phi h).left) (P := P)
  have hright := reconcile_followsAlong happly Phi.right hmerge (fun phi h => (hmerge phi h).right) (P := P)
  (FollowsAlong.branch (fun _ _ _ henv => evalCond_alike happly trace cond hcond henv)
    (htrue.andThen (hleft _)) (hfalse.andThen (hright _))).startAt

omit happly in
/-- A loop reconciles its variables and then makes its passes. -/
theorem runStmt_loop (env : Env) :
    runStmt apply trace fuel (.loop cond body merge) env
      = reconcile apply trace Phi.left merge env >>= (·.andThen (runLoop (evalCond apply trace cond)
          (runArm apply trace fuel Phi.right body merge) fuel)) := by
  rw [runStmt, reconcile, bind_assoc]
  refine congrArg _ (funext fun env => ?_)
  rw [pure_bind]
  rfl

/-- A loop whose body follows that of another one. -/
theorem loop_followsAlong (hcond : cond.ReadsOnly p) (hmerge : ∀ phi ∈ merge, phi.Within p)
    (hbody : FollowsAlong P p (blockWalk apply trace fuel body) (runBlock apply trace fuel body)
      (runBlock apply trace fuel body')) :
    FollowsAlong P p (stmtWalk apply trace fuel (.loop cond body merge))
      (runStmt apply trace fuel (.loop cond body merge))
      (runStmt apply trace fuel (.loop cond body' merge)) := by
  have hmerged (side : Phi → Expr) (hside : ∀ phi ∈ merge, (side phi).ReadsOnly p) :
      FollowsAlong P p (.here (.merge side merge)) (reconcile apply trace side merge)
        (reconcile apply trace side merge) :=
    reconcile_followsAlong happly side hmerge hside _
  have hpasses := FollowsAlong.loop (fun _ _ _ henv => evalCond_alike happly trace cond hcond henv)
    (hbody.andThen (hmerged Phi.right fun phi h => (hmerge phi h).right)) fuel
  have hall := (hmerged Phi.left fun phi h => (hmerge phi h).left).andThen hpasses
  rw [show runStmt apply trace fuel (.loop cond body merge) = _ from funext runStmt_loop,
    show runStmt apply trace fuel (.loop cond body' merge) = _ from funext runStmt_loop]
  exact hall.startAt

/-- Statements that differ in one of their blocks. -/
theorem setPart_followsAlong {part : Nat} {inner inner' : Block} (hpart : s.part? part = some inner)
    (hs : (s.setPart part inner').Within p)
    (h : Stmt.AllWithin p inner' → FollowsAlong P p (blockWalk apply trace fuel inner)
      (runBlock apply trace fuel inner) (runBlock apply trace fuel inner')) :
    FollowsAlong P p (stmtWalk apply trace fuel s) (runStmt apply trace fuel s)
      (runStmt apply trace fuel (s.setPart part inner')) := by
  cases s with
  | branch cond onTrue onFalse merge =>
    match part, hpart with
    | 1, rfl =>
      obtain ⟨hcond, htrue, hfalse, hmerge⟩ := hs
      exact branch_followsAlong happly hcond hmerge (h htrue) (runBlock_followsAlong happly hfalse _)
    | 2, rfl =>
      obtain ⟨hcond, htrue, hfalse, hmerge⟩ := hs
      exact branch_followsAlong happly hcond hmerge (runBlock_followsAlong happly htrue _) (h hfalse)
  | loop cond body merge =>
    match part, hpart with
    | 2, rfl =>
      obtain ⟨hcond, hbody, hmerge⟩ := hs
      exact loop_followsAlong happly hcond hmerge (h hbody)
  | _ => cases hpart

omit happly in
theorem cons_followsAlong
    (h : FollowsAlong P p (stmtWalk apply trace fuel s) (runStmt apply trace fuel s)
      (runStmt apply trace fuel s'))
    (h' : FollowsAlong P p (blockWalk apply trace fuel ss) (runBlock apply trace fuel ss)
      (runBlock apply trace fuel ss')) :
    FollowsAlong P p (blockWalk apply trace fuel (s :: ss)) (runBlock apply trace fuel (s :: ss))
      (runBlock apply trace fuel (s' :: ss')) :=
  h.andThen h'

/-- Blocks that differ in one statement. -/
theorem set_followsAlong {k : Nat} (hat : ss[k]? = some s) (hss : Stmt.AllWithin p (ss.set k s'))
    (h : s'.Within p → FollowsAlong P p (stmtWalk apply trace fuel s) (runStmt apply trace fuel s)
      (runStmt apply trace fuel s')) :
    FollowsAlong P p (blockWalk apply trace fuel ss) (runBlock apply trace fuel ss)
      (runBlock apply trace fuel (ss.set k s')) := by
  induction ss generalizing k with
  | nil => cases hat
  | cons t ss ih =>
    cases k with
    | zero =>
      cases hat
      exact cons_followsAlong (h hss.1) (runBlock_followsAlong happly hss.2 _)
    | succ k => exact cons_followsAlong (runStmt_followsAlong happly hss.1 _) (ih hat hss.2)

/-- Blocks that differ after some statements. -/
theorem append_followsAlong {pre : Block} (hpre : Stmt.AllWithin p pre)
    (h : FollowsAlong P p (blockWalk apply trace fuel ss) (runBlock apply trace fuel ss)
      (runBlock apply trace fuel ss')) :
    FollowsAlong P p (blockWalk apply trace fuel (pre ++ ss)) (runBlock apply trace fuel (pre ++ ss))
      (runBlock apply trace fuel (pre ++ ss')) := by
  induction pre with
  | nil => exact h
  | cons s pre ih => exact cons_followsAlong (runStmt_followsAlong happly hpre.1 _) (ih hpre.2)

/-- Blocks that differ in the block that a path leads into. -/
theorem modifyAt_followsAlong {change : Nat → Block → Option Block} {path : Path} {body body' : Block}
    (hat : body.stmtAt? path = some s) (h : body.modifyAt? change path = some body')
    (hbody : Stmt.AllWithin p body')
    (base : ∀ k block block', path.getLast? = some k → body.blockAt? path = some block →
      block[k]? = some s → change k block = some block' → Stmt.AllWithin p block' →
        FollowsAlong P p (blockWalk apply trace fuel block) (runBlock apply trace fuel block)
          (runBlock apply trace fuel block')) :
    FollowsAlong P p (blockWalk apply trace fuel body) (runBlock apply trace fuel body)
      (runBlock apply trace fuel body') := by
  refine Block.modifyAt?_induct_at (R := fun block block' => Stmt.AllWithin p block' →
    FollowsAlong P p (blockWalk apply trace fuel block) (runBlock apply trace fuel block)
      (runBlock apply trace fuel block')) ?_ path body body' hat h base hbody
  intro k part block inner inner' outer houter hpart ih hblock
  exact set_followsAlong happly houter hblock fun hs => setPart_followsAlong happly hpart hs ih

omit happly in
/-- Bodies of functions of which one follows the other give results that stand for each other. -/
theorem exec_runBody_of_followsAlong {ρ : Pairing} {env env' : Env} {s t : Store} {c : Session}
    {v : Value} {σ : State Session}
    (h : FollowsAlong P p (blockWalk apply trace fuel body) (runBlock apply trace fuel body)
      (runBlock apply trace fuel body')) (henv : EnvPaired ρ p env env') (hs : ρ.Matches s t)
    (hc : c.Impartial) (hw : blockWalk apply trace fuel body P env ⟨s, c⟩)
    (hx : Run.exec (runBody apply trace fuel body env) ⟨s, c⟩ = (.ok v, σ)) :
    ∃ ρ' w t', Run.exec (runBody apply trace fuel body' env') ⟨t, c⟩ = (.ok w, ⟨t', σ.context⟩)
      ∧ ρ ≤ ρ' ∧ ρ'.Matches σ.store t' ∧ v.Paired ρ' w := by
  obtain ⟨flow, ⟨s₁, c₁⟩, hflow, hx⟩ := Run.exec_bind_eq_ok hx
  obtain ⟨-, ρ', flow', t', hflow', hle, hs', hrel⟩ := h ρ env env' s t c flow _ henv hs hc hw hflow
  rw [runBody, Run.exec_bind_ok hflow']
  cases hrel with
  | next _ =>
    cases hx
    exact ⟨ρ', .none, t', rfl, hle, hs', .none⟩
  | ret hvw =>
    cases hx
    exact ⟨ρ', _, t', rfl, hle, hs', hvw⟩

end
end Interpreter
end ArrayLang
