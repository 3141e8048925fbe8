import ArrayLang.Proofs.Dataflow.Path
import ArrayLang.Proofs.Interpreter.AlikeStatement
import ArrayLang.Proofs.Interpreter.Reads
import ArrayLang.Proofs.Interpreter.Walk

/-!
# What running code reads

Code does the same wherever the variables that it reads have the same values: from one state it leaves
the same state and ends in the same way, and the variables it leaves again agree there. Two runs are
compared step by step. Computations are matched when from each state they leave one state and have like
outcomes.

An assignment reads the variables of its value and, where it writes to a part of an array, those of the
array and of the index. The variables that it binds it does not read.

## Main results

- `Interpreter.runBlock_matched`: code that reads only some variables runs alike wherever these have the
  same values.
- `Interpreter.blockWalk_carries`: the points that it visits have variables that agree there, too.
-/

namespace ArrayLang

/-! ## Matched computations -/

namespace Run

variable {κ ε α α' β β' : Type}

/-- From each state both computations leave the same state, and their outcomes are results related by `R`
or the same error. -/
def Matched (R : α → β → Prop) (x : Run κ ε α) (y : Run κ ε β) : Prop :=
  ∀ σ, (exec x σ).2 = (exec y σ).2 ∧ Outcome.Alike R (exec x σ).1 (exec y σ).1

namespace Matched

variable {P : α → β → Prop} {R : α' → β' → Prop}

theorem pure {a : α} {b : β} (h : P a b) : Matched P (Pure.pure a : Run κ ε α) (Pure.pure b) :=
  fun _ => ⟨rfl, .ok h⟩

theorem throw (e : ε) : Matched P (throw e : Run κ ε α) (throw e : Run κ ε β) :=
  fun _ => ⟨rfl, .error e⟩

theorem refl (x : Run κ ε α) : Matched Eq x x :=
  fun _ => ⟨rfl, .refl _ fun _ _ => rfl⟩

theorem bind {x : Run κ ε α} {y : Run κ ε β} {f : α → Run κ ε α'} {g : β → Run κ ε β'}
    (hxy : Matched P x y) (hfg : ∀ a b, P a b → Matched R (f a) (g b)) :
    Matched R (x >>= f) (y >>= g) := by
  intro σ
  obtain ⟨hstate, hout⟩ := hxy σ
  rw [exec_bind, exec_bind]
  cases hx : exec x σ with
  | mk r τ =>
    cases hy : exec y σ with
    | mk r' τ' =>
      rw [hx, hy] at hstate hout
      obtain rfl : τ = τ' := hstate
      cases hout with
      | error e => exact ⟨rfl, .error e⟩
      | ok hab => exact hfg _ _ hab τ

/-- Computations that go on from the same one. -/
theorem bind_same (x : Run κ ε α) {f : α → Run κ ε α'} {g : α → Run κ ε β'}
    (hfg : ∀ a, Matched R (f a) (g a)) : Matched R (x >>= f) (x >>= g) := by
  refine (refl x).bind fun a b hab => ?_
  rw [← hab]
  exact hfg a

theorem ite {c : Prop} [Decidable c] {x x' : Run κ ε α} {y y' : Run κ ε β} (h : Matched P x y)
    (h' : Matched P x' y') : Matched P (if c then x else x') (if c then y else y') := by
  split
  · exact h
  · exact h'

/-- What the second computation returns, the first one matches. -/
theorem ok_left {x : Run κ ε α} {y : Run κ ε β} {σ τ : State κ} {b : β} (h : Matched P x y)
    (hy : exec y σ = (.ok b, τ)) : ∃ a, exec x σ = (.ok a, τ) ∧ P a b := by
  obtain ⟨hstate, hout⟩ := h σ
  rw [hy] at hstate hout
  cases hx : exec x σ with
  | mk r τ' =>
    rw [hx] at hstate hout
    obtain rfl : τ' = τ := hstate
    cases hout with
    | ok hab => exact ⟨_, rfl, hab⟩

end Matched
end Run

/-! ## Code that reads only some variables -/

section
variable (p : String → Prop)

mutual
/-- Assigning to the target reads only variables that satisfy `p`: to a part of an array it reads the
array and the index, and to a variable it reads nothing. -/
def Expr.TargetReadsOnly : Expr → Prop
  | ⟨.tuple items, _⟩ => Expr.AllTargetsReadOnly items
  | ⟨.index base key, _⟩ => base.ReadsOnly p ∧ key.ReadsOnly p
  | _ => True
termination_by structural e => e

def Expr.AllTargetsReadOnly : List Expr → Prop
  | [] => True
  | e :: es => e.TargetReadsOnly ∧ Expr.AllTargetsReadOnly es
termination_by structural es => es
end

/-- The statement itself, not those in its blocks, reads only variables that satisfy `p`. -/
def Stmt.ReadsOnly : Stmt → Prop
  | .assign target value => target.TargetReadsOnly p ∧ value.ReadsOnly p
  | .ret value => value.ReadsOnly p
  | .branch cond _ _ merge | .loop cond _ merge =>
    cond.ReadsOnly p ∧ ∀ phi ∈ merge, phi.left.ReadsOnly p ∧ phi.right.ReadsOnly p

/-- The variables that satisfy `p` have the same values, and the same variables have values. -/
structure Env.Resembles (env env' : Env) : Prop where
  agree : env.Agree p env'
  contains : ∀ x, env.contains x = env'.contains x

end

variable {p : String → Prop} {env env' : Env}

namespace Env.Resembles

theorem insert (h : Resembles p env env') (name : String) (value : Value) :
    Resembles p (env.insert name value) (env'.insert name value) where
  agree x hx := by
    rw [NameMap.find?_insert, NameMap.find?_insert, h.agree x hx]
  contains x := by
    have hx := h.contains x
    unfold NameMap.contains at hx ⊢
    rw [NameMap.find?_insert, NameMap.find?_insert]
    split
    · rfl
    · exact hx

theorem insertAll (h : Resembles p env env') (pairs : List (String × Value)) :
    Resembles p (env.insertAll pairs) (env'.insertAll pairs) := by
  induction pairs generalizing env env' with
  | nil => exact h
  | cons pair pairs ih => exact ih (h.insert pair.1 pair.2)

/-- A variable that does not satisfy `p` may have either of two values. -/
theorem rebind (env : Env) {name : String} (hname : ¬p name) (a b : Value) :
    Resembles p (env.insert name a) (env.insert name b) where
  agree x hx := by
    have hne : x ≠ name := fun heq => hname (heq ▸ hx)
    rw [NameMap.find?_insert, NameMap.find?_insert, if_neg hne, if_neg hne]
  contains x := by
    unfold NameMap.contains
    rw [NameMap.find?_insert, NameMap.find?_insert]
    split
    · rfl
    · rfl

end Env.Resembles

namespace Interpreter

open Run

/-- Control goes on with variables that resemble each other, or leaves with one result. -/
abbrev FlowResembles (p : String → Prop) : Flow → Flow → Prop :=
  FlowRel (Env.Resembles p) Eq

variable {apply : Apply} {trace : Trace}

/-! ## Running -/

mutual
theorem assign_matched {node : Node} {ty? : Option Ty} (value : Value) {env env' : Env}
    (htarget : Expr.TargetReadsOnly p ⟨node, ty?⟩) (henv : env.Resembles p env') :
    Matched (Env.Resembles p) (assign apply trace ⟨node, ty?⟩ value env)
      (assign apply trace ⟨node, ty?⟩ value env') := by
  cases node with
  | var name => exact .pure (henv.insert name value)
  | tuple targets =>
    cases value with
    | tuple items =>
      rw [assign, assign]
      exact .ite (assignAll_matched targets items htarget henv) (.bind_same _ fun _ => .throw _)
    | _ => exact .bind_same Run.getStore fun _ => .throw _
  | index base key =>
    obtain ⟨hbase, hkey⟩ := htarget
    rw [assign, assign, evalExpr_congr henv.agree base hbase, evalExpr_congr henv.agree key hkey]
    refine .bind_same _ fun base => .bind_same _ fun key => .bind_same _ fun _ => ?_
    exact .pure henv
  | _ => exact .throw _
termination_by sizeOf node

theorem assignAll_matched : ∀ (targets : List Expr) (values : List Value) {env env' : Env},
    Expr.AllTargetsReadOnly p targets → env.Resembles p env' →
      Matched (Env.Resembles p) (assignAll apply trace targets values env)
        (assignAll apply trace targets values env')
  | ⟨node, ty?⟩ :: targets, value :: values, _, _, htargets, henv => by
    rw [assignAll, assignAll]
    refine (assign_matched value htargets.1 henv).bind fun _ _ henv => ?_
    exact assignAll_matched targets values htargets.2 henv
  | [], _, _, _, _, henv => .pure henv
  | _ :: _, [], _, _, _, henv => .pure henv
termination_by targets => sizeOf targets
end

theorem evalCond_congr {cond : Expr} (hcond : cond.ReadsOnly p) (henv : env.Resembles p env') :
    evalCond apply trace cond env = evalCond apply trace cond env' := by
  unfold evalCond
  rw [evalExpr_congr henv.agree cond hcond]

theorem bindMerge_matched {side : Phi → Expr} {merge : List Phi}
    (hside : ∀ phi ∈ merge, (side phi).ReadsOnly p) (henv : env.Resembles p env') :
    Matched (Env.Resembles p) (bindMerge apply trace side merge env)
      (bindMerge apply trace side merge env') := by
  have hsides : ∀ e ∈ merge.map side, e.ReadsOnly p := by
    intro e he
    obtain ⟨phi, hphi, rfl⟩ := List.mem_map.1 he
    exact hside phi hphi
  unfold bindMerge
  rw [evalExprs_congr henv.agree _ hsides]
  exact .bind_same _ fun values => .pure (henv.insertAll _)

/-- A piece of code goes on alike wherever the variables that satisfy `p` have the same values. -/
abbrev RunsAlike (p : String → Prop) (run : Env → Eval Flow) : Prop :=
  ∀ env env', env.Resembles p env' → Matched (FlowResembles p) (run env) (run env')

theorem reconcile_matched {side : Phi → Expr} {merge : List Phi}
    (hside : ∀ phi ∈ merge, (side phi).ReadsOnly p) :
    RunsAlike p (reconcile apply trace side merge) :=
  fun _ _ henv => (bindMerge_matched hside henv).bind fun _ _ henv => .pure (.next henv)

/-- What follows a block goes on from variables that resemble each other. -/
theorem andThen_matched {flow flow' : Flow} {next : Env → Eval Flow} (hnext : RunsAlike p next)
    (hflow : FlowResembles p flow flow') :
    Matched (FlowResembles p) (flow.andThen next) (flow'.andThen next) := by
  cases hflow with
  | next henv => exact hnext _ _ henv
  | ret heq => exact .pure (.ret heq)

theorem runArm_matched {fuel : Nat} {side : Phi → Expr} {block : Block} {merge : List Phi}
    (hblock : RunsAlike p (runBlock apply trace fuel block))
    (hside : ∀ phi ∈ merge, (side phi).ReadsOnly p) :
    RunsAlike p (runArm apply trace fuel side block merge) :=
  fun _ _ henv => (hblock _ _ henv).bind fun _ _ hflow =>
    andThen_matched (reconcile_matched hside) hflow

/-- A loop whose test reads only such variables and whose passes run alike runs alike. -/
theorem runLoop_matched {test : Env → Eval Bool} {pass : Env → Eval Flow}
    (htest : ∀ env env', env.Resembles p env' → test env = test env') (hpass : RunsAlike p pass)
    (fuel : Nat) : RunsAlike p (runLoop test pass fuel) := by
  induction fuel with
  | zero => exact fun _ _ _ => .throw _
  | succ fuel ih =>
    intro env env' henv
    rw [runLoop, runLoop, htest env env' henv]
    refine .bind_same _ fun _ => .ite ?_ (.pure (.next henv))
    exact (hpass env env' henv).bind fun _ _ hflow => andThen_matched ih hflow

section
variable (apply trace) (fuel : Nat)

mutual
theorem runStmt_matched : ∀ s : Stmt, s.Everywhere (Stmt.ReadsOnly p) →
    RunsAlike p (runStmt apply trace fuel s)
  | .assign ⟨node, ty?⟩ value, hs => by
    obtain ⟨htarget, hvalue⟩ := hs.1
    intro env env' henv
    rw [runStmt, runStmt, evalExpr_congr henv.agree value hvalue]
    refine .bind_same _ fun v => (assign_matched v htarget henv).bind fun _ _ henv => ?_
    exact .pure (.next henv)
  | .ret value, hs => by
    intro env env' henv
    rw [runStmt, runStmt, evalExpr_congr henv.agree value hs.1]
    exact .bind_same _ fun v => .pure (.ret rfl)
  | .branch cond onTrue onFalse merge, hs => by
    obtain ⟨⟨hcond, hmerge⟩, htrue, hfalse⟩ := Stmt.everywhere_branch.1 hs
    intro env env' henv
    rw [runStmt, runStmt, evalCond_congr hcond henv]
    refine .bind_same _ fun _ => .ite ?_ ?_
    · exact runArm_matched (runBlock_matched onTrue htrue) (fun phi h => (hmerge phi h).1) _ _ henv
    · exact runArm_matched (runBlock_matched onFalse hfalse) (fun phi h => (hmerge phi h).2) _ _ henv
  | .loop cond body merge, hs => by
    obtain ⟨⟨hcond, hmerge⟩, hbody⟩ := Stmt.everywhere_loop.1 hs
    intro env env' henv
    rw [runStmt, runStmt]
    refine (bindMerge_matched (fun phi h => (hmerge phi h).1) henv).bind fun _ _ henv => ?_
    have hpass := runArm_matched (runBlock_matched body hbody) fun phi h => (hmerge phi h).2
    exact runLoop_matched (fun _ _ henv => evalCond_congr hcond henv) hpass fuel _ _ henv
termination_by structural s => s

/-- Code that reads only variables that satisfy `p` runs alike wherever these have the same values. -/
theorem runBlock_matched : ∀ ss : Block, ss.Everywhere (Stmt.ReadsOnly p) →
    RunsAlike p (runBlock apply trace fuel ss)
  | [], _ => fun _ _ henv => .pure (.next henv)
  | s :: ss, hs => by
    obtain ⟨hs, hss⟩ := Block.everywhere_cons.1 hs
    intro env env' henv
    rw [runBlock, runBlock]
    exact (runStmt_matched s hs env env' henv).bind fun _ _ hflow =>
      andThen_matched (runBlock_matched ss hss) hflow
termination_by structural ss => ss
end

end

/-! ## The points of a run -/

/-- What holds at the points of a run, and of variables that resemble the ones there, holds at the points
of a run from variables that resemble those at its start. -/
def Walk.Carries (p : String → Prop) (w : Walk) : Prop :=
  ∀ P Q : AtPoint, (∀ point env env' σ, env.Resembles p env' → P point env σ → Q point env' σ) →
    ∀ env env' σ, env.Resembles p env' → w P env σ → w Q env' σ

namespace Walk.Carries

variable {w w' : Walk}

theorem here (point : Point) : Carries p (.here point) :=
  fun _ _ h env env' σ henv hP => h point env env' σ henv hP

theorem startAt (point : Point) (hw : w.Carries p) : (w.startAt point).Carries p :=
  fun P Q h env env' σ henv hP => ⟨h point env env' σ henv hP.1, hw P Q h env env' σ henv hP.2⟩

theorem andThen {run : Env → Eval Flow} (hrun : RunsAlike p run) (hw : w.Carries p)
    (hw' : w'.Carries p) : (w.andThen run w').Carries p := by
  intro P Q h env env' σ henv hP
  refine ⟨hw P Q h env env' σ henv hP.1, fun env₁' σ' hx' => ?_⟩
  obtain ⟨flow, hx, hflow⟩ := (hrun env env' henv).ok_left hx'
  cases hflow with
  | next henv₁ => exact hw' P Q h _ env₁' σ' henv₁ (hP.2 _ σ' hx)

theorem branch {test : Env → Eval Bool}
    (htest : ∀ env env', env.Resembles p env' → test env = test env') (hw : w.Carries p)
    (hw' : w'.Carries p) : (Walk.branch test w w').Carries p := by
  intro P Q h env env' σ henv hP b σ' hx
  rw [← htest env env' henv] at hx
  have hP := hP b σ' hx
  cases b with
  | true => exact hw P Q h env env' σ' henv hP
  | false => exact hw' P Q h env env' σ' henv hP

theorem loop {test : Env → Eval Bool} {pass : Env → Eval Flow}
    (htest : ∀ env env', env.Resembles p env' → test env = test env') (hpass : RunsAlike p pass)
    (hw : w.Carries p) (fuel : Nat) : (Walk.loop test pass w fuel).Carries p := by
  induction fuel with
  | zero => exact fun _ _ _ _ _ _ _ _ => trivial
  | succ fuel ih => exact ((hw.andThen hpass ih).branch htest (.here _)).startAt _

end Walk.Carries

section
variable (apply trace) (fuel : Nat)

mutual
theorem stmtWalk_carries : ∀ s : Stmt, s.Everywhere (Stmt.ReadsOnly p) →
    (stmtWalk apply trace fuel s).Carries p
  | .assign _ _, _ => .here _
  | .ret _, _ => .here _
  | .branch cond onTrue onFalse merge, hs => by
    obtain ⟨⟨hcond, -⟩, htrue, hfalse⟩ := Stmt.everywhere_branch.1 hs
    have harm {block : Block} (hblock : block.Everywhere (Stmt.ReadsOnly p))
        (hwalk : (blockWalk apply trace fuel block).Carries p) (side : Phi → Expr) :
        (armWalk apply trace fuel side block merge (blockWalk apply trace fuel block)).Carries p :=
      .andThen (runBlock_matched apply trace fuel block hblock) hwalk (.here _)
    exact .startAt _ (.branch (fun _ _ henv => evalCond_congr hcond henv)
      (harm htrue (blockWalk_carries onTrue htrue) Phi.left)
      (harm hfalse (blockWalk_carries onFalse hfalse) Phi.right))
  | .loop cond body merge, hs => by
    obtain ⟨⟨hcond, hmerge⟩, hbody⟩ := Stmt.everywhere_loop.1 hs
    have hblock := runBlock_matched apply trace fuel body hbody
    have hpass := runArm_matched hblock fun phi h => (hmerge phi h).2
    refine .startAt _ (.andThen (reconcile_matched fun phi h => (hmerge phi h).1) (.here _) ?_)
    exact .loop (fun _ _ henv => evalCond_congr hcond henv) hpass
      (.andThen hblock (blockWalk_carries body hbody) (.here _)) fuel
termination_by structural s => s

/-- The points of two such runs have variables that resemble each other. -/
theorem blockWalk_carries : ∀ ss : Block, ss.Everywhere (Stmt.ReadsOnly p) →
    (blockWalk apply trace fuel ss).Carries p
  | [], _ => .here _
  | s :: ss, hs => by
    obtain ⟨hs, hss⟩ := Block.everywhere_cons.1 hs
    exact .andThen (runStmt_matched apply trace fuel s hs) (stmtWalk_carries s hs)
      (blockWalk_carries ss hss)
termination_by structural ss => ss
end

end
end Interpreter

end ArrayLang
