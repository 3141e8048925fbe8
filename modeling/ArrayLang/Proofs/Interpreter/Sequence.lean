import ArrayLang.Proofs.Dataflow.Path
import ArrayLang.Proofs.Interpreter.AlikeStatement
import ArrayLang.Proofs.Interpreter.Itinerary
import ArrayLang.Proofs.Interpreter.Reads

/-!
# Blocks in sequence

Two blocks in sequence run one after the other, unless the first one returns. Code in which nothing
returns goes on, and the variables that it does not bind keep their values.
-/

namespace ArrayLang

/-- The statement itself, not those in its blocks, names only variables that satisfy `p`. -/
def Stmt.NamesOnly (p : String → Prop) : Stmt → Prop
  | .assign target value => target.ReadsOnly p ∧ value.ReadsOnly p
  | .ret value => value.ReadsOnly p
  | .branch cond _ _ merge | .loop cond _ merge => cond.ReadsOnly p ∧ ∀ phi ∈ merge, phi.Within p

/-- The statement itself, not those in its blocks, returns nothing and binds no variable that satisfies
`q`. -/
def Stmt.Passes (q : String → Prop) : Stmt → Prop
  | .assign target _ => ∀ x ∈ target.targetVars, ¬q x
  | .ret _ => False
  | .branch _ _ _ merge | .loop _ _ merge => ∀ phi ∈ merge, ¬q phi.name

section
variable {p : String → Prop}

mutual
theorem Stmt.within_of_everywhere : ∀ s : Stmt, s.Everywhere (Stmt.NamesOnly p) → s.Within p
  | .assign _ _, h => h.1
  | .ret _, h => h.1
  | .branch _ onTrue onFalse _, h => by
    obtain ⟨hself, htrue, hfalse⟩ := Stmt.everywhere_branch.1 h
    exact ⟨hself.1, allWithin_of_everywhere onTrue htrue, allWithin_of_everywhere onFalse hfalse,
      hself.2⟩
  | .loop _ body _, h => by
    obtain ⟨hself, hbody⟩ := Stmt.everywhere_loop.1 h
    exact ⟨hself.1, allWithin_of_everywhere body hbody, hself.2⟩
termination_by structural s => s

theorem Stmt.allWithin_of_everywhere :
    ∀ ss : Block, ss.Everywhere (Stmt.NamesOnly p) → Stmt.AllWithin p ss
  | [], _ => trivial
  | s :: ss, h => by
    obtain ⟨hs, hss⟩ := Block.everywhere_cons.1 h
    exact ⟨within_of_everywhere s hs, allWithin_of_everywhere ss hss⟩
termination_by structural ss => ss
end

end

namespace Interpreter

open Run

variable {apply : Apply} {trace : Trace} {fuel : Nat} {env env' : Env} {σ σ' : State Session}

theorem runBlock_append (ss ss' : Block) (env : Env) :
    runBlock apply trace fuel (ss ++ ss') env
      = runBlock apply trace fuel ss env >>= (·.andThen (runBlock apply trace fuel ss')) := by
  induction ss generalizing env with
  | nil =>
    rw [List.nil_append, runBlock, pure_bind]
    rfl
  | cons s ss ih =>
    rw [List.cons_append, runBlock, runBlock, bind_assoc]
    refine congrArg _ (funext fun flow => ?_)
    cases flow with
    | ret value => rfl
    | next env => exact ih env

theorem runBlock_singleton (s : Stmt) (env : Env) :
    runBlock apply trace fuel [s] env = runStmt apply trace fuel s env := by
  rw [runBlock]
  refine Eq.trans (congrArg _ (funext fun flow => ?_)) (bind_pure _)
  cases flow <;> rfl

/-- Control goes on after two blocks when it goes on after each. -/
theorem exec_runBlock_append {ss ss' : Block} :
    exec (runBlock apply trace fuel (ss ++ ss') env) σ = (.ok (.next env'), σ') ↔
      ∃ env₁ σ₁, exec (runBlock apply trace fuel ss env) σ = (.ok (.next env₁), σ₁)
        ∧ exec (runBlock apply trace fuel ss' env₁) σ₁ = (.ok (.next env'), σ') := by
  rw [runBlock_append]
  constructor
  · intro h
    obtain ⟨flow, σ₁, hflow, h⟩ := exec_bind_eq_ok h
    cases flow with
    | ret value => cases h
    | next env₁ => exact ⟨env₁, σ₁, hflow, h⟩
  · rintro ⟨env₁, σ₁, hflow, h⟩
    rw [exec_bind_ok hflow]
    exact h

/-- Where control goes on after a statement, the rest of the block runs. -/
theorem exec_runBlock_cons {s : Stmt} (h : exec (runStmt apply trace fuel s env) σ = (.ok (.next env'), σ'))
    (ss : Block) : exec (runBlock apply trace fuel (s :: ss) env) σ
      = exec (runBlock apply trace fuel ss env') σ' := by
  rw [runBlock, exec_bind_ok h]

/-- Where control goes on after a block, what stands after it runs. -/
theorem exec_runBlock_after {ss : Block}
    (h : exec (runBlock apply trace fuel ss env) σ = (.ok (.next env'), σ')) (ss' : Block) :
    exec (runBlock apply trace fuel (ss ++ ss') env) σ
      = exec (runBlock apply trace fuel ss' env') σ' := by
  rw [runBlock_append, exec_bind_ok h]
  rfl

/-- An assignment evaluates its value and binds it, and control goes on. -/
theorem exec_runStmt_assign {target value : Expr} {flow : Flow} :
    exec (runStmt apply trace fuel (.assign target value) env) σ = (.ok flow, σ') ↔
      ∃ v σ₁ env', exec (evalExpr apply trace env value) σ = (.ok v, σ₁)
        ∧ exec (assign apply trace target v env) σ₁ = (.ok env', σ') ∧ flow = .next env' := by
  rw [runStmt]
  constructor
  · intro h
    obtain ⟨v, σ₁, hv, h⟩ := exec_bind_eq_ok h
    obtain ⟨env', _, hassign, h⟩ := exec_bind_eq_ok h
    cases h
    exact ⟨v, σ₁, env', hv, hassign, rfl⟩
  · rintro ⟨v, σ₁, env', hv, hassign, rfl⟩
    rw [exec_bind_ok hv, exec_bind_ok hassign]
    rfl

/-- Writing to a part of an array binds no variable. -/
theorem exec_assign_index {base key : Expr} {ty? : Option Ty} {v : Value}
    (h : exec (assign apply trace ⟨.index base key, ty?⟩ v env) σ = (.ok env', σ')) : env' = env := by
  rw [assign] at h
  obtain ⟨_, _, -, h⟩ := exec_bind_eq_ok h
  obtain ⟨_, _, -, h⟩ := exec_bind_eq_ok h
  obtain ⟨_, _, -, h⟩ := exec_bind_eq_ok h
  cases h
  rfl

/-- Reconciling binds the reconciled variables and no others. -/
theorem bindMerge_agree {side : Phi → Expr} {merge : List Phi}
    (h : exec (bindMerge apply trace side merge env) σ = (.ok env', σ')) :
    env.Agree (· ∉ merge.map (·.name)) env' := by
  obtain ⟨values, τ, -, h⟩ := exec_bind_eq_ok h
  cases h
  exact (Env.Agree.refl env).insertAll (fun _ hname hnot => hnot hname) values

/-! ## Code that goes on -/

variable {q : String → Prop}

/-- Where it succeeds control goes on, and the variables that satisfy `q` keep their values. -/
def GoesOn (q : String → Prop) (run : Env → Eval Flow) : Prop :=
  ∀ env, Yields (fun _ => True) (fun flow _ => ∃ env', flow = .next env' ∧ env.Agree q env') (run env)

namespace GoesOn

variable {run run' : Env → Eval Flow}

theorem next : GoesOn q fun env => pure (.next env) :=
  fun env => .pure fun _ _ => ⟨env, rfl, .refl env⟩

theorem andThen (h : GoesOn q run) (h' : GoesOn q run') :
    GoesOn q fun env => run env >>= (·.andThen run') := by
  refine fun env => (h env).bind fun flow => ?_
  rintro σ flow' σ' ⟨env₁, rfl, hagree⟩ hx
  obtain ⟨env', rfl, hagree'⟩ := h' env₁ σ flow' σ' trivial hx
  exact ⟨env', rfl, hagree.trans hagree'⟩

theorem branch (test : Env → Eval Bool) (h : GoesOn q run) (h' : GoesOn q run') :
    GoesOn q fun env => (do if ← test env then run env else run' env) :=
  fun env => Yields.bind (Q := fun _ _ => True) (fun _ _ _ _ _ => trivial)
    fun _ => .ite (h env) (h' env)

theorem loop (test : Env → Eval Bool) (h : GoesOn q run) (fuel : Nat) :
    GoesOn q (runLoop test run fuel) := by
  induction fuel with
  | zero => exact fun _ => .throw _
  | succ fuel ih => exact branch test (h.andThen ih) next

end GoesOn

section
variable (apply trace fuel)

/-- What goes on after variables have been reconciled. -/
theorem bindMerge_goesOn (side : Phi → Expr) {merge : List Phi} (h : ∀ phi ∈ merge, ¬q phi.name)
    {run : Env → Eval Flow} (hrun : GoesOn q run) :
    GoesOn q fun env => bindMerge apply trace side merge env >>= run := by
  intro env σ flow σ' _ hx
  obtain ⟨env₁, τ, hbind, hx⟩ := exec_bind_eq_ok hx
  obtain ⟨env', rfl, hagree⟩ := hrun env₁ τ flow σ' trivial hx
  refine ⟨env', rfl, fun x hx => (bindMerge_agree hbind x fun hmem => ?_).trans (hagree x hx)⟩
  obtain ⟨phi, hphi, rfl⟩ := List.mem_map.1 hmem
  exact h phi hphi hx

theorem assign_goesOn {target value : Expr} (h : ∀ x ∈ target.targetVars, ¬q x) :
    GoesOn q (runStmt apply trace fuel (.assign target value)) := by
  intro env σ flow σ' _ hx
  obtain ⟨v, σ₁, env', -, hassign, rfl⟩ := exec_runStmt_assign.1 hx
  obtain ⟨node, ty?⟩ := target
  obtain ⟨rfl, hnames⟩ := assign_yields apply trace v env σ₁ env' _ trivial hassign
  refine ⟨_, rfl, ?_⟩
  have hagree := (Env.Agree.refl (p := q) env).insertAll (fun name hname => h name (hnames ▸ hname))
    ((Expr.assigned ⟨node, ty?⟩ v).map (·.2))
  rwa [← List.unzip_fst, ← List.unzip_snd, List.zip_unzip] at hagree

mutual
theorem runStmt_goesOn : ∀ s : Stmt, s.Everywhere (Stmt.Passes q) →
    GoesOn q (runStmt apply trace fuel s)
  | .assign _ _, h => assign_goesOn apply trace fuel h.1
  | .ret _, h => h.1.elim
  | .branch _ onTrue onFalse _, h => by
    obtain ⟨hself, htrue, hfalse⟩ := Stmt.everywhere_branch.1 h
    exact .branch _ ((runBlock_goesOn onTrue htrue).andThen (bindMerge_goesOn _ _ Phi.left hself .next))
      ((runBlock_goesOn onFalse hfalse).andThen (bindMerge_goesOn _ _ Phi.right hself .next))
  | .loop cond body merge, h => by
    obtain ⟨hself, hbody⟩ := Stmt.everywhere_loop.1 h
    exact bindMerge_goesOn apply trace Phi.left hself (.loop _
      ((runBlock_goesOn body hbody).andThen (bindMerge_goesOn apply trace Phi.right hself .next)) fuel)
termination_by structural s => s

/-- A block in which nothing returns goes on, and the variables that it does not bind keep their
values. -/
theorem runBlock_goesOn : ∀ ss : Block, ss.Everywhere (Stmt.Passes q) →
    GoesOn q (runBlock apply trace fuel ss)
  | [], _ => .next
  | s :: ss, h => by
    obtain ⟨hs, hss⟩ := Block.everywhere_cons.1 h
    exact (runStmt_goesOn s hs).andThen (runBlock_goesOn ss hss)
termination_by structural ss => ss
end

end
end Interpreter
end ArrayLang
