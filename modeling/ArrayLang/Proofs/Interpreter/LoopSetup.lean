import ArrayLang.Proofs.Interpreter.Sequence
import ArrayLang.Proofs.Interpreter.Walk
import ArrayLang.Proofs.Typing.Emission

/-!
# Temporaries of loop conditions

The statements that set the temporaries of a loop's condition run before the loop and at the end of every
pass, and the reconciled variables are bound after them. So at each test the temporaries hold what they
were set to while the reconciled variables still had their previous values. They are what their statements
would give at the test itself if nothing is reconciled, and every expression that reads no reconciled
variable means the same at the test as where its temporaries were set.

## Main results

- `ReachesTest.invariant`: what holds of the first test and after every pass holds of every test.
- `LastTest.prepared`: at each test the setup was the last to run before the merge.
- `LastTest.temporaries_of_lowered`: what the temporaries of a lowered condition hold at each test.
-/

namespace ArrayLang.Interpreter

open Run Lower

variable {apply : Apply} {trace : Trace} {fuel : Nat} {env env' env₁ : Env}
  {σ σ' σ₁ : State Session}

/-! ## Statements that set variables -/

/-- A statement that only sets some variables goes on and binds no others. -/
theorem setsOnly_passes {p : String → Prop} {s : Stmt} (h : s.SetsOnly p) :
    s.Everywhere (Stmt.Passes (¬p ·)) := by
  cases s with
  | assign target value =>
    refine Stmt.everywhere_assign.2 fun x hx hp => ?_
    obtain ⟨node, ty?⟩ := target
    cases node with
    | var name => exact hp (List.mem_singleton.1 hx ▸ h)
    | index base key => cases hx
    | _ => exact h.elim
  | _ => exact h.elim

/-- What only sets some variables goes on and leaves all others as they are. -/
theorem runBlock_setsOnly {p : String → Prop} {ss : Block} (hss : ∀ s ∈ ss, s.SetsOnly p)
    {flow : Flow} (h : exec (runBlock apply trace fuel ss env) σ = (.ok flow, σ')) :
    ∃ env', flow = .next env' ∧ env.Agree (¬p ·) env' :=
  have hpasses := Block.everywhere_iff.2 fun s hs => setsOnly_passes (hss s hs)
  runBlock_goesOn apply trace fuel ss hpasses env σ flow σ' trivial h

/-! ## Tests of a loop -/

/-- A loop that is at a test of its condition with `fuel` passes left comes to a test at `env'` and
`σ'`, with `fuel'` passes left. -/
inductive ReachesTest (test : Env → Eval Bool) (pass : Env → Eval Flow) :
    Nat → Env → State Session → Nat → Env → State Session → Prop
  | here {fuel : Nat} {env : Env} {σ : State Session} :
    ReachesTest test pass (fuel + 1) env σ (fuel + 1) env σ
  | after {fuel fuel' : Nat} {env env₁ env' : Env} {σ σ₀ σ₁ σ' : State Session}
    (htest : exec (test env) σ = (.ok true, σ₀))
    (hpass : exec (pass env) σ₀ = (.ok (.next env₁), σ₁))
    (h : ReachesTest test pass fuel env₁ σ₁ fuel' env' σ') :
    ReachesTest test pass (fuel + 1) env σ fuel' env' σ'

namespace ReachesTest

variable {test : Env → Eval Bool} {pass : Env → Eval Flow} {fuel' : Nat}

/-- From a test that is reached the loop goes on as from its first test. -/
theorem exec_runLoop (h : ReachesTest test pass fuel env σ fuel' env' σ') :
    exec (runLoop test pass fuel env) σ = exec (runLoop test pass fuel' env') σ' := by
  induction h with
  | here => rfl
  | after htest hpass _ ih =>
    rw [← ih, runLoop, exec_bind_ok htest, if_pos rfl, exec_bind_ok hpass]

/-- What holds of the first test and after every pass holds of every test. -/
theorem invariant {J : Env → State Session → Prop}
    (h : ReachesTest test pass fuel env σ fuel' env' σ') (hstart : J env σ)
    (hpass : ∀ env σ env₁ σ₁, exec (pass env) σ = (.ok (.next env₁), σ₁) → J env₁ σ₁) :
    J env' σ' := by
  induction h with
  | here => exact hstart
  | after _ hnext _ ih => exact ih (hpass _ _ _ _ hnext)

end ReachesTest

/-! ## Tests after a setup -/

/-- The statements ran to their end at `env₁` and `σ₁`, and then the reconciled variables were bound. -/
structure Prepared (apply : Apply) (trace : Trace) (fuel : Nat) (setup : Block) (merge : List Phi)
    (env₁ : Env) (σ₁ : State Session) (env' : Env) (σ' : State Session) : Prop where
  ran : ∃ env₀ σ₀, exec (runBlock apply trace fuel setup env₀) σ₀ = (.ok (.next env₁), σ₁)
  bound : exec (bindMerge apply trace Phi.left merge env₁) σ₁ = (.ok env', σ')
    ∨ exec (bindMerge apply trace Phi.right merge env₁) σ₁ = (.ok env', σ')

namespace Prepared

variable {setup : Block} {merge : List Phi}

/-- All variables that are not reconciled are as the setup left them. -/
theorem agree (h : Prepared apply trace fuel setup merge env₁ σ₁ env' σ') :
    env₁.Agree (· ∉ merge.map (·.name)) env' :=
  h.bound.elim bindMerge_agree bindMerge_agree

/-- An expression that reads no reconciled variable means the same as where the setup ended. -/
theorem evalExpr_eq (h : Prepared apply trace fuel setup merge env₁ σ₁ env' σ') {e : Expr}
    (he : e.ReadsOnly (· ∉ merge.map (·.name))) :
    evalExpr apply trace env' e = evalExpr apply trace env₁ e :=
  (evalExpr_congr h.agree e he).symm

/-- Temporaries are as the setup left them when source code named the reconciled variables. -/
theorem find?_temporary (h : Prepared apply trace fuel setup merge env₁ σ₁ env' σ')
    (hmerge : ∀ phi ∈ merge, Dotless phi.name) {x : String} (hx : Temporary x) :
    env'.find? x = env₁.find? x := by
  refine (h.agree x fun hmem => ?_).symm
  obtain ⟨phi, hphi, rfl⟩ := List.mem_map.1 hmem
  exact hx (hmerge phi hphi)

/-- Where nothing is reconciled, the setup ended at the test itself. -/
theorem eq_of_nil (h : Prepared apply trace fuel setup [] env₁ σ₁ env' σ') :
    env' = env₁ ∧ σ' = σ₁ := by
  rcases h.bound with hbound | hbound
  all_goals
    cases hbound
    exact ⟨rfl, rfl⟩

end Prepared

/-- The run of a block that ends with a loop comes to a test of that loop, with `fuel'` passes left. -/
inductive LastTest (apply : Apply) (trace : Trace) (fuel : Nat) (env : Env) (σ : State Session) :
    Block → Nat → Env → State Session → Prop
  | mk {before : Block} {cond : Expr} {body : Block} {merge : List Phi} {fuel' : Nat}
    {env₁ env₂ env' : Env} {σ₁ σ₂ σ' : State Session}
    (hbefore : exec (runBlock apply trace fuel before env) σ = (.ok (.next env₁), σ₁))
    (henter : exec (bindMerge apply trace Phi.left merge env₁) σ₁ = (.ok env₂, σ₂))
    (h : ReachesTest (evalCond apply trace cond) (runArm apply trace fuel Phi.right body merge) fuel
      env₂ σ₂ fuel' env' σ') :
    LastTest apply trace fuel env σ (before ++ [.loop cond body merge]) fuel' env' σ'

namespace LastTest

variable {before body : Block} {cond : Expr} {merge : List Phi} {fuel' : Nat}

/-- The block goes on from such a test. -/
theorem exec_runBlock
    (h : LastTest apply trace fuel env σ (before ++ [.loop cond body merge]) fuel' env' σ') :
    exec (runBlock apply trace fuel (before ++ [.loop cond body merge]) env) σ
      = exec (runLoop (evalCond apply trace cond)
          (runArm apply trace fuel Phi.right body merge) fuel' env') σ' := by
  generalize hblock : before ++ [Stmt.loop cond body merge] = block at h
  obtain ⟨hbefore, henter, hreach⟩ := h
  obtain ⟨rfl, hloop⟩ := List.append_inj' hblock rfl
  cases hloop
  rw [runBlock_append, exec_bind_ok hbefore]
  show exec (runBlock apply trace fuel [.loop cond body merge] _) _ = _
  rw [runBlock_singleton, runStmt, exec_bind_ok henter, ← hreach.exec_runLoop]
  rfl

/-- At each test of a loop whose setup stands before it and at the end of its body, the setup was the
last to run before the reconciled variables were bound. -/
theorem prepared {setup : Block}
    (h : LastTest apply trace fuel env σ (before ++ setup ++ [.loop cond (body ++ setup) merge])
      fuel' env' σ') :
    ∃ env₁ σ₁, Prepared apply trace fuel setup merge env₁ σ₁ env' σ' := by
  generalize hblock : before ++ setup ++ [Stmt.loop cond (body ++ setup) merge] = block at h
  obtain ⟨hbefore, henter, hreach⟩ := h
  obtain ⟨rfl, hloop⟩ := List.append_inj' hblock rfl
  cases hloop
  refine hreach.invariant
    (J := fun env' σ' => ∃ env₁ σ₁, Prepared apply trace fuel setup merge env₁ σ₁ env' σ') ?_ ?_
  -- The setup ends the block before the loop, and it ends the body.
  · obtain ⟨env₀, σ₀, -, hsetup⟩ := exec_runBlock_append.1 hbefore
    exact ⟨_, _, ⟨env₀, σ₀, hsetup⟩, .inl henter⟩
  · intro env σ env₂ σ₂ hpass
    obtain ⟨flow, σ₁, hrun, hpass⟩ := exec_bind_eq_ok hpass
    cases flow with
    | ret value => cases hpass
    | next env₁ =>
      obtain ⟨env₂', σ₂', hbind, hpass⟩ := exec_bind_eq_ok hpass
      cases hpass
      obtain ⟨env₀, σ₀, -, hsetup⟩ := exec_runBlock_append.1 hrun
      exact ⟨env₁, σ₁, ⟨env₀, σ₀, hsetup⟩, .inr hbind⟩

/-- At each test of a lowered loop the temporaries of its condition are as the statements that set them
left them, which ran right before the reconciled variables were bound. -/
theorem prepared_of_lowered {specialize : Specializer} {block : Block}
    (hform : LoopForm specialize cond merge block)
    (h : LastTest apply trace fuel env σ block fuel' env' σ') :
    ∃ cond' setup phis env₁ σ₁, ConditionOf specialize cond cond' setup
      ∧ (∀ s ∈ setup, s.SetsOnly Temporary) ∧ phis.map (·.name) = merge.map (·.name)
      ∧ Prepared apply trace fuel setup phis env₁ σ₁ env' σ' := by
  obtain ⟨hcond, -, hsetup, hnames⟩ := hform
  rw [← List.append_assoc] at h
  obtain ⟨env₁, σ₁, hprepared⟩ := h.prepared
  exact ⟨_, _, _, env₁, σ₁, hcond, hsetup, hnames, hprepared⟩

/-- At each test of a lowered loop the temporaries of its condition have the values that they were set
to from the variables of source code, which have changed since then where they are reconciled. -/
theorem temporaries_of_lowered {specialize : Specializer} {block : Block}
    (hform : LoopForm specialize cond merge block) (hmerge : ∀ phi ∈ merge, Dotless phi.name)
    (h : LastTest apply trace fuel env σ block fuel' env' σ') :
    ∃ cond' setup env₀ σ₀ env₁ σ₁, ConditionOf specialize cond cond' setup
      ∧ exec (runBlock apply trace fuel setup env₀) σ₀ = (.ok (.next env₁), σ₁)
      ∧ env₀.Agree (¬Temporary ·) env₁
      ∧ (∀ x, Temporary x → env'.find? x = env₁.find? x)
      ∧ (∀ e : Expr, e.ReadsOnly (· ∉ merge.map (·.name)) →
          evalExpr apply trace env' e = evalExpr apply trace env₁ e)
      ∧ (merge = [] → env' = env₁ ∧ σ' = σ₁) := by
  obtain ⟨cond', setup, phis, env₁, σ₁, hcond, hsetup, hnames, hprepared⟩ :=
    h.prepared_of_lowered hform
  obtain ⟨env₀, σ₀, hran⟩ := hprepared.ran
  have hdotless : ∀ phi ∈ phis, Dotless phi.name := by
    intro phi hphi
    have hmem : phi.name ∈ merge.map (·.name) := hnames ▸ List.mem_map_of_mem hphi
    obtain ⟨source, hsource, heq⟩ := List.mem_map.1 hmem
    exact heq ▸ hmerge source hsource
  obtain ⟨_, hflow, hagree⟩ := runBlock_setsOnly hsetup hran
  cases hflow
  refine ⟨cond', setup, env₀, σ₀, env₁, σ₁, hcond, hran, hagree, ?_, ?_, ?_⟩
  · exact fun x hx => hprepared.find?_temporary hdotless hx
  · exact fun e he => hprepared.evalExpr_eq (hnames ▸ he)
  · rintro rfl
    obtain rfl : phis = [] := List.map_eq_nil_iff.1 hnames
    exact hprepared.eq_of_nil

end LastTest
end ArrayLang.Interpreter
