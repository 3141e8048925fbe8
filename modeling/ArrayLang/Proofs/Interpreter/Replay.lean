import ArrayLang.Proofs.Interpreter.Itinerary

/-!
# Definitions and variables

The definitions in the log of a run account for its variables: at every point a variable has the value of
the last definition of it that was made, loops included.

## Main results

- `followBlock_accounts`: the variables of a run are those that its definitions have made.
- `find?_replay`: among these, the last definition of a variable counts.
-/

namespace ArrayLang.Interpreter

open Logged

variable {α β : Type} {env : Env}

/-- The variables after some events. -/
def replay (env : Env) : List Event → Env
  | [] => env
  | .visit _ :: es => replay env es
  | .define _ name value :: es => replay (env.insert name value) es

/-- The variables at every point are those that the definitions before it have made. -/
def Accounted (env : Env) : List Event → Prop
  | [] => True
  | .visit v :: es => v.env = env ∧ Accounted env es
  | .define _ name value :: es => Accounted (env.insert name value) es

theorem replay_append (env : Env) (es es' : List Event) :
    replay env (es ++ es') = replay (replay env es) es' := by
  induction es generalizing env with
  | nil => rfl
  | cons e es ih =>
    cases e with
    | visit v => exact ih env
    | define point name value => exact ih (env.insert name value)

theorem accounted_append {es es' : List Event} :
    Accounted env (es ++ es') ↔ Accounted env es ∧ Accounted (replay env es) es' := by
  induction es generalizing env with
  | nil => exact (and_iff_right trivial).symm
  | cons e es ih =>
    cases e with
    | visit v => exact (and_congr_right fun _ => ih).trans and_assoc.symm
    | define point name value => exact ih

/-- The events of definitions make these definitions. -/
theorem replay_definitions (env : Env) (point : Path) (bindings : List (String × Value)) :
    Accounted env (bindings.map fun (name, value) => .define point name value)
      ∧ replay env (bindings.map fun (name, value) => .define point name value)
        = env.insertAll bindings := by
  induction bindings generalizing env with
  | nil => exact ⟨trivial, rfl⟩
  | cons binding bindings ih => exact ih _

/-- A variable has the value of its last definition, or the one that it had before. -/
theorem find?_replay (env : Env) (es : List Event) (name : String) :
    (replay env es).find? name
      = ((definitions name es).getLast?.map (·.2)).or (env.find? name) := by
  induction es generalizing env with
  | nil => rfl
  | cons e es ih =>
    cases e with
    | visit v => exact ih env
    | define point other value =>
      rw [replay, ih, NameMap.find?_insert, definitions]
      by_cases h : other = name
      · rw [if_pos h.symm, if_pos h, List.getLast?_cons]
        cases (definitions name es).getLast? <;> rfl
      · rw [if_neg fun heq => h heq.symm, if_neg h]

/-! ## Computations -/

/-- From some variables on, the variables at every point of a computation are those that its definitions
have made, and those at its end, if it succeeds, go with its result. -/
def Logged.Accounts (env : Env) (ends : α → Env → Prop) (x : Logged α) : Prop :=
  ∀ σ, Accounted env (events x σ)
    ∧ ∀ a σ', Run.exec (erase x) σ = (.ok a, σ') → ends a (replay env (events x σ))

namespace Logged.Accounts

variable {ends : α → Env → Prop} {x : Logged α}

theorem pure {a : α} (h : ends a env) : Accounts env ends (Pure.pure a) := by
  refine fun σ => ⟨trivial, fun a' σ' hx => ?_⟩
  cases hx
  exact h

theorem throw (e : Stop) : Accounts env ends (throw e : Logged α) :=
  fun _ => ⟨trivial, nofun⟩

theorem bind {f : α → Logged β} {ends' : β → Env → Prop} (hx : Accounts env ends x)
    (hf : ∀ a env', ends a env' → Accounts env' ends' (f a)) : Accounts env ends' (x >>= f) := by
  intro σ
  obtain ⟨hlog, hends⟩ := hx σ
  rw [events_bind, erase_bind, Run.exec_bind]
  cases h : Run.exec (erase x) σ with
  | mk r σ' =>
    cases r with
    | error e => exact ⟨accounted_append.2 ⟨hlog, trivial⟩, nofun⟩
    | ok a =>
      obtain ⟨hlog', hends'⟩ := hf a _ (hends a σ' h) σ'
      refine ⟨accounted_append.2 ⟨hlog, hlog'⟩, fun b σ'' hb => ?_⟩
      rw [replay_append]
      exact hends' b σ'' hb

/-- Visiting a point with its variables and going on from there. -/
theorem visit {path : Path} {s : Stmt} {part? : Option Nat} {f : Unit → Logged β}
    {ends : β → Env → Prop} (hf : Accounts env ends (f ())) :
    Accounts env ends (Logged.visit ⟨path, s, part?, env⟩ >>= f) := by
  have hvisit : Accounts env (fun _ env' => env' = env) (Logged.visit ⟨path, s, part?, env⟩) :=
    fun _ => ⟨⟨rfl, trivial⟩, fun _ _ _ => rfl⟩
  refine hvisit.bind fun _ env' h => ?_
  cases h
  exact hf

theorem silent {x : Eval α} {f : α → Logged β} {ends : β → Env → Prop}
    (hf : ∀ a, Accounts env ends (f a)) : Accounts env ends (Logged.silent x >>= f) := by
  have hsilent : Accounts env (fun _ env' => env' = env) (Logged.silent x) :=
    fun _ => ⟨trivial, fun _ _ _ => rfl⟩
  refine hsilent.bind fun a env' h => ?_
  cases h
  exact hf a

theorem define (point : Path) (bindings : List (String × Value)) :
    Accounts env (fun env' env'' => env'' = env') (Logged.define point bindings env) := by
  obtain ⟨hlog, hends⟩ := replay_definitions env point bindings
  intro σ
  rw [events_define]
  refine ⟨hlog, fun env' σ' hx => ?_⟩
  cases hx
  exact hends

/-- Going on with the variables that a computation has as its result. -/
theorem bindEnv {x : Logged Env} {f : Env → Logged β} {ends : β → Env → Prop}
    (hx : Accounts env (fun env' env'' => env'' = env') x)
    (hf : ∀ env', Accounts env' ends (f env')) : Accounts env ends (x >>= f) := by
  refine hx.bind fun env' env'' h => ?_
  cases h
  exact hf env'

theorem ite {b : Bool} {y : Logged α} (hx : Accounts env ends x) (hy : Accounts env ends y) :
    Accounts env ends (if b then x else y) := by
  split
  · exact hx
  · exact hy

end Logged.Accounts

/-- The variables that control goes on with, if it does. -/
def Leaves (flow : Flow) (env : Env) : Prop :=
  ∀ env', flow = .next env' → env = env'

theorem leaves_next (env : Env) : Leaves (.next env) env := by
  intro env' h
  cases h
  rfl

theorem leaves_ret (value : Value) (env : Env) : Leaves (.ret value) env :=
  nofun

theorem followLoop_accounts {test : Env → Logged Bool} {pass : Env → Logged Flow}
    (htest : ∀ env, Accounts env (fun _ env' => env' = env) (test env))
    (hpass : ∀ env, Accounts env Leaves (pass env)) (fuel : Nat) :
    ∀ env, Accounts env Leaves (followLoop test pass fuel env) := by
  induction fuel with
  | zero => exact fun _ => .throw _
  | succ fuel ih =>
    intro env
    refine (htest env).bind fun b env' henv' => ?_
    cases henv'
    -- The next pass starts with the variables that this one leaves.
    refine .ite ((hpass env).bind fun flow env' henv' => ?_) (.pure (leaves_next env))
    cases flow with
    | ret value => exact .pure (leaves_ret value env')
    | next env'' =>
      cases henv' env'' rfl
      exact ih env'

/-! ## Statements -/

section
variable (apply : Apply) (trace : Trace) (path : Path) (s : Stmt)

theorem followCond_accounts (part : Nat) (cond : Expr) (env : Env) :
    Accounts env (fun _ env' => env' = env) (followCond apply trace path s part cond env) :=
  .visit fun _ => ⟨trivial, fun _ _ _ => rfl⟩

theorem followMerge_accounts (part : Nat) (side : Phi → Expr) (merge : List Phi) (env : Env) :
    Accounts env (fun env' env'' => env'' = env')
      (followMerge apply trace path s part side merge env) :=
  .visit (.silent fun _ => .define _ _)

theorem followArm_accounts (part : Nat) (side : Phi → Expr) (merge : List Phi)
    {block : Env → Logged Flow} (hblock : ∀ env, Accounts env Leaves (block env)) (env : Env) :
    Accounts env Leaves (followArm apply trace path s part side merge block env) := by
  refine .visit ((hblock env).bind fun flow env' henv' => ?_)
  cases flow with
  | ret value => exact .pure (leaves_ret value env')
  | next env'' =>
    cases henv' env'' rfl
    exact (followMerge_accounts apply trace path s 3 side merge env').bindEnv fun env =>
      .pure (leaves_next env)

variable (fuel : Nat)

mutual
/-- The definitions that a statement makes account for its variables. -/
theorem followStmt_accounts : ∀ (path : Path) (s : Stmt) (env : Env),
    Accounts env Leaves (followStmt apply trace fuel path s env)
  | path, .assign target value, env => by
    rw [followStmt]
    refine .visit (.silent fun v => .silent fun _ => ?_)
    exact (Accounts.define path (target.assigned v)).bindEnv fun env => .pure (leaves_next env)
  | path, .ret value, env => by
    rw [followStmt]
    exact .visit (.silent fun v => .pure (leaves_ret v env))
  | path, .branch cond onTrue onFalse merge, env => by
    rw [followStmt]
    refine .visit ((followCond_accounts apply trace path _ 0 cond env).bind fun b env' henv' => ?_)
    cases henv'
    refine .ite ?_ ?_
    · exact followArm_accounts apply trace path _ 1 _ merge (followBlock_accounts (path ++ [1]) 0 onTrue) env
    · exact followArm_accounts apply trace path _ 2 _ merge (followBlock_accounts (path ++ [2]) 0 onFalse) env
  | path, .loop cond body merge, env => by
    rw [followStmt]
    refine .visit ((followMerge_accounts apply trace path _ 0 _ merge env).bindEnv fun env => ?_)
    refine followLoop_accounts (followCond_accounts apply trace path _ 1 cond) (fun env => ?_) fuel env
    exact followArm_accounts apply trace path _ 2 _ merge (followBlock_accounts (path ++ [2]) 0 body) env
termination_by structural _ s => s

theorem followBlock_accounts : ∀ (base : Path) (i : Nat) (ss : List Stmt) (env : Env),
    Accounts env Leaves (followBlock apply trace fuel base i ss env)
  | _, _, [], env => .pure (leaves_next env)
  | base, i, s :: ss, env => by
    rw [followBlock]
    refine (followStmt_accounts (base ++ [i]) s env).bind fun flow env' henv' => ?_
    cases flow with
    | ret value => exact .pure (leaves_ret value env')
    | next env'' =>
      cases henv' env'' rfl
      exact followBlock_accounts base (i + 1) ss env'
termination_by structural _ _ ss => ss
end

end

/-- The definitions that a call makes, those of its parameters included, account for its variables. -/
theorem followCall_accounts (fuel : Nat) (trace : Trace) (func : TypedFn) (args : List Value) :
    Accounts ∅ (fun _ _ => True) (followCall fuel trace func args) := by
  rw [followCall]
  refine .silent fun _ => (Accounts.define [] (func.argNames.zip args)).bindEnv fun env => ?_
  refine (followBlock_accounts _ _ fuel [] 0 func.body env).bind fun flow env' _ => ?_
  cases flow with
  | ret value => exact .pure trivial
  | next env => exact .pure trivial

/-- At a point that is visited, a variable has the value of the last definition of it before. -/
theorem Accounted.find?_eq {before after : List Event} {v : Visit} {name : String}
    (h : Accounted ∅ (before ++ .visit v :: after)) :
    v.env.find? name = (definitions name before).getLast?.map (·.2) := by
  rw [(accounted_append.1 h).2.1, find?_replay]
  exact Option.or_none

end ArrayLang.Interpreter
