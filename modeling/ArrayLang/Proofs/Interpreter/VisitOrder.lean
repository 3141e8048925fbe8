import ArrayLang.Proofs.Dataflow.RecordedPaths
import ArrayLang.Proofs.Interpreter.Itinerary

/-!
# The order of visits

Every point that a run visits is a point of the statement that its path leads to, and where there are no
loops, a run visits points in the order of their paths.

## Main results

- `followBlock_reaches`: the paths of a run lead to the statements that run there.
- `followBlock_ascends`: without loops, points are visited in the order of their paths.
-/

namespace ArrayLang

open Interpreter Logged ArrayLang.Path

variable {α β : Type}

/-- Whether a statement runs its block any number of times. -/
def Stmt.isLoop : Stmt → Bool
  | .loop _ _ _ => true
  | _ => false

/-! ## Points and the statements there -/

namespace Interpreter

/-- Every point that a computation visits satisfies `P`. -/
def Logged.Visits (P : Visit → Prop) (x : Logged α) : Prop :=
  ∀ σ, ∀ v ∈ visits (events x σ), P v

theorem visits_append (es es' : List Event) : visits (es ++ es') = visits es ++ visits es' :=
  List.filterMap_append

/-- Definitions visit nothing. -/
theorem visits_map_define (point : Path) (bindings : List (String × Value)) :
    visits (bindings.map fun (name, value) => .define point name value) = [] := by
  rw [visits, List.filterMap_map]
  exact List.filterMap_eq_nil_iff.2 fun _ _ => rfl

theorem visits_events_define (point : Path) (bindings : List (String × Value)) (env : Env)
    (σ : State Session) : visits (events (define point bindings env) σ) = [] := by
  rw [events_define, visits_map_define]

namespace Logged.Visits

variable {P : Visit → Prop} {x : Logged α}

theorem of_eq_nil (h : ∀ σ, visits (events x σ) = []) : Visits P x := by
  intro σ v hv
  rw [h σ] at hv
  cases hv

theorem pure (a : α) : Visits P (Pure.pure a) :=
  of_eq_nil fun _ => rfl

theorem throw (e : Stop) : Visits P (throw e : Logged α) :=
  of_eq_nil fun _ => rfl

theorem silent (x : Eval α) : Visits P (silent x) :=
  of_eq_nil fun _ => rfl

theorem define (point : Path) (bindings : List (String × Value)) (env : Env) :
    Visits P (define point bindings env) :=
  of_eq_nil fun σ => visits_events_define point bindings env σ

theorem visit {v : Visit} (h : P v) : Visits P (visit v) :=
  fun _ _ hv => List.mem_singleton.1 hv ▸ h

theorem bind {f : α → Logged β} (hx : Visits P x) (hf : ∀ a, Visits P (f a)) :
    Visits P (x >>= f) := by
  intro σ v hv
  rw [events_bind, visits_append, List.mem_append] at hv
  rcases hv with hv | hv
  · exact hx σ v hv
  · split at hv
    · exact hf _ _ v hv
    · cases hv

theorem ite {b : Bool} {y : Logged α} (hx : Visits P x) (hy : Visits P y) :
    Visits P (if b then x else y) := by
  split
  · exact hx
  · exact hy

theorem mono {Q : Visit → Prop} (h : Visits P x) (hPQ : ∀ v, P v → Q v) : Visits Q x :=
  fun σ v hv => hPQ v (h σ v hv)

theorem followLoop {test : Env → Logged Bool} {pass : Env → Logged Flow}
    (htest : ∀ env, Visits P (test env)) (hpass : ∀ env, Visits P (pass env)) (fuel : Nat) :
    ∀ env, Visits P (followLoop test pass fuel env) := by
  induction fuel with
  | zero => exact fun _ => throw _
  | succ fuel ih =>
    intro env
    refine (htest env).bind fun b => ite ((hpass env).bind fun flow => ?_) (pure _)
    cases flow with
    | ret value => exact pure _
    | next env => exact ih env

end Logged.Visits

section
variable {apply : Apply} {trace : Trace} {path : Path} {s : Stmt} {P : Visit → Prop}

theorem followCond_visits {part : Nat} (h : ∀ env, P ⟨path, s, some part, env⟩) (cond : Expr)
    (env : Env) : Visits P (followCond apply trace path s part cond env) :=
  (Visits.visit (h env)).bind fun _ => .silent _

theorem followMerge_visits {part : Nat} (h : ∀ env, P ⟨path, s, some part, env⟩)
    (side : Phi → Expr) (merge : List Phi) (env : Env) :
    Visits P (followMerge apply trace path s part side merge env) :=
  (Visits.visit (h env)).bind fun _ => (Visits.silent _).bind fun _ => .define _ _ _

theorem followArm_visits {part : Nat} {block : Env → Logged Flow} (side : Phi → Expr)
    (merge : List Phi) (h : ∀ part env, P ⟨path, s, some part, env⟩)
    (hblock : ∀ env, Visits P (block env)) (env : Env) :
    Visits P (followArm apply trace path s part side merge block env) := by
  refine (Visits.visit (h part env)).bind fun _ => (hblock env).bind fun flow => ?_
  cases flow with
  | ret value => exact .pure _
  | next env => exact (followMerge_visits (h 3) side merge env).bind fun _ => .pure _

variable (apply trace) (fuel : Nat)

mutual
/-- What a statement visits are points of statements that paths lead to from it. -/
theorem followStmt_reaches : ∀ (path : Path) (s : Stmt) (env : Env),
    Visits (fun v => s.Reaches path v.path v.stmt) (followStmt apply trace fuel path s env)
  | path, .assign target value, env => by
    rw [followStmt]
    refine (Visits.visit (.inl ⟨rfl, rfl⟩)).bind fun _ => (Visits.silent _).bind fun _ => ?_
    exact (Visits.silent _).bind fun _ => (Visits.define _ _ _).bind fun _ => .pure _
  | path, .ret value, env => by
    rw [followStmt]
    exact (Visits.visit (.inl ⟨rfl, rfl⟩)).bind fun _ => (Visits.silent _).bind fun _ => .pure _
  | path, .branch cond onTrue onFalse merge, env => by
    rw [followStmt]
    refine (Visits.visit (.inl ⟨rfl, rfl⟩)).bind fun _ =>
      (followCond_visits (fun _ => .inl ⟨rfl, rfl⟩) cond env).bind fun b => .ite ?_ ?_
    · refine followArm_visits _ _ (fun _ _ => .inl ⟨rfl, rfl⟩) (fun env => ?_) env
      exact (followBlock_reaches (path ++ [1]) 0 onTrue env).mono fun v hv => .inr ⟨1, _, rfl, hv⟩
    · refine followArm_visits _ _ (fun _ _ => .inl ⟨rfl, rfl⟩) (fun env => ?_) env
      exact (followBlock_reaches (path ++ [2]) 0 onFalse env).mono fun v hv => .inr ⟨2, _, rfl, hv⟩
  | path, .loop cond body merge, env => by
    rw [followStmt]
    refine (Visits.visit (.inl ⟨rfl, rfl⟩)).bind fun _ =>
      (followMerge_visits (fun _ => .inl ⟨rfl, rfl⟩) _ merge env).bind fun env => ?_
    refine Visits.followLoop (followCond_visits (fun _ => .inl ⟨rfl, rfl⟩) cond) (fun env => ?_) fuel env
    refine followArm_visits _ _ (fun _ _ => .inl ⟨rfl, rfl⟩) (fun env => ?_) env
    exact (followBlock_reaches (path ++ [2]) 0 body env).mono fun v hv => .inr ⟨2, _, rfl, hv⟩
termination_by structural _ s => s

theorem followBlock_reaches : ∀ (base : Path) (i : Nat) (ss : List Stmt) (env : Env),
    Visits (fun v => Block.Reaches base i ss v.path v.stmt)
      (followBlock apply trace fuel base i ss env)
  | base, i, [], env => .pure _
  | base, i, s :: ss, env => by
    rw [followBlock]
    refine ((followStmt_reaches (base ++ [i]) s env).mono fun v hv => ?_).bind fun flow => ?_
    · exact Block.reaches_cons.2 (.inl hv)
    · cases flow with
      | ret value => exact .pure _
      | next env =>
        exact (followBlock_reaches base (i + 1) ss env).mono fun v hv => Block.reaches_cons.2 (.inr hv)
termination_by structural _ _ ss => ss
end

end

/-! ## The order of visits -/

/-- Whatever a computation visits, it visits in the order of the paths, from `lo` on and before `hi`. -/
def Logged.Climbs (lo hi : Path) (x : Logged α) : Prop :=
  ∀ σ, Path.Ascends lo hi ((visits (events x σ)).map Visit.point)

namespace Logged.Climbs

variable {lo mid hi : Path} {x : Logged α}

theorem of_eq_nil (h : ∀ σ, visits (events x σ) = []) : Climbs lo hi x := by
  intro σ
  rw [h σ]
  exact .nil

theorem mono {lo' hi' : Path} (h : Climbs lo hi x) (hlo : lo' ≤ lo) (hhi : hi ≤ hi') :
    Climbs lo' hi' x :=
  fun σ => (h σ).mono hlo hhi

theorem visit {v : Visit} (hlo : lo ≤ v.point) (hhi : v.point < hi) : Climbs lo hi (visit v) :=
  fun _ => .singleton hlo hhi

theorem visit_self {path : Path} {s : Stmt} {env : Env} (h : path < hi) :
    Climbs path hi (Logged.visit ⟨path, s, none, env⟩) := by
  have hpoint : Visit.point ⟨path, s, none, env⟩ = path := List.append_nil path
  exact visit (le_of_eq hpoint.symm) (lt_of_eq_of_lt hpoint h)

theorem bind {f : α → Logged β} (hx : Climbs lo mid x) (hf : ∀ a, Climbs mid hi (f a))
    (hlo : lo ≤ mid) (hhi : mid ≤ hi) : Climbs lo hi (x >>= f) := by
  intro σ
  rw [events_bind, visits_append, List.map_append]
  refine (hx σ).append ?_ hlo hhi
  split
  · exact hf _ _
  · exact .nil

/-- What visits nothing may come first. -/
theorem bind_quiet {f : α → Logged β} (hx : ∀ σ, visits (events x σ) = [])
    (hf : ∀ a, Climbs lo hi (f a)) : Climbs lo hi (x >>= f) := by
  intro σ
  rw [events_bind, visits_append, hx σ, List.nil_append]
  split
  · exact hf _ _
  · exact .nil

theorem ite {b : Bool} {y : Logged α} (hx : Climbs lo hi x) (hy : Climbs lo hi y) :
    Climbs lo hi (if b then x else y) := by
  split
  · exact hx
  · exact hy

end Logged.Climbs

section
variable {apply : Apply} {trace : Trace} {path : Path} {s : Stmt}

theorem followCond_climbs (part : Nat) (cond : Expr) (env : Env) :
    Climbs (path ++ [part]) (path ++ [part + 1]) (followCond apply trace path s part cond env) := by
  have hlt : path ++ [part] < path ++ [part + 1] := append_cons_lt (Nat.lt_succ_self part) path [] []
  exact (Climbs.visit (le_refl (path ++ [part])) hlt).bind (fun _ => .of_eq_nil fun _ => rfl)
    (le_of_lt hlt) (le_refl _)

theorem followMerge_climbs (part : Nat) (side : Phi → Expr) (merge : List Phi) (env : Env) :
    Climbs (path ++ [part]) (path ++ [part + 1])
      (followMerge apply trace path s part side merge env) := by
  have hlt : path ++ [part] < path ++ [part + 1] := append_cons_lt (Nat.lt_succ_self part) path [] []
  refine (Climbs.visit (le_refl (path ++ [part])) hlt).bind (fun _ => ?_) (le_of_lt hlt) (le_refl _)
  exact .bind_quiet (fun _ => rfl) fun _ => .of_eq_nil fun _ => visits_events_define _ _ _ _

/-- The block of an arm lies between the point where it starts and the point of the merge. -/
theorem followArm_climbs {part n : Nat} {block : Env → Logged Flow} (side : Phi → Expr)
    (merge : List Phi) (hpart : part < 3)
    (hblock : ∀ env, Climbs (path ++ [part] ++ [0]) (path ++ [part] ++ [n]) (block env)) (env : Env) :
    Climbs (path ++ [part]) (path ++ [4])
      (followArm apply trace path s part side merge block env) := by
  have hin : path ++ [part] < path ++ [part] ++ [0] := lt_append_cons (path ++ [part]) 0 []
  -- Both blocks, parts 1 and 2, come before the merge, part 3.
  have hmerge (i : Nat) : path ++ [part] ++ [i] ≤ path ++ [3] := by
    rw [List.append_assoc]
    exact le_of_lt (append_cons_lt hpart path [i] [])
  have hlast : path ++ [3] ≤ path ++ [4] := append_singleton_le (by decide) path
  refine (Climbs.visit (le_refl (path ++ [part])) hin).bind (fun _ => ?_) (le_of_lt hin)
    (le_trans (hmerge 0) hlast)
  refine ((hblock env).mono (le_refl _) (hmerge n)).bind (fun flow => ?_) (hmerge 0) hlast
  cases flow with
  | ret value => exact .of_eq_nil fun _ => rfl
  | next env =>
    exact (followMerge_climbs 3 side merge env).bind (fun _ => .of_eq_nil fun _ => rfl) hlast
      (le_refl _)

variable (apply trace) (fuel : Nat)

mutual
/-- A statement without loops visits points in the order of their paths. -/
theorem followStmt_ascends : ∀ (path hi : Path) (s : Stmt) (env : Env), path.Ends hi →
    s.Everywhere (·.isLoop = false) → Climbs path hi (followStmt apply trace fuel path s env)
  | path, hi, .assign target value, env, hhi, _ => by
    rw [followStmt]
    refine (Climbs.visit_self hhi.self).bind (fun _ => ?_) (le_of_lt hhi.self) (le_refl hi)
    refine .bind_quiet (fun _ => rfl) fun _ => .bind_quiet (fun _ => rfl) fun _ => ?_
    exact .bind_quiet (visits_events_define _ _ _) fun _ => .of_eq_nil fun _ => rfl
  | path, hi, .ret value, env, hhi, _ => by
    rw [followStmt]
    refine (Climbs.visit_self hhi.self).bind (fun _ => ?_) (le_of_lt hhi.self) (le_refl hi)
    exact .bind_quiet (fun _ => rfl) fun _ => .of_eq_nil fun _ => rfl
  | path, hi, .branch cond onTrue onFalse merge, env, hhi, h => by
    rw [followStmt]
    obtain ⟨-, htrue, hfalse⟩ := Stmt.everywhere_branch.1 h
    have hself : path < path ++ [0] := lt_append_cons path 0 []
    have hnext (k : Nat) : path ++ [k] ≤ hi := le_of_lt (hhi.part k)
    have htrue' : Climbs (path ++ [1]) (path ++ [4])
        (followArm apply trace path (.branch cond onTrue onFalse merge) 1 Phi.left merge
          (followBlock apply trace fuel (path ++ [1]) 0 onTrue) env) :=
      followArm_climbs _ merge (by decide) (followBlock_ascends (path ++ [1]) 0 onTrue · htrue) env
    have hfalse' : Climbs (path ++ [2]) (path ++ [4])
        (followArm apply trace path (.branch cond onTrue onFalse merge) 2 Phi.right merge
          (followBlock apply trace fuel (path ++ [2]) 0 onFalse) env) :=
      followArm_climbs _ merge (by decide) (followBlock_ascends (path ++ [2]) 0 onFalse · hfalse) env
    refine (Climbs.visit_self hself).bind (fun _ => ?_) (le_of_lt hself) (hnext 0)
    refine (followCond_climbs 0 cond env).bind (fun b => .ite ?_ ?_)
      (append_singleton_le (by decide) path) (hnext 1)
    · exact htrue'.mono (le_refl _) (hnext 4)
    · exact hfalse'.mono (append_singleton_le (by decide) path) (hnext 4)
  | path, hi, .loop cond body merge, env, _, h => by
    -- A loop goes back to its condition, which is why there must be none.
    cases h.1
termination_by structural _ _ s => s

/-- So does a block, whose statements end one before the other. -/
theorem followBlock_ascends : ∀ (base : Path) (i : Nat) (ss : List Stmt) (env : Env),
    Block.Everywhere (·.isLoop = false) ss →
      Climbs (base ++ [i]) (base ++ [i + ss.length]) (followBlock apply trace fuel base i ss env)
  | base, i, [], env, _ => .of_eq_nil fun _ => rfl
  | base, i, s :: ss, env, h => by
    obtain ⟨hs, hss⟩ := Block.everywhere_cons.1 h
    have hrest env := followBlock_ascends base (i + 1) ss env hss
    rw [followBlock, List.length_cons, Nat.add_comm ss.length 1, ← Nat.add_assoc]
    refine (followStmt_ascends (base ++ [i]) (base ++ [i + 1]) s env (ends_next base i) hs).bind
      (fun flow => ?_) (append_singleton_le (Nat.le_succ i) base)
      (append_singleton_le (Nat.le_add_right _ _) base)
    cases flow with
    | ret value => exact .of_eq_nil fun _ => rfl
    | next env => exact hrest env
termination_by structural _ _ ss => ss
end

end
end Interpreter
end ArrayLang
