import ArrayLang.Proofs.Dataflow.Accesses
import ArrayLang.Proofs.Interpreter.RunsAlike

/-!
# Variables without uses

A variable of which a function records no read and no write does not matter: run with another value of
it, the body does the same to the store and to the session, ends in the same way, and leaves variables
that again differ at most there. So the recorded accesses miss no read, neither in the indices of targets
nor in the sides of merges nor inside an expression.

A function written in place reads whatever it captures, which is not recorded. Specialized code has none.

## Main results

- `UseDef.readsOnly_of_unused`: code without recorded uses of a variable reads only others.
- `Interpreter.runBlock_of_unused`: a variable without uses does not matter.
-/

namespace ArrayLang

/-! ## Accesses record every read -/

/-- Whether a function is written in place here. -/
def Node.isLambda : Node → Bool
  | .lambda _ => true
  | _ => false

theorem Node.isLambda_eq_false {node : Node} : node.isLambda = false ↔ ∀ decl, node ≠ .lambda decl := by
  cases node with
  | lambda decl => exact ⟨nofun, fun h => absurd rfl (h decl)⟩
  | _ => exact ⟨fun _ => nofun, fun _ => rfl⟩

instance (node : Node) : Decidable (∀ decl, node ≠ .lambda decl) :=
  decidable_of_iff _ Node.isLambda_eq_false

/-- The expression holds no function written in place. -/
def Expr.NoneInPlace (e : Expr) : Prop :=
  e.Forall fun s => ∀ decl, s.node ≠ .lambda decl

instance (e : Expr) : Decidable e.NoneInPlace :=
  inferInstanceAs (Decidable (∀ s ∈ e.subexprs, ∀ decl, s.node ≠ .lambda decl))

/-- The expressions in a statement itself, not those in its blocks. -/
def Stmt.exprs : Stmt → List Expr
  | .assign target value => [target, value]
  | .ret value => [value]
  | .branch cond _ _ merge | .loop cond _ merge =>
    cond :: merge.flatMap fun phi => [phi.left, phi.right]

/-- No expression in the statement itself holds a function written in place. -/
def Stmt.NoneInPlace (s : Stmt) : Prop :=
  ∀ e ∈ s.exprs, e.NoneInPlace

instance (s : Stmt) : Decidable s.NoneInPlace :=
  inferInstanceAs (Decidable (∀ e ∈ s.exprs, e.NoneInPlace))

theorem Stmt.NoneInPlace.setPart (s : Stmt) (part : Nat) (inner : Block) (h : s.NoneInPlace) :
    (s.setPart part inner).NoneInPlace := by
  unfold Stmt.setPart
  split <;> exact h

/-- The same variables have values, and all but `v` have the same values. -/
abbrev Env.DiffersAt (v : String) : Env → Env → Prop :=
  Env.Resembles (· ≠ v)

variable {v : String}

theorem Expr.readsOnly_of_vars {p : String → Prop} {e : Expr} (h : ∀ x ∈ e.vars, p x)
    (he : e.NoneInPlace) : e.ReadsOnly p := by
  intro s hs
  obtain ⟨node, ty?⟩ := s
  cases node with
  | var name => exact h name (Expr.mem_vars.2 ⟨_, hs, rfl⟩)
  | lambda decl => exact absurd rfl (he _ hs decl)
  | _ => trivial

/-- Code that reads only some variables is made of these. -/
theorem Expr.ReadsOnly.of_mem_vars {p : String → Prop} {e : Expr} {x : String} (h : e.ReadsOnly p)
    (hx : x ∈ e.vars) : p x := by
  obtain ⟨s, hs, hvar⟩ := Expr.mem_vars.1 hx
  obtain ⟨_, rfl⟩ := Expr.eq_of_var?_eq_some hvar
  exact h _ hs

theorem Expr.readsOnly_of_not_mem_vars {e : Expr} (hv : v ∉ e.vars) (he : e.NoneInPlace) :
    e.ReadsOnly (· ≠ v) :=
  e.readsOnly_of_vars (fun _ hx heq => hv (heq ▸ hx)) he

namespace Access

/-- The accesses to `v` are all definitions. -/
def OnlyDefine (v : String) (accesses : List Access) : Prop :=
  ∀ a ∈ accesses, a.name = v → a.kind = .define

theorem onlyDefine_append {as bs : List Access} :
    OnlyDefine v (as ++ bs) ↔ OnlyDefine v as ∧ OnlyDefine v bs :=
  List.forall_mem_append

variable {path : Path}

theorem OnlyDefine.not_mem_vars {e : Expr} (h : OnlyDefine v (ofExpr path e)) : v ∉ e.vars :=
  fun hv => nomatch h _ (List.mem_map_of_mem hv) rfl

theorem OnlyDefine.not_mem_sides {side : Phi → Expr} {merge : List Phi}
    (h : OnlyDefine v (merge.flatMap fun phi => ofExpr path (side phi))) :
    ∀ phi ∈ merge, v ∉ (side phi).vars := by
  intro phi hphi
  have hside : OnlyDefine v (ofExpr path (side phi)) :=
    fun a ha => h a (List.mem_flatMap.2 ⟨phi, hphi, ha⟩)
  exact hside.not_mem_vars

theorem OnlyDefine.ofSide {side : Phi → Expr} {merge : List Phi}
    (h : OnlyDefine v (ofSide path side merge)) :
    OnlyDefine v (merge.flatMap fun phi => ofExpr path (side phi)) := by
  intro a ha
  obtain ⟨phi, hphi, ha⟩ := List.mem_flatMap.1 ha
  exact h a (List.mem_flatMap.2 ⟨phi, hphi, List.mem_append_left _ ha⟩)

theorem kind_of_mem_ofExpr {e : Expr} {a : Access} (ha : a ∈ ofExpr path e) : a.kind = .read := by
  obtain ⟨name, -, rfl⟩ := List.mem_map.1 ha
  rfl

/-- Writing to a part of an array defines nothing. -/
theorem kind_of_mem_ofTarget_index {base key : Expr} {ty? : Option Ty} {a : Access}
    (ha : a ∈ ofTarget path ⟨.index base key, ty?⟩) : a.kind ≠ .define := by
  unfold ofTarget at ha
  split at ha
  · rcases List.mem_cons.1 ha with rfl | ha
    · show AccessKind.write ≠ .define
      decide
    · obtain ⟨e, -, ha⟩ := List.mem_flatMap.1 ha
      rw [kind_of_mem_ofExpr ha]
      decide
  · rw [kind_of_mem_ofExpr ha]
    decide

mutual
theorem OnlyDefine.target {node : Node} {ty? : Option Ty}
    (h : OnlyDefine v (ofTarget path ⟨node, ty?⟩)) (he : Expr.NoneInPlace ⟨node, ty?⟩) :
    Expr.TargetReadsOnly (· ≠ v) ⟨node, ty?⟩ := by
  cases node with
  | tuple items => exact OnlyDefine.targets items h fun e hmem => he.of_mem_children hmem
  | index base key =>
    have hvars : v ∉ Expr.vars ⟨.index base key, ty?⟩ := by
      intro hv
      obtain ⟨a, ha, hname⟩ := List.mem_map.1 (mem_names_ofTarget_index.2 hv)
      exact kind_of_mem_ofTarget_index ha (h a ha hname)
    have hreads := Expr.readsOnly_of_not_mem_vars hvars he
    exact ⟨hreads.child (.head _), hreads.child (.tail _ (.head _))⟩
  | _ => trivial
termination_by sizeOf node

theorem OnlyDefine.targets : ∀ es : List Expr, OnlyDefine v (ofTargets path es) →
    (∀ e ∈ es, e.NoneInPlace) → Expr.AllTargetsReadOnly (· ≠ v) es
  | [], _, _ => trivial
  | ⟨node, ty?⟩ :: es, h, hes => by
    rw [ofTargets, onlyDefine_append] at h
    obtain ⟨he, hes⟩ := List.forall_mem_cons.1 hes
    exact ⟨OnlyDefine.target h.1 he, OnlyDefine.targets es h.2 hes⟩
termination_by es => sizeOf es
end

/-- The condition and the sides of a merge. -/
theorem readsOnly_of_not_mem_sides {cond : Expr} {merge : List Phi}
    (hfree : ∀ e ∈ cond :: merge.flatMap fun phi => [phi.left, phi.right], e.NoneInPlace)
    (hcond : v ∉ cond.vars) (hleft : ∀ phi ∈ merge, v ∉ phi.left.vars)
    (hright : ∀ phi ∈ merge, v ∉ phi.right.vars) :
    cond.ReadsOnly (· ≠ v)
      ∧ ∀ phi ∈ merge, phi.left.ReadsOnly (· ≠ v) ∧ phi.right.ReadsOnly (· ≠ v) := by
  obtain ⟨hfree, hsides⟩ := List.forall_mem_cons.1 hfree
  refine ⟨Expr.readsOnly_of_not_mem_vars hcond hfree, fun phi hphi => ⟨?_, ?_⟩⟩
  · refine Expr.readsOnly_of_not_mem_vars (hleft phi hphi) (hsides _ ?_)
    exact List.mem_flatMap.2 ⟨phi, hphi, .head _⟩
  · refine Expr.readsOnly_of_not_mem_vars (hright phi hphi) (hsides _ ?_)
    exact List.mem_flatMap.2 ⟨phi, hphi, .tail _ (.head _)⟩

mutual
theorem OnlyDefine.stmt : ∀ (path : Path) (s : Stmt), OnlyDefine v (ofStmt path s) →
    s.Everywhere Stmt.NoneInPlace → s.Everywhere (Stmt.ReadsOnly (· ≠ v))
  | _, .assign ⟨node, ty?⟩ value, h, hfree => by
    rw [ofStmt, onlyDefine_append] at h
    obtain ⟨htarget, hvalue⟩ := List.forall_mem_cons.1 hfree.1
    refine ⟨⟨OnlyDefine.target h.2 htarget, ?_⟩, nofun⟩
    exact Expr.readsOnly_of_not_mem_vars h.1.not_mem_vars (hvalue _ (.head _))
  | _, .ret value, h, hfree => by
    rw [ofStmt] at h
    exact ⟨Expr.readsOnly_of_not_mem_vars h.not_mem_vars (hfree.1 _ (.head _)), nofun⟩
  | path, .branch cond onTrue onFalse merge, h, hfree => by
    rw [ofStmt] at h
    simp only [onlyDefine_append] at h
    obtain ⟨⟨⟨⟨hcond, htrue⟩, hfalse⟩, hleft⟩, hright⟩ := h
    obtain ⟨hself, hfreeTrue, hfreeFalse⟩ := Stmt.everywhere_branch.1 hfree
    refine Stmt.everywhere_branch.2 ⟨?_, ?_, ?_⟩
    · exact readsOnly_of_not_mem_sides hself hcond.not_mem_vars hleft.ofSide.not_mem_sides
        hright.not_mem_sides
    · exact OnlyDefine.block _ _ onTrue htrue hfreeTrue
    · exact OnlyDefine.block _ _ onFalse hfalse hfreeFalse
  | path, .loop cond body merge, h, hfree => by
    rw [ofStmt] at h
    simp only [onlyDefine_append] at h
    obtain ⟨⟨⟨hleft, hcond⟩, hbody⟩, hright⟩ := h
    obtain ⟨hself, hfreeBody⟩ := Stmt.everywhere_loop.1 hfree
    refine Stmt.everywhere_loop.2 ⟨?_, OnlyDefine.block _ _ body hbody hfreeBody⟩
    exact readsOnly_of_not_mem_sides hself hcond.not_mem_vars hleft.ofSide.not_mem_sides
      hright.ofSide.not_mem_sides
termination_by structural _ s => s

theorem OnlyDefine.block : ∀ (path : Path) (i : Nat) (ss : Block), OnlyDefine v (ofBlock path i ss) →
    ss.Everywhere Stmt.NoneInPlace → ss.Everywhere (Stmt.ReadsOnly (· ≠ v))
  | _, _, [], _, _ => Block.everywhere_nil
  | path, i, s :: ss, h, hfree => by
    rw [ofBlock, onlyDefine_append] at h
    obtain ⟨hs, hss⟩ := Block.everywhere_cons.1 hfree
    exact Block.everywhere_cons.2
      ⟨OnlyDefine.stmt _ s h.1 hs, OnlyDefine.block path (i + 1) ss h.2 hss⟩
termination_by structural _ _ ss => ss
end

end Access

namespace UseDef

open Access

/-- There are no points of accesses of a kind that no access is of. -/
theorem points_eq_nil {u : UseDef} {kind : AccessKind} :
    u.points kind v = [] ↔ ∀ a ∈ u.accesses, a.name = v → a.kind ≠ kind := by
  unfold points
  rw [List.map_eq_nil_iff, List.filter_eq_nil_iff]
  refine forall₂_congr fun a _ => ?_
  rw [Bool.and_eq_true, decide_eq_true_eq, decide_eq_true_eq, not_and']

theorem onlyDefine_of_unused {u : UseDef} (hreads : u.reads v = []) (hwrites : u.writes v = []) :
    OnlyDefine v u.accesses := by
  intro a ha hname
  have hread := points_eq_nil.1 hreads a ha hname
  have hwrite := points_eq_nil.1 hwrites a ha hname
  cases hkind : a.kind with
  | define => rfl
  | read => exact absurd hkind hread
  | write => exact absurd hkind hwrite

/-- A body of which no read and no write of `v` is recorded reads only other variables. -/
theorem readsOnly_of_unused {f : TypedFn} (hbody : f.body.Everywhere Stmt.NoneInPlace)
    (hreads : (compute f).reads v = []) (hwrites : (compute f).writes v = []) :
    f.body.Everywhere (Stmt.ReadsOnly (· ≠ v)) := by
  have hdefines := onlyDefine_of_unused hreads hwrites
  exact OnlyDefine.block [] 0 f.body (onlyDefine_append.1 hdefines).2 hbody

end UseDef

namespace Interpreter

/-- Let no read and no write of `v` be recorded for a body without functions written in place. Run from
variables that differ at most at `v`, it leaves the same store and session; it returns the same value or
stops with the same error in both runs, or control goes on in both with variables that differ at most at
`v`; and so do the variables at all points on the way. -/
theorem runBlock_of_unused {f : TypedFn} {v : String}
    (hbody : f.body.Everywhere Stmt.NoneInPlace) (hreads : (UseDef.compute f).reads v = [])
    (hwrites : (UseDef.compute f).writes v = []) (apply : Apply) (trace : Trace) (fuel : Nat)
    {env env' : Env} (henv : env.DiffersAt v env') (σ : State Session) :
    let run := Run.exec (runBlock apply trace fuel f.body env) σ
    let run' := Run.exec (runBlock apply trace fuel f.body env') σ
    run.2 = run'.2
      ∧ Outcome.Alike (FlowRel (Env.DiffersAt v) Eq) run.1 run'.1
      ∧ ∀ P, blockWalk apply trace fuel f.body P env σ →
        blockWalk apply trace fuel f.body
          (fun point env' σ => ∃ env, env.DiffersAt v env' ∧ P point env σ) env' σ := by
  intro run run'
  have hreadsOnly := UseDef.readsOnly_of_unused hbody hreads hwrites
  obtain ⟨hstate, hout⟩ := runBlock_matched apply trace fuel f.body hreadsOnly env env' henv σ
  refine ⟨hstate, hout, fun P hP => ?_⟩
  refine blockWalk_carries apply trace fuel f.body hreadsOnly P _ ?_ env env' σ henv hP
  exact fun point env env' σ henv hP => ⟨env, henv, hP⟩

/-- `a[0] = b` with a further parameter `v`. -/
def putFirst : TypedFn where
  name := "f"
  argNames := ["a", "b", "v"]
  inputTypes := [.array .int64 1, .scalar .int64, .scalar .int64]
  body := [.assign
    (.typed (.index (.typed (.var "a") (.array .int64 1)) (.typed (.lit (.int 0)) (.scalar .int64)))
      (.scalar .int64))
    (.typed (.var "b") (.scalar .int64))]
  returnType := .none
  typeEnv := .ofList [("a", .array .int64 1), ("b", .scalar .int64), ("v", .scalar .int64)]

/-- Two calls of `f` with different values of `v` leave the same store. -/
theorem runBlock_of_unused_putFirst :
    let env : Env := .ofList [("a", .array ⟨.int64, 0, [1], [1], 0⟩), ("b", .scalar (.int 7))]
    let run (v : Int64) := Run.exec
      (runBlock (applyFn 1) [] 1 putFirst.body (env.insert "v" (.scalar (.int v))))
      ⟨⟨#[#[.int 0]]⟩, .new none⟩
    (run 1).2 = (run 2).2 ∧ Outcome.Alike (FlowRel (Env.DiffersAt "v") Eq) (run 1).1 (run 2).1 := by
  intro env run
  have hvar (x : String) (ty : Ty) : (Expr.typed (.var x) ty).NoneInPlace :=
    Expr.forall_iff.2 ⟨nofun, nofun⟩
  have hlit (lit : Literal) (ty : Ty) : (Expr.typed (.lit lit) ty).NoneInPlace :=
    Expr.forall_iff.2 ⟨nofun, nofun⟩
  have hbody : putFirst.body.Everywhere Stmt.NoneInPlace := by
    refine Block.everywhere_cons.2 ⟨⟨?_, nofun⟩, Block.everywhere_nil⟩
    refine List.forall_mem_cons.2 ⟨?_, List.forall_mem_singleton.2 (hvar _ _)⟩
    refine Expr.forall_iff.2 ⟨nofun, ?_⟩
    exact List.forall_mem_cons.2 ⟨hvar _ _, List.forall_mem_singleton.2 (hlit _ _)⟩
  have henv : Env.DiffersAt "v" (env.insert "v" (.scalar (.int 1)))
      (env.insert "v" (.scalar (.int 2))) :=
    .rebind env (not_not_intro rfl) _ _
  obtain ⟨hstate, hout, -⟩ := runBlock_of_unused hbody (by decide +kernel) (by decide +kernel)
    (applyFn 1) [] 1 henv ⟨⟨#[#[.int 0]]⟩, .new none⟩
  exact ⟨hstate, hout⟩

end Interpreter
end ArrayLang
