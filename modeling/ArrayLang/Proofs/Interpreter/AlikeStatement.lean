import ArrayLang.Proofs.Interpreter.AlikeExpression

/-!
# Statements and calls on paired stores

Code cannot tell paired stores apart: run on values that stand for each other it makes the same
choices, changes both stores alike, and ends with results that stand for each other or with the same
error. Variables that the code does not name may differ freely and keep their values.
-/

namespace ArrayLang

open Pairing Value

variable {p : String → Prop} {ρ ρ' : Pairing} {env env' u u' : Env}

/-! ## Code that names only some variables -/

/-- The reconciled variable and its sides name only variables that satisfy `p`. -/
structure Phi.Within (p : String → Prop) (phi : Phi) : Prop where
  name : p phi.name
  left : phi.left.ReadsOnly p
  right : phi.right.ReadsOnly p

mutual
/-- The statement names only variables that satisfy `p`. -/
def Stmt.Within (p : String → Prop) : Stmt → Prop
  | .assign target value => target.ReadsOnly p ∧ value.ReadsOnly p
  | .ret value => value.ReadsOnly p
  | .branch cond onTrue onFalse merge =>
    cond.ReadsOnly p ∧ Stmt.AllWithin p onTrue ∧ Stmt.AllWithin p onFalse
      ∧ ∀ phi ∈ merge, phi.Within p
  | .loop cond body merge =>
    cond.ReadsOnly p ∧ Stmt.AllWithin p body ∧ ∀ phi ∈ merge, phi.Within p
termination_by structural s => s

/-- The statements name only variables that satisfy `p`. -/
def Stmt.AllWithin (p : String → Prop) : List Stmt → Prop
  | [] => True
  | s :: ss => s.Within p ∧ Stmt.AllWithin p ss
termination_by structural ss => ss
end

theorem Phi.within_of_forall (h : ∀ name, p name) (phi : Phi) : phi.Within p :=
  ⟨h phi.name, phi.left.readsOnly_of_forall h, phi.right.readsOnly_of_forall h⟩

mutual
theorem Stmt.within_of_forall (h : ∀ name, p name) : ∀ s : Stmt, s.Within p
  | .assign target value => ⟨target.readsOnly_of_forall h, value.readsOnly_of_forall h⟩
  | .ret value => value.readsOnly_of_forall h
  | .branch cond onTrue onFalse _ =>
    ⟨cond.readsOnly_of_forall h, allWithin_of_forall h onTrue, allWithin_of_forall h onFalse,
      fun phi _ => phi.within_of_forall h⟩
  | .loop cond body _ =>
    ⟨cond.readsOnly_of_forall h, allWithin_of_forall h body, fun phi _ => phi.within_of_forall h⟩
termination_by structural s => s

theorem Stmt.allWithin_of_forall (h : ∀ name, p name) : ∀ ss : List Stmt, Stmt.AllWithin p ss
  | [] => trivial
  | s :: ss => ⟨s.within_of_forall h, allWithin_of_forall h ss⟩
termination_by structural ss => ss
end

theorem Stmt.allWithin_append {ss ss' : List Stmt} :
    Stmt.AllWithin p (ss ++ ss') ↔ Stmt.AllWithin p ss ∧ Stmt.AllWithin p ss' := by
  induction ss with
  | nil => exact (and_iff_right trivial).symm
  | cons s ss ih => exact (and_congr_right fun _ => ih).trans and_assoc.symm

/-! ## Variables and control -/

/-- The variables that satisfy `p` have values that stand for each other, and the others still have
the values they have in `u` and `u'`. -/
structure EnvAlike (p : String → Prop) (u u' : Env) (ρ : Pairing) (env env' : Env) : Prop where
  paired : EnvPaired ρ p env env'
  left : ∀ x, ¬p x → env.find? x = u.find? x
  right : ∀ x, ¬p x → env'.find? x = u'.find? x

namespace EnvAlike

theorem refl (h : EnvPaired ρ p env env') : EnvAlike p env env' ρ env env' :=
  ⟨h, fun _ _ => rfl, fun _ _ => rfl⟩

theorem mono (h : EnvAlike p u u' ρ env env') (hle : ρ ≤ ρ') : EnvAlike p u u' ρ' env env' :=
  ⟨h.paired.mono hle, h.left, h.right⟩

theorem insert {v w : Value} {name : String} (h : EnvAlike p u u' ρ env env') (hname : p name)
    (hvw : v.Paired ρ w) : EnvAlike p u u' ρ (env.insert name v) (env'.insert name w) := by
  have hne (x : String) (hx : ¬p x) : x ≠ name := fun heq => hx (heq ▸ hname)
  refine ⟨h.paired.insert name hvw, fun x hx => ?_, fun x hx => ?_⟩
  · rw [NameMap.find?_insert, if_neg (hne x hx)]
    exact h.left x hx
  · rw [NameMap.find?_insert, if_neg (hne x hx)]
    exact h.right x hx

theorem insertAll {as bs : List Value} {names : List String} (h : EnvAlike p u u' ρ env env')
    (hnames : ∀ name ∈ names, p name) (hab : PairedAll ρ as bs) :
    EnvAlike p u u' ρ (env.insertAll (names.zip as)) (env'.insertAll (names.zip bs)) := by
  induction names generalizing as bs env env' with
  | nil => exact h
  | cons name names ih =>
    obtain ⟨hname, hnames⟩ := List.forall_mem_cons.1 hnames
    cases hab with
    | nil => exact h
    | cons hvw hab => exact ih (h.insert hname hvw) hnames hab

end EnvAlike

/-- What follows unless control has left with a result. -/
def Flow.andThen (flow : Flow) (f : Env → Eval Flow) : Eval Flow :=
  match flow with
  | .ret value => pure (.ret value)
  | .next env => f env

/-- Control leaves two blocks in the same way, with related variables or results. -/
inductive FlowRel (E : Env → Env → Prop) (V : Value → Value → Prop) : Flow → Flow → Prop
  | next {env env' : Env} (h : E env env') : FlowRel E V (.next env) (.next env')
  | ret {v w : Value} (h : V v w) : FlowRel E V (.ret v) (.ret w)

/-- Control leaves two blocks alike. -/
abbrev FlowAlike (p : String → Prop) (u u' : Env) (ρ : Pairing) : Flow → Flow → Prop :=
  FlowRel (EnvAlike p u u' ρ) (Paired ρ)

theorem FlowRel.andThen {E F : Pairing → Env → Env → Prop} {flow flow' : Flow}
    {f f' : Env → Eval Flow} (h : FlowRel (E ρ) (Paired ρ) flow flow')
    (hnext : ∀ env env', E ρ env env' → Run.Alike Session.Impartial ρ
      (fun ρ' => FlowRel (F ρ') (Paired ρ')) (f env) (f' env')) :
    Run.Alike Session.Impartial ρ (fun ρ' => FlowRel (F ρ') (Paired ρ')) (flow.andThen f)
      (flow'.andThen f') := by
  cases h with
  | ret hvw => exact .pure (.ret hvw)
  | next henv => exact hnext _ _ henv

namespace Interpreter

variable {apply : Apply} {v w : Value} {as bs : List Value}

/-! ## Statements -/

section
variable (happly : ApplyAlike apply) (trace : Trace)
include happly

/-- Writing to a part of an array binds no variable. -/
theorem assignPart_alike {base key : Expr} {ty? : Option Ty} (hbase : base.ReadsOnly p)
    (hkey : key.ReadsOnly p) (hvw : v.Paired ρ w) (henv : EnvPaired ρ p env env') :
    Run.Alike Session.Impartial ρ (fun _ e e' => e = env ∧ e' = env')
      (assign apply trace ⟨.index base key, ty?⟩ v env)
      (assign apply trace ⟨.index base key, ty?⟩ w env') := by
  rw [assign, assign]
  refine (evalExpr_alike happly trace base hbase henv).bind fun ρ₁ b b' hle₁ hb => ?_
  refine (evalExpr_alike happly trace key hkey (henv.mono hle₁)).bind fun ρ₂ k k' hle₂ hk => ?_
  refine Run.Alike.bind (P := fun _ _ _ => True) (operate_alike trace fun s t hs => ?_)
    fun ρ₃ _ _ _ _ => .pure ⟨rfl, rfl⟩
  exact (assignIndex_alike hs (hb.mono hle₂) hk (hvw.mono (le_trans hle₁ hle₂))).map
    fun f g hfg => ⟨ρ₂, hfg, trivial⟩

omit happly in
mutual
theorem assign_alike (happly : ApplyAlike apply) (trace : Trace) {ρ : Pairing} {node : Node}
    {ty? : Option Ty} {v w : Value} {env env' : Env} (htarget : Expr.ReadsOnly p ⟨node, ty?⟩)
    (hvw : v.Paired ρ w) (henv : EnvAlike p u u' ρ env env') :
    Run.Alike Session.Impartial ρ (EnvAlike p u u') (assign apply trace ⟨node, ty?⟩ v env)
      (assign apply trace ⟨node, ty?⟩ w env') := by
  cases node with
  | var name => exact .pure (henv.insert htarget.self hvw)
  | tuple targets =>
    have htext (s t : Store) (hs : ρ.Matches s t) := hvw.text hs
    cases hvw with
    | tuple h =>
      rw [assign, assign, h.length]
      refine .ite (assignAll_alike happly trace targets (fun _ hc => htarget.child hc) h henv) ?_
      exact failText_alike trace fun s t hs => by rw [htext s t hs]
    | _ => exact failText_alike trace fun s t hs => by rw [htext s t hs]
  | index base key =>
    refine (assignPart_alike happly trace (htarget.child (.head _))
      (htarget.child (.tail _ (.head _))) hvw henv.paired).mono fun ρ' _ _ hle h => ?_
    rw [h.1, h.2]
    exact henv.mono hle
  | _ => exact fail_alike trace _
termination_by sizeOf node

theorem assignAll_alike (happly : ApplyAlike apply) (trace : Trace) :
    ∀ {ρ : Pairing} {as bs : List Value} {env env' : Env} (targets : List Expr),
      (∀ e ∈ targets, e.ReadsOnly p) → PairedAll ρ as bs →
      EnvAlike p u u' ρ env env' → Run.Alike Session.Impartial ρ (EnvAlike p u u')
        (assignAll apply trace targets as env) (assignAll apply trace targets bs env')
  | _, _, _, _, _, [], _, _, henv => .pure henv
  | _, _, _, _, _, _ :: _, _, .nil, henv => .pure henv
  | _, _, _, _, _, ⟨node, ty?⟩ :: targets, htargets, .cons hvw hab, henv => by
    obtain ⟨htarget, htargets⟩ := List.forall_mem_cons.1 htargets
    rw [assignAll, assignAll]
    exact (assign_alike happly trace htarget hvw henv).bind fun ρ₁ _ _ hle₁ henv₁ =>
      assignAll_alike happly trace targets htargets (hab.mono hle₁) henv₁
termination_by _ _ _ _ _ targets => sizeOf targets
end

theorem evalCond_alike (cond : Expr) (hcond : cond.ReadsOnly p) (henv : EnvPaired ρ p env env') :
    Run.Alike Session.Impartial ρ (fun _ a b => b = a) (evalCond apply trace cond env)
      (evalCond apply trace cond env') := by
  unfold evalCond
  refine (evalExpr_alike happly trace cond hcond henv).bind fun ρ₁ v w _ hvw => ?_
  have htext (s t : Store) (hs : ρ₁.Matches s t) := hvw.text hs
  cases hvw with
  | scalar x => exact .pure rfl
  | _ => exact failText_alike trace fun s t hs => by rw [htext s t hs]

/-- The values that the sides of a merge have. -/
theorem evalSides_alike (side : Phi → Expr) (merge : List Phi)
    (hmerge : ∀ phi ∈ merge, (side phi).ReadsOnly p) (henv : EnvPaired ρ p env env') :
    Run.Alike Session.Impartial ρ PairedAll (evalExprs apply trace env (merge.map side))
      (evalExprs apply trace env' (merge.map side)) := by
  refine evalExprs_alike happly trace _ (fun e he => ?_) henv
  obtain ⟨phi, hphi, rfl⟩ := List.mem_map.1 he
  exact hmerge phi hphi

theorem bindMerge_alike (side : Phi → Expr) (merge : List Phi)
    (hnames : ∀ phi ∈ merge, p phi.name) (hmerge : ∀ phi ∈ merge, (side phi).ReadsOnly p)
    (henv : EnvAlike p u u' ρ env env') :
    Run.Alike Session.Impartial ρ (EnvAlike p u u') (bindMerge apply trace side merge env)
      (bindMerge apply trace side merge env') := by
  refine (evalSides_alike happly trace side merge hmerge henv.paired).bind
    fun ρ₁ as bs hle₁ hab => .pure ((henv.mono hle₁).insertAll (fun name hname => ?_) hab)
  obtain ⟨phi, hphi, rfl⟩ := List.mem_map.1 hname
  exact hnames phi hphi

omit happly in
/-- Loops whose tests and passes are alike are alike. -/
theorem runLoop_alike {E : Pairing → Env → Env → Prop} {test test' : Env → Eval Bool}
    {pass pass' : Env → Eval Flow}
    (htest : ∀ ρ env env', E ρ env env' → Run.Alike Session.Impartial ρ
      (fun ρ' a b => b = a ∧ E ρ' env env') (test env) (test' env'))
    (hpass : ∀ ρ env env', E ρ env env' → Run.Alike Session.Impartial ρ
      (fun ρ' => FlowRel (E ρ') (Paired ρ')) (pass env) (pass' env'))
    (fuel : Nat) (henv : E ρ env env') :
    Run.Alike Session.Impartial ρ (fun ρ' => FlowRel (E ρ') (Paired ρ'))
      (runLoop test pass fuel env) (runLoop test' pass' fuel env') := by
  induction fuel generalizing ρ env env' with
  | zero => exact .throw _
  | succ fuel ih =>
    rw [runLoop, runLoop]
    refine (htest ρ env env' henv).bind fun ρ₁ a b _ h => ?_
    obtain ⟨rfl, henv₁⟩ := h
    refine .ite ((hpass ρ₁ env env' henv₁).bind fun ρ₂ flow flow' _ hflow => ?_)
      (.pure (.next henv₁))
    cases hflow with
    | ret hvw => exact .pure (.ret hvw)
    | next henv₂ => exact ih henv₂

omit happly in
mutual
/-- A statement makes the same choices in both runs. -/
theorem runStmt_alike (happly : ApplyAlike apply) (trace : Trace) (fuel : Nat) :
    ∀ {ρ : Pairing} {env env' : Env} (s : Stmt), s.Within p →
      EnvAlike p u u' ρ env env' → Run.Alike Session.Impartial ρ (FlowAlike p u u')
      (runStmt apply trace fuel s env) (runStmt apply trace fuel s env')
  | _, _, _, .assign ⟨node, ty?⟩ value, hs, henv => by
    rw [runStmt, runStmt]
    refine (evalExpr_alike happly trace value hs.2 henv.paired).bind fun ρ₁ v w hle₁ hvw => ?_
    exact (assign_alike happly trace hs.1 hvw (henv.mono hle₁)).bind fun ρ₂ _ _ _ henv₂ =>
      .pure (.next henv₂)
  | _, _, _, .ret value, hs, henv => by
    rw [runStmt, runStmt]
    exact (evalExpr_alike happly trace value hs henv.paired).bind fun _ _ _ _ hvw =>
      .pure (.ret hvw)
  | _, _, _, .branch cond onTrue onFalse merge, hs, henv => by
    rw [runStmt, runStmt]
    obtain ⟨hcond, htrue, hfalse, hmerge⟩ := hs
    have hbind (side : Phi → Expr) (hside : ∀ phi ∈ merge, (side phi).ReadsOnly p) {ρ' : Pairing}
        {env env' : Env} (henv : EnvAlike p u u' ρ' env env') :=
      (bindMerge_alike happly trace side merge (fun phi h => (hmerge phi h).name) hside henv).bind
        fun ρ'' _ _ _ henv'' => Run.Alike.pure (Q := FlowAlike p u u') (.next henv'')
    refine (evalCond_alike happly trace cond hcond henv.paired).bind fun ρ₁ a b hle₁ heq => ?_
    rw [heq]
    refine .ite ?_ ?_
    · refine (runBlock_alike happly trace fuel onTrue htrue (henv.mono hle₁)).bind
        fun ρ₂ flow flow' _ hflow => ?_
      exact hflow.andThen (E := EnvAlike p u u') (F := EnvAlike p u u') fun _ _ =>
        hbind Phi.left fun phi h => (hmerge phi h).left
    · refine (runBlock_alike happly trace fuel onFalse hfalse (henv.mono hle₁)).bind
        fun ρ₂ flow flow' _ hflow => ?_
      exact hflow.andThen (E := EnvAlike p u u') (F := EnvAlike p u u') fun _ _ =>
        hbind Phi.right fun phi h => (hmerge phi h).right
  | _, _, _, .loop cond body merge, hs, henv => by
    rw [runStmt, runStmt]
    obtain ⟨hcond, hbody, hmerge⟩ := hs
    have hnames (phi : Phi) (h : phi ∈ merge) := (hmerge phi h).name
    refine (bindMerge_alike happly trace Phi.left merge hnames (fun phi h => (hmerge phi h).left)
      henv).bind fun ρ₁ env₁ env₁' _ henv₁ => ?_
    refine runLoop_alike (E := EnvAlike p u u') (fun ρ₂ env env' henv => ?_)
      (fun ρ₂ env env' henv => ?_) fuel henv₁
    · exact (evalCond_alike happly trace cond hcond henv.paired).mono
        fun ρ₃ _ _ hle heq => ⟨heq, henv.mono hle⟩
    · refine (runBlock_alike happly trace fuel body hbody henv).bind fun ρ₃ flow flow' _ hflow => ?_
      exact hflow.andThen (E := EnvAlike p u u') (F := EnvAlike p u u') fun _ _ henv =>
        (bindMerge_alike happly trace Phi.right merge hnames
          (fun phi h => (hmerge phi h).right) henv).bind fun _ _ _ _ henv' => .pure (.next henv')
termination_by structural _ _ _ s => s

theorem runBlock_alike (happly : ApplyAlike apply) (trace : Trace) (fuel : Nat) :
    ∀ {ρ : Pairing} {env env' : Env} (ss : List Stmt),
      Stmt.AllWithin p ss → EnvAlike p u u' ρ env env' →
      Run.Alike Session.Impartial ρ (FlowAlike p u u') (runBlock apply trace fuel ss env)
        (runBlock apply trace fuel ss env')
  | _, _, _, [], _, henv => .pure (.next henv)
  | _, _, _, s :: ss, hs, henv => by
    rw [runBlock, runBlock]
    refine (runStmt_alike happly trace fuel s hs.1 henv).bind fun ρ₁ flow flow' _ hflow => ?_
    exact hflow.andThen (E := EnvAlike p u u') (F := EnvAlike p u u') fun _ _ =>
      runBlock_alike happly trace fuel ss hs.2
termination_by structural _ _ _ ss => ss
end

theorem runBody_alike (fuel : Nat) (body : Block) (henv : EnvPaired ρ (fun _ => True) env env') :
    Run.Alike Session.Impartial ρ Paired (runBody apply trace fuel body env)
      (runBody apply trace fuel body env') := by
  refine (runBlock_alike happly trace fuel body (Stmt.allWithin_of_forall (fun _ => trivial) body)
    (.refl henv)).bind fun ρ₁ flow flow' _ hflow => ?_
  cases hflow with
  | next _ => exact .pure .none
  | ret hvw => exact .pure hvw

end

/-! ## Calls -/

/-- The variables of a called function stand for each other if the arguments do. -/
theorem bindCall_alike (func : FnDef) (hab : PairedAll ρ as bs) :
    Outcome.Alike (EnvPaired ρ p) (bindCall func as) (bindCall func bs) := by
  cases func with
  | source decl =>
    have hbound : Outcome.Alike (List.Forall₂ (Binding.EntryRel (Paired ρ)))
        (bindArgs decl.name decl.params decl.nonlocals as [])
        (bindArgs decl.name decl.params decl.nonlocals bs []) :=
      Binding.bindArgs_alike (ofLiteral_paired ρ) (fun _ _ h => .tuple (pairedAll_iff.2 h))
        (pairedAll_iff.1 hab) .nil
    unfold bindCall
    dsimp only
    generalize bindArgs decl.name decl.params decl.nonlocals as [] = r at hbound
    generalize bindArgs decl.name decl.params decl.nonlocals bs [] = r' at hbound
    cases hbound with
    | error e => exact .error _
    | ok h => exact .ok (.ofList h)
  | typed func =>
    unfold bindCall
    dsimp only
    rw [hab.length]
    split
    · have hempty : EnvPaired ρ p ∅ ∅ := fun _ _ => .none
      exact .ok (hempty.insertAll _ hab)
    · exact .error _

/-- A call does not tell paired arguments apart: the induction is on the fuel, which bounds the depth
of calls. -/
theorem applyFn_alike (fuel : Nat) : ApplyAlike (applyFn fuel) := by
  induction fuel with
  | zero => exact fun _ _ _ _ _ _ => .throw _
  | succ fuel ih =>
    intro ρ trace func as bs hab
    rw [applyFn, applyFn]
    refine (orFault_alike (Q := fun ρ => EnvPaired ρ fun _ => True) _
      (bindCall_alike func hab)).bind fun ρ₁ env env' _ henv => ?_
    exact runBody_alike ih _ fuel _ henv

/-- A specialized function called on arguments that stand for each other changes both stores alike
and returns values that stand for each other, or stops with the same error. -/
theorem callTyped_alike (fuel : Nat) (func : TypedFn) (hab : PairedAll ρ as bs) :
    Run.Alike Session.Impartial ρ Paired (callTyped fuel func as) (callTyped fuel func bs) :=
  applyFn_alike fuel ρ [] (.typed func) as bs hab

end Interpreter
end ArrayLang
