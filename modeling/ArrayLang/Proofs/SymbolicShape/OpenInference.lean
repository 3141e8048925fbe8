import ArrayLang.SymbolicShape.Inference
import ArrayLang.Proofs.Typing.WellTyped

/-!
# Shape inference with open calls

The walk through the body of a function is told what the calls in it give. It is built from steps that
do without calls and from calls. No step of its own finds a recursion, and none misses a type where all
nodes of the code have types: whatever else goes wrong with those is left to the calls.

## Main results

- `walk_scripted`: the walk through a function is built in this way.
- `Scripted.error_origin`: an error is of a step, or it is the error of a call.
-/

namespace ArrayLang

/-! ## Code with types -/

/-- The expression and everything inside it have types. -/
def Expr.NodesTyped (e : Expr) : Prop :=
  e.Forall (·.ty? ≠ none)

@[simp] theorem Expr.nodesTyped_typed {node : Node} {ty : Ty} :
    (Expr.typed node ty).NodesTyped ↔ ∀ c ∈ node.children, c.NodesTyped :=
  Expr.forall_iff.trans (and_iff_right nofun)

mutual
/-- All expressions in the statement have types. -/
def Stmt.NodesTyped : Stmt → Prop
  | .assign target value => target.NodesTyped ∧ value.NodesTyped
  | .ret value => value.NodesTyped
  | .branch cond onTrue onFalse merge =>
    cond.NodesTyped ∧ Stmt.AllNodesTyped onTrue ∧ Stmt.AllNodesTyped onFalse
      ∧ ∀ phi ∈ merge, phi.left.NodesTyped ∧ phi.right.NodesTyped
  | .loop cond body merge =>
    cond.NodesTyped ∧ Stmt.AllNodesTyped body
      ∧ ∀ phi ∈ merge, phi.left.NodesTyped ∧ phi.right.NodesTyped
termination_by structural s => s

/-- All expressions in the statements have types. -/
def Stmt.AllNodesTyped : List Stmt → Prop
  | [] => True
  | s :: ss => s.NodesTyped ∧ Stmt.AllNodesTyped ss
termination_by structural ss => ss
end

/-- All nodes in the body of the function have types. -/
def TypedFn.NodesTyped (func : TypedFn) : Prop :=
  Stmt.AllNodesTyped func.body

namespace ShapeInference

open AbstractValue

variable {α β : Type} {typed : Prop}

/-- A walk that is told what calls give. -/
abbrev Open (α : Type) := Call → Except ShapeInferError α

/-- An error that a step may come to: never a recursion, and never a missing type in code whose nodes
have types. -/
structure OwnError (typed : Prop) (e : ShapeInferError) : Prop where
  not_recursive : ∀ name, e ≠ .recursive name
  not_untyped : typed → e ≠ .untyped

/-- The walk is built from steps that make no call and from calls. -/
inductive Scripted (typed : Prop) : {α : Type} → Open α → Prop
  | step {α : Type} {r : Except ShapeInferError α} (h : ∀ e, r = .error e → OwnError typed e) :
    Scripted typed fun _ => r
  | call (name : String) (args : List AbstractValue) : Scripted typed fun call => call name args
  | bind {α β : Type} {x : Open α} {f : α → Open β} (hx : Scripted typed x)
    (hf : ∀ a, Scripted typed (f a)) : Scripted typed fun call => x call >>= fun a => f a call

namespace Scripted

/-- An error of the walk is of one of its steps, or of one of its calls. -/
theorem error_origin {x : Open α} (h : Scripted typed x) {call : Call} {e : ShapeInferError}
    (hx : x call = .error e) : OwnError typed e ∨ ∃ name args, call name args = .error e := by
  induction h with
  | step h => exact .inl (h e hx)
  | call name args => exact .inr ⟨name, args, hx⟩
  | @bind _ _ x f _ _ ihx ihf =>
    replace hx : (x call >>= fun a => f a call) = .error e := hx
    cases hr : x call with
    | error e' =>
      rw [hr] at hx
      cases hx
      exact ihx hr
    | ok a =>
      rw [hr] at hx
      exact ihf a hx

theorem pure (a : α) : Scripted typed fun _ => (.ok a : Except ShapeInferError α) :=
  .step fun _ h => nomatch h

theorem error {e : ShapeInferError} (h : OwnError typed e) :
    Scripted typed fun _ => (.error e : Except ShapeInferError α) :=
  .step fun _ he => Except.error.inj he ▸ h

theorem map {x : Open α} (hx : Scripted typed x) (f : α → β) :
    Scripted typed fun call => (x call).map f := by
  have hmap (r : Except ShapeInferError α) : r.map f = r >>= fun a => .ok (f a) := by
    cases r <;> rfl
  simp only [hmap]
  exact hx.bind fun a => pure (f a)

theorem mapM {f : β → Open α} {l : List β} (h : ∀ b ∈ l, Scripted typed (f b)) :
    Scripted typed fun call => l.mapM (f · call) := by
  induction l with
  | nil => exact pure []
  | cons b l ih =>
    simp only [List.mapM_cons]
    refine (h b List.mem_cons_self).bind fun a => ?_
    exact (ih fun b hb => h b (List.mem_cons_of_mem _ hb)).bind fun _ => pure _

theorem foldlM {f : α → β → Open α} {l : List β} (h : ∀ a, ∀ b ∈ l, Scripted typed (f a b))
    (a : α) : Scripted typed fun call => l.foldlM (f · · call) a := by
  induction l generalizing a with
  | nil => exact pure a
  | cons b l ih =>
    simp only [List.foldlM_cons]
    exact (h a b List.mem_cons_self).bind fun a =>
      ih (fun a b hb => h a b (List.mem_cons_of_mem _ hb)) a

end Scripted

/-! ## Expressions -/

theorem nodeTy_scripted {ty? : Option Ty} (h : typed → ty? ≠ none) :
    Scripted typed fun _ => nodeTy ty? := by
  cases ty? with
  | none => exact .error ⟨fun _ => nofun, fun ht => absurd rfl (h ht)⟩
  | some ty => exact .pure ty

theorem constAxis_scripted (axis : Expr) : Scripted typed fun _ => constAxis axis := by
  refine .step fun e h => ?_
  have he : e = .nonConstantAxis := by
    unfold constAxis at h
    split at h
    · split at h
      · cases h
      · exact (Except.error.inj h).symm
    · exact (Except.error.inj h).symm
  subst he
  exact ⟨fun _ => nofun, fun _ => nofun⟩

theorem invoke_scripted (callee : AbstractValue) (args : List AbstractValue) :
    Scripted typed fun call => invoke call callee args := by
  cases callee with
  | closure func fixed => exact .call func (fixed ++ args)
  | _ => exact .error ⟨fun _ => nofun, fun _ => nofun⟩

theorem sliceBound_scripted (missing : SymbolicShape) (bound : Expr) {inferred : Open AbstractValue}
    (h : Scripted typed inferred) :
    Scripted typed fun call => sliceBound missing bound (inferred call) := by
  have hvalue : Scripted typed fun call => (inferred call).map value := h.map value
  unfold sliceBound
  split
  · exact .pure _
  · split
    · exact .pure _
    · exact hvalue
  · exact hvalue

section
variable (env : AbstractEnv)

/-- What is asked of an expression holds of its children. -/
theorem typed_child {e c : Expr} (h : typed → e.NodesTyped) (hc : c ∈ e.children) :
    typed → c.NodesTyped :=
  fun ht => Expr.Forall.of_mem_children (h ht) hc

theorem typed_self {e : Expr} (h : typed → e.NodesTyped) : typed → e.ty? ≠ none :=
  fun ht => Expr.Forall.self (h ht)

mutual
/-- The walk through an expression: the induction is on the expression. -/
theorem inferExpr_scripted : ∀ e : Expr, (typed → e.NodesTyped) →
    Scripted typed fun call => inferExpr call env e
  | ⟨.lit value, ty?⟩, h => by
    simp only [inferExpr]
    refine (nodeTy_scripted (typed_self h)).bind fun _ => ?_
    cases value <;> exact .pure _
  | ⟨.var name, ty?⟩, h => by
    simp only [inferExpr]
    exact (nodeTy_scripted (typed_self h)).bind fun _ => .pure _
  | ⟨.tuple items, ty?⟩, h => by
    simp only [inferExpr]
    refine (nodeTy_scripted (typed_self h)).bind fun _ => ?_
    exact (inferExprs_scripted items fun c hc => typed_child h hc).bind fun _ => .pure _
  | ⟨.proj base i, ty?⟩, h => by
    simp only [inferExpr]
    refine (nodeTy_scripted (typed_self h)).bind fun ty => ?_
    refine (inferExpr_scripted base (typed_child h List.mem_cons_self)).bind fun v => ?_
    cases v <;> exact .pure _
  | ⟨.array items, ty?⟩, h => by
    simp only [inferExpr]
    refine (nodeTy_scripted (typed_self h)).bind fun _ => ?_
    exact (inferExprs_scripted items fun c hc => typed_child h hc).bind fun _ => .pure _
  | ⟨.index base index, ty?⟩, h => by
    conv => enter [2, call]; rw [inferExpr]
    have hindex : typed → index.NodesTyped :=
      typed_child h (List.mem_cons_of_mem _ List.mem_cons_self)
    refine (nodeTy_scripted (typed_self h)).bind fun ty => ?_
    refine (inferExpr_scripted base (typed_child h List.mem_cons_self)).bind fun v => ?_
    cases v with
    | array dims =>
      -- A tuple of items selects on several axes, anything else on the first one.
      have hitem := sliceExtent_scripted dims.head? index hindex
      cases index with
      | mk node ty' =>
        cases node with
        | tuple items =>
          exact (sliceExtents_scripted dims items fun c hc => typed_child hindex hc).bind
            fun _ => .pure _
        | _ => exact hitem.bind fun _ => .pure _
    | tuple items =>
      dsimp only
      split <;> exact .pure _
    | _ => exact .pure _
  | ⟨.slice _ _ _, ty?⟩, h => by
    simp only [inferExpr]
    exact (nodeTy_scripted (typed_self h)).bind fun _ => .pure _
  | ⟨.attr base name, ty?⟩, h => by
    simp only [inferExpr]
    have hbase : typed → base.NodesTyped := typed_child h List.mem_cons_self
    refine (nodeTy_scripted (typed_self h)).bind fun ty => ?_
    refine (inferExpr_scripted base hbase).bind fun v => ?_
    cases v with
    | tuple items => exact (nodeTy_scripted (typed_self hbase)).bind fun _ => .pure _
    | _ => exact .pure _
  | ⟨.op op args, ty?⟩, h => by
    simp only [inferExpr]
    refine (nodeTy_scripted (typed_self h)).bind fun ty => ?_
    exact (inferExprs_scripted args fun c hc => typed_child h hc).bind fun _ => .pure _
  | ⟨.opValue _, ty?⟩, h => by
    simp only [inferExpr]
    exact (nodeTy_scripted (typed_self h)).bind fun _ => .pure _
  | ⟨.lambda _, ty?⟩, h => by
    simp only [inferExpr]
    exact (nodeTy_scripted (typed_self h)).bind fun _ => .pure _
  | ⟨.call func args, ty?⟩, h => by
    simp only [inferExpr]
    refine (nodeTy_scripted (typed_self h)).bind fun _ => ?_
    exact (inferExprs_scripted args fun c hc => typed_child h hc).bind fun vs => .call func vs
  | ⟨.invoke callee args, ty?⟩, h => by
    simp only [inferExpr]
    refine (nodeTy_scripted (typed_self h)).bind fun _ => ?_
    refine (inferExpr_scripted callee (typed_child h List.mem_cons_self)).bind fun v => ?_
    exact (inferExprs_scripted args fun c hc => typed_child h (List.mem_cons_of_mem _ hc)).bind
      fun vs => invoke_scripted v vs
  | ⟨.closure func captured, ty?⟩, h => by
    simp only [inferExpr]
    refine (nodeTy_scripted (typed_self h)).bind fun _ => ?_
    exact (inferExprs_scripted captured fun c hc => typed_child h hc).bind fun _ => .pure _
  | ⟨.captured base i, ty?⟩, h => by
    simp only [inferExpr]
    refine (nodeTy_scripted (typed_self h)).bind fun ty => ?_
    refine (inferExpr_scripted base (typed_child h List.mem_cons_self)).bind fun v => ?_
    cases v <;> exact .pure _
  | ⟨.cast value _, ty?⟩, h => by
    simp only [inferExpr]
    refine (nodeTy_scripted (typed_self h)).bind fun ty => ?_
    refine (inferExpr_scripted value (typed_child h List.mem_cons_self)).bind fun v => ?_
    cases v <;> exact .pure _
  | ⟨.struct _ fields, ty?⟩, h => by
    simp only [inferExpr]
    refine (nodeTy_scripted (typed_self h)).bind fun _ => ?_
    exact (inferFields_scripted fields fun field hfield =>
      typed_child h (List.mem_map_of_mem hfield)).bind fun _ => .pure _
  | ⟨.alloc _ shape, ty?⟩, h => by
    simp only [inferExpr]
    refine (nodeTy_scripted (typed_self h)).bind fun ty => ?_
    exact (inferExpr_scripted shape (typed_child h List.mem_cons_self)).bind fun _ => .pure _
  | ⟨.map func args axis, ty?⟩, h => by
    simp only [inferExpr]
    refine (nodeTy_scripted (typed_self h)).bind fun _ => (constAxis_scripted axis).bind fun _ => ?_
    refine (inferExpr_scripted func (typed_child h List.mem_cons_self)).bind fun f => ?_
    refine (inferExprs_scripted args fun c hc =>
      typed_child h (List.mem_cons_of_mem _ (List.mem_append_left _ hc))).bind fun vs => ?_
    exact (invoke_scripted f _).bind fun _ => .pure _
  | ⟨.allPairs func args axis, ty?⟩, h => by
    simp only [inferExpr]
    refine (nodeTy_scripted (typed_self h)).bind fun ty => (constAxis_scripted axis).bind fun _ => ?_
    refine (inferExpr_scripted func (typed_child h List.mem_cons_self)).bind fun f => ?_
    refine (inferExprs_scripted args fun c hc =>
      typed_child h (List.mem_cons_of_mem _ (List.mem_append_left _ hc))).bind fun vs => ?_
    split
    · refine (invoke_scripted f _).bind fun v => ?_
      cases v <;> exact .pure _
    · exact .pure _
  | ⟨.reduce func combine start args axis, ty?⟩, h => by
    simp only [inferExpr]
    have hcombine : typed → combine.NodesTyped :=
      typed_child h (List.mem_cons_of_mem _ List.mem_cons_self)
    have hrest : ∀ c ∈ start.toList ++ (args ++ [axis]), typed → c.NodesTyped := fun c hc =>
      typed_child h (List.mem_cons_of_mem _ (List.mem_cons_of_mem _ hc))
    refine (nodeTy_scripted (typed_self h)).bind fun _ => (constAxis_scripted axis).bind fun _ => ?_
    refine (inferExpr_scripted func (typed_child h List.mem_cons_self)).bind fun f => ?_
    refine (inferExpr_scripted combine hcombine).bind fun g => ?_
    refine (inferExprs_scripted args fun c hc =>
      hrest c (List.mem_append_right _ (List.mem_append_left _ hc))).bind fun vs => ?_
    refine (invoke_scripted f _).bind fun v => ?_
    refine (inferOption_scripted start fun c hc =>
      hrest c (List.mem_append_left _ (Option.mem_toList.2 hc))).bind fun start? => ?_
    exact (invoke_scripted g _).bind fun _ => .pure _
  | ⟨.scan func combine emit start args axis, ty?⟩, h => by
    simp only [inferExpr]
    have hcombine : typed → combine.NodesTyped :=
      typed_child h (List.mem_cons_of_mem _ List.mem_cons_self)
    have hemit : typed → emit.NodesTyped :=
      typed_child h (List.mem_cons_of_mem _ (List.mem_cons_of_mem _ List.mem_cons_self))
    have hrest : ∀ c ∈ start.toList ++ (args ++ [axis]), typed → c.NodesTyped := fun c hc =>
      typed_child h
        (List.mem_cons_of_mem _ (List.mem_cons_of_mem _ (List.mem_cons_of_mem _ hc)))
    refine (nodeTy_scripted (typed_self h)).bind fun _ => (constAxis_scripted axis).bind fun _ => ?_
    refine (inferExpr_scripted func (typed_child h List.mem_cons_self)).bind fun f => ?_
    refine (inferExpr_scripted combine hcombine).bind fun g => ?_
    refine (inferExpr_scripted emit hemit).bind fun e => ?_
    refine (inferExprs_scripted args fun c hc =>
      hrest c (List.mem_append_right _ (List.mem_append_left _ hc))).bind fun vs => ?_
    refine (invoke_scripted f _).bind fun v => ?_
    refine (inferOption_scripted start fun c hc =>
      hrest c (List.mem_append_left _ (Option.mem_toList.2 hc))).bind fun start? => ?_
    exact (invoke_scripted g _).bind fun w => (invoke_scripted e _).bind fun _ => .pure _
termination_by structural e => e

theorem inferExprs_scripted : ∀ es : List Expr, (∀ e ∈ es, typed → e.NodesTyped) →
    Scripted typed fun call => inferExprs call env es
  | [], _ => .pure []
  | e :: es, h => by
    simp only [inferExprs]
    refine (inferExpr_scripted e (h e List.mem_cons_self)).bind fun _ => ?_
    exact (inferExprs_scripted es fun c hc => h c (List.mem_cons_of_mem _ hc)).bind fun _ => .pure _
termination_by structural es => es

theorem inferOption_scripted : ∀ e? : Option Expr, (∀ e ∈ e?, typed → e.NodesTyped) →
    Scripted typed fun call => inferOption call env e?
  | none, _ => .pure none
  | some e, h => by
    simp only [inferOption]
    exact (inferExpr_scripted e (h e rfl)).bind fun _ => .pure _
termination_by structural e? => e?

theorem inferFields_scripted : ∀ fields : List (String × Expr),
    (∀ field ∈ fields, typed → field.2.NodesTyped) →
      Scripted typed fun call => inferFields call env fields
  | [], _ => .pure []
  | (name, e) :: fields, h => by
    simp only [inferFields]
    refine (inferExpr_scripted e (h (name, e) List.mem_cons_self)).bind fun _ => ?_
    exact (inferFields_scripted fields fun c hc => h c (List.mem_cons_of_mem _ hc)).bind
      fun _ => .pure _
termination_by structural fields => fields

theorem sliceExtent_scripted (dim? : Option SymbolicShape) : ∀ e : Expr,
    (typed → e.NodesTyped) → Scripted typed fun call => sliceExtent call env dim? e
  | ⟨node, ty?⟩, h => by
    cases node with
    | slice start stop step =>
      simp only [sliceExtent]
      refine (nodeTy_scripted (typed_self h)).bind fun ty => ?_
      split
      · split
        · have hstart : typed → start.NodesTyped := typed_child h List.mem_cons_self
          have hstop : typed → stop.NodesTyped :=
            typed_child h (List.mem_cons_of_mem _ List.mem_cons_self)
          refine (sliceBound_scripted _ start (inferExpr_scripted start hstart)).bind fun low => ?_
          exact (sliceBound_scripted _ stop (inferExpr_scripted stop hstop)).bind fun _ => .pure _
        · exact .pure _
      · exact .pure _
    | _ =>
      simp only [sliceExtent]
      refine (nodeTy_scripted (typed_self h)).bind fun ty => ?_
      split <;> exact .pure _
termination_by structural e => e

theorem sliceExtents_scripted : ∀ (dims : List SymbolicShape) (es : List Expr),
    (∀ e ∈ es, typed → e.NodesTyped) → Scripted typed fun call => sliceExtents call env dims es
  | _, [], _ => .pure []
  | dims, e :: es, h => by
    simp only [sliceExtents]
    refine (sliceExtent_scripted dims.head? e (h e List.mem_cons_self)).bind fun _ => ?_
    exact (sliceExtents_scripted dims.tail es fun c hc => h c (List.mem_cons_of_mem _ hc)).bind
      fun _ => .pure _
termination_by structural _ es => es
end

end

/-! ## Statements -/

mutual
theorem bindTarget_scripted : ∀ (target : Expr) (v : AbstractValue) (env : AbstractEnv),
    (typed → target.NodesTyped) → Scripted typed fun _ => bindTarget target v env
  | ⟨node, ty?⟩, v, env, h => by
    cases node with
    | var name => exact .pure _
    | tuple targets =>
      have htargets : ∀ c ∈ targets, typed → c.NodesTyped := fun c hc => typed_child h hc
      cases v with
      | tuple items => exact bindTargets_scripted targets items env htargets
      | _ => exact bindTargets_scripted targets [] env htargets
    | _ => exact .pure _
termination_by structural target => target

theorem bindTargets_scripted : ∀ (targets : List Expr) (vs : List AbstractValue) (env : AbstractEnv),
    (∀ e ∈ targets, typed → e.NodesTyped) → Scripted typed fun _ => bindTargets targets vs env
  | [], _, _, _ => .pure _
  | target :: targets, v :: vs, env, h => by
    simp only [bindTargets]
    refine (bindTarget_scripted target v env (h target List.mem_cons_self)).bind fun env => ?_
    exact bindTargets_scripted targets vs env fun c hc => h c (List.mem_cons_of_mem _ hc)
  | target :: targets, [], env, h => by
    simp only [bindTargets]
    have htarget := h target List.mem_cons_self
    refine (nodeTy_scripted (typed_self htarget)).bind fun ty => ?_
    refine (bindTarget_scripted target _ env htarget).bind fun env => ?_
    exact bindTargets_scripted targets [] env fun c hc => h c (List.mem_cons_of_mem _ hc)
termination_by structural targets => targets
end

/-- A loop gives up on shapes after a number of passes. -/
theorem settleLoop_scripted (func : String) {pass : Frame → Open Frame}
    (hpass : ∀ frame, Scripted typed (pass frame)) (passes : Nat) (frame : Frame) :
    Scripted typed fun call => settleLoop func (pass · call) passes frame := by
  induction passes generalizing frame with
  | zero => exact .error ⟨fun _ => nofun, fun _ => nofun⟩
  | succ passes ih =>
    simp only [settleLoop]
    refine (hpass frame).bind fun after => ?_
    split
    · exact .pure _
    · exact ih _

theorem bindSides_scripted (side : Phi → Expr) {merge : List Phi} (env : AbstractEnv)
    (h : ∀ phi ∈ merge, typed → (side phi).NodesTyped) :
    Scripted typed fun call => bindSides call side merge env :=
  Scripted.foldlM (fun env phi hphi =>
    (inferExpr_scripted env (side phi) (h phi hphi)).bind fun _ => .pure _) env

section
variable (func : String)

mutual
/-- The walk through a statement: the induction is on the statement. -/
theorem inferStmt_scripted : ∀ (s : Stmt) (frame : Frame), (typed → s.NodesTyped) →
    Scripted typed fun call => inferStmt call func s frame
  | .assign target value, frame, h => by
    simp only [inferStmt]
    refine (inferExpr_scripted frame.env value fun ht => (h ht).2).bind fun v => ?_
    exact (bindTarget_scripted target v frame.env fun ht => (h ht).1).bind fun _ => .pure _
  | .ret value, frame, h => by
    simp only [inferStmt]
    exact (inferExpr_scripted frame.env value h).bind fun _ => .pure _
  | .branch _ onTrue onFalse merge, frame, h => by
    simp only [inferStmt]
    refine (inferBlock_scripted onTrue frame fun ht => (h ht).2.1).bind fun whenTrue => ?_
    refine (inferBlock_scripted onFalse frame fun ht => (h ht).2.2.1).bind fun whenFalse => ?_
    refine Scripted.bind (Scripted.mapM fun phi hphi => ?_) fun _ => .pure _
    have hmerge := fun ht => (h ht).2.2.2 phi hphi
    refine (inferExpr_scripted whenTrue.env phi.left fun ht => (hmerge ht).1).bind fun _ => ?_
    exact (inferExpr_scripted whenFalse.env phi.right fun ht => (hmerge ht).2).bind fun _ => .pure _
  | .loop _ body merge, frame, h => by
    simp only [inferStmt]
    have hleft : ∀ phi ∈ merge, typed → phi.left.NodesTyped :=
      fun phi hphi ht => ((h ht).2.2 phi hphi).1
    have hright : ∀ phi ∈ merge, typed → phi.right.NodesTyped :=
      fun phi hphi ht => ((h ht).2.2 phi hphi).2
    refine (bindSides_scripted Phi.left frame.env hleft).bind fun env => ?_
    refine settleLoop_scripted func (fun frame => ?_) loopPasses _
    refine (inferBlock_scripted body frame fun ht => (h ht).2.1).bind fun after => ?_
    exact (bindSides_scripted Phi.right after.env hright).bind fun _ => .pure _
termination_by structural s => s

theorem inferBlock_scripted : ∀ (ss : List Stmt) (frame : Frame),
    (typed → Stmt.AllNodesTyped ss) → Scripted typed fun call => inferBlock call func ss frame
  | [], _, _ => .pure _
  | s :: ss, frame, h => by
    simp only [inferBlock]
    refine (inferStmt_scripted s frame fun ht => (h ht).1).bind fun frame => ?_
    exact inferBlock_scripted ss frame fun ht => (h ht).2
termination_by structural ss => ss
end

end

/-! ## Functions -/

/-- The walk through the body of a function. -/
def walk (func : TypedFn) (args : List AbstractValue) : Open AbstractValue := fun call => do
  let frame ← inferBlock call func.name func.body ⟨.ofList (func.argNames.zip args), none⟩
  return frame.returned?.getD untracked

theorem walk_scripted (func : TypedFn) (args : List AbstractValue) :
    Scripted func.NodesTyped (walk func args) :=
  (inferBlock_scripted func.name func.body _ id).bind fun _ => .pure _

end ShapeInference
end ArrayLang
