import ArrayLang.Proofs.CopyElimination.WellTyped
import ArrayLang.Proofs.Syntax.Names

/-!
# Copy elimination keeps the interface

What copy elimination makes of a well-typed function can be called as the function was: it is well
typed, and has the same name, parameters and types. Only variables of its own are forgotten, and the
new body does not name them anywhere.

Which variables may be forgotten is decided on the accesses that the dataflow facts list. That the
facts list every occurrence is not taken for granted here: well-typed code names declared variables
only, so a variable that is still named somewhere cannot have been forgotten.

## Main results

- `Check.declares_of_checkBlock`: well-typed code names declared variables only.
- `TypedFn.eliminateCopies_interface`: the result is well typed and has the interface of the function.
-/

namespace ArrayLang

/-! ## The variables of an expression by its children -/

namespace Expr

theorem variablesAll_eq (es : List Expr) : variablesAll es = es.flatMap Expr.variables := by
  induction es with
  | nil => rfl
  | cons e es ih => rw [variablesAll, ih, List.flatMap_cons]

theorem variablesOption_eq (e? : Option Expr) :
    variablesOption e? = e?.toList.flatMap Expr.variables := by
  cases e? with
  | none => rfl
  | some e => rw [variablesOption, Option.toList_some, List.flatMap_singleton]

theorem variablesFields_eq (fields : List (String × Expr)) :
    variablesFields fields = (fields.map (·.2)).flatMap Expr.variables := by
  induction fields with
  | nil => rfl
  | cons field fields ih => rw [variablesFields, ih, List.map_cons, List.flatMap_cons]

/-- An expression that is neither a variable nor a function written in place names what its children
name. -/
theorem variables_eq_flatMap {node : Node} {ty? : Option Ty} (hvar : ∀ name, node ≠ .var name)
    (hlambda : ∀ decl, node ≠ .lambda decl) :
    Expr.variables ⟨node, ty?⟩ = node.children.flatMap Expr.variables := by
  cases node with
  | var name => exact absurd rfl (hvar name)
  | lambda decl => exact absurd rfl (hlambda decl)
  | _ =>
    simp [Expr.variables, Node.children, variablesAll_eq, variablesOption_eq, variablesFields_eq]

end Expr

/-! ## Declared variables -/

namespace Check

open Outcome

variable {env : TypeEnv} {result : Ty}

/-- Every one of the names has a declared type. -/
def Declares (env : TypeEnv) (names : List String) : Prop :=
  ∀ x ∈ names, ∃ ty, env.find? x = some ty

theorem declares_append {names names' : List String} :
    Declares env (names ++ names') ↔ Declares env names ∧ Declares env names' :=
  List.forall_mem_append

/-- A well-typed expression names declared variables only: it has no function written in place, which
could name others. -/
theorem declares_of_wellTyped (e : Expr) (h : e.WellTyped env) : Declares env e.variables := by
  have hchildren : ∀ c ∈ e.children, Declares env c.variables :=
    fun c hc => declares_of_wellTyped c (Expr.Forall.of_mem_children h hc)
  obtain ⟨node, ty?⟩ := e
  obtain ⟨ty, -, hnode⟩ := Expr.Forall.self h
  by_cases hvar : ∃ name, node = .var name
  · obtain ⟨name, rfl⟩ := hvar
    intro x hx
    rw [Expr.variables, List.mem_singleton] at hx
    exact hx ▸ ⟨ty, Expr.checkNode_var.1 hnode⟩
  · have hlambda : ∀ decl, node ≠ .lambda decl := by
      rintro decl rfl
      cases hnode
    intro x hx
    rw [Expr.variables_eq_flatMap (fun name heq => hvar ⟨name, heq⟩) hlambda] at hx
    obtain ⟨c, hc, hxc⟩ := List.mem_flatMap.1 hx
    exact hchildren c hc x hxc
termination_by sizeOf e
decreasing_by exact Expr.sizeOf_lt_of_mem_children hc

mutual
theorem declares_of_checkTarget : ∀ target : Expr, checkTarget env target = .ok () →
    Declares env target.variables
  | ⟨node, ty?⟩, h => by
    cases node with
    | var name =>
      rw [checkTarget, Expr.checkExpr_eq_ok] at h
      exact declares_of_wellTyped _ h
    | index base index =>
      rw [checkTarget, Expr.checkExpr_eq_ok] at h
      exact declares_of_wellTyped _ h
    | tuple items =>
      rw [checkTarget, then_eq_ok] at h
      rw [Expr.variables]
      exact declares_of_checkTargets items h.1
    | _ => cases h
termination_by target => sizeOf target

theorem declares_of_checkTargets : ∀ targets : List Expr, checkTargets env targets = .ok () →
    Declares env (Expr.variablesAll targets)
  | [], _ => fun _ hx => (List.not_mem_nil hx).elim
  | target :: targets, h => by
    rw [checkTargets, then_eq_ok] at h
    rw [Expr.variablesAll, declares_append]
    exact ⟨declares_of_checkTarget target h.1, declares_of_checkTargets targets h.2⟩
termination_by targets => sizeOf targets
end

theorem declares_of_checkPhis {merge : List Phi} (h : ∀ phi ∈ merge, checkPhi env phi = .ok ()) :
    Declares env (Phi.variablesAll merge) := by
  refine Phi.forall_variablesAll.2 fun phi hphi => ?_
  obtain ⟨ty, hname, hleft, hright, -⟩ := checkPhi_eq_ok.1 (h phi hphi)
  exact ⟨⟨ty, hname⟩, declares_of_wellTyped _ hleft, declares_of_wellTyped _ hright⟩

mutual
theorem declares_of_checkStmt : ∀ s : Stmt, checkStmt env result s = .ok () →
    Declares env s.variables
  | .assign target value, h => by
    rw [checkStmt, then_eq_ok, then_eq_ok, Expr.checkExpr_eq_ok] at h
    rw [Stmt.variables, declares_append]
    exact ⟨declares_of_checkTarget target h.1, declares_of_wellTyped value h.2.1⟩
  | .ret value, h => by
    rw [checkStmt, then_eq_ok, Expr.checkExpr_eq_ok] at h
    rw [Stmt.variables]
    exact declares_of_wellTyped value h.1
  | .branch cond onTrue onFalse merge, h => by
    rw [checkStmt, then_eq_ok, then_eq_ok, then_eq_ok, then_eq_ok, Expr.checkExpr_eq_ok,
      forM_eq_ok] at h
    obtain ⟨hcond, -, htrue, hfalse, hmerge⟩ := h
    rw [Stmt.variables, declares_append, declares_append, declares_append]
    exact ⟨⟨⟨declares_of_wellTyped cond hcond, declares_of_checkBlock onTrue htrue⟩,
      declares_of_checkBlock onFalse hfalse⟩, declares_of_checkPhis hmerge⟩
  | .loop cond body merge, h => by
    rw [checkStmt, then_eq_ok, then_eq_ok, then_eq_ok, Expr.checkExpr_eq_ok, forM_eq_ok] at h
    obtain ⟨hcond, -, hbody, hmerge⟩ := h
    rw [Stmt.variables, declares_append, declares_append]
    exact ⟨⟨declares_of_wellTyped cond hcond, declares_of_checkBlock body hbody⟩,
      declares_of_checkPhis hmerge⟩
termination_by structural s => s

/-- Well-typed code names declared variables only. -/
theorem declares_of_checkBlock : ∀ ss : Block, checkBlock env result ss = .ok () →
    Declares env (Stmt.variablesAll ss)
  | [], _ => fun _ hx => (List.not_mem_nil hx).elim
  | s :: ss, h => by
    rw [checkBlock, then_eq_ok] at h
    rw [Stmt.variablesAll, declares_append]
    exact ⟨declares_of_checkStmt s h.1, declares_of_checkBlock ss h.2⟩
termination_by structural ss => ss
end

/-- The parameters of a well-typed function are declared, like the variables its body names. -/
theorem declares_of_check {f : TypedFn} (h : f.check = .ok ()) :
    Declares f.typeEnv (f.argNames ++ Stmt.variablesAll f.body) := by
  unfold TypedFn.check at h
  rw [then_eq_ok, then_eq_ok, forM_eq_ok] at h
  obtain ⟨hcount, hparams, hbody⟩ := h
  refine declares_append.2 ⟨fun x hx => ?_, declares_of_checkBlock f.body hbody⟩
  have hnames : f.params.map (·.1) = f.argNames :=
    List.map_fst_zip (Nat.le_of_eq (require_eq_ok.1 hcount))
  obtain ⟨⟨name, ty⟩, hmem, rfl⟩ := List.mem_map.1 (hnames ▸ hx)
  exact ⟨ty, require_eq_ok.1 (hparams _ hmem)⟩

end Check

/-! ## The interface -/

/-- The second function has the interface of the first, and declares its variables at their types but
for some. -/
structure TypedFn.Narrows (f g : TypedFn) : Prop where
  name : g.name = f.name
  argNames : g.argNames = f.argNames
  inputTypes : g.inputTypes = f.inputTypes
  returnType : g.returnType = f.returnType
  typeEnv : ∃ removed : List String, g.typeEnv = removed.foldl NameMap.erase f.typeEnv

namespace TypedFn.Narrows

theorem refl (f : TypedFn) : f.Narrows f :=
  ⟨rfl, rfl, rfl, rfl, [], rfl⟩

theorem trans {f g h : TypedFn} (hfg : f.Narrows g) (hgh : g.Narrows h) : f.Narrows h := by
  obtain ⟨removed, hremoved⟩ := hfg.typeEnv
  obtain ⟨removed', hremoved'⟩ := hgh.typeEnv
  refine ⟨hgh.name.trans hfg.name, hgh.argNames.trans hfg.argNames,
    hgh.inputTypes.trans hfg.inputTypes, hgh.returnType.trans hfg.returnType,
    removed ++ removed', ?_⟩
  rw [List.foldl_append, ← hremoved, hremoved']

end TypedFn.Narrows

theorem NameMap.find?_foldl_erase {α : Type} (m : NameMap α) (removed : List String) {x : String}
    (hx : x ∈ removed) : (removed.foldl NameMap.erase m).find? x = none := by
  -- Later removals do not bring a name back.
  have hkept (names : List String) (m : NameMap α) (h : m.find? x = none) :
      (names.foldl NameMap.erase m).find? x = none := by
    induction names generalizing m with
    | nil => exact h
    | cons name names ih => exact ih _ (by rw [find?_erase, h, ite_self])
  induction removed generalizing m with
  | nil => exact (List.not_mem_nil hx).elim
  | cons name removed ih =>
    rcases List.mem_cons.1 hx with rfl | hx
    · exact hkept removed _ (by rw [find?_erase, if_pos rfl])
    · exact ih _ hx

namespace CopyElimination

variable {f g : TypedFn}

/-- A step changes the body, and forgets at most the variable whose allocation it retargets. -/
theorem applyStep?_narrows {step : CopyStep} (h : applyStep? f step = some g) : f.Narrows g := by
  cases step with
  | dropWrite copy =>
    obtain ⟨⟨s, body⟩, -, h⟩ := Option.bind_eq_some_iff.1 h
    cases h
    exact ⟨rfl, rfl, rfl, rfl, [], rfl⟩
  | retarget alloc copy =>
    obtain ⟨⟨s, rest⟩, -, h⟩ := Option.bind_eq_some_iff.1 h
    cases s with
    | assign slot value =>
      obtain ⟨t, -, h⟩ := Option.bind_eq_some_iff.1 h
      cases t with
      | assign src made =>
        obtain ⟨body, -, h⟩ := Option.bind_eq_some_iff.1 h
        cases h
        refine ⟨rfl, rfl, rfl, rfl, src.var?.toList, ?_⟩
        cases src.var? <;> rfl
      | _ => cases h
    | _ => cases h
  | viewSlot alloc copy =>
    obtain ⟨⟨s, rest⟩, -, h⟩ := Option.bind_eq_some_iff.1 h
    cases s with
    | assign slot value =>
      obtain ⟨body, -, h⟩ := Option.bind_eq_some_iff.1 h
      cases h
      exact ⟨rfl, rfl, rfl, rfl, [], rfl⟩
    | _ => cases h

theorem makeSteps_narrows (steps : Nat) (f : TypedFn) : f.Narrows (makeSteps steps f) := by
  induction steps generalizing f with
  | zero => exact .refl f
  | succ steps ih =>
    rw [makeSteps]
    cases hstep : step? f with
    | none => exact .refl f
    | some g =>
      obtain ⟨step, -, happly⟩ := Option.bind_eq_some_iff.1 hstep
      exact (applyStep?_narrows happly).trans (ih g)

end CopyElimination

theorem TypedFn.eliminateCopies_narrows (f : TypedFn) : f.Narrows f.eliminateCopies := by
  unfold eliminateCopies
  by_cases hscalar : f.allScalar = true
  · rw [if_pos hscalar]
    exact .refl f
  · rw [if_neg hscalar]
    exact CopyElimination.makeSteps_narrows _ f

/-- Copy elimination keeps a well-typed function well typed, and its name, parameters and types. What
it removes from the declared variables are some that are no parameters, and that the new body does not
name anywhere. -/
theorem TypedFn.eliminateCopies_interface {f : TypedFn} (hf : f.check = .ok ()) :
    f.eliminateCopies.check = .ok ()
      ∧ f.eliminateCopies.name = f.name
      ∧ f.eliminateCopies.argNames = f.argNames
      ∧ f.eliminateCopies.inputTypes = f.inputTypes
      ∧ f.eliminateCopies.returnType = f.returnType
      ∧ ∃ removed : List String,
        f.eliminateCopies.typeEnv = removed.foldl NameMap.erase f.typeEnv
          ∧ ∀ x ∈ removed, x ∉ f.argNames ∧ x ∉ Stmt.variablesAll f.eliminateCopies.body := by
  have hcheck := eliminateCopies_check hf
  have hnarrows := f.eliminateCopies_narrows
  obtain ⟨removed, hremoved⟩ := hnarrows.typeEnv
  refine ⟨hcheck, hnarrows.name, hnarrows.argNames, hnarrows.inputTypes, hnarrows.returnType,
    removed, hremoved, fun x hx => ?_⟩
  -- What was removed is not declared, but everything that is named is.
  have hnone : f.eliminateCopies.typeEnv.find? x = none :=
    hremoved ▸ NameMap.find?_foldl_erase f.typeEnv removed hx
  have hunnamed : x ∉ f.eliminateCopies.argNames ++ Stmt.variablesAll f.eliminateCopies.body := by
    intro hnamed
    obtain ⟨ty, hty⟩ := Check.declares_of_check hcheck x hnamed
    rw [hnone] at hty
    cases hty
  rw [hnarrows.argNames, List.mem_append, not_or] at hunnamed
  exact hunnamed

/-- `fn clearRow(d): t = alloc 2; d[1] = t; return d`, on a table of integers. -/
def TypedFn.clearRow : TypedFn where
  name := "clearRow"
  argNames := ["d"]
  inputTypes := [.array .int64 2]
  body :=
    let row := Ty.array .int64 1
    let table := Expr.typed (.var "d") (.array .int64 2)
    let int (n : Int64) := Expr.typed (.lit (.int n)) .int64
    [.assign (.typed (.var "t") row) (.typed (.alloc .int64 (int 2)) row),
      .assign (.typed (.index table (int 1)) row) (.typed (.var "t") row),
      .ret table]
  returnType := .array .int64 2
  typeEnv := .ofList [("d", .array .int64 2), ("t", .array .int64 1)]

theorem TypedFn.check_clearRow : clearRow.check = .ok () := by
  decide +kernel

/-- The new row is made in the place it is written to, and `t` is forgotten. -/
theorem TypedFn.eliminateCopies_interface_clearRow :
    clearRow.check = .ok ()
      ∧ clearRow.eliminateCopies.check = .ok ()
      ∧ clearRow.eliminateCopies.argNames = ["d"]
      ∧ clearRow.eliminateCopies.typeEnv.find? "t" = none
      ∧ ∃ removed : List String,
        clearRow.eliminateCopies.typeEnv = removed.foldl NameMap.erase clearRow.typeEnv
          ∧ ∀ x ∈ removed, x ∉ clearRow.argNames
            ∧ x ∉ Stmt.variablesAll clearRow.eliminateCopies.body := by
  obtain ⟨hcheck, -, hargs, -, -, hremoved⟩ := eliminateCopies_interface check_clearRow
  exact ⟨check_clearRow, hcheck, hargs, by decide +kernel, hremoved⟩

end ArrayLang
