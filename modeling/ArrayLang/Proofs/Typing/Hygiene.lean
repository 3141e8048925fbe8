import ArrayLang.Proofs.Typing.FreshVariables
import ArrayLang.Proofs.Typing.Inference
import Mathlib.Data.List.Nodup

/-!
# Hygiene of temporaries

Whatever lowering makes of a function, the variables that it makes are listed and it keeps to the list:
statement by statement, each new one is assigned the expression that it is made for, and nothing else binds
it. Its name holds a dot and ends in the number that it has on the list, so that it is no variable of the
source and no other variable on the list, whatever it is made from.

## Main results

- `Lower.lowerBlock_grows`: lowering statements adds to the list and keeps to it.
- `lowerFn_lists`: so does lowering a function, its parameters included.
- `temporaries_hygienic`: the variables that lowering makes are new, and are bound to one expression each.
-/

namespace ArrayLang

open Typing

namespace Lower

variable {α β : Type} {q : String → Prop} {start : TypeEnv} {made made' : List FreshVar}

/-! ## Expressions -/

variable {specialize : Specializer}

/-- A statement that writes to a part of a value binds nothing. -/
theorem bindsAs_index {base key value : Expr} {ty? : Option Ty} :
    (Stmt.assign ⟨.index base key, ty?⟩ value).Everywhere (Stmt.BindsAs q made) :=
  Stmt.everywhere_assign.2 (.inl fun _ h => (List.not_mem_nil h).elim)

theorem varType_grows (name : String) : Grows q start made (varType name) fun _ _ => True := by
  unfold varType
  refine Grows.get.bind fun made₁ st _ _ => ?_
  split
  · exact .pure trivial
  · exact .fail _

theorem coerceStart_grows (combine : Expr) (start? : Option Expr) :
    Grows q start made (coerceStart combine start?) fun _ _ => True := by
  cases start? with
  | none => exact .pure trivial
  | some first =>
    unfold coerceStart
    dsimp only
    split
    · refine (Grows.lift_any _).bind fun made₁ s _ _ => ?_
      split
      · exact .fail _
      · split
        · exact (Grows.lift_any _).bind fun made₂ e _ _ => .pure trivial
        · exact .fail _
    · exact (Grows.lift_any _).bind fun made₁ ty _ _ => .fail _

/-- A literal of arrays makes two variables: one for its first item, and one for the array. -/
theorem expandLiteral_grows (first : Expr) (rest : List Expr) (elt : ElemType) (rank : Nat) :
    Grows q start made (expandLiteral first rest elt rank) fun _ _ => True := by
  unfold expandLiteral
  refine (Grows.lift_any _).bind fun made₁ ty _ _ => ?_
  refine .declare fun firstVar made₂ => .declare fun result made₃ => ?_
  refine (Grows.forM fun p _ made₄ _ => ?_).bind fun made₅ _ _ _ => .pure trivial
  exact (Grows.lift_any _).bind fun made₅ value _ _ => .emit bindsAs_index

theorem mapM_lift_grows (f : α → Typing β) (l : List α) :
    Grows q start made (l.mapM fun a => (liftM (f a) : Lower β)) fun _ _ => True :=
  (Grows.mapM (R := fun _ _ _ => True) (fun _ _ _ _ _ _ => trivial) fun a _ _ => .lift_any (f a)).any

theorem convertNode_grows (e : Expr) (made : List FreshVar) :
    Grows q start made (convertNode e) fun _ _ => True := by
  unfold convertNode
  refine (Grows.lift_any _).bind fun made₁ ty _ _ => ?_
  split
  · refine (Grows.lift_any _).bind fun made₂ types _ _ => ?_
    refine (Grows.lift_any _).bind fun made₃ expected _ _ => ?_
    exact (mapM_lift_grows _ _).bind fun made₄ args _ _ => .pure trivial
  · split
    · exact (mapM_lift_grows _ _).bind fun made₂ items _ _ => .pure trivial
    · exact expandLiteral_grows _ _ _ _
    · exact .pure trivial
  · exact (coerceStart_grows _ _).bind fun made₂ start _ _ => .pure trivial
  · exact (coerceStart_grows _ _).bind fun made₂ start _ _ => .pure trivial
  · exact .pure trivial

theorem lowerExpr_grows (e : Expr) : Grows q start made (lowerExpr specialize e) fun _ _ => True := by
  unfold lowerExpr
  refine Grows.get.bind fun made₁ st _ _ => (Grows.lift_any _).bind fun made₂ typed _ _ => ?_
  exact Expr.rebuildM_closed (Grows.sequential q start) convertNode_grows typed made₂

/-- A selection that is lowered is still a selection. -/
theorem lowerExpr_index_grows {base key : Expr} {ty? : Option Ty} :
    Grows q start made (lowerExpr specialize ⟨.index base key, ty?⟩)
      fun _ e => ∃ base key ty?, e = ⟨.index base key, ty?⟩ := by
  have hannotate (env : TypeEnv) : Meets anySession (annotate specialize env ⟨.index base key, ty?⟩)
      fun e => ∃ base key ty?, e = ⟨.index base key, ty?⟩ := by
    rw [annotate]
    refine (Meets.any _).bind fun base _ => (Meets.any _).bind fun key _ => ?_
    refine (Meets.any _).bind fun baseTy _ => (Meets.any _).bind fun keyTy _ => ?_
    exact (Meets.any _).bind fun ty _ => .pure ⟨base, key, some ty, rfl⟩
  unfold lowerExpr
  refine Grows.get.bind fun made₁ st _ _ => (Grows.lift (hannotate st.env)).bind fun made₂ e _ he => ?_
  obtain ⟨base, key, ty?, rfl⟩ := he
  have hrebuild (e : Expr) (made : List FreshVar) :
      Grows q start made (e.rebuildM convertNode) fun _ _ => True :=
    Expr.rebuildM_closed (Grows.sequential q start) convertNode_grows e made
  rw [Expr.rebuildM]
  refine (hrebuild base made₂).bind fun made₃ base _ _ => (hrebuild key made₃).bind fun made₄ key _ _ => ?_
  unfold convertNode
  exact (Grows.lift_any _).bind fun made₅ ty _ _ => .pure ⟨base, key, ty?, rfl⟩

/-! ## Assignments -/

mutual
theorem targetType_grows {made : List FreshVar} {node : Node} {ty? : Option Ty} :
    Grows q start made (targetType ⟨node, ty?⟩) fun _ _ => True := by
  cases node with
  | var name => exact varType_grows name
  | tuple items =>
    rw [targetType]
    exact (targetTypes_grows items).bind fun made₁ types _ _ => .pure trivial
  | _ => exact .fail _
termination_by sizeOf node

theorem targetTypes_grows : ∀ (targets : List Expr) {made : List FreshVar},
    Grows q start made (targetTypes targets) fun _ _ => True
  | [], _ => .pure trivial
  | ⟨node, ty?⟩ :: targets, made => by
    rw [targetTypes]
    refine targetType_grows.bind fun made₁ ty _ _ => ?_
    exact (targetTypes_grows targets).bind fun made₂ types _ _ => .pure trivial
termination_by targets => sizeOf targets
end

mutual
/-- A target with types binds variables of the target only. -/
theorem typedTarget_grows {made : List FreshVar} {node : Node} {ty? : Option Ty}
    (h : ∀ name ∈ Expr.variables ⟨node, ty?⟩, q name) :
    Grows q start made (typedTarget ⟨node, ty?⟩) fun _ e => ∀ name ∈ e.targetVars, q name := by
  cases node with
  | var name =>
    rw [typedTarget]
    exact (varType_grows name).bind fun made₁ ty _ _ => .pure h
  | tuple items =>
    rw [typedTarget]
    refine (typedTargets_grows items h).bind fun made₁ es _ hes => ?_
    exact (Grows.lift_any _).bind fun made₂ types _ _ => .pure hes
  | _ => exact .fail _
termination_by sizeOf node

theorem typedTargets_grows : ∀ (targets : List Expr) {made : List FreshVar},
    (∀ name ∈ Expr.variablesAll targets, q name) →
      Grows q start made (typedTargets targets) fun _ es => ∀ name ∈ Expr.targetVarsList es, q name
  | [], _, _ => .pure fun _ h => (List.not_mem_nil h).elim
  | ⟨node, ty?⟩ :: targets, made, h => by
    rw [Expr.variablesAll, List.forall_mem_append] at h
    rw [typedTargets]
    refine (typedTarget_grows h.1).bind fun made₁ e _ he => ?_
    refine (typedTargets_grows targets h.2).bind fun made₂ es _ hes => .pure ?_
    exact List.forall_mem_append.2 ⟨he, hes⟩
termination_by targets => sizeOf targets
end

mutual
theorem lowerAssign_grows {made : List FreshVar} {node : Node} {ty? : Option Ty}
    (h : ∀ name ∈ Expr.variables ⟨node, ty?⟩, q name) (value : Expr) :
    Grows q start made (lowerAssign specialize ⟨node, ty?⟩ value) fun _ _ => True := by
  cases node with
  | index base key =>
    rw [lowerAssign]
    refine lowerExpr_index_grows.bind fun made₁ target _ htarget => ?_
    obtain ⟨base, key, ty?, rfl⟩ := htarget
    refine (Grows.lift_any _).bind fun made₂ slot _ _ => ?_
    exact (Grows.lift_any _).bind fun made₃ value _ _ => .emit bindsAs_index
  | tuple items =>
    rw [lowerAssign]
    refine targetType_grows.bind fun made₁ target _ _ => (Grows.lift_any _).bind fun made₂ found _ _ => ?_
    refine .ite (fun _ => ?_) fun _ => ?_
    · refine (Grows.lift_any _).bind fun made₃ value _ _ => ?_
      refine (typedTarget_grows h).bind fun made₄ target _ htarget => ?_
      exact .emit (Stmt.everywhere_assign.2 (.inl htarget))
    · cases found with
      | tuple types =>
        refine .ite (fun _ => .fail _) fun _ => ?_
        exact .declare fun temp made₃ => lowerComponents_grows items h temp.expr 0 types
      | _ => exact .fail _
  | var name =>
    rw [lowerAssign]
    refine (varType_grows name).bind fun made₁ target _ _ => ?_
    refine (Grows.lift_any _).bind fun made₂ value _ _ => ?_
    exact .emit (Stmt.everywhere_assign.2 (.inl h))
  | _ => exact .fail _
termination_by sizeOf node

theorem lowerComponents_grows : ∀ (targets : List Expr) {made : List FreshVar},
    (∀ name ∈ Expr.variablesAll targets, q name) → ∀ (temp : Expr) (i : Nat) (types : List Ty),
      Grows q start made (lowerComponents specialize temp i targets types) fun _ _ => True
  | ⟨node, ty?⟩ :: targets, made, h, temp, i, ty :: types => by
    rw [Expr.variablesAll, List.forall_mem_append] at h
    rw [lowerComponents]
    refine (lowerAssign_grows h.1 _).bind fun made₁ _ _ _ => ?_
    exact lowerComponents_grows targets h.2 temp (i + 1) types
  | [], _, _, _, _, _ => .pure trivial
  | _ :: _, _, _, _, _, [] => .pure trivial
termination_by targets => sizeOf targets
end

/-! ## Statements -/

theorem lowerSide_grows (name : String) (value : Expr) :
    Grows q start made (lowerSide specialize name value) fun _ _ => True := by
  unfold lowerSide
  refine (varType_grows name).bind fun made₁ target _ _ => ?_
  exact (lowerExpr_grows value).bind fun made₂ value _ _ => .lift_any _

theorem lowerCond_grows (cond : Expr) :
    Grows q start made (lowerCond specialize cond) fun _ _ => True := by
  unfold lowerCond
  exact (lowerExpr_grows cond).bind fun made₁ cond _ _ => .lift_any _

theorem lowerSides_grows (side : Phi → Expr) (merge : List Phi) :
    Grows q start made (merge.mapM fun phi => lowerSide specialize phi.name (side phi))
      fun _ es => es.length = merge.length :=
  (Grows.mapM (R := fun _ _ _ => True) (fun _ _ _ _ _ _ => trivial)
    fun phi _ _ => lowerSide_grows phi.name (side phi)).mono fun _ _ _ h => h.length_eq.symm

theorem keepsTo_nil : Block.KeepsTo q made [] :=
  Block.everywhere_nil

variable (specialize) in
mutual
/-- Lowering a statement adds to the list of new variables and keeps to it. -/
theorem lowerStmt_grows (result : Ty) : ∀ (s : Stmt) {made : List FreshVar},
    (∀ name ∈ s.variables, q name) →
      Grows q start made (lowerStmt specialize result s) fun _ _ => True
  | .assign ⟨node, ty?⟩ value, made, h => by
    rw [Stmt.variables, List.forall_mem_append] at h
    rw [lowerStmt]
    exact (lowerExpr_grows value).bind fun made₁ value _ _ => lowerAssign_grows h.1 value
  | .ret value, made, h => by
    rw [lowerStmt]
    refine (lowerExpr_grows value).bind fun made₁ value _ _ => (Grows.lift_any _).bind fun made₂ e _ _ => ?_
    exact .emit (Stmt.everywhere_ret.2 (.inl fun _ h => (List.not_mem_nil h).elim))
  | .branch cond onTrue onFalse merge, made, h => by
    simp only [Stmt.variables, List.forall_mem_append] at h
    obtain ⟨⟨⟨-, htrue⟩, hfalse⟩, hmerge⟩ := h
    rw [Phi.forall_variablesAll] at hmerge
    rw [lowerStmt]
    refine (lowerCond_grows cond).bind fun made₁ cond _ _ => ?_
    refine ((lowerBlock_grows result onTrue htrue).collectAfter keepsTo_nil).bind fun made₂ r _ ht => ?_
    refine ((lowerBlock_grows result onFalse hfalse).collectAfter keepsTo_nil).bind
      fun made₃ r' hmade₃ hf => ?_
    -- Each side of a reconciled variable is set up at the end of its block, which may make variables.
    refine (Grows.foldlM (Q := fun made (phis, onTrue, onFalse) => (∀ phi ∈ phis, q phi.name)
      ∧ onTrue.KeepsTo q made ∧ onFalse.KeepsTo q made) ?_ ?_).bind fun made₄ r'' _ hr => ?_
    · rintro ⟨phis, onTrue, onFalse⟩ phi hphi made ⟨hphis, ht, hf⟩
      refine ((lowerSide_grows phi.name phi.left).collectAfter ht).bind fun made₁ r hmade₁ hl => ?_
      refine ((lowerSide_grows phi.name phi.right).collectAfter (hf.grow hmade₁)).bind
        fun made₂ r' hmade₂ hr => .pure ⟨?_, hl.2.grow hmade₂, hr.2⟩
      refine List.forall_mem_append.2 ⟨hphis, List.forall_mem_singleton.2 ?_⟩
      exact (hmerge phi hphi).1
    · exact ⟨fun _ h => (List.not_mem_nil h).elim, ht.2.grow hmade₃, hf.2⟩
    · obtain ⟨hphis, ht, hf⟩ := hr
      exact .emit (Stmt.everywhere_branch.2 ⟨.inl (List.forall_mem_map.2 hphis), ht, hf⟩)
  | .loop cond body merge, made, h => by
    simp only [Stmt.variables, List.forall_mem_append] at h
    obtain ⟨⟨-, hbody⟩, hmerge⟩ := h
    rw [Phi.forall_variablesAll] at hmerge
    rw [lowerStmt]
    refine (lowerSides_grows Phi.left merge).bind fun made₁ lefts _ hlefts => ?_
    refine ((lowerCond_grows cond).collectAfter keepsTo_nil).bind fun made₂ r _ hsetup => ?_
    -- What sets the temporaries of the condition is emitted twice, here and at the end of the body.
    refine (Grows.emitAll hsetup.2).bind fun made₃ _ hmade₃ _ => ?_
    refine ((lowerBlock_grows result body hbody).collectAfter keepsTo_nil).bind
      fun made₄ r' hmade₄ hbody => ?_
    refine ((lowerSides_grows Phi.right merge).collectAfter hbody.2).bind
      fun made₅ r'' hmade₅ hright => ?_
    have hsetup₅ := hsetup.2.grow ((hmade₃.trans hmade₄).trans hmade₅)
    refine .emit (Stmt.everywhere_loop.2 ⟨.inl ?_, Block.everywhere_append.2 ⟨hright.2, hsetup₅⟩⟩)
    rw [Stmt.binds, names_zipWith_sides hlefts hright.1]
    exact List.forall_mem_map.2 fun phi hphi => (hmerge phi hphi).1
termination_by structural s => s

theorem lowerBlock_grows (result : Ty) : ∀ (ss : List Stmt) {made : List FreshVar},
    (∀ name ∈ Stmt.variablesAll ss, q name) →
      Grows q start made (lowerBlock specialize result ss) fun _ _ => True
  | [], _, _ => .pure trivial
  | s :: ss, made, h => by
    rw [Stmt.variablesAll, List.forall_mem_append] at h
    rw [lowerBlock]
    exact (lowerStmt_grows result s h.1).bind fun made₁ _ _ _ => lowerBlock_grows result ss h.2
termination_by structural ss => ss
end

/-! ## Functions -/

/-- A parameter comes in under its own name or under a new one that is made for its type. -/
def ComesIn (made : List FreshVar) (param : String × Ty) (arg : String) : Prop :=
  arg = param.1 ∨ ∃ v ∈ made, v.base = param.1 ++ ".in" ∧ v.ty = param.2 ∧ v.origin? = none
    ∧ v.name = arg

theorem ComesIn.grow {param : String × Ty} {arg : String} (h : ComesIn made param arg)
    (hmade : made <+: made') : ComesIn made' param arg := by
  refine h.imp_right ?_
  rintro ⟨v, hv, h⟩
  exact ⟨v, hmade.subset hv, h⟩

theorem lowerParam_grows {name : String} (hname : q name) (ty : Ty) :
    Grows q start made (lowerParam name ty) fun made' arg => ComesIn made' (name, ty) arg := by
  unfold lowerParam
  refine Grows.get.bind fun made₁ st _ _ => .ite (fun _ => .pure (.inl rfl)) fun _ => ?_
  refine (Grows.temp _ ty none).bind fun made₂ incoming _ hincoming => ?_
  obtain ⟨v, hv, hbase, hty, horigin, rfl⟩ := hincoming
  refine (Grows.lift_any _).bind fun made₃ value hmade₃ _ => ?_
  refine (Grows.emit (Stmt.everywhere_assign.2 (.inl ?_))).bind fun made₄ _ hmade₄ _ => ?_
  · exact List.forall_mem_singleton.2 hname
  · exact .pure (.inr ⟨v, (hmade₃.trans hmade₄).subset hv, hbase, hty, horigin, rfl⟩)

end Lower

/-- What a lowered function has in common with the list of the variables that lowering made for it. -/
structure Lowered.Lists (q : String → Prop) (env : TypeEnv) (params : List (String × Ty))
    (made : List FreshVar) (lowered : Lowered) : Prop where
  names : made.map (·.name) = NameSupply.freshAll {} (made.map (·.base))
  typeEnv : lowered.typeEnv = env.insertAll (made.map FreshVar.entry)
  argNames : List.Forall₂ (Lower.ComesIn made) params lowered.argNames
  body : lowered.body.KeepsTo q made

/-- A function that is lowered has such a list. -/
theorem lowerFn_lists (specialize : Specializer) {func : FnDecl} {params : List (String × Ty)}
    (inference : Inference) (hfunc : func.Names q) (hparams : ∀ p ∈ params, q p.1) :
    Meets anySession (lowerFn specialize func params inference) fun lowered =>
      ∃ made, lowered.Lists q inference.env params made := by
  have hstart : LowerState.Lists q inference.env [] ⟨inference.env, {}, []⟩ :=
    ⟨rfl, rfl, rfl, Block.everywhere_nil⟩
  have hwalk : Lower.Grows q inference.env [] (do
      let argNames ← params.mapM fun p => Lower.lowerParam p.1 p.2
      Lower.lowerBlock specialize inference.returnType func.body
      return argNames) fun made argNames => List.Forall₂ (Lower.ComesIn made) params argNames := by
    refine (Lower.Grows.mapM (fun _ _ _ _ hmade h => h.grow hmade)
      fun p hp made => Lower.lowerParam_grows (hparams p hp) p.2).bind fun made₁ argNames _ hargs => ?_
    refine (Lower.lowerBlock_grows specialize inference.returnType func.body hfunc.body).bind
      fun made₂ _ hmade₂ _ => .pure ?_
    exact hargs.imp fun _ _ h => h.grow hmade₂
  unfold lowerFn
  refine (hwalk _ hstart).bind fun r ⟨made, _, hst, hargs⟩ => .pure ⟨made, ?_⟩
  exact ⟨hst.names, hst.env, hargs, hst.emitted⟩

/-! ## Hygiene -/

/-- Names from a supply are no names of source code. -/
theorem not_mem_variables_of_mem_freshAll {func : FnDecl} (hfunc : func.Names Dotless)
    {bases : List String} {name : String} (h : name ∈ NameSupply.freshAll {} bases) :
    name ∉ func.variables :=
  fun hmem => NameSupply.not_dotless_of_mem_freshAll h (hfunc name hmem)

/-- Entering names from a supply replaces no type that inference has found. -/
theorem insertsNew_of_fresh {specialize : Specializer} {func : FnDecl}
    {params : List (String × Ty)} {inference : Inference} {s t : Session}
    (hfunc : func.Names Dotless) (hparams : ∀ p ∈ params, p.1 ∈ func.variables)
    (hinfer : exec (inferFn specialize func params) s = (.ok inference, t)) {bases : List String}
    {entries : List (String × Ty)} (h : entries.map (·.1) = NameSupply.freshAll {} bases) :
    inference.env.InsertsNew entries := by
  refine NameMap.insertsNew (h ▸ NameSupply.nodup_freshAll bases {}) fun name hname => ?_
  rw [h] at hname
  cases hfind : inference.env.find? name with
  | none => rfl
  | some ty =>
    have hmem := mem_variables_of_inferFn hparams hinfer hfind
    exact absurd hmem (not_mem_variables_of_mem_freshAll hfunc hname)

/-- A variable on the list is bound by the statements that assign the expression it was made for. -/
theorem Lowered.Lists.eq_of_mem_binds {q : String → Prop} {env : TypeEnv}
    {params : List (String × Ty)} {made : List FreshVar} {lowered : Lowered}
    (h : lowered.Lists q env params made) (hnodup : (made.map (·.name)).Nodup) {v : FreshVar}
    (hv : v ∈ made) (hfresh : ¬q v.name) {path : Path} {s : Stmt}
    (hat : lowered.body.stmtAt? path = some s) (hbinds : v.name ∈ s.binds) :
    ∃ e, v.origin? = some e ∧ s = .assign v.expr e := by
  rcases h.body path s hat with hsource | ⟨w, hw, e, horigin, rfl⟩
  · exact absurd (hsource v.name hbinds) hfresh
  · have hname : v.name = w.name := List.mem_singleton.1 hbinds
    obtain rfl : v = w := List.inj_on_of_nodup_map hnodup hv hw hname
    exact ⟨e, horigin, rfl⟩

/-- The variables that lowering makes are hygienic, whatever the session. Names from a supply, made from any
bases, differ from each other and from the variables of a function whose variables hold no dot, and
entering them beside the inferred types replaces no entry. A function that is lowered has made such
variables: they are the only new entries, the parameters that are renamed are among them, and each of them
is bound as a whole by assignments of the one expression it was made for only. -/
theorem temporaries_hygienic (specialize : Specializer) {func : FnDecl}
    {params : List (String × Ty)} {inference : Inference} {s t : Session}
    (hfunc : func.Names Dotless)
    (hparams : ∀ p ∈ params, p.1 ∈ func.nonlocals ++ func.params.names)
    (hinfer : exec (inferFn specialize func params) s = (.ok inference, t)) :
    (∀ calls : List (String × Ty),
      let names := NameSupply.freshAll {} (calls.map (·.1))
      names.Nodup ∧ (∀ name ∈ names, name ∉ func.variables)
        ∧ inference.env.InsertsNew (names.zip (calls.map (·.2))))
      ∧ ∀ s' t' lowered, exec (lowerFn specialize func params inference) s' = (.ok lowered, t') →
        ∃ made : List FreshVar,
          made.map (·.name) = NameSupply.freshAll {} (made.map (·.base))
            ∧ (made.map (·.name)).Nodup ∧ (∀ v ∈ made, v.name ∉ func.variables)
            ∧ inference.env.InsertsNew (made.map FreshVar.entry)
            ∧ lowered.typeEnv = inference.env.insertAll (made.map FreshVar.entry)
            ∧ (∀ name ty, inference.env.find? name = some ty → lowered.typeEnv.find? name = some ty)
            ∧ (∀ v ∈ made, lowered.typeEnv.find? v.name = some v.ty)
            ∧ List.Forall₂ (Lower.ComesIn made) params lowered.argNames
            ∧ ∀ v ∈ made, ∀ path stmt, lowered.body.stmtAt? path = some stmt → v.name ∈ stmt.binds →
              ∃ e, v.origin? = some e ∧ stmt = .assign v.expr e := by
  have hvariables : ∀ p ∈ params, p.1 ∈ func.variables :=
    fun p hp => FnDecl.Names.bound (fun _ h => h) p.1 (hparams p hp)
  refine ⟨fun calls => ⟨NameSupply.nodup_freshAll _ _, fun name hname =>
    not_mem_variables_of_mem_freshAll hfunc hname, ?_⟩, fun s' t' lowered hlower => ?_⟩
  · refine insertsNew_of_fresh hfunc hvariables hinfer (List.map_fst_zip ?_)
    exact Nat.le_of_eq (by rw [NameSupply.length_freshAll, List.length_map, List.length_map])
  · obtain ⟨made, hmade⟩ := ((lowerFn_lists (q := (· ∈ func.variables)) specialize inference
      (fun _ h => h) hvariables s' trivial).2 lowered (congrArg Prod.fst hlower))
    have hnodup : (made.map (·.name)).Nodup := hmade.names ▸ NameSupply.nodup_freshAll _ _
    have hfresh : ∀ v ∈ made, v.name ∉ func.variables := fun v hv =>
      not_mem_variables_of_mem_freshAll hfunc (hmade.names ▸ List.mem_map_of_mem hv)
    have hentries : (made.map FreshVar.entry).map (·.1) = NameSupply.freshAll {} (made.map (·.base)) := by
      rw [List.map_map, ← hmade.names]
      rfl
    have hnew := insertsNew_of_fresh hfunc hvariables hinfer hentries
    refine ⟨made, hmade.names, hnodup, hfresh, hnew, hmade.typeEnv, fun name ty hfind => ?_,
      fun v hv => ?_, hmade.argNames, fun v hv path stmt hat hbinds => ?_⟩
    · rw [hmade.typeEnv]
      exact hnew.find?_of_find? hfind
    · rw [hmade.typeEnv]
      exact hnew.find?_of_mem (List.mem_map_of_mem hv)
    · exact hmade.eq_of_mem_binds hnodup hv (hfresh v hv) hat hbinds

/-- `(x, y) = t; x = 7; while [[i], [x]][(0, 0)] < 3 { }; return i`, where each pass of the loop adds 1 to
`i`. -/
def climb : FnDecl where
  name := "climb"
  params := ⟨["i", "t"], [], none⟩
  nonlocals := []
  body := [
    .assign (.plain (.tuple [.plain (.var "x"), .plain (.var "y")])) (.plain (.var "t")),
    .assign (.plain (.var "x")) (.plain (.lit (.int 7))),
    .loop (.plain (.op .less [.plain (.index
        (.plain (.array [.plain (.array [.plain (.var "i")]), .plain (.array [.plain (.var "x")])]))
        (.plain (.tuple [.plain (.lit (.int 0)), .plain (.lit (.int 0))]))), .plain (.lit (.int 3))])) []
      [⟨"i", .plain (.var "i"), .plain (.op .add [.plain (.var "i"), .plain (.lit (.int 1))])⟩],
    .ret (.plain (.var "i"))]

/-- For a truth value and a pair of a truth value and an integer, `climb` is lowered with a new name for
its first parameter and with three temporaries, two of which are set in two places. -/
theorem temporaries_hygienic_climb :
    let params : List (String × Ty) :=
      [("i", .scalar .bool), ("t", .tuple [.scalar .bool, .scalar .int64])]
    let noCalls : Specializer := fun _ _ => throw .outOfFuel
    let inference : Inference := ⟨.ofList [("i", .scalar .int64),
      ("t", .tuple [.scalar .bool, .scalar .int64]), ("x", .scalar .int64), ("y", .scalar .int64)],
      .scalar .int64⟩
    climb.Names Dotless ∧ (exec (inferFn noCalls climb params) (.new none)).1 = .ok inference
      ∧ ∃ lowered, (exec (lowerFn noCalls climb params inference) (.new none)).1 = .ok lowered
        ∧ lowered.argNames = ["i.in.0", "t"]
        ∧ lowered.typeEnv.names
          = ["array.3", "array.first.2", "i", "i.in.0", "t", "unpack.1", "x", "y"]
        ∧ (lowered.body.stmtAt? [5]).map Stmt.binds = some ["array.first.2"]
        ∧ (lowered.body.stmtAt? [9, 2, 0]).map Stmt.binds = some ["array.first.2"]
        ∧ ∃ made : List FreshVar, lowered.typeEnv = inference.env.insertAll (made.map FreshVar.entry)
          ∧ inference.env.InsertsNew (made.map FreshVar.entry)
          ∧ ∀ v ∈ made, ∀ path stmt, lowered.body.stmtAt? path = some stmt → v.name ∈ stmt.binds →
            ∃ e, v.origin? = some e ∧ stmt = .assign v.expr e := by
  intro params noCalls inference
  have hnames : climb.Names Dotless := by
    unfold FnDecl.Names
    decide +kernel
  have hparams : ∀ p ∈ params, p.1 ∈ climb.nonlocals ++ climb.params.names := by decide
  have hinfer : (exec (inferFn noCalls climb params) (.new none)).1 = .ok inference := rfl
  have hview : ((exec (lowerFn noCalls climb params inference) (.new none)).1.toOption.map fun lowered =>
      (lowered.argNames, lowered.typeEnv.names, (lowered.body.stmtAt? [5]).map Stmt.binds,
        (lowered.body.stmtAt? [9, 2, 0]).map Stmt.binds))
      = some (["i.in.0", "t"], ["array.3", "array.first.2", "i", "i.in.0", "t", "unpack.1", "x", "y"],
        some ["array.first.2"], some ["array.first.2"]) := by decide +kernel
  obtain ⟨-, hrewrite⟩ := temporaries_hygienic noCalls hnames hparams (Prod.ext hinfer rfl)
  cases hlower : exec (lowerFn noCalls climb params inference) (.new none) with
  | mk r t =>
    rw [hlower] at hview
    cases r with
    | error e => cases hview
    | ok lowered =>
      obtain ⟨made, -, -, -, hnew, hentries, -, -, -, hbinds⟩ := hrewrite _ t lowered hlower
      simp only [Except.toOption, Option.map_some, Option.some.injEq, Prod.mk.injEq] at hview
      obtain ⟨hargs, htypes, hbefore, hagain⟩ := hview
      exact ⟨hnames, hinfer, lowered, rfl, hargs, htypes, hbefore, hagain, made, hentries, hnew, hbinds⟩

end ArrayLang
