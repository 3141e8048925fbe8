import ArrayLang.Proofs.Syntax.Rebuild
import ArrayLang.Proofs.Typing.Congruence
import ArrayLang.Typing.Specialization

/-!
# Lowering with related specializers

Conversions, rebuilt expressions and lowered statements keep every congruence, and so does building a
specialization.

## Main results

- `lowerFn_congr`, `buildTypedFn_congr`: lowering a function and building its specialization keep every
  congruence.
-/

namespace ArrayLang

open Typing

variable {R : {α : Type} → Typing α → Typing α → Prop} {specialize specialize' : Specializer}

/-! ## Conversions -/

section
variable (hR : Congruence R)
include hR

theorem coerceScalar_congr (e : Expr) (ty target : Ty) :
    R (coerceScalar e ty target) (coerceScalar e ty target) := by
  unfold coerceScalar
  split
  · exact hR.pure _
  · exact hR.fail _

/-- An expression of the type that is asked for is left alone, and a scalar is cast. -/
theorem coerce_leaf_congr (e : Expr) (ty target : Ty) :
    R (if ty = target then return e else coerceScalar e ty target)
      (if ty = target then return e else coerceScalar e ty target) :=
  CoreCongruence.ite (hR.pure _) (coerceScalar_congr hR e ty target)

mutual
theorem coerce_node_congr {node : Node} {ty? : Option Ty} (target : Ty) :
    R (coerce ⟨node, ty?⟩ target) (coerce ⟨node, ty?⟩ target) := by
  cases ty? with
  | none =>
    rw [coerce]
    exact hR.untyped
  | some ty =>
    cases node with
    | tuple items =>
      cases target with
      | tuple targets =>
        rw [coerce]
        refine CoreCongruence.ite (hR.pure _) (CoreCongruence.ite ?_ ?_)
        · exact hR.bind (hR.typesOf items) fun types => hR.fail _
        · exact hR.bind (coerceAll_congr items targets) fun items => hR.pure _
      | _ => exact coerce_leaf_congr hR _ ty _
    | _ => exact coerce_leaf_congr hR _ ty target
termination_by sizeOf node

theorem coerceAll_congr : ∀ (es : List Expr) (targets : List Ty),
    R (coerceAll es targets) (coerceAll es targets)
  | ⟨node, ty?⟩ :: es, target :: targets => by
    rw [coerceAll]
    refine hR.bind (coerce_node_congr target) fun e => ?_
    exact hR.bind (coerceAll_congr es targets) fun es => hR.pure _
  | [], _ => hR.pure _
  | _ :: _, [] => hR.pure _
termination_by es => sizeOf es
end

theorem coerce_congr (e : Expr) (target : Ty) : R (coerce e target) (coerce e target) := by
  obtain ⟨node, ty?⟩ := e
  exact coerce_node_congr hR target

theorem coerceOperand_congr (value : Expr) (target : Ty) :
    R (coerceOperand value target) (coerceOperand value target) := by
  unfold coerceOperand
  refine hR.bind (hR.typeOf value) fun ty => ?_
  split
  · exact CoreCongruence.ite (hR.pure _) (coerce_congr hR _ _)
  · exact coerce_congr hR _ target

theorem coerceSlot_congr (value : Expr) (slot : Ty) :
    R (coerceSlot value slot) (coerceSlot value slot) := by
  unfold coerceSlot
  refine hR.bind (hR.typeOf value) fun ty => ?_
  split
  · exact coerce_congr hR _ _
  · exact CoreCongruence.ite (hR.pure _) (coerce_congr hR _ _)
  · exact coerce_congr hR _ slot

end

/-! ## Rebuilding expressions -/

namespace Expr

section
variable {σ : Type} (hR : Congruence R) {f : Expr → StateT σ Typing Expr}
  (hf : ∀ e, Along R (f e) (f e))
include hR hf

/-- Rebuilding keeps every congruence that the conversion of a node keeps. -/
theorem rebuildM_along (e : Expr) : Along R (e.rebuildM f) (e.rebuildM f) :=
  rebuildM_closed (K := fun x => Along R x x) ⟨Along.pure hR, Along.bind hR⟩ hf e

end
end Expr

/-! ## Lowering -/

namespace Lower

section
variable (hR : Congruence R)
include hR

theorem collectAfter_along {α : Type} {x y : Lower α} (before : Block) (hxy : Along R x y) :
    Along R (collectAfter before x) (collectAfter before y) := by
  unfold collectAfter
  refine Along.bind hR (Along.get hR) fun outer => Along.bind hR (Along.modify hR _) fun _ => ?_
  refine Along.bind hR hxy fun a => Along.bind hR (Along.get hR) fun inner => ?_
  exact Along.bind hR (Along.modify hR _) fun _ => Along.pure hR _

theorem temp_along (base : String) (ty : Ty) : Along R (temp base ty) (temp base ty) := by
  unfold temp
  refine Along.bind hR (Along.get hR) fun st => ?_
  exact Along.bind hR (Along.modify hR _) fun _ => Along.pure hR _

theorem varType_along (name : String) : Along R (varType name) (varType name) := by
  unfold varType
  refine Along.bind hR (Along.get hR) fun st => ?_
  split
  · exact Along.pure hR _
  · exact Along.fail hR _

theorem coerceStart_along (combine : Expr) (start? : Option Expr) :
    Along R (coerceStart combine start?) (coerceStart combine start?) := by
  cases start? with
  | none => exact Along.pure hR _
  | some start =>
    unfold coerceStart
    dsimp only
    split
    · refine Along.bind hR (Along.lift hR hR.get) fun s => ?_
      split
      · exact Along.fail hR _
      · split
        · exact Along.bind hR (Along.lift hR (coerce_congr hR _ _)) fun e => Along.pure hR _
        · exact Along.fail hR _
    · exact Along.bind hR (Along.lift hR (hR.typeOf combine)) fun ty => Along.fail hR _

theorem expandLiteral_along (first : Expr) (rest : List Expr) (elt : ElemType) (rank : Nat) :
    Along R (expandLiteral first rest elt rank) (expandLiteral first rest elt rank) := by
  unfold expandLiteral
  refine Along.bind hR (Along.lift hR (hR.typeOf first)) fun ty => ?_
  refine Along.bind hR (temp_along hR _ ty) fun firstVar => ?_
  refine Along.bind hR (Along.modify hR _) fun _ => ?_
  refine Along.bind hR (temp_along hR _ _) fun result => ?_
  refine Along.bind hR (Along.modify hR _) fun _ => ?_
  refine Along.bind hR (Along.forM hR (fun p => ?_) _) fun _ => Along.pure hR _
  refine Along.bind hR (Along.lift hR (coerceSlot_congr hR p.1 _)) fun value => ?_
  exact Along.modify hR _

theorem convertNode_along (e : Expr) : Along R (convertNode e) (convertNode e) := by
  unfold convertNode
  refine Along.bind hR (Along.lift hR (hR.typeOf e)) fun ty => ?_
  split
  · refine Along.bind hR (Along.lift hR (hR.typesOf _)) fun types => ?_
    refine Along.bind hR (Along.lift hR (hR.check _)) fun expected => ?_
    refine Along.bind hR (Along.mapM hR (fun p => ?_) _) fun args => Along.pure hR _
    exact Along.lift hR (coerceOperand_congr hR p.1 p.2)
  · split
    · refine Along.bind hR (Along.mapM hR (fun e => ?_) _) fun items => Along.pure hR _
      exact Along.lift hR (coerce_congr hR _ _)
    · exact expandLiteral_along hR _ _ _ _
    · exact Along.pure hR _
  · exact Along.bind hR (coerceStart_along hR _ _) fun start => Along.pure hR _
  · exact Along.bind hR (coerceStart_along hR _ _) fun start => Along.pure hR _
  · exact Along.pure hR _

/-! ### Targets -/

mutual
theorem targetType_along {node : Node} {ty? : Option Ty} :
    Along R (targetType ⟨node, ty?⟩) (targetType ⟨node, ty?⟩) := by
  cases node with
  | var name => exact varType_along hR name
  | tuple items =>
    rw [targetType]
    exact Along.bind hR (targetTypes_along items) fun types => Along.pure hR _
  | _ => exact Along.fail hR _
termination_by sizeOf node

theorem targetTypes_along : ∀ es : List Expr, Along R (targetTypes es) (targetTypes es)
  | [] => Along.pure hR _
  | ⟨node, ty?⟩ :: es => by
    rw [targetTypes]
    refine Along.bind hR targetType_along fun ty => ?_
    exact Along.bind hR (targetTypes_along es) fun types => Along.pure hR _
termination_by es => sizeOf es
end

mutual
theorem typedTarget_along {node : Node} {ty? : Option Ty} :
    Along R (typedTarget ⟨node, ty?⟩) (typedTarget ⟨node, ty?⟩) := by
  cases node with
  | var name =>
    rw [typedTarget]
    exact Along.bind hR (varType_along hR name) fun ty => Along.pure hR _
  | tuple items =>
    rw [typedTarget]
    refine Along.bind hR (typedTargets_along items) fun items => ?_
    exact Along.bind hR (Along.lift hR (hR.typesOf items)) fun types => Along.pure hR _
  | _ => exact Along.fail hR _
termination_by sizeOf node

theorem typedTargets_along : ∀ es : List Expr, Along R (typedTargets es) (typedTargets es)
  | [] => Along.pure hR _
  | ⟨node, ty?⟩ :: es => by
    rw [typedTargets]
    refine Along.bind hR typedTarget_along fun e => ?_
    exact Along.bind hR (typedTargets_along es) fun es => Along.pure hR _
termination_by es => sizeOf es
end

theorem lowerParam_along (name : String) (ty : Ty) :
    Along R (lowerParam name ty) (lowerParam name ty) := by
  unfold lowerParam
  refine Along.bind hR (Along.get hR) fun st => Along.ite (Along.pure hR _) ?_
  refine Along.bind hR (temp_along hR _ ty) fun incoming => ?_
  refine Along.bind hR (Along.lift hR (coerce_congr hR _ _)) fun value => ?_
  exact Along.bind hR (Along.modify hR _) fun _ => Along.pure hR _

end

/-! ### Statements -/

section
variable (hR : Congruence R) (hspec : specialize.Related R specialize')
include hR hspec

theorem lowerExpr_along (e : Expr) :
    Along R (lowerExpr specialize e) (lowerExpr specialize' e) := by
  unfold lowerExpr
  refine Along.bind hR (Along.get hR) fun st => ?_
  refine Along.bind hR (Along.lift hR (annotate_congr hR.lookups hspec e)) fun e => ?_
  exact Expr.rebuildM_along hR (convertNode_along hR) e

omit hspec in
mutual
theorem lowerAssign_along (hspec : specialize.Related R specialize')
    {node : Node} {ty? : Option Ty} (value : Expr) :
    Along R (lowerAssign specialize ⟨node, ty?⟩ value)
      (lowerAssign specialize' ⟨node, ty?⟩ value) := by
  cases node with
  | index base key =>
    rw [lowerAssign, lowerAssign]
    refine Along.bind hR (lowerExpr_along hR hspec _) fun target => ?_
    refine Along.bind hR (Along.lift hR (hR.typeOf target)) fun slot => ?_
    refine Along.bind hR (Along.lift hR (coerceSlot_congr hR value slot)) fun value => ?_
    exact Along.modify hR _
  | tuple items =>
    rw [lowerAssign, lowerAssign]
    refine Along.bind hR (targetType_along hR) fun target => ?_
    refine Along.bind hR (Along.lift hR (hR.typeOf value)) fun found => Along.ite ?_ ?_
    · refine Along.bind hR (Along.lift hR (coerce_congr hR _ target)) fun value => ?_
      exact Along.bind hR (typedTarget_along hR) fun target => Along.modify hR _
    · cases found with
      | tuple types =>
        refine Along.ite (Along.fail hR _) ?_
        refine Along.bind hR (temp_along hR _ _) fun temp => ?_
        refine Along.bind hR (Along.modify hR _) fun _ => ?_
        exact lowerComponents_along hspec items types temp 0
      | _ => exact Along.fail hR _
  | var name =>
    rw [lowerAssign, lowerAssign]
    refine Along.bind hR (varType_along hR name) fun target => ?_
    refine Along.bind hR (Along.lift hR (coerce_congr hR _ target)) fun value => ?_
    exact Along.modify hR _
  | _ => exact Along.fail hR _
termination_by sizeOf node

theorem lowerComponents_along (hspec : specialize.Related R specialize') :
    ∀ (targets : List Expr) (types : List Ty) (temp : Expr) (i : Nat),
      Along R (lowerComponents specialize temp i targets types)
      (lowerComponents specialize' temp i targets types)
  | ⟨node, ty?⟩ :: targets, ty :: types, temp, i => by
    rw [lowerComponents, lowerComponents]
    refine Along.bind hR (lowerAssign_along hspec _) fun _ => ?_
    exact lowerComponents_along hspec targets types temp (i + 1)
  | [], _, _, _ => Along.pure hR _
  | _ :: _, [], _, _ => Along.pure hR _
termination_by targets => sizeOf targets
end

theorem lowerSide_along (name : String) (value : Expr) :
    Along R (lowerSide specialize name value) (lowerSide specialize' name value) := by
  unfold lowerSide
  refine Along.bind hR (varType_along hR name) fun target => ?_
  refine Along.bind hR (lowerExpr_along hR hspec value) fun value => ?_
  exact Along.lift hR (coerce_congr hR _ target)

theorem lowerCond_along (cond : Expr) :
    Along R (lowerCond specialize cond) (lowerCond specialize' cond) := by
  unfold lowerCond
  refine Along.bind hR (lowerExpr_along hR hspec cond) fun cond => ?_
  exact Along.lift hR (coerce_congr hR _ _)

omit hspec in
mutual
theorem lowerStmt_along (hspec : specialize.Related R specialize') (returnType : Ty) :
    ∀ s : Stmt, Along R (lowerStmt specialize returnType s) (lowerStmt specialize' returnType s)
  | .assign ⟨node, ty?⟩ value => by
    rw [lowerStmt, lowerStmt]
    refine Along.bind hR (lowerExpr_along hR hspec value) fun value => ?_
    exact lowerAssign_along hR hspec value
  | .ret value => by
    rw [lowerStmt, lowerStmt]
    refine Along.bind hR (lowerExpr_along hR hspec value) fun value => ?_
    refine Along.bind hR (Along.lift hR (coerce_congr hR _ returnType)) fun value => ?_
    exact Along.modify hR _
  | .branch cond onTrue onFalse merge => by
    rw [lowerStmt, lowerStmt]
    refine Along.bind hR (lowerCond_along hR hspec cond) fun cond => ?_
    -- Each variable of the merge may add statements at the end of both branches.
    have htrue := collectAfter_along hR [] (lowerBlock_along hspec returnType onTrue)
    have hfalse := collectAfter_along hR [] (lowerBlock_along hspec returnType onFalse)
    refine Along.bind hR htrue fun r₁ => Along.bind hR hfalse fun r₂ => ?_
    refine Along.bind hR (Along.foldlM hR (fun r phi => ?_) merge _) fun r => Along.modify hR _
    obtain ⟨phis, onTrue, onFalse⟩ := r
    have hleft := collectAfter_along hR onTrue (lowerSide_along hR hspec phi.name phi.left)
    have hright := collectAfter_along hR onFalse (lowerSide_along hR hspec phi.name phi.right)
    exact Along.bind hR hleft fun l => Along.bind hR hright fun r => Along.pure hR _
  | .loop cond body merge => by
    rw [lowerStmt, lowerStmt]
    -- The merge is lowered before the loop and at the end of its body.
    have hside (side : Phi → Expr) (phi : Phi) :
        Along R (lowerSide specialize phi.name (side phi))
          (lowerSide specialize' phi.name (side phi)) :=
      lowerSide_along hR hspec phi.name (side phi)
    have hsides (side : Phi → Expr) := Along.mapM hR (hside side) merge
    refine Along.bind hR (hsides Phi.left) fun lefts => ?_
    refine Along.bind hR (collectAfter_along hR [] (lowerCond_along hR hspec cond)) fun c => ?_
    refine Along.bind hR (Along.modify hR _) fun _ => ?_
    refine Along.bind hR (collectAfter_along hR [] (lowerBlock_along hspec returnType body)) fun b => ?_
    refine Along.bind hR (collectAfter_along hR _ (hsides Phi.right)) fun r => ?_
    exact Along.modify hR _
termination_by structural s => s

theorem lowerBlock_along (hspec : specialize.Related R specialize') (returnType : Ty) :
    ∀ ss : Block, Along R (lowerBlock specialize returnType ss) (lowerBlock specialize' returnType ss)
  | [] => Along.pure hR _
  | s :: ss => by
    rw [lowerBlock, lowerBlock]
    exact Along.bind hR (lowerStmt_along hspec returnType s) fun _ =>
      lowerBlock_along hspec returnType ss
termination_by structural ss => ss
end

end
end Lower

/-! ## Functions -/

section
variable (hR : Congruence R) (hspec : specialize.Related R specialize')
include hR hspec

/-- Lowering a function keeps every congruence. -/
theorem lowerFn_congr (func : FnDecl) (params : List (String × Ty)) (inference : Inference) :
    R (lowerFn specialize func params inference) (lowerFn specialize' func params inference) := by
  unfold lowerFn
  have hwalk : Along R
      (do
        let argNames ← params.mapM fun p => Lower.lowerParam p.1 p.2
        Lower.lowerBlock specialize inference.returnType func.body
        return argNames : Lower (List String))
      (do
        let argNames ← params.mapM fun p => Lower.lowerParam p.1 p.2
        Lower.lowerBlock specialize' inference.returnType func.body
        return argNames : Lower (List String)) := by
    have hparam (p : String × Ty) : Along R (Lower.lowerParam p.1 p.2) (Lower.lowerParam p.1 p.2) :=
      Lower.lowerParam_along hR p.1 p.2
    have hparams := Along.mapM hR hparam params
    refine Along.bind hR hparams fun argNames => ?_
    refine Along.bind hR (Lower.lowerBlock_along hR hspec _ func.body) fun _ => ?_
    exact Along.pure hR _
  exact hR.bind (hwalk _) fun r => hR.pure _

/-- Building a specialization keeps every congruence. -/
theorem buildTypedFn_congr (func : FnDecl) (params : List (String × Ty)) :
    R (buildTypedFn specialize func params) (buildTypedFn specialize' func params) := by
  unfold buildTypedFn
  refine hR.bind (inferFn_congr hR hspec func params) fun inference => ?_
  exact hR.bind (lowerFn_congr hR hspec func params inference) fun lowered => hR.pure _

end
end ArrayLang
