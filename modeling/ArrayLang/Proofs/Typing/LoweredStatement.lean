import ArrayLang.Proofs.Typing.LoweredExpression

/-!
# What lowering statements gives

Every statement that lowering emits is well typed: assignments have one type on both sides, writes to
parts of arrays fit them, and conditions, reconciled variables and returned values have the types
that their contexts require.
-/

namespace ArrayLang

open Typing Check

variable {q : String → Prop} {I : Session → Prop} {result : Ty} {env : TypeEnv}
  {specialize : Specializer}

namespace Lower

/-! ## Expressions -/

theorem lowerExpr_meets (hI : SourceInvariant q I) (hspec : specialize.Keeps q I) {e : Expr}
    (he : ∀ name ∈ e.variables, q name) :
    Meets q I result env (lowerExpr specialize e) fun e env' => e.WellTyped env' := by
  unfold lowerExpr
  refine Meets.get.bind fun st env₁ hst => ?_
  refine (Meets.lift (annotate_meets hI hspec e he).guard).bind fun e env₂ he => ?_
  refine rebuild_meets e fun hq => ?_
  obtain ⟨henv, he⟩ := he hq
  rw [(hst hq).2] at he
  exact he.mono henv

/-- The expression selects a part of a value. -/
def IsIndex (e : Expr) : Prop :=
  ∃ base key, e.node = .index base key

theorem annotate_isIndex (hI : SourceInvariant q I) (hspec : specialize.Keeps q I)
    {base key : Expr} {ty? : Option Ty}
    (he : ∀ name ∈ Expr.variables ⟨.index base key, ty?⟩, q name) :
    Typing.Meets I (annotate specialize env ⟨.index base key, ty?⟩) IsIndex := by
  rw [Expr.variables, List.forall_mem_append] at he
  rw [annotate]
  refine (annotate_meets hI hspec base he.1).bind fun base _ => ?_
  refine (annotate_meets hI hspec key he.2).bind fun key _ => ?_
  refine (Typing.Meets.typeOf base).bind fun baseTy _ => ?_
  refine (Typing.Meets.typeOf key).bind fun keyTy _ => ?_
  exact (Typing.Meets.check_any _).bind fun ty _ => .pure ⟨base, key, rfl⟩

theorem rebuild_isIndex {base key : Expr} {ty? : Option Ty}
    (h : NamesApart q → Expr.Annotated env ⟨.index base key, ty?⟩) :
    Meets q I result env (Expr.rebuildM convertNode ⟨.index base key, ty?⟩)
      fun e _ => IsIndex e := by
  have hchildren (hq : NamesApart q) := (h hq).children
  simp only [Expr.children, Node.children, List.forall_mem_cons] at hchildren
  rw [Expr.rebuildM]
  refine (rebuild_meets base fun hq => (hchildren hq).1).bind fun base env₁ hbase => ?_
  refine (rebuild_meets key fun hq => (hchildren hq).2.1.mono (hbase hq).1).bind
    fun key env₂ hkey => ?_
  unfold convertNode
  exact (Meets.lift (Typing.Meets.typeOf _).guard).bind fun ty env₃ _ => .pure fun _ => ⟨_, _, rfl⟩

/-- A selection that is lowered is still a selection. -/
theorem lowerIndex_meets (hI : SourceInvariant q I) (hspec : specialize.Keeps q I)
    {base key : Expr} {ty? : Option Ty}
    (he : ∀ name ∈ Expr.variables ⟨.index base key, ty?⟩, q name) :
    Meets q I result env (lowerExpr specialize ⟨.index base key, ty?⟩) fun e env' =>
      e.WellTyped env' ∧ IsIndex e := by
  unfold lowerExpr
  refine Meets.get.bind fun st env₁ hst => ?_
  refine (Meets.lift ((annotate_meets hI hspec _ he).and (annotate_isIndex hI hspec he)).guard).bind
    fun e env₂ he => ?_
  have hannotated (hq : NamesApart q) : e.Annotated env₂ := by
    obtain ⟨henv, he, -⟩ := he hq
    rw [(hst hq).2] at he
    exact he.mono henv
  refine (rebuild_meets e hannotated).and ?_
  by_cases hindex : IsIndex e
  · obtain ⟨node, ty?⟩ := e
    obtain ⟨base, key, rfl⟩ := hindex
    exact rebuild_isIndex hannotated
  · exact (rebuild_meets e hannotated).mono fun _ _ hq _ _ => absurd (he hq).2.2 hindex

/-! ## Targets -/

/-- A variable is declared at the type that lowering finds for it. -/
theorem varType_meets (name : String) :
    Meets q I result env (varType name) fun ty env' => env'.find? name = some ty := by
  unfold varType
  refine Meets.get.bind fun st env₁ hst => ?_
  cases hfind : st.env.find? name with
  | none => exact .fail _
  | some ty =>
    refine .pure fun hq => ?_
    rw [← (hst hq).2]
    exact hfind

mutual
/-- The type of a target made of variables, if all are declared. -/
def declaredType? (env : TypeEnv) : Expr → Option Ty
  | ⟨.var name, _⟩ => env.find? name
  | ⟨.tuple items, _⟩ => (declaredTypes? env items).map .tuple
  | _ => none
termination_by structural e => e

def declaredTypes? (env : TypeEnv) : List Expr → Option (List Ty)
  | [] => some []
  | e :: es =>
    match declaredType? env e, declaredTypes? env es with
    | some ty, some types => some (ty :: types)
    | _, _ => none
termination_by structural es => es
end

theorem declaredTypes?_cons {t : Expr} {ts : List Expr} {types : List Ty} :
    declaredTypes? env (t :: ts) = some types ↔ ∃ ty rest, declaredType? env t = some ty
      ∧ declaredTypes? env ts = some rest ∧ types = ty :: rest := by
  rw [declaredTypes?]
  constructor
  · intro h
    split at h
    · cases h
      exact ⟨_, _, ‹_›, ‹_›, rfl⟩
    · cases h
  · rintro ⟨ty, rest, hty, hrest, rfl⟩
    rw [hty, hrest]

mutual
theorem declaredType?_mono {env' : TypeEnv} (henv : env.Included env') {node : Node}
    {ty? : Option Ty} {ty : Ty} (h : declaredType? env ⟨node, ty?⟩ = some ty) :
    declaredType? env' ⟨node, ty?⟩ = some ty := by
  cases node with
  | var name => exact henv name ty h
  | tuple items =>
    rw [declaredType?, Option.map_eq_some_iff] at h ⊢
    obtain ⟨types, htypes, rfl⟩ := h
    exact ⟨types, declaredTypes?_mono henv items htypes, rfl⟩
  | _ => cases h
termination_by sizeOf node

theorem declaredTypes?_mono {env' : TypeEnv} (henv : env.Included env') :
    ∀ (ts : List Expr) {types : List Ty}, declaredTypes? env ts = some types →
      declaredTypes? env' ts = some types
  | [], _, h => h
  | ⟨node, ty?⟩ :: ts, types, h => by
    obtain ⟨ty, rest, hty, hrest, rfl⟩ := declaredTypes?_cons.1 h
    exact declaredTypes?_cons.2
      ⟨ty, rest, declaredType?_mono henv hty, declaredTypes?_mono henv ts hrest, rfl⟩
termination_by ts => sizeOf ts
end

mutual
theorem targetType_meets {env : TypeEnv} {node : Node} {ty? : Option Ty} :
    Meets q I result env (targetType ⟨node, ty?⟩) fun ty env' =>
      declaredType? env' ⟨node, ty?⟩ = some ty := by
  cases node with
  | var name => exact varType_meets name
  | tuple items =>
    rw [targetType]
    refine (targetTypes_meets items).bind fun types env₁ htypes => .pure fun hq => ?_
    rw [declaredType?, (htypes hq).2]
    rfl
  | _ => exact .fail _
termination_by sizeOf node

theorem targetTypes_meets : ∀ (ts : List Expr) {env : TypeEnv},
    Meets q I result env (targetTypes ts) fun types env' => declaredTypes? env' ts = some types
  | [], _ => by
    rw [targetTypes]
    exact .pure fun _ => rfl
  | ⟨node, ty?⟩ :: ts, env => by
    rw [targetTypes]
    refine targetType_meets.bind fun ty env₁ hty => ?_
    refine (targetTypes_meets ts).bind fun types env₂ htypes => .pure fun hq => ?_
    exact declaredTypes?_cons.2
      ⟨ty, types, declaredType?_mono (htypes hq).1 (hty hq).2, (htypes hq).2, rfl⟩
termination_by ts => sizeOf ts
end

mutual
/-- A typed target passes the check and has the type of its variables. -/
theorem typedTarget_meets {env : TypeEnv} {node : Node} {ty? : Option Ty} :
    Meets q I result env (typedTarget ⟨node, ty?⟩) fun e env' =>
      checkTarget env' e = .ok () ∧ ∃ ty, e.ty? = some ty
        ∧ declaredType? env' ⟨node, ty?⟩ = some ty := by
  cases node with
  | var name =>
    rw [typedTarget]
    refine (varType_meets name).bind fun ty env₁ hty => .pure fun hq => ?_
    refine ⟨?_, ty, rfl, (hty hq).2⟩
    exact (Expr.checkExpr_eq_ok _).2 (Expr.wellTyped_var.2 (hty hq).2)
  | tuple items =>
    rw [typedTarget]
    refine (typedTargets_meets items).bind fun es env₁ hes => ?_
    refine (Meets.lift (Typing.Meets.typesOf es).guard).bind fun types env₂ htypes => .pure fun hq => ?_
    obtain ⟨hcheck, types', htypes', hdeclared⟩ := (hes hq).2
    have hsame : types = types' := by
      have h := Expr.typesOf_eq_map (htypes hq).2
      rw [← h, Expr.typesOf_eq_map htypes']
    have henv := (htypes hq).1
    refine ⟨checkTarget_tuple (htypes hq).2 (checkTargets_mono henv hcheck), _, rfl, ?_⟩
    rw [declaredType?, declaredTypes?_mono henv items hdeclared, hsame]
    rfl
  | _ => exact .fail _
termination_by sizeOf node

theorem typedTargets_meets : ∀ (ts : List Expr) {env : TypeEnv},
    Meets q I result env (typedTargets ts) fun es env' =>
      checkTargets env' es = .ok () ∧ ∃ types,
        List.Forall₂ (fun e ty => e.ty? = some ty) es types
          ∧ declaredTypes? env' ts = some types
  | [], _ => by
    rw [typedTargets]
    exact .pure fun _ => ⟨rfl, [], .nil, rfl⟩
  | ⟨node, ty?⟩ :: ts, env => by
    rw [typedTargets]
    refine typedTarget_meets.bind fun e env₁ he => ?_
    refine (typedTargets_meets ts).bind fun es env₂ hes => .pure fun hq => ?_
    obtain ⟨hcheck, ty, hty, hdeclared⟩ := (he hq).2
    obtain ⟨hchecks, types, htypes, hdeclareds⟩ := (hes hq).2
    obtain ⟨node', ty?'⟩ := e
    refine ⟨?_, ty :: types, .cons hty htypes, ?_⟩
    · rw [checkTargets, Outcome.then_eq_ok]
      exact ⟨checkTarget_mono (hes hq).1 hcheck, hchecks⟩
    · exact declaredTypes?_cons.2
        ⟨ty, types, declaredType?_mono (hes hq).1 hdeclared, hdeclareds, rfl⟩
termination_by ts => sizeOf ts
end

/-! ## Assignments -/

theorem checkStmt_assign {target value : Expr} (ht : checkTarget env target = .ok ())
    (hv : value.WellTyped env) (h : checkAssign target value = .ok ()) :
    checkStmt env result (.assign target value) = .ok () := by
  rw [checkStmt, Outcome.then_eq_ok, Outcome.then_eq_ok]
  exact ⟨ht, (Expr.checkExpr_eq_ok _).2 hv, h⟩

theorem checkTarget_of_isIndex {e : Expr} (h : IsIndex e) (he : e.WellTyped env) :
    checkTarget env e = .ok () := by
  obtain ⟨node, ty?⟩ := e
  obtain ⟨base, key, rfl⟩ := h
  exact (Expr.checkExpr_eq_ok _).2 he

mutual
theorem lowerAssign_meets (hI : SourceInvariant q I) (hspec : specialize.Keeps q I)
    {env : TypeEnv} {node : Node} {ty? : Option Ty} {value : Expr}
    (ht : ∀ name ∈ Expr.variables ⟨node, ty?⟩, q name)
    (hv : NamesApart q → value.WellTyped env) :
    Meets q I result env (lowerAssign specialize ⟨node, ty?⟩ value) fun _ _ => True := by
  cases node with
  | index base key =>
    rw [lowerAssign]
    refine (lowerIndex_meets hI hspec ht).bind fun target env₁ htarget => ?_
    refine (Meets.lift (Typing.Meets.typeOf target).guard).bind fun slot env₂ hslot => ?_
    have hv₂ (hq : NamesApart q) : value.WellTyped env₂ :=
      ((hv hq).mono (htarget hq).1).mono (hslot hq).1
    refine (Meets.lift (coerceSlot_meets hv₂ slot)).bind fun value env₃ hvalue => ?_
    refine emit_meets fun hq => ?_
    obtain ⟨ty, hty, hfits⟩ := (hvalue hq).2
    have hwt := ((htarget hq).2.1.mono (hslot hq).1).mono (hvalue hq).1
    refine checkStmt_assign (checkTarget_of_isIndex (htarget hq).2.2 hwt)
      (hty.1.mono (hvalue hq).1) ?_
    exact checkAssign_of_fits (hslot hq).2 hty.2 (htarget hq).2.2 hfits
  | tuple items =>
    rw [lowerAssign]
    refine targetType_meets.bind fun target env₁ htarget => ?_
    refine (Meets.lift (Typing.Meets.typeOf value).guard).bind fun found env₂ hfound => ?_
    have hv₂ (hq : NamesApart q) : value.WellTyped env₂ :=
      ((hv hq).mono (htarget hq).1).mono (hfound hq).1
    refine .ite (fun _ => ?_) fun _ => ?_
    · refine (Meets.lift (coerce_meets hv₂ target)).bind fun value env₃ hvalue => ?_
      refine typedTarget_meets.bind fun target' env₄ htarget' => emit_meets fun hq => ?_
      obtain ⟨hcheck, ty, hty, hdeclared⟩ := (htarget' hq).2
      have henv : env₁.Included env₄ :=
        ((hfound hq).1.trans (hvalue hq).1).trans (htarget' hq).1
      have hsame : target = ty := by
        rw [declaredType?_mono henv (htarget hq).2] at hdeclared
        exact Option.some.inj hdeclared
      refine checkStmt_assign hcheck (((hvalue hq).2.1.mono (hvalue hq).1).mono (htarget' hq).1) ?_
      exact checkAssign_of_eq hty (hsame ▸ (hvalue hq).2.2)
    · cases found with
      | tuple types =>
        refine .ite (fun _ => .fail _) fun _ => ?_
        refine (temp_meets "unpack" _).bind fun temp env₃ htemp => ?_
        refine (emit_meets fun hq => ?_).bind fun _ env₄ henv₄ => ?_
        · have hvalue := (hv₂ hq).mono (htemp hq).1
          obtain ⟨hvar, name, rfl⟩ := (htemp hq).2
          refine checkStmt_assign ((Expr.checkExpr_eq_ok _).2 hvar.1) hvalue ?_
          exact checkAssign_of_eq rfl (hfound hq).2
        · refine lowerComponents_meets hI hspec items types 0 ht fun hq => ?_
          exact (htemp hq).2.1.1.mono (henv₄ hq).1
      | _ => exact .fail _
  | var name =>
    rw [lowerAssign]
    refine (varType_meets name).bind fun target env₁ htarget => ?_
    have hv₁ (hq : NamesApart q) : value.WellTyped env₁ := (hv hq).mono (htarget hq).1
    refine (Meets.lift (coerce_meets hv₁ target)).bind fun value env₂ hvalue => ?_
    refine emit_meets fun hq => ?_
    have hvar : (Expr.typed (.var name) target).WellTyped env₂ :=
      Expr.wellTyped_var.2 ((hvalue hq).1 _ _ (htarget hq).2)
    refine checkStmt_assign ((Expr.checkExpr_eq_ok _).2 hvar)
      ((hvalue hq).2.1.mono (hvalue hq).1) ?_
    exact checkAssign_of_eq rfl (hvalue hq).2.2
  | _ => exact .fail _
termination_by sizeOf node

theorem lowerComponents_meets (hI : SourceInvariant q I) (hspec : specialize.Keeps q I) :
    ∀ (targets : List Expr) (types : List Ty) {env : TypeEnv} {temp : Expr} (i : Nat),
      (∀ name ∈ Expr.variablesAll targets, q name) → (NamesApart q → temp.WellTyped env) →
        Meets q I result env (lowerComponents specialize temp i targets types) fun _ _ => True
  | ⟨node, ty?⟩ :: targets, ty :: types, env, temp, i, ht, htemp => by
    rw [Expr.variablesAll, List.forall_mem_append] at ht
    rw [lowerComponents]
    refine (lowerAssign_meets hI hspec ht.1 fun hq => ?_).bind fun _ env₁ henv₁ => ?_
    · exact Expr.wellTyped_of_children rfl (List.forall_mem_singleton.2 (htemp hq))
    · exact lowerComponents_meets hI hspec targets types (i + 1) ht.2
        fun hq => (htemp hq).mono (henv₁ hq).1
  | [], _, _, _, _, _, _ => .pure fun _ => trivial
  | _ :: _, [], _, _, _, _, _ => .pure fun _ => trivial
termination_by targets => sizeOf targets
end

/-! ## Statements -/

/-- A side of a reconciled variable has the declared type of the variable. -/
def SideTyped (name : String) (e : Expr) (env : TypeEnv) : Prop :=
  ∃ ty, env.find? name = some ty ∧ e.HasType env ty

theorem SideTyped.mono {env' : TypeEnv} {name : String} {e : Expr} (henv : env.Included env')
    (h : SideTyped name e env) : SideTyped name e env' := by
  obtain ⟨ty, hfind, hty⟩ := h
  exact ⟨ty, henv _ _ hfind, hty.mono henv⟩

theorem checkPhi_of_sides {name : String} {left right : Expr} (hleft : SideTyped name left env)
    (hright : SideTyped name right env) : checkPhi env ⟨name, left, right⟩ = .ok () := by
  obtain ⟨ty, hfind, hty⟩ := hleft
  obtain ⟨ty', hfind', hty'⟩ := hright
  have hsame : ty' = ty := by
    rw [hfind] at hfind'
    exact (Option.some.inj hfind').symm
  exact checkPhi_eq_ok.2 ⟨ty, hfind, hty.1, hty'.1, hty.2, hsame ▸ hty'.2⟩

theorem checkPhi_of_zip {merge : List Phi} {lefts rights : List Expr}
    (hlefts : List.Forall₂ (fun phi e => SideTyped phi.name e env) merge lefts)
    (hrights : List.Forall₂ (fun phi e => SideTyped phi.name e env) merge rights) :
    ∀ phi ∈ merge.zipWith (fun phi (left, right) => (⟨phi.name, left, right⟩ : Phi))
      (lefts.zip rights), checkPhi env phi = .ok () := by
  induction hlefts generalizing rights with
  | nil => exact fun _ h => (List.not_mem_nil h).elim
  | cons hleft _ ih =>
    cases hrights with
    | cons hright hrights =>
      rw [List.zip_cons_cons, List.zipWith_cons_cons, List.forall_mem_cons]
      exact ⟨checkPhi_of_sides hleft hright, ih hrights⟩

theorem lowerSide_meets (hI : SourceInvariant q I) (hspec : specialize.Keeps q I) (name : String)
    {value : Expr} (hv : ∀ name ∈ value.variables, q name) :
    Meets q I result env (lowerSide specialize name value) (SideTyped name) := by
  unfold lowerSide
  refine (varType_meets name).bind fun target env₁ htarget => ?_
  refine (lowerExpr_meets hI hspec hv).bind fun value env₂ hvalue => ?_
  have hcoerce := coerce_meets (I := I) (fun hq => (hvalue hq).2) target
  refine (Meets.lift hcoerce).mono fun e env₃ hq henv he => ?_
  have henv₃ := (hvalue hq).1.trans henv
  exact ⟨target, henv₃ _ _ (htarget hq).2, he.mono henv⟩

theorem lowerCond_meets (hI : SourceInvariant q I) (hspec : specialize.Keeps q I) {cond : Expr}
    (hc : ∀ name ∈ cond.variables, q name) :
    Meets q I result env (lowerCond specialize cond) fun e env' => e.HasType env' .bool := by
  unfold lowerCond
  refine (lowerExpr_meets hI hspec hc).bind fun cond env₁ hcond => ?_
  have hcoerce := coerce_meets (I := I) (fun hq => (hcond hq).2) .bool
  exact (Meets.lift hcoerce).mono fun e env₂ _ henv he => he.mono henv

/-- The sides of a branch's reconciled variables are lowered at the ends of its blocks. -/
theorem lowerMerge_meets (hI : SourceInvariant q I) (hspec : specialize.Keeps q I)
    {merge : List Phi} {onTrue onFalse : Block}
    (hmerge : ∀ name ∈ Phi.variablesAll merge, q name)
    (htrue : NamesApart q → checkBlock env result onTrue = .ok ())
    (hfalse : NamesApart q → checkBlock env result onFalse = .ok ()) :
    Meets q I result env
      (merge.foldlM (fun (phis, onTrue, onFalse) phi => do
        let (left, onTrue) ← collectAfter onTrue (lowerSide specialize phi.name phi.left)
        let (right, onFalse) ← collectAfter onFalse (lowerSide specialize phi.name phi.right)
        return (phis ++ [⟨phi.name, left, right⟩], onTrue, onFalse)) ([], onTrue, onFalse))
      fun (r : List Phi × Block × Block) env' => (∀ phi ∈ r.1, checkPhi env' phi = .ok ())
        ∧ checkBlock env' result r.2.1 = .ok () ∧ checkBlock env' result r.2.2 = .ok () := by
  rw [Phi.forall_variablesAll] at hmerge
  refine Meets.foldlM
    (fun hq => ⟨fun _ h => (List.not_mem_nil h).elim, htrue hq, hfalse hq⟩)
    fun phi hphi r env₁ hr => ?_
  obtain ⟨phis, onTrue, onFalse⟩ := r
  obtain ⟨-, hleft, hright⟩ := hmerge phi hphi
  refine (collectAfter_meets (fun hq => (hr hq).2.2.1) (lowerSide_meets hI hspec phi.name hleft)).bind
    fun l env₂ hl => ?_
  have hfalse₂ (hq : NamesApart q) : checkBlock env₂ result onFalse = .ok () :=
    checkBlock_mono (hl hq).1 (hr hq).2.2.2
  refine (collectAfter_meets hfalse₂ (lowerSide_meets hI hspec phi.name hright)).bind
    fun r env₃ hr' => .pure fun hq => ?_
  have henv₁ : env₁.Included env₃ := (hl hq).1.trans (hr' hq).1
  refine ⟨List.forall_mem_append.2 ⟨fun phi hphi => ?_, List.forall_mem_singleton.2 ?_⟩,
    checkBlock_mono (hr' hq).1 (hl hq).2.2, (hr' hq).2.2⟩
  · exact checkPhi_mono henv₁ ((hr hq).2.1 phi hphi)
  · exact checkPhi_of_sides ((hl hq).2.1.mono (hr' hq).1) (hr' hq).2.1

mutual
/-- Lowering a statement keeps the emitted code well typed. -/
theorem lowerStmt_meets (hI : SourceInvariant q I) (hspec : specialize.Keeps q I) :
    ∀ (s : Stmt) {env : TypeEnv}, (∀ name ∈ s.variables, q name) →
      Meets q I result env (lowerStmt specialize result s) fun _ _ => True
  | .assign target value, env, hs => by
    rw [Stmt.variables, List.forall_mem_append] at hs
    rw [lowerStmt]
    refine (lowerExpr_meets hI hspec hs.2).bind fun value env₁ hvalue => ?_
    obtain ⟨node, ty?⟩ := target
    exact lowerAssign_meets hI hspec hs.1 fun hq => (hvalue hq).2
  | .ret value, env, hs => by
    rw [Stmt.variables] at hs
    rw [lowerStmt]
    refine (lowerExpr_meets hI hspec hs).bind fun value env₁ hvalue => ?_
    refine (Meets.lift (coerce_meets (fun hq => (hvalue hq).2) result)).bind
      fun value env₂ hvalue => emit_meets fun hq => ?_
    rw [checkStmt, Outcome.then_eq_ok, require_eq_ok]
    obtain ⟨henv, hwt, hty⟩ := hvalue hq
    exact ⟨(Expr.checkExpr_eq_ok _).2 (hwt.mono henv), hty⟩
  | .branch cond onTrue onFalse merge, env, hs => by
    simp only [Stmt.variables, List.forall_mem_append] at hs
    obtain ⟨⟨⟨hcond, htrue⟩, hfalse⟩, hmerge⟩ := hs
    rw [lowerStmt]
    refine (lowerCond_meets hI hspec hcond).bind fun cond env₁ hcond => ?_
    refine (collectAfter_meets (fun _ => rfl) (lowerBlock_meets hI hspec onTrue htrue)).bind
      fun r₁ env₂ hr₁ => ?_
    refine (collectAfter_meets (fun _ => rfl) (lowerBlock_meets hI hspec onFalse hfalse)).bind
      fun r₂ env₃ hr₂ => ?_
    have htrue₃ (hq : NamesApart q) : checkBlock env₃ result r₁.2 = .ok () :=
      checkBlock_mono (hr₂ hq).1 (hr₁ hq).2.2
    refine (lowerMerge_meets hI hspec hmerge htrue₃ fun hq => (hr₂ hq).2.2).bind
      fun r env₄ hr => emit_meets fun hq => ?_
    obtain ⟨phis, onTrue, onFalse⟩ := r
    obtain ⟨henv₄, hphis, htrue, hfalse⟩ := hr hq
    have hcond := (hcond hq).2.mono (((hr₁ hq).1.trans (hr₂ hq).1).trans henv₄)
    simp only [checkStmt, Outcome.then_eq_ok, require_eq_ok, Outcome.forM_eq_ok]
    exact ⟨(Expr.checkExpr_eq_ok _).2 hcond.1, hcond.2, htrue, hfalse, hphis⟩
  | .loop cond body merge, env, hs => by
    simp only [Stmt.variables, List.forall_mem_append] at hs
    obtain ⟨⟨hcond, hbody⟩, hmerge⟩ := hs
    rw [Phi.forall_variablesAll] at hmerge
    rw [lowerStmt]
    have hsides (side : Phi → Expr) {env : TypeEnv}
        (hside : ∀ phi ∈ merge, ∀ name ∈ (side phi).variables, q name) :
        Meets q I result env (merge.mapM fun phi => lowerSide specialize phi.name (side phi))
          fun es env' => List.Forall₂ (fun phi e => SideTyped phi.name e env') merge es :=
      Meets.mapM (fun _ _ _ _ henv h => h.mono henv)
        fun phi hphi env' _ => lowerSide_meets hI hspec phi.name (hside phi hphi)
    refine (hsides Phi.left fun phi hphi => (hmerge phi hphi).2.1).bind fun lefts env₁ hlefts => ?_
    refine (collectAfter_meets (fun _ => rfl) (lowerCond_meets hI hspec hcond)).bind
      fun c env₂ hc => ?_
    obtain ⟨cond, setup⟩ := c
    refine (emitAll_meets fun hq => (hc hq).2.2).bind fun _ env₃ henv₃ => ?_
    refine (collectAfter_meets (fun _ => rfl) (lowerBlock_meets hI hspec body hbody)).bind
      fun b env₄ hb => ?_
    obtain ⟨u, body⟩ := b
    refine (collectAfter_meets (fun hq => (hb hq).2.2)
      (hsides Phi.right fun phi hphi => (hmerge phi hphi).2.2)).bind fun r env₅ hr => ?_
    obtain ⟨rights, body⟩ := r
    refine emit_meets fun hq => ?_
    have henv₂ : env₂.Included env₅ := ((henv₃ hq).1.trans (hb hq).1).trans (hr hq).1
    have hlefts := (hlefts hq).2.imp fun _ _ h => h.mono ((hc hq).1.trans henv₂)
    have hcond := (hc hq).2.1.mono henv₂
    simp only [checkStmt, Outcome.then_eq_ok, require_eq_ok, Outcome.forM_eq_ok]
    refine ⟨(Expr.checkExpr_eq_ok _).2 hcond.1, hcond.2, ?_,
      checkPhi_of_zip hlefts (hr hq).2.1⟩
    rw [checkBlock_eq_ok, List.forall_mem_append, ← checkBlock_eq_ok, ← checkBlock_eq_ok]
    exact ⟨(hr hq).2.2, checkBlock_mono henv₂ (hc hq).2.2⟩
termination_by structural s => s

theorem lowerBlock_meets (hI : SourceInvariant q I) (hspec : specialize.Keeps q I) :
    ∀ (ss : Block) {env : TypeEnv}, (∀ name ∈ Stmt.variablesAll ss, q name) →
      Meets q I result env (lowerBlock specialize result ss) fun _ _ => True
  | [], env, _ => by
    rw [lowerBlock]
    exact .pure fun _ => trivial
  | s :: ss, env, hss => by
    rw [Stmt.variablesAll, List.forall_mem_append] at hss
    rw [lowerBlock]
    exact (lowerStmt_meets hI hspec s hss.1).bind
      fun _ env₁ _ => lowerBlock_meets hI hspec ss hss.2
termination_by structural ss => ss
end

/-! ## Functions -/

/-- An argument comes in under a variable of its type. -/
theorem lowerParam_meets {name : String} {ty : Ty}
    (h : NamesApart q → ∃ known, env.find? name = some known) :
    Meets q I result env (lowerParam name ty) fun arg env' => env'.find? arg = some ty := by
  unfold lowerParam
  refine Meets.get.bind fun st env₁ hst => ?_
  have hlocal (hq : NamesApart q) :
      env₁.find? name = some ((st.env.find? name).getD ty) := by
    obtain ⟨known, hknown⟩ := h hq
    have hfind := (hst hq).1 _ _ hknown
    rw [(hst hq).2, hfind]
    rfl
  refine .ite (fun hsame => .pure fun hq => ?_) fun _ => ?_
  · rw [hlocal hq, hsame]
  · refine (temp_meets (name ++ ".in") ty).bind fun incoming env₂ hincoming => ?_
    refine (Meets.lift (coerce_meets (fun hq => (hincoming hq).2.1.1) _)).bind
      fun value env₃ hvalue => ?_
    refine (emit_meets fun hq => ?_).bind fun _ env₄ henv₄ => .pure fun hq => ?_
    · have henv := (hincoming hq).1.trans (hvalue hq).1
      have hvar := Expr.wellTyped_var.2 (henv _ _ (hlocal hq))
      refine checkStmt_assign ((Expr.checkExpr_eq_ok _).2 hvar)
        ((hvalue hq).2.1.mono (hvalue hq).1) ?_
      exact checkAssign_of_eq rfl (hvalue hq).2.2
    · obtain ⟨hwt, other, rfl⟩ := (hincoming hq).2
      exact (henv₄ hq).1 _ _ ((hvalue hq).1 _ _ (Expr.wellTyped_var.1 hwt.1))

end Lower

/-- What lowering a function gives: a variable of its type for each parameter, and a well-typed
body. -/
structure Lowered.WellTyped (result : Ty) (params : List (String × Ty)) (lowered : Lowered) :
    Prop where
  args : List.Forall₂ (fun p arg => lowered.typeEnv.find? arg = some p.2) params lowered.argNames
  body : Check.checkBlock lowered.typeEnv result lowered.body = .ok ()

theorem lowerFn_meets (hI : SourceInvariant q I) (hspec : specialize.Keeps q I) {func : FnDecl}
    (hfunc : func.Names q) {params : List (String × Ty)} {inference : Inference}
    (hnames : ∀ name ty, inference.env.find? name = some ty → q name)
    (hparams : ∀ p ∈ params, ∃ ty, inference.env.find? p.1 = some ty) :
    Typing.Meets I (lowerFn specialize func params inference) fun lowered =>
      NamesApart q → lowered.WellTyped inference.returnType params := by
  have hwalk : Lower.Meets q I inference.returnType inference.env
      (do
        let argNames ← params.mapM fun p => Lower.lowerParam p.1 p.2
        Lower.lowerBlock specialize inference.returnType func.body
        return argNames : Lower (List String))
      fun argNames env => List.Forall₂ (fun p arg => env.find? arg = some p.2) params argNames := by
    refine (Lower.Meets.mapM (Q := fun p arg env => env.find? arg = some p.2)
      (fun p arg _ _ henv h => henv arg p.2 h) fun p hp env henv => ?_).bind
      fun argNames env₁ hargs => ?_
    · refine Lower.lowerParam_meets fun hq => ?_
      obtain ⟨ty, hty⟩ := hparams p hp
      exact ⟨ty, henv hq _ _ hty⟩
    · refine (Lower.lowerBlock_meets hI hspec func.body hfunc.body).bind
        fun _ env₂ henv₂ => .pure fun hq => ?_
      exact (hargs hq).2.imp fun _ _ h => (henv₂ hq).1 _ _ h
  unfold lowerFn
  refine (hwalk _ fun hq => ⟨⟨fun h => ?_, rfl⟩, rfl⟩).bind fun r hr => .pure fun hq => ?_
  · exact .inl (hq _ (hnames _ _ h))
  · obtain ⟨hwt, -, hargs⟩ := hr hq
    exact ⟨hargs, hwt.emitted⟩

end ArrayLang
