import ArrayLang.Proofs.Dataflow.Accesses
import ArrayLang.Proofs.Outcome
import ArrayLang.Typing.Check

/-!
# Well-typed code

The checks of specialized code as propositions. An expression is well typed when each of its
subexpressions carries a type that fits its node, and all checks stay passed as long as the accessed
variables stay declared at their types.
-/

namespace ArrayLang

/-! ## Inclusion of maps -/

namespace NameMap

variable {α : Type} {m m' m'' : NameMap α}

/-- Every name of the first map has the same value in the second. -/
def Included (m m' : NameMap α) : Prop :=
  ∀ name value, m.find? name = some value → m'.find? name = some value

namespace Included

theorem refl (m : NameMap α) : m.Included m :=
  fun _ _ h => h

theorem trans (h : m.Included m') (h' : m'.Included m'') : m.Included m'' :=
  fun name value hv => h' name value (h name value hv)

/-- A name that is not bound can be bound to anything. -/
theorem insert {name : String} {value : α} (h : m.find? name = none) :
    m.Included (m.insert name value) := by
  intro other v hv
  rw [find?_insert]
  by_cases heq : other = name
  · rw [heq, h] at hv
    cases hv
  · rw [if_neg heq]
    exact hv

end Included

/-- Every listed name of the first map has the same value in the second. -/
def IncludedOn (names : List String) (m m' : NameMap α) : Prop :=
  ∀ name ∈ names, ∀ value, m.find? name = some value → m'.find? name = some value

theorem Included.on (h : m.Included m') (names : List String) : IncludedOn names m m' :=
  fun name _ => h name

theorem includedOn_append {names names' : List String} :
    IncludedOn (names ++ names') m m' ↔ IncludedOn names m m' ∧ IncludedOn names' m m' :=
  List.forall_mem_append

theorem includedOn_flatMap {ι : Type} {l : List ι} {f : ι → List String} :
    IncludedOn (l.flatMap f) m m' ↔ ∀ i ∈ l, IncludedOn (f i) m m' :=
  List.forall_mem_flatMap

/-- Forgetting a name leaves the values of the others. -/
theorem includedOn_erase {names : List String} {name : String} (h : name ∉ names) :
    IncludedOn names m (m.erase name) := by
  intro other hother value hvalue
  have hne : other ≠ name := fun heq => h (heq ▸ hother)
  rw [find?_erase, if_neg hne]
  exact hvalue

end NameMap

/-! ## Properties of all subexpressions -/

namespace Expr

variable {p q : Expr → Prop} {e : Expr}

/-- A property of an expression and of everything inside it. -/
def Forall (p : Expr → Prop) (e : Expr) : Prop :=
  ∀ s ∈ e.subexprs, p s

theorem forall_iff : e.Forall p ↔ p e ∧ ∀ c ∈ e.children, c.Forall p := by
  unfold Forall
  rw [subexprs_eq]
  simp only [List.forall_mem_cons, List.mem_flatMap, forall_exists_index, and_imp]
  refine and_congr_right fun _ => ⟨fun h c hc s hs => h s c hc hs, fun h s c hc hs => h c hc s hs⟩

theorem Forall.mono (h : e.Forall p) (hpq : ∀ s, p s → q s) : e.Forall q :=
  fun s hs => hpq s (h s hs)

theorem Forall.self (h : e.Forall p) : p e :=
  (forall_iff.1 h).1

theorem Forall.of_mem_children {c : Expr} (h : e.Forall p) (hc : c ∈ e.children) : c.Forall p :=
  (forall_iff.1 h).2 c hc

end Expr

/-! ## Checks that pass -/

namespace Check

theorem require_eq_ok {violation : Violation} {p : Prop} [Decidable p] :
    require violation p = .ok () ↔ p := by
  unfold require
  by_cases h : p
  · simp [h]
  · simp [h]

end Check

open Check Outcome

variable {env env' : TypeEnv} {result : Ty}

/-! ## Expressions -/

namespace Expr

/-- The expression carries a type that fits its node. -/
def NodeTyped (env : TypeEnv) (e : Expr) : Prop :=
  ∃ ty, e.ty? = some ty ∧ checkNode env e.node ty = .ok ()

/-- The expression and everything inside it carry types that fit their nodes. -/
def WellTyped (env : TypeEnv) (e : Expr) : Prop :=
  e.Forall (NodeTyped env)

theorem checkExpr_eq_ok (e : Expr) : checkExpr env e = .ok () ↔ e.WellTyped env := by
  have hchildren : ∀ c ∈ e.children, (checkExpr env c = .ok () ↔ c.WellTyped env) :=
    fun c _ => checkExpr_eq_ok c
  rw [checkExpr]
  unfold WellTyped
  rw [forall_iff]
  cases hty : e.ty? with
  | none =>
    constructor
    · intro h
      cases h
    · rintro ⟨⟨ty, h, _⟩, _⟩
      rw [hty] at h
      cases h
  | some ty =>
    have hnode : NodeTyped env e ↔ checkNode env e.node ty = .ok () := by
      unfold NodeTyped
      rw [hty]
      constructor
      · rintro ⟨_, h, hn⟩
        cases h
        exact hn
      · exact fun h => ⟨ty, rfl, h⟩
    show (do e.children.attach.forM _; checkNode env e.node ty) = _ ↔ _
    rw [then_eq_ok, forM_eq_ok, hnode, and_comm]
    refine and_congr_right fun _ => ?_
    simp only [List.mem_attach, true_imp_iff, Subtype.forall]
    exact forall₂_congr hchildren
termination_by sizeOf e
decreasing_by exact sizeOf_lt_of_mem_children ‹_›

theorem checkNode_var {name : String} {ty : Ty} :
    checkNode env (.var name) ty = .ok () ↔ env.find? name = some ty := by
  unfold checkNode
  dsimp only
  cases env.find? name with
  | none => simp
  | some declared => rw [require_eq_ok, Option.some_inj]

/-- An expression stays well typed when its variables stay declared at their types. -/
theorem WellTyped.of_includedOn {e : Expr} (h : e.WellTyped env)
    (henv : NameMap.IncludedOn e.vars env env') : e.WellTyped env' := by
  intro s hs
  obtain ⟨ty, hty, hnode⟩ := h s hs
  refine ⟨ty, hty, ?_⟩
  cases hn : s.node with
  | var name =>
    rw [hn] at hnode
    have hname : name ∈ e.vars := mem_vars.2 ⟨s, hs, by rw [var?, hn]⟩
    exact checkNode_var.2 (henv name hname ty (checkNode_var.1 hnode))
  | _ =>
    rw [hn] at hnode
    exact hnode

theorem WellTyped.mono {e : Expr} (h : e.WellTyped env) (henv : env.Included env') :
    e.WellTyped env' :=
  h.of_includedOn (henv.on _)

/-- An expression of another kind than those that the check looks at is well typed if its children
are. -/
theorem wellTyped_of_children {node : Node} {ty : Ty} (hnode : checkNode env node ty = .ok ())
    (h : ∀ c ∈ node.children, c.WellTyped env) : (Expr.typed node ty).WellTyped env :=
  forall_iff.2 ⟨⟨ty, rfl, hnode⟩, h⟩

theorem wellTyped_var {name : String} {ty : Ty} :
    (Expr.typed (.var name) ty).WellTyped env ↔ env.find? name = some ty := by
  constructor
  · intro h
    obtain ⟨ty', hty, hnode⟩ := Forall.self h
    cases hty
    exact checkNode_var.1 hnode
  · exact fun h => wellTyped_of_children (checkNode_var.2 h) fun _ hc => (List.not_mem_nil hc).elim

/-- Operands are at the types that the operator asks for, and the result is of its type. -/
theorem checkNode_op {op : Operator} {args : List Expr} {ty : Ty} :
    checkNode env (.op op args) ty = .ok ()
      ↔ op.expectedTypes? (Check.typesOf args) = some (Check.typesOf args)
        ∧ op.resultType (Check.typesOf args) = ty := by
  unfold checkNode
  dsimp only
  cases op.expectedTypes? (Check.typesOf args) with
  | none => simp
  | some expected =>
    show (do Check.require _ _; Check.require _ _) = _ ↔ _
    rw [then_eq_ok, require_eq_ok, require_eq_ok, Option.some_inj]
    refine and_congr_right fun h => ?_
    rw [h]

/-- Items of a one-dimensional literal are of its element type. -/
theorem checkNode_array {items : List Expr} {ty : Ty}
    (h : ∀ elt, ty = .array elt 1 → ∀ t ∈ Check.typesOf items, t = .scalar elt) :
    checkNode env (.array items) ty = .ok () := by
  unfold checkNode
  dsimp only
  split
  · exact require_eq_ok.2 (h _ rfl)
  · rfl

theorem typesOf_eq_map {es : List Expr} {types : List Ty}
    (h : List.Forall₂ (fun e ty => e.ty? = some ty) es types) : Check.typesOf es = types := by
  induction h with
  | nil => rfl
  | cons h _ ih =>
    unfold Check.typesOf at ih ⊢
    rw [List.filterMap_cons_some h, ih]

end Expr

/-! ## Statements -/

namespace Check

open Access

mutual
theorem checkTarget_of_includedOn {node : Node} {ty? : Option Ty}
    (henv : NameMap.IncludedOn (names (ofTarget [] ⟨node, ty?⟩)) env env')
    (h : checkTarget env ⟨node, ty?⟩ = .ok ()) : checkTarget env' ⟨node, ty?⟩ = .ok () := by
  cases node with
  | var name =>
    rw [checkTarget, Expr.checkExpr_eq_ok] at h ⊢
    refine h.of_includedOn ?_
    rw [Expr.vars_var]
    exact henv
  | index base index =>
    rw [checkTarget, Expr.checkExpr_eq_ok] at h ⊢
    refine h.of_includedOn fun x hx => henv x ?_
    exact mem_names_ofTarget_index.2 hx
  | tuple items =>
    rw [ofTarget] at henv
    rw [checkTarget, then_eq_ok] at h ⊢
    exact ⟨checkTargets_of_includedOn items henv h.1, h.2⟩
  | _ => cases h
termination_by sizeOf node

theorem checkTargets_of_includedOn :
    ∀ ts : List Expr, NameMap.IncludedOn (names (ofTargets [] ts)) env env' →
      checkTargets env ts = .ok () → checkTargets env' ts = .ok ()
  | [], _, _ => rfl
  | ⟨node, ty?⟩ :: ts, henv, h => by
    rw [ofTargets, names_append, NameMap.includedOn_append] at henv
    rw [checkTargets, then_eq_ok] at h ⊢
    exact ⟨checkTarget_of_includedOn henv.1 h.1, checkTargets_of_includedOn ts henv.2 h.2⟩
termination_by ts => sizeOf ts
end

theorem checkTarget_mono {target : Expr} (henv : env.Included env')
    (h : checkTarget env target = .ok ()) : checkTarget env' target = .ok () := by
  obtain ⟨node, ty?⟩ := target
  exact checkTarget_of_includedOn (henv.on _) h

theorem checkTargets_mono {targets : List Expr} (henv : env.Included env')
    (h : checkTargets env targets = .ok ()) : checkTargets env' targets = .ok () :=
  checkTargets_of_includedOn targets (henv.on _) h

/-- A tuple of targets is of the type of the tuple of their types. -/
theorem checkTarget_tuple {items : List Expr} {types : List Ty}
    (htypes : List.Forall₂ (fun e ty => e.ty? = some ty) items types)
    (h : checkTargets env items = .ok ()) :
    checkTarget env (.typed (.tuple items) (.tuple types)) = .ok () := by
  have hsome : items.any (·.ty?.isNone) = false := by
    induction htypes with
    | nil => rfl
    | cons hty _ ih =>
      rw [checkTargets, then_eq_ok] at h
      rw [List.any_cons, ih h.2, hty]
      rfl
  show checkTarget env ⟨.tuple items, some (.tuple types)⟩ = _
  rw [checkTarget, then_eq_ok]
  refine ⟨h, ?_⟩
  rw [hsome, Expr.typesOf_eq_map htypes]
  exact require_eq_ok.2 rfl

theorem checkPhi_eq_ok {phi : Phi} :
    checkPhi env phi = .ok () ↔ ∃ ty, env.find? phi.name = some ty
      ∧ phi.left.WellTyped env ∧ phi.right.WellTyped env
      ∧ phi.left.ty? = some ty ∧ phi.right.ty? = some ty := by
  unfold checkPhi
  cases env.find? phi.name with
  | none => simp
  | some declared =>
    simp only [then_eq_ok, require_eq_ok, Expr.checkExpr_eq_ok, Option.some_inj,
      exists_eq_left']

theorem checkPhi_of_includedOn {phi : Phi}
    (hleft : NameMap.IncludedOn (phi.left.vars ++ [phi.name]) env env')
    (hright : NameMap.IncludedOn phi.right.vars env env') (h : checkPhi env phi = .ok ()) :
    checkPhi env' phi = .ok () := by
  obtain ⟨ty, hfind, hl, hr, htypes⟩ := checkPhi_eq_ok.1 h
  obtain ⟨hvars, hname⟩ := NameMap.includedOn_append.1 hleft
  exact checkPhi_eq_ok.2 ⟨ty, hname _ (List.mem_singleton_self _) ty hfind,
    hl.of_includedOn hvars, hr.of_includedOn hright, htypes⟩

theorem checkPhi_mono {phi : Phi} (henv : env.Included env') (h : checkPhi env phi = .ok ()) :
    checkPhi env' phi = .ok () :=
  checkPhi_of_includedOn (henv.on _) (henv.on _) h

mutual
/-- A statement stays well typed when the variables it accesses stay declared at their types. -/
theorem checkStmt_of_includedOn {s : Stmt} (henv : NameMap.IncludedOn s.accessed env env')
    (h : checkStmt env result s = .ok ()) : checkStmt env' result s = .ok () := by
  cases s with
  | assign target value =>
    obtain ⟨node, ty?⟩ := target
    rw [Stmt.accessed_assign, NameMap.includedOn_append] at henv
    rw [checkStmt, then_eq_ok, then_eq_ok, Expr.checkExpr_eq_ok] at h ⊢
    exact ⟨checkTarget_of_includedOn henv.2 h.1, h.2.1.of_includedOn henv.1, h.2.2⟩
  | ret value =>
    rw [Stmt.accessed_ret] at henv
    rw [checkStmt, then_eq_ok, Expr.checkExpr_eq_ok] at h ⊢
    exact ⟨h.1.of_includedOn henv, h.2⟩
  | branch cond onTrue onFalse merge =>
    rw [checkStmt, then_eq_ok, then_eq_ok, then_eq_ok, then_eq_ok, Expr.checkExpr_eq_ok,
      forM_eq_ok] at h ⊢
    rw [Stmt.accessed_branch] at henv
    rw [NameMap.includedOn_append, NameMap.includedOn_append, NameMap.includedOn_append,
      NameMap.includedOn_append] at henv
    obtain ⟨⟨⟨⟨hc, ht⟩, hf⟩, hl⟩, hr⟩ := henv
    obtain ⟨hcond, hty, htrue, hfalse, hmerge⟩ := h
    refine ⟨hcond.of_includedOn hc, hty, checkBlock_of_includedOn ht htrue,
      checkBlock_of_includedOn hf hfalse, fun phi hphi => ?_⟩
    exact checkPhi_of_includedOn (NameMap.includedOn_flatMap.1 hl phi hphi)
      (NameMap.includedOn_flatMap.1 hr phi hphi) (hmerge phi hphi)
  | loop cond body merge =>
    rw [checkStmt, then_eq_ok, then_eq_ok, then_eq_ok, Expr.checkExpr_eq_ok, forM_eq_ok] at h ⊢
    rw [Stmt.accessed_loop] at henv
    rw [NameMap.includedOn_append, NameMap.includedOn_append, NameMap.includedOn_append] at henv
    obtain ⟨⟨⟨hl, hc⟩, hb⟩, hr⟩ := henv
    obtain ⟨hcond, hty, hbody, hmerge⟩ := h
    refine ⟨hcond.of_includedOn hc, hty, checkBlock_of_includedOn hb hbody, fun phi hphi => ?_⟩
    have hright := NameMap.includedOn_append.1 (NameMap.includedOn_flatMap.1 hr phi hphi)
    exact checkPhi_of_includedOn (NameMap.includedOn_flatMap.1 hl phi hphi) hright.1
      (hmerge phi hphi)
termination_by sizeOf s

theorem checkBlock_of_includedOn {ss : Block} (henv : NameMap.IncludedOn ss.accessed env env')
    (h : checkBlock env result ss = .ok ()) : checkBlock env' result ss = .ok () := by
  cases ss with
  | nil => rfl
  | cons s ss =>
    rw [Block.accessed_cons, NameMap.includedOn_append] at henv
    rw [checkBlock, then_eq_ok] at h ⊢
    exact ⟨checkStmt_of_includedOn henv.1 h.1, checkBlock_of_includedOn henv.2 h.2⟩
termination_by sizeOf ss
end

theorem checkBlock_mono {ss : Block} (henv : env.Included env')
    (h : checkBlock env result ss = .ok ()) : checkBlock env' result ss = .ok () :=
  checkBlock_of_includedOn (henv.on _) h

theorem checkBlock_eq_ok {ss : Block} :
    checkBlock env result ss = .ok () ↔ ∀ s ∈ ss, checkStmt env result s = .ok () := by
  induction ss with
  | nil => exact ⟨fun _ _ h => (List.not_mem_nil h).elim, fun _ => rfl⟩
  | cons s ss ih => rw [checkBlock, then_eq_ok, ih, List.forall_mem_cons]

/-- An assignment to anything but a part of an array passes when its sides have one type. -/
theorem checkAssign_of_eq {target value : Expr} {ty : Ty} (ht : target.ty? = some ty)
    (hv : value.ty? = some ty) : checkAssign target value = .ok () := by
  unfold checkAssign
  rw [ht, hv]
  split
  · rename_i hs ht
    cases hs
    cases ht
    exact require_eq_ok.2 (by simp [fitsSlot])
  · exact require_eq_ok.2 rfl

/-- A write to a part of an array passes when the value fits the part. -/
theorem checkAssign_of_fits {target value : Expr} {slot ty : Ty} (ht : target.ty? = some slot)
    (hv : value.ty? = some ty) (hindex : ∃ base index, target.node = .index base index)
    (h : fitsSlot slot ty = true) : checkAssign target value = .ok () := by
  obtain ⟨base, index, hnode⟩ := hindex
  unfold checkAssign
  rw [ht, hv, hnode]
  exact require_eq_ok.2 h

end Check
end ArrayLang
