import ArrayLang.Proofs.Typing.Computation
import ArrayLang.Proofs.Typing.WellTyped
import ArrayLang.Typing.Coercion

/-!
# What conversions give

A conversion of a well-typed expression is well typed and of the type that was asked for. The types
that an operator asks for are those it asks for again once its operands have them.
-/

namespace ArrayLang

/-! ## Operand types -/

namespace Operator

theorem inputElt_inputElt (category : OperatorCategory) (elt : ElemType) :
    inputElt category (inputElt category elt) = inputElt category elt := by
  cases category <;> cases elt <;> decide

theorem foldl_join_replicate (elt : ElemType) (n : Nat) :
    (List.replicate n elt).foldl ElemType.join elt = elt := by
  induction n with
  | zero => rfl
  | succ n ih =>
    rw [List.replicate_succ, List.foldl_cons]
    have hself : elt.join elt = elt := if_pos rfl
    rw [hself, ih]

theorem joinElts_replicate (elt : ElemType) {n : Nat} (hn : 0 < n) :
    joinElts (List.replicate n elt) = elt := by
  obtain ⟨n, rfl⟩ := Nat.exists_eq_succ_of_ne_zero (Nat.ne_of_gt hn)
  rw [List.replicate_succ]
  exact foldl_join_replicate elt n

theorem elt?_arrayOf (elt : ElemType) (rank : Nat) : (Ty.arrayOf elt rank).elt? = some elt := by
  unfold Ty.arrayOf
  by_cases h : rank = 0
  · rw [if_pos h]
    rfl
  · rw [if_neg h]
    rfl

theorem rank_arrayOf (elt : ElemType) (rank : Nat) : (Ty.arrayOf elt rank).rank = rank := by
  unfold Ty.arrayOf
  by_cases h : rank = 0
  · rw [if_pos h, h]
    rfl
  · rw [if_neg h]
    rfl

theorem arity_pos (op : Operator) : 0 < op.arity := by
  cases op <;> decide

/-- An operator has a signature for as many scalars and arrays as it takes. -/
theorem expectedTypes?_eq_some_iff {op : Operator} {args expected : List Ty} :
    op.expectedTypes? args = some expected ↔ args.length = op.arity ∧ ∃ elts,
      args.mapM Ty.elt? = some elts
        ∧ expected = args.map fun t => Ty.arrayOf (inputElt op.category (joinElts elts)) t.rank := by
  unfold expectedTypes?
  by_cases hlen : args.length = op.arity
  · rw [if_neg (not_not.2 hlen), and_iff_right hlen]
    exact Option.bind_eq_some_iff.trans (exists_congr fun elts =>
      and_congr_right fun _ => Option.some_inj.trans eq_comm)
  · rw [if_pos hlen]
    exact ⟨nofun, fun h => absurd h.1 hlen⟩

theorem expectedTypes?_eq_some {op : Operator} {args expected : List Ty}
    (h : op.expectedTypes? args = some expected) :
    args.length = op.arity ∧ ∃ elt, inputElt op.category elt = elt
      ∧ expected = args.map fun t => Ty.arrayOf elt t.rank := by
  obtain ⟨hlen, elts, -, rfl⟩ := expectedTypes?_eq_some_iff.1 h
  exact ⟨hlen, _, inputElt_inputElt _ _, rfl⟩

/-- Operands of the types that an operator asks for need no conversion. -/
theorem expectedTypes?_idem {op : Operator} {args expected : List Ty}
    (h : op.expectedTypes? args = some expected) : op.expectedTypes? expected = some expected := by
  obtain ⟨hlen, elt, helt, rfl⟩ := expectedTypes?_eq_some h
  have helts : (args.map fun t => Ty.arrayOf elt t.rank).mapM Ty.elt?
      = some (List.replicate args.length elt) := by
    clear h hlen
    induction args with
    | nil => rfl
    | cons t args ih => rw [List.map_cons, List.mapM_cons, elt?_arrayOf, ih]; rfl
  unfold expectedTypes?
  rw [List.length_map, if_neg (not_not.2 hlen), helts]
  show some _ = some _
  rw [joinElts_replicate elt (hlen ▸ op.arity_pos), helt, List.map_map]
  refine congrArg some (List.map_congr_left fun t _ => ?_)
  rw [Function.comp_apply, rank_arrayOf]

end Operator

open Typing

variable {I : Session → Prop} {env : TypeEnv}

/-- The expression is well typed and of the given type. -/
def Expr.HasType (env : TypeEnv) (e : Expr) (ty : Ty) : Prop :=
  e.WellTyped env ∧ e.ty? = some ty

theorem Expr.HasType.mono {env' : TypeEnv} {e : Expr} {ty : Ty} (h : e.HasType env ty)
    (henv : env.Included env') : e.HasType env' ty :=
  ⟨h.1.mono henv, h.2⟩

theorem Expr.HasType.cast {e : Expr} {ty : Ty} (h : e.WellTyped env) (elt : ElemType) :
    (Expr.typed (.cast e elt) ty).HasType env ty :=
  ⟨wellTyped_of_children rfl (List.forall_mem_singleton.2 h), rfl⟩

/-! ## Conversions to a type

A conversion runs the same way whether or not its expression is well typed, so what it gives is stated
under a condition `D` under which the expression is. -/

variable {D : Prop}

theorem coerceScalar_meets {e : Expr} (h : D → e.WellTyped env) (ty target : Ty) :
    Meets I (coerceScalar e ty target) fun e' => D → e'.HasType env target := by
  unfold coerceScalar
  split
  · exact .pure fun hD => .cast (h hD) _
  · exact .fail _

/-- An expression of the type that is asked for is left alone, and a scalar is cast. -/
theorem coerce_leaf_meets {e : Expr} {ty : Ty} (hty : e.ty? = some ty) (h : D → e.WellTyped env)
    (target : Ty) :
    Meets I (if ty = target then return e else coerceScalar e ty target)
      fun e' => D → e'.HasType env target := by
  refine .ite (fun heq => .pure fun hD => ⟨h hD, ?_⟩) fun _ => coerceScalar_meets h ty target
  rw [hty, heq]

mutual
theorem coerce_node_meets {node : Node} {ty? : Option Ty}
    (h : D → Expr.WellTyped env ⟨node, ty?⟩) (target : Ty) :
    Meets I (coerce ⟨node, ty?⟩ target) fun e' => D → e'.HasType env target := by
  cases ty? with
  | none =>
    rw [coerce]
    exact .throw _
  | some ty =>
    cases node with
    | tuple items =>
      cases target with
      | tuple targets =>
        rw [coerce]
        refine .ite (fun heq => .pure fun hD => ⟨h hD, congrArg some heq⟩)
          fun _ => .ite (fun _ => ?_) fun _ => ?_
        · exact (Meets.typesOf items).bind fun _ _ => .fail _
        · have hitems : D → ∀ c ∈ items, c.WellTyped env :=
            fun hD c hc => (h hD).of_mem_children hc
          refine (coerceAll_meets items targets hitems).bind fun items hitems => .pure fun hD => ?_
          exact ⟨Expr.wellTyped_of_children rfl (hitems hD), rfl⟩
      | _ => exact coerce_leaf_meets rfl h _
    | _ => exact coerce_leaf_meets rfl h target
termination_by sizeOf node

theorem coerceAll_meets :
    ∀ (es : List Expr) (targets : List Ty), (D → ∀ e ∈ es, e.WellTyped env) →
      Meets I (coerceAll es targets) fun es' => D → ∀ e ∈ es', e.WellTyped env
  | ⟨node, ty?⟩ :: es, target :: targets, h => by
    simp only [List.forall_mem_cons] at h
    rw [coerceAll]
    refine (coerce_node_meets (fun hD => (h hD).1) target).bind fun e he => ?_
    refine (coerceAll_meets es targets fun hD => (h hD).2).bind fun es hes => .pure fun hD => ?_
    exact List.forall_mem_cons.2 ⟨(he hD).1, hes hD⟩
  | [], _, _ => .pure fun _ _ h => (List.not_mem_nil h).elim
  | _ :: _, [], _ => .pure fun _ _ h => (List.not_mem_nil h).elim
termination_by es => sizeOf es
end

theorem coerce_meets {e : Expr} (h : D → e.WellTyped env) (target : Ty) :
    Meets I (coerce e target) fun e' => D → e'.HasType env target := by
  obtain ⟨node, ty?⟩ := e
  exact coerce_node_meets h target

/-! ## Operands and written values -/

theorem convertElements_hasType {e : Expr} {found elt : ElemType} {rank : Nat}
    (h : e.HasType env (.array found rank)) :
    (convertElements e (.array found rank) elt).HasType env (.array elt rank) := by
  show (if found = elt then e else Expr.typed (.cast e elt) (.array elt rank)).HasType env _
  by_cases heq : found = elt
  · rw [if_pos heq, ← heq]
    exact h
  · rw [if_neg heq]
    exact .cast h.1 elt

/-- An operand becomes of the type that the operator asks for. -/
theorem coerceOperand_meets {e : Expr} (h : D → e.WellTyped env) (target : Ty) :
    Meets I (coerceOperand e target) fun e' => D → e'.HasType env target := by
  unfold coerceOperand
  refine (Meets.typeOf e).bind fun ty hty => ?_
  split
  · refine .ite (fun hrank => .pure fun hD => ?_) fun _ => coerce_meets h _
    rw [← hrank]
    exact convertElements_hasType ⟨h hD, hty⟩
  · exact coerce_meets h target

/-- A value that is written to a part of an array fits the part. -/
theorem coerceSlot_meets {e : Expr} (h : D → e.WellTyped env) (slot : Ty) :
    Meets I (coerceSlot e slot) fun e' =>
      D → ∃ ty, e'.HasType env ty ∧ Check.fitsSlot slot ty = true := by
  have hself : Check.fitsSlot slot slot = true := by simp [Check.fitsSlot]
  unfold coerceSlot
  refine (Meets.typeOf e).bind fun ty hty => ?_
  split
  · refine (coerce_meets h _).mono fun e' he' hD => ⟨_, he' hD, ?_⟩
    simp [Check.fitsSlot]
  · refine .ite (fun hrank => .pure fun hD => ?_) fun _ => ?_
    · refine ⟨_, convertElements_hasType ⟨h hD, hty⟩, ?_⟩
      simp [Check.fitsSlot, hrank]
    · exact (coerce_meets h _).mono fun e' he' hD => ⟨_, he' hD, hself⟩
  · exact (coerce_meets h _).mono fun e' he' hD => ⟨_, he' hD, hself⟩

end ArrayLang
