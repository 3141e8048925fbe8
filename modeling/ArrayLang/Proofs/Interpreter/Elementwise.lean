import ArrayLang.Proofs.Array.RowMajor
import ArrayLang.Proofs.Array.Broadcast
import ArrayLang.Proofs.Interpreter.Operation
import ArrayLang.Proofs.Number.SinglePrecision
import ArrayLang.Proofs.Typing.Conversion
import ArrayLang.Proofs.Value.Conforms

/-!
# Elementwise operators

An operator applies to as many scalars and arrays as it takes. Their element types are joined to the one type
that all operands are converted to, and their shapes are broadcast to the one shape of the result. Each element
of the result is computed from the elements of the operands that stand at its index, without regard to the
others, and it is cast to the element type of the result.

The only element that cannot be computed is an integer remainder whose divisor is zero there. Of well-formed
operands the conversion changes no divisor to zero, since it only widens.

## Main results

- `operatorElts?_eq`: the element types that an operator converts its operands to and gives its result.
- `Operator.Applied`, `applyOperator_applied`: how applying an operator ends, for any type of the result.
- `applyOperator_elementwise`: which of the ends it is, without a type of the result.
-/

namespace ArrayLang

/-- Casting to a type is casting once. -/
theorem Scalar.cast_cast (x : Scalar) (elt : ElemType) : (x.cast elt).cast elt = x.cast elt := by
  by_cases hsingle : elt = .float32
  · subst hsingle
    exact congrArg Scalar.float (roundToSingle_idem x.toFloat)
  · exact cast_eq_self_of_holds (x.cast_holds elt) hsingle

/-! ## Operands -/

namespace Value

variable {v : Value} {args : List Value}

/-- What operators apply to: scalars and arrays. -/
def IsOperand : Value → Prop
  | .scalar _ | .array _ => True
  | _ => False

instance : DecidablePred IsOperand
  | .scalar _ | .array _ => .isTrue trivial
  | .none | .tuple _ | .struct _ _ | .slice _ | .closure _ _ | .op _ | .host _ _ _ => .isFalse id

/-- The element type of an operand. -/
def operandElt : Value → ElemType
  | .scalar x => x.naturalType
  | .array v => v.elt
  | _ => .int64

/-- The type of an operand. -/
def operandTy : Value → Ty
  | .array v => .array v.elt v.rank
  | v => .scalar v.operandElt

theorem elt?_operandTy (v : Value) : v.operandTy.elt? = some v.operandElt := by
  cases v <;> rfl

theorem rank_operandTy (v : Value) : v.operandTy.rank = v.shape.length := by
  cases v <;> rfl

theorem tys?_operands (h : ∀ v ∈ args, v.IsOperand) : tys? args = some (args.map operandTy) := by
  induction args with
  | nil => rfl
  | cons v args ih =>
    obtain ⟨hv, hargs⟩ := List.forall_mem_cons.1 h
    have hty : v.ty? = some v.operandTy := by
      cases v with
      | scalar x => rfl
      | array v => rfl
      | _ => cases hv
    rw [tys?, hty, ih hargs]
    rfl

theorem mapM_elt?_operandTy (args : List Value) :
    (args.map operandTy).mapM Ty.elt? = some (args.map operandElt) := by
  rw [List.mapM_map]
  exact Outcome.mapM_eq_some_map fun v _ => elt?_operandTy v

end Value

open Value (operandElt operandTy isScalar)

variable {op : Operator} {args : List Value} {s : Store} {ty? : Option Ty} {result : ElemType}
  {index : List Nat}

theorem operandTypes?_eq (h : ∀ v ∈ args, v.IsOperand) :
    operandTypes? args = some (args.map operandTy) := by
  refine Outcome.mapM_eq_some_map fun v hv => ?_
  have hoperand := h v hv
  cases v with
  | scalar x => rfl
  | array v => rfl
  | _ => cases hoperand

theorem isOperand_of_operandTypes? {types : List Ty} (h : operandTypes? args = some types) :
    ∀ v ∈ args, v.IsOperand := by
  unfold operandTypes? at h
  induction args generalizing types with
  | nil => exact fun _ hv => absurd hv List.not_mem_nil
  | cons v args ih =>
    rw [List.mapM_cons, Option.bind_eq_bind, Option.bind_eq_some_iff] at h
    obtain ⟨ty, hty, hrest⟩ := h
    rw [Option.bind_eq_bind, Option.bind_eq_some_iff] at hrest
    obtain ⟨rest, hargs, -⟩ := hrest
    refine List.forall_mem_cons.2 ⟨?_, ih hargs⟩
    cases v with
    | scalar x => trivial
    | array v => trivial
    | _ => cases hty

namespace Operator

/-- The operator has as many operands as it takes, each a scalar or an array. -/
def Applies (op : Operator) (args : List Value) : Prop :=
  args.length = op.arity ∧ ∀ v ∈ args, v.IsOperand

instance (op : Operator) (args : List Value) : Decidable (op.Applies args) :=
  inferInstanceAs (Decidable (_ ∧ _))

/-- The element type that the operands are converted to. -/
def inputOf (op : Operator) (args : List Value) : ElemType :=
  inputElt op.category (joinElts (args.map operandElt))

/-- The element type of the result, if no other one is asked for. -/
def resultOf (op : Operator) (args : List Value) : ElemType :=
  match op.category with
  | .arith | .float => op.inputOf args
  | .compare | .logical => .bool

theorem Applies.ne_nil (h : op.Applies args) : args ≠ [] := by
  intro hnil
  have hpos := op.arity_pos
  rw [← h.1, hnil] at hpos
  exact absurd hpos (by decide)

/-- Operands that are not all scalars have an array among them. -/
theorem Applies.exists_array (h : op.Applies args) (hnot : ¬∀ v ∈ args, v.isScalar) :
    ∃ v, .array v ∈ args := by
  push Not at hnot
  obtain ⟨v, hv, hscalar⟩ := hnot
  have hoperand := h.2 v hv
  cases v with
  | array v => exact ⟨v, hv⟩
  | scalar x => exact absurd rfl hscalar
  | _ => cases hoperand

/-- An operator applies exactly to what it has a signature for. -/
theorem expectedTypes?_eq (h : op.Applies args) :
    op.expectedTypes? (args.map operandTy)
      = some (args.map fun v => Ty.arrayOf (op.inputOf args) v.shape.length) := by
  unfold expectedTypes?
  rw [List.length_map, if_neg (not_not.2 h.1), Value.mapM_elt?_operandTy]
  show some _ = some _
  rw [List.map_map]
  refine congrArg some (List.map_congr_left fun v _ => ?_)
  rw [Function.comp_apply, Value.rank_operandTy]
  rfl

theorem elt?_resultType (h : args ≠ []) :
    (op.resultType (args.map fun v => Ty.arrayOf (op.inputOf args) v.shape.length)).elt?
      = some (op.resultOf args) := by
  obtain ⟨v, rest, rfl⟩ := List.exists_cons_of_ne_nil h
  unfold resultType resultOf
  rw [elt?_arrayOf, List.map_cons, List.head?_cons, Option.bind_some, elt?_arrayOf]
  cases op.category <;> rfl

end Operator

/-- The element types that the operands are converted to, and that of the result. -/
theorem operatorElts?_eq (h : op.Applies args) (ty? : Option Ty) :
    operatorElts? op args ty? = some (List.replicate args.length (op.inputOf args),
      (ty?.bind Ty.elt?).getD (op.resultOf args)) := by
  have hinputs : (args.map fun v => Ty.arrayOf (op.inputOf args) v.shape.length).filterMap Ty.elt?
      = List.replicate args.length (op.inputOf args) := by
    rw [List.filterMap_map]
    refine (List.filterMap_congr fun v _ => Operator.elt?_arrayOf (op.inputOf args) v.shape.length).trans ?_
    simp [List.map_const']
  unfold operatorElts?
  rw [operandTypes?_eq h.2]
  show (op.expectedTypes? (args.map operandTy) >>= _) = _
  rw [Operator.expectedTypes?_eq h]
  show ((ty?.bind Ty.elt?).or _ >>= fun result => some (_, result)) = _
  rw [Operator.elt?_resultType h.ne_nil, hinputs]
  cases ty?.bind Ty.elt? <;> rfl

theorem operatorElts?_eq_none (h : ¬op.Applies args) (ty? : Option Ty) :
    operatorElts? op args ty? = none := by
  unfold operatorElts?
  cases htypes : operandTypes? args with
  | none => rfl
  | some types =>
    have hargs := isOperand_of_operandTypes? htypes
    rw [operandTypes?_eq hargs] at htypes
    obtain rfl := Option.some.inj htypes
    have hlength : (args.map operandTy).length ≠ op.arity := by
      rw [List.length_map]
      exact fun hlength => h ⟨hlength, hargs⟩
    show (op.expectedTypes? (args.map operandTy) >>= _) = _
    unfold Operator.expectedTypes?
    rw [if_pos hlength]
    rfl

/-! ## Elements of the result -/

namespace Operator

/-- The element of the result at an index. It depends on the elements of the operands there only. -/
def elementAt? (op : Operator) (args : List Value) (result : ElemType) (s : Store)
    (index : List Nat) : Option Scalar :=
  (op.onScalars? (op.inputOf args) (args.map fun v => (operandAt s index v).cast (op.inputOf args))).map
    (·.cast result)

/-- The divisor at an index, if there is one, is converted to zero. -/
def ZeroDivisor (op : Operator) (args : List Value) (s : Store) (index : List Nat) : Prop :=
  ∃ divisor, args[1]? = some divisor
    ∧ (operandAt s index divisor).cast (op.inputOf args) = .int 0

theorem onScalars?_eq_none {input : ElemType} {x y : Scalar} :
    op.onScalars? input [x, y] = none
      ↔ op = .modulo ∧ ¬input.isFloat ∧ y.toInt64 = 0 := by
  unfold onScalars?
  by_cases hfloat : input.isFloat
  · rw [if_pos hfloat]
    simp [hfloat]
  · rw [if_neg hfloat]
    show op.onInts? x.toInt64 y.toInt64 = none ↔ _
    cases op with
    | modulo =>
      show (floorModInt? x.toInt64 y.toInt64).map Scalar.int = none ↔ _
      rw [Option.map_eq_none_iff]
      unfold floorModInt?
      by_cases hzero : y.toInt64 = 0
      · simp [hzero, hfloat]
      · simp [hzero]
    | _ => simp [onInts?]

theorem onScalars?_unary {input : ElemType} (harity : op.arity = 1) (x : Scalar) :
    op.onScalars? input [x] ≠ none := by
  unfold onScalars?
  by_cases hfloat : input.isFloat
  · simp [hfloat]
  · rw [if_neg hfloat]
    cases op with
    | negative | abs | sqrt | exp | log | logicalNot => exact nofun
    | _ => cases harity

/-- The elements of integer operands that an operator computes with are integers. -/
theorem isInteger_inputOf (hmodulo : op = .modulo) (hfloat : ¬(op.inputOf args).isFloat) :
    (op.inputOf args).isInteger := by
  subst hmodulo
  unfold inputOf at hfloat ⊢
  generalize joinElts (args.map operandElt) = joined at hfloat ⊢
  revert hfloat
  cases joined <;> decide

/-- An element cannot be computed exactly if it is an integer remainder with divisor zero. -/
theorem elementAt?_eq_none (h : op.Applies args) :
    op.elementAt? args result s index = none
      ↔ op = .modulo ∧ ¬(op.inputOf args).isFloat ∧ op.ZeroDivisor args s index := by
  unfold elementAt? ZeroDivisor
  rw [Option.map_eq_none_iff]
  have hlength := h.1
  match args, hlength with
  | [], hlength => exact absurd rfl h.ne_nil
  | [v], hlength =>
    have hnone : op.onScalars? (op.inputOf [v]) [(operandAt s index v).cast (op.inputOf [v])] ≠ none :=
      onScalars?_unary hlength.symm _
    simpa using hnone
  | [v, w], hlength =>
    rw [List.map_cons, List.map_cons, List.map_nil, onScalars?_eq_none]
    refine and_congr_right fun hmodulo => and_congr_right fun hfloat => ?_
    have hinteger := isInteger_inputOf hmodulo hfloat
    generalize op.inputOf [v, w] = input at hinteger ⊢
    have hcast : ∃ n, (operandAt s index w).cast input = .int n := by
      cases input with
      | bool | float32 | float64 => cases hinteger
      | _ => exact ⟨_, rfl⟩
    obtain ⟨n, hn⟩ := hcast
    simp [hn, Scalar.toInt64]
  | v :: w :: x :: rest, hlength =>
    have harity : op.arity ≤ 2 := by cases op <;> decide
    rw [← hlength] at harity
    simp at harity

/-! ## Results -/

/-- What an operator makes of its operands: of scalars a scalar, and otherwise a new array of their common
shape. No block that is there is changed. -/
inductive Computed (op : Operator) (args : List Value) (result : ElemType) (s : Store) :
    Value × Store → Prop
  | scalar {x : Scalar} (hargs : ∀ v ∈ args, v.isScalar)
    (hx : op.elementAt? args result s [] = some x) : Computed op args result s (.scalar x, s)
  | array {out : View} {s' : Store} (harray : ∃ v, .array v ∈ args)
    (hshape : Shape.broadcast (args.map Value.shape) = some out.shape) (helt : out.elt = result)
    (hnew : out.block = s.blocks.size) (hkept : s.TouchesOnly (fun _ => False) s')
    (hwellFormed : out.WellFormed s')
    (hget : ∀ index, Shape.InRange out.shape index →
      op.elementAt? args result s index = some (out.get s' index)) :
    Computed op args result s (.array out, s')

/-- How applying an operator ends. -/
inductive Applied (op : Operator) (args : List Value) (result : ElemType) (s : Store) :
    Except Fault (Store → Value × Store) → Prop
  | badOperands (h : ¬op.Applies args) :
    Applied op args result s (.error (.badOperands op.name (Value.listText s args)))
  | broadcast (h : op.Applies args) (hshape : Shape.broadcast (args.map Value.shape) = none) :
    Applied op args result s (.error (.broadcast (args.map Value.shape)))
  | divisionByZero (h : op.Applies args) {shape index : List Nat}
    (hshape : Shape.broadcast (args.map Value.shape) = some shape)
    (hindex : Shape.InRange shape index)
    (hnone : op.elementAt? args result s index = none) :
    Applied op args result s (.error .divisionByZero)
  | computed (h : op.Applies args) {f : Store → Value × Store}
    (hcomputed : Computed op args result s (f s)) : Applied op args result s (.ok f)

/-- Scalars have the shape without axes in common. -/
theorem broadcast_scalars (h : ∀ v ∈ args, v.isScalar) :
    Shape.broadcast (args.map Value.shape) = some [] := by
  rw [Shape.broadcast_eq_some_iff]
  constructor
  · intro src hsrc
    obtain ⟨v, hv, rfl⟩ := List.mem_map.1 hsrc
    have hscalar := h v hv
    cases v with
    | scalar x => exact .refl []
    | _ => cases hscalar
  · exact fun dst _ => Shape.broadcastsTo_iff_within.2 (.nil _)

theorem Computed.exists_shape {r : Value × Store} (h : Computed op args result s r) :
    ∃ shape, Shape.broadcast (args.map Value.shape) = some shape := by
  cases h with
  | scalar hargs => exact ⟨[], broadcast_scalars hargs⟩
  | array harray hshape => exact ⟨_, hshape⟩

/-- Every element of a result is computed. -/
theorem Computed.element {r : Value × Store} (h : Computed op args result s r) {shape : List Nat}
    (hshape : Shape.broadcast (args.map Value.shape) = some shape)
    (hindex : Shape.InRange shape index) :
    op.elementAt? args result s index = some (operandAt r.2 index r.1) := by
  cases h with
  | scalar hargs hx =>
    rw [broadcast_scalars hargs] at hshape
    obtain rfl := Option.some.inj hshape
    obtain rfl := List.forall₂_nil_right_iff.1 hindex
    exact hx
  | @array out s' harray hshape' helt hnew hkept hwellFormed hget =>
    rw [hshape'] at hshape
    obtain rfl := Option.some.inj hshape
    have hown : Shape.aligned out.shape index = index := by
      rw [Shape.aligned_eq_shrink hindex.length_eq, Shape.shrink_self hindex]
    rw [hget index hindex]
    show some (out.get s' index) = some (out.get s' (Shape.aligned out.shape index))
    rw [hown]

namespace Applied

variable {outcome : Except Fault (Store → Value × Store)} (happlied : op.Applied args result s outcome)
include happlied

theorem badOperands_iff :
    outcome = .error (.badOperands op.name (Value.listText s args)) ↔ ¬op.Applies args := by
  cases happlied with
  | badOperands h => exact ⟨fun _ => h, fun _ => rfl⟩
  | broadcast h | divisionByZero h | computed h => exact ⟨nofun, fun hnot => absurd h hnot⟩

theorem broadcast_iff : outcome = .error (.broadcast (args.map Value.shape))
    ↔ op.Applies args ∧ Shape.broadcast (args.map Value.shape) = none := by
  cases happlied with
  | badOperands h => exact ⟨nofun, fun hall => absurd hall.1 h⟩
  | broadcast h hshape => exact ⟨fun _ => ⟨h, hshape⟩, fun _ => rfl⟩
  | divisionByZero h hshape hindex hnone =>
    rw [hshape]
    exact ⟨nofun, nofun⟩
  | computed h hcomputed =>
    obtain ⟨shape, hshape⟩ := hcomputed.exists_shape
    rw [hshape]
    exact ⟨nofun, nofun⟩

theorem divisionByZero_iff : outcome = .error .divisionByZero
    ↔ op.Applies args ∧ ∃ shape, Shape.broadcast (args.map Value.shape) = some shape
      ∧ ∃ index, Shape.InRange shape index ∧ op.elementAt? args result s index = none := by
  cases happlied with
  | badOperands h => exact ⟨nofun, fun hall => absurd hall.1 h⟩
  | broadcast h hshape =>
    rw [hshape]
    exact ⟨nofun, nofun⟩
  | divisionByZero h hshape hindex hnone =>
    exact ⟨fun _ => ⟨h, _, hshape, _, hindex, hnone⟩, fun _ => rfl⟩
  | computed h hcomputed =>
    refine ⟨nofun, ?_⟩
    rintro ⟨-, shape, hshape, index, hindex, hnone⟩
    have hx := hcomputed.element hshape hindex
    rw [hnone] at hx
    cases hx

/-- There is a result if every element can be computed. -/
theorem exists_result (h : op.Applies args) {shape : List Nat}
    (hshape : Shape.broadcast (args.map Value.shape) = some shape)
    (helement : ∀ index, Shape.InRange shape index → op.elementAt? args result s index ≠ none) :
    ∃ f, outcome = .ok f ∧ Computed op args result s (f s) := by
  cases happlied with
  | badOperands hnot => exact absurd h hnot
  | broadcast _ hnone =>
    rw [hshape] at hnone
    cases hnone
  | divisionByZero _ hshape' hindex hnone =>
    rw [hshape] at hshape'
    obtain rfl := Option.some.inj hshape'
    exact absurd hnone (helement _ hindex)
  | computed _ hcomputed => exact ⟨_, rfl, hcomputed⟩

end Applied
end Operator

/-- A new array whose elements are computed is what the operator makes. -/
theorem computed_newArray (harray : ∃ v, Value.array v ∈ args) {shape : List Nat}
    (hshape : Shape.broadcast (args.map Value.shape) = some shape)
    {get : List Nat → Scalar}
    (hget : ∀ index, Shape.InRange shape index →
      op.elementAt? args result s index = some ((get index).cast result)) :
    op.Computed args result s
      (newArray (View.ofFlat result shape ((Shape.indices shape).map get)) s) := by
  have hshows := View.ofFlat_shows result ⟨shape, get⟩ s
  have hlength : ((Shape.indices shape).map get).length = Shape.size shape := by
    rw [List.length_map, Shape.length_indices]
  have hwellFormed := View.ofFlat_wellFormed result s hlength
  refine .array harray hshape rfl rfl (.alloc _ _ _) hwellFormed fun index hindex => ?_
  rw [hget index hindex]
  exact congrArg some (hshows.get_eq index hindex).symm

theorem zipWith_cast_replicate (args : List Value) (s : Store) (index : List Nat) (elt : ElemType) :
    List.zipWith Scalar.cast (args.map (operandAt s index)) (List.replicate args.length elt)
      = args.map fun v => (operandAt s index v).cast elt := by
  induction args with
  | nil => rfl
  | cons v args ih => exact congrArg (_ :: ·) ih

/-- How applying an operator ends, for any type of the result. -/
theorem applyOperator_applied (op : Operator) (args : List Value) (ty? : Option Ty) (s : Store) :
    op.Applied args ((ty?.bind Ty.elt?).getD (op.resultOf args)) s (applyOperator op args ty? s) := by
  by_cases h : op.Applies args
  · generalize hresult : (ty?.bind Ty.elt?).getD (op.resultOf args) = result
    have helts := operatorElts?_eq h ty?
    rw [hresult] at helts
    unfold applyOperator
    rw [helts]
    dsimp only
    have hinput : (List.replicate args.length (op.inputOf args)).headD ElemType.int64
        = op.inputOf args := by
      obtain ⟨v, rest, rfl⟩ := List.exists_cons_of_ne_nil h.ne_nil
      rfl
    simp only [hinput, zipWith_cast_replicate]
    by_cases hscalars : args.all isScalar
    · rw [if_pos hscalars]
      rw [List.all_eq_true] at hscalars
      -- The one element is computed from the scalars themselves.
      cases hx : op.onScalars? (op.inputOf args)
        (args.map fun v => (operandAt s [] v).cast (op.inputOf args)) with
      | none =>
        exact .divisionByZero h (Operator.broadcast_scalars hscalars) .nil
          (Option.map_eq_none_iff.2 hx)
      | some x => exact .computed h (.scalar hscalars (Option.map_eq_some_iff.2 ⟨x, hx, rfl⟩))
    · rw [if_neg hscalars]
      rw [List.all_eq_true] at hscalars
      have harray := h.exists_array hscalars
      cases hshape : Shape.broadcast (args.map Value.shape) with
      | none => exact .broadcast h hshape
      | some shape =>
        dsimp only
        rw [Shape.mapIndicesM_eq_mapM]
        by_cases hall : ∃ index ∈ Shape.indices shape, op.elementAt? args result s index = none
        · obtain ⟨index, hindex, hnone⟩ := hall
          rw [Outcome.mapM_eq_error (e := .divisionByZero) (fun index' _ e he => ?_)
            ⟨index, hindex, ?_⟩]
          · exact .divisionByZero h hshape (Shape.mem_indices.1 hindex) hnone
          · rw [Option.map_eq_none_iff.1 hnone]
          · split at he
            · cases he
            · exact (Except.error.inj he).symm
        · push Not at hall
          let get (index : List Nat) := (op.elementAt? args result s index).getD (.int 0)
          have hget (index : List Nat) (hindex : index ∈ Shape.indices shape) :
              op.elementAt? args result s index = some (get index) := by
            obtain ⟨x, hx⟩ := Option.ne_none_iff_exists'.1 (hall index hindex)
            show _ = some (Option.getD _ _)
            rw [hx]
            rfl
          rw [Outcome.mapM_eq_ok_map (g := get) fun index hindex => ?_]
          · refine .computed h (computed_newArray harray hshape fun index hindex => ?_)
            have hx := hget index (Shape.mem_indices.2 hindex)
            obtain ⟨x, -, hcast⟩ := Option.map_eq_some_iff.1 hx
            rw [hx, ← hcast, Scalar.cast_cast]
          · obtain ⟨x, hx, hcast⟩ := Option.map_eq_some_iff.1 (hget index hindex)
            rw [hx, ← hcast]
  · unfold applyOperator
    rw [operatorElts?_eq_none h]
    exact .badOperands h

/-! ## Conversions of operands -/

/-- What is closed under joining holds of the join of what it holds of. -/
theorem Operator.joinElts_induction {P : ElemType → Prop} (hjoin : ∀ a b, P a → P b → P (a.join b))
    {elts : List ElemType} (hne : elts ≠ []) (h : ∀ elt ∈ elts, P elt) : P (joinElts elts) := by
  obtain ⟨t, elts, rfl⟩ := List.exists_cons_of_ne_nil hne
  obtain ⟨ht, helts⟩ := List.forall_mem_cons.1 h
  unfold joinElts
  clear h hne
  induction elts generalizing t with
  | nil => exact ht
  | cons u elts ih =>
    obtain ⟨hu, hrest⟩ := List.forall_mem_cons.1 helts
    exact ih (t.join u) (hjoin t u ht hu) hrest

/-- Joining widens every one of the element types. -/
theorem Operator.widens_joinElts {elts : List ElemType} {elt : ElemType} (h : elt ∈ elts) :
    elt.Widens (joinElts elts) := by
  have hfold : ∀ (elts : List ElemType) (start : ElemType),
      start.Widens (elts.foldl ElemType.join start)
        ∧ ∀ elt ∈ elts, elt.Widens (elts.foldl ElemType.join start) := by
    intro elts
    induction elts with
    | nil => exact fun start => ⟨.refl start, fun _ helt => absurd helt List.not_mem_nil⟩
    | cons t elts ih =>
      intro start
      obtain ⟨hstart, helts⟩ := ih (start.join t)
      refine ⟨(start.widens_join_left t).trans hstart, List.forall_mem_cons.2 ⟨?_, helts⟩⟩
      exact (start.widens_join_right t).trans hstart
  cases elts with
  | nil => exact absurd h List.not_mem_nil
  | cons t elts =>
    obtain ⟨hstart, helts⟩ := hfold elts t
    rcases List.mem_cons.1 h with rfl | h
    · exact hstart
    · exact helts elt h

/-- Arithmetic widens its operands. -/
theorem Operator.widens_inputOf (hcategory : op.category = .arith) {v : Value} (hv : v ∈ args) :
    v.operandElt.Widens (op.inputOf args) := by
  have hjoined : v.operandElt.Widens (joinElts (args.map operandElt)) :=
    widens_joinElts (List.mem_map_of_mem hv)
  have hinput (joined : ElemType) : joined.Widens (inputElt .arith joined) := by
    cases joined <;> decide
  unfold inputOf
  rw [hcategory]
  exact hjoined.trans (hinput _)

theorem ElemType.not_isFloat_of_widens {elt input : ElemType} (hwidens : elt.Widens input)
    (hinteger : input.isInteger) : ¬elt.isFloat := by
  revert hwidens hinteger
  cases elt <;> cases input <;> decide

/-- An element of an integer type is not changed by converting it to a wider one. -/
theorem Scalar.cast_of_widens {x : Scalar} {elt input : ElemType} (hx : elt.Holds x)
    (hwidens : elt.Widens input) (hinteger : input.isInteger) : x.cast input = .int x.toInt64 := by
  cases x with
  | bool b =>
    cases input with
    | bool | float32 | float64 => cases hinteger
    | _ => cases b <;> rfl
  | int n =>
    obtain ⟨helt, hlower, hupper⟩ := hx
    have hembeds : elt.Embeds input := by
      refine ⟨hwidens, ?_⟩
      clear hwidens hlower hupper
      revert helt hinteger
      cases elt <;> cases input <;> decide
    obtain ⟨-, hlower', hupper'⟩ := ElemType.bounds_of_embeds helt hembeds
    rw [cast_int hinteger, wrap_of_bounds hinteger (by omega) (by omega)]
    rfl
  | float y =>
    exact absurd hx (ElemType.not_isFloat_of_widens hwidens hinteger)

theorem Scalar.toInt64_eq_zero {x : Scalar} (hx : ∀ y, x ≠ .float y) :
    x.toInt64 = 0 ↔ x.truthy = false := by
  cases x with
  | bool b => cases b <;> decide
  | int n => simp [truthy, toInt64]
  | float y => exact absurd rfl (hx y)

theorem Scalar.naturalType_holds (x : Scalar) : x.naturalType.Holds x := by
  cases x with
  | int n => exact ⟨rfl, n.le_toInt, n.toInt_lt⟩
  | _ => rfl

/-- Every element of the value is as said: a scalar is its own one. -/
def Value.EachElement (s : Store) (P : Scalar → Prop) : Value → Prop
  | .scalar x => P x
  | .array v => ∀ index, Shape.InRange v.shape index → P (v.get s index)
  | _ => True

/-- So is the element that stands at an index of a shape that the value is broadcast to. -/
theorem Value.EachElement.operandAt {v : Value} {P : Scalar → Prop} (h : v.EachElement s P)
    (hoperand : v.IsOperand) {shape : List Nat} (hshape : Shape.BroadcastsTo v.shape shape)
    (hindex : Shape.InRange shape index) : P (operandAt s index v) := by
  cases v with
  | scalar x => exact h
  | array v => exact h _ (hshape.inRange_aligned hindex)
  | _ => cases hoperand

/-- The elements of well-formed views are in the representation of their types. -/
theorem Value.holds_of_wellFormed (h : ∀ v, .array v ∈ args → v.WellFormed s) :
    ∀ v ∈ args, v.EachElement s v.operandElt.Holds := by
  intro v hv
  cases v with
  | scalar x => exact x.naturalType_holds
  | array v => exact fun index hindex => (h v hv).holds_get hindex
  | _ => trivial

section

variable {shape : List Nat} {v : Value} (h : op.Applies args) (hcategory : op.category = .arith)
  (hinteger : (op.inputOf args).isInteger)
  (hholds : ∀ v ∈ args, v.EachElement s v.operandElt.Holds)
  (hshape : Shape.broadcast (args.map Value.shape) = some shape)
  (hindex : Shape.InRange shape index)

include h hholds hshape hindex in
theorem holds_operandAt (hv : v ∈ args) : v.operandElt.Holds (operandAt s index v) := by
  have hmember : v.shape ∈ args.map Value.shape := List.mem_map_of_mem hv
  have hbroadcast := Shape.broadcastsTo_of_broadcast hshape hmember
  exact (hholds v hv).operandAt (h.2 v hv) hbroadcast hindex

include h hcategory hinteger hholds hshape hindex in
/-- Integer arithmetic computes with the elements of its operands as they are. -/
theorem cast_operandAt (hv : v ∈ args) :
    (operandAt s index v).cast (op.inputOf args) = .int (operandAt s index v).toInt64 :=
  Scalar.cast_of_widens (holds_operandAt h hholds hshape hindex hv)
    (Operator.widens_inputOf hcategory hv) hinteger

end

/-- Of operands that hold what their types say, a divisor is converted to zero only if it is zero. -/
theorem zeroDivisor_iff (h : op.Applies args) (hmodulo : op = .modulo)
    (hfloat : ¬(op.inputOf args).isFloat) (hholds : ∀ v ∈ args, v.EachElement s v.operandElt.Holds)
    {shape : List Nat}
    (hshape : Shape.broadcast (args.map Value.shape) = some shape)
    (hindex : Shape.InRange shape index) :
    op.ZeroDivisor args s index
      ↔ ∃ divisor, args[1]? = some divisor ∧ (operandAt s index divisor).truthy = false := by
  have hinteger := Operator.isInteger_inputOf hmodulo hfloat
  have hcategory : op.category = .arith := hmodulo ▸ rfl
  refine exists_congr fun divisor => and_congr_right fun hdivisor => ?_
  have hmem := List.mem_of_getElem? hdivisor
  have hx := holds_operandAt h hholds hshape hindex hmem
  have hwidens := Operator.widens_inputOf hcategory hmem
  have hnumber : ∀ y, operandAt s index divisor ≠ .float y := by
    intro y hy
    rw [hy] at hx
    exact ElemType.not_isFloat_of_widens hwidens hinteger hx
  rw [cast_operandAt h hcategory hinteger hholds hshape hindex hmem, ← Scalar.toInt64_eq_zero hnumber]
  exact ⟨Scalar.int.inj, congrArg Scalar.int⟩

/-! ## Applying an operator -/

/-- Operators apply elementwise. Take any operator and operands. It fails because of its operands exactly if
there are not as many as it takes, or if one is neither a scalar nor an array; because of their shapes exactly
if one is an array and they have no shape in common; and because of a division by zero exactly if it is an
integer remainder with a divisor that is zero at some index. There is no other failure. Otherwise it makes a
scalar of scalars, and else a new array of the common shape. Each element is computed from the elements of the
operands there, converted to the types that the signature expects, and cast to the type that it gives. -/
theorem applyOperator_elementwise (op : Operator) (args : List Value) (s : Store) :
    (applyOperator op args none s = .error (.badOperands op.name (Value.listText s args))
        ↔ ¬op.Applies args)
      ∧ (applyOperator op args none s = .error (.broadcast (args.map Value.shape))
        ↔ op.Applies args ∧ (∃ v, .array v ∈ args)
          ∧ ¬∃ shape, ∀ v ∈ args, Shape.BroadcastsTo v.shape shape)
      ∧ (applyOperator op args none s = .error .divisionByZero
        ↔ op.Applies args ∧ op = .modulo ∧ ¬(op.inputOf args).isFloat
          ∧ ∃ shape, Shape.IsLeastCommon (args.map Value.shape) shape
            ∧ ∃ index, Shape.InRange shape index ∧ op.ZeroDivisor args s index)
      ∧ (∀ e, applyOperator op args none s = .error e →
        e = .badOperands op.name (Value.listText s args) ∨ e = .broadcast (args.map Value.shape)
          ∨ e = .divisionByZero)
      ∧ (∀ f, applyOperator op args none s = .ok f →
        op.Computed args (op.resultOf args) s (f s))
      ∧ (op.Applies args → ∃ types expected, Value.tys? args = some types
        ∧ op.expectedTypes? types = some expected
        ∧ (∀ t ∈ expected, t.elt? = some (op.inputOf args))
        ∧ (op.resultType expected).elt? = some (op.resultOf args))
      ∧ ((∀ v, .array v ∈ args → v.WellFormed s) → op.Applies args → op = .modulo →
        ¬(op.inputOf args).isFloat →
        ∀ shape index, Shape.IsLeastCommon (args.map Value.shape) shape → Shape.InRange shape index →
          (op.ZeroDivisor args s index
            ↔ ∃ divisor, args[1]? = some divisor ∧ (operandAt s index divisor).truthy = false)) := by
  have happlied := applyOperator_applied op args none s
  refine ⟨happlied.badOperands_iff, ?_, ?_, ?_, ?_, ?_, ?_⟩
  · rw [happlied.broadcast_iff]
    refine and_congr_right fun h => ⟨fun hnone => ⟨?_, ?_⟩, fun hall => ?_⟩
    · refine h.exists_array fun hscalars => ?_
      rw [Operator.broadcast_scalars hscalars] at hnone
      cases hnone
    · rintro ⟨shape, hshape⟩
      obtain ⟨least, hleast, -⟩ := Shape.exists_broadcast (List.forall_mem_map.2 hshape)
      rw [hnone] at hleast
      cases hleast
    · by_contra hsome
      obtain ⟨shape, hshape⟩ := Option.ne_none_iff_exists'.1 hsome
      refine hall.2 ⟨shape, fun v hv => ?_⟩
      exact Shape.broadcastsTo_of_broadcast hshape (List.mem_map_of_mem hv)
  · rw [happlied.divisionByZero_iff]
    refine and_congr_right fun h => ?_
    simp only [Shape.broadcast_eq_some_iff, Operator.elementAt?_eq_none h]
    constructor
    · rintro ⟨shape, hshape, index, hindex, hmodulo, hfloat, hzero⟩
      exact ⟨hmodulo, hfloat, shape, hshape, index, hindex, hzero⟩
    · rintro ⟨hmodulo, hfloat, shape, hshape, index, hindex, hzero⟩
      exact ⟨shape, hshape, index, hindex, hmodulo, hfloat, hzero⟩
  · intro e he
    rw [he] at happlied
    cases happlied with
    | badOperands => exact .inl rfl
    | broadcast => exact .inr (.inl rfl)
    | divisionByZero => exact .inr (.inr rfl)
  · intro f hf
    rw [hf] at happlied
    cases happlied with
    | computed h hcomputed => exact hcomputed
  · intro h
    refine ⟨_, _, Value.tys?_operands h.2, Operator.expectedTypes?_eq h, ?_,
      Operator.elt?_resultType h.ne_nil⟩
    intro t ht
    obtain ⟨v, -, rfl⟩ := List.mem_map.1 ht
    exact Operator.elt?_arrayOf _ _
  · intro hwellFormed h hmodulo hfloat shape index hshape hindex
    exact zeroDivisor_iff h hmodulo hfloat (Value.holds_of_wellFormed hwellFormed)
      (Shape.broadcast_eq_some_iff.2 hshape) hindex

/-- The first column of the table. -/
def firstColumn : View :=
  ⟨.int8, 0, [2, 1], [3, 1], 0⟩

/-- The column is divided by the table's corners, last first: each of its elements by a row of them. Nothing is
divided by false, the table and its corners have no shape in common, and one operand is too few. -/
theorem applyOperator_elementwise_corners :
    (∃ f out s', applyOperator .modulo [.array firstColumn, .array Arrays.corners] none Arrays.table.2
          = .ok f
        ∧ f Arrays.table.2 = (.array out, s') ∧ out.elt = .int8 ∧ out.shape = [2, 2]
        ∧ out.toFlat s' = [.int 1, .int 1, .int 1, .int 0])
      ∧ applyOperator .modulo [.array Arrays.table.1, .scalar (.bool false)] none Arrays.table.2
        = .error .divisionByZero
      ∧ applyOperator .add [.array Arrays.table.1, .array Arrays.corners] none Arrays.table.2
        = .error (.broadcast [[2, 3], [2, 2]])
      ∧ applyOperator .add [.scalar (.int 1)] none Arrays.table.2 = .error (.badOperands "add" "(1)") := by
  refine ⟨?_, ?_, ?_, ?_⟩
  · obtain ⟨-, -, -, -, hcomputed, -⟩ := applyOperator_elementwise .modulo
      [.array firstColumn, .array Arrays.corners] Arrays.table.2
    have hok : ∃ f, applyOperator .modulo [.array firstColumn, .array Arrays.corners] none
        Arrays.table.2 = .ok f := ⟨_, rfl⟩
    obtain ⟨f, hf⟩ := hok
    have hmade := hcomputed f hf
    generalize hr : f Arrays.table.2 = r at hmade
    cases hmade with
    | scalar hargs => exact absurd (hargs _ List.mem_cons_self) (by decide)
    | @array out s' harray hshape helt hnew hkept hwellFormed hget =>
      have hout : out.shape = [2, 2] := (Option.some.inj hshape).symm
      have hflat : (out.toFlat s').map some
          = (Shape.indices out.shape).map (Operator.modulo.elementAt?
            [.array firstColumn, .array Arrays.corners] .int8 Arrays.table.2) := by
        unfold View.toFlat
        rw [List.map_map]
        exact List.map_congr_left fun index hindex => (hget index (Shape.mem_indices.1 hindex)).symm
      refine ⟨f, out, s', hf, hr, helt, hout, ?_⟩
      rw [hout] at hflat
      exact List.map_injective_iff.2 (Option.some_injective _) hflat
  · obtain ⟨-, -, hdivision, -, -, -, hzero⟩ := applyOperator_elementwise .modulo
      [.array Arrays.table.1, .scalar (.bool false)] Arrays.table.2
    have hwellFormed : ∀ v, Value.array v ∈ [.array Arrays.table.1, .scalar (.bool false)] →
        v.WellFormed Arrays.table.2 := by
      intro v hv
      obtain rfl : v = Arrays.table.1 := by simpa using hv
      exact View.ofFlat_wellFormed .int8 ∅ rfl
    have hshape : Shape.IsLeastCommon [[2, 3], []] [2, 3] :=
      Shape.broadcast_eq_some_iff.1 (by decide)
    have hindex : Shape.InRange [2, 3] [0, 1] := by decide
    refine hdivision.2 ⟨by decide, rfl, by decide, [2, 3], hshape, [0, 1], hindex, ?_⟩
    exact (hzero hwellFormed (by decide) rfl (by decide) [2, 3] [0, 1] hshape hindex).2 ⟨_, rfl, rfl⟩
  · obtain ⟨-, hbroadcast, -⟩ := applyOperator_elementwise .add
      [.array Arrays.table.1, .array Arrays.corners] Arrays.table.2
    refine hbroadcast.2 ⟨by decide, ⟨_, List.mem_cons_self⟩, ?_⟩
    rintro ⟨shape, hshape⟩
    obtain ⟨least, hleast, -⟩ := Shape.exists_broadcast (List.forall_mem_map.2 hshape)
    have hnone : Shape.broadcast [[2, 3], [2, 2]] = none := by decide
    exact nomatch hleast.symm.trans hnone
  · obtain ⟨hbad, -⟩ := applyOperator_elementwise .add [.scalar (.int 1)] Arrays.table.2
    exact hbad.2 (by decide)

end ArrayLang
