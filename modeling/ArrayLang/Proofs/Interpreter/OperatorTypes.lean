import ArrayLang.Proofs.Interpreter.Elementwise

/-!
# Types of results

The signature of an operator says the type of a result before there is one. It works on ranks and on the join
of element types, the evaluation on shapes and on elements. They agree on arrays because a common shape has as
many axes as the longest of the shapes. They agree on scalars because a scalar has one of three element types
on its own, and these are closed under joining and under what operators ask for.

## Main results

- `Operator.resultType_eq`: the type of the result, by the shapes of the operands.
- `applyOperator_typed`: the signature has a type exactly for what an operator applies to, and it is the type
  of the result.
-/

namespace ArrayLang

open Value (operandElt operandTy)

variable {op : Operator} {args : List Value} {s : Store} {shape : List Nat}

/-! ## Element types of scalars -/

namespace ElemType

/-- An element type that scalars have on their own. -/
def IsCarrier (t : ElemType) : Prop :=
  t.carrier = t

instance : DecidablePred IsCarrier :=
  fun t => inferInstanceAs (Decidable (t.carrier = t))

theorem IsCarrier.join {a b : ElemType} (ha : a.IsCarrier) (hb : b.IsCarrier) :
    (a.join b).IsCarrier := by
  revert ha hb
  cases a <;> cases b <;> decide

theorem IsCarrier.inputElt {t : ElemType} (h : t.IsCarrier) (category : OperatorCategory) :
    (Operator.inputElt category t).IsCarrier := by
  revert h
  cases category <;> cases t <;> decide

end ElemType

theorem Scalar.isCarrier_naturalType (x : Scalar) : x.naturalType.IsCarrier := by
  cases x <;> rfl

namespace Operator

/-- Operators stay within the element types that scalars have on their own. -/
theorem isCarrier_inputOf (op : Operator) (hargs : args ≠ [])
    (h : ∀ v ∈ args, v.operandElt.IsCarrier) : (op.inputOf args).IsCarrier := by
  have hjoined : (joinElts (args.map operandElt)).IsCarrier :=
    joinElts_induction (fun _ _ => ElemType.IsCarrier.join) (List.map_eq_nil_iff.not.2 hargs)
      (List.forall_mem_map.2 h)
  exact hjoined.inputElt op.category

theorem isCarrier_resultOf (h : (op.inputOf args).IsCarrier) : (op.resultOf args).IsCarrier := by
  unfold resultOf
  cases op.category with
  | arith | float => exact h
  | compare | logical => rfl

/-- Scalars have their element types on their own. -/
theorem isCarrier_of_scalars (op : Operator) (hargs : args ≠ []) (h : ∀ v ∈ args, v.isScalar) :
    (op.resultOf args).IsCarrier := by
  refine isCarrier_resultOf (isCarrier_inputOf op hargs fun v hv => ?_)
  have hscalar := h v hv
  cases v with
  | scalar x => exact x.isCarrier_naturalType
  | _ => cases hscalar

/-! ## The type of the result -/

/-- The result has the rank of the longest shape. -/
theorem resultType_eq (h : args ≠ []) :
    op.resultType (args.map fun v => Ty.arrayOf (op.inputOf args) v.shape.length)
      = Ty.arrayOf (op.resultOf args) (Shape.maxRank (args.map Value.shape)) := by
  have hranks : (args.map fun v => Ty.arrayOf (op.inputOf args) v.shape.length).map Ty.rank
      = (args.map Value.shape).map List.length := by
    rw [List.map_map, List.map_map]
    exact List.map_congr_left fun v _ => rank_arrayOf _ _
  have hrank : ((args.map Value.shape).map List.length).foldl max 0
      = Shape.maxRank (args.map Value.shape) := List.foldl_eq_foldr
  have helt : (op.resultType (args.map fun v =>
      Ty.arrayOf (op.inputOf args) v.shape.length)).elt? = some (op.resultOf args) := elt?_resultType h
  unfold resultType at helt ⊢
  rw [elt?_arrayOf] at helt
  dsimp only
  rw [Option.some.inj helt, hranks, hrank]

end Operator

theorem Shape.length_of_broadcast {shapes : List (List Nat)} (h : broadcast shapes = some shape) :
    shape.length = maxRank shapes := by
  have hagree := agree_of_broadcastsTo (broadcast_eq_some_iff.1 h).common
  obtain rfl : commonShape shapes = shape := Option.some.inj (hagree.broadcast_eq.symm.trans h)
  exact length_commonShape shapes

/-- A result has the type that the signature says. -/
theorem Operator.Computed.ty?_eq {r : Value × Store}
    (h : op.Computed args (op.resultOf args) s r) (hargs : args ≠ [])
    (hrank : ∀ v, .array v ∈ args → 1 ≤ v.rank) :
    r.1.ty? = some (op.resultType
      (args.map fun v => Ty.arrayOf (op.inputOf args) v.shape.length)) := by
  rw [resultType_eq hargs]
  cases h with
  | @scalar x hscalars hx =>
    have hlength := Shape.length_of_broadcast (broadcast_scalars hscalars)
    obtain ⟨y, -, rfl⟩ := Option.map_eq_some_iff.1 hx
    rw [← hlength]
    show some (Ty.scalar (y.cast (op.resultOf args)).naturalType) = some (.scalar (op.resultOf args))
    rw [Scalar.naturalType_cast, isCarrier_of_scalars op hargs hscalars]
  | @array out s' harray hshape helt =>
    obtain ⟨v, hv⟩ := harray
    have hpositive : 1 ≤ Shape.maxRank (args.map Value.shape) :=
      le_trans (hrank v hv) (Shape.length_le_maxRank (List.mem_map_of_mem (f := Value.shape) hv))
    show some (Ty.array out.elt out.shape.length) = _
    rw [helt, Shape.length_of_broadcast hshape, Ty.arrayOf, if_neg (by omega)]

/-- The signature of an operator predicts its results. Take scalars and arrays of rank 1 or more, with any
element types, shapes and views. Their types have an entry in the signature exactly if the operator does not
refuse them, and whenever there is a result, its type is the one that the signature gives. -/
theorem applyOperator_typed (op : Operator) (s : Store) (hargs : ∀ v ∈ args, v.IsOperand)
    (hrank : ∀ v, .array v ∈ args → 1 ≤ v.rank) :
    ∃ types, Value.tys? args = some types
      ∧ ((∃ expected, op.expectedTypes? types = some expected)
        ↔ ∀ name text, applyOperator op args none s ≠ .error (.badOperands name text))
      ∧ ∀ f, applyOperator op args none s = .ok f → ∃ expected,
        op.expectedTypes? types = some expected ∧ (f s).1.ty? = some (op.resultType expected) := by
  have happlied := applyOperator_applied op args none s
  refine ⟨args.map operandTy, Value.tys?_operands hargs, ⟨?_, fun hnot => ?_⟩, fun f hf => ?_⟩
  · rintro ⟨expected, hexpected⟩ name text herror
    have happlies : op.Applies args := by
      obtain ⟨hlength, -⟩ := Operator.expectedTypes?_eq_some hexpected
      rw [List.length_map] at hlength
      exact ⟨hlength, hargs⟩
    rw [herror] at happlied
    cases happlied with
    | badOperands h => exact h happlies
  · by_cases happlies : op.Applies args
    · exact ⟨_, Operator.expectedTypes?_eq happlies⟩
    · exact absurd (happlied.badOperands_iff.2 happlies) (hnot _ _)
  · rw [hf] at happlied
    cases happlied with
    | computed happlies hcomputed =>
      exact ⟨_, Operator.expectedTypes?_eq happlies, hcomputed.ty?_eq happlies.ne_nil hrank⟩

/-- The last row of the table. -/
def lastRow : View :=
  ⟨.int8, 0, [3], [1], 3⟩

/-- A column of bytes is compared to a row of them: truth values of rank 2, as the signature says. -/
theorem applyOperator_typed_column_row :
    (∀ v ∈ [Value.array firstColumn, .array lastRow], v.IsOperand)
      ∧ (∀ v, .array v ∈ [Value.array firstColumn, .array lastRow] → 1 ≤ v.rank)
      ∧ ∃ f, applyOperator .less [.array firstColumn, .array lastRow] none Arrays.table.2 = .ok f
        ∧ (f Arrays.table.2).1.ty? = some (.array .bool 2) := by
  have hoperands : ∀ v ∈ [Value.array firstColumn, .array lastRow], v.IsOperand := by decide
  have hrank : ∀ v, .array v ∈ [Value.array firstColumn, .array lastRow] → 1 ≤ v.rank := by
    intro v hv
    rcases List.mem_pair.1 hv with heq | heq <;> cases heq <;> decide
  obtain ⟨types, htypes, -, htyped⟩ := applyOperator_typed .less Arrays.table.2 hoperands hrank
  obtain rfl : [.array .int8 2, .array .int8 1] = types := Option.some.inj htypes
  have hok : ∃ f, applyOperator .less [.array firstColumn, .array lastRow] none Arrays.table.2
      = .ok f := ⟨_, rfl⟩
  obtain ⟨f, hf⟩ := hok
  obtain ⟨expected, hexpected, hty⟩ := htyped f hf
  obtain rfl : [.array .int8 2, .array .int8 1] = expected := Option.some.inj hexpected
  exact ⟨hoperands, hrank, f, hf, hty⟩

end ArrayLang
