import ArrayLang.SymbolicShape.Evaluation

/-!
# Folding keeps the value

Shapes are folded as they are built, and evaluated when the arguments are known. The two are told apart
by what they look at: folding drops neutral operands, computes with constants and gives up on what is
unknown, while evaluation goes by the values only. Where every operand is a dimension or unknown,
building a shape anew with folding changes nothing about what it evaluates to, errors included.

Division and remainder are Euclidean on both sides, and both are zero for a divisor that is zero.

## Main results

- `SymbolicShape.eval_fold_eq`: a folded operation evaluates as the operation does.
- `ShapeOp.euclidean_apply`: what quotients and remainders of dimensions are.
- `SymbolicShape.eval_refold`: folding everywhere in a shape keeps its value.
-/

namespace ArrayLang

/-! ## Arithmetic -/

namespace ShapeOp

variable {a b : Int64}

theorem div_apply_one (a : Int64) : div.apply a 1 = a := by
  rw [apply, if_neg (by simp), show (1 : Int64).toInt = 1 from rfl, Int.ediv_one, Int64.ofInt_toInt]

theorem div_apply_zero (a : Int64) : div.apply a 0 = 0 := by
  rw [apply, if_pos (.inl rfl)]

theorem mod_apply_zero (a : Int64) : mod.apply a 0 = 0 := by
  rw [apply, if_pos (.inl rfl)]

/-- The quotient and the remainder of a division that leaves no negative remainder. -/
structure Euclidean (a b quotient remainder : Int64) : Prop where
  sum : b.toInt * quotient.toInt + remainder.toInt = a.toInt
  nonneg : 0 ≤ remainder.toInt
  lt : remainder.toInt < b.toInt.natAbs

/-- A quotient is no larger than its dividend. Only the least integer has no opposite in 64 bits. -/
theorem quotient_le (hb : b ≠ 0) (hfits : ¬(a = .minValue ∧ b = -1)) :
    a.toInt / b.toInt ≤ Int64.maxValue.toInt := by
  have hmax : Int64.maxValue.toInt = 9223372036854775807 := rfl
  have hb : b.toInt ≠ 0 := fun h => hb (Int64.toInt_inj.1 h)
  have hlow := Int64.le_toInt a
  have hblow := Int64.le_toInt b
  have hle : (a.toInt / b.toInt).natAbs ≤ a.toInt.natAbs := Int.natAbs_ediv_le_natAbs ..
  have hhigh := Int64.toInt_lt a
  refine Int.not_lt.1 fun hgt => ?_
  have hquotient : a.toInt / b.toInt = 9223372036854775808 := by omega
  have hmin : a.toInt = -9223372036854775808 := by omega
  have hsum := Int.mul_ediv_add_emod a.toInt b.toInt
  have hrem := Int.emod_nonneg a.toInt hb
  have hremLt := Int.emod_lt a.toInt hb
  rw [hquotient] at hsum
  have hminusOne : b.toInt = -1 := by omega
  exact hfits ⟨Int64.toInt_inj.1 hmin, Int64.toInt_inj.1 hminusOne⟩

/-- Where there is a quotient in 64 bits, division and remainder are Euclidean. -/
theorem euclidean_apply (hb : b ≠ 0) (hfits : ¬(a = .minValue ∧ b = -1)) :
    Euclidean a b (div.apply a b) (mod.apply a b) := by
  have hnonzero : b.toInt ≠ 0 := fun h => hb (Int64.toInt_inj.1 h)
  have hle : (a.toInt / b.toInt).natAbs ≤ a.toInt.natAbs := Int.natAbs_ediv_le_natAbs ..
  have hlow := Int64.le_toInt a
  have hhigh := Int64.toInt_lt a
  have hblow := Int64.le_toInt b
  have hbhigh := Int64.toInt_lt b
  have hrem := Int.emod_nonneg a.toInt hnonzero
  have hremLt := Int.emod_lt a.toInt hnonzero
  have hcases : ¬(b = 0 ∨ (a = .minValue ∧ b = -1)) := not_or.2 ⟨hb, hfits⟩
  have hdiv : (div.apply a b).toInt = a.toInt / b.toInt := by
    rw [apply, if_neg hcases]
    exact Int64.toInt_ofInt_of_le (by omega) (Int.lt_add_one_of_le (quotient_le hb hfits))
  have hmod : (mod.apply a b).toInt = a.toInt % b.toInt := by
    rw [apply, if_neg hcases]
    exact Int64.toInt_ofInt_of_le (by omega) (by omega)
  constructor
  · rw [hdiv, hmod]
    exact Int.mul_ediv_add_emod a.toInt b.toInt
  · rw [hmod]
    exact hrem
  · rw [hmod]
    exact hremLt

end ShapeOp

namespace SymbolicShape

variable {bindings : ShapeBindings} {lhs rhs : SymbolicShape}

/-! ## One operation -/

/-- What an operand comes to: an integer, or that it is unknown. -/
inductive Dimension : Except ShapeEvalError ShapeValue → Prop
  | int (n : Int64) : Dimension (.ok (.int n))
  | unknown : Dimension (.error .unknown)

theorem eval_binop_unknown (op : ShapeOp) (hl : Dimension (lhs.eval bindings)) :
    (binop op lhs unknown).eval bindings = .error .unknown := by
  rw [eval]
  generalize lhs.eval bindings = value at hl
  cases hl <;> rfl

/-- A constant on the right that leaves every integer as it is may be dropped. -/
theorem eval_binop_neutral_right {op : ShapeOp} {n : Int64} (hneutral : ∀ m, op.apply m n = m)
    (hl : Dimension (lhs.eval bindings)) :
    lhs.eval bindings = (binop op lhs (const n)).eval bindings := by
  rw [eval]
  generalize lhs.eval bindings = value at hl
  cases hl with
  | int m =>
    show _ = Except.ok (ShapeValue.int (op.apply m n))
    rw [hneutral]
  | unknown => rfl

/-- And so on the left. -/
theorem eval_binop_neutral_left {op : ShapeOp} {n : Int64} (hneutral : ∀ m, op.apply n m = m)
    (hr : Dimension (rhs.eval bindings)) :
    rhs.eval bindings = (binop op (const n) rhs).eval bindings := by
  rw [eval]
  generalize rhs.eval bindings = value at hr
  cases hr with
  | int m =>
    show _ = Except.ok (ShapeValue.int (op.apply n m))
    rw [hneutral]
  | unknown => rfl

/-- Folding an operation on dimensions leaves its value as it is. -/
theorem eval_fold_eq (op : ShapeOp) (hl : Dimension (lhs.eval bindings))
    (hr : Dimension (rhs.eval bindings)) :
    (fold op lhs rhs).eval bindings = (binop op lhs rhs).eval bindings := by
  unfold fold
  split
  -- An unknown operand.
  · rfl
  · exact (eval_binop_unknown op hl).symm
  -- Two constants. A division by the constant zero stays.
  · rfl
  · rfl
  · rfl
  · split <;> rfl
  · split <;> rfl
  -- One constant, which may be neutral.
  · split
    · rename_i h
      exact eval_binop_neutral_right (fun m => h ▸ Int64.add_zero m) hl
    · rfl
  · split
    · rename_i h
      exact eval_binop_neutral_left (fun m => h ▸ Int64.zero_add m) hr
    · rfl
  · split
    · rename_i h
      exact eval_binop_neutral_right (fun m => h ▸ Int64.sub_zero m) hl
    · rfl
  · split
    · rename_i h
      exact eval_binop_neutral_right (fun m => h ▸ Int64.mul_one m) hl
    · rfl
  · split
    · rename_i h
      exact eval_binop_neutral_left (fun m => h ▸ Int64.one_mul m) hr
    · rfl
  · split
    · rename_i h
      exact eval_binop_neutral_right (fun m => h ▸ ShapeOp.div_apply_one m) hl
    · rfl
  -- No rule applies.
  · rfl

/-! ## Whole shapes -/

mutual
/-- The shape built anew from its leaves up, folding every operation. -/
def refold : SymbolicShape → SymbolicShape
  | var index => var index
  | const value => const value
  | unknown => unknown
  | dim inner i => dim inner.refold i
  | tuple items => tuple (refoldList items)
  | closure name captured => closure name (refoldList captured)
  | binop op lhs rhs => fold op lhs.refold rhs.refold
termination_by structural s => s

def refoldList : List SymbolicShape → List SymbolicShape
  | [] => []
  | s :: ss => s.refold :: refoldList ss
termination_by structural ss => ss
end

mutual
/-- Every operand of every operation in the shape is a dimension or unknown. What a closure captures is
never evaluated. -/
def OnDimensions (bindings : ShapeBindings) : SymbolicShape → Prop
  | binop _ lhs rhs =>
    (Dimension (lhs.eval bindings) ∧ lhs.OnDimensions bindings)
      ∧ (Dimension (rhs.eval bindings) ∧ rhs.OnDimensions bindings)
  | dim inner _ => inner.OnDimensions bindings
  | tuple items => AllOnDimensions bindings items
  | _ => True
termination_by structural s => s

def AllOnDimensions (bindings : ShapeBindings) : List SymbolicShape → Prop
  | [] => True
  | s :: ss => s.OnDimensions bindings ∧ AllOnDimensions bindings ss
termination_by structural ss => ss
end

mutual
/-- The induction is on the shape. What folding sees of an operand is the folded operand, which has the
value that the operand had, and so it is a dimension as well. -/
theorem eval_refold_of_onDimensions : ∀ s : SymbolicShape, s.OnDimensions bindings →
    s.refold.eval bindings = s.eval bindings
  | var _, _ => rfl
  | const _, _ => rfl
  | unknown, _ => rfl
  | closure _ _, _ => rfl
  | dim inner i, h => by
    rw [refold, eval, eval, eval_refold_of_onDimensions inner h]
  | tuple items, h => by
    rw [refold, eval, eval, evalList_refoldList items h]
  | binop op lhs rhs, h => by
    obtain ⟨⟨hl, hlhs⟩, ⟨hr, hrhs⟩⟩ := h
    have heql := eval_refold_of_onDimensions lhs hlhs
    have heqr := eval_refold_of_onDimensions rhs hrhs
    calc (fold op lhs.refold rhs.refold).eval bindings
        = (binop op lhs.refold rhs.refold).eval bindings :=
          eval_fold_eq op (heql ▸ hl) (heqr ▸ hr)
      _ = (binop op lhs rhs).eval bindings := by rw [eval, eval, heql, heqr]
termination_by structural s => s

theorem evalList_refoldList : ∀ ss : List SymbolicShape, AllOnDimensions bindings ss →
    evalList bindings (refoldList ss) = evalList bindings ss
  | [], _ => rfl
  | s :: ss, h => by
    rw [refoldList, evalList, evalList, eval_refold_of_onDimensions s h.1,
      evalList_refoldList ss h.2]
termination_by structural ss => ss
end

/-- Folding everywhere in a shape keeps its value or the error that it evaluates to, whatever the
variables are bound to, if the operands of its operations are integers or unknown. The arithmetic is
that of integers with a remainder that is not negative, and a division by zero gives zero. -/
theorem eval_refold (bindings : ShapeBindings) (s : SymbolicShape) (h : s.OnDimensions bindings) :
    s.refold.eval bindings = s.eval bindings
      ∧ ∀ m n : Int64,
        (n = 0 → ShapeOp.div.apply m n = 0 ∧ ShapeOp.mod.apply m n = 0)
        ∧ (n ≠ 0 → ¬(m = .minValue ∧ n = -1) →
          ShapeOp.Euclidean m n (ShapeOp.div.apply m n) (ShapeOp.mod.apply m n)) := by
  refine ⟨eval_refold_of_onDimensions s h, fun m n => ⟨?_, ShapeOp.euclidean_apply⟩⟩
  rintro rfl
  exact ⟨ShapeOp.div_apply_zero m, ShapeOp.mod_apply_zero m⟩

/-- A quotient by zero and the remainder of a negative number by a negative dimension. -/
def corners : SymbolicShape :=
  .tuple [
    .binop .div (.binop .add (.var 0) (.const 0)) (.binop .sub (.const 2) (.const 2)),
    .binop .mod (.binop .mul (.const 1) (.const (-7))) (.dim (.var 1) 0)]

/-- A number, and an array with one dimension, which is negative. -/
def cornerArgs : ShapeBindings :=
  [(0, .int 5), (1, .tuple [.int (-3)])]

theorem eval_refold_corners :
    corners.refold.eval cornerArgs = .ok (.tuple [.int 0, .int 2])
      ∧ (binop .div (dim (var 1) 0) (binop .sub unknown (const 0))).refold.eval cornerArgs
        = .error .unknown
      ∧ ShapeOp.Euclidean (-7) (-3) 3 2 := by
  have hquotient : OnDimensions cornerArgs
      (.binop .div (.binop .add (.var 0) (.const 0)) (.binop .sub (.const 2) (.const 2))) :=
    ⟨⟨.int 5, ⟨.int 5, trivial⟩, .int 0, trivial⟩, .int 0, ⟨.int 2, trivial⟩, .int 2, trivial⟩
  have hremainder : OnDimensions cornerArgs
      (.binop .mod (.binop .mul (.const 1) (.const (-7))) (.dim (.var 1) 0)) :=
    ⟨⟨.int (-7), ⟨.int 1, trivial⟩, .int (-7), trivial⟩, .int (-3), trivial⟩
  have hunknown : OnDimensions cornerArgs
      (.binop .div (.dim (.var 1) 0) (.binop .sub .unknown (.const 0))) :=
    ⟨⟨.int (-3), trivial⟩, .unknown, ⟨.unknown, trivial⟩, .int 0, trivial⟩
  refine ⟨?_, ?_, ?_⟩
  · exact (eval_refold cornerArgs corners ⟨hquotient, hremainder, trivial⟩).1
  · exact (eval_refold cornerArgs _ hunknown).1
  · exact ((eval_refold cornerArgs _ hunknown).2 (-7) (-3)).2 (by decide) (by decide)

end SymbolicShape
end ArrayLang
