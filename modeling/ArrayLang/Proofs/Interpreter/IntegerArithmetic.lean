import ArrayLang.Proofs.Array.SlicePositions
import ArrayLang.Proofs.Interpreter.Elementwise
import Mathlib.Data.Int.ModEq

/-!
# Integer arithmetic

Arithmetic on integers computes with words of 64 bits that wrap around, whatever the element types are, and
narrows what it has computed to the element type of the result. Both keep the exact result modulo two to the
width of that type, so each element is the one integer of the type's range that is congruent to it. Where the
exact result is in the range already, as remainders, maxima and minima are, it is the element itself.

## Main results

- `Scalar.wrap_modEq`, `Operator.onScalars?_modEq`: narrowing and computing keep the exact result modulo two to
  the width.
- `floorModWords?_eq`: the sum in a remainder does not overflow.
- `applyOperator_integers`: arithmetic on integers is arithmetic in the range of the result's element type.
-/

namespace ArrayLang

/-! ## Remainders -/

/-- The remainder of the division that rounds down, from the one of the division that rounds to zero. -/
theorem fmod_eq_ite (x : Int) {y : Int} (hy : y ≠ 0) : x.fmod y
    = if x.tmod y ≠ 0 ∧ decide (x.tmod y < 0) ≠ decide (y < 0) then x.tmod y + y else x.tmod y := by
  have hnonneg : 0 ≤ x % y := Int.emod_nonneg x hy
  have hlt : x % y < y.natAbs := Int.emod_lt x hy
  have hdvd : y ∣ x ↔ x % y = 0 := Int.dvd_iff_emod_eq_zero
  simp only [Int.fmod_eq_emod, Int.tmod_eq_emod, hdvd, ne_eq, decide_eq_decide]
  split_ifs <;> omega

/-- It lies between zero and the divisor. -/
theorem fmod_bounds (x : Int) {y : Int} (hy : y ≠ 0) :
    (0 ≤ x.fmod y ∧ x.fmod y < y) ∨ (y < x.fmod y ∧ x.fmod y ≤ 0) := by
  have hnonneg : 0 ≤ x % y := Int.emod_nonneg x hy
  have hlt : x % y < y.natAbs := Int.emod_lt x hy
  have hdvd : y ∣ x ↔ x % y = 0 := Int.dvd_iff_emod_eq_zero
  simp only [Int.fmod_eq_emod, hdvd]
  split_ifs <;> omega

/-- `floorModInt?` on integers. There is no remainder if the division is by zero or a sum overflows. -/
def floorModWords? (x y : Int) : Option Int :=
  if y = 0 then none
  else
    let r := x.tmod y
    if r ≠ 0 ∧ (decide (r < 0) ≠ decide (y < 0)) then Slice.word? (r + y) else some r

/-- The summands have different signs. -/
theorem floorModWords?_eq {x y : Int64} (hy : y.toInt ≠ 0) :
    floorModWords? x.toInt y.toInt = some (x.toInt.fmod y.toInt) := by
  have hr : x.toInt.tmod y.toInt = (x % y).toInt := (Int64.toInt_mod x y).symm
  have hrlower := (x % y).le_toInt
  have hrupper := (x % y).toInt_lt
  have hylower := y.le_toInt
  have hyupper := y.toInt_lt
  rw [fmod_eq_ite x.toInt hy, hr]
  unfold floorModWords?
  rw [if_neg hy, hr]
  dsimp only
  split_ifs with hsigns
  · have hdiffer : ¬((x % y).toInt < 0 ↔ y.toInt < 0) := fun h => hsigns.2 (decide_eq_decide.2 h)
    exact Slice.word?_eq_some (by omega) (by omega)
  · rfl

/-! ## Words -/

/-- The number of bits of an element type. -/
def ElemType.width (t : ElemType) : Nat :=
  8 * t.bytes

theorem ElemType.width_le (t : ElemType) : t.width ≤ 64 := by
  cases t <;> decide

/-- An integer of the type's range is the only one that is congruent to it. -/
theorem ElemType.eq_of_modEq {t : ElemType} (ht : t.isInteger) {m n : Int}
    (hm : t.lower ≤ m ∧ m < t.upper) (hn : t.lower ≤ n ∧ n < t.upper)
    (hmod : m ≡ n [ZMOD 2 ^ t.width]) : m = n := by
  have hrange : t.upper - t.lower = 2 ^ t.width := by
    revert ht
    cases t <;> decide
  have hsmall : |n - m| < 2 ^ t.width := by
    rw [abs_lt]
    omega
  have hzero := Int.eq_zero_of_abs_lt_dvd hmod.dvd hsmall
  omega

theorem bmod_modEq {k m : Nat} (h : k ≤ m) (n : Int) : n.bmod (2 ^ m) ≡ n [ZMOD 2 ^ k] := by
  have hmod : n.bmod (2 ^ m) % ((2 ^ m : Nat) : Int) = n % ((2 ^ m : Nat) : Int) := Int.bmod_emod
  rw [Nat.cast_pow] at hmod
  exact Int.ModEq.of_dvd (pow_dvd_pow 2 h) hmod

/-- Narrowing an integer to a type keeps it modulo two to the width of the type. -/
theorem Scalar.wrap_modEq {t : ElemType} (ht : t.isInteger) (n : Int64) :
    (wrap t n).toInt ≡ n.toInt [ZMOD 2 ^ t.width] := by
  have hofInt (m : Int) : (Int64.ofInt m).toInt ≡ m [ZMOD 2 ^ t.width] := by
    rw [Int64.toInt_ofInt]
    exact bmod_modEq t.width_le m
  cases t with
  | bool | float32 | float64 => cases ht
  | uint8 => exact (hofInt _).trans (Int.mod_modEq n.toInt (2 ^ 8))
  | int8 => exact (hofInt _).trans (bmod_modEq (Nat.le_refl 8) n.toInt)
  | int16 => exact (hofInt _).trans (bmod_modEq (Nat.le_refl 16) n.toInt)
  | int32 => exact (hofInt _).trans (bmod_modEq (Nat.le_refl 32) n.toInt)
  | int64 => rfl

/-- The absolute value is one of the integer and its negation. -/
theorem toInt_abs_modEq (x : Int64) : x.abs.toInt ≡ |x.toInt| [ZMOD 2 ^ 64] := by
  have habs : x.abs = if x.toInt < 0 then -x else x := by
    have hmsb : x.toBitVec.msb = decide (x.toInt < 0) := BitVec.msb_eq_toInt
    rw [← Int64.toBitVec_inj, Int64.toBitVec_abs, BitVec.abs_eq, hmsb]
    split_ifs <;> simp_all
  rw [habs]
  by_cases hneg : x.toInt < 0
  · rw [if_pos hneg, abs_of_neg hneg, Int64.toInt_neg]
    exact bmod_modEq (Nat.le_refl 64) _
  · rw [if_neg hneg, abs_of_nonneg (Int.not_lt.1 hneg)]

theorem toInt_max (x y : Int64) : (max x y).toInt = max x.toInt y.toInt := by
  show (if x ≤ y then y else x).toInt = _
  simp only [max_def, Int64.le_iff_toInt_le, apply_ite Int64.toInt]

theorem toInt_min (x y : Int64) : (min x y).toInt = min x.toInt y.toInt := by
  show (if x ≤ y then x else y).toInt = _
  simp only [min_def, Int64.le_iff_toInt_le, apply_ite Int64.toInt]

theorem toInt_ne_zero {x : Int64} (h : x ≠ 0) : x.toInt ≠ 0 := by
  intro hzero
  exact h (Int64.toInt_inj.1 hzero)

theorem floorModInt?_modEq (x : Int64) {y : Int64} (hy : y ≠ 0) :
    ∃ r, floorModInt? x y = some r ∧ r.toInt ≡ x.toInt.fmod y.toInt [ZMOD 2 ^ 64] := by
  unfold floorModInt?
  rw [if_neg hy, fmod_eq_ite x.toInt (toInt_ne_zero hy), ← Int64.toInt_mod]
  refine ⟨_, rfl, ?_⟩
  have hsigns : (x % y ≠ 0 ∧ decide (x % y < 0) ≠ decide (y < 0))
      ↔ (x % y).toInt ≠ 0 ∧ decide ((x % y).toInt < 0) ≠ decide (y.toInt < 0) := by
    simp only [Int64.lt_iff_toInt_lt, ne_eq, ← Int64.toInt_inj, Int64.toInt_zero]
  by_cases h : x % y ≠ 0 ∧ decide (x % y < 0) ≠ decide (y < 0)
  · rw [if_pos h, if_pos (hsigns.1 h), Int64.toInt_add]
    exact bmod_modEq (Nat.le_refl 64) _
  · rw [if_neg h, if_neg (hsigns.not.1 h)]

/-! ## Exact results -/

namespace Operator

/-- The exact result of arithmetic. A remainder is what a division that rounds down leaves. -/
def exactInt? : Operator → List Int → Option Int
  | .add, [x, y] => some (x + y)
  | .subtract, [x, y] => some (x - y)
  | .multiply, [x, y] => some (x * y)
  | .modulo, [x, y] => if y = 0 then none else some (x - y * x.fdiv y)
  | .negative, [x] => some (-x)
  | .abs, [x] => some |x|
  | .maximum, [x, y] => some (max x y)
  | .minimum, [x, y] => some (min x y)
  | _, _ => none

variable {op : Operator} {t : ElemType} {n : Int}

theorem exactInt?_modulo {x y : Int} (h : modulo.exactInt? [x, y] = some n) : y ≠ 0 ∧ n = x.fmod y := by
  change (if y = 0 then none else some (x - y * x.fdiv y)) = some n at h
  split_ifs at h with hy
  rw [Int.fmod_def]
  exact ⟨hy, (Option.some.inj h).symm⟩

theorem exists_exactInt? {operands : List Int} (hcategory : op.category = .arith)
    (hlength : operands.length = op.arity) (hdivisor : op = .modulo → operands[1]? ≠ some 0) :
    ∃ n, op.exactInt? operands = some n := by
  cases op with
  | negative | abs =>
    obtain ⟨x, rfl⟩ := List.length_eq_one_iff.1 hlength
    exact ⟨_, rfl⟩
  | modulo =>
    obtain ⟨x, y, rfl⟩ := List.length_eq_two.1 hlength
    exact ⟨_, if_neg fun hzero => hdivisor rfl (congrArg some hzero)⟩
  | add | subtract | multiply | maximum | minimum =>
    obtain ⟨x, y, rfl⟩ := List.length_eq_two.1 hlength
    exact ⟨_, rfl⟩
  | _ => cases hcategory

/-- Remainders, maxima and minima of integers in the range of a type are in its range. -/
theorem exactInt?_bounds (hop : op = .modulo ∨ op = .maximum ∨ op = .minimum) {operands : List Int}
    (hoperands : ∀ x ∈ operands, t.lower ≤ x ∧ x < t.upper) (h : op.exactInt? operands = some n) :
    t.lower ≤ n ∧ n < t.upper := by
  have hzero : t.lower ≤ 0 ∧ 0 < t.upper := by cases t <;> decide
  match op, operands, h with
  | .modulo, [x, y], h =>
    obtain ⟨hy, rfl⟩ := exactInt?_modulo h
    obtain ⟨-, hbounds, -⟩ := List.forall_mem_cons.1 hoperands |>.imp_right List.forall_mem_cons.1
    rcases fmod_bounds x hy with hr | hr <;> omega
  | .maximum, [x, y], rfl =>
    obtain ⟨hx, hy, -⟩ := List.forall_mem_cons.1 hoperands |>.imp_right List.forall_mem_cons.1
    omega
  | .minimum, [x, y], rfl =>
    obtain ⟨hx, hy, -⟩ := List.forall_mem_cons.1 hoperands |>.imp_right List.forall_mem_cons.1
    omega

/-- Operators compute with words that wrap around, so they compute the exact result modulo two to their width. -/
theorem onScalars?_modEq {input : ElemType} (hinput : ¬input.isFloat) {words : List Int64}
    (h : op.exactInt? (words.map Int64.toInt) = some n) :
    ∃ r : Int64, op.onScalars? input (words.map Scalar.int) = some (.int r)
      ∧ r.toInt ≡ n [ZMOD 2 ^ 64] := by
  have hwraps (m : Int) : m.bmod (2 ^ 64) ≡ m [ZMOD 2 ^ 64] := bmod_modEq (Nat.le_refl 64) m
  unfold onScalars?
  simp only [if_neg hinput]
  match op, words, h with
  | .add, [x, y], rfl => exact ⟨x + y, rfl, Int64.toInt_add x y ▸ hwraps _⟩
  | .subtract, [x, y], rfl => exact ⟨x - y, rfl, Int64.toInt_sub x y ▸ hwraps _⟩
  | .multiply, [x, y], rfl => exact ⟨x * y, rfl, Int64.toInt_mul x y ▸ hwraps _⟩
  | .negative, [x], rfl => exact ⟨-x, rfl, Int64.toInt_neg x ▸ hwraps _⟩
  | .abs, [x], rfl => exact ⟨x.abs, rfl, toInt_abs_modEq x⟩
  | .maximum, [x, y], rfl => exact ⟨max x y, rfl, congrArg (· % _) (toInt_max x y)⟩
  | .minimum, [x, y], rfl => exact ⟨min x y, rfl, congrArg (· % _) (toInt_min x y)⟩
  | .modulo, [x, y], h =>
    obtain ⟨hy, rfl⟩ := exactInt?_modulo h
    have hne : y ≠ 0 := fun hzero => hy (congrArg Int64.toInt hzero)
    obtain ⟨r, hr, hmod⟩ := floorModInt?_modEq x hne
    exact ⟨r, congrArg (Option.map Scalar.int) hr, hmod⟩

end Operator

/-! ## Applying arithmetic to integers -/

/-- What an integer type represents is an integer in its range. -/
theorem ElemType.Holds.exists_int {t : ElemType} {x : Scalar} (ht : t.isInteger) (h : t.Holds x) :
    ∃ n : Int64, x = .int n ∧ t.lower ≤ n.toInt ∧ n.toInt < t.upper := by
  cases x with
  | int n => exact ⟨n, rfl, h.2⟩
  | bool b =>
    have hkind : t.kind = .bool := h
    rw [isInteger, hkind] at ht
    exact absurd ht (by decide)
  | float x =>
    have hkind : t.kind = .float := of_decide_eq_true h
    rw [isInteger, hkind] at ht
    exact absurd ht (by decide)

namespace Value

variable {t : ElemType} {s : Store} {v : Value}

/-- The value is an integer or an array of integers, and all of them are in the range of the type. -/
def IntegersIn (t : ElemType) (s : Store) : Value → Prop
  | .scalar x => t.Holds x
  | .array v =>
    v.elt.isInteger ∧ v.WellFormed s ∧ ∀ index, Shape.InRange v.shape index → t.Holds (v.get s index)
  | _ => False

theorem IntegersIn.isOperand (h : v.IntegersIn t s) : v.IsOperand := by
  cases v with
  | scalar x => trivial
  | array v => trivial
  | _ => cases h

theorem IntegersIn.eachElement (h : v.IntegersIn t s) : v.EachElement s t.Holds := by
  cases v with
  | scalar x => exact h
  | array v => exact h.2.2
  | _ => cases h

theorem IntegersIn.isInteger (ht : t.isInteger) (h : v.IntegersIn t s) : v.operandElt.isInteger := by
  cases v with
  | array v => exact h.1
  | scalar x =>
    obtain ⟨n, rfl, -⟩ := ElemType.Holds.exists_int ht h
    rfl
  | _ => cases h

theorem IntegersIn.holds (h : v.IntegersIn t s) : v.EachElement s v.operandElt.Holds := by
  cases v with
  | scalar x => exact x.naturalType_holds
  | array v => exact fun index hindex => h.2.1.holds_get hindex
  | _ => cases h

end Value

variable {op : Operator} {args : List Value} {s : Store} {t : ElemType} {shape index : List Nat}

open Value (operandElt)

/-- Integers are joined to an integer type. -/
theorem Operator.isInteger_of_operands (hcategory : op.category = .arith) (hargs : args ≠ [])
    (h : ∀ v ∈ args, v.operandElt.isInteger) : (op.inputOf args).isInteger := by
  have hjoin : ∀ a b : ElemType, a.isInteger → b.isInteger → (a.join b).isInteger := by
    intro a b
    cases a <;> cases b <;> decide
  have hinput : ∀ joined : ElemType, joined.isInteger → (inputElt .arith joined).isInteger := by
    intro joined
    cases joined <;> decide
  unfold inputOf
  rw [hcategory]
  refine hinput _ (joinElts_induction (P := fun t => t.isInteger) hjoin (List.map_eq_nil_iff.not.2 hargs) ?_)
  exact List.forall_mem_map.2 h

/-- The integers of the operands at an index. -/
def integersAt (s : Store) (index : List Nat) (args : List Value) : List Int :=
  args.map fun v => (operandAt s index v).toInt64.toInt

theorem mem_integersAt (ht : t.isInteger) (hargs : ∀ v ∈ args, v.IntegersIn t s)
    (hshape : Shape.broadcast (args.map Value.shape) = some shape)
    (hindex : Shape.InRange shape index) :
    ∀ x ∈ integersAt s index args, t.lower ≤ x ∧ x < t.upper := by
  intro x hx
  obtain ⟨v, hv, rfl⟩ := List.mem_map.1 hx
  have hbroadcast := Shape.broadcastsTo_of_broadcast hshape (List.mem_map_of_mem hv)
  have hholds := (hargs v hv).eachElement.operandAt (hargs v hv).isOperand hbroadcast hindex
  obtain ⟨n, hn, hbounds⟩ := hholds.exists_int ht
  rw [hn]
  exact hbounds

/-- Each element is in the range of the type, and it is the exact result modulo two to the type's width. -/
theorem elementAt?_modEq (ht : t.isInteger) (hcategory : op.category = .arith)
    (harity : args.length = op.arity) (hargs : ∀ v ∈ args, v.IntegersIn t s)
    (hshape : Shape.broadcast (args.map Value.shape) = some shape)
    (hindex : Shape.InRange shape index) {exact : Int}
    (hexact : op.exactInt? (integersAt s index args) = some exact) :
    ∃ n : Int64, op.elementAt? args t s index = some (.int n)
      ∧ (t.lower ≤ n.toInt ∧ n.toInt < t.upper) ∧ n.toInt ≡ exact [ZMOD 2 ^ t.width] := by
  have h : op.Applies args := ⟨harity, fun v hv => (hargs v hv).isOperand⟩
  have hinteger := Operator.isInteger_of_operands hcategory h.ne_nil fun v hv => (hargs v hv).isInteger ht
  have hfloat : ¬(op.inputOf args).isFloat := ElemType.not_isFloat_of_widens (.refl _) hinteger
  have hwords : (args.map fun v => (operandAt s index v).cast (op.inputOf args))
      = (args.map fun v => (operandAt s index v).toInt64).map Scalar.int := by
    rw [List.map_map]
    refine List.map_congr_left fun v hv => ?_
    exact cast_operandAt h hcategory hinteger (fun v hv => (hargs v hv).holds) hshape hindex hv
  have hoperands : (args.map fun v => (operandAt s index v).toInt64).map Int64.toInt
      = integersAt s index args := List.map_map
  obtain ⟨r, hr, hmod⟩ := Operator.onScalars?_modEq hfloat (hoperands ▸ hexact)
  refine ⟨Scalar.wrap t r, ?_, Scalar.wrap_bounds ht r, ?_⟩
  · unfold Operator.elementAt?
    rw [hwords, hr]
    exact congrArg some (Scalar.cast_int ht r)
  · exact (Scalar.wrap_modEq ht r).trans (hmod.of_dvd (pow_dvd_pow 2 t.width_le))

/-- Arithmetic on integers is arithmetic in the range of the result's type. Take an integer type and operands
that are integers, or arrays of integers of any type, all in the range of it. If their shapes have one in common
and no divisor is zero, there is a result. Each of its elements is the one integer in the range of the type that
is congruent to the exact result, modulo two to the type's width. Remainders, maxima and minima are exact, and
computing a remainder does not overflow. -/
theorem applyOperator_integers (op : Operator) (ty? : Option Ty) (t : ElemType) (ht : t.isInteger)
    (hresult : (ty?.bind Ty.elt?).getD (op.resultOf args) = t) (hcategory : op.category = .arith)
    (harity : args.length = op.arity) (hargs : ∀ v ∈ args, v.IntegersIn t s)
    (hshape : Shape.IsLeastCommon (args.map Value.shape) shape)
    (hdivisor : op = .modulo → ∀ index, Shape.InRange shape index →
      (integersAt s index args)[1]? ≠ some 0) :
    ∃ f, applyOperator op args ty? s = .ok f ∧ op.Computed args t s (f s)
      ∧ ∀ index, Shape.InRange shape index → ∃ (n : Int64) (exact : Int),
        operandAt (f s).2 index (f s).1 = .int n ∧ op.exactInt? (integersAt s index args) = some exact
        ∧ t.lower ≤ n.toInt ∧ n.toInt < t.upper ∧ n.toInt ≡ exact [ZMOD 2 ^ t.width]
        ∧ (∀ m, t.lower ≤ m → m < t.upper → m ≡ exact [ZMOD 2 ^ t.width] → m = n.toInt)
        ∧ (op = .modulo ∨ op = .maximum ∨ op = .minimum → n.toInt = exact)
        ∧ (op = .modulo → ∀ x y, integersAt s index args = [x, y] →
          floorModWords? x y = some n.toInt) := by
  have happlied := applyOperator_applied op args ty? s
  rw [hresult] at happlied
  have hbroadcast := Shape.broadcast_eq_some_iff.2 hshape
  have helement (index : List Nat) (hindex : Shape.InRange shape index) : ∃ (n : Int64) (exact : Int),
      op.elementAt? args t s index = some (.int n) ∧ op.exactInt? (integersAt s index args) = some exact
        ∧ (t.lower ≤ n.toInt ∧ n.toInt < t.upper) ∧ n.toInt ≡ exact [ZMOD 2 ^ t.width] := by
    have hlength : (integersAt s index args).length = op.arity := (List.length_map _).trans harity
    obtain ⟨exact, hexact⟩ := Operator.exists_exactInt? hcategory hlength fun hmodulo =>
      hdivisor hmodulo index hindex
    obtain ⟨n, hn, hbounds, hmod⟩ := elementAt?_modEq ht hcategory harity hargs hbroadcast hindex hexact
    exact ⟨n, exact, hn, hexact, hbounds, hmod⟩
  have h : op.Applies args := ⟨harity, fun v hv => (hargs v hv).isOperand⟩
  obtain ⟨f, hf, hcomputed⟩ := happlied.exists_result h hbroadcast fun index hindex hnone => by
    obtain ⟨n, -, hn, -⟩ := helement index hindex
    exact nomatch hnone.symm.trans hn
  refine ⟨f, hf, hcomputed, fun index hindex => ?_⟩
  obtain ⟨n, exact, hn, hexact, hbounds, hmod⟩ := helement index hindex
  have helt := Option.some.inj ((hcomputed.element hbroadcast hindex).symm.trans hn)
  have hexactly (hop : op = .modulo ∨ op = .maximum ∨ op = .minimum) : n.toInt = exact := by
    have hoperands := mem_integersAt ht hargs hbroadcast hindex
    exact ElemType.eq_of_modEq ht hbounds (Operator.exactInt?_bounds hop hoperands hexact) hmod
  refine ⟨n, exact, helt, hexact, hbounds.1, hbounds.2, hmod, fun m hlower hupper hm => ?_, hexactly, ?_⟩
  · exact ElemType.eq_of_modEq ht ⟨hlower, hupper⟩ hbounds (hm.trans hmod.symm)
  · intro hmodulo x y hoperands
    have hremainder := hexactly (.inl hmodulo)
    have hx : x ∈ integersAt s index args := hoperands ▸ List.mem_cons_self
    have hy : y ∈ integersAt s index args := hoperands ▸ List.mem_cons_of_mem x List.mem_cons_self
    rw [hmodulo, hoperands] at hexact
    obtain ⟨hne, rfl⟩ := Operator.exactInt?_modulo hexact
    obtain ⟨v, -, rfl⟩ := List.mem_map.1 hx
    obtain ⟨w, -, rfl⟩ := List.mem_map.1 hy
    rw [hremainder]
    exact floorModWords?_eq hne

/-- The smallest byte and a larger one. -/
def smallestByte : View × Store :=
  View.ofFlat .int8 [2] [.int (-128), .int 7] ∅

/-- The product of the smallest byte and minus one wraps around, and the remainder is zero. -/
theorem applyOperator_integers_smallest :
    (∃ f, applyOperator .multiply [.array smallestByte.1, .scalar (.int (-1))] (some (.array .int8 1))
          smallestByte.2 = .ok f
        ∧ ∃ n : Int64, operandAt (f smallestByte.2).2 [0] (f smallestByte.2).1 = .int n ∧ n.toInt = -128)
      ∧ ∃ f, applyOperator .modulo [.array smallestByte.1, .scalar (.int (-1))] (some (.array .int8 1))
          smallestByte.2 = .ok f
        ∧ ∃ n : Int64, operandAt (f smallestByte.2).2 [0] (f smallestByte.2).1 = .int n ∧ n.toInt = 0
          ∧ floorModWords? (-128) (-1) = some 0 := by
  have hargs : ∀ v ∈ [.array smallestByte.1, .scalar (.int (-1))],
      Value.IntegersIn .int8 smallestByte.2 v := by
    intro v hv
    rcases List.mem_pair.1 hv with rfl | rfl
    · refine ⟨rfl, View.ofFlat_wellFormed .int8 ∅ rfl, fun index hindex => ?_⟩
      have hmem : index ∈ [[0], [1]] := Shape.mem_indices.2 hindex
      rcases List.mem_pair.1 hmem with rfl | rfl
      · exact ⟨rfl, by decide, by decide⟩
      · exact ⟨rfl, by decide, by decide⟩
    · exact ⟨rfl, by decide, by decide⟩
  have hshape : Shape.IsLeastCommon [[2], []] [2] := Shape.broadcast_eq_some_iff.1 (by decide)
  have hindex : Shape.InRange [2] [0] := by decide
  refine ⟨?_, ?_⟩
  · obtain ⟨f, hf, -, hget⟩ := applyOperator_integers .multiply (some (.array .int8 1)) .int8 rfl rfl
      rfl rfl hargs hshape nofun
    obtain ⟨n, exact, hn, hexact, -, -, -, honly, -⟩ := hget [0] hindex
    obtain rfl : 128 = exact := Option.some.inj hexact
    exact ⟨f, hf, n, hn, (honly (-128) (by decide) (by decide) (by decide)).symm⟩
  · have hdivisor (index : List Nat) : (integersAt smallestByte.2 index
        [.array smallestByte.1, .scalar (.int (-1))])[1]? ≠ some 0 := by
      show some (-1 : Int) ≠ some 0
      decide
    obtain ⟨f, hf, -, hget⟩ := applyOperator_integers .modulo (some (.array .int8 1)) .int8 rfl rfl
      rfl rfl hargs hshape fun _ index _ => hdivisor index
    obtain ⟨n, exact, hn, hexact, -, -, -, -, hexactly, hwords⟩ := hget [0] hindex
    obtain rfl : 0 = exact := Option.some.inj hexact
    have hzero := hexactly (.inl rfl)
    exact ⟨f, hf, n, hn, hzero, hzero ▸ hwords rfl (-128) (-1) rfl⟩

end ArrayLang
