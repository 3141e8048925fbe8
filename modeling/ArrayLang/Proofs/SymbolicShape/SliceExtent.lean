import ArrayLang.Array.Slice
import ArrayLang.SymbolicShape.Inference
import ArrayLang.Proofs.SymbolicShape.Folding

/-!
# Extents of slices

The extent that shape inference gives a slice with a unit step, against the number of positions that
the slice selects when the code runs. Inference takes bounds for positions, and a run moves them into
the axis first. Main result: the two agree exactly when the bounds are equal, or are in order and
within the axis.
-/

namespace ArrayLang

/-! ## Positions -/

namespace Slice

variable {s : Slice} {len : Nat}

/-- The position that a slice with a positive step starts from, before it is moved into the axis. -/
def first (s : Slice) : Int :=
  (s.start?.map Int64.toInt).getD 0

/-- The position that a slice with a positive step stops before, before it is moved into the axis. -/
def last (s : Slice) (len : Nat) : Int :=
  (s.stop?.map Int64.toInt).getD len

/-- The number of positions that a slice with a unit step selects, for bounds that do not count from
the end. -/
def unitCount (s : Slice) (len : Nat) : Nat :=
  (min (s.last len) len - min s.first len).toNat

theorem steps_one (start stop : Int) : steps start stop 1 = (stop - start).toNat := by
  unfold steps
  by_cases h : start < stop
  · have hsteps : stop - start + 1 - 1 = stop - start := by omega
    rw [if_pos ⟨by decide, h⟩, hsteps, Int.ediv_one]
  · rw [if_neg fun hup => h hup.2, if_neg fun hdown => absurd hdown.1 (by decide)]
    omega

theorem clamp_of_nonneg {bound : Int} (h : 0 ≤ bound) : clamp len 0 len bound = min bound len :=
  if_neg (by omega)

theorem resolve_unit (hstep : (s.step?.map Int64.toInt).getD 1 = 1) (hfirst : 0 ≤ s.first)
    (hlast : 0 ≤ s.last len) : s.resolve len = .ok ⟨min s.first len, s.unitCount len, 1⟩ := by
  obtain ⟨start?, stop?, step?⟩ := s
  unfold resolve unitCount
  dsimp only at hstep ⊢
  rw [hstep]
  rw [if_neg (by decide), if_neg (by decide), if_neg (by decide), if_neg (by decide),
    if_neg (by decide), steps_one]
  cases start? with
  | none =>
    have hzero : first ⟨none, stop?, step?⟩ = 0 := rfl
    have hlen : min 0 (len : Int) = 0 := by omega
    rw [hzero, hlen]
    cases stop? with
    | none => simp [last]
    | some stop =>
      have hstop : clamp len 0 len stop.toInt = min stop.toInt len := clamp_of_nonneg hlast
      simp [last, hstop]
  | some start =>
    have hstart : clamp len 0 len start.toInt = min start.toInt len := clamp_of_nonneg hfirst
    cases stop? with
    | none => simp [first, last, hstart]
    | some stop =>
      have hstop : clamp len 0 len stop.toInt = min stop.toInt len := clamp_of_nonneg hlast
      simp [first, last, hstart, hstop]

theorem unitCount_eq_iff :
    (s.unitCount len : Int) = s.last len - s.first
      ↔ s.first = s.last len ∨ s.first ≤ s.last len ∧ s.last len ≤ len := by
  unfold unitCount
  omega

end Slice

/-! ## Folding -/

namespace SymbolicShape

variable {bindings : ShapeBindings} {lhs rhs : SymbolicShape} {a b : Int64}

theorem eval_binop (op : ShapeOp) (hl : lhs.eval bindings = .ok (.int a))
    (hr : rhs.eval bindings = .ok (.int b)) :
    (binop op lhs rhs).eval bindings = .ok (.int (op.apply a b)) := by
  rw [eval, hl, hr]
  rfl

/-- Folding keeps the value of an operation on integers. -/
theorem eval_fold (op : ShapeOp) (hl : lhs.eval bindings = .ok (.int a))
    (hr : rhs.eval bindings = .ok (.int b)) :
    (fold op lhs rhs).eval bindings = .ok (.int (op.apply a b)) := by
  have hl₀ : Dimension (lhs.eval bindings) := hl ▸ .int a
  have hr₀ : Dimension (rhs.eval bindings) := hr ▸ .int b
  rw [eval_fold_eq op hl₀ hr₀, eval_binop op hl hr]

end SymbolicShape

/-! ## Inferred extents -/

namespace ShapeInference

variable {call : Call} {env : AbstractEnv} {bindings : ShapeBindings} {dim? : Option SymbolicShape}
  {start stop : Expr} {step? : Option Expr} {low high : SymbolicShape} {x y : Int64} {s : Slice}
  {len : Nat}

theorem sliceExtent_unit {a b c : Ty} (hstep : isUnitStep step? = true)
    (hlow : sliceBound (.const 0) start (inferExpr call env start) = .ok low)
    (hhigh : sliceBound (dim?.getD .unknown) stop (inferExpr call env stop) = .ok high) :
    sliceExtent call env dim? ⟨.slice start stop step?, some (.slice a b c)⟩
      = .ok [.fold .sub high low] := by
  rw [sliceExtent, hstep, hlow, hhigh]
  rfl

/-- The difference of two positions is the number of positions selected, exactly when the positions
are equal or are in order within the axis. -/
theorem sub_eq_unitCount_iff (hx : x.toInt = s.first) (hy : y.toInt = s.last len)
    (hfirst : 0 ≤ s.first) (hlast : 0 ≤ s.last len) (hlen : (Int64.ofNat len).toInt = len) :
    y - x = Int64.ofNat (s.unitCount len)
      ↔ s.first = s.last len ∨ s.first ≤ s.last len ∧ s.last len ≤ len := by
  have hcount : s.unitCount len ≤ len := by
    unfold Slice.unitCount
    omega
  have hfits := (Int64.ofNat len).toInt_lt
  rw [hlen] at hfits
  have hsub : (y - x).toInt = s.last len - s.first := by
    have hlow := x.toInt_lt
    have hhigh := y.toInt_lt
    rw [Int64.toInt_sub, hx, hy]
    exact Int.bmod_eq_of_le (by omega) (by omega)
  rw [← Int64.toInt_inj, hsub, Int64.toInt_ofNat_of_lt (by omega), ← Slice.unitCount_eq_iff,
    eq_comm]

/-- Take a slice with a unit step, and bounds whose inferred shapes have as values the positions that
the slice starts from and stops before. Then the value of its inferred extent is the number of
positions that it selects, exactly when the two are equal or are in order within the axis. The length
of the axis has to be an integer of 64 bits. -/
theorem sliceExtent_exact_iff {a b c : Ty} (hunit : isUnitStep step? = true)
    (hlow : sliceBound (.const 0) start (inferExpr call env start) = .ok low)
    (hhigh : sliceBound (dim?.getD .unknown) stop (inferExpr call env stop) = .ok high)
    (hx : low.eval bindings = .ok (.int x)) (hy : high.eval bindings = .ok (.int y))
    (hstep : (s.step?.map Int64.toInt).getD 1 = 1) (hfirst : x.toInt = s.first)
    (hlast : y.toInt = s.last len) (hx₀ : 0 ≤ x) (hy₀ : 0 ≤ y) (hlen : (Int64.ofNat len).toInt = len) :
    ∃ extent range,
      sliceExtent call env dim? ⟨.slice start stop step?, some (.slice a b c)⟩ = .ok [extent]
        ∧ s.resolve len = .ok range
        ∧ (extent.eval bindings = .ok (.int (Int64.ofNat range.count))
          ↔ s.first = s.last len ∨ s.first ≤ s.last len ∧ s.last len ≤ len) := by
  have hfirst₀ : 0 ≤ s.first := hfirst ▸ Int64.le_iff_toInt_le.1 hx₀
  have hlast₀ : 0 ≤ s.last len := hlast ▸ Int64.le_iff_toInt_le.1 hy₀
  refine ⟨_, _, sliceExtent_unit hunit hlow hhigh, Slice.resolve_unit hstep hfirst₀ hlast₀, ?_⟩
  have hvalue := SymbolicShape.eval_fold .sub hy hx
  rw [hvalue, ← sub_eq_unitCount_iff hfirst hlast hfirst₀ hlast₀ hlen]
  constructor
  · intro h
    exact ShapeValue.int.inj (Except.ok.inj h)
  · intro h
    rw [← h]
    rfl

/-- The slice from 0 to 5 has the inferred extent 5 on every axis, and selects 3 positions of one of
length 3. -/
example : (⟨some 0, some 5, none⟩ : Slice).resolve 3 = .ok ⟨0, 3, 1⟩ := rfl

end ShapeInference
end ArrayLang
