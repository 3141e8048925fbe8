import ArrayLang.Array.View
import Mathlib.Data.List.Forall2
import Mathlib.Data.List.GetD
import Mathlib.Data.List.InsertIdx
import Mathlib.Tactic.Ring

/-!
# Where the elements of a view lie

A view is laid out in a block when every index of its shape goes to a cell of the block, and no two
go to the same cell. New arrays are laid out in their own block, since row-major distances are the
digits of a mixed radix. A selection is laid out wherever the view is that it selects from: each of
its indices stands for one of that view, at the same address.

## Main results

- `LaidOut.contiguous`: a new array is laid out in the cells of its elements.
- `Slice.resolve_on`: a slice names positions of its axis only.
- `LaidOut.select`: what subscripts select is laid out as well, for steps of any sign and size.
-/

namespace ArrayLang

/-! ## Indices of a shape -/

namespace Shape

variable {shape dims index : List Nat} {dim i : Nat}

/-- The index has one coordinate for each axis of the shape, within the length of the axis. -/
def InRange (shape index : List Nat) : Prop :=
  List.Forall₂ (· < ·) index shape

instance (shape index : List Nat) : Decidable (InRange shape index) :=
  inferInstanceAs (Decidable (List.Forall₂ (· < ·) index shape))

theorem inRange_cons : InRange (dim :: dims) (i :: index) ↔ i < dim ∧ InRange dims index :=
  List.forall₂_cons

theorem InRange.length_eq (h : InRange shape index) : index.length = shape.length :=
  List.Forall₂.length_eq h

/-- The indices of a shape are the ones in its range. -/
theorem mem_indices : index ∈ indices shape ↔ InRange shape index := by
  induction shape generalizing index with
  | nil => simp [indices, InRange]
  | cons dim dims ih =>
    cases index with
    | nil => simp [indices_cons, InRange]
    | cons i index => simp [indices_cons, inRange_cons, ih]

theorem length_indices (shape : List Nat) : (indices shape).length = size shape := by
  induction shape with
  | nil => rfl
  | cons dim dims ih => simp [indices_cons, size, ih]

theorem length_contiguousStrides (shape : List Nat) :
    (contiguousStrides shape).length = shape.length := by
  induction shape with
  | nil => rfl
  | cons dim dims ih => rw [contiguousStrides, List.length_cons, List.length_cons, ih]

/-- In row-major order an index lies among the elements of the shape. -/
theorem distance_contiguous (h : InRange shape index) :
    0 ≤ View.distance index (contiguousStrides shape)
      ∧ View.distance index (contiguousStrides shape) < size shape := by
  induction h with
  | nil => exact ⟨le_refl 0, Int.one_pos⟩
  | @cons i dim index dims hi _ ih =>
    obtain ⟨hnonneg, hlt⟩ := ih
    -- What lies in row `i` ends before row `i + 1` starts.
    have hscaled : ((i : Int) + 1) * size dims ≤ dim * size dims :=
      Int.mul_le_mul_of_nonneg_right (by omega) (by omega)
    have hsize : (size (dim :: dims) : Int) = dim * size dims := Nat.cast_mul dim (size dims)
    have hfirst : (0 : Int) ≤ i * size dims := Int.mul_nonneg (by omega) (by omega)
    rw [add_mul, one_mul] at hscaled
    show 0 ≤ (i : Int) * size dims + _ ∧ (i : Int) * size dims + _ < (size (dim :: dims) : Int)
    rw [hsize]
    omega

/-- In row-major order an index is known by its distance: the first coordinate is the quotient by the
size of what follows, and the others make up the rest. -/
theorem distance_contiguous_injective {index' : List Nat} (h : InRange shape index)
    (h' : InRange shape index')
    (heq : View.distance index (contiguousStrides shape)
      = View.distance index' (contiguousStrides shape)) : index = index' := by
  induction h generalizing index' with
  | nil => exact (List.forall₂_nil_right_iff.1 h').symm
  | @cons i dim index dims hi hindex ih =>
    obtain ⟨i', index', hi', hindex', rfl⟩ := List.forall₂_cons_right_iff.1 h'
    obtain ⟨hnonneg, hlt⟩ := distance_contiguous hindex
    obtain ⟨hnonneg', hlt'⟩ := distance_contiguous hindex'
    have hsize : (size dims : Int) ≠ 0 := by omega
    have hquotient (j : Nat) (rest : Int) (h0 : 0 ≤ rest) (h1 : rest < size dims) :
        ((j : Int) * size dims + rest) / size dims = j := by
      rw [add_comm, Int.add_mul_ediv_right _ _ hsize, Int.ediv_eq_zero_of_lt h0 h1, zero_add]
    have hsum : (i : Int) * size dims + View.distance index (contiguousStrides dims)
        = i' * size dims + View.distance index' (contiguousStrides dims) := heq
    have hfirst : (i : Int) = i' := by
      rw [← hquotient i _ hnonneg hlt, hsum, hquotient i' _ hnonneg' hlt']
    obtain rfl : i = i' := by omega
    rw [ih hindex' (by omega)]

end Shape

/-! ## Positions of a slice -/

/-- The positions lie on an axis of length `len`, and no two are the same. -/
structure AxisRange.On (r : AxisRange) (len : Nat) : Prop where
  step : r.step ≠ 0
  bounds : ∀ k < r.count, 0 ≤ r.start + k * r.step ∧ r.start + k * r.step < len

namespace Slice

variable {s : Slice} {r : AxisRange} {start stop step : Int} {len k : Nat}

/-- Upwards, the steps that are counted are those that stay before the stop. -/
theorem lt_steps_up_iff (hstep : 0 < step) :
    k < steps start stop step ↔ start + k * step < stop := by
  have hdown : ¬(step < 0 ∧ stop < start) := by omega
  have hnonneg : 0 ≤ k * step := Int.mul_nonneg (by omega) (by omega)
  unfold steps
  by_cases hup : 0 < step ∧ start < stop
  · rw [if_pos hup]
    have hround : k < ((stop - start + step - 1) / step).toNat
        ↔ (k : Int) + 1 ≤ (stop - start + step - 1) / step := by omega
    rw [hround, Int.le_ediv_iff_mul_le hstep, add_mul, one_mul]
    omega
  · rw [if_neg hup, if_neg hdown]
    omega

/-- Downwards counts as many steps as upwards between the mirrored ends. -/
theorem steps_neg (hstep : step < 0) :
    steps start stop step = steps (-start) (-stop) (-step) := by
  unfold steps
  rw [if_neg (by omega), if_neg (by omega : ¬(-step < 0 ∧ -stop < -start))]
  by_cases hdown : step < 0 ∧ stop < start
  · rw [if_pos hdown, if_pos (by omega)]
    congr 2
    omega
  · rw [if_neg hdown, if_neg (by omega)]

theorem on_up (hstep : 0 < step) (hstart : 0 ≤ start) (hstop : stop ≤ len) :
    (⟨start, steps start stop step, step⟩ : AxisRange).On len := by
  refine ⟨Int.ne_of_gt hstep, fun k hk => ?_⟩
  have hlt := (lt_steps_up_iff hstep).1 hk
  have hnonneg : 0 ≤ k * step := Int.mul_nonneg (by omega) (by omega)
  dsimp only
  omega

theorem on_down (hstep : step < 0) (hstart : start ≤ len - 1) (hstop : -1 ≤ stop) :
    (⟨start, steps start stop step, step⟩ : AxisRange).On len := by
  refine ⟨Int.ne_of_lt hstep, fun k hk => ?_⟩
  -- Mirrored, the range goes upwards.
  have hlt : -start + k * -step < -stop := (lt_steps_up_iff (by omega)).1 (steps_neg hstep ▸ hk)
  have hnonneg : 0 ≤ k * -step := Int.mul_nonneg (by omega) (by omega)
  rw [Int.mul_neg] at hlt hnonneg
  dsimp only
  omega

/-- A bound of a slice is clamped, and one that is missing is at an end. -/
theorem bound_clamped (given? : Option Int64) {lower upper missing : Int} (hlower : lower ≤ 0)
    (hlen : len ≤ upper + 1) (hmissing : lower ≤ missing ∧ missing ≤ upper) :
    lower ≤ (match given? with | some b => clamp len lower upper b.toInt | none => missing)
      ∧ (match given? with | some b => clamp len lower upper b.toInt | none => missing)
        ≤ upper := by
  cases given? with
  | none => exact hmissing
  | some b =>
    dsimp only
    unfold clamp
    split <;> omega

/-- A slice names positions of its axis only. -/
theorem resolve_on (h : s.resolve len = .ok r) : r.On len := by
  unfold resolve at h
  generalize (s.step?.map Int64.toInt).getD 1 = step at h
  dsimp only at h
  by_cases hzero : step = 0
  · rw [if_pos hzero] at h
    cases h
  rw [if_neg hzero] at h
  cases h
  -- Both bounds are clamped to one interval, which depends on the direction only.
  by_cases hneg : step < 0
  · simp only [if_pos hneg]
    refine on_down hneg (bound_clamped s.start? ?_ ?_ ?_).2 (bound_clamped s.stop? ?_ ?_ ?_).1
    all_goals omega
  · simp only [if_neg hneg]
    refine on_up (by omega) (bound_clamped s.start? ?_ ?_ ?_).1 (bound_clamped s.stop? ?_ ?_ ?_).2
    all_goals omega

end Slice

/-! ## Indices of a selection -/

namespace View

variable {v w : View} {shape index index' : List Nat} {strides : List Int} {axis i n : Nat}
  {r : AxisRange}

/-- An index without an axis, put back on a position of that axis. -/
theorem inRange_insertIdx (hi : i < shape.getD axis 0)
    (h : Shape.InRange (shape.eraseIdx axis) index) :
    Shape.InRange shape (index.insertIdx axis i) := by
  induction axis generalizing shape index with
  | zero =>
    cases shape with
    | nil => exact absurd hi (Nat.not_lt_zero i)
    | cons dim dims => exact .cons hi h
  | succ axis ih =>
    cases shape with
    | nil => exact absurd hi (Nat.not_lt_zero i)
    | cons dim dims =>
      obtain ⟨k, index, hk, hindex, rfl⟩ := List.forall₂_cons_right_iff.1 h
      exact .cons hk (ih hi hindex)

theorem distance_insertIdx (hrank : strides.length = index.length + 1)
    (haxis : axis ≤ index.length) :
    distance (index.insertIdx axis i) strides
      = i * strides.getD axis 0 + distance index (strides.eraseIdx axis) := by
  induction axis generalizing index strides with
  | zero =>
    cases strides with
    | nil => cases hrank
    | cons stride strides => rfl
  | succ axis ih =>
    cases strides with
    | nil => cases hrank
    | cons stride strides =>
      cases index with
      | nil => exact absurd haxis (Nat.not_succ_le_zero axis)
      | cons k index =>
        have hrest := ih (Nat.succ.inj hrank) (Nat.le_of_succ_le_succ haxis)
        show (k : Int) * stride + distance (index.insertIdx axis i) strides
          = i * strides.getD axis 0 + (k * stride + distance index (strides.eraseIdx axis))
        rw [hrest]
        ring

/-- The position on the axis that the `k`-th position of a range is. -/
def rangePosition (r : AxisRange) (k : Nat) : Nat :=
  (r.start + k * r.step).toNat

theorem rangePosition_cast {len k : Nat} (hr : r.On len) (hk : k < r.count) :
    (rangePosition r k : Int) = r.start + k * r.step :=
  Int.toNat_of_nonneg (hr.bounds k hk).1

/-- Different steps of a range lead to different positions, since it goes one way. -/
theorem rangePosition_injective {len k k' : Nat} (hr : r.On len) (hk : k < r.count)
    (hk' : k' < r.count) (heq : rangePosition r k = rangePosition r k') : k = k' := by
  have hsum : r.start + k * r.step = r.start + k' * r.step := by
    rw [← rangePosition_cast hr hk, heq, rangePosition_cast hr hk']
  have hproduct : (k : Int) * r.step = k' * r.step := by omega
  exact Int.ofNat.inj (Int.eq_of_mul_eq_mul_right hr.step hproduct)

/-- What the coordinate on the axis of a slice stands for: the position of the range, and the other
coordinates as they are. -/
theorem inRange_modify (hr : r.On (shape.getD axis 0)) (haxis : axis < shape.length)
    (h : Shape.InRange (shape.set axis r.count) index) :
    Shape.InRange shape (index.modify axis (rangePosition r)) := by
  induction axis generalizing shape index with
  | zero =>
    cases shape with
    | nil => cases haxis
    | cons dim dims =>
      obtain ⟨k, index, hk, hindex, rfl⟩ := List.forall₂_cons_right_iff.1 h
      have hlt := (hr.bounds k hk).2
      have hcast := rangePosition_cast hr hk
      have hdim : (dim :: dims).getD 0 0 = dim := rfl
      exact .cons (by omega) hindex
  | succ axis ih =>
    cases shape with
    | nil => cases haxis
    | cons dim dims =>
      obtain ⟨k, index, hk, hindex, rfl⟩ := List.forall₂_cons_right_iff.1 h
      exact .cons hk (ih hr (Nat.lt_of_succ_lt_succ haxis) hindex)

theorem distance_modify (hr : r.On (shape.getD axis 0)) (haxis : axis < shape.length)
    (hrank : strides.length = shape.length) (h : Shape.InRange (shape.set axis r.count) index) :
    distance (index.modify axis (rangePosition r)) strides
      = r.start * strides.getD axis 0
        + distance index (strides.set axis (strides.getD axis 0 * r.step)) := by
  induction axis generalizing shape index strides with
  | zero =>
    cases shape with
    | nil => cases haxis
    | cons dim dims =>
      obtain ⟨k, index, hk, hindex, rfl⟩ := List.forall₂_cons_right_iff.1 h
      cases strides with
      | nil => cases hrank
      | cons stride strides =>
        show (rangePosition r k : Int) * stride + distance index strides
          = r.start * stride + (k * (stride * r.step) + distance index strides)
        rw [rangePosition_cast hr hk]
        ring
  | succ axis ih =>
    cases shape with
    | nil => cases haxis
    | cons dim dims =>
      obtain ⟨k, index, hk, hindex, rfl⟩ := List.forall₂_cons_right_iff.1 h
      cases strides with
      | nil => cases hrank
      | cons stride strides =>
        have hrest := ih hr (Nat.lt_of_succ_lt_succ haxis) (Nat.succ.inj hrank) hindex
        show (k : Int) * stride + distance (index.modify axis (rangePosition r)) strides
          = r.start * strides.getD axis 0 + (k * stride
            + distance index (strides.set axis (strides.getD axis 0 * r.step)))
        rw [hrest]
        ring

theorem modify_injective (hr : r.On (shape.getD axis 0)) (haxis : axis < shape.length)
    (h : Shape.InRange (shape.set axis r.count) index)
    (h' : Shape.InRange (shape.set axis r.count) index')
    (heq : index.modify axis (rangePosition r) = index'.modify axis (rangePosition r)) :
    index = index' := by
  induction axis generalizing shape index index' with
  | zero =>
    cases shape with
    | nil => cases haxis
    | cons dim dims =>
      obtain ⟨k, index, hk, hindex, rfl⟩ := List.forall₂_cons_right_iff.1 h
      obtain ⟨k', index', hk', hindex', rfl⟩ := List.forall₂_cons_right_iff.1 h'
      obtain ⟨hfirst, hrest⟩ := List.cons.inj heq
      rw [rangePosition_injective hr hk hk' hfirst, hrest]
  | succ axis ih =>
    cases shape with
    | nil => cases haxis
    | cons dim dims =>
      obtain ⟨k, index, hk, hindex, rfl⟩ := List.forall₂_cons_right_iff.1 h
      obtain ⟨k', index', hk', hindex', rfl⟩ := List.forall₂_cons_right_iff.1 h'
      obtain ⟨hfirst, hrest⟩ := List.cons.inj heq
      rw [hfirst, ih hr (Nat.lt_of_succ_lt_succ haxis) hindex hindex' hrest]

theorem rank_indexAxis (haxis : axis < v.rank) (i : Nat) : (v.indexAxis axis i).rank = v.rank - 1 :=
  List.length_eraseIdx_of_lt haxis

theorem rank_sliceAxis (v : View) (axis : Nat) (r : AxisRange) : (v.sliceAxis axis r).rank = v.rank :=
  List.length_set

/-- On the axis of a range, an index has the number of a position of the range. -/
theorem lt_count_of_inRange (haxis : axis < shape.length)
    (h : Shape.InRange (shape.set axis r.count) index) : index.getD axis 0 < r.count := by
  have haxis' : axis < (shape.set axis r.count).length := by rwa [List.length_set]
  have hindex : axis < index.length := h.length_eq ▸ haxis'
  have hlt := List.Forall₂.get h hindex haxis'
  rw [List.get_eq_getElem, List.get_eq_getElem, List.getElem_set_self] at hlt
  rwa [List.getD_eq_getElem _ _ hindex]

/-- An index of the view of a position on an axis has the address of that index of the view, with the
position put back. -/
theorem indexAxis_address (hrank : v.strides.length = v.shape.length)
    (hi : i < v.shape.getD axis 0) (h : Shape.InRange (v.indexAxis axis i).shape index) :
    (v.indexAxis axis i).offset + distance index (v.indexAxis axis i).strides
      = v.offset + distance (index.insertIdx axis i) v.strides := by
  -- A position in range means that there is such an axis.
  have haxis : axis < v.shape.length := by
    by_contra hout
    rw [List.getD_eq_default _ _ (Nat.le_of_not_lt hout)] at hi
    exact Nat.not_lt_zero i hi
  have hlength : index.length = v.shape.length - 1 :=
    h.length_eq.trans (List.length_eraseIdx_of_lt haxis)
  rw [distance_insertIdx (by omega) (by omega)]
  exact Int.add_assoc _ _ _

/-- An index of the view of a range of positions has the address of that index of the view, with its
coordinate on the axis moved to the position it stands for. -/
theorem sliceAxis_address (hrank : v.strides.length = v.shape.length) (haxis : axis < v.rank)
    (hr : r.On (v.shape.getD axis 0)) (h : Shape.InRange (v.sliceAxis axis r).shape index) :
    (v.sliceAxis axis r).offset + distance index (v.sliceAxis axis r).strides
      = v.offset + distance (index.modify axis (rangePosition r)) v.strides := by
  -- The offset moves for a range that has positions only, and this one has: an index is in it.
  show (if 0 < r.count then v.offset + r.start * v.strides.getD axis 0 else v.offset)
    + distance index (v.strides.set axis (v.strides.getD axis 0 * r.step)) = _
  have hcount : 0 < r.count := Nat.zero_lt_of_lt (lt_count_of_inRange haxis h)
  rw [if_pos hcount, distance_modify hr haxis hrank h]
  exact Int.add_assoc _ _ _

/-- A position that is found is one of the axis. -/
theorem resolveIndex_lt {given : Int} {len : Nat} (h : resolveIndex given len = .ok i) : i < len := by
  unfold resolveIndex at h
  dsimp only at h
  by_cases hout : (if given < 0 then given + len else given) < 0
      ∨ (len : Int) ≤ if given < 0 then given + len else given
  · rw [if_pos hout] at h
    cases h
  · rw [if_neg hout] at h
    cases h
    omega

/-- What holds of a view holds of what subscripts select from it, if it is kept by taking a position
of an axis and by taking a range of them. -/
theorem selectFrom_induct {P : View → Prop}
    (hindex : ∀ v axis i, i < v.shape.getD axis 0 → P v → P (v.indexAxis axis i))
    (hslice : ∀ v axis r, axis < v.rank → r.On (v.shape.getD axis 0) → P v → P (v.sliceAxis axis r))
    {items : List Subscript} (haxis : axis + items.length ≤ v.rank) (hv : P v)
    (h : v.selectFrom axis items = .ok w) : P w := by
  induction items generalizing v axis with
  | nil =>
    cases h
    exact hv
  | cons item items ih =>
    rw [List.length_cons] at haxis
    have hlt : axis < v.shape.length := Nat.lt_of_lt_of_le (by omega) haxis
    cases item with
    | «at» index =>
      rw [selectFrom] at h
      cases hi : resolveIndex index.toInt (v.shape.getD axis 0) with
      | error e =>
        rw [hi] at h
        cases h
      | ok i =>
        rw [hi] at h
        -- One subscript and one axis fewer are left.
        have hrank := rank_indexAxis hlt i
        exact ih (by omega) (hindex v axis i (resolveIndex_lt hi) hv) h
    | slice slice =>
      rw [selectFrom] at h
      cases hr : slice.resolve (v.shape.getD axis 0) with
      | error e =>
        rw [hr] at h
        cases h
      | ok range =>
        rw [hr] at h
        have hrank := rank_sliceAxis v axis range
        exact ih (by omega) (hslice v axis range hlt (Slice.resolve_on hr) hv) h

theorem select_induct {P : View → Prop}
    (hindex : ∀ v axis i, i < v.shape.getD axis 0 → P v → P (v.indexAxis axis i))
    (hslice : ∀ v axis r, axis < v.rank → r.On (v.shape.getD axis 0) → P v → P (v.sliceAxis axis r))
    {items : List Subscript} (hv : P v) (h : v.select items = .ok w) : P w := by
  unfold select at h
  split at h
  · cases h
  · exact selectFrom_induct hindex hslice (by omega) hv h

/-- A selection is a view of the same block, in the same element type. -/
theorem select_block {items : List Subscript} (h : v.select items = .ok w) : w.block = v.block :=
  select_induct (P := (·.block = v.block)) (fun _ _ _ _ h => h) (fun _ _ _ _ _ h => h) rfl h

theorem select_elt {items : List Subscript} (h : v.select items = .ok w) : w.elt = v.elt :=
  select_induct (P := (·.elt = v.elt)) (fun _ _ _ _ h => h) (fun _ _ _ _ _ h => h) rfl h

/-! ## Views that are laid out -/

/-- Every index of the view's shape goes to one of `n` cells, and no two go to the same cell. -/
structure LaidOut (v : View) (n : Nat) : Prop where
  rank : v.strides.length = v.shape.length
  /-- No address lies before the first cell. -/
  exact {index : List Nat} (h : Shape.InRange v.shape index) :
    (v.position index : Int) = v.offset + distance index v.strides
  inside {index : List Nat} (h : Shape.InRange v.shape index) : v.position index < n
  distinct {index index' : List Nat} (h : Shape.InRange v.shape index)
    (h' : Shape.InRange v.shape index') (heq : v.position index = v.position index') :
    index = index'

namespace LaidOut

/-- A new array is laid out in the cells of its elements. -/
theorem contiguous (elt : ElemType) (block : Nat) (shape : List Nat) :
    LaidOut ⟨elt, block, shape, Shape.contiguousStrides shape, 0⟩ (Shape.size shape) := by
  have hexact {index : List Nat} (h : Shape.InRange shape index) :
      ((position ⟨elt, block, shape, Shape.contiguousStrides shape, 0⟩ index : Nat) : Int)
        = distance index (Shape.contiguousStrides shape) := by
    have hnonneg := (Shape.distance_contiguous h).1
    show (((0 : Int) + distance index (Shape.contiguousStrides shape)).toNat : Int) = _
    omega
  refine ⟨Shape.length_contiguousStrides shape, fun {index} h => ?_, fun {index} h => ?_,
    fun h h' heq => ?_⟩
  · rw [hexact h]
    exact (zero_add _).symm
  · have hlt : distance index (Shape.contiguousStrides shape) < Shape.size shape :=
      (Shape.distance_contiguous h).2
    have hposition := hexact h
    omega
  · refine Shape.distance_contiguous_injective h h' ?_
    rw [← hexact h, heq, hexact h']

/-- A view whose indices stand for different indices of another, at the same addresses, is laid out
where that one is. -/
theorem of_standsFor (hv : v.LaidOut n) (f : List Nat → List Nat)
    (hrank : w.strides.length = w.shape.length)
    (hrange : ∀ index, Shape.InRange w.shape index → Shape.InRange v.shape (f index))
    (haddress : ∀ index, Shape.InRange w.shape index →
      w.offset + distance index w.strides = v.offset + distance (f index) v.strides)
    (hinjective : ∀ index index', Shape.InRange w.shape index → Shape.InRange w.shape index' →
      f index = f index' → index = index') : w.LaidOut n := by
  have hposition {index : List Nat} (h : Shape.InRange w.shape index) :
      w.position index = v.position (f index) := by
    unfold position
    rw [haddress index h]
  refine ⟨hrank, fun {index} h => ?_, fun {index} h => ?_, fun {index index'} h h' heq => ?_⟩
  · rw [hposition h, haddress index h]
    exact hv.exact (hrange index h)
  · rw [hposition h]
    exact hv.inside (hrange index h)
  · rw [hposition h, hposition h'] at heq
    exact hinjective index index' h h' (hv.distinct (hrange index h) (hrange index' h') heq)

/-- An index of the view of a position on an axis is that of the view, with the position put back. -/
theorem indexAxis (hv : v.LaidOut n) (hi : i < v.shape.getD axis 0) :
    (v.indexAxis axis i).LaidOut n := by
  refine hv.of_standsFor (·.insertIdx axis i) ?_ (fun index h => inRange_insertIdx hi h)
    (fun index h => indexAxis_address hv.rank hi h)
    (fun index index' _ _ heq => List.insertIdx_injective axis i heq)
  show (v.strides.eraseIdx axis).length = (v.shape.eraseIdx axis).length
  rw [List.length_eraseIdx, List.length_eraseIdx, hv.rank]

/-- An index of the view of a range of positions is that of the view, with its coordinate on the axis
moved to the position it stands for. -/
theorem sliceAxis (hv : v.LaidOut n) (haxis : axis < v.rank) (hr : r.On (v.shape.getD axis 0)) :
    (v.sliceAxis axis r).LaidOut n := by
  refine hv.of_standsFor (·.modify axis (rangePosition r)) ?_
    (fun index h => inRange_modify hr haxis h) (fun index h => sliceAxis_address hv.rank haxis hr h)
    (fun index index' h h' heq => modify_injective hr haxis h h' heq)
  show (v.strides.set axis _).length = (v.shape.set axis _).length
  rw [List.length_set, List.length_set, hv.rank]

/-- What subscripts select is laid out where the view is. -/
theorem select {items : List Subscript} (hv : v.LaidOut n) (h : v.select items = .ok w) :
    w.LaidOut n :=
  select_induct (P := (LaidOut · n)) (fun _ _ _ hi hv => indexAxis hv hi)
    (fun _ _ _ haxis hr hv => sliceAxis hv haxis hr) hv h

end LaidOut
end View
end ArrayLang
