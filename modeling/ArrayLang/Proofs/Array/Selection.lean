import ArrayLang.Proofs.Array.Contents
import ArrayLang.Proofs.Array.SlicePositions

/-!
# What a selection stands for

Subscripts are taken from left to right, each for the next axis of the array. An integer that lies on
its axis, counted from the end if it is negative, fixes the coordinate there and drops the axis. A
slice keeps its axis, and a coordinate on it stands for a position of the slice. What is left of the
axes stays as it is. So an index of the selection stands for one index of the array, and the two are
the same cell: what is read there is the element of the array, and a write changes that element only.

The selection goes on with the axis after a slice, but with the same axis number after an integer,
since that one drops its axis. The lemma that carries the loop is `selectFrom_outcome`; it leaves the
axes before the current one alone.

## Main results

- `selectionFault?`: the first subscript that does not fit its axis.
- `View.select_faithful`: which selections fail, and what the indices of the others stand for.
-/

section Lists
variable {α : Type}

theorem List.insertIdx_append_length (front rest : List α) (x : α) :
    (front ++ rest).insertIdx front.length x = front ++ x :: rest := by
  induction front with
  | nil => rfl
  | cons y front ih => exact congrArg (y :: ·) ih

theorem List.modify_append_length (front rest : List α) (x : α) (f : α → α) :
    (front ++ x :: rest).modify front.length f = front ++ f x :: rest := by
  induction front with
  | nil => rfl
  | cons y front ih => exact congrArg (y :: ·) ih

theorem List.drop_eraseIdx_self {l : List α} {i : Nat} (h : i < l.length) :
    (l.eraseIdx i).drop i = l.drop (i + 1) := by
  have hlength : (l.take i).length = i := List.length_take_of_le (Nat.le_of_lt h)
  rw [List.eraseIdx_eq_take_drop_succ, List.drop_append_of_le_length (Nat.le_of_eq hlength.symm),
    List.drop_of_length_le (Nat.le_of_eq hlength), List.nil_append]

/-- What is known of a list whose part from a position on is known. -/
theorem List.of_drop_eq_cons {l rest : List α} {i : Nat} {x : α} (h : l.drop i = x :: rest) (d : α) :
    i < l.length ∧ l.getD i d = x ∧ l.drop (i + 1) = rest := by
  have hget : l[i]? = some x := by
    rw [← List.head?_drop, h]
    rfl
  have htail : l.drop (i + 1) = rest := by
    rw [← List.tail_drop, h]
    rfl
  refine ⟨(List.getElem?_eq_some_iff.1 hget).1, ?_, htail⟩
  rw [List.getD_eq_getElem?_getD, hget]
  rfl

end Lists

namespace ArrayLang

/-! ## Subscripts of an axis -/

/-- A position counted from the end if it is negative. -/
def fromEnd (index : Int) (len : Nat) : Int :=
  if index < 0 then index + len else index

/-- The positions that a slice selects. -/
def Slice.positions (s : Slice) (len : Nat) : AxisRange :=
  match s.resolve len with
  | .ok r => r
  | .error _ => ⟨0, 0, 1⟩

/-- What is wrong with a subscript of an axis. -/
def Subscript.fault? (len : Nat) : Subscript → Option ArrayError
  | .at index =>
    if -len ≤ index.toInt ∧ index.toInt < len then none
    else some (.indexOutOfBounds index.toInt len)
  | .slice s => if s.step? = some 0 then some .zeroStep else none

/-- What is wrong with the first subscript that does not fit its axis. -/
def firstFault? (items : List Subscript) (shape : List Nat) : Option ArrayError :=
  (items.zip shape).findSome? fun pair => pair.1.fault? pair.2

/-- What is wrong with subscripts of an array, if anything is. -/
def selectionFault? (items : List Subscript) (shape : List Nat) : Option ArrayError :=
  if shape.length < items.length then some (.tooManyIndices shape.length items.length)
  else firstFault? items shape

/-- The shape of a selection: the count of each slice, then the axes without a subscript. -/
def selectedShape : List Subscript → List Nat → List Nat
  | .at _ :: items, _ :: dims => selectedShape items dims
  | .slice s :: items, len :: dims => (s.positions len).count :: selectedShape items dims
  | _, dims => dims

/-- The coordinates in the array of an index of the selection. -/
def coordinates : List Subscript → List Nat → List Nat → List Int
  | .at i :: items, len :: dims, index => fromEnd i.toInt len :: coordinates items dims index
  | .slice s :: items, len :: dims, k :: index =>
    ((s.positions len).start + k * (s.positions len).step) :: coordinates items dims index
  | _, _, index => index.map Int.ofNat

/-- An integer is found on an axis exactly if it fits the axis. -/
theorem View.resolveIndex_eq (index : Int64) (len : Nat) :
    resolveIndex index.toInt len = match Subscript.fault? len (.at index) with
      | some e => .error e
      | none => .ok (fromEnd index.toInt len).toNat := by
  unfold resolveIndex Subscript.fault? fromEnd
  dsimp only
  by_cases hfits : -(len : Int) ≤ index.toInt ∧ index.toInt < len
  · rw [if_pos hfits, if_neg]
    split <;> omega
  · rw [if_neg hfits, if_pos]
    split <;> omega

theorem fromEnd_bounds {index : Int64} {len : Nat} (h : Subscript.fault? len (.at index) = none) :
    0 ≤ fromEnd index.toInt len ∧ fromEnd index.toInt len < len := by
  unfold Subscript.fault? at h
  dsimp only at h
  unfold fromEnd
  by_cases hfits : -(len : Int) ≤ index.toInt ∧ index.toInt < len
  · split <;> omega
  · rw [if_neg hfits] at h
    cases h

theorem Slice.stride_eq_zero_iff {s : Slice} : s.stride = 0 ↔ s.step? = some 0 := by
  unfold stride
  cases s.step? with
  | none => simp
  | some step =>
    show step.toInt = (0 : Int64).toInt ↔ some step = some 0
    rw [Int64.toInt_inj, Option.some_inj]

/-- A slice has positions exactly if its step is not 0. -/
theorem Slice.resolve_eq_positions (s : Slice) (len : Nat) :
    s.resolve len = match Subscript.fault? len (.slice s) with
      | some e => .error e
      | none => .ok (s.positions len) := by
  unfold Subscript.fault? positions
  dsimp only
  by_cases hzero : s.step? = some 0
  · rw [if_pos hzero]
    exact if_pos (stride_eq_zero_iff.2 hzero)
  · rw [if_neg hzero, resolve_eq fun h => hzero (stride_eq_zero_iff.1 h)]

theorem firstFault?_cons (item : Subscript) (items : List Subscript) (len : Nat) (dims : List Nat) :
    firstFault? (item :: items) (len :: dims)
      = match item.fault? len with
        | some e => some e
        | none => firstFault? items dims := by
  unfold firstFault?
  rw [List.zip_cons_cons, List.findSome?_cons]
  cases item.fault? len <;> rfl

/-! ## The loop over the subscripts -/

namespace View

variable {v w : View} {s : Store} {axis len : Nat} {dims : List Nat} {items : List Subscript}
  {n : Int64} {r : Slice}

/-- Every axis has a stride. -/
def Ranked (v : View) : Prop :=
  v.strides.length = v.rank

theorem Ranked.indexAxis (h : v.Ranked) (haxis : axis < v.rank) (i : Nat) :
    (v.indexAxis axis i).Ranked := by
  have hstrides : axis < v.strides.length := by
    rw [h]
    exact haxis
  show (v.strides.eraseIdx axis).length = (v.indexAxis axis i).rank
  rw [List.length_eraseIdx_of_lt hstrides, rank_indexAxis haxis, h]

theorem Ranked.sliceAxis (h : v.Ranked) (axis : Nat) (p : AxisRange) :
    (v.sliceAxis axis p).Ranked := by
  show (v.strides.set axis _).length = (v.sliceAxis axis p).rank
  rw [List.length_set, rank_sliceAxis, h]

/-- What subscripts for the axes from `axis` on select: a view of the same block. Each of its indices
stands for one of the array that has the same coordinates before `axis`, at the same address. -/
structure Selects (v : View) (axis : Nat) (items : List Subscript) (w : View) : Prop where
  block_eq : w.block = v.block
  elt_eq : w.elt = v.elt
  shape_eq : w.shape = v.shape.take axis ++ selectedShape items (v.shape.drop axis)
  stands : ∀ front index, front.length = axis → Shape.InRange w.shape (front ++ index) →
    ∃ base, base.map Int.ofNat = coordinates items (v.shape.drop axis) index
      ∧ Shape.InRange v.shape (front ++ base)
      ∧ w.offset + distance (front ++ index) w.strides
        = v.offset + distance (front ++ base) v.strides

namespace Selects

theorem nil (v : View) (axis : Nat) : v.Selects axis [] v := by
  refine ⟨rfl, rfl, ?_, ?_⟩
  · exact (List.take_append_drop axis v.shape).symm
  · intro front index _ hindex
    exact ⟨index, rfl, hindex, rfl⟩

/-- An integer puts its position before the coordinates that follow. -/
theorem «at» (hrank : v.Ranked) (hdrop : v.shape.drop axis = len :: dims)
    (hfits : Subscript.fault? len (.at n) = none)
    (h : (v.indexAxis axis (fromEnd n.toInt len).toNat).Selects axis items w) :
    v.Selects axis (.at n :: items) w := by
  obtain ⟨haxis, hlen, hrest⟩ := List.of_drop_eq_cons hdrop 0
  obtain ⟨hnonneg, hlt⟩ := fromEnd_bounds hfits
  have hexact : (((fromEnd n.toInt len).toNat : Nat) : Int) = fromEnd n.toInt len :=
    Int.toNat_of_nonneg hnonneg
  generalize (fromEnd n.toInt len).toNat = i at h hexact
  have hi : i < v.shape.getD axis 0 := by omega
  have htake : (v.indexAxis axis i).shape.take axis = v.shape.take axis :=
    List.take_eraseIdx_eq_take_of_le v.shape axis axis (Nat.le_refl axis)
  have hdropped : (v.indexAxis axis i).shape.drop axis = dims :=
    (List.drop_eraseIdx_self haxis).trans hrest
  obtain ⟨hblock, helt, hshape, hstands⟩ := h
  refine ⟨hblock, helt, ?_, ?_⟩
  · rw [hshape, htake, hdropped, hdrop]
    rfl
  · intro front index hfront hindex
    obtain ⟨base, hbase, hrange, haddress⟩ := hstands front index hfront hindex
    have hinsert : (front ++ base).insertIdx axis i = front ++ i :: base :=
      hfront ▸ List.insertIdx_append_length front base i
    refine ⟨i :: base, ?_, ?_, ?_⟩
    · rw [hdrop, List.map_cons, hbase, hdropped]
      exact congrArg (· :: _) hexact
    · rw [← hinsert]
      exact inRange_insertIdx hi hrange
    · rw [haddress, indexAxis_address hrank hi hrange, hinsert]

/-- A slice moves the coordinate on its axis to the position that it stands for. -/
theorem slice (hrank : v.Ranked) (hdrop : v.shape.drop axis = len :: dims)
    (hfits : Subscript.fault? len (.slice r) = none)
    (h : (v.sliceAxis axis (r.positions len)).Selects (axis + 1) items w) :
    v.Selects axis (.slice r :: items) w := by
  obtain ⟨haxis, hlen, hrest⟩ := List.of_drop_eq_cons hdrop 0
  have hresolve := r.resolve_eq_positions len
  rw [hfits] at hresolve
  have hon := Slice.resolve_on hresolve
  generalize hp : r.positions len = p at h hon
  rw [← hlen] at hon
  have hset : (v.sliceAxis axis p).shape = (v.shape.take axis ++ [p.count]) ++ dims := by
    show v.shape.set axis p.count = _
    rw [List.set_eq_take_append_cons_drop, if_pos haxis, hrest, List.append_cons]
  have hlength : (v.shape.take axis ++ [p.count]).length = axis + 1 := by
    rw [List.length_append, List.length_take_of_le (Nat.le_of_lt haxis)]
    rfl
  obtain ⟨hblock, helt, hshape, hstands⟩ := h
  rw [hset, List.take_left' hlength, List.drop_left' hlength] at hshape
  refine ⟨hblock, helt, ?_, ?_⟩
  · rw [hshape, hdrop, List.append_assoc, selectedShape, hp]
    rfl
  · intro front index hfront hindex
    -- The index has a coordinate for the axis, since the selection keeps it.
    have hcount := hindex.length_eq
    rw [hshape, List.length_append, List.length_append, hlength, hfront] at hcount
    obtain ⟨k, index, rfl⟩ := List.exists_cons_of_length_pos (l := index) (by omega)
    have hnext : (front ++ [k]).length = axis + 1 := by
      rw [List.length_append, hfront]
      rfl
    rw [List.append_cons] at hindex
    obtain ⟨base, hbase, hrange, haddress⟩ := hstands (front ++ [k]) index hnext hindex
    have hmodify : (front ++ [k] ++ base).modify axis (rangePosition p)
        = front ++ rangePosition p k :: base := by
      rw [← List.append_cons, ← hfront]
      exact List.modify_append_length front base k (rangePosition p)
    have hcoordinate : (front ++ [k] ++ base).getD axis 0 = k := by
      simp [← hfront]
    have hk : k < p.count := hcoordinate ▸ lt_count_of_inRange haxis hrange
    refine ⟨rangePosition p k :: base, ?_, ?_, ?_⟩
    · rw [hdrop, List.map_cons, hbase, hset, List.drop_left' hlength, coordinates, hp]
      exact congrArg (· :: _) (rangePosition_cast hon hk)
    · rw [← hmodify]
      exact inRange_modify hon haxis hrange
    · rw [List.append_cons, haddress, sliceAxis_address hrank haxis hon hrange, hmodify]

end Selects

/-- The result is the given fault, or a view that has the property if there is none. -/
def FaultOr (P : View → Prop) (fault? : Option ArrayError) (result : Except ArrayError View) : Prop :=
  match fault? with
  | some e => result = .error e
  | none => ∃ w, result = .ok w ∧ P w

theorem FaultOr.mono {P Q : View → Prop} {fault? : Option ArrayError}
    {result : Except ArrayError View} (h : FaultOr P fault? result) (hPQ : ∀ w, P w → Q w) :
    FaultOr Q fault? result := by
  cases fault? with
  | some e => exact h
  | none =>
    obtain ⟨w, hw, hP⟩ := h
    exact ⟨w, hw, hPQ w hP⟩

/-- Subscripts for the axes from `axis` on select a view, or are refused for the first of them that does
not fit its axis. -/
theorem selectFrom_outcome (hrank : v.Ranked) (hitems : axis + items.length ≤ v.rank) :
    FaultOr (v.Selects axis items) (firstFault? items (v.shape.drop axis))
      (v.selectFrom axis items) := by
  induction items generalizing v axis with
  | nil => exact ⟨v, rfl, .nil v axis⟩
  | cons item items ih =>
    rw [List.length_cons] at hitems
    have haxis : axis < v.rank := by omega
    have hdrop := List.drop_eq_getElem_cons haxis
    have hlen : v.shape.getD axis 0 = v.shape[axis] := List.getD_eq_getElem _ _ haxis
    generalize v.shape[axis] = len at hdrop hlen
    rw [hdrop, firstFault?_cons]
    cases item with
    | «at» n =>
      rw [selectFrom, hlen, resolveIndex_eq]
      cases hfault : Subscript.fault? len (.at n) with
      | some e => rfl
      | none =>
        have hitems' : axis + items.length
            ≤ (v.indexAxis axis (fromEnd n.toInt len).toNat).rank := by
          rw [rank_indexAxis haxis]
          omega
        have hnext := ih (hrank.indexAxis haxis _) hitems'
        -- The axis after the one that is dropped moves into its place.
        have hdropped : (v.indexAxis axis (fromEnd n.toInt len).toNat).shape.drop axis
            = v.shape.drop (axis + 1) := List.drop_eraseIdx_self haxis
        rw [hdropped] at hnext
        exact hnext.mono fun w hw => .at hrank hdrop hfault hw
    | slice r =>
      rw [selectFrom, hlen, r.resolve_eq_positions]
      cases hfault : Subscript.fault? len (.slice r) with
      | some e => rfl
      | none =>
        have hitems' : axis + 1 + items.length ≤ (v.sliceAxis axis (r.positions len)).rank := by
          rw [rank_sliceAxis]
          omega
        have hnext := ih (hrank.sliceAxis axis _) hitems'
        -- A slice leaves the axes after its own where they are.
        have hdropped : (v.sliceAxis axis (r.positions len)).shape.drop (axis + 1)
            = v.shape.drop (axis + 1) := List.drop_set_of_lt (Nat.lt_succ_self axis)
        rw [hdropped] at hnext
        exact hnext.mono fun w hw => .slice hrank hdrop hfault hw

theorem select_outcome (hrank : v.Ranked) (items : List Subscript) :
    FaultOr (v.Selects 0 items) (selectionFault? items v.shape) (v.select items) := by
  unfold select selectionFault? rank
  by_cases hmany : v.shape.length < items.length
  · rw [if_pos hmany, if_pos hmany]
    rfl
  · rw [if_neg hmany, if_neg hmany]
    exact selectFrom_outcome hrank (by unfold rank; omega)

/-! ## Reading and writing through the selection -/

/-- The element at an index has become `x`. No other element of the array has changed, and no other
cell of any block. -/
structure Assigned (v : View) (index : List Nat) (x : Scalar) (s s' : Store) : Prop where
  get_eq : v.get s' index = x
  get_ne : ∀ other, Shape.InRange v.shape other → other ≠ index → v.get s' other = v.get s other
  changesOnly : s.ChangesOnly (fun b i => b = v.block ∧ i = v.position index) s'

theorem set_assigned (hv : v.WellFormed s) {index : List Nat} (hindex : Shape.InRange v.shape index)
    (x : Scalar) : v.Assigned index (x.cast v.elt) s (v.set index x s) := by
  have hchanges := set_changesOnly v index x s
  obtain ⟨cells, hcells, hlaid, -⟩ := hv
  refine ⟨get_set_self hcells (hlaid.inside hindex) x, fun other hother hne => ?_, hchanges⟩
  refine hchanges.read v.block (v.position other) ?_
  rintro ⟨-, heq⟩
  exact hne (hlaid.distinct hother hindex heq)

/-- Take a well-formed array and any subscripts. The selection fails exactly if there are more subscripts
than axes or one of them does not fit its axis, and says which is the first that does not. Otherwise it is
a view whose shape is given by the counts of the slices and the axes that are left, and each index of the
view stands for the index of the array with the coordinates of the integers and of the positions of the
slices: the view reads the element there, and a write through the view changes that element only. -/
theorem select_faithful (hv : v.WellFormed s) (items : List Subscript) :
    match selectionFault? items v.shape with
    | some e => v.select items = .error e
    | none => ∃ w, v.select items = .ok w ∧ w.shape = selectedShape items v.shape
      ∧ ∀ index, Shape.InRange w.shape index →
        ∃ base, base.map Int.ofNat = coordinates items v.shape index ∧ Shape.InRange v.shape base
          ∧ w.get s index = v.get s base
          ∧ ∀ x, v.Assigned base (x.cast v.elt) s (w.set index x s) := by
  have hrank : v.Ranked := by
    obtain ⟨cells, -, hlaid, -⟩ := hv
    exact hlaid.rank
  refine (select_outcome hrank items).mono fun w hw => ?_
  obtain ⟨hblock, helt, hshape, hstands⟩ := hw
  refine ⟨hshape, fun index hindex => ?_⟩
  obtain ⟨base, hbase, hrange, haddress⟩ := hstands [] index rfl hindex
  have hposition : w.position index = v.position base := by
    unfold position
    exact congrArg Int.toNat haddress
  refine ⟨base, hbase, hrange, ?_, fun x => ?_⟩
  · unfold get
    rw [hblock, hposition]
  · have hset : w.set index x s = v.set base x s := by
      unfold set
      rw [hblock, hposition, helt]
    rw [hset]
    exact set_assigned hv hrange x

/-- Two planes of two rows and three columns, alone in a store. -/
def planes : View × Store :=
  ofFlat .int8 [2, 2, 3] ((List.range 12).map fun i => .int (Int64.ofNat i)) ∅

/-- Of the last plane, every second column from the last on. -/
def columns : List Subscript :=
  [.at (-1), .slice ⟨none, none, none⟩, .slice ⟨none, none, some (-2)⟩]

/-- The element at `[1, 1]` of that selection is the first one of the last row. -/
theorem select_faithful_columns :
    planes.1.WellFormed planes.2
      ∧ planes.1.select columns = .ok ⟨.int8, 0, [2, 2], [3, -2], 8⟩
      ∧ (⟨.int8, 0, [2, 2], [3, -2], 8⟩ : View).get planes.2 [1, 1]
        = planes.1.get planes.2 [1, 1, 0] := by
  have hwellFormed : planes.1.WellFormed planes.2 := ofFlat_wellFormed .int8 ∅ rfl
  have hselect : planes.1.select columns = .ok ⟨.int8, 0, [2, 2], [3, -2], 8⟩ := by decide
  have hfault : selectionFault? columns planes.1.shape = none := by decide
  have hfaithful := select_faithful hwellFormed columns
  rw [hfault] at hfaithful
  obtain ⟨w, hw, hshape, hstands⟩ := hfaithful
  obtain rfl : w = ⟨.int8, 0, [2, 2], [3, -2], 8⟩ := Except.ok.inj (hw.symm.trans hselect)
  obtain ⟨base, hbase, -, hget, -⟩ := hstands [1, 1] (by decide)
  have hcoordinates : coordinates columns planes.1.shape [1, 1] = [1, 1, 0] := by decide
  rw [hcoordinates] at hbase
  obtain rfl : base = [1, 1, 0] :=
    List.map_injective_iff.2 (fun _ _ => Int.ofNat.inj) (hbase.trans rfl)
  exact ⟨hwellFormed, hselect, hget⟩

end View
end ArrayLang
