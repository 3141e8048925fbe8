import ArrayLang.Proofs.Array.Layout

/-!
# Arrays that operations lead to

A view is well formed in a store when it is laid out in its block, and every cell of the block is in
the representation of the view's element type. The arrays at hand after any sequence of operations
are well formed: made from elements, cast, stacked, copied, selected from, and written to through any
of the views of their storage.

A write to one view must not spoil the cells of another. What carries the argument is that arrays at
hand that share a block have one element type: an array takes both from the one it was selected from,
and one that is made gets a block of its own.
-/

namespace ArrayLang

/-! ## Representation -/

/-- The integers of a type are those from here on. -/
def ElemType.lower (t : ElemType) : Int :=
  if t.kind = .signed then -2 ^ (8 * t.bytes - 1) else 0

/-- The integers of a type are those below. -/
def ElemType.upper (t : ElemType) : Int :=
  if t.kind = .signed then 2 ^ (8 * t.bytes - 1) else 2 ^ (8 * t.bytes)

/-- The scalar is in the representation of the element type. -/
def ElemType.Holds (t : ElemType) : Scalar → Prop
  | .bool _ => t.kind = .bool
  | .int n => t.isInteger ∧ t.lower ≤ n.toInt ∧ n.toInt < t.upper
  | .float _ => t.isFloat

namespace Scalar

/-- Reducing modulo a number, with the remainder around zero, stays in the integers of its half. -/
theorem ofInt_bmod_bounds (n : Int) (half : Nat) (hpos : 0 < half) (hhalf : half ≤ 2 ^ 63) :
    -half ≤ (Int64.ofInt (n.bmod (2 * half))).toInt
      ∧ (Int64.ofInt (n.bmod (2 * half))).toInt < half := by
  have hlower : -(((2 * half : Nat) : Int) / 2) ≤ n.bmod (2 * half) := Int.le_bmod (by omega)
  have hupper : n.bmod (2 * half) < (((2 * half : Nat) : Int) + 1) / 2 := Int.bmod_lt (by omega)
  rw [Int64.toInt_ofInt_of_le (by omega) (by omega)]
  omega

/-- A cast to an integer type wraps into its range. -/
theorem wrap_bounds {elt : ElemType} (h : elt.isInteger) (n : Int64) :
    elt.lower ≤ (wrap elt n).toInt ∧ (wrap elt n).toInt < elt.upper := by
  cases elt with
  | bool => cases h
  | float32 => cases h
  | float64 => cases h
  | uint8 =>
    have hlower : 0 ≤ n.toInt % 256 := Int.emod_nonneg _ (by decide)
    have hupper : n.toInt % 256 < 256 := Int.emod_lt_of_pos _ (by decide)
    have hexact : (Int64.ofInt (n.toInt % 256)).toInt = n.toInt % 256 :=
      Int64.toInt_ofInt_of_le (by omega) (by omega)
    show 0 ≤ (Int64.ofInt (n.toInt % 256)).toInt ∧ (Int64.ofInt (n.toInt % 256)).toInt < 256
    rw [hexact]
    exact ⟨hlower, hupper⟩
  | int8 => exact ofInt_bmod_bounds n.toInt (2 ^ 7) (by decide) (by decide)
  | int16 => exact ofInt_bmod_bounds n.toInt (2 ^ 15) (by decide) (by decide)
  | int32 => exact ofInt_bmod_bounds n.toInt (2 ^ 31) (by decide) (by decide)
  | int64 => exact ⟨n.le_toInt, n.toInt_lt⟩

/-- A cast moves a scalar into the representation of the type. -/
theorem cast_holds (x : Scalar) (elt : ElemType) : elt.Holds (x.cast elt) := by
  cases elt with
  | bool => exact rfl
  | float32 => exact rfl
  | float64 => exact rfl
  | uint8 => exact ⟨rfl, wrap_bounds rfl _⟩
  | int8 => exact ⟨rfl, wrap_bounds rfl _⟩
  | int16 => exact ⟨rfl, wrap_bounds rfl _⟩
  | int32 => exact ⟨rfl, wrap_bounds rfl _⟩
  | int64 => exact ⟨rfl, wrap_bounds rfl _⟩

end Scalar

/-! ## Well-formed views -/

namespace View

variable {v w src : View} {s s' : Store} {axis i : Nat}

/-- The view is laid out in its block, whose cells are in the representation of its element type. -/
def WellFormed (v : View) (s : Store) : Prop :=
  ∃ cells, s.blocks[v.block]? = some cells ∧ v.LaidOut cells.size ∧ ∀ x ∈ cells, v.elt.Holds x

theorem WellFormed.block_lt (h : v.WellFormed s) : v.block < s.blocks.size := by
  obtain ⟨cells, hcells, -⟩ := h
  exact (Array.getElem?_eq_some_iff.1 hcells).1

/-- A view of the same block and element type is well formed if it is laid out as well. -/
theorem WellFormed.of_laidOut (h : v.WellFormed s) (hblock : w.block = v.block)
    (helt : w.elt = v.elt) (hlaid : ∀ {n}, v.LaidOut n → w.LaidOut n) : w.WellFormed s := by
  obtain ⟨cells, hcells, hv, hholds⟩ := h
  exact ⟨cells, hblock ▸ hcells, hlaid hv, helt ▸ hholds⟩

/-! ### Making arrays -/

/-- A new block leaves the others as they are. -/
theorem WellFormed.alloc (h : v.WellFormed s) (cells : Array Scalar) :
    v.WellFormed (s.alloc cells).2 := by
  have hlt := h.block_lt
  obtain ⟨old, hold, hv⟩ := h
  refine ⟨old, ?_, hv⟩
  show (s.blocks.push cells)[v.block]? = some old
  rw [Array.getElem?_push, if_neg (Nat.ne_of_lt hlt), hold]

theorem ofFlat_wellFormed (elt : ElemType) {shape : List Nat} {data : List Scalar} (s : Store)
    (hlength : data.length = Shape.size shape) :
    (ofFlat elt shape data s).1.WellFormed (ofFlat elt shape data s).2 := by
  have hnew : (ofFlat elt shape data s).2.blocks[(ofFlat elt shape data s).1.block]?
      = some (data.map (·.cast elt)).toArray := Array.getElem?_push_size
  refine ⟨_, hnew, ?_, fun x hx => ?_⟩
  · rw [List.size_toArray, List.length_map, hlength]
    exact LaidOut.contiguous elt s.blocks.size shape
  · obtain ⟨y, -, rfl⟩ := List.mem_map.1 (List.mem_toArray.1 hx)
    exact y.cast_holds elt

theorem length_toFlat (v : View) (s : Store) : (v.toFlat s).length = Shape.size v.shape := by
  rw [toFlat, List.length_map, Shape.length_indices]

/-- The elements of stacked items are as many as their common shape and their number say. -/
theorem length_stackItems {items : List (List Nat × List Scalar)} {shape : List Nat}
    {data : List Scalar} (hitems : ∀ item ∈ items, item.2.length = Shape.size item.1)
    (h : stackItems items = .ok (shape, data)) : data.length = Shape.size shape := by
  unfold stackItems at h
  dsimp only at h
  generalize (items.head?.map (·.1)).getD [] = inner at h
  cases hfind : items.find? (fun item => item.1 ≠ inner) with
  | some item =>
    rw [hfind] at h
    cases h
  | none =>
    rw [hfind] at h
    cases h
    -- No item has another shape than the first.
    have hsame : ∀ item ∈ items, item.2.length = Shape.size inner := by
      intro item hitem
      have hshape := List.find?_eq_none.1 hfind item hitem
      rw [hitems item hitem, show item.1 = inner by simpa using hshape]
    have hsizes : items.map (·.2.length) = List.replicate items.length (Shape.size inner) :=
      List.map_eq_replicate_iff.2 hsame
    rw [List.length_flatMap, hsizes, List.sum_replicate_nat]
    rfl

/-! ### Writing -/

/-- A write keeps a view well formed if it is made in the view's element type or to another block. -/
theorem WellFormed.set (h : v.WellFormed s) (helt : w.block = v.block → w.elt = v.elt)
    (index : List Nat) (x : Scalar) : v.WellFormed (w.set index x s) := by
  obtain ⟨cells, hcells, hlaid, hholds⟩ := h
  have hmodify : (w.set index x s).blocks[v.block]? = if w.block = v.block
      then some (cells.setIfInBounds (w.position index) (x.cast w.elt)) else some cells := by
    show (s.blocks.modify w.block _)[v.block]? = _
    rw [Array.getElem?_modify, hcells]
    rfl
  -- In one block, the written cell is cast to the type that both views have.
  by_cases hblock : w.block = v.block
  · rw [if_pos hblock] at hmodify
    refine ⟨_, hmodify, ?_, fun y hy => ?_⟩
    · rw [Array.size_setIfInBounds]
      exact hlaid
    · rcases Array.mem_or_eq_of_mem_setIfInBounds hy with hold | rfl
      · exact hholds y hold
      · rw [helt hblock]
        exact x.cast_holds v.elt
  · rw [if_neg hblock] at hmodify
    exact ⟨cells, hmodify, hlaid, hholds⟩

/-- So do several writes. -/
theorem WellFormed.setAll {α : Type} (h : v.WellFormed s) (helt : w.block = v.block → w.elt = v.elt)
    (f : α → List Nat × Scalar) (cells : List α) :
    v.WellFormed (cells.foldl (fun s a => w.set (f a).1 (f a).2 s) s) := by
  induction cells generalizing s with
  | nil => exact h
  | cons a cells ih => exact ih (h.set helt (f a).1 (f a).2)

end View

/-! ## Operations on arrays -/

/-- A store and the arrays at hand. -/
structure Arrays where
  store : Store
  views : List View

namespace Arrays

/-- The arrays at hand with a further one, and the store it comes with. -/
def add (a : Arrays) (made : View × Store) : Arrays :=
  ⟨made.2, made.1 :: a.views⟩

/-- One operation on arrays at hand. -/
inductive Step (a : Arrays) : Arrays → Prop
  | ofFlat (elt : ElemType) {shape : List Nat} {data : List Scalar}
      (hlength : data.length = Shape.size shape) : Step a (a.add (View.ofFlat elt shape data a.store))
  | zeros (elt : ElemType) (shape : List Nat) : Step a (a.add (View.zeros elt shape a.store))
  | cast {v : View} (hv : v ∈ a.views) (elt : ElemType) : Step a (a.add (v.cast elt a.store))
  | stack (elt : ElemType) {items : List View} {made : View × Store}
      (hitems : ∀ v ∈ items, v ∈ a.views) (h : View.stack elt items a.store = .ok made) :
      Step a (a.add made)
  | clone {v : View} (hv : v ∈ a.views) : Step a (a.add (v, a.store))
  | select {v w : View} {items : List Subscript} (hv : v ∈ a.views) (h : v.select items = .ok w) :
      Step a (a.add (w, a.store))
  | indexAxis {v : View} {axis i : Nat} (hv : v ∈ a.views) (hi : i < v.shape.getD axis 0) :
      Step a (a.add (v.indexAxis axis i, a.store))
  | set {v : View} (hv : v ∈ a.views) (index : List Nat) (x : Scalar) :
      Step a { a with store := v.set index x a.store }
  | fill {v : View} (hv : v ∈ a.views) (x : Scalar) : Step a { a with store := v.fill x a.store }
  | copyFrom {v src : View} {s : Store} (hv : v ∈ a.views) (hsrc : src ∈ a.views)
      (h : v.copyFrom src a.store = .ok s) : Step a { a with store := s }

/-- What operations lead to from any store, no array of which is at hand yet. -/
inductive Reachable : Arrays → Prop
  | start (s : Store) : Reachable ⟨s, []⟩
  | step {a b : Arrays} (h : Reachable a) (hstep : Step a b) : Reachable b

variable {a b : Arrays}

/-- The arrays at hand are well formed, and those that share a block have one element type. -/
structure WellFormed (a : Arrays) : Prop where
  view : ∀ v ∈ a.views, v.WellFormed a.store
  elt : ∀ v ∈ a.views, ∀ w ∈ a.views, w.block = v.block → w.elt = v.elt

namespace WellFormed

variable {v w : View} {s : Store}

/-- An array with a block of its own. -/
theorem add_new (h : a.WellFormed) {made : View × Store} (hmade : made.1.WellFormed made.2)
    (hblock : made.1.block = a.store.blocks.size)
    (hkept : ∀ v ∈ a.views, v.WellFormed made.2) : (a.add made).WellFormed := by
  have hapart : ∀ v ∈ a.views, v.block ≠ made.1.block :=
    fun v hv => hblock ▸ Nat.ne_of_lt (h.view v hv).block_lt
  refine ⟨fun v hv => ?_, fun v hv w hw heq => ?_⟩
  · rcases List.mem_cons.1 hv with rfl | hold
    · exact hmade
    · exact hkept v hold
  · rcases List.mem_cons.1 hv with rfl | hold <;> rcases List.mem_cons.1 hw with rfl | hold'
    · rfl
    · exact absurd heq (hapart w hold')
    · exact absurd heq.symm (hapart v hold)
    · exact h.elt v hold w hold' heq

/-- A new array of given elements. -/
theorem add_ofFlat (h : a.WellFormed) (elt : ElemType) {shape : List Nat} {data : List Scalar}
    (hlength : data.length = Shape.size shape) :
    (a.add (View.ofFlat elt shape data a.store)).WellFormed :=
  h.add_new (View.ofFlat_wellFormed elt a.store hlength) rfl fun v hv => (h.view v hv).alloc _

/-- A further view of an array's block. -/
theorem add_view (h : a.WellFormed) (hv : v ∈ a.views) (hblock : w.block = v.block)
    (helt : w.elt = v.elt) (hlaid : ∀ {n}, v.LaidOut n → w.LaidOut n) :
    (a.add (w, a.store)).WellFormed := by
  refine ⟨fun u hu => ?_, fun u hu u' hu' heq => ?_⟩
  · rcases List.mem_cons.1 hu with rfl | hold
    · exact (h.view v hv).of_laidOut hblock helt hlaid
    · exact h.view u hold
  · rcases List.mem_cons.1 hu with rfl | hold <;> rcases List.mem_cons.1 hu' with rfl | hold'
    · rfl
    · rw [h.elt v hv u' hold' (heq.trans hblock), helt]
    · rw [helt, h.elt u hold v hv (hblock.symm.trans heq)]
    · exact h.elt u hold u' hold' heq

/-- Writes through an array at hand. -/
theorem setAll {α : Type} (h : a.WellFormed) (hw : w ∈ a.views) (f : α → List Nat × Scalar)
    (cells : List α) :
    WellFormed { a with store := cells.foldl (fun s c => w.set (f c).1 (f c).2 s) a.store } :=
  ⟨fun v hv => (h.view v hv).setAll (h.elt v hv w hw) f cells, h.elt⟩

end WellFormed

/-- Each operation keeps the arrays at hand well formed. -/
theorem Step.wellFormed (hstep : Step a b) (h : a.WellFormed) : b.WellFormed := by
  cases hstep with
  | ofFlat elt hlength => exact h.add_ofFlat elt hlength
  | zeros elt shape =>
    rw [View.zeros_eq_ofFlat]
    exact h.add_ofFlat elt List.length_replicate
  | @cast v hv elt => exact h.add_ofFlat elt (v.length_toFlat a.store)
  | @stack elt items made hitems hstack =>
    unfold View.stack at hstack
    cases hstacked : View.stackItems (items.map fun v => (v.shape, v.toFlat a.store)) with
    | error e =>
      rw [hstacked] at hstack
      cases hstack
    | ok stacked =>
      rw [hstacked] at hstack
      cases hstack
      refine h.add_ofFlat elt (View.length_stackItems (fun item hitem => ?_) hstacked)
      obtain ⟨v, -, rfl⟩ := List.mem_map.1 hitem
      exact v.length_toFlat a.store
  | clone hv => exact h.add_view hv rfl rfl id
  | select hv hselect =>
    exact h.add_view hv (View.select_block hselect) (View.select_elt hselect) (·.select hselect)
  | indexAxis hv hi => exact h.add_view hv rfl rfl (·.indexAxis hi)
  | set hv index x => exact h.setAll hv id [(index, x)]
  | fill hv x => exact h.setAll hv (fun index => (index, x)) _
  | @copyFrom v src s hv hsrc hcopy =>
    unfold View.copyFrom at hcopy
    cases hcells : v.cellsFrom src a.store with
    | error e =>
      rw [hcells] at hcopy
      cases hcopy
    | ok cells =>
      rw [hcells] at hcopy
      cases hcopy
      exact h.setAll hv id cells

/-- So does any sequence of operations. -/
theorem Reachable.wellFormed (h : a.Reachable) : a.WellFormed := by
  induction h with
  | start s => exact ⟨fun _ hv => absurd hv List.not_mem_nil, fun _ hv => absurd hv List.not_mem_nil⟩
  | step _ hstep ih => exact hstep.wellFormed ih

/-- Every array at hand after any sequence of operations is well formed. -/
theorem Reachable.view_wellFormed (h : a.Reachable) {v : View} (hv : v ∈ a.views) :
    v.WellFormed a.store :=
  h.wellFormed.view v hv

/-! ## A selection with negative steps -/

/-- A table of two rows and three columns, alone in a store. -/
def table : View × Store :=
  View.ofFlat .int8 [2, 3] [.int 1, .int 2, .int 3, .int 4, .int 5, .int 300] ∅

/-- The rows of the table from the last to the first, and of each the last and the first element. -/
def corners : View :=
  ⟨.int8, 0, [2, 2], [-3, -2], 5⟩

/-- It is well formed after a write through it. -/
theorem view_wellFormed_corners :
    table.1.select [.slice ⟨none, none, some (-1)⟩, .slice ⟨none, none, some (-2)⟩] = .ok corners
      ∧ corners.WellFormed (corners.set [0, 1] (.int 200) table.2) := by
  have hselect :
      table.1.select [.slice ⟨none, none, some (-1)⟩, .slice ⟨none, none, some (-2)⟩]
        = .ok corners := by decide
  have htable : Reachable ⟨table.2, [table.1]⟩ := .step (.start ∅) (.ofFlat .int8 rfl)
  have hcorners := htable.step (.select List.mem_cons_self hselect)
  have hwritten := hcorners.step (.set List.mem_cons_self [0, 1] (.int 200))
  exact ⟨hselect, Reachable.view_wellFormed hwritten List.mem_cons_self⟩

end Arrays
end ArrayLang
