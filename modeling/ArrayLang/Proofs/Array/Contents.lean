import ArrayLang.Proofs.Array.Reachable
import ArrayLang.Proofs.Storage.View

/-!
# What arrays hold

The contents of an array are its shape and one element for each index. A new array holds the elements
that it is made from, cast to its element type, and a cast holds those of the array that it is made from.
Elements that are written through a view that is laid out are read back through it. An array with a
leading axis is made of its slots, the positions along that axis: writing one of them leaves the others
as they are.

## Main results

- `View.toFlat_ofFlat`: the elements of a new array.
- `View.setCells_shows`: what is written through a view is read back.
- `View.PartOf.shows_of_apart`: a write to one part of an array leaves the parts that are apart from it.
- `View.Slots.set`, `View.Slots.set_ne`: a write to one slot.
- `View.Slots.toFlat`: the elements of an array are those of its slots, one after the other.
-/

/-- The first `m * n` numbers, in `m` rows of `n`. -/
theorem List.range_mul_eq_flatMap (m n : Nat) :
    List.range (m * n) = (List.range m).flatMap fun i => (List.range n).map (i * n + ·) := by
  induction m with
  | zero =>
    rw [Nat.zero_mul]
    rfl
  | succ m ih =>
    rw [Nat.succ_mul, List.range_add, ih, List.range_succ, List.flatMap_append]
    simp only [List.flatMap_cons, List.flatMap_nil, List.append_nil]

/-- A list is made of what it has at its positions. -/
theorem List.map_getD_range {α : Type} (l : List α) (d : α) :
    (List.range l.length).map (l.getD · d) = l := by
  refine List.ext_getElem (by simp) fun i hi hi' => ?_
  rw [List.getElem_map, List.getElem_range, List.getD_eq_getElem _ _ hi']

namespace ArrayLang

/-! ## Row-major order -/

namespace Shape

/-- In row-major order the indices of a shape lie one after the other. -/
theorem map_distance_indices (shape : List Nat) :
    (indices shape).map (View.distance · (contiguousStrides shape))
      = (List.range (size shape)).map Int.ofNat := by
  induction shape with
  | nil => rfl
  | cons dim dims ih =>
    -- Row `i` lies where the rows before it end.
    have hrow (i : Nat) :
        ((indices dims).map (i :: ·)).map (View.distance · (contiguousStrides (dim :: dims)))
          = ((List.range (size dims)).map (i * size dims + ·)).map Int.ofNat := by
      have hmap := congrArg (List.map ((i * size dims : Nat) + · : Int → Int)) ih
      rw [List.map_map, List.map_map] at hmap
      rw [List.map_map, List.map_map]
      exact hmap
    rw [indices_cons, size, List.range_mul_eq_flatMap, List.map_flatMap, List.map_flatMap]
    exact congrArg (List.range dim).flatMap (funext hrow)

end Shape

/-! ## Changes of cells -/

/-- Only cells that satisfy `p` have changed, and all blocks have kept their sizes. -/
structure Store.ChangesOnly (p : Nat → Nat → Prop) (s s' : Store) : Prop where
  size : ∀ b : Nat, (s'.blocks[b]?).map Array.size = (s.blocks[b]?).map Array.size
  read : ∀ b i, ¬p b i → s'.read b i = s.read b i

namespace Store.ChangesOnly

variable {p q : Nat → Nat → Prop} {s s' s'' : Store}

theorem refl (p : Nat → Nat → Prop) (s : Store) : ChangesOnly p s s :=
  ⟨fun _ => rfl, fun _ _ _ => rfl⟩

theorem trans (h : ChangesOnly p s s') (h' : ChangesOnly p s' s'') : ChangesOnly p s s'' :=
  ⟨fun b => (h'.size b).trans (h.size b),
    fun b i hp => (h'.read b i hp).trans (h.read b i hp)⟩

theorem mono (h : ChangesOnly p s s') (hpq : ∀ b i, p b i → q b i) : ChangesOnly q s s' :=
  ⟨h.size, fun b i hq => h.read b i fun hp => hq (hpq b i hp)⟩

end Store.ChangesOnly

/-! ## Contents -/

/-- A shape, and an element for each of its indices. -/
structure Contents where
  shape : List Nat
  get : List Nat → Scalar

namespace Contents

/-- The elements in row-major order. -/
def flat (c : Contents) : List Scalar :=
  (Shape.indices c.shape).map c.get

/-- The elements beside their indices. -/
def cells (c : Contents) : List (List Nat × Scalar) :=
  (Shape.indices c.shape).map fun index => (index, c.get index)

/-- The same elements in another element type. -/
def cast (c : Contents) (elt : ElemType) : Contents :=
  ⟨c.shape, fun index => (c.get index).cast elt⟩

theorem flat_cast (c : Contents) (elt : ElemType) : (c.cast elt).flat = c.flat.map (·.cast elt) := by
  unfold flat
  rw [List.map_map]
  rfl

theorem length_flat (c : Contents) : c.flat.length = Shape.size c.shape := by
  rw [flat, List.length_map, Shape.length_indices]

variable {rows : List Contents} {shape : List Nat}

/-- The contents of rows along a new leading axis. -/
def stacked (rows : List Contents) (shape : List Nat) : Contents where
  shape := rows.length :: shape
  get
    | j :: index => (rows.getD j ⟨[], fun _ => .int 0⟩).get index
    | [] => .int 0

/-- The elements of the rows come one after the other. -/
theorem flat_stacked (h : ∀ c ∈ rows, c.shape = shape) :
    (stacked rows shape).flat = rows.flatMap flat := by
  have hrow (j : Nat) (hj : j ∈ List.range rows.length) :
      ((Shape.indices shape).map (j :: ·)).map (stacked rows shape).get
        = (rows.getD j ⟨[], fun _ => .int 0⟩).flat := by
    have hmem : rows.getD j ⟨[], fun _ => .int 0⟩ ∈ rows := by
      rw [List.getD_eq_getElem _ _ (List.mem_range.1 hj)]
      exact List.getElem_mem _
    rw [List.map_map, flat, h _ hmem]
    rfl
  show (Shape.indices (rows.length :: shape)).map _ = _
  rw [Shape.indices_cons, List.map_flatMap, List.flatMap_congr hrow, ← List.flatMap_map,
    List.map_getD_range]

theorem get_stacked {c : Contents} {j : Nat} {index : List Nat} (h : rows[j]? = some c) :
    (stacked rows shape).get (j :: index) = c.get index := by
  show (rows.getD j _).get index = c.get index
  rw [List.getD_eq_getElem?_getD, h]
  rfl

end Contents

namespace View

variable {v w out : View} {s s' : Store} {shape index : List Nat} {c c' : Contents} {i j n : Nat}

/-! ## New arrays -/

theorem read_alloc (s : Store) (cells : Array Scalar) (i : Nat) :
    (s.alloc cells).2.read (s.alloc cells).1 i = (cells[i]?).getD (.int 0) := by
  show (((s.blocks.push cells)[s.blocks.size]?).bind (·[i]?)).getD (.int 0) = _
  rw [Array.getElem?_push_size]
  rfl

/-- The elements of a new array are those that it is made from, cast to its element type. -/
theorem toFlat_ofFlat (elt : ElemType) {data : List Scalar} (s : Store)
    (hlength : data.length = Shape.size shape) :
    (ofFlat elt shape data s).1.toFlat (ofFlat elt shape data s).2 = data.map (·.cast elt) := by
  have hcell (i : Nat) : (ofFlat elt shape data s).2.read (ofFlat elt shape data s).1.block i
      = (data.map (·.cast elt)).getD i (.int 0) := by
    rw [List.getD_eq_getElem?_getD, ← List.getElem?_toArray]
    exact read_alloc s _ i
  calc (ofFlat elt shape data s).1.toFlat (ofFlat elt shape data s).2
      = ((Shape.indices shape).map (distance · (Shape.contiguousStrides shape))).map fun d =>
          (ofFlat elt shape data s).2.read (ofFlat elt shape data s).1.block d.toNat := by
        rw [List.map_map]
        refine List.map_congr_left fun index _ => ?_
        show Store.read _ _ ((0 : Int) + distance index (Shape.contiguousStrides shape)).toNat = _
        rw [zero_add]
        rfl
    _ = (List.range (data.map (·.cast elt)).length).map fun i =>
          (data.map (·.cast elt)).getD i (.int 0) := by
        rw [Shape.map_distance_indices, List.map_map, List.length_map, hlength]
        exact List.map_congr_left fun i _ => hcell i
    _ = data.map (·.cast elt) := List.map_getD_range _ _

/-- The array has the given contents. -/
structure Shows (v : View) (s : Store) (c : Contents) : Prop where
  shape_eq : v.shape = c.shape
  get_eq : ∀ index, Shape.InRange c.shape index → v.get s index = c.get index

theorem shows_iff_toFlat (hshape : v.shape = c.shape) : v.Shows s c ↔ v.toFlat s = c.flat := by
  unfold toFlat Contents.flat
  rw [hshape, List.map_inj_left]
  refine ⟨fun h index hindex => h.get_eq index (Shape.mem_indices.1 hindex), fun h => ⟨hshape, ?_⟩⟩
  exact fun index hindex => h index (Shape.mem_indices.2 hindex)

theorem Shows.toFlat_eq (h : v.Shows s c) : v.toFlat s = c.flat :=
  (shows_iff_toFlat h.shape_eq).1 h

/-- A cast holds the elements of the array, in the other element type. -/
theorem Shows.cast (h : v.Shows s c) (elt : ElemType) :
    (v.cast elt s).1.Shows (v.cast elt s).2 (c.cast elt) := by
  have hflat : (v.cast elt s).1.toFlat (v.cast elt s).2 = (v.toFlat s).map (·.cast elt) :=
    toFlat_ofFlat elt s (v.length_toFlat s)
  refine (shows_iff_toFlat (v := (v.cast elt s).1) (c := c.cast elt) h.shape_eq).2 ?_
  rw [hflat, h.toFlat_eq, c.flat_cast]

/-- What is read in an untouched block stays as it is. -/
theorem get_of_touches {p : Nat → Prop} (hs : s.TouchesOnly p s') (hblock : v.block < s.blocks.size)
    (hp : ¬p v.block) (index : List Nat) : v.get s' index = v.get s index := by
  show ((s'.blocks[v.block]?).bind _).getD _ = ((s.blocks[v.block]?).bind _).getD _
  rw [hs.frame v.block hblock hp]

theorem Shows.of_touches {p : Nat → Prop} (h : v.Shows s c) (hs : s.TouchesOnly p s')
    (hblock : v.block < s.blocks.size) (hp : ¬p v.block) : v.Shows s' c := by
  refine ⟨h.shape_eq, fun index hindex => ?_⟩
  rw [get_of_touches hs hblock hp, h.get_eq index hindex]

theorem WellFormed.of_touches {p : Nat → Prop} (h : v.WellFormed s) (hs : s.TouchesOnly p s')
    (hp : ¬p v.block) : v.WellFormed s' := by
  have hframe := hs.frame v.block h.block_lt hp
  obtain ⟨cells, hcells, hv⟩ := h
  exact ⟨cells, hframe.trans hcells, hv⟩

/-- The elements of a well-formed view are in the representation of its element type. -/
theorem WellFormed.holds_get (h : v.WellFormed s) (hindex : Shape.InRange v.shape index) :
    v.elt.Holds (v.get s index) := by
  obtain ⟨cells, hcells, hlaid, hholds⟩ := h
  have hlt := hlaid.inside hindex
  have hget : v.get s index = cells[v.position index] := by
    show ((s.blocks[v.block]?).bind _).getD _ = _
    rw [hcells]
    show (cells[v.position index]?).getD _ = _
    rw [Array.getElem?_eq_getElem hlt]
    rfl
  rw [hget]
  exact hholds _ (Array.getElem_mem hlt)

/-! ## Reading what was written -/

/-- A write changes the cell of its index only. -/
theorem set_changesOnly (w : View) (index : List Nat) (x : Scalar) (s : Store) :
    s.ChangesOnly (fun b i => b = w.block ∧ i = w.position index) (w.set index x s) := by
  refine ⟨fun b => ?_, fun b i hother => ?_⟩
  · show ((s.blocks.modify w.block _)[b]?).map Array.size = _
    rw [Array.getElem?_modify]
    by_cases hb : w.block = b
    · rw [if_pos hb, Option.map_map]
      exact congrArg (Option.map · _) (funext fun _ => Array.size_setIfInBounds)
    · rw [if_neg hb]
  · show (((s.blocks.modify w.block _)[b]?).bind _).getD _ = ((s.blocks[b]?).bind _).getD _
    rw [Array.getElem?_modify]
    by_cases hb : w.block = b
    · have hi : w.position index ≠ i := fun hi => hother ⟨hb.symm, hi.symm⟩
      rw [if_pos hb]
      cases s.blocks[b]? with
      | none => rfl
      | some cells =>
        show ((cells.setIfInBounds _ _)[i]?).getD _ = _
        rw [Array.getElem?_setIfInBounds_ne hi]
        rfl
    · rw [if_neg hb]

theorem get_set_self {cells : Array Scalar} (hcells : s.blocks[w.block]? = some cells)
    (h : w.position index < cells.size) (x : Scalar) :
    w.get (w.set index x s) index = x.cast w.elt := by
  show (((s.blocks.modify w.block _)[w.block]?).bind _).getD _ = _
  rw [Array.getElem?_modify, if_pos rfl, hcells]
  show ((cells.setIfInBounds _ _)[w.position index]?).getD _ = _
  rw [Array.getElem?_setIfInBounds_self_of_lt h]
  rfl

/-- Writes change the cells of their indices only. -/
theorem setCells_changesOnly (w : View) (cells : List (List Nat × Scalar)) (s : Store) :
    s.ChangesOnly (fun b i => b = w.block ∧ ∃ cell ∈ cells, i = w.position cell.1)
      (w.setCells cells s) := by
  unfold setCells
  induction cells generalizing s with
  | nil => exact .refl _ s
  | cons cell cells ih =>
    have hfirst := set_changesOnly w cell.1 cell.2 s
    have hrest := ih (w.set cell.1 cell.2 s)
    refine (hfirst.mono ?_).trans (hrest.mono ?_)
    · rintro b i ⟨hb, hi⟩
      exact ⟨hb, cell, List.mem_cons_self, hi⟩
    · rintro b i ⟨hb, other, hother, hi⟩
      exact ⟨hb, other, List.mem_cons_of_mem cell hother, hi⟩

/-- A cell that belongs to none of the indices is as it was. -/
theorem read_setCells_ne {cells : List (List Nat × Scalar)} {position : Nat}
    (h : ∀ cell ∈ cells, w.position cell.1 ≠ position) (b : Nat) :
    (w.setCells cells s).read b position = s.read b position := by
  refine (setCells_changesOnly w cells s).read b position ?_
  rintro ⟨-, cell, hcell, hi⟩
  exact h cell hcell hi.symm

/-- One element for each of some indices of the view, each read back in the view's element type. -/
theorem get_setCells_map (hw : w.WellFormed s) {indices : List (List Nat)}
    (hindices : ∀ index ∈ indices, Shape.InRange w.shape index) (f : List Nat → Scalar)
    (hindex : index ∈ indices) :
    w.get (w.setCells (indices.map fun index => (index, f index)) s) index
      = (f index).cast w.elt := by
  induction indices generalizing s with
  | nil => cases hindex
  | cons first indices ih =>
    rw [List.forall_mem_cons] at hindices
    by_cases hlater : index ∈ indices
    · exact ih (hw.set (fun _ => rfl) first (f first)) hindices.2 hlater
    -- The last write to the index is the first of these, since the later ones go to other cells.
    obtain rfl : index = first := (List.mem_cons.1 hindex).resolve_right hlater
    obtain ⟨cells, hcells, hlaid, -⟩ := hw
    rw [← get_set_self hcells (hlaid.inside hindices.1) (f index)]
    show (w.setCells (indices.map fun index => (index, f index)) (w.set index (f index) s)).read
      w.block (w.position index) = _
    refine read_setCells_ne (fun cell hcell heq => ?_) w.block
    obtain ⟨other, hother, rfl⟩ := List.mem_map.1 hcell
    have hsame := hlaid.distinct (hindices.2 other hother) hindices.1 heq
    exact hlater (hsame ▸ hother)

/-- What is written to every index of a view is read back in the view's element type. -/
theorem setCells_shows (hw : w.WellFormed s) (hshape : w.shape = c.shape) :
    w.Shows (w.setCells c.cells s) (c.cast w.elt) := by
  refine ⟨hshape, fun index hindex => ?_⟩
  refine get_setCells_map hw (fun other hother => ?_) c.get (Shape.mem_indices.2 hindex)
  exact hshape ▸ Shape.mem_indices.1 hother

/-! ## Parts -/

/-- Every index of the part stands for one of the whole, at the same address. -/
structure PartOf (place : List Nat → List Nat) (part whole : View) : Prop where
  block : part.block = whole.block
  elt : part.elt = whole.elt
  rank : part.strides.length = part.shape.length
  inRange : ∀ index, Shape.InRange part.shape index → Shape.InRange whole.shape (place index)
  address : ∀ index, Shape.InRange part.shape index →
    part.offset + distance index part.strides = whole.offset + distance (place index) whole.strides
  injective : Function.Injective place

namespace PartOf

variable {f g : List Nat → List Nat} {p q whole : View}

/-- A position along an axis is the part of the array that has that coordinate on the axis. -/
theorem indexAxis {axis : Nat} (hrank : whole.strides.length = whole.shape.length)
    (hi : i < whole.shape.getD axis 0) :
    PartOf (·.insertIdx axis i) (whole.indexAxis axis i) whole where
  block := rfl
  elt := rfl
  rank := by
    show (whole.strides.eraseIdx axis).length = (whole.shape.eraseIdx axis).length
    rw [List.length_eraseIdx, List.length_eraseIdx, hrank]
  inRange _ hindex := inRange_insertIdx hi hindex
  address _ hindex := indexAxis_address hrank hi hindex
  injective := List.insertIdx_injective axis i

theorem trans (h : PartOf f p q) (h' : PartOf g q whole) : PartOf (g ∘ f) p whole where
  block := h.block.trans h'.block
  elt := h.elt.trans h'.elt
  rank := h.rank
  inRange index hindex := h'.inRange _ (h.inRange index hindex)
  address index hindex := (h.address index hindex).trans (h'.address _ (h.inRange index hindex))
  injective := h'.injective.comp h.injective

variable (h : PartOf f p whole)
include h

theorem position_eq (hindex : Shape.InRange p.shape index) :
    p.position index = whole.position (f index) := by
  unfold position
  rw [h.address index hindex]

theorem get_eq (hindex : Shape.InRange p.shape index) : p.get s index = whole.get s (f index) := by
  unfold get
  rw [h.block, h.position_eq hindex]

theorem wellFormed (hwhole : whole.WellFormed s) : p.WellFormed s :=
  hwhole.of_laidOut h.block h.elt fun hlaid =>
    hlaid.of_standsFor f h.rank h.inRange h.address fun _ _ _ _ heq => h.injective heq

/-- A write to a part leaves those parts as they are that have other indices of the whole. -/
theorem shows_of_apart (h' : PartOf g q whole) (hwhole : whole.WellFormed s)
    (hapart : ∀ index index', Shape.InRange p.shape index → Shape.InRange q.shape index' →
      f index ≠ g index')
    (hc : c.shape = q.shape) (hshows : p.Shows s c') : p.Shows (q.setCells c.cells s) c' := by
  obtain ⟨cells, -, hlaid, -⟩ := hwhole
  refine ⟨hshows.shape_eq, fun index hindex => ?_⟩
  rw [← hshows.get_eq index hindex]
  have hindex : Shape.InRange p.shape index := hshows.shape_eq ▸ hindex
  refine read_setCells_ne (fun cell hcell heq => ?_) _
  obtain ⟨other, hother, rfl⟩ := List.mem_map.1 hcell
  have hother : Shape.InRange q.shape other := hc ▸ Shape.mem_indices.1 hother
  rw [h.position_eq hindex, h'.position_eq hother] at heq
  -- Both are indices of the whole, where one cell has one index.
  exact hapart index other hindex hother
    (hlaid.distinct (h'.inRange other hother) (h.inRange index hindex) heq).symm

end PartOf

/-! ## Slots -/

/-- Position `j` along the leading axis. -/
def slot (out : View) (j : Nat) : View :=
  out.indexAxis 0 j

/-- A well-formed array of `n` arrays of one shape along its leading axis. -/
structure Slots (out : View) (s : Store) (n : Nat) (shape : List Nat) : Prop where
  shape_eq : out.shape = n :: shape
  wellFormed : out.WellFormed s

namespace Slots

variable (h : Slots out s n shape)
include h

theorem slot_shape (j : Nat) : (out.slot j).shape = shape := by
  show out.shape.eraseIdx 0 = shape
  rw [h.shape_eq]
  rfl

/-- An index of a slot is one of the array with the slot's number before it. -/
theorem position_slot (j : Nat) (index : List Nat) :
    (out.slot j).position index = out.position (j :: index) := by
  obtain ⟨cells, -, hlaid, -⟩ := h.wellFormed
  have hrank : out.strides.length = shape.length + 1 := by
    rw [hlaid.rank, h.shape_eq, List.length_cons]
  obtain ⟨stride, strides, hstrides⟩ := List.exists_cons_of_length_eq_add_one hrank
  show (out.offset + j * out.strides.getD 0 0 + distance index (out.strides.eraseIdx 0)).toNat
    = (out.offset + distance (j :: index) out.strides).toNat
  rw [hstrides]
  show (out.offset + j * stride + distance index strides).toNat
    = (out.offset + (j * stride + distance index strides)).toNat
  rw [Int.add_assoc]

theorem get_slot (j : Nat) (index : List Nat) :
    (out.slot j).get s' index = out.get s' (j :: index) := by
  unfold get
  rw [h.position_slot]
  rfl

/-- A slot has the indices that start with its number. -/
theorem slot_partOf (hj : j < n) : PartOf (j :: ·) (out.slot j) out := by
  obtain ⟨cells, -, hlaid, -⟩ := h.wellFormed
  have hfirst : j < out.shape.getD 0 0 := h.shape_eq ▸ hj
  exact .indexAxis hlaid.rank hfirst

theorem slot_wellFormed (hj : j < n) : (out.slot j).WellFormed s :=
  (h.slot_partOf hj).wellFormed h.wellFormed

/-- What is written to a slot is read back there. -/
theorem set (hj : j < n) (hc : c.shape = shape) :
    Slots out ((out.slot j).setCells c.cells s) n shape
      ∧ (out.slot j).Shows ((out.slot j).setCells c.cells s) (c.cast out.elt) :=
  ⟨⟨h.shape_eq, h.wellFormed.setAll (w := out.slot j) (fun _ => rfl) id _⟩,
    setCells_shows (h.slot_wellFormed hj) ((h.slot_shape j).trans hc.symm)⟩

/-- A write to a slot leaves the others as they are. -/
theorem set_ne (hi : i < n) (hj : j < n) (hne : i ≠ j) (hc : c.shape = shape)
    (hshows : (out.slot i).Shows s c') :
    (out.slot i).Shows ((out.slot j).setCells c.cells s) c' :=
  (h.slot_partOf hi).shows_of_apart (h.slot_partOf hj) h.wellFormed
    (fun _ _ _ _ heq => hne (List.cons.inj heq).1) (hc.trans (h.slot_shape j).symm) hshows

/-- The elements of an array are those of its slots, one after the other. -/
theorem toFlat {rows : List Contents} (hlength : rows.length = n)
    (hrows : ∀ j (hj : j < rows.length), (out.slot j).Shows s rows[j]) :
    out.toFlat s = rows.flatMap Contents.flat := by
  have hshape : ∀ c ∈ rows, c.shape = shape := by
    intro c hc
    obtain ⟨j, hj, rfl⟩ := List.getElem_of_mem hc
    exact (hrows j hj).shape_eq.symm.trans (h.slot_shape j)
  have hshows : out.Shows s (Contents.stacked rows shape) := by
    refine ⟨h.shape_eq.trans (congrArg (· :: shape) hlength.symm), fun index hindex => ?_⟩
    obtain ⟨j, index, hj, hrest, rfl⟩ := List.forall₂_cons_right_iff.1 hindex
    rw [← h.get_slot, Contents.get_stacked (List.getElem?_eq_getElem hj)]
    exact (hrows j hj).get_eq index (hshape _ (List.getElem_mem hj) ▸ hrest)
  rw [hshows.toFlat_eq, Contents.flat_stacked hshape]

end Slots
end View
end ArrayLang
