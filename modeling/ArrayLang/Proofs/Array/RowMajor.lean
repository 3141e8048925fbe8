import ArrayLang.Proofs.Array.Stack

/-!
# Row-major order

The indices of a shape can be gone through one by one, like the digits of a counter: the last coordinate
moves on, and one that comes to the end of its axis starts again and carries into the coordinate before it.
That gives the indices in the order in which they are listed, which is the lexicographic one, and in which
the elements of arrays are made, read and stacked.

What carries the induction is one row: while the first coordinate stays, the counter goes through the
indices of the remaining axes, and its last carry is the step to the next row (`Shape.Counts.row`).

## Main results

- `Shape.indices_counted`: counting goes through the listed indices.
- `Shape.indices_pairwise_lt`, `Shape.count_indices`: they are in order, and each is there once.
- `View.stack_outcome`: the elements of a stack.
- `View.rowMajor_order`: making, reading and stacking arrays follow that order.
-/

namespace ArrayLang

namespace Shape

variable {shape dims index rest : List Nat} {dim i n : Nat}

/-! ## Counting through the indices -/

/-- Adds one to the last coordinate. A coordinate that comes to the end of its axis starts again and carries.
Also returns whether the first one did. -/
def advance : List Nat → List Nat → List Nat × Bool
  | dim :: dims, i :: index =>
    let (rest, carried) := advance dims index
    if carried then if i + 1 < dim then ((i + 1) :: rest, false) else (0 :: rest, true)
    else (i :: rest, false)
  | _, _ => ([], true)

/-- The index after an index, if there is one. -/
def next? (shape index : List Nat) : Option (List Nat) :=
  let (following, carried) := advance shape index
  if carried then none else some following

/-- The index to start with, if the shape has elements. -/
def first? (shape : List Nat) : Option (List Nat) :=
  if 0 ∈ shape then none else some (List.replicate shape.length 0)

/-- Counting from an index on goes through the listed ones and ends. -/
inductive Counts (shape : List Nat) : Option (List Nat) → List (List Nat) → Prop
  | done : Counts shape none []
  | next (index : List Nat) {rest : List (List Nat)} (h : Counts shape (next? shape index) rest) :
    Counts shape (some index) (index :: rest)

theorem advance_cons_of_carried (h : (advance dims index).2 = true) :
    advance (dim :: dims) (i :: index)
      = if i + 1 < dim then ((i + 1) :: (advance dims index).1, false)
        else (0 :: (advance dims index).1, true) := by
  rw [advance]
  exact if_pos h

theorem advance_cons_of_kept (h : (advance dims index).2 = false) :
    advance (dim :: dims) (i :: index) = (i :: (advance dims index).1, false) := by
  rw [advance]
  exact if_neg (by simp [h])

theorem length_advance (h : index.length = shape.length) :
    (advance shape index).1.length = shape.length := by
  induction shape generalizing index with
  | nil => simp [advance]
  | cons dim dims ih =>
    obtain ⟨i, index, rfl⟩ := List.exists_cons_of_length_eq_add_one h
    have hrest := congrArg (· + 1) (ih (Nat.succ.inj h))
    cases hcarried : (advance dims index).2 with
    | true =>
      rw [advance_cons_of_carried hcarried]
      split <;> exact hrest
    | false =>
      rw [advance_cons_of_kept hcarried]
      exact hrest

/-- When the first coordinate carries, all of them start again. -/
theorem advance_of_carried (h : index.length = shape.length) (hcarried : (advance shape index).2 = true) :
    (advance shape index).1 = List.replicate shape.length 0 := by
  induction shape generalizing index with
  | nil => simp [advance]
  | cons dim dims ih =>
    obtain ⟨i, index, rfl⟩ := List.exists_cons_of_length_eq_add_one h
    cases hinner : (advance dims index).2 with
    | true =>
      rw [advance_cons_of_carried hinner] at hcarried ⊢
      by_cases hlast : i + 1 < dim
      · rw [if_pos hlast] at hcarried
        cases hcarried
      · rw [if_neg hlast, ih (Nat.succ.inj h) hinner]
        rfl
    | false =>
      rw [advance_cons_of_kept hinner] at hcarried
      cases hcarried

theorem length_next? (h : index.length = shape.length) (hnext : next? shape index = some rest) :
    rest.length = shape.length := by
  unfold next? at hnext
  dsimp only at hnext
  split at hnext
  · cases hnext
  · cases hnext
    exact length_advance h

/-- The first index of the row after row `i`. -/
def nextRow? (dim : Nat) (dims : List Nat) (i : Nat) : Option (List Nat) :=
  if i + 1 < dim then some ((i + 1) :: List.replicate dims.length 0) else none

/-- The counter goes on within its row as long as it can. -/
theorem next?_cons (h : index.length = dims.length) :
    next? (dim :: dims) (i :: index) = match next? dims index with
      | some following => some (i :: following)
      | none => nextRow? dim dims i := by
  unfold next? nextRow?
  cases hcarried : (advance dims index).2 with
  | false => simp [advance_cons_of_kept hcarried, hcarried]
  | true =>
    rw [advance_cons_of_carried hcarried, advance_of_carried h hcarried]
    by_cases hlast : i + 1 < dim <;> simp [hlast, hcarried]

/-- A row is gone through like the remaining axes, and then comes the next row. -/
theorem Counts.row {row rows : List (List Nat)} (h : Counts dims (some index) row)
    (hlength : index.length = dims.length)
    (hrows : Counts (dim :: dims) (nextRow? dim dims i) rows) :
    Counts (dim :: dims) (some (i :: index)) (row.map (i :: ·) ++ rows) := by
  generalize hstart : some index = start at h
  induction h generalizing index with
  | done => cases hstart
  | @next _ row hrest ih =>
    obtain rfl := Option.some.inj hstart
    refine .next (i :: index) ?_
    rw [next?_cons hlength]
    cases hnext : next? dims index with
    | none =>
      rw [hnext] at hrest
      cases hrest
      exact hrows
    | some following => exact ih (length_next? hlength hnext) hnext.symm

/-- The rows from row `i` on. -/
theorem Counts.rows (h : Counts dims (some (List.replicate dims.length 0)) (indices dims))
    (hi : i + (n + 1) = dim) :
    Counts (dim :: dims) (some (i :: List.replicate dims.length 0))
      ((List.range' i (n + 1)).flatMap fun i => (indices dims).map (i :: ·)) := by
  induction n generalizing i with
  | zero =>
    rw [List.range'_succ, List.flatMap_cons]
    refine h.row List.length_replicate ?_
    rw [nextRow?, if_neg (by omega)]
    exact .done
  | succ n ih =>
    rw [List.range'_succ, List.flatMap_cons]
    refine h.row List.length_replicate ?_
    rw [nextRow?, if_pos (by omega)]
    exact ih (by omega)

theorem size_eq_zero_iff : size shape = 0 ↔ 0 ∈ shape := by
  induction shape with
  | nil => simp [size]
  | cons dim dims ih => simp [size, ih, eq_comm]

theorem indices_counted (shape : List Nat) : Counts shape (first? shape) (indices shape) := by
  induction shape with
  | nil => exact .next [] .done
  | cons dim dims ih =>
    by_cases hzero : 0 ∈ dim :: dims
    · rw [indices_eq_nil (size_eq_zero_iff.2 hzero), first?, if_pos hzero]
      exact .done
    · rw [List.mem_cons, not_or] at hzero
      obtain ⟨hdim, hdims⟩ := hzero
      obtain ⟨n, rfl⟩ := Nat.exists_eq_succ_of_ne_zero (Ne.symm hdim)
      rw [first?, if_neg hdims] at ih
      rw [first?, if_neg (by simp [hdims]), indices_cons, List.range_eq_range']
      exact ih.rows (Nat.zero_add _)

/-! ## The order of the indices -/

theorem indices_pairwise_lt (shape : List Nat) : (indices shape).Pairwise (· < ·) := by
  induction shape with
  | nil => exact List.pairwise_singleton _ _
  | cons dim dims ih =>
    rw [indices_cons, List.pairwise_flatMap]
    constructor
    · intro i _
      rw [List.pairwise_map]
      exact ih.imp fun hlt => List.cons_lt_cons_iff.2 (.inr ⟨rfl, hlt⟩)
    · refine List.pairwise_lt_range.imp fun hij x hx y hy => ?_
      obtain ⟨index, -, rfl⟩ := List.mem_map.1 hx
      obtain ⟨index', -, rfl⟩ := List.mem_map.1 hy
      exact List.cons_lt_cons_iff.2 (.inl hij)

/-- Every index of the shape is listed once, and nothing else is. -/
theorem count_indices (shape index : List Nat) :
    (indices shape).count index = if InRange shape index then 1 else 0 := by
  have hnodup : (indices shape).Nodup := by
    refine (indices_pairwise_lt shape).imp fun {a b} hlt heq => ?_
    exact List.lt_irrefl a (heq ▸ hlt)
  rw [hnodup.count]
  exact if_congr mem_indices rfl rfl

end Shape

/-! ## Stacks -/

namespace Contents

variable {rows : List Contents} {shape : List Nat}

/-- Contents of one shape are stacked. -/
theorem stackItems_equal (h : ∀ c ∈ rows, c.shape = shape) :
    ∃ inner, (∀ c ∈ rows, c.shape = inner)
      ∧ View.stackItems (rows.map fun c => (c.shape, c.flat))
        = .ok ((stacked rows inner).shape, (stacked rows inner).flat) := by
  cases rows with
  | nil => exact ⟨[], fun _ hc => absurd hc List.not_mem_nil, rfl⟩
  | cons first rest =>
    obtain ⟨hfirst, hrest⟩ := List.forall_mem_cons.1 h
    refine ⟨shape, h, ?_⟩
    rw [stackItems_ok fun c hc => (hrest c hc).trans hfirst.symm, flat_stacked h, hfirst]
    rfl

end Contents

namespace View

variable {s : Store} {items : List View} {shape : List Nat}

/-- What the array holds. -/
def contents (v : View) (s : Store) : Contents :=
  ⟨v.shape, v.get s⟩

/-- A new array shows the contents that it is made from, cast to its element type. -/
theorem ofFlat_shows (elt : ElemType) (c : Contents) (s : Store) :
    (ofFlat elt c.shape c.flat s).1.Shows (ofFlat elt c.shape c.flat s).2 (c.cast elt) := by
  rw [shows_iff_toFlat rfl, c.flat_cast]
  exact toFlat_ofFlat elt s c.length_flat

/-- Arrays of one shape are stacked. -/
theorem stack_equal (elt : ElemType) (h : ∀ v ∈ items, v.shape = shape) (s : Store) :
    ∃ inner, (∀ v ∈ items, v.shape = inner)
      ∧ stack elt items s = .ok (ofFlat elt (Contents.stacked (items.map (·.contents s)) inner).shape
        (Contents.stacked (items.map (·.contents s)) inner).flat s) := by
  have hrows : ∀ c ∈ items.map (·.contents s), c.shape = shape := List.forall_mem_map.2 h
  obtain ⟨inner, hinner, hstacked⟩ := Contents.stackItems_equal hrows
  rw [List.map_map] at hstacked
  exact ⟨inner, List.forall_mem_map.1 hinner, congrArg (Except.map _) hstacked⟩

/-- Well-formed arrays of one shape are stacked in a new array. Its elements are those of the arrays, one
after the other, cast to its element type, and each position along its leading axis holds one array. -/
theorem stack_outcome (elt : ElemType) (hitems : ∀ v ∈ items, v.WellFormed s ∧ v.shape = shape) :
    ∃ out s', stack elt items s = .ok (out, s') ∧ out.WellFormed s'
      ∧ out.toFlat s' = (items.flatMap (·.toFlat s)).map (·.cast elt)
      ∧ ∀ i (hi : i < items.length), out.shape = items.length :: items[i].shape
        ∧ (out.indexAxis 0 i).shape = items[i].shape
        ∧ ∀ index, Shape.InRange items[i].shape index →
          (out.indexAxis 0 i).get s' index = (items[i].get s' index).cast elt := by
  obtain ⟨inner, hinner, hstack⟩ := stack_equal elt (fun v hv => (hitems v hv).2) s
  have hlength : (Contents.stacked (items.map (·.contents s)) inner).shape = items.length :: inner :=
    congrArg (· :: inner) (List.length_map _)
  have hflat : (Contents.stacked (items.map (·.contents s)) inner).flat
      = items.flatMap (·.toFlat s) := by
    rw [Contents.flat_stacked (List.forall_mem_map.2 hinner), List.flatMap_map]
    rfl
  have hget (i : Nat) (hi : i < items.length) (index : List Nat) :
      (Contents.stacked (items.map (·.contents s)) inner).get (i :: index) = items[i].get s index := by
    have hrow : (items.map (·.contents s))[i]? = some (items[i].contents s) := by
      rw [List.getElem?_map, List.getElem?_eq_getElem hi]
      rfl
    exact Contents.get_stacked hrow
  generalize Contents.stacked (items.map (·.contents s)) inner = c at hstack hlength hflat hget
  have hshows := ofFlat_shows elt c s
  have hwellFormed := ofFlat_wellFormed elt s c.length_flat
  have htouches : s.TouchesOnly (fun _ => False) (ofFlat elt c.shape c.flat s).2 := .alloc _ _ _
  generalize ofFlat elt c.shape c.flat s = made at hstack hshows hwellFormed htouches
  obtain ⟨out, s'⟩ := made
  have hslots : Slots out s' items.length inner := ⟨hshows.shape_eq.trans hlength, hwellFormed⟩
  refine ⟨out, s', hstack, hwellFormed, ?_, fun i hi => ?_⟩
  · rw [hshows.toFlat_eq, c.flat_cast, hflat]
  · -- The new block leaves the array as it was.
    have hkept : items[i].get s' = items[i].get s := funext fun index =>
      get_of_touches htouches (hitems _ (List.getElem_mem hi)).1.block_lt id index
    rw [hinner _ (List.getElem_mem hi), hkept]
    refine ⟨hslots.shape_eq, hslots.slot_shape i, fun index hindex => ?_⟩
    have helement := hshows.get_eq (i :: index) (hlength ▸ .cons hi hindex)
    rw [← slot, hslots.get_slot, helement, ← hget i hi index]
    rfl

/-- Arrays are listed, made, read and stacked in row-major order. Counting through a shape goes through the
listed indices: those in range, each once, in lexicographic order. An array made from elements is read as
these elements in its element type. A stack of arrays of one shape is read as the arrays one after the
other in its element type, and each position along its leading axis is one array. -/
theorem rowMajor_order :
    (∀ shape, Shape.Counts shape (Shape.first? shape) (Shape.indices shape)
        ∧ (Shape.indices shape).Pairwise (· < ·)
        ∧ (∀ index, (Shape.indices shape).count index = if Shape.InRange shape index then 1 else 0)
        ∧ (0 ∈ shape → Shape.indices shape = []))
      ∧ Shape.indices [] = [[]]
      ∧ (∀ (elt : ElemType) (shape : List Nat) (data : List Scalar) (s : Store),
        data.length = Shape.size shape →
          (ofFlat elt shape data s).1.toFlat (ofFlat elt shape data s).2 = data.map (·.cast elt))
      ∧ ∀ (elt : ElemType) (shape : List Nat) (items : List View) (s : Store),
        (∀ v ∈ items, v.WellFormed s ∧ v.shape = shape) →
          ∃ out s', stack elt items s = .ok (out, s') ∧ out.WellFormed s'
            ∧ out.toFlat s' = (items.flatMap (·.toFlat s)).map (·.cast elt)
            ∧ ∀ i (hi : i < items.length), out.shape = items.length :: items[i].shape
              ∧ (out.indexAxis 0 i).shape = items[i].shape
              ∧ ∀ index, Shape.InRange items[i].shape index →
                (out.indexAxis 0 i).get s' index = (items[i].get s' index).cast elt := by
  refine ⟨fun shape => ⟨?_, ?_, ?_, ?_⟩, rfl, fun elt shape data s => toFlat_ofFlat elt s,
    fun elt shape items s => stack_outcome elt⟩
  · exact Shape.indices_counted shape
  · exact Shape.indices_pairwise_lt shape
  · exact Shape.count_indices shape
  · exact fun hzero => Shape.indices_eq_nil (Shape.size_eq_zero_iff.2 hzero)

/-- Two arrays of numbers beyond bytes, stacked as bytes. -/
theorem rowMajor_order_rows :
    (ofFlat .int64 [2] [.int 300, .int 1] ∅).1.WellFormed (ofFlat .int64 [2] [.int 300, .int 1] ∅).2
      ∧ ∃ out s', stack .uint8 [(ofFlat .int64 [2] [.int 300, .int 1] ∅).1,
          (ofFlat .int64 [2] [.int 300, .int 1] ∅).1] (ofFlat .int64 [2] [.int 300, .int 1] ∅).2
          = .ok (out, s')
        ∧ out.toFlat s' = [.int 44, .int 1, .int 44, .int 1] := by
  have hwellFormed : (ofFlat .int64 [2] [.int 300, .int 1] ∅).1.WellFormed
      (ofFlat .int64 [2] [.int 300, .int 1] ∅).2 := ofFlat_wellFormed .int64 ∅ rfl
  obtain ⟨-, -, -, hstack⟩ := rowMajor_order
  obtain ⟨out, s', hout, -, hflat, -⟩ := hstack .uint8 [2]
    [(ofFlat .int64 [2] [.int 300, .int 1] ∅).1, (ofFlat .int64 [2] [.int 300, .int 1] ∅).1]
    (ofFlat .int64 [2] [.int 300, .int 1] ∅).2 (by simpa using ⟨hwellFormed, rfl⟩)
  exact ⟨hwellFormed, out, s', hout, hflat.trans rfl⟩

end View
end ArrayLang
