import ArrayLang.Proofs.Array.Copy

/-!
# Stacking arrays

Arrays of one shape are stacked at once, or written one after the other into the slots of an array. A slot
takes more than arrays of its own shape: it stretches the axes of length 1 along its own. So slots that
have the shape of the first array hold what stacking gives when all shapes are equal, and there is no
difference in what they refuse unless some array has another shape and can be stretched.

## Main results

- `View.Shows.cellsFrom_ok`, `View.Shows.cellsFrom_error`: what is written to a slot.
- `Contents.stackItems_ok`, `Contents.stackItems_error`: when contents are stacked.
-/

namespace ArrayLang

namespace Contents

variable {c : Contents} {shape : List Nat}

/-- The contents of an array that is stretched to a shape. -/
def stretch (c : Contents) (shape : List Nat) : Contents :=
  ⟨shape, fun index => c.get (Shape.shrink c.shape index)⟩

theorem flat_stretch_self (c : Contents) : (c.stretch c.shape).flat = c.flat :=
  List.map_congr_left fun _ hindex => congrArg c.get (Shape.shrink_self (Shape.mem_indices.1 hindex))

/-- Arrays that have the shape already are put one after the other. -/
theorem flatMap_stretch {cs : List Contents} (h : ∀ c ∈ cs, c.shape = shape) (elt : ElemType) :
    (cs.map fun c => (c.stretch shape).cast elt).flatMap flat
      = (cs.flatMap flat).map (·.cast elt) := by
  rw [List.flatMap_map, List.map_flatMap]
  refine List.flatMap_congr fun c hc => ?_
  rw [flat_cast, ← h c hc, flat_stretch_self]

theorem stackItems_cons (item : List Nat × List Scalar) (items : List (List Nat × List Scalar)) :
    View.stackItems (item :: items) =
      match (item :: items).find? (fun other => other.1 ≠ item.1) with
      | some other => .error (.ragged item.1 other.1)
      | none => .ok ((items.length + 1) :: item.1, (item :: items).flatMap (·.2)) :=
  rfl

/-- Contents are stacked when all have the shape of the first. -/
theorem stackItems_ok {first : Contents} {rest : List Contents}
    (h : ∀ c ∈ rest, c.shape = first.shape) :
    View.stackItems ((first :: rest).map fun c => (c.shape, c.flat))
      = .ok ((rest.length + 1) :: first.shape, (first :: rest).flatMap Contents.flat) := by
  have hfind : ((first :: rest).map fun c => (c.shape, c.flat)).find?
      (fun other => other.1 ≠ first.shape) = none := by
    rw [List.find?_eq_none, List.forall_mem_map, List.forall_mem_cons]
    exact ⟨by simp, fun c hc => by simp [h c hc]⟩
  rw [List.map_cons] at hfind ⊢
  rw [stackItems_cons, hfind, ← List.map_cons (f := fun c : Contents => (c.shape, c.flat)),
    List.flatMap_map, List.length_map]

/-- Otherwise they are refused. -/
theorem stackItems_error {first : Contents} {rest : List Contents}
    (h : ¬∀ c ∈ rest, c.shape = first.shape) :
    ∃ other, View.stackItems ((first :: rest).map fun c => (c.shape, c.flat))
      = .error (.ragged first.shape other) := by
  rw [List.map_cons, stackItems_cons]
  cases hfind : ((first.shape, first.flat) :: rest.map fun c => (c.shape, c.flat)).find?
      (fun other => other.1 ≠ first.shape) with
  | some item => exact ⟨item.1, rfl⟩
  | none =>
    rw [List.find?_eq_none, List.forall_mem_cons, List.forall_mem_map] at hfind
    exact absurd (fun c hc => by simpa using hfind.2 c hc) h

end Contents

namespace View

variable {v src : View} {s : Store} {c : Contents} {shape : List Nat}

theorem Shows.get_aligned (h : src.Shows s c) (hstretch : Shape.Stretches c.shape shape)
    {index : List Nat} (hindex : Shape.InRange shape index) :
    src.get s (Shape.aligned src.shape index) = c.get (Shape.shrink c.shape index) := by
  have hlength : index.length = c.shape.length := hindex.length_eq.trans hstretch.length_eq.symm
  rw [h.shape_eq, Shape.aligned_eq_shrink hlength]
  exact h.get_eq _ (hstretch.inRange_shrink hindex)

/-- An array that can be stretched to the shape of a slot is written there. -/
theorem Shows.cellsFrom_ok (h : src.Shows s c) (hshape : v.shape = shape)
    (hstretch : Shape.Stretches c.shape shape) : v.cellsFrom src s = .ok (c.stretch shape).cells := by
  rw [cellsFrom_eq, h.shape_eq, hshape, if_pos]
  · refine congrArg Except.ok (List.map_congr_left fun index hindex => ?_)
    rw [← h.shape_eq, h.get_aligned hstretch (Shape.mem_indices.1 hindex)]
    rfl
  · exact (Shape.broadcastsTo_iff_stretches hstretch.length_eq).2 hstretch

/-- An array of as many axes that cannot is refused. -/
theorem Shows.cellsFrom_error (h : src.Shows s c) (hshape : v.shape = shape)
    (hrank : c.shape.length = shape.length) (hstretch : ¬Shape.Stretches c.shape shape) :
    v.cellsFrom src s = .error (.shapeMismatch shape c.shape) := by
  rw [cellsFrom_eq, h.shape_eq, hshape, if_neg]
  exact mt (Shape.broadcastsTo_iff_stretches hrank).1 hstretch

end View
end ArrayLang
