import ArrayLang.Proofs.Array.Contents
import Mathlib.Data.List.Nodup
import Mathlib.Data.List.ProdSigma

/-!
# Arrangements of parts

An array may be made of parts of one shape, one for each of some positions. Where the parts lie is said by an
arrangement: it tells the shape of the array from that of the parts, and which index of the array an index of
a part is. Different parts have no index in common, so that each can be written without a trace on the others.

Parts lie along an axis of the array, which is the last one if the parts have too few axes, or they lie in
the rows and columns of its two leading axes.

## Main results

- `Arrangement.along`, `Arrangement.pairs`: the two arrangements.
- `Arrangement.set_shows`, `Arrangement.set_shows_ne`: what is written to a part.
-/

namespace ArrayLang

/-- Where parts of one shape lie in an array, in the order of their positions. The slot of a position is the
view of its part, and an index of the part has its place among those of the array. -/
structure Arrangement (ι : Type) where
  positions : List ι
  shape : List Nat → List Nat
  slot : List Nat → View → ι → View
  place : List Nat → ι → List Nat → List Nat
  nodup : positions.Nodup
  slot_shape {inner : List Nat} {out : View} (i : ι) (hout : out.shape = shape inner) :
    (slot inner out i).shape = inner
  slot_partOf {inner : List Nat} {out : View} {i : ι} (hi : i ∈ positions)
    (hout : out.shape = shape inner) (hrank : out.strides.length = out.shape.length) :
    (slot inner out i).PartOf (place inner i) out
  place_ne {inner : List Nat} {i j : ι} {index index' : List Nat} (hij : i ≠ j)
    (hindex : Shape.InRange inner index) (hindex' : Shape.InRange inner index') :
    place inner i index ≠ place inner j index'

/-- An index with a coordinate on the axis is that of the other axes with the coordinate put back. -/
theorem View.exists_insertIdx_of_inRange {shape index : List Nat} {axis : Nat}
    (haxis : axis < shape.length) (h : Shape.InRange shape index) :
    ∃ i rest, i < shape.getD axis 0 ∧ Shape.InRange (shape.eraseIdx axis) rest
      ∧ index = rest.insertIdx axis i := by
  have hindex : axis < index.length := h.length_eq ▸ haxis
  refine ⟨index[axis], index.eraseIdx axis, ?_, ?_, ?_⟩
  · rw [List.getD_eq_getElem _ _ haxis]
    exact h.get hindex haxis
  · rw [List.eraseIdx_eq_take_drop_succ, List.eraseIdx_eq_take_drop_succ]
    exact List.rel_append (List.forall₂_take axis h) (List.forall₂_drop (axis + 1) h)
  · exact (List.insertIdx_eraseIdx_getElem hindex).symm

namespace Arrangement

open View

variable {ι : Type} {a : Arrangement ι} {inner index index' : List Nat} {out : View} {s : Store}
  {c c' : Contents} {i j : ι}

/-! ## Writing a part -/

section Write

variable (hout : out.shape = a.shape inner) (hwf : out.WellFormed s)
include hout hwf

theorem partOf (hi : i ∈ a.positions) : (a.slot inner out i).PartOf (a.place inner i) out := by
  obtain ⟨cells, -, hlaid, -⟩ := hwf
  exact a.slot_partOf hi hout hlaid.rank

theorem set_wellFormed (hi : i ∈ a.positions) (cells : List (List Nat × Scalar)) :
    out.WellFormed ((a.slot inner out i).setCells cells s) := by
  have hpart := a.partOf hout hwf hi
  exact hwf.setAll (w := a.slot inner out i) (fun _ => hpart.elt) id cells

/-- What is written to a part is read back there, in the element type of the array. -/
theorem set_shows (hi : i ∈ a.positions) (hc : c.shape = inner) :
    (a.slot inner out i).Shows ((a.slot inner out i).setCells c.cells s) (c.cast out.elt) := by
  have hpart := a.partOf hout hwf hi
  rw [← hpart.elt]
  exact setCells_shows (hpart.wellFormed hwf) ((a.slot_shape i hout).trans hc.symm)

/-- Other parts stay as they are. -/
theorem set_shows_ne (hi : i ∈ a.positions) (hj : j ∈ a.positions) (hij : i ≠ j)
    (hc : c.shape = inner) (hshows : (a.slot inner out i).Shows s c') :
    (a.slot inner out i).Shows ((a.slot inner out j).setCells c.cells s) c' := by
  refine (a.partOf hout hwf hi).shows_of_apart (a.partOf hout hwf hj) hwf (fun index index' h h' => ?_)
    (hc.trans (a.slot_shape j hout).symm) hshows
  rw [a.slot_shape i hout] at h
  rw [a.slot_shape j hout] at h'
  exact a.place_ne hij h h'

end Write

/-! ## The two arrangements -/

theorem getD_insertIdx_self {l : List Nat} {n x : Nat} (h : n ≤ l.length) (d : Nat) :
    (l.insertIdx n x).getD n d = x := by
  rw [List.getD_eq_getElem?_getD, List.getElem?_insertIdx_self, if_pos h]
  rfl

/-- The parts lie along an axis, or along the last one if they have too few axes. -/
def along (axis len : Nat) : Arrangement Nat where
  positions := List.range len
  shape inner := inner.insertIdx (min axis inner.length) len
  slot inner out i := out.indexAxis (min axis inner.length) i
  place inner i index := index.insertIdx (min axis inner.length) i
  nodup := List.nodup_range
  slot_shape {inner out} i hout := by
    show out.shape.eraseIdx (min axis inner.length) = inner
    rw [hout, List.eraseIdx_insertIdx_self]
  slot_partOf {inner out i} hi hout hrank := by
    refine .indexAxis hrank ?_
    rw [hout, getD_insertIdx_self (Nat.min_le_right _ _)]
    exact List.mem_range.1 hi
  place_ne {inner i j index index'} hij hindex hindex' heq := by
    -- The coordinate on the axis is the position.
    have hcoordinate := congrArg (·.getD (min axis inner.length) 0) heq
    rw [getD_insertIdx_self (hindex.length_eq ▸ Nat.min_le_right _ _),
      getD_insertIdx_self (hindex'.length_eq ▸ Nat.min_le_right _ _)] at hcoordinate
    exact hij hcoordinate

theorem positions_along (axis n : Nat) :
    (along axis (n + 1)).positions = 0 :: List.range' 1 n := by
  show List.range (n + 1) = _
  rw [List.range_eq_range', List.range'_succ]

/-- The parts lie in rows and columns, the leading axes, row by row. -/
def pairs (rows columns : Nat) : Arrangement (Nat × Nat) where
  positions := List.range rows ×ˢ List.range columns
  shape inner := rows :: columns :: inner
  slot _ out i := (out.indexAxis 0 i.1).indexAxis 0 i.2
  place _ i index := i.1 :: i.2 :: index
  nodup := List.nodup_range.product List.nodup_range
  slot_shape {inner out} i hout := by
    show (out.shape.eraseIdx 0).eraseIdx 0 = inner
    rw [hout]
    rfl
  slot_partOf {inner out i} hi hout hrank := by
    obtain ⟨hrow, hcolumn⟩ := List.mem_product.1 hi
    have hfirst : i.1 < out.shape.getD 0 0 := hout ▸ List.mem_range.1 hrow
    have hsecond : i.2 < (out.indexAxis 0 i.1).shape.getD 0 0 := by
      show i.2 < (out.shape.eraseIdx 0).getD 0 0
      rw [hout]
      exact List.mem_range.1 hcolumn
    have hrow := PartOf.indexAxis hrank hfirst
    exact (PartOf.indexAxis hrow.rank hsecond).trans hrow
  place_ne {inner i j index index'} hij _ _ heq := by
    obtain ⟨hfirst, hrest⟩ := List.cons.inj heq
    exact hij (Prod.ext hfirst (List.cons.inj hrest).1)

/-- Row by row is the order of the indices of the two axes. -/
theorem positions_pairs (rows columns : Nat) :
    (pairs rows columns).positions.map (fun i => [i.1, i.2]) = Shape.indices [rows, columns] := by
  show ((List.range rows).flatMap fun i => (List.range columns).map (Prod.mk i)).map _ = _
  rw [Shape.indices_cons, List.map_flatMap]
  refine List.flatMap_congr fun i _ => ?_
  rw [Shape.indices_cons, List.map_flatMap, List.map_map]
  show _ = (List.range columns).flatMap fun j => [[i, j]]
  rw [← List.map_eq_flatMap]
  rfl

end Arrangement
end ArrayLang
