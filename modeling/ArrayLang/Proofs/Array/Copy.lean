import ArrayLang.Proofs.Array.Broadcast
import ArrayLang.Proofs.Array.Contents
import ArrayLang.Proofs.Run

/-!
# Copying into an array

The source of a copy is broadcast to the target, which may have longer and further axes. The two may be
views of one block, in any directions: the source is read as a whole before the first element is written,
and an index of the target is the only one at its cell. So the target ends up with the elements that the
source had before.

## Main results

- `View.copyFrom_outcome`: which copies fail, and what the others change.
-/

namespace ArrayLang

namespace View

open Run

variable {κ ε : Type} {v src : View} {s : Store}

/-- The cell belongs to an index of the view. -/
def Covers (v : View) (b i : Nat) : Prop :=
  b = v.block ∧ ∃ index, Shape.InRange v.shape index ∧ i = v.position index

/-- The view holds the elements that the source had, in its own element type. No cell of another index or
block has changed. -/
structure CopiedFrom (v src : View) (s s' : Store) : Prop where
  get_eq : ∀ index, Shape.InRange v.shape index →
    Shape.InRange src.shape (Shape.aligned src.shape index)
      ∧ v.get s' index = (src.get s (Shape.aligned src.shape index)).cast v.elt
  changesOnly : s.ChangesOnly v.Covers s'

/-- What is written to a view is read from the source before, if the source broadcasts to the view. -/
theorem cellsFrom_eq (v src : View) (s : Store) :
    v.cellsFrom src s = if Shape.BroadcastsTo src.shape v.shape
      then .ok ((Shape.indices v.shape).map fun index =>
        (index, src.get s (Shape.aligned src.shape index)))
      else .error (.shapeMismatch v.shape src.shape) := by
  have hbroadcast : Shape.broadcast [v.shape, src.shape] = some v.shape
      ↔ Shape.BroadcastsTo src.shape v.shape := Shape.broadcast_eq_left_iff
  unfold cellsFrom rank
  by_cases hfits : Shape.BroadcastsTo src.shape v.shape
  · have hrank := hfits.1
    rw [if_pos hfits, if_neg]
    · rfl
    · rintro (hlonger | hother)
      · omega
      · exact hother (hbroadcast.2 hfits)
  · have hother : Shape.broadcast [v.shape, src.shape] ≠ some v.shape := mt hbroadcast.1 hfits
    rw [if_neg hfits, if_pos (.inr hother)]

/-- A copy of a source that does not broadcast to the view is refused, and one that does is made of the
elements that the source has before. -/
theorem copyFrom_outcome (hv : v.WellFormed s) (src : View) :
    if Shape.BroadcastsTo src.shape v.shape then
      ∃ s', v.copyFrom src s = .ok s' ∧ v.CopiedFrom src s s'
    else v.copyFrom src s = .error (.shapeMismatch v.shape src.shape) := by
  unfold copyFrom
  rw [cellsFrom_eq]
  by_cases hfits : Shape.BroadcastsTo src.shape v.shape
  · rw [if_pos hfits, if_pos hfits]
    -- What is written was read in `s`, so it does not matter whether the writes change the source.
    refine ⟨_, rfl, fun index hindex => ⟨hfits.inRange_aligned hindex, ?_⟩, ?_⟩
    · exact get_setCells_map hv (fun _ hother => Shape.mem_indices.1 hother)
        (fun index => src.get s (Shape.aligned src.shape index)) (Shape.mem_indices.2 hindex)
    · refine (setCells_changesOnly v _ s).mono ?_
      rintro b i ⟨hb, cell, hcell, hi⟩
      obtain ⟨index, hindex, rfl⟩ := List.mem_map.1 hcell
      exact ⟨hb, index, Shape.mem_indices.1 hindex, hi⟩
  · rw [if_neg hfits, if_neg hfits]
    rfl

/-- A result that is an array is copied into its slot. -/
theorem exec_store_array (v src : View) (σ : State κ) :
    exec (Adverb.store v (.array src) : Run κ (AdverbStop ε) Unit) σ
      = match v.copyFrom src σ.store with
        | .ok s => (.ok (), ⟨s, σ.context⟩)
        | .error e => (.error (.adverb (.array e)), σ) := by
  unfold Adverb.store Adverb.writeSlot copyFrom
  rw [exec_attempt]
  dsimp only
  cases v.cellsFrom src σ.store <;> rfl

/-- Take a well-formed view and any source, which may be a view of the same block. If the source broadcasts to
the view, a copy leaves every index of the view with the element that the source had, in the view's element
type, and changes no other cell. Otherwise the copy fails and the store stays as it is. -/
theorem store_array_outcome {σ : State κ} (hv : v.WellFormed σ.store) (src : View) :
    if Shape.BroadcastsTo src.shape v.shape then
      ∃ s', v.copyFrom src σ.store = .ok s' ∧ v.CopiedFrom src σ.store s'
        ∧ exec (Adverb.store v (.array src) : Run κ (AdverbStop ε) Unit) σ
          = (.ok (), ⟨s', σ.context⟩)
    else
      v.copyFrom src σ.store = .error (.shapeMismatch v.shape src.shape)
        ∧ exec (Adverb.store v (.array src) : Run κ (AdverbStop ε) Unit) σ
          = (.error (.adverb (.array (.shapeMismatch v.shape src.shape))), σ) := by
  have hcopy := copyFrom_outcome hv src
  rw [exec_store_array]
  by_cases hfits : Shape.BroadcastsTo src.shape v.shape
  · rw [if_pos hfits] at hcopy ⊢
    obtain ⟨s', hs', hcopied⟩ := hcopy
    refine ⟨s', hs', hcopied, ?_⟩
    rw [hs']
  · rw [if_neg hfits] at hcopy ⊢
    refine ⟨hcopy, ?_⟩
    rw [hcopy]

/-- Two rows of two numbers, alone in a store. -/
def twoRows : View × Store :=
  ofFlat .int8 [2, 2] [.int 1, .int 2, .int 3, .int 4] ∅

/-- The last row from right to left. -/
def lastRowBackwards : View :=
  ⟨.int8, 0, [2], [-1], 3⟩

/-- Both rows become the last one from right to left, as it was. -/
theorem store_array_outcome_backwards :
    twoRows.1.WellFormed twoRows.2 ∧ lastRowBackwards.block = twoRows.1.block
      ∧ ∃ s', twoRows.1.copyFrom lastRowBackwards twoRows.2 = .ok s'
        ∧ twoRows.1.toFlat s' = [.int 4, .int 3, .int 4, .int 3] := by
  have hwellFormed : twoRows.1.WellFormed twoRows.2 := ofFlat_wellFormed .int8 ∅ rfl
  have hcopy := store_array_outcome (κ := Unit) (ε := Unit) (σ := ⟨twoRows.2, ()⟩) hwellFormed
    lastRowBackwards
  rw [if_pos (by decide)] at hcopy
  obtain ⟨s', hs', hcopied, -⟩ := hcopy
  refine ⟨hwellFormed, rfl, s', hs', ?_⟩
  have hget (index : List Nat) (hindex : index ∈ Shape.indices twoRows.1.shape) :=
    (hcopied.get_eq index (Shape.mem_indices.1 hindex)).2
  exact (List.map_congr_left hget).trans rfl

end View
end ArrayLang
