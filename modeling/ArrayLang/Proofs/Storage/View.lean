import ArrayLang.Proofs.Array.Layout
import ArrayLang.Proofs.Storage.Pairing

/-!
# Paired views

The same view of another block selects the same views, and of a paired block it reads the same
elements. Writing the same elements through both, and making the same arrays, keeps stores paired.
-/

namespace ArrayLang

namespace View

variable {ρ : Pairing} {s t : Store} {v src : View} {c : Nat}

/-- The same view of another block. -/
def on (v : View) (block : Nat) : View :=
  { v with block }

/-! ## Selecting -/

theorem selectFrom_on (v : View) (c axis : Nat) (items : List Subscript) :
    (v.on c).selectFrom axis items = (v.selectFrom axis items).map (·.on c) := by
  induction items generalizing v axis with
  | nil => rfl
  | cons item items ih =>
    cases item with
    | «at» index =>
      rw [selectFrom, selectFrom]
      show (resolveIndex index.toInt (v.shape.getD axis 0) >>= _) = Except.map _ (_ >>= _)
      cases resolveIndex index.toInt (v.shape.getD axis 0) with
      | error e => rfl
      | ok i => exact ih (v.indexAxis axis i) axis
    | slice slice =>
      rw [selectFrom, selectFrom]
      show (slice.resolve (v.shape.getD axis 0) >>= _) = Except.map _ (_ >>= _)
      cases slice.resolve (v.shape.getD axis 0) with
      | error e => rfl
      | ok range => exact ih (v.sliceAxis axis range) (axis + 1)

theorem select_on (v : View) (c : Nat) (items : List Subscript) :
    (v.on c).select items = (v.select items).map (·.on c) := by
  unfold select
  show (if v.rank < items.length then _ else _) = _
  split
  · rfl
  · exact selectFrom_on v c 0 items

/-! ## Reading -/

theorem get_on (h : ρ.Matches s t) (hc : ρ v.block c) (index : List Nat) :
    (v.on c).get t index = v.get s index :=
  h.read hc _

theorem getBroadcast_on (h : ρ.Matches s t) (hc : ρ v.block c) (index : List Nat) :
    (v.on c).getBroadcast t index = v.getBroadcast s index :=
  get_on h hc _

theorem toFlat_on (h : ρ.Matches s t) (hc : ρ v.block c) : (v.on c).toFlat t = v.toFlat s :=
  List.map_congr_left fun index _ => get_on h hc index

theorem cellsFrom_on (h : ρ.Matches s t) (hc : ρ src.block c) (v : View) (c' : Nat) :
    (v.on c').cellsFrom (src.on c) t = v.cellsFrom src s := by
  have hcells : (Shape.indices v.shape).map (fun index => (index, (src.on c).getBroadcast t index))
      = (Shape.indices v.shape).map fun index => (index, src.getBroadcast s index) :=
    List.map_congr_left fun index _ => by rw [getBroadcast_on h hc index]
  unfold cellsFrom
  show (if v.rank < src.rank ∨ Shape.broadcast [v.shape, src.shape] ≠ some v.shape then _ else _) = _
  split
  · rfl
  · exact congrArg Except.ok hcells

/-! ## Writing -/

open Pairing

theorem set_on (h : ρ.Matches s t) (hc : ρ v.block c) (index : List Nat) (x : Scalar) :
    Evolves ρ s t ρ (v.set index x s) ((v.on c).set index x t) :=
  .modify h hc _

/-- Writing the same elements one after the other. -/
theorem foldl_set_on {α : Type} (f : α → List Nat × Scalar) (cells : List α) :
    ∀ {s t : Store}, ρ.Matches s t → ρ v.block c →
      Evolves ρ s t ρ (cells.foldl (fun s a => v.set (f a).1 (f a).2 s) s)
        (cells.foldl (fun s a => (v.on c).set (f a).1 (f a).2 s) t) := by
  induction cells with
  | nil => exact fun h _ => .refl h
  | cons a cells ih =>
    intro s t h hc
    have hset := set_on h hc (f a).1 (f a).2
    exact hset.trans (ih hset.stores hc)

theorem fill_on (h : ρ.Matches s t) (hc : ρ v.block c) (x : Scalar) :
    Evolves ρ s t ρ (v.fill x s) ((v.on c).fill x t) :=
  foldl_set_on (fun index => (index, x)) _ h hc

theorem setCells_on (h : ρ.Matches s t) (hc : ρ v.block c) (cells : List (List Nat × Scalar)) :
    Evolves ρ s t ρ (v.setCells cells s) ((v.on c).setCells cells t) :=
  foldl_set_on id cells h hc

/-- Writing elements touches only the block of the view. -/
theorem foldl_set_touches {α : Type} (v : View) (f : α → List Nat × Scalar) (cells : List α)
    (s : Store) :
    s.TouchesOnly (· = v.block) (cells.foldl (fun s a => v.set (f a).1 (f a).2 s) s) := by
  induction cells generalizing s with
  | nil => exact .refl _ s
  | cons a cells ih =>
    have hset : s.TouchesOnly (· = v.block) (v.set (f a).1 (f a).2 s) :=
      .modify (p := (· = v.block)) rfl _
    exact hset.trans (ih _) fun _ _ => id

theorem fill_touches (v : View) (x : Scalar) (s : Store) :
    s.TouchesOnly (· = v.block) (v.fill x s) :=
  foldl_set_touches v (fun index => (index, x)) _ s

theorem setCells_touches (v : View) (cells : List (List Nat × Scalar)) (s : Store) :
    s.TouchesOnly (· = v.block) (v.setCells cells s) :=
  foldl_set_touches v id cells s

/-- So does a copy that is not refused. -/
theorem cellsFrom_touches {ε : Type} {raise : ArrayError → ε} {f : Store → Store}
    (h : ((v.cellsFrom src s).map v.setCells).mapError raise = .ok f) :
    s.TouchesOnly (· = v.block) (f s) := by
  cases hcells : v.cellsFrom src s with
  | error e =>
    rw [hcells] at h
    cases h
  | ok cells =>
    rw [hcells] at h
    cases h
    exact v.setCells_touches cells s

/-! ## Making arrays -/

/-- Two makers of arrays make the same array in a new block of each of two paired stores. -/
structure MakesAlike (ρ : Pairing) (s t : Store) (f g : Store → View × Store) : Prop where
  same : (g t).1 = (f s).1.on (g t).1.block
  new : ¬ρ (f s).1.block (g t).1.block
  evolves : Evolves ρ s t (ρ.add (f s).1.block (g t).1.block) (f s).2 (g t).2

theorem ofFlat_alike (h : ρ.Matches s t) (elt : ElemType) (shape : List Nat) (data : List Scalar) :
    MakesAlike ρ s t (ofFlat elt shape data) (ofFlat elt shape data) :=
  ⟨rfl, fun hb => Nat.lt_irrefl _ (h.lt_left hb), .alloc h _⟩

theorem zeros_alike (h : ρ.Matches s t) (elt : ElemType) (shape : List Nat) :
    MakesAlike ρ s t (zeros elt shape) (zeros elt shape) :=
  ⟨rfl, fun hb => Nat.lt_irrefl _ (h.lt_left hb), .alloc h _⟩

theorem cast_alike (h : ρ.Matches s t) (hc : ρ v.block c) (elt : ElemType) :
    MakesAlike ρ s t (v.cast elt) ((v.on c).cast elt) := by
  have hofFlat := ofFlat_alike h elt v.shape (v.toFlat s)
  have hcast : (v.on c).cast elt t = ofFlat elt v.shape (v.toFlat s) t := by
    unfold cast
    rw [toFlat_on h hc]
    rfl
  exact ⟨hcast ▸ hofFlat.same, hcast ▸ hofFlat.new, hcast ▸ hofFlat.evolves⟩

end View
end ArrayLang
