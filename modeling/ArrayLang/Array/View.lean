import ArrayLang.Array.Shape
import ArrayLang.Array.Slice
import ArrayLang.Scalar

/-!
# Arrays

The elements of arrays live in blocks of a store. An array is a strided view of a block, so that
selecting from an array shares its elements. Selections only compute on views; reading, writing and
making arrays take the store.
-/

namespace ArrayLang

/-- The blocks of elements that have been made. -/
structure Store where
  blocks : Array (Array Scalar)

/-- A view of one block: the element at an index lies at `offset` plus the index's coordinates times
the strides. Elements are kept in the representation of `elt`. -/
structure View where
  elt : ElemType
  block : Nat
  shape : List Nat
  strides : List Int
  offset : Int
deriving DecidableEq

namespace Store

instance : EmptyCollection Store := ⟨⟨#[]⟩⟩

instance : Inhabited Store := ⟨∅⟩

/-- The content of a cell, zero where there is none. -/
def read (s : Store) (block position : Nat) : Scalar :=
  ((s.blocks[block]?).bind (·[position]?)).getD (.int 0)

/-- Replaces the content of a cell. -/
def write (s : Store) (block position : Nat) (value : Scalar) : Store :=
  ⟨s.blocks.modify block (·.setIfInBounds position value)⟩

/-- Adds a block and returns its number. -/
def alloc (s : Store) (cells : Array Scalar) : Nat × Store :=
  (s.blocks.size, ⟨s.blocks.push cells⟩)

end Store

namespace View

def rank (v : View) : Nat :=
  v.shape.length

def size (v : View) : Nat :=
  Shape.size v.shape

/-! ## Reading and writing -/

/-- The distance of an index from the first element. -/
def distance : List Nat → List Int → Int
  | i :: index, stride :: strides => i * stride + distance index strides
  | _, _ => 0

/-- The cell of an index. -/
def position (v : View) (index : List Nat) : Nat :=
  (v.offset + distance index v.strides).toNat

/-- The element at an index. -/
def get (v : View) (s : Store) (index : List Nat) : Scalar :=
  s.read v.block (v.position index)

/-- Writes the element at an index, in the view's element type. -/
def set (v : View) (index : List Nat) (value : Scalar) (s : Store) : Store :=
  s.write v.block (v.position index) (value.cast v.elt)

/-- The index of a view's element that stands at `index` of a shape the view is broadcast to. -/
def ownIndex (v : View) (index : List Nat) : List Nat :=
  (index.drop (index.length - v.rank)).zipWith (fun i dim => if dim = 1 then 0 else i) v.shape

/-- The element that stands at `index` of a shape the view is broadcast to. -/
def getBroadcast (v : View) (s : Store) (index : List Nat) : Scalar :=
  v.get s (v.ownIndex index)

/-- The elements in row-major order. -/
def toFlat (v : View) (s : Store) : List Scalar :=
  (Shape.indices v.shape).map (v.get s)

/-- Writes one value to every element. -/
def fill (v : View) (value : Scalar) (s : Store) : Store :=
  (Shape.indices v.shape).foldl (fun s index => v.set index value s) s

/-- The element of a source, broadcast to the view's shape, for every index of the view. -/
def cellsFrom (v src : View) (s : Store) : Except ArrayError (List (List Nat × Scalar)) :=
  if v.rank < src.rank ∨ Shape.broadcast [v.shape, src.shape] ≠ some v.shape then
    .error (.shapeMismatch v.shape src.shape)
  else .ok ((Shape.indices v.shape).map fun index => (index, src.getBroadcast s index))

/-- Writes the elements at some indices. -/
def setCells (v : View) (cells : List (List Nat × Scalar)) (s : Store) : Store :=
  cells.foldl (fun s (index, value) => v.set index value s) s

/-- Writes a source, broadcast to the view's shape, into the view. The source is read as a whole
first, since the two may share cells. -/
def copyFrom (v src : View) (s : Store) : Except ArrayError Store :=
  (v.cellsFrom src s).map (v.setCells · s)

/-- Whether two arrays have one shape and equal elements. -/
def same (a b : View) (s : Store) : Bool :=
  a.shape = b.shape && (((a.toFlat s).zip (b.toFlat s)).all fun (x, y) => x.same y)

/-! ## Making arrays -/

/-- A new array of the given elements in row-major order. -/
def ofFlat (elt : ElemType) (shape : List Nat) (data : List Scalar) (s : Store) : View × Store :=
  let (block, s) := s.alloc (data.map (·.cast elt)).toArray
  (⟨elt, block, shape, Shape.contiguousStrides shape, 0⟩, s)

/-- A new array of zeros. -/
def zeros (elt : ElemType) (shape : List Nat) (s : Store) : View × Store :=
  let (block, s) := s.alloc (.replicate (Shape.size shape) ((Scalar.int 0).cast elt))
  (⟨elt, block, shape, Shape.contiguousStrides shape, 0⟩, s)

theorem zeros_eq_ofFlat (elt : ElemType) (shape : List Nat) (s : Store) :
    zeros elt shape s = ofFlat elt shape (List.replicate (Shape.size shape) (.int 0)) s := by
  simp [zeros, ofFlat]

/-- A new array of the same elements in another element type. -/
def cast (v : View) (elt : ElemType) (s : Store) : View × Store :=
  ofFlat elt v.shape (v.toFlat s) s

/-- The shape and the elements of equally shaped items along a new leading axis, from the shapes and
elements of the items. -/
def stackItems (items : List (List Nat × List Scalar)) :
    Except ArrayError (List Nat × List Scalar) :=
  let inner := (items.head?.map (·.1)).getD []
  match items.find? (fun item => item.1 ≠ inner) with
  | some item => .error (.ragged inner item.1)
  | none => .ok (items.length :: inner, items.flatMap (·.2))

/-- A new array that holds equally shaped arrays along a new leading axis. -/
def stack (elt : ElemType) (items : List View) (s : Store) : Except ArrayError (View × Store) :=
  (stackItems (items.map fun v => (v.shape, v.toFlat s))).map fun (shape, data) =>
    ofFlat elt shape data s

/-! ## Selecting -/

/-- The view of position `i` along an axis, without that axis. -/
def indexAxis (v : View) (axis i : Nat) : View :=
  { v with
    offset := v.offset + i * v.strides.getD axis 0
    shape := v.shape.eraseIdx axis
    strides := v.strides.eraseIdx axis }

/-- The view of a range of positions along an axis. -/
def sliceAxis (v : View) (axis : Nat) (r : AxisRange) : View :=
  let stride := v.strides.getD axis 0
  { v with
    offset := if 0 < r.count then v.offset + r.start * stride else v.offset
    shape := v.shape.set axis r.count
    strides := v.strides.set axis (stride * r.step) }

/-- A position on an axis, counted from the end if negative. -/
def resolveIndex (index : Int) (len : Nat) : Except ArrayError Nat :=
  let resolved := if index < 0 then index + len else index
  if resolved < 0 ∨ (len : Int) ≤ resolved then .error (.indexOutOfBounds index len)
  else .ok resolved.toNat

/-- Applies subscripts to the axes from `axis` on. An integer drops its axis. -/
def selectFrom (v : View) (axis : Nat) : List Subscript → Except ArrayError View
  | [] => .ok v
  | .at index :: items => do
    let i ← resolveIndex index.toInt (v.shape.getD axis 0)
    selectFrom (v.indexAxis axis i) axis items
  | .slice slice :: items => do
    let range ← slice.resolve (v.shape.getD axis 0)
    selectFrom (v.sliceAxis axis range) (axis + 1) items

/-- The view that subscripts select, each from its own axis starting with the first. -/
def select (v : View) (items : List Subscript) : Except ArrayError View :=
  if v.rank < items.length then .error (.tooManyIndices v.rank items.length)
  else v.selectFrom 0 items

end View
end ArrayLang
