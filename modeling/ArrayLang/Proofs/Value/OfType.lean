import ArrayLang.Proofs.Array.Contents
import ArrayLang.Proofs.Array.Selection
import ArrayLang.Proofs.Interpreter.Elementwise
import ArrayLang.Proofs.Value.Conforms

/-!
# Values of exactly one type

A value that conforms to a type may be an array of a narrower element type. Here the element type is the
array's own, the array has an axis at least, it is laid out in the store, and its elements are values of
the element type. What is selected from such an array is such an array again, or one of its elements if no
axis is left.

## Main results

- `Value.OfType`: the value is exactly of the type.
- `View.Typed.select`: selections from arrays of an element type are of the element type.
- `View.Typed.ofView`: an array without axes stands for its only element.
-/

namespace ArrayLang

/-! ## Arrays of an element type -/

namespace View

variable {v w : View} {s : Store} {x : Scalar}

/-- The array is laid out in the store, and casting its elements to its element type changes nothing. -/
structure Typed (v : View) (s : Store) : Prop where
  wellFormed : v.WellFormed s
  elements : ∀ x ∈ v.toFlat s, x.cast v.elt = x

theorem ofFlat_typed (elt : ElemType) {shape : List Nat} {data : List Scalar} (s : Store)
    (hlength : data.length = Shape.size shape) :
    (ofFlat elt shape data s).1.Typed (ofFlat elt shape data s).2 where
  wellFormed := ofFlat_wellFormed elt s hlength
  elements x hx := by
    rw [toFlat_ofFlat elt s hlength] at hx
    obtain ⟨y, -, rfl⟩ := List.mem_map.1 hx
    exact y.cast_cast elt

theorem mem_toFlat : x ∈ v.toFlat s ↔ ∃ index, Shape.InRange v.shape index ∧ v.get s index = x := by
  unfold toFlat
  simp only [List.mem_map, Shape.mem_indices]

/-- A selection has no elements but those of the array. -/
theorem WellFormed.mem_of_select (hv : v.WellFormed s) {items : List Subscript}
    (h : v.select items = .ok w) (hx : x ∈ w.toFlat s) : x ∈ v.toFlat s := by
  obtain ⟨index, hindex, rfl⟩ := mem_toFlat.1 hx
  have hfaithful := select_faithful hv items
  cases hfault : selectionFault? items v.shape with
  | some e =>
    rw [hfault, h] at hfaithful
    cases hfaithful
  | none =>
    rw [hfault] at hfaithful
    obtain ⟨w', hw', -, hstands⟩ := hfaithful
    obtain rfl : w = w' := Except.ok.inj (h.symm.trans hw')
    obtain ⟨base, -, hbase, hget, -⟩ := hstands index hindex
    exact mem_toFlat.2 ⟨base, hbase, hget.symm⟩

theorem Typed.select (hv : v.Typed s) {items : List Subscript} (h : v.select items = .ok w) :
    w.Typed s where
  wellFormed := hv.wellFormed.of_laidOut (select_block h) (select_elt h) fun hlaid => hlaid.select h
  elements x hx := by
    rw [select_elt h]
    exact hv.elements x (hv.wellFormed.mem_of_select h hx)

end View

/-! ## Values -/

namespace Value

mutual
/-- The value is exactly of the type. -/
inductive OfType (s : Store) : Value → Ty → Prop
  | none : OfType s .none .none
  | scalar {x : Scalar} {elt : ElemType} (h : x.cast elt = x) : OfType s (.scalar x) (.scalar elt)
  | array {v : View} (hrank : 0 < v.rank) (h : v.Typed s) :
    OfType s (.array v) (.array v.elt v.rank)
  | tuple {items : List Value} {types : List Ty} (h : AllOfType s items types) :
    OfType s (.tuple items) (.tuple types)
  | struct {name : String} {fields : List (String × Value)} {types : List (String × Ty)}
    (h : FieldsOfType s fields types) : OfType s (.struct name fields) (.struct name types)
  | slice {r : Slice} {start stop step : Ty} (hstart : OfType s (.ofInt? r.start?) start)
    (hstop : OfType s (.ofInt? r.stop?) stop) (hstep : OfType s (.ofInt? r.step?) step) :
    OfType s (.slice r) (.slice start stop step)
  | closure {func : FnDef} {fixed : List Value} {types : List Ty} (h : AllOfType s fixed types) :
    OfType s (.closure func fixed) (.closure func.name types)

/-- The same of several values. -/
inductive AllOfType (s : Store) : List Value → List Ty → Prop
  | nil : AllOfType s [] []
  | cons {v : Value} {ty : Ty} {vs : List Value} {types : List Ty} (h : OfType s v ty)
    (hs : AllOfType s vs types) : AllOfType s (v :: vs) (ty :: types)

/-- The same of named values. -/
inductive FieldsOfType (s : Store) : List (String × Value) → List (String × Ty) → Prop
  | nil : FieldsOfType s [] []
  | cons {name : String} {v : Value} {ty : Ty} {vs : List (String × Value)}
    {types : List (String × Ty)} (h : OfType s v ty) (hs : FieldsOfType s vs types) :
    FieldsOfType s ((name, v) :: vs) ((name, ty) :: types)
end

variable {s : Store}

mutual
theorem OfType.conforms : ∀ {v : Value} {ty : Ty}, v.OfType s ty → v.Conforms ty
  | _, _, .none => .none
  | _, _, .scalar h => .scalar h
  | _, _, .array _ _ => .array (.refl _)
  | _, _, .tuple h => .tuple (AllOfType.conform h)
  | _, _, .struct h => .struct (FieldsOfType.conform h)
  | _, _, .slice hstart hstop hstep =>
    .slice (OfType.conforms hstart) (OfType.conforms hstop) (OfType.conforms hstep)
  | _, _, .closure h => .closure (AllOfType.conform h)

theorem AllOfType.conform : ∀ {vs : List Value} {types : List Ty}, AllOfType s vs types →
    AllConform vs types
  | _, _, .nil => .nil
  | _, _, .cons h hs => .cons (OfType.conforms h) (AllOfType.conform hs)

theorem FieldsOfType.conform : ∀ {vs : List (String × Value)} {types : List (String × Ty)},
    FieldsOfType s vs types → FieldsConform vs types
  | _, _, .nil => .nil
  | _, _, .cons h hs => .cons (OfType.conforms h) (FieldsOfType.conform hs)
end

theorem AllOfType.length_eq {vs : List Value} {types : List Ty} (h : AllOfType s vs types) :
    vs.length = types.length := by
  induction vs generalizing types with
  | nil =>
    cases h
    rfl
  | cons v vs ih =>
    cases h with
    | cons _ hs => exact congrArg (· + 1) (ih hs)

/-- The value at a position is of the type at the position. -/
theorem AllOfType.getElem? {vs : List Value} {types : List Ty} (h : AllOfType s vs types) {i : Nat}
    {ty : Ty} (hty : types[i]? = some ty) : ∃ v, vs[i]? = some v ∧ v.OfType s ty := by
  induction i generalizing vs types with
  | zero =>
    cases h with
    | nil => cases hty
    | cons h _ =>
      cases hty
      exact ⟨_, rfl, h⟩
  | succ i ih =>
    cases h with
    | nil => cases hty
    | cons _ hs => exact ih hs hty

end Value

/-- An array of an element type is a value of its type, its only element if it has no axes. -/
theorem View.Typed.ofView {v : View} {s : Store} (h : v.Typed s) :
    (Value.ofView s v).OfType s (.arrayOf v.elt v.rank) := by
  unfold Value.ofView Ty.arrayOf
  by_cases hrank : v.rank = 0
  · rw [if_pos hrank, if_pos hrank]
    have hshape : v.shape = [] := List.eq_nil_of_length_eq_zero hrank
    have hindex : Shape.InRange v.shape [] := by
      rw [hshape]
      exact .nil
    exact .scalar (h.elements _ (mem_toFlat.2 ⟨[], hindex, rfl⟩))
  · rw [if_neg hrank, if_neg hrank]
    exact .array (Nat.pos_of_ne_zero hrank) h

end ArrayLang
