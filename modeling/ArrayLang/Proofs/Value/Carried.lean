import ArrayLang.Proofs.Interpreter.OperatorTypes
import ArrayLang.Proofs.Value.OfType

/-!
# Values that stay of their types

A value is of a type in a store, and stores change. If the element types are those that scalars have on
their own, then a block that has a cell is of one element type only, the sort of the cell. So whatever is
written through a view of the block, arrays that were well formed are still, and values stay of their
types.

## Main results

- `Store.Retains`: what was well formed in one store is well formed in the other.
- `Value.OfType.retained`: a value of a type stays of it.
-/

namespace ArrayLang

/-! ## Element types of a block -/

theorem ElemType.IsCarrier.ne_float32 {t : ElemType} (h : t.IsCarrier) : t ≠ .float32 := by
  rintro rfl
  cases h

/-- A scalar is in the representation of the element type that it has on its own only. -/
theorem ElemType.IsCarrier.eq_naturalType {t : ElemType} (h : t.IsCarrier) {x : Scalar}
    (hx : t.Holds x) : t = x.naturalType :=
  h.symm.trans (Scalar.carrier_of_cast_eq_self (Scalar.cast_eq_self_of_holds hx h.ne_float32))

namespace View

variable {v w : View} {s : Store}

theorem WellFormed.typed (h : v.WellFormed s) (helt : v.elt.IsCarrier) : v.Typed s where
  wellFormed := h
  elements x hx := by
    obtain ⟨index, hindex, rfl⟩ := mem_toFlat.1 hx
    exact Scalar.cast_eq_self_of_holds (h.holds_get hindex) helt.ne_float32

/-- Views of one block are of one element type, unless the block has no cells. -/
theorem WellFormed.set_of_carriers (h : v.WellFormed s) (hw : w.WellFormed s)
    (helt : v.elt.IsCarrier) (helt' : w.elt.IsCarrier) (index : List Nat) (x : Scalar) :
    v.WellFormed (w.set index x s) := by
  obtain ⟨cells, hcells, hlaid, hholds⟩ := h
  obtain ⟨cells', hcells', -, hholds'⟩ := hw
  by_cases hsame : w.block = v.block → w.elt = v.elt
  · exact WellFormed.set ⟨cells, hcells, hlaid, hholds⟩ hsame index x
  · rw [Classical.not_imp] at hsame
    obtain ⟨hblock, hne⟩ := hsame
    obtain rfl : cells' = cells := Option.some.inj (hcells'.symm.trans (hblock ▸ hcells))
    -- A cell would tell the element type.
    have hempty : cells' = #[] := by
      by_contra hcell
      have hmem := Array.getElem_mem (Array.size_pos_iff.2 hcell)
      exact hne ((helt'.eq_naturalType (hholds' _ hmem)).trans
        (helt.eq_naturalType (hholds _ hmem)).symm)
    refine ⟨cells', ?_, hlaid, hholds⟩
    show (s.blocks.modify w.block _)[v.block]? = some cells'
    rw [Array.getElem?_modify, if_pos hblock, hcells, hempty]
    rfl

end View

/-! ## Stores that retain what is well formed -/

/-- Arrays of element types that scalars have on their own are still well formed. -/
def Store.Retains (s s' : Store) : Prop :=
  ∀ v : View, v.elt.IsCarrier → v.WellFormed s → v.WellFormed s'

namespace Store.Retains

variable {s s' s'' : Store} {w : View}

theorem refl (s : Store) : s.Retains s :=
  fun _ _ h => h

theorem trans (h : s.Retains s') (h' : s'.Retains s'') : s.Retains s'' :=
  fun v helt hv => h' v helt (h v helt hv)

theorem of_touches (h : s.TouchesOnly (fun _ => False) s') : s.Retains s' :=
  fun _ _ hv => hv.of_touches h id

theorem set (hw : w.WellFormed s) (helt : w.elt.IsCarrier) (index : List Nat) (x : Scalar) :
    s.Retains (w.set index x s) :=
  fun _ helt' hv => hv.set_of_carriers hw helt' helt index x

theorem setAll {α : Type} (hw : w.WellFormed s) (helt : w.elt.IsCarrier) (f : α → List Nat × Scalar)
    (cells : List α) : s.Retains (cells.foldl (fun s a => w.set (f a).1 (f a).2 s) s) := by
  induction cells generalizing s with
  | nil => exact refl s
  | cons a cells ih =>
    have hset := set hw helt (f a).1 (f a).2
    exact hset.trans (ih (hset w helt hw))

theorem fill (hw : w.WellFormed s) (helt : w.elt.IsCarrier) (x : Scalar) :
    s.Retains (w.fill x s) :=
  setAll hw helt (fun index => (index, x)) _

theorem setCells (hw : w.WellFormed s) (helt : w.elt.IsCarrier) (cells : List (List Nat × Scalar)) :
    s.Retains (w.setCells cells s) :=
  setAll hw helt id cells

end Store.Retains

/-! ## Types over such element types -/

namespace Ty

/-- All scalars and elements of the type have their element types on their own: they are truth values,
64-bit integers and doubles. -/
inductive Carried : Ty → Prop
  | none : Carried .none
  | scalar {elt : ElemType} (h : elt.IsCarrier) : Carried (.scalar elt)
  | array {elt : ElemType} (h : elt.IsCarrier) (rank : Nat) : Carried (.array elt rank)
  | tuple {items : List Ty} (h : ∀ ty ∈ items, Carried ty) : Carried (.tuple items)
  | struct {name : String} {fields : List (String × Ty)} (h : ∀ p ∈ fields, Carried p.2) :
    Carried (.struct name fields)
  | slice {start stop step : Ty} (hstart : Carried start) (hstop : Carried stop)
    (hstep : Carried step) : Carried (.slice start stop step)
  | closure {func : String} {captured : List Ty} (h : ∀ ty ∈ captured, Carried ty) :
    Carried (.closure func captured)

theorem Carried.arrayOf {elt : ElemType} (h : elt.IsCarrier) (rank : Nat) :
    (Ty.arrayOf elt rank).Carried := by
  unfold Ty.arrayOf
  split
  · exact .scalar h
  · exact .array h rank

theorem Carried.elt {ty : Ty} (h : ty.Carried) {elt : ElemType} (helt : ty.elt? = some elt) :
    elt.IsCarrier := by
  cases h with
  | scalar h | array h =>
    cases helt
    exact h
  | _ => cases helt

end Ty

namespace Value

variable {s s' : Store}

mutual
/-- A value of a type stays of it. -/
theorem OfType.retained (hs : s.Retains s') :
    ∀ {v : Value} {ty : Ty}, v.OfType s ty → ty.Carried → v.OfType s' ty
  | _, _, .none, _ => .none
  | _, _, .scalar h, _ => .scalar h
  | _, _, .array (v := v) hrank h, .array helt _ =>
    .array hrank ((hs v helt h.wellFormed).typed helt)
  | _, _, .tuple h, .tuple hitems => .tuple (AllOfType.retained hs h hitems)
  | _, _, .struct h, .struct hfields => .struct (FieldsOfType.retained hs h hfields)
  | _, _, .slice hstart hstop hstep, .slice h h' h'' =>
    .slice (OfType.retained hs hstart h) (OfType.retained hs hstop h') (OfType.retained hs hstep h'')
  | _, _, .closure h, .closure hcaptured => .closure (AllOfType.retained hs h hcaptured)

theorem AllOfType.retained (hs : s.Retains s') : ∀ {vs : List Value} {types : List Ty}, AllOfType s vs types →
    (∀ ty ∈ types, ty.Carried) → AllOfType s' vs types
  | _, _, .nil, _ => .nil
  | _, _, .cons h hrest, htypes => by
    obtain ⟨hty, htypes⟩ := List.forall_mem_cons.1 htypes
    exact .cons (OfType.retained hs h hty) (AllOfType.retained hs hrest htypes)

theorem FieldsOfType.retained (hs : s.Retains s') :
    ∀ {vs : List (String × Value)} {types : List (String × Ty)},
    FieldsOfType s vs types → (∀ p ∈ types, p.2.Carried) → FieldsOfType s' vs types
  | _, _, .nil, _ => .nil
  | _, _, .cons h hrest, htypes => by
    obtain ⟨hty, htypes⟩ := List.forall_mem_cons.1 htypes
    exact .cons (OfType.retained hs h hty) (FieldsOfType.retained hs hrest htypes)
end

end Value
end ArrayLang
