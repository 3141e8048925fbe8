import ArrayLang.Interpreter.Operation
import ArrayLang.Proofs.Value.OfType
import ArrayLang.Typing.Rules

/-!
# Types of selections

The type of an index says which of its items are integers and which are slices. Typing counts the integers,
since each drops an axis; running code walks along the axes and drops them one by one. Both arrive at the
same number of axes, and typing refuses more items than axes. So code with a type never has an index that
does not make sense: a selection fails only for an integer that lies off its axis or a slice with step 0.

## Main results

- `subscripts?_of_conforms`: a value of the type of an index stands for subscripts of these types.
- `length_selectedShape`: as many axes are dropped as the types say.
- `indexValue_typed`: what is selected has the type that typing gives the selection.
-/

namespace ArrayLang

/-! ## Subscripts and their types -/

/-- An integer or a slice, as the type says. -/
inductive Subscript.OfType : Subscript → Ty → Prop
  | at {n : Int64} {ty : Ty} (h : ty.isInteger) : OfType (.at n) ty
  | slice {r : Slice} {start stop step : Ty} : OfType (.slice r) (.slice start stop step)

/-- The selection fails because of one subscript and its axis. -/
inductive ArrayError.OfSubscript : ArrayError → Prop
  | outOfBounds (index : Int) (len : Nat) : OfSubscript (.indexOutOfBounds index len)
  | zeroStep : OfSubscript .zeroStep

namespace TypingRule

/-- The types of the items of an index. -/
def itemTypes : Ty → List Ty
  | .tuple items => items
  | ty => [ty]

variable {base ty result : Ty} {index : Expr} {types : List Ty} {dropped : Nat}

/-- An item is a slice, which keeps its axis, or an integer, which drops it. -/
theorem droppedAxes?_cons_eq_some (h : droppedAxes? (ty :: types) = some dropped) :
    (∃ start stop step, ty = .slice start stop step ∧ droppedAxes? types = some dropped) ∨
    (ty.isInteger ∧ ∃ rest, droppedAxes? types = some rest ∧ dropped = rest + 1) := by
  cases ty with
  | slice start stop step => exact .inl ⟨start, stop, step, rfl, h⟩
  | scalar elt =>
    rw [droppedAxes?] at h
    · split at h
      · rename_i hinteger
        obtain ⟨rest, hrest, rfl⟩ := Option.map_eq_some_iff.1 h
        exact .inr ⟨hinteger, rest, hrest, rfl⟩
      · cases h
    · exact fun _ _ _ heq => Ty.noConfusion heq
  | _ => cases h

/-- Arrays are indexed by integers and slices, at most as many as they have axes, and tuples by constants
that have a component. -/
theorem indexType_eq_ok (h : indexType base index ty = .ok result) :
    (∃ elt rank dropped, base = .array elt rank ∧ (itemTypes ty).length ≤ rank ∧
      droppedAxes? (itemTypes ty) = some dropped ∧ result = .arrayOf elt (rank - dropped)) ∨
    (∃ types n, base = .tuple types ∧ index.node = .lit (.int n) ∧
      0 ≤ fromEnd n.toInt types.length ∧
      types[(fromEnd n.toInt types.length).toNat]? = some result) := by
  cases base with
  | array elt rank =>
    have hitems : ¬rank < (itemTypes ty).length ∧ ∃ dropped, droppedAxes? (itemTypes ty) = some dropped ∧
        Ty.arrayOf elt (rank - dropped) = result := by
      unfold indexType at h
      -- An index that is no tuple is its only item.
      cases ty
      all_goals
        dsimp only at h
        split at h
        · cases h
        · rename_i hmany
          split at h
          · exact ⟨hmany, _, ‹_›, Except.ok.inj h⟩
          · cases h
    obtain ⟨hmany, dropped, hdropped, rfl⟩ := hitems
    exact .inl ⟨elt, rank, dropped, rfl, by omega, hdropped, rfl⟩
  | tuple types =>
    unfold indexType at h
    dsimp only at h
    split at h
    · rename_i n hnode
      split at h
      · rename_i item hitem
        cases h
        change (if fromEnd n.toInt types.length < 0 then Option.none
          else types[(fromEnd n.toInt types.length).toNat]?) = some result at hitem
        by_cases hneg : fromEnd n.toInt types.length < 0
        · rw [if_pos hneg] at hitem
          cases hitem
        · rw [if_neg hneg] at hitem
          exact .inr ⟨types, n, rfl, hnode, by omega, hitem⟩
      · cases h
    · cases h
  | _ => cases h

end TypingRule

namespace Value

open TypingRule

variable {v : Value} {ty : Ty} {dropped : Nat}

theorem Conforms.exists_slice {start stop step : Ty} (h : v.Conforms (.slice start stop step)) :
    ∃ r, v = .slice r := by
  cases h with
  | slice => exact ⟨_, rfl⟩

theorem Conforms.exists_int (h : v.Conforms ty) (hinteger : ty.isInteger) : ∃ n, v = .int n := by
  cases ty with
  | scalar elt =>
    cases h with
    | @scalar x _ h =>
      have hcarrier := Scalar.carrier_of_cast_eq_self h
      have helt : elt.carrier = .int64 := by
        revert hinteger
        cases elt <;> decide
      cases x with
      | int n => exact ⟨n, rfl⟩
      | bool b =>
        rw [helt] at hcarrier
        cases hcarrier
      | float x =>
        rw [helt] at hcarrier
        cases hcarrier
  | _ => cases hinteger

/-- Values of integer and slice types stand for one subscript each. -/
theorem AllConform.itemSubscripts? {vs : List Value} {types : List Ty} (h : AllConform vs types)
    (hdropped : droppedAxes? types = some dropped) :
    ∃ items, itemSubscripts? vs = some items ∧ List.Forall₂ Subscript.OfType items types := by
  induction vs generalizing types dropped with
  | nil =>
    cases h
    exact ⟨[], rfl, .nil⟩
  | cons v vs ih =>
    cases h with
    | cons hv hvs =>
      rcases droppedAxes?_cons_eq_some hdropped with ⟨_, _, _, rfl, hrest⟩ | ⟨hinteger, _, hrest, -⟩
      · obtain ⟨r, rfl⟩ := hv.exists_slice
        obtain ⟨items, hitems, htypes⟩ := ih hvs hrest
        refine ⟨.slice r :: items, ?_, .cons .slice htypes⟩
        rw [ArrayLang.itemSubscripts?, hitems]
        rfl
      · obtain ⟨n, rfl⟩ := hv.exists_int hinteger
        obtain ⟨items, hitems, htypes⟩ := ih hvs hrest
        refine ⟨.at n :: items, ?_, .cons (.at hinteger) htypes⟩
        rw [ArrayLang.itemSubscripts?, hitems]
        rfl

/-- A value of the type of an index stands for subscripts of the types of its items. -/
theorem Conforms.subscripts? (h : v.Conforms ty)
    (hdropped : droppedAxes? (itemTypes ty) = some dropped) :
    ∃ items, subscripts? v = some items ∧ List.Forall₂ Subscript.OfType items (itemTypes ty) := by
  cases h with
  | tuple h => exact h.itemSubscripts? hdropped
  | slice => exact ⟨_, rfl, .cons .slice .nil⟩
  | @scalar x elt h =>
    rcases droppedAxes?_cons_eq_some hdropped with ⟨_, _, _, heq, -⟩ | ⟨hinteger, -⟩
    · cases heq
    · obtain ⟨n, hn⟩ := (Conforms.scalar h).exists_int hinteger
      cases hn
      exact ⟨[.at n], rfl, .cons (.at hinteger) .nil⟩
  | _ => cases hdropped

end Value

/-! ## Selecting -/

namespace View

variable {v w : View} {s : Store} {items : List Subscript} {types : List Ty} {dropped : Nat}

/-- Each integer drops an axis, and each slice keeps its own. -/
theorem length_selectedShape (h : List.Forall₂ Subscript.OfType items types)
    (hdropped : TypingRule.droppedAxes? types = some dropped) {shape : List Nat}
    (hlength : items.length ≤ shape.length) :
    (selectedShape items shape).length + dropped = shape.length := by
  induction h generalizing dropped shape with
  | nil =>
    cases hdropped
    rfl
  | @cons item ty items types hitem _ ih =>
    obtain ⟨len, shape, rfl⟩ := List.exists_cons_of_length_pos (l := shape)
      (Nat.lt_of_lt_of_le (Nat.succ_pos _) hlength)
    have hitems : items.length ≤ shape.length := Nat.le_of_succ_le_succ hlength
    rcases TypingRule.droppedAxes?_cons_eq_some hdropped with
      ⟨_, _, _, rfl, hrest⟩ | ⟨hinteger, rest, hrest, rfl⟩
    · cases hitem with
      | «at» h => cases h
      | slice =>
        have hind := ih hrest hitems
        rw [selectedShape, List.length_cons, List.length_cons]
        omega
    · cases hitem with
      | slice => cases hinteger
      | «at» =>
        have hind := ih hrest hitems
        rw [selectedShape, List.length_cons]
        omega

/-- A subscript that does not fit its axis lies off it or has step 0. -/
theorem ofSubscript_of_firstFault? {shape : List Nat} {e : ArrayError}
    (h : firstFault? items shape = some e) : e.OfSubscript := by
  unfold firstFault? at h
  obtain ⟨⟨item, len⟩, -, hfault⟩ := List.exists_of_findSome?_eq_some h
  cases item with
  | «at» n =>
    unfold Subscript.fault? at hfault
    dsimp only at hfault
    split at hfault
    · cases hfault
    · cases hfault
      exact .outOfBounds _ _
  | slice r =>
    unfold Subscript.fault? at hfault
    dsimp only at hfault
    split at hfault
    · cases hfault
      exact .zeroStep
    · cases hfault

/-- Subscripts for which an array has axes select what typing says, unless one does not fit its axis. -/
theorem Typed.select_typed (hv : v.Typed s) (h : List.Forall₂ Subscript.OfType items types)
    (hdropped : TypingRule.droppedAxes? types = some dropped) (hlength : types.length ≤ v.rank) :
    (∃ e, v.select items = .error e ∧ e.OfSubscript) ∨
    (∃ w, v.select items = .ok w ∧
      (Value.ofView s w).OfType s (.arrayOf v.elt (v.rank - dropped))) := by
  have hitems : items.length ≤ v.shape.length := h.length_eq ▸ hlength
  have hfaithful := select_faithful hv.wellFormed items
  have hfault : selectionFault? items v.shape = firstFault? items v.shape :=
    if_neg (Nat.not_lt.2 hitems)
  rw [hfault] at hfaithful
  cases hfirst : firstFault? items v.shape with
  | some e =>
    rw [hfirst] at hfaithful
    exact .inl ⟨e, hfaithful, ofSubscript_of_firstFault? hfirst⟩
  | none =>
    rw [hfirst] at hfaithful
    obtain ⟨w, hw, hshape, -⟩ := hfaithful
    have hrank : w.rank = v.rank - dropped := by
      have hkept := length_selectedShape h hdropped hitems
      unfold rank
      rw [hshape]
      omega
    have hselected := (hv.select hw).ofView
    rw [select_elt hw, hrank] at hselected
    exact .inr ⟨w, hw, hselected⟩

end View

section
variable {s : Store} {index : Value} {indexTy : Ty}

/-- An index whose items have axes selects from an array, unless one does not fit its axis. -/
theorem View.Typed.indexValue_array {v : View} (hv : v.Typed s) (hindex : index.Conforms indexTy)
    {dropped : Nat} (hdropped : TypingRule.droppedAxes? (TypingRule.itemTypes indexTy) = some dropped)
    (hmany : (TypingRule.itemTypes indexTy).length ≤ v.rank) :
    (∃ cause, indexValue s (.array v) index = .error (.array cause) ∧ cause.OfSubscript) ∨
    (∃ w, indexValue s (.array v) index = .ok w ∧ w.OfType s (.arrayOf v.elt (v.rank - dropped))) := by
  obtain ⟨items, hitems, htypes⟩ := hindex.subscripts? hdropped
  have hselect : indexValue s (.array v) index =
      ((v.select items).map (Value.ofView s)).mapError .array := by
    unfold indexValue selection?
    rw [hitems]
    rfl
  rw [hselect]
  rcases hv.select_typed htypes hdropped hmany with ⟨cause, hcause, hof⟩ | ⟨w, hw, hof⟩
  · exact .inl ⟨cause, by rw [hcause]; rfl, hof⟩
  · exact .inr ⟨_, by rw [hw]; rfl, hof⟩

/-- A constant selects the component of a tuple that it stands for. -/
theorem Value.AllOfType.indexValue_tuple {items : List Value} {types : List Ty}
    (hitems : AllOfType s items types) {n : Int64} {result : Ty}
    (hnonneg : 0 ≤ fromEnd n.toInt types.length)
    (hcomponent : types[(fromEnd n.toInt types.length).toNat]? = some result) :
    ∃ v, indexValue s (.tuple items) (.int n) = .ok v ∧ v.OfType s result ∧
      0 ≤ fromEnd n.toInt items.length ∧ items[(fromEnd n.toInt items.length).toNat]? = some v := by
  obtain ⟨v, hv, hof⟩ := hitems.getElem? hcomponent
  rw [← hitems.length_eq] at hnonneg hv
  have hitem : tupleItem? items (.int n) = some v := by
    show (if 0 ≤ fromEnd n.toInt items.length
      then items[(fromEnd n.toInt items.length).toNat]? else Option.none) = some v
    rw [if_pos hnonneg, hv]
  refine ⟨v, ?_, hof, hnonneg, hv⟩
  unfold indexValue selection?
  dsimp only
  rw [hitem]
  rfl

end

end ArrayLang
