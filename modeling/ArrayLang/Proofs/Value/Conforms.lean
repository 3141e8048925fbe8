import ArrayLang.Proofs.Array.Reachable
import ArrayLang.Proofs.Ty.Join
import ArrayLang.Value

/-!
# Values of a type

A value conforms to a type when converting it to the type changes nothing: a scalar is left alone by the
cast, and an array has elements of a type whose scalars are. A type is embedded in a wider one that keeps
the sort of number, so that truth values, integers and doubles stay what they are. What conforms to a type
conforms to the types it is embedded in. Across sorts nothing conforms to both types.

## Main results

- `Scalar.cast_eq_self_of_embeds`: a scalar of a type is one of the types it is embedded in.
- `Value.Conforms.embed`: a value of a type is one of the types it is embedded in.
- `Value.carrier_eq_of_conforms`: a scalar has no two types of different sorts.
-/

namespace ArrayLang

/-! ## Sorts of numbers -/

namespace ElemType

/-- The element type that all scalars of a type have on their own: the widest one of the same sort. -/
def carrier : ElemType → ElemType
  | bool => bool
  | uint8 | int8 | int16 | int32 | int64 => int64
  | float32 | float64 => float64

/-- The other type is wider and holds numbers of the same sort. -/
def Embeds (a b : ElemType) : Prop :=
  a.Widens b ∧ a.carrier = b.carrier

instance (a b : ElemType) : Decidable (a.Embeds b) :=
  inferInstanceAs (Decidable (_ ∧ _))

theorem Embeds.refl (a : ElemType) : a.Embeds a :=
  ⟨.refl a, rfl⟩

theorem Embeds.trans {a b c : ElemType} (h : a.Embeds b) (h' : b.Embeds c) : a.Embeds c :=
  ⟨h.1.trans h'.1, h.2.trans h'.2⟩

/-- Widening within the integers reaches a larger range. -/
theorem bounds_of_embeds {a b : ElemType} (ha : a.isInteger) (h : a.Embeds b) :
    b.isInteger ∧ b.lower ≤ a.lower ∧ a.upper ≤ b.upper := by
  revert ha h
  cases a <;> cases b <;> decide

end ElemType

namespace Scalar

theorem naturalType_cast (x : Scalar) (elt : ElemType) :
    (x.cast elt).naturalType = elt.carrier := by
  cases elt <;> rfl

/-- A cast that changes nothing is one within the sort of the scalar. -/
theorem carrier_of_cast_eq_self {x : Scalar} {elt : ElemType} (h : x.cast elt = x) :
    elt.carrier = x.naturalType := by
  rw [← naturalType_cast x elt, h]

/-- An integer in the range of a type is not changed by wrapping it to the type. -/
theorem wrap_of_bounds {elt : ElemType} (h : elt.isInteger) {n : Int64} (hlower : elt.lower ≤ n.toInt)
    (hupper : n.toInt < elt.upper) : wrap elt n = n := by
  cases elt with
  | bool => cases h
  | float32 => cases h
  | float64 => cases h
  | uint8 =>
    have hmod : n.toInt % 256 = n.toInt := Int.emod_eq_of_lt hlower hupper
    show Int64.ofInt (n.toInt % 256) = n
    rw [hmod, Int64.ofInt_toInt]
  | int8 =>
    have hmod : n.toInt.bmod 256 = n.toInt := Int.bmod_eq_of_le hlower hupper
    show Int64.ofInt (n.toInt.bmod 256) = n
    rw [hmod, Int64.ofInt_toInt]
  | int16 =>
    have hmod : n.toInt.bmod 65536 = n.toInt := Int.bmod_eq_of_le hlower hupper
    show Int64.ofInt (n.toInt.bmod 65536) = n
    rw [hmod, Int64.ofInt_toInt]
  | int32 =>
    have hmod : n.toInt.bmod 4294967296 = n.toInt := Int.bmod_eq_of_le hlower hupper
    show Int64.ofInt (n.toInt.bmod 4294967296) = n
    rw [hmod, Int64.ofInt_toInt]
  | int64 => rfl

theorem cast_int {elt : ElemType} (h : elt.isInteger) (n : Int64) :
    (int n).cast elt = .int (wrap elt n) := by
  cases elt with
  | bool | float32 | float64 => cases h
  | _ => rfl

/-- A scalar of a type is one of the types it is embedded in. -/
theorem cast_eq_self_of_embeds {x : Scalar} {a b : ElemType} (h : a.Embeds b) (hx : x.cast a = x) :
    x.cast b = x := by
  have hcarrier : b.carrier = x.naturalType := h.2 ▸ carrier_of_cast_eq_self hx
  cases x with
  | bool value =>
    cases b with
    | bool => rfl
    | _ => cases hcarrier
  | int n =>
    have ha : a.isInteger := by
      have hcarrier : a.carrier = .int64 := carrier_of_cast_eq_self hx
      cases a with
      | bool | float32 | float64 => cases hcarrier
      | _ => rfl
    -- The integer is in the range of `a`, which lies within that of `b`.
    obtain ⟨hb, hlower, hupper⟩ := ElemType.bounds_of_embeds ha h
    rw [cast_int ha] at hx
    obtain ⟨hlower', hupper'⟩ := wrap_bounds ha n
    rw [Scalar.int.inj hx] at hlower' hupper'
    rw [cast_int hb, wrap_of_bounds hb (by omega) (by omega)]
  | float value =>
    cases b with
    | float64 => rfl
    | float32 =>
      -- Only single precision is widened to single precision among the floats.
      have ha : a = .float32 := by
        revert h
        clear hx hcarrier
        cases a <;> decide
      rw [ha] at hx
      exact hx
    | _ => cases hcarrier

/-- What is in the representation of a type is left alone by a cast to it. Of doubles the representation does
not say whether they are single-precision numbers. -/
theorem cast_eq_self_of_holds {x : Scalar} {elt : ElemType} (h : elt.Holds x)
    (hsingle : elt ≠ .float32) : x.cast elt = x := by
  cases x with
  | bool b =>
    cases elt with
    | bool => rfl
    | _ => cases h
  | int n =>
    obtain ⟨hinteger, hlower, hupper⟩ := h
    rw [cast_int hinteger, wrap_of_bounds hinteger hlower hupper]
  | float value =>
    cases elt with
    | float64 => rfl
    | float32 => exact absurd rfl hsingle
    | _ => cases h

end Scalar

/-! ## Values -/

namespace Value

mutual
/-- Converting the value to the type changes nothing. -/
inductive Conforms : Value → Ty → Prop
  | none : Conforms .none .none
  | scalar {x : Scalar} {elt : ElemType} (h : x.cast elt = x) : Conforms (.scalar x) (.scalar elt)
  | array {v : View} {elt : ElemType} (h : v.elt.Embeds elt) :
    Conforms (.array v) (.array elt v.rank)
  | tuple {items : List Value} {types : List Ty} (h : AllConform items types) :
    Conforms (.tuple items) (.tuple types)
  | struct {name : String} {fields : List (String × Value)} {types : List (String × Ty)}
    (h : FieldsConform fields types) : Conforms (.struct name fields) (.struct name types)
  | slice {s : Slice} {start stop step : Ty} (hstart : Conforms (.ofInt? s.start?) start)
    (hstop : Conforms (.ofInt? s.stop?) stop) (hstep : Conforms (.ofInt? s.step?) step) :
    Conforms (.slice s) (.slice start stop step)
  | closure {func : FnDef} {fixed : List Value} {name : String} {types : List Ty}
    (h : AllConform fixed types) : Conforms (.closure func fixed) (.closure name types)

/-- The same of several values. -/
inductive AllConform : List Value → List Ty → Prop
  | nil : AllConform [] []
  | cons {v : Value} {ty : Ty} {vs : List Value} {types : List Ty} (h : Conforms v ty)
    (hs : AllConform vs types) : AllConform (v :: vs) (ty :: types)

/-- The same of named values. -/
inductive FieldsConform : List (String × Value) → List (String × Ty) → Prop
  | nil : FieldsConform [] []
  | cons {name : String} {v : Value} {ty : Ty} {vs : List (String × Value)}
    {types : List (String × Ty)} (h : Conforms v ty) (hs : FieldsConform vs types) :
    FieldsConform ((name, v) :: vs) ((name, ty) :: types)
end

mutual
/-- A value of a type is one of the types it is embedded in. -/
theorem Conforms.embed : ∀ {a b : Ty}, Ty.Lift ElemType.Embeds a b → ∀ {v : Value},
    v.Conforms a → v.Conforms b
  | _, _, .none, _, h => h
  | _, _, .struct, _, h => h
  | _, _, .closure, _, h => h
  | _, _, .scalar hab, _, .scalar h => .scalar (Scalar.cast_eq_self_of_embeds hab h)
  | _, _, .array hab, _, .array h => .array (h.trans hab)
  | _, _, .tuple hab, _, .tuple h => .tuple (AllConform.embed hab h)
  | _, _, .slice ha hb hc, _, .slice hstart hstop hstep =>
    .slice (Conforms.embed ha hstart) (Conforms.embed hb hstop) (Conforms.embed hc hstep)

theorem AllConform.embed : ∀ {as bs : List Ty}, Ty.LiftAll ElemType.Embeds as bs →
    ∀ {vs : List Value}, AllConform vs as → AllConform vs bs
  | _, _, .nil, _, h => h
  | _, _, .cons hab hrest, _, .cons h hs => .cons (Conforms.embed hab h) (AllConform.embed hrest hs)
end

/-- A scalar has no two types of different sorts. -/
theorem carrier_eq_of_conforms {v : Value} {a b : ElemType} (ha : v.Conforms (.scalar a))
    (hb : v.Conforms (.scalar b)) : a.carrier = b.carrier := by
  cases ha with
  | scalar ha =>
    cases hb with
    | scalar hb => rw [Scalar.carrier_of_cast_eq_self ha, Scalar.carrier_of_cast_eq_self hb]

/-- The elements of an array that conforms to a type are not changed by casting them to it, as long as
they are of the array's own element type. -/
theorem Conforms.toFlat_cast {v : View} {elt : ElemType} {rank : Nat} {s : Store}
    (h : (Value.array v).Conforms (.array elt rank))
    (hcells : ∀ x ∈ v.toFlat s, x.cast v.elt = x) :
    v.rank = rank ∧ (v.toFlat s).map (·.cast elt) = v.toFlat s := by
  cases h with
  | array hembeds =>
    refine ⟨rfl, ?_⟩
    refine Eq.trans (List.map_congr_left fun x hx => ?_) (List.map_id _)
    exact Scalar.cast_eq_self_of_embeds hembeds (hcells x hx)

end Value
end ArrayLang
