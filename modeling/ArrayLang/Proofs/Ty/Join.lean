import ArrayLang.Ty.Join

/-!
# Widening types

The join of two types is a type that both are widened to: element types are joined in place, and the rest
of the structure stays. Widening is reflexive and transitive, and a type is widened to another one exactly
when their join is the other one.

## Main results

- `Ty.Lift`: two types of one structure with related element types.
- `Ty.join?_lift`: both operands are widened to their join.
- `Ty.join?_eq_right_iff`: a type is widened to those that absorb it.
-/

namespace ArrayLang

/-! ## Element types -/

namespace ElemType

@[simp] theorem join_self (a : ElemType) : a.join a = a := by
  cases a <;> rfl

theorem join_comm (a b : ElemType) : a.join b = b.join a := by
  cases a <;> cases b <;> rfl

theorem join_assoc (a b c : ElemType) : (a.join b).join c = a.join (b.join c) := by
  cases a <;> cases b <;> cases c <;> rfl

/-- Values of type `a` are widened to type `b`. -/
def Widens (a b : ElemType) : Prop :=
  a.join b = b

instance (a b : ElemType) : Decidable (a.Widens b) :=
  inferInstanceAs (Decidable (a.join b = b))

theorem Widens.refl (a : ElemType) : a.Widens a :=
  join_self a

theorem Widens.trans {a b c : ElemType} (h : a.Widens b) (h' : b.Widens c) : a.Widens c := by
  unfold Widens at *
  rw [← h', ← join_assoc, h]

theorem widens_join_left (a b : ElemType) : a.Widens (a.join b) := by
  unfold Widens
  rw [← join_assoc, join_self]

theorem widens_join_right (a b : ElemType) : b.Widens (a.join b) := by
  rw [join_comm]
  exact widens_join_left b a

end ElemType

namespace Ty

/-! ## Types of one structure -/

mutual
/-- The types have one structure, and where one has an element type the other has a related one. -/
inductive Lift (r : ElemType → ElemType → Prop) : Ty → Ty → Prop
  | none : Lift r .none .none
  | scalar {a b : ElemType} (h : r a b) : Lift r (.scalar a) (.scalar b)
  | array {a b : ElemType} {rank : Nat} (h : r a b) : Lift r (.array a rank) (.array b rank)
  | tuple {as bs : List Ty} (h : LiftAll r as bs) : Lift r (.tuple as) (.tuple bs)
  | struct {name : String} {fields : List (String × Ty)} :
    Lift r (.struct name fields) (.struct name fields)
  | slice {a b c a' b' c' : Ty} (ha : Lift r a a') (hb : Lift r b b') (hc : Lift r c c') :
    Lift r (.slice a b c) (.slice a' b' c')
  | closure {func : String} {captured : List Ty} :
    Lift r (.closure func captured) (.closure func captured)

/-- The same of lists of types, item by item. -/
inductive LiftAll (r : ElemType → ElemType → Prop) : List Ty → List Ty → Prop
  | nil : LiftAll r [] []
  | cons {a b : Ty} {as bs : List Ty} (h : Lift r a b) (hs : LiftAll r as bs) :
    LiftAll r (a :: as) (b :: bs)
end

variable {r r' : ElemType → ElemType → Prop} {a b c : Ty} {as bs cs : List Ty}

mutual
theorem Lift.refl (hr : ∀ a, r a a) : ∀ a : Ty, Lift r a a
  | .none => .none
  | .scalar elt => .scalar (hr elt)
  | .array elt _ => .array (hr elt)
  | .tuple items => .tuple (LiftAll.refl hr items)
  | .struct _ _ => .struct
  | .slice a b c => .slice (Lift.refl hr a) (Lift.refl hr b) (Lift.refl hr c)
  | .closure _ _ => .closure
termination_by structural a => a

theorem LiftAll.refl (hr : ∀ a, r a a) : ∀ as : List Ty, LiftAll r as as
  | [] => .nil
  | a :: as => .cons (Lift.refl hr a) (LiftAll.refl hr as)
termination_by structural as => as
end

mutual
theorem Lift.trans (hr : ∀ {a b c}, r a b → r b c → r a c) {a b : Ty} (h : Lift r a b) :
    ∀ {c : Ty}, Lift r b c → Lift r a c := by
  cases h with
  | none => exact fun h' => h'
  | struct => exact fun h' => h'
  | closure => exact fun h' => h'
  | scalar h =>
    intro c h'
    cases h' with
    | scalar h' => exact .scalar (hr h h')
  | array h =>
    intro c h'
    cases h' with
    | array h' => exact .array (hr h h')
  | tuple h =>
    intro c h'
    cases h' with
    | tuple h' => exact .tuple (LiftAll.trans hr h h')
  | slice ha hb hc =>
    intro c h'
    cases h' with
    | slice ha' hb' hc' =>
      exact .slice (Lift.trans hr ha ha') (Lift.trans hr hb hb') (Lift.trans hr hc hc')

theorem LiftAll.trans (hr : ∀ {a b c}, r a b → r b c → r a c) {as bs : List Ty}
    (h : LiftAll r as bs) : ∀ {cs : List Ty}, LiftAll r bs cs → LiftAll r as cs := by
  cases h with
  | nil => exact fun h' => h'
  | cons h hs =>
    intro cs h'
    cases h' with
    | cons h' hs' => exact .cons (Lift.trans hr h h') (LiftAll.trans hr hs hs')
end

/-! ## Joins -/

mutual
/-- Both operands are widened to their join. -/
theorem join?_lift : ∀ {a b c : Ty}, a.join? b = some c →
    Lift ElemType.Widens a c ∧ Lift ElemType.Widens b c
  | .scalar x, b, c, h => by
    cases b with
    | scalar y =>
      cases h
      exact ⟨.scalar (x.widens_join_left y), .scalar (x.widens_join_right y)⟩
    | _ => cases h
  | .array x rank, b, c, h => by
    cases b with
    | array y rank' =>
      rw [join?] at h
      split at h
      · subst rank'
        cases h
        exact ⟨.array (x.widens_join_left y), .array (x.widens_join_right y)⟩
      · cases h
    | _ => cases h
  | .tuple as, b, c, h => by
    cases b with
    | tuple bs =>
      obtain ⟨cs, hcs, rfl⟩ := Option.map_eq_some_iff.1 h
      obtain ⟨has, hbs⟩ := joinList?_lift hcs
      exact ⟨.tuple has, .tuple hbs⟩
    | _ => cases h
  | .slice x y z, b, c, h => by
    cases b with
    | slice x' y' z' =>
      rw [join?] at h
      split at h
      · cases h
        rename_i hx hy hz
        obtain ⟨hx, hx'⟩ := join?_lift hx
        obtain ⟨hy, hy'⟩ := join?_lift hy
        obtain ⟨hz, hz'⟩ := join?_lift hz
        exact ⟨.slice hx hy hz, .slice hx' hy' hz'⟩
      · cases h
    | _ => cases h
  -- The other types are joined with themselves only.
  | .none, b, c, h => by
    have heq : Ty.none = b ∧ Ty.none = c := by cases b <;> simp_all [join?]
    obtain ⟨rfl, rfl⟩ := heq
    exact ⟨.none, .none⟩
  | .struct name fields, b, c, h => by
    have heq : Ty.struct name fields = b ∧ Ty.struct name fields = c := by
      cases b <;> simp_all [join?]
    obtain ⟨rfl, rfl⟩ := heq
    exact ⟨.struct, .struct⟩
  | .closure func captured, b, c, h => by
    have heq : Ty.closure func captured = b ∧ Ty.closure func captured = c := by
      cases b <;> simp_all [join?]
    obtain ⟨rfl, rfl⟩ := heq
    exact ⟨.closure, .closure⟩
termination_by structural a => a

theorem joinList?_lift : ∀ {as bs cs : List Ty}, joinList? as bs = some cs →
    LiftAll ElemType.Widens as cs ∧ LiftAll ElemType.Widens bs cs
  | [], bs, cs, h => by
    cases bs with
    | nil =>
      cases h
      exact ⟨.nil, .nil⟩
    | cons b bs => cases h
  | a :: as, bs, cs, h => by
    cases bs with
    | nil => cases h
    | cons b bs =>
      rw [joinList?] at h
      split at h
      · cases h
        rename_i hhead htail
        obtain ⟨ha, hb⟩ := join?_lift hhead
        obtain ⟨has, hbs⟩ := joinList?_lift htail
        exact ⟨.cons ha has, .cons hb hbs⟩
      · cases h
termination_by structural as => as
end

mutual
/-- A type is absorbed by those that it is widened to. -/
theorem Lift.join?_eq : ∀ {a b : Ty}, Lift ElemType.Widens a b → a.join? b = some b
  | .scalar x, _, .scalar h => congrArg (some ∘ Ty.scalar) h
  | .array x rank, _, .array h => by
    rw [join?, if_pos rfl]
    exact congrArg (fun elt => some (Ty.array elt rank)) h
  | .tuple as, _, .tuple h => by
    rw [join?, LiftAll.joinList?_eq h]
    rfl
  | .slice x y z, _, .slice hx hy hz => by
    rw [join?, Lift.join?_eq hx, Lift.join?_eq hy, Lift.join?_eq hz]
  | .none, _, .none => rfl
  | .struct name fields, _, .struct => if_pos rfl
  | .closure func captured, _, .closure => if_pos rfl
termination_by structural a => a

theorem LiftAll.joinList?_eq : ∀ {as bs : List Ty}, LiftAll ElemType.Widens as bs →
    joinList? as bs = some bs
  | [], _, .nil => rfl
  | a :: as, _, .cons h hs => by
    rw [joinList?, Lift.join?_eq h, LiftAll.joinList?_eq hs]
termination_by structural as => as
end

/-- The type is widened to the other one. -/
abbrev Widens : Ty → Ty → Prop :=
  Lift ElemType.Widens

theorem Widens.refl (a : Ty) : a.Widens a :=
  Lift.refl ElemType.Widens.refl a

theorem Widens.trans (h : a.Widens b) (h' : b.Widens c) : a.Widens c :=
  Lift.trans (r := ElemType.Widens) (fun h h' => h.trans h') h h'

/-- A type is widened to exactly those types that absorb it. -/
theorem join?_eq_right_iff : a.join? b = some b ↔ a.Widens b :=
  ⟨fun h => (join?_lift h).1, Lift.join?_eq⟩

end Ty
end ArrayLang
