import ArrayLang.Proofs.Ty.Join
import Mathlib.Order.Bounds.Basic

/-!
# The join as a least upper bound

Widening is a partial order on types. Two types have an upper bound only if they have a join, and the join
is then the least of the upper bounds: in this order, joining is taking least upper bounds. That is why a
join does not depend on the order of its operands, and why the join of several types does not depend on
how they are grouped.

## Main results

- `Ty.isLUB_pair_iff`: the join of two types is their least upper bound.
- `Ty.join?_comm`, `Ty.join?_assoc`: the laws of a semilattice, where a side without a join makes the other
  side have none.
- `Ty.isLUB_foldlM_iff`: joining the types of a list one after the other gives the least upper bound of all
  of them, in whatever order they stand (`Ty.joins?_perm`).
-/

namespace ArrayLang

variable {x y z : ElemType}

theorem ElemType.Widens.antisymm (h : x.Widens y) (h' : y.Widens x) : x = y := by
  unfold Widens at *
  rw [← h', join_comm, h]

/-- A type that holds the values of both operands holds the values of their join. -/
theorem ElemType.Widens.join (h : x.Widens z) (h' : y.Widens z) : (x.join y).Widens z := by
  unfold Widens at *
  rw [join_assoc, h', h]

namespace Ty

variable {a b c j : Ty}

/-! ## The order -/

mutual
theorem Widens.antisymm {a b : Ty} (h : a.Widens b) (h' : b.Widens a) : a = b := by
  cases h with
  | none => rfl
  | struct => rfl
  | closure => rfl
  | scalar h =>
    cases h' with
    | scalar h' => rw [h.antisymm h']
  | array h =>
    cases h' with
    | array h' => rw [h.antisymm h']
  | tuple h =>
    cases h' with
    | tuple h' => rw [LiftAll.antisymm h h']
  | slice ha hb hc =>
    cases h' with
    | slice ha' hb' hc' =>
      rw [Widens.antisymm ha ha', Widens.antisymm hb hb', Widens.antisymm hc hc']
termination_by sizeOf a

theorem LiftAll.antisymm {as bs : List Ty} (h : LiftAll ElemType.Widens as bs)
    (h' : LiftAll ElemType.Widens bs as) : as = bs := by
  cases h with
  | nil => rfl
  | cons h hs =>
    cases h' with
    | cons h' hs' => rw [Widens.antisymm h h', LiftAll.antisymm hs hs']
termination_by sizeOf as
end

instance : PartialOrder Ty where
  le := Widens
  le_refl := Widens.refl
  le_trans _ _ _ := Widens.trans
  le_antisymm _ _ := Widens.antisymm

/-! ## Least upper bounds -/

mutual
/-- Types with an upper bound have a join below it. -/
theorem Widens.exists_join? {a b c : Ty} (h : a.Widens c) (h' : b.Widens c) :
    ∃ j, a.join? b = some j ∧ j.Widens c := by
  cases h with
  | none =>
    cases h'
    exact ⟨.none, rfl, .none⟩
  | struct =>
    cases h'
    exact ⟨_, if_pos rfl, .struct⟩
  | closure =>
    cases h'
    exact ⟨_, if_pos rfl, .closure⟩
  | scalar h =>
    cases h' with
    | scalar h' => exact ⟨_, rfl, .scalar (h.join h')⟩
  | array h =>
    cases h' with
    | array h' => exact ⟨_, if_pos rfl, .array (h.join h')⟩
  | tuple h =>
    cases h' with
    | tuple h' =>
      obtain ⟨js, hjs, hle⟩ := LiftAll.exists_joinList? h h'
      exact ⟨.tuple js, by rw [join?, hjs]; rfl, .tuple hle⟩
  | slice ha hb hc =>
    cases h' with
    | slice ha' hb' hc' =>
      obtain ⟨x, hx, hax⟩ := Widens.exists_join? ha ha'
      obtain ⟨y, hy, hby⟩ := Widens.exists_join? hb hb'
      obtain ⟨z, hz, hcz⟩ := Widens.exists_join? hc hc'
      exact ⟨.slice x y z, by rw [join?, hx, hy, hz], .slice hax hby hcz⟩
termination_by sizeOf a

theorem LiftAll.exists_joinList? {as bs cs : List Ty} (h : LiftAll ElemType.Widens as cs)
    (h' : LiftAll ElemType.Widens bs cs) :
    ∃ js, joinList? as bs = some js ∧ LiftAll ElemType.Widens js cs := by
  cases h with
  | nil =>
    cases h'
    exact ⟨[], rfl, .nil⟩
  | cons h hs =>
    cases h' with
    | cons h' hs' =>
      obtain ⟨j, hj, hle⟩ := Widens.exists_join? h h'
      obtain ⟨js, hjs, hles⟩ := LiftAll.exists_joinList? hs hs'
      exact ⟨j :: js, by rw [joinList?, hj, hjs], .cons hle hles⟩
termination_by sizeOf as
end

theorem isLUB_of_join? (h : a.join? b = some j) : IsLUB {a, b} j := by
  obtain ⟨ha, hb⟩ := join?_lift h
  refine ⟨?_, fun c hc => ?_⟩
  · rintro x (rfl | rfl)
    · exact ha
    · exact hb
  · obtain ⟨j', hj', hle⟩ := Widens.exists_join? (hc (.inl rfl)) (hc (.inr rfl))
    rw [h] at hj'
    cases hj'
    exact hle

/-- The join of two types is the least type that both are widened to. -/
theorem isLUB_pair_iff : IsLUB {a, b} j ↔ a.join? b = some j := by
  refine ⟨fun h => ?_, isLUB_of_join?⟩
  obtain ⟨j', hj', -⟩ := Widens.exists_join? (h.1 (.inl rfl)) (h.1 (.inr rfl))
  rw [hj', (isLUB_of_join? hj').unique h]

/-! ## Laws of the join -/

@[simp] theorem join?_self (a : Ty) : a.join? a = some a :=
  join?_eq_right_iff.2 (Widens.refl a)

theorem join?_comm (a b : Ty) : a.join? b = b.join? a := by
  refine Option.ext fun j => ?_
  rw [← isLUB_pair_iff, ← isLUB_pair_iff, Set.pair_comm]

/-- The join absorbs its operands. -/
theorem join?_absorb (h : a.join? b = some j) : a.join? j = some j ∧ b.join? j = some j := by
  obtain ⟨ha, hb⟩ := join?_lift h
  exact ⟨join?_eq_right_iff.2 ha, join?_eq_right_iff.2 hb⟩

/-- Widening by several types in turn gives the least type that holds all of them, and fails only if
there is none. -/
theorem isLUB_foldlM_iff {types : List Ty} :
    types.foldlM join? a = some j ↔ IsLUB {t | t ∈ a :: types} j := by
  induction types generalizing a with
  | nil =>
    have hset : {t | t ∈ [a]} = {a, a} := by ext; simp
    rw [hset, isLUB_pair_iff, join?_self]
    rfl
  | cons b types ih =>
    -- What bounds the join and the rest bounds the two operands and the rest.
    have hbounds {m : Ty} (hm : a.join? b = some m) :
        upperBounds {t | t ∈ m :: types} = upperBounds {t | t ∈ a :: b :: types} := by
      have hrest (head : List Ty) : {t | t ∈ head ++ types} = {t | t ∈ head} ∪ {t | t ∈ types} := by
        ext; simp
      have hpair : {t | t ∈ [a, b]} = ({a, b} : Set Ty) := by ext; simp
      have hsingle : {t | t ∈ [m]} = ({m} : Set Ty) := by ext; simp
      have hleast : upperBounds {m} = upperBounds ({a, b} : Set Ty) := by
        rw [upperBounds_singleton, (isLUB_of_join? hm).upperBounds_eq]
      calc upperBounds {t | t ∈ [m] ++ types}
        _ = upperBounds {m} ∩ upperBounds {t | t ∈ types} := by
          rw [hrest, upperBounds_union, hsingle]
        _ = upperBounds {t | t ∈ [a, b] ++ types} := by
          rw [hleast, hrest, upperBounds_union, hpair]
    rw [List.foldlM_cons]
    show (a.join? b).bind (fun m => types.foldlM join? m) = some j ↔ _
    refine ⟨fun h => ?_, fun h => ?_⟩
    · obtain ⟨m, hm, hj⟩ := Option.bind_eq_some_iff.1 h
      have hj := ih.1 hj
      unfold IsLUB at *
      rwa [hbounds hm] at hj
    · obtain ⟨m, hm, -⟩ := Widens.exists_join? (h.1 (show a ∈ a :: b :: types by simp))
        (h.1 (show b ∈ a :: b :: types by simp))
      rw [hm, Option.bind_some, ih]
      unfold IsLUB at *
      rwa [hbounds hm]

/-- Widening by the same types in another order gives the same type. -/
theorem foldlM_join?_perm {types types' : List Ty} (h : (a :: types).Perm (b :: types')) :
    types.foldlM join? a = types'.foldlM join? b := by
  have hset : {t | t ∈ a :: types} = {t | t ∈ b :: types'} := Set.ext fun t => h.mem_iff
  refine Option.ext fun j => ?_
  rw [isLUB_foldlM_iff, isLUB_foldlM_iff, hset]

/-- The join of three types does not depend on how they are grouped. -/
theorem join?_assoc (a b c : Ty) :
    (a.join? b).bind (·.join? c) = (b.join? c).bind (a.join? ·) := by
  have hfold (x y z : Ty) : (x.join? y).bind (·.join? z) = [y, z].foldlM join? x := by
    rw [List.foldlM_cons]
    exact congrArg (Option.bind _) (funext fun m => (bind_pure (m.join? z)).symm)
  have hperm : [a, b, c].Perm [b, c, a] :=
    (List.perm_append_comm : ([a] ++ [b, c]).Perm ([b, c] ++ [a]))
  calc (a.join? b).bind (·.join? c)
    _ = [c, a].foldlM join? b := by rw [hfold, foldlM_join?_perm hperm]
    _ = (b.join? c).bind (a.join? ·) := by
      rw [← hfold]
      simp only [join?_comm a]

/-! ## The join of several types -/

/-- The least type that holds all the given ones, if there is one. No type is needed for none. -/
def joins? : List Ty → Option (Option Ty)
  | [] => some Option.none
  | a :: types => (types.foldlM join? a).map some

/-- The order of the types does not matter. -/
theorem joins?_perm {types types' : List Ty} (h : types.Perm types') : joins? types = joins? types' := by
  match types, types', h with
  | [], [], _ => rfl
  | [], _ :: _, h => exact absurd h.length_eq (by simp)
  | _ :: _, [], h => exact absurd h.length_eq (by simp)
  | _ :: _, _ :: _, h => exact congrArg (Option.map some) (foldlM_join?_perm h)

end Ty
end ArrayLang
