import ArrayLang.Proofs.Ty.LeastUpperBound
import ArrayLang.Proofs.Typing.Computation
import ArrayLang.Typing.Inference

/-!
# The order of assignments

Inference widens the type of a variable each time that the variable is assigned. What it ends with is the
join of the types of all assignments, and of the type that the variable had before. Joins are least upper
bounds, and so the assignments may come in any order.

## Main results

- `Infer.exec_bindVar`, `Infer.exec_bindReturn`: what one assignment does to the types found so far, and
  what one return does.
- `Infer.exec_bindVars`: the type of each variable after some assignments is the join of their types.
-/

namespace ArrayLang

open Typing

/-- The type of a variable that has had type `known?`, after a value of type `ty` is assigned to it. -/
def Ty.joinOnto? (known? : Option Ty) (ty : Ty) : Option Ty :=
  match known? with
  | Option.none => some ty
  | some known => known.join? ty

theorem Ty.joins?_joinOnto? (known? : Option Ty) (ty : Ty) (types : List Ty) :
    joins? (known?.toList ++ ty :: types) = (joinOnto? known? ty).bind fun joined =>
      joins? ((some joined).toList ++ types) := by
  cases known? with
  | none => rfl
  | some known =>
    show ((ty :: types).foldlM join? known).map some = _
    rw [List.foldlM_cons]
    exact Option.map_bind

namespace InferState

/-- The types found so far with that of one variable replaced, which counts as a change if it is one. -/
def rebind (st : InferState) (name : String) (ty : Ty) : InferState :=
  if st.env.find? name = some ty then st
  else { st with env := st.env.insert name ty, version := st.version + 1 }

theorem find?_rebind (st : InferState) (name : String) (ty : Ty) (x : String) :
    (st.rebind name ty).env.find? x = if x = name then some ty else st.env.find? x := by
  unfold rebind
  split
  · rename_i h
    by_cases hx : x = name
    · rw [if_pos hx, hx, h]
    · rw [if_neg hx]
  · exact NameMap.find?_insert ..

/-- The types found so far with that of the result replaced. -/
def setReturned (st : InferState) (ty : Ty) : InferState :=
  if st.returned? = some ty then st
  else { st with returned? := some ty, version := st.version + 1 }

theorem returned?_setReturned (st : InferState) (ty : Ty) :
    (st.setReturned ty).returned? = some ty := by
  unfold setReturned
  split
  · assumption
  · rfl

end InferState

namespace Infer

variable {st : InferState} {name : String} {ty : Ty} {s : Session}

/-- Widens a type to hold values of type `ty`, where the type may not be known yet, and sets the new one
if it is not the same. -/
def widen (known? : Option Ty) (ty : Ty) (cause : Ty → TypingError)
    (set : Ty → InferState → InferState) : Infer Unit :=
  match known? with
  | none => modify (set ty)
  | some known => do
    let joined ← Typing.require (cause known) (known.join? ty)
    if joined ≠ known then modify (set joined)

theorem exec_widen (known? : Option Ty) (ty : Ty) (cause : Ty → TypingError)
    (set : Ty → InferState → InferState) (st : InferState) (s : Session) :
    (∃ joined, Ty.joinOnto? known? ty = some joined ∧
      exec ((widen known? ty cause set).run st) s =
        (.ok ((), if known? = some joined then st else set joined st), s)) ∨
    (Ty.joinOnto? known? ty = none ∧
      ∃ e, exec ((widen known? ty cause set).run st) s = (.error e, s)) := by
  cases known? with
  | none => exact .inl ⟨ty, rfl, rfl⟩
  | some known =>
    show (∃ joined, known.join? ty = some joined ∧ _) ∨ (known.join? ty = none ∧ _)
    unfold widen
    dsimp only
    cases hjoin : known.join? ty with
    | none => exact .inr ⟨rfl, _, rfl⟩
    | some joined =>
      refine .inl ⟨joined, rfl, ?_⟩
      show exec (StateT.run (if joined ≠ known then modify (set joined) else pure ()) st) s = _
      by_cases heq : joined = known
      · rw [if_neg (not_not.2 heq), if_pos (congrArg some heq.symm)]
        rfl
      · rw [if_pos heq, if_neg fun h => heq (Option.some.inj h).symm]
        rfl

/-- An assignment to a variable widens its type by that of the value, or fails. -/
theorem exec_bindVar (st : InferState) (name : String) (ty : Ty) (s : Session) :
    (∃ joined, Ty.joinOnto? (st.env.find? name) ty = some joined ∧
      exec ((bindVar name ty).run st) s = (.ok ((), st.rebind name joined), s)) ∨
    (Ty.joinOnto? (st.env.find? name) ty = none ∧
      ∃ e, exec ((bindVar name ty).run st) s = (.error e, s)) :=
  exec_widen (st.env.find? name) ty (.conflicting name · ty)
    (fun ty st => { st with env := st.env.insert name ty, version := st.version + 1 }) st s

/-- Returning a value widens the type of the result by that of the value, or fails. -/
theorem exec_bindReturn (st : InferState) (ty : Ty) (s : Session) :
    (∃ joined, Ty.joinOnto? st.returned? ty = some joined ∧
      exec ((bindReturn ty).run st) s = (.ok ((), st.setReturned joined), s)) ∨
    (Ty.joinOnto? st.returned? ty = none ∧
      ∃ e, exec ((bindReturn ty).run st) s = (.error e, s)) :=
  exec_widen st.returned? ty (.conflicting "<return>" · ty)
    (fun ty st => { st with returned? := some ty, version := st.version + 1 }) st s

/-- Assigns values of the given types to variables, one after the other. -/
def bindVars (assigned : List (String × Ty)) : Infer Unit :=
  assigned.forM fun p => bindVar p.1 p.2

/-- The types that one variable is assigned. -/
def typesOf (name : String) (assigned : List (String × Ty)) : List Ty :=
  (assigned.filter (·.1 = name)).map (·.2)

/-- After some assignments the type of each variable is the join of the one it had and of those that it
is assigned. If a variable has no such type, the assignments are refused. -/
theorem exec_bindVars (assigned : List (String × Ty)) (st : InferState) (s : Session) :
    (∃ st', exec ((bindVars assigned).run st) s = (.ok ((), st'), s) ∧
      ∀ x, Ty.joins? ((st.env.find? x).toList ++ typesOf x assigned) = some (st'.env.find? x)) ∨
    ((∃ e, exec ((bindVars assigned).run st) s = (.error e, s)) ∧
      ∃ x, Ty.joins? ((st.env.find? x).toList ++ typesOf x assigned) = none) := by
  induction assigned generalizing st with
  | nil =>
    refine .inl ⟨st, rfl, fun x => ?_⟩
    cases st.env.find? x <;> rfl
  | cons p assigned ih =>
    obtain ⟨name, ty⟩ := p
    have hcons : (bindVars ((name, ty) :: assigned)).run st =
        (bindVar name ty).run st >>= fun r => (bindVars assigned).run r.2 :=
      rfl
    rw [hcons, exec_bind]
    have hname : typesOf name ((name, ty) :: assigned) = ty :: typesOf name assigned := by
      simp [typesOf]
    rcases exec_bindVar st name ty s with ⟨joined, hjoined, hrun⟩ | ⟨hnone, e, hrun⟩
    · have htypes (x : String) :
          Ty.joins? (((st.rebind name joined).env.find? x).toList ++ typesOf x assigned) =
            Ty.joins? ((st.env.find? x).toList ++ typesOf x ((name, ty) :: assigned)) := by
        rw [InferState.find?_rebind]
        by_cases hx : x = name
        · rw [if_pos hx, hx, hname, Ty.joins?_joinOnto?, hjoined]
          rfl
        · rw [if_neg hx, typesOf, typesOf, List.filter_cons_of_neg (by simpa using Ne.symm hx)]
      rw [hrun]
      simp only [← htypes]
      exact ih (st.rebind name joined)
    · rw [hrun]
      refine .inr ⟨⟨e, rfl⟩, name, ?_⟩
      rw [hname, Ty.joins?_joinOnto?, hnone]
      rfl

/-- The types of the variables after some assignments, none if the assignments are refused. -/
def typesAfter (assigned : List (String × Ty)) (st : InferState) (s : Session) :
    Option (String → Option Ty) :=
  (exec ((bindVars assigned).run st) s).1.toOption.map fun r => r.2.env.find?

theorem typesAfter_eq_some_iff {assigned : List (String × Ty)} {types : String → Option Ty} :
    typesAfter assigned st s = some types ↔
      ∀ x, Ty.joins? ((st.env.find? x).toList ++ typesOf x assigned) = some (types x) := by
  unfold typesAfter
  rcases exec_bindVars assigned st s with ⟨st', hrun, htypes⟩ | ⟨⟨e, hrun⟩, x, hnone⟩
  · rw [hrun]
    refine ⟨fun h x => ?_, fun h => congrArg some (funext fun x => ?_)⟩
    · cases h
      exact htypes x
    · exact Option.some.inj ((htypes x).symm.trans (h x))
  · rw [hrun]
    refine ⟨fun h => ?_, fun h => ?_⟩
    · cases h
    · rw [h x] at hnone
      cases hnone

/-- Types are joined as in a semilattice, where a join may be missing, and so the types that inference
finds do not depend on the order of the assignments. -/
theorem types_order_independent (a b c : Ty) {assigned assigned' : List (String × Ty)}
    (h : assigned.Perm assigned') (st : InferState) (s : Session) :
    a.join? a = some a ∧ a.join? b = b.join? a ∧
      (a.join? b).bind (·.join? c) = (b.join? c).bind (·.join? a) ∧
      (∀ j, a.join? b = some j → a.join? j = some j ∧ b.join? j = some j) ∧
      typesAfter assigned st s = typesAfter assigned' st s := by
  refine ⟨Ty.join?_self a, Ty.join?_comm a b, ?_, fun j => Ty.join?_absorb, ?_⟩
  · rw [Ty.join?_assoc]
    exact congrArg _ (funext fun m => Ty.join?_comm a m)
  · have htypes (x : String) : (typesOf x assigned).Perm (typesOf x assigned') :=
      (h.filter _).map _
    refine Option.ext fun types => ?_
    rw [typesAfter_eq_some_iff, typesAfter_eq_some_iff]
    exact forall_congr' fun x => by rw [Ty.joins?_perm ((htypes x).append_left _)]

theorem types_order_independent_widening :
    ([("x", Ty.scalar .int32), ("y", .bool), ("x", .scalar .float32)] : List (String × Ty)).Perm
        [("x", .scalar .float32), ("x", .scalar .int32), ("y", .bool)] ∧
      typesAfter [("x", Ty.scalar .int32), ("y", .bool), ("x", .scalar .float32)] ⟨∅, none, 0⟩
          (Session.new none) =
        typesAfter [("x", .scalar .float32), ("x", .scalar .int32), ("y", .bool)] ⟨∅, none, 0⟩
          (Session.new none) ∧
      (typesAfter [("x", Ty.scalar .int32), ("y", .bool), ("x", .scalar .float32)] ⟨∅, none, 0⟩
          (Session.new none)).map (· "x") = some (some (.scalar .float64)) := by
  have hperm : ([("x", Ty.scalar .int32), ("y", .bool), ("x", .scalar .float32)] :
      List (String × Ty)).Perm [("x", .scalar .float32), ("x", .scalar .int32), ("y", .bool)] := by
    decide
  obtain ⟨-, -, -, -, horder⟩ := types_order_independent .bool .int64 .none hperm ⟨∅, none, 0⟩
    (Session.new none)
  exact ⟨hperm, horder, by decide⟩

end Infer
end ArrayLang
