import ArrayLang.Proofs.Typing.Computation
import ArrayLang.Proofs.Typing.WellTyped
import ArrayLang.Typing.Coercion

/-!
# Which expressions are converted

A conversion leaves an expression of the right type alone, casts a scalar, and takes a tuple that is
written out apart. Nothing else is converted. What a conversion makes of an expression is said once, as a
relation; typing computes it, without looking at the session.

## Main results

- `Expr.Coerced`: what conversions make of expressions.
- `coerce_decides`: a conversion is made exactly if there is one.
- `exec_coerce_of_ty?`: an expression of the right type is left alone, and so is a converted one.
-/

namespace ArrayLang

open Typing

namespace Expr

variable {e e' : Expr} {target : Ty} {items items' : List Expr} {targets : List Ty}

/-- A tuple that is written out has the type of the tuple of its items' types. -/
def TupleTyped (e : Expr) : Prop :=
  ∀ items, e.node = .tuple items → ∃ types, List.Forall₂ (fun e ty => e.ty? = some ty) items types ∧
    e.ty? = some (.tuple types)

mutual
/-- The expression is of the type, or both are scalars, or it is a tuple whose items are convertible to the
components. -/
inductive Convertible : Expr → Ty → Prop
  | same {e : Expr} {ty : Ty} (h : e.ty? = some ty) : Convertible e ty
  | scalar {e : Expr} {a : ElemType} (h : e.ty? = some (.scalar a)) (b : ElemType) :
    Convertible e (.scalar b)
  | tuple {items : List Expr} {ty? : Option Ty} {targets : List Ty}
    (h : AllConvertible items targets) : Convertible ⟨.tuple items, ty?⟩ (.tuple targets)

inductive AllConvertible : List Expr → List Ty → Prop
  | nil : AllConvertible [] []
  | cons {e : Expr} {ty : Ty} {es : List Expr} {types : List Ty} (h : Convertible e ty)
    (hs : AllConvertible es types) : AllConvertible (e :: es) (ty :: types)
end

mutual
/-- Converting the first expression to the type makes the second one. -/
inductive Coerced : Expr → Ty → Expr → Prop
  | same {e : Expr} {ty : Ty} (h : e.ty? = some ty) : Coerced e ty e
  | scalar {e : Expr} {a b : ElemType} (h : e.ty? = some (.scalar a)) :
    Coerced e (.scalar b) (.typed (.cast e b) (.scalar b))
  | tuple {items items' : List Expr} {ty? : Option Ty} {targets : List Ty}
    (h : AllCoerced items targets items') :
    Coerced ⟨.tuple items, ty?⟩ (.tuple targets) (.typed (.tuple items') (.tuple targets))

/-- The same of several expressions. -/
inductive AllCoerced : List Expr → List Ty → List Expr → Prop
  | nil : AllCoerced [] [] []
  | cons {e e' : Expr} {ty : Ty} {es es' : List Expr} {types : List Ty} (h : Coerced e ty e')
    (hs : AllCoerced es types es') : AllCoerced (e :: es) (ty :: types) (e' :: es')
end

mutual
theorem Coerced.convertible : ∀ {e : Expr} {ty : Ty} {e' : Expr}, Coerced e ty e' → e.Convertible ty
  | _, _, _, .same h => .same h
  | _, _, _, .scalar h => .scalar h _
  | _, _, _, .tuple h => .tuple (AllCoerced.convertible h)

theorem AllCoerced.convertible : ∀ {es : List Expr} {types : List Ty} {es' : List Expr},
    AllCoerced es types es' → AllConvertible es types
  | _, _, _, .nil => .nil
  | _, _, _, .cons h hs => .cons (Coerced.convertible h) (AllCoerced.convertible hs)
end

theorem AllConvertible.length_eq (h : AllConvertible items targets) :
    items.length = targets.length := by
  induction items generalizing targets with
  | nil =>
    cases h
    rfl
  | cons e items ih =>
    cases h with
    | cons _ hs => exact congrArg (· + 1) (ih hs)

/-! ## The types of converted expressions -/

theorem Coerced.ty?_eq (h : Coerced e target e') : e'.ty? = some target := by
  cases h with
  | same h => exact h
  | scalar => rfl
  | tuple => rfl

theorem AllCoerced.tys (h : AllCoerced items targets items') :
    List.Forall₂ (fun e ty => e.ty? = some ty) items' targets := by
  induction items generalizing targets items' with
  | nil =>
    cases h
    exact .nil
  | cons e items ih =>
    cases h with
    | cons h hs => exact .cons h.ty?_eq (ih hs)

mutual
/-- The tuples of a converted expression have the types of the tuples of their items' types. -/
theorem Coerced.tupleTyped : ∀ {e : Expr} {ty : Ty} {e' : Expr}, Coerced e ty e' →
    e.Forall TupleTyped → e'.Forall TupleTyped
  | _, _, _, .same _, he => he
  | _, _, _, .scalar _, he =>
    forall_iff.2 ⟨fun _ h => Node.noConfusion h, List.forall_mem_singleton.2 he⟩
  | _, _, _, .tuple h, he => by
    have hitems := AllCoerced.tupleTyped h fun c hc => he.of_mem_children hc
    refine forall_iff.2 ⟨fun items heq => ?_, hitems⟩
    cases heq
    exact ⟨_, h.tys, rfl⟩

theorem AllCoerced.tupleTyped : ∀ {es : List Expr} {types : List Ty} {es' : List Expr},
    AllCoerced es types es' → (∀ e ∈ es, e.Forall TupleTyped) → ∀ e ∈ es', e.Forall TupleTyped
  | _, _, _, .nil, _ => fun _ h => (List.not_mem_nil h).elim
  | _, _, _, .cons h hs, he => by
    rw [List.forall_mem_cons] at he
    exact List.forall_mem_cons.2 ⟨Coerced.tupleTyped h he.1, AllCoerced.tupleTyped hs he.2⟩
end

end Expr

/-! ## What typing computes -/

open ArrayLang.Expr

variable {e e' : Expr} {node : Node} {ty target : Ty} {s : Session}

/-- A computation that leaves the session alone and either returns what satisfies `Q` or refuses a type,
the latter only if `p` does not hold. -/
def Typing.Decides {α : Type} (p : Prop) (Q : α → Prop) (x : Typing α) : Prop :=
  ∀ s, (∃ a, exec x s = (.ok a, s) ∧ Q a) ∨
    (¬p ∧ ∃ expected found, exec x s = (.error (.error (.incompatible expected found)), s))

/-- An expression of the type that is asked for is left alone, and a scalar is cast. -/
theorem coerce_leaf_decides (hty : e.ty? = some ty)
    (hleaf : ∀ items targets, e.node = .tuple items → target ≠ .tuple targets) :
    Decides (e.Convertible target) (Coerced e target)
      (if ty = target then return e else coerceScalar e ty target) := by
  intro s
  by_cases heq : ty = target
  · rw [if_pos heq]
    exact .inl ⟨e, rfl, .same (heq ▸ hty)⟩
  · rw [if_neg heq]
    by_cases hscalar : ∃ a b, ty = .scalar a ∧ target = .scalar b
    · obtain ⟨a, b, rfl, rfl⟩ := hscalar
      exact .inl ⟨_, rfl, .scalar hty⟩
    · refine .inr ⟨fun hconv => ?_, target, ty, ?_⟩
      · cases hconv with
        | same h => exact heq (Option.some.inj (hty.symm.trans h))
        | scalar h b => exact hscalar ⟨_, b, Option.some.inj (hty.symm.trans h), rfl⟩
        | tuple h => exact hleaf _ _ rfl rfl
      · unfold coerceScalar
        split
        · exact absurd ⟨_, _, rfl, rfl⟩ hscalar
        · rfl

theorem exec_typesOf {es : List Expr} {types : List Ty}
    (h : List.Forall₂ (fun e ty => e.ty? = some ty) es types) (s : Session) :
    exec (typesOf es) s = (.ok types, s) := by
  induction h with
  | nil => rfl
  | @cons e ty es types hty _ ih =>
    unfold typesOf at ih ⊢
    have htype : exec (typeOf e) s = (.ok ty, s) := by
      unfold typeOf
      rw [hty]
      rfl
    rw [List.mapM_cons, exec_bind, htype]
    dsimp only
    rw [exec_bind, ih]
    rfl

mutual
theorem coerce_node_decides {node : Node} {ty : Ty} (target : Ty)
    (h : Expr.Forall TupleTyped ⟨node, some ty⟩) :
    Decides (Expr.Convertible ⟨node, some ty⟩ target) (Coerced ⟨node, some ty⟩ target)
      (coerce ⟨node, some ty⟩ target) := by
  cases node with
  | tuple items =>
    cases target with
    | tuple targets =>
      obtain ⟨types, htypes, hty⟩ := h.self items rfl
      rw [coerce]
      intro s
      by_cases heq : ty = .tuple targets
      · rw [if_pos heq]
        exact .inl ⟨_, rfl, .same (congrArg some heq)⟩
      · rw [if_neg heq]
        have hitems (hconv : Expr.Convertible ⟨.tuple items, some ty⟩ (.tuple targets)) :
            AllConvertible items targets := by
          cases hconv with
          | same h => exact absurd (Option.some.inj h) heq
          | tuple h => exact h
        show (∃ a, exec (if items.length ≠ targets.length then _ else _) s = (.ok a, s) ∧ _) ∨
          (_ ∧ ∃ expected found, exec (if items.length ≠ targets.length then _ else _) s = _)
        by_cases hlength : items.length ≠ targets.length
        · rw [if_pos hlength, exec_bind, exec_typesOf htypes]
          exact .inr ⟨fun hconv => hlength (hitems hconv).length_eq, _, _, rfl⟩
        · rw [if_neg hlength, exec_bind]
          rcases coerceAll_decides items targets (not_not.1 hlength) htypes
            (fun c hc => h.of_mem_children hc) s with ⟨items', hrun, hcoerced⟩ | ⟨hnot, _, _, hrun⟩
          · rw [hrun]
            exact .inl ⟨_, rfl, .tuple hcoerced⟩
          · rw [hrun]
            exact .inr ⟨fun hconv => hnot (hitems hconv), _, _, rfl⟩
    | _ => exact coerce_leaf_decides rfl fun _ _ _ heq => Ty.noConfusion heq
  | _ => exact coerce_leaf_decides rfl fun _ _ heq => Node.noConfusion heq
termination_by sizeOf node

theorem coerceAll_decides : ∀ (es : List Expr) (targets : List Ty) {types : List Ty},
    es.length = targets.length → List.Forall₂ (fun e ty => e.ty? = some ty) es types →
    (∀ e ∈ es, e.Forall TupleTyped) →
    Decides (AllConvertible es targets) (AllCoerced es targets) (coerceAll es targets)
  | [], [], _, _, _, _, _ => .inl ⟨[], rfl, .nil⟩
  | ⟨node, ty?⟩ :: es, target :: targets, _, hlength, .cons hty htypes, h, s => by
    obtain rfl := show ty? = some _ from hty
    rw [List.forall_mem_cons] at h
    rw [coerceAll, exec_bind]
    rcases coerce_node_decides target h.1 s with ⟨e', hrun, he'⟩ | ⟨hnot, _, _, hrun⟩
    · rw [hrun]
      dsimp only
      rw [exec_bind]
      rcases coerceAll_decides es targets (Nat.succ.inj hlength) htypes h.2 s with
        ⟨es', hrun, hes'⟩ | ⟨hnot, _, _, hrun⟩
      · rw [hrun]
        exact .inl ⟨_, rfl, .cons he' hes'⟩
      · rw [hrun]
        refine .inr ⟨fun hconv => ?_, _, _, rfl⟩
        cases hconv with
        | cons _ hs => exact hnot hs
    · rw [hrun]
      refine .inr ⟨fun hconv => ?_, _, _, rfl⟩
      cases hconv with
      | cons h _ => exact hnot h
termination_by es => sizeOf es
end

/-- A conversion is made exactly if the expression is convertible, and refused as incompatible otherwise. -/
theorem coerce_decides (hty : e.ty? = some ty) (h : e.Forall TupleTyped) (target : Ty) :
    Decides (e.Convertible target) (Coerced e target) (coerce e target) := by
  obtain ⟨node, ty?⟩ := e
  obtain rfl := show ty? = some ty from hty
  exact coerce_node_decides target h

/-- An expression of the right type is not converted. -/
theorem exec_coerce_of_ty? (h : e.ty? = some target) (s : Session) :
    exec (coerce e target) s = (.ok e, s) := by
  obtain ⟨node, ty?⟩ := e
  obtain rfl := show ty? = some target from h
  have hleaf : exec (if target = target then return ⟨node, some target⟩
      else coerceScalar ⟨node, some target⟩ target target) s = (.ok ⟨node, some target⟩, s) := by
    rw [if_pos rfl]
    rfl
  cases node with
  | tuple items =>
    cases target with
    | tuple targets =>
      rw [coerce, if_pos rfl]
      rfl
    | _ => exact hleaf
  | _ => exact hleaf

end ArrayLang
