import ArrayLang.Proofs.Adverb.Arguments
import ArrayLang.Proofs.Interpreter.AlikeStatement
import ArrayLang.Proofs.Interpreter.Quiet
import ArrayLang.Proofs.Typing.Coercion
import ArrayLang.Proofs.Value.Conforms

/-!
# What conversions do to values

Where an expression has a value of its type, the converted expression has the value with its scalars cast,
component by component, and leaves the same state. Where it fails, the converted one fails too. That needs
an argument, since an item whose value is not of its type may be an array: casting it makes a new block,
and the items that follow run on a store that numbers its blocks otherwise. They cannot tell, so they still
fail.

## Main results

- `Value.castTo`: a value with its scalars cast to the components of a type.
- `Expr.Coerced.eval`: the value of a converted expression.
- `Expr.Coerced.stopsNoLater`: a converted expression returns only where the expression does.
- `coerce_converts`: which expressions are converted, to which types, and what they mean.
-/

namespace ArrayLang

/-! ## Casting the scalars of a value -/

namespace Value

mutual
/-- The value with each scalar cast to the component of the type. -/
def castTo : Value → Ty → Value
  | .scalar x, .scalar elt => .scalar (x.cast elt)
  | .tuple items, .tuple types => .tuple (castAllTo items types)
  | v, _ => v
termination_by structural v => v

/-- The same of several values. -/
def castAllTo : List Value → List Ty → List Value
  | v :: vs, ty :: types => v.castTo ty :: castAllTo vs types
  | vs, _ => vs
termination_by structural vs => vs
end

mutual
/-- A value of the type is left alone. -/
theorem Conforms.castTo_eq : ∀ {v : Value} {ty : Ty}, v.Conforms ty → v.castTo ty = v
  | _, _, .scalar h => congrArg Value.scalar h
  | _, _, .tuple h => congrArg Value.tuple (AllConform.castAllTo_eq h)
  | _, _, .none | _, _, .array _ | _, _, .struct _ | _, _, .slice _ _ _ | _, _, .closure _ => rfl

theorem AllConform.castAllTo_eq : ∀ {vs : List Value} {types : List Ty}, AllConform vs types →
    castAllTo vs types = vs
  | _, _, .nil => rfl
  | _, _, .cons h hs => congrArg₂ List.cons (Conforms.castTo_eq h) (AllConform.castAllTo_eq hs)
end

end Value

/-! ## Values of converted expressions -/

open ArrayLang.Expr Value Interpreter Pairing

variable {apply : Apply} {trace : Trace} {env : Env}

mutual
/-- The converted expression has the value of the expression with its scalars cast. -/
theorem Expr.Coerced.eval : ∀ {e : Expr} {target : Ty} {e' : Expr}, Coerced e target e' →
    e.Forall TupleTyped → ∀ {ty : Ty}, e.ty? = some ty → ∀ {v : Value} {σ σ' : State Session},
    Run.exec (evalExpr apply trace env e) σ = (.ok v, σ') → v.Conforms ty →
    Run.exec (evalExpr apply trace env e') σ = (.ok (v.castTo target), σ')
  | _, _, _, .same htarget, _, _, hty, v, _, _, hrun, hv => by
    obtain rfl := Option.some.inj (hty.symm.trans htarget)
    rw [hv.castTo_eq]
    exact hrun
  | e, .scalar b, _, .scalar hscalar, _, _, hty, v, σ, σ', hrun, hv => by
    obtain rfl := Option.some.inj (hty.symm.trans hscalar)
    cases hv with
    | @scalar x _ _ =>
      show Run.exec (evalExpr apply trace env ⟨.cast e b, some (.scalar b)⟩) σ = _
      rw [evalExpr, Run.exec_bind_ok hrun]
      rfl
  | ⟨.tuple items, _⟩, .tuple targets, _, .tuple h, he, ty, hty, v, σ, σ', hrun, hv => by
    obtain ⟨types, htypes, htuple⟩ := he.self items rfl
    obtain rfl := Option.some.inj (hty.symm.trans htuple)
    rw [evalExpr] at hrun
    obtain ⟨vs, τ, hvs, hrun⟩ := Run.exec_bind_eq_ok hrun
    cases hrun
    cases hv with
    | tuple hv =>
      have hitems := AllCoerced.eval h (fun c hc => he.of_mem_children hc) htypes hvs hv
      unfold Expr.typed
      rw [evalExpr, Run.exec_bind_ok hitems]
      rfl

theorem Expr.AllCoerced.eval : ∀ {es : List Expr} {targets : List Ty} {es' : List Expr},
    AllCoerced es targets es' → (∀ e ∈ es, e.Forall TupleTyped) → ∀ {types : List Ty},
    List.Forall₂ (fun e ty => e.ty? = some ty) es types → ∀ {vs : List Value}
    {σ σ' : State Session}, Run.exec (evalExprs apply trace env es) σ = (.ok vs, σ') →
    AllConform vs types →
    Run.exec (evalExprs apply trace env es') σ = (.ok (castAllTo vs targets), σ')
  | _, _, _, .nil, _, _, _, vs, _, _, hrun, hvs => by
    cases hrun
    rfl
  | e :: es, _, _, .cons h hs, he, _, .cons hty htypes, vs, σ, σ', hrun, hvs => by
    rw [List.forall_mem_cons] at he
    rw [evalExprs] at hrun
    obtain ⟨v, τ, hv, hrun⟩ := Run.exec_bind_eq_ok hrun
    obtain ⟨rest, τ', hrest, hrun⟩ := Run.exec_bind_eq_ok hrun
    cases hrun
    cases hvs with
    | cons hvty hvs =>
      have hhead := Coerced.eval h he.1 hty hv hvty
      have htail := AllCoerced.eval hs he.2 htypes hrest hvs
      rw [evalExprs, Run.exec_bind_ok hhead, Run.exec_bind_ok htail]
      rfl
end

/-! ## Failing no later -/

namespace Run

variable {κ ε α β γ δ : Type} {J : κ → Prop} {ρ : Pairing} {x : Run κ ε α} {y : Run κ ε β}

/-- On stores that `ρ` pairs the second computation fails, or both return and leave paired stores and one
context in `J`. -/
def StopsNoLater (J : κ → Prop) (ρ : Pairing) (x : Run κ ε α) (y : Run κ ε β) : Prop :=
  ∀ s t c, ρ.Matches s t → J c →
    (∃ stop τ, exec y ⟨t, c⟩ = (.error stop, τ)) ∨
    ∃ ρ' a b s' t' c', ρ ≤ ρ' ∧ exec x ⟨s, c⟩ = (.ok a, ⟨s', c'⟩) ∧
      exec y ⟨t, c⟩ = (.ok b, ⟨t', c'⟩) ∧ ρ'.Matches s' t' ∧ J c'

namespace StopsNoLater

theorem of_alike {Q : Pairing → α → β → Prop} (h : Alike J ρ Q x y) : StopsNoLater J ρ x y := by
  intro s t c hs hc
  obtain ⟨ρ', hρ, hcontext, hJ, hout⟩ := h s t c hs (.inr hc)
  have hJ := hJ hc
  cases hx : exec x ⟨s, c⟩ with
  | mk r σ =>
    cases hy : exec y ⟨t, c⟩ with
    | mk r' τ =>
      obtain ⟨s', c'⟩ := σ
      obtain ⟨t', d'⟩ := τ
      rw [hx, hy] at hρ hcontext hout
      rw [hx] at hJ
      obtain rfl : d' = c' := hcontext
      cases hout with
      | error e => exact .inl ⟨e, _, rfl⟩
      | ok _ => exact .inr ⟨ρ', _, _, s', t', d', hρ.le, rfl, rfl, hρ.stores, hJ⟩

theorem bind {f : α → Run κ ε γ} {g : β → Run κ ε δ} (h : StopsNoLater J ρ x y)
    (hf : ∀ ρ' a b, ρ ≤ ρ' → StopsNoLater J ρ' (f a) (g b)) :
    StopsNoLater J ρ (x >>= f) (y >>= g) := by
  intro s t c hs hc
  rcases h s t c hs hc with ⟨stop, τ, hy⟩ | ⟨ρ', a, b, s', t', c', hle, hx, hy, hs', hc'⟩
  · rw [exec_bind y, hy]
    exact .inl ⟨stop, τ, rfl⟩
  · rw [exec_bind_ok hx, exec_bind_ok hy]
    rcases hf ρ' a b hle s' t' c' hs' hc' with
      hstop | ⟨ρ'', a', b', s'', t'', c'', hle', hx', hy', hs'', hc''⟩
    · exact .inl hstop
    · exact .inr ⟨ρ'', a', b', s'', t'', c'', le_trans hle hle', hx', hy', hs'', hc''⟩

theorem pure (a : α) (b : β) : StopsNoLater J ρ (Pure.pure a : Run κ ε α) (Pure.pure b) :=
  fun s t c hs hc => .inr ⟨ρ, a, b, s, t, c, le_refl ρ, rfl, rfl, hs, hc⟩

/-- The second computation may go on with something that changes nothing but adds blocks. -/
theorem then_quiet {g : β → Run κ ε γ} (h : StopsNoLater J ρ x y) (hg : ∀ b, Quiet (g b)) :
    StopsNoLater J ρ x (y >>= g) := by
  intro s t c hs hc
  rcases h s t c hs hc with ⟨stop, τ, hy⟩ | ⟨ρ', a, b, s', t', c', hle, hx, hy, hs', hc'⟩
  · rw [exec_bind y, hy]
    exact .inl ⟨stop, τ, rfl⟩
  · rw [exec_bind_ok hy]
    obtain ⟨hcontext, htouches⟩ := hg b ⟨t', c'⟩
    cases hrun : exec (g b) ⟨t', c'⟩ with
    | mk r τ =>
      rw [hrun] at hcontext htouches
      obtain ⟨t'', d⟩ := τ
      obtain rfl : d = c' := hcontext
      cases r with
      | error stop => exact .inl ⟨stop, _, rfl⟩
      | ok b' =>
        have hs'' : ρ'.Matches s' t'' :=
          hs'.of_touches (.refl (fun _ => False) s') htouches (fun _ _ => id) fun _ _ => id
        exact .inr ⟨ρ', a, b', s', t'', d, hle, hx, rfl, hs'', hc'⟩

end StopsNoLater
end Run

mutual
/-- A converted expression fails where the expression does, if not before. -/
theorem Expr.Coerced.stopsNoLater (happly : ApplyAlike apply) : ∀ {e : Expr} {target : Ty}
    {e' : Expr}, Coerced e target e' → ∀ {ρ : Pairing} {env' : Env},
    EnvPaired ρ (fun _ => True) env env' → Run.StopsNoLater Session.Impartial ρ
      (evalExpr apply trace env e) (evalExpr apply trace env' e')
  | e, _, _, .same _, _, _, henv =>
    .of_alike (evalExpr_alike happly trace e (readsOnly_of_forall (fun _ => trivial) e) henv)
  | e, .scalar b, _, .scalar _, _, env', henv => by
    show Run.StopsNoLater _ _ _ (evalExpr apply trace env' ⟨.cast e b, some (.scalar b)⟩)
    have halike := evalExpr_alike happly trace e (readsOnly_of_forall (fun _ => trivial) e) henv
    rw [evalExpr]
    exact (Run.StopsNoLater.of_alike halike).then_quiet fun _ => castValue_quiet trace
  | ⟨.tuple items, _⟩, _, _, .tuple h, _, _, henv => by
    unfold Expr.typed
    rw [evalExpr, evalExpr]
    exact (AllCoerced.stopsNoLater happly h henv).bind fun _ _ _ _ => .pure _ _

theorem Expr.AllCoerced.stopsNoLater (happly : ApplyAlike apply) : ∀ {es : List Expr}
    {targets : List Ty} {es' : List Expr}, AllCoerced es targets es' → ∀ {ρ : Pairing} {env' : Env},
    EnvPaired ρ (fun _ => True) env env' → Run.StopsNoLater Session.Impartial ρ
      (evalExprs apply trace env es) (evalExprs apply trace env' es')
  | _, _, _, .nil, _, _, _ => .pure _ _
  | e :: es, _, _, .cons h hs, _, _, henv => by
    rw [evalExprs, evalExprs]
    refine (Coerced.stopsNoLater happly h henv).bind fun _ _ _ hle => ?_
    exact (AllCoerced.stopsNoLater happly hs (henv.mono hle)).bind fun _ _ _ _ => .pure _ _
end

/-! ## Conversions -/

/-- The second expression is what a conversion is to make of the first one, which has type `ty`. -/
structure Expr.ConvertedTo (e : Expr) (ty target : Ty) (e' : Expr) : Prop where
  type : e'.ty? = some target
  tuples : e'.Forall TupleTyped
  again : ∀ s, Typing.exec (coerce e' target) s = (.ok e', s)
  value : ∀ apply trace env v σ σ', Run.exec (evalExpr apply trace env e) σ = (.ok v, σ') →
    v.Conforms ty → Run.exec (evalExpr apply trace env e') σ = (.ok (v.castTo target), σ')
  fails : ∀ fuel trace env stop σ σ', σ.context.Impartial →
    (∀ name v, env.find? name = some v → Adverb.InStore σ.store v) →
    Run.exec (evalExpr (applyFn fuel) trace env e) σ = (.error stop, σ') →
    ∃ stop' σ'', Run.exec (evalExpr (applyFn fuel) trace env e') σ = (.error stop', σ'')

theorem Expr.Coerced.convertedTo {e e' : Expr} {ty target : Ty} (h : Coerced e target e')
    (hty : e.ty? = some ty) (htuples : e.Forall TupleTyped) : e.ConvertedTo ty target e' where
  type := h.ty?_eq
  tuples := h.tupleTyped htuples
  again := exec_coerce_of_ty? h.ty?_eq
  value _ _ _ _ _ _ hrun hv := h.eval htuples hty hrun hv
  fails fuel trace env stop σ σ' hJ henv hrun := by
    have hself : (Pairing.self (· < σ.store.blocks.size)).Matches σ.store σ.store :=
      Pairing.self_matches fun _ => id
    have hpaired : EnvPaired (Pairing.self (· < σ.store.blocks.size)) (fun _ => True) env env := by
      intro name _
      cases hname : env.find? name with
      | none => exact .none
      | some v => exact .some (paired_self v (henv name v hname))
    have hstops : Run.StopsNoLater Session.Impartial _ (evalExpr (applyFn fuel) trace env e)
        (evalExpr (applyFn fuel) trace env e') := h.stopsNoLater (applyFn_alike fuel) hpaired
    rcases hstops σ.store σ.store σ.context hself hJ with hfails | ⟨_, _, _, _, _, _, _, hok, -⟩
    · exact hfails
    · cases hrun.symm.trans hok

/-- Take a typed expression in which each tuple that is written out has the type of the tuple of its items'
types. It is converted exactly if it is of the type that is asked for, or both are scalars, or it is a
tuple whose items are convertible to the components; otherwise a type is refused as incompatible. The
converted expression has the type and consistent tuples, and is not converted again. Its value is that of
the expression with each scalar cast to the component of the type, and where the expression fails, it fails
as well. -/
theorem coerce_converts {e : Expr} {ty : Ty} (hty : e.ty? = some ty) (htuples : e.Forall TupleTyped)
    (target : Ty) (s : Session) :
    ((∃ e', Typing.exec (coerce e target) s = (.ok e', s)) ↔ e.Convertible target) ∧
      (¬e.Convertible target → ∃ expected found,
        Typing.exec (coerce e target) s = (.error (.error (.incompatible expected found)), s)) ∧
      ∀ e' s', Typing.exec (coerce e target) s = (.ok e', s') → e.ConvertedTo ty target e' := by
  rcases coerce_decides hty htuples target s with ⟨e', hrun, hcoerced⟩ | ⟨hnot, expected, found, hrun⟩
  · refine ⟨⟨fun _ => hcoerced.convertible, fun _ => ⟨e', hrun⟩⟩,
      fun hnot => absurd hcoerced.convertible hnot, fun other s' hother => ?_⟩
    cases hrun.symm.trans hother
    exact hcoerced.convertedTo hty htuples
  · refine ⟨⟨fun ⟨e', h⟩ => ?_, fun hconv => absurd hconv hnot⟩, fun _ => ⟨expected, found, hrun⟩,
      fun e' s' h => ?_⟩
    · cases hrun.symm.trans h
    · cases hrun.symm.trans h

/-- A variable next to a tuple of a truth value. -/
def nestedPair : Expr :=
  .typed (.tuple [.typed (.var "x") .int64,
    .typed (.tuple [.typed (.lit (.bool true)) .bool]) (.tuple [.bool])]) (.tuple [.int64, .tuple [.bool]])

/-- The variable is cast to a double, and the truth value to a byte. -/
theorem coerce_converts_nestedPair :
    nestedPair.ty? = some (.tuple [.int64, .tuple [.bool]]) ∧ nestedPair.Forall TupleTyped ∧
      ∃ e', Typing.exec (coerce nestedPair (.tuple [.scalar .float64, .tuple [.scalar .int8]]))
          (.new none) = (.ok e', .new none) ∧
        Run.exec (evalExpr (applyFn 0) [] (.ofList [("x", .int 3)]) e') ⟨∅, .new none⟩ =
          (.ok (.tuple [.scalar ((Scalar.int 3).cast .float64),
            .tuple [.scalar ((Scalar.bool true).cast .int8)]]), ⟨∅, .new none⟩) := by
  have hleaf {node : Node} {ty? : Option Ty} (h : ∀ items, node ≠ .tuple items)
      (hchildren : Expr.children ⟨node, ty?⟩ = []) : Expr.Forall TupleTyped ⟨node, ty?⟩ :=
    forall_iff.2 ⟨fun items heq => absurd heq (h items), fun c hc => by rw [hchildren] at hc; cases hc⟩
  have hinner : Expr.Forall TupleTyped
      (.typed (.tuple [.typed (.lit (.bool true)) .bool]) (.tuple [.bool])) := by
    refine forall_iff.2 ⟨fun items heq => ?_, List.forall_mem_singleton.2 (hleaf (by simp) rfl)⟩
    cases heq
    exact ⟨_, .cons rfl .nil, rfl⟩
  have htuples : nestedPair.Forall TupleTyped := by
    refine forall_iff.2 ⟨fun items heq => ?_,
      List.forall_mem_cons.2 ⟨hleaf (by simp) rfl, List.forall_mem_singleton.2 hinner⟩⟩
    cases heq
    exact ⟨_, .cons rfl (.cons rfl .nil), rfl⟩
  have hconvertible :
      nestedPair.Convertible (.tuple [.scalar .float64, .tuple [.scalar .int8]]) :=
    .tuple (.cons (.scalar rfl _) (.cons (.tuple (.cons (.scalar rfl _) .nil)) .nil))
  obtain ⟨hiff, -, hconverted⟩ := coerce_converts rfl htuples
    (.tuple [.scalar .float64, .tuple [.scalar .int8]]) (.new none)
  obtain ⟨e', hrun⟩ := hiff.2 hconvertible
  have hvalue : Run.exec (evalExpr (applyFn 0) [] (.ofList [("x", .int 3)]) nestedPair)
      ⟨∅, .new none⟩ = (.ok (.tuple [.int 3, .tuple [.scalar (.bool true)]]), ⟨∅, .new none⟩) := rfl
  have hconforms : (Value.tuple [.int 3, .tuple [.scalar (.bool true)]]).Conforms
      (.tuple [.int64, .tuple [.bool]]) :=
    .tuple (.cons (.scalar rfl) (.cons (.tuple (.cons (.scalar rfl) .nil)) .nil))
  exact ⟨rfl, htuples, e', hrun, (hconverted e' _ hrun).value _ _ _ _ _ _ hvalue hconforms⟩

end ArrayLang
