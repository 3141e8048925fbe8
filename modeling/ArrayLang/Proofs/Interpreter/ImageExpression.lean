import ArrayLang.Proofs.Interpreter.Agreement
import ArrayLang.Proofs.Typing.Image

/-!
# Images of expressions have the same values

An expression and its image, evaluated with the same variables from one state, have the same value and
leave one state, or fail for one reason. The value is of the type of the image. That is what makes the
casts harmless that an image has in addition: they meet scalars, which the operator or the literal that
they are for would convert to the same element type.

The induction is on how the image is made. Calls are supposed to agree.
-/

namespace ArrayLang

open Value TypingRule Interpreter

/-! ## Values and variables -/

/-- The variables have values of their types. -/
structure Env.OfTypes (env : Env) (s : Store) (scope : TypeEnv) : Prop where
  value {name : String} {v : Value} (h : env.find? name = some v) :
    ∃ ty, scope.find? name = some ty ∧ v.OfType s ty

namespace Env.OfTypes

variable {c : Session} {scope : TypeEnv} {env : Env} {s s' : Store}

theorem retained (h : env.OfTypes s scope) (hscope : c.Admits scope) (hs : s.Retains s') :
    env.OfTypes s' scope where
  value hv := by
    obtain ⟨ty, hty, hof⟩ := h.value hv
    exact ⟨ty, hty, hof.retained hs (hscope.carried hty)⟩

theorem insert (h : env.OfTypes s scope) {name : String} {v : Value} {ty : Ty}
    (hty : scope.find? name = some ty) (hv : v.OfType s ty) :
    Env.OfTypes (env.insert name v) s scope where
  value {other w} hw := by
    rw [NameMap.find?_insert] at hw
    split at hw
    · rename_i heq
      cases hw
      exact ⟨ty, heq ▸ hty, hv⟩
    · exact h.value hw

end Env.OfTypes

/-- Both are one value of the type. -/
def Value.SameOfType (ty : Ty) (v w : Value) (s : Store) : Prop :=
  w = v ∧ v.OfType s ty

/-- Calls of the specializations for the signatures, with the defaults of the parameters that are left
out, agree with calls of their source functions. -/
structure Interpreter.CallsAgree (c : Session) (calls : Signature → Prop) (apply : Apply) : Prop where
  call {key : Signature} {f : TypedFn} {decl : FnDecl} {args : List Value} {defaults : List Literal}
    {σ : State Session} (hkey : calls key) (hspec : c.specialization? key = some f)
    (hdecl : c.sources.find? key.1 = some decl) (hmany : args.length ≤ decl.params.positional.length)
    (hdefaults : (decl.params.positional.drop args.length).map decl.params.default? = defaults.map some)
    (hσ : σ.context = c) (hargs : AllOfType σ.store (args ++ defaults.map ofLiteral) key.2)
    (trace trace' : Trace) :
    Agree σ (SameOfType f.returnType) (apply trace (.source decl) args)
      (apply trace' (.typed f) (args ++ defaults.map ofLiteral))

namespace Interpreter

section
variable {c : Session} {calls : Signature → Prop} {scope : TypeEnv} {apply : Apply}
  {trace trace' : Trace} {σ : State Session} {env : Env}

/-! ## Constants and names -/

/-- Constants at the end of a list of expressions are evaluated to what they are. -/
theorem evalExprs_literals (es : List Expr) (literals : List Literal) :
    evalExprs apply trace env (es ++ literals.map Annotate.literal) = (do
      let values ← evalExprs apply trace env es
      return values ++ literals.map ofLiteral) := by
  induction es with
  | nil =>
    rw [evalExprs, pure_bind, List.nil_append, List.nil_append]
    induction literals with
    | nil => rw [List.map_nil, List.map_nil, evalExprs]
    | cons lit literals ih =>
      rw [List.map_cons, List.map_cons, evalExprs, ih, Annotate.literal, Expr.typed, evalExpr,
        literalValue_ty, pure_bind, pure_bind]
  | cons e es ih =>
    rw [List.cons_append, evalExprs, evalExprs, ih]
    simp only [bind_assoc, pure_bind, List.cons_append]

/-- The name in the code stands for the source function, and that in the image for the specialization. -/
theorem namedFn_agree (hc : c.Imaged calls) {name : String} {decl : FnDecl} {f : TypedFn}
    (hσ : σ.context = c) (hdecl : c.sources.find? name = some decl)
    (htyped : c.typed.find? f.name = some f) :
    Agree σ (fun a b _ => a = .source decl ∧ b = .typed f) (namedFn trace name)
      (namedFn trace' f.name) := by
  have hsource : namedFn? σ.context name = some (.source decl) := by
    rw [hσ, namedFn?, hc.apart hdecl, hdecl]
    rfl
  have htyped : namedFn? σ.context f.name = some (.typed f) := by
    rw [hσ, namedFn?, htyped]
    rfl
  unfold namedFn
  refine .get_bind ?_
  rw [hsource, htyped]
  exact .pure ⟨rfl, rfl⟩

/-- A variable that is not bound is not mistaken for a function. -/
theorem readVar_agree {name : String} {ty : Ty} (henv : env.OfTypes σ.store scope)
    (hty : scope.find? name = some ty) (hunnamed : σ.context.sources.find? name = Option.none) :
    Agree σ (SameOfType ty) (readVar trace env name) (readVar trace' env name) := by
  unfold readVar
  cases hvalue : env.find? name with
  | some value =>
    obtain ⟨ty', hty', hof⟩ := henv.value hvalue
    obtain rfl : ty' = ty := Option.some.inj (hty'.symm.trans hty)
    exact .pure ⟨rfl, hof⟩
  | none =>
    refine .get_bind ?_
    rw [hunnamed]
    exact .fail _ _ _

/-! ## Expressions -/

/-- An integer constant is its own value. -/
theorem constant_agree {e e' : Expr} {ty : Ty} (himage : e.Image c calls scope e' ty)
    (h : Agree σ (SameOfType ty) (evalExpr apply trace env e) (evalExpr apply trace' env e')) :
    Agree σ (fun v w s => SameOfType ty v w s ∧ ∀ n, e.node = .lit (.int n) → v = .int n)
      (evalExpr apply trace env e) (evalExpr apply trace' env e') := by
  cases himage with
  | lit value =>
    rw [Expr.plain, Expr.typed, evalExpr, evalExpr, literalValue_none, literalValue_ty]
    refine .pure ⟨⟨rfl, ofLiteral_ofType value⟩, fun n hn => ?_⟩
    cases hn
    rfl
  | _ =>
    refine h.mono fun _ _ _ _ h => ⟨h, fun n hn => ?_⟩
    cases hn

/-- Both evaluate the bounds of a slice to the same ones. -/
theorem slice_agree {start stop step : Value} {startTy stopTy stepTy : Ty}
    (hstart : start.OfType σ.store startTy) (hstop : stop.OfType σ.store stopTy)
    (hstep : step.OfType σ.store stepTy)
    (hbounds : isSliceBound startTy ∧ isSliceBound stopTy ∧ isSliceBound stepTy) :
    let slice (trace : Trace) : Eval Value :=
      match sliceBound? start, sliceBound? stop, sliceBound? step with
      | some start?, some stop?, some step? => return .slice ⟨start?, stop?, step?⟩
      | _, _, _ => do
        let s ← Run.getStore
        fail trace (.badIndex "a slice" (Value.listText s [start, stop, step]))
    Agree σ (SameOfType (.slice startTy stopTy stepTy)) (slice trace) (slice trace') := by
  dsimp only
  cases hstart? : sliceBound? start with
  | none => exact .getStore_bind (.fail _ _ _)
  | some start? =>
    cases hstop? : sliceBound? stop with
    | none => exact .getStore_bind (.fail _ _ _)
    | some stop? =>
      cases hstep? : sliceBound? step with
      | none => exact .getStore_bind (.fail _ _ _)
      | some step? =>
        exact .pure ⟨rfl, .slice (ofInt?_of_sliceBound hstart hstart? hbounds.1)
          (ofInt?_of_sliceBound hstop hstop? hbounds.2.1)
          (ofInt?_of_sliceBound hstep hstep? hbounds.2.2)⟩

/-- The item of a tuple is there. -/
theorem exists_item {s : Store} {base : Value} {baseTy ty : Ty} {i : Nat}
    (hty : itemType baseTy i = .ok ty) (h : base.OfType s baseTy) :
    ∃ items v, base = .tuple items ∧ items[i]? = some v ∧ v.OfType s ty := by
  unfold itemType at hty
  split at hty
  · split at hty
    · rename_i hitem
      cases hty
      cases h with
      | tuple hitems =>
        obtain ⟨v, hv, hof⟩ := hitems.getElem? hitem
        exact ⟨_, v, rfl, hv, hof⟩
    · cases hty
  · cases hty

theorem operate_agree {ty : Ty} {plan plan' : Store → Except Fault (Store → Value × Store)}
    (hplan : plan' σ.store = plan σ.store) (h : Outcome.Gives (MakesType ty σ.store) (plan σ.store)) :
    Agree σ (SameOfType ty) (operate trace plan) (operate trace' plan') :=
  .operate _ _ hplan fun f hf => ⟨(h f hf).1, rfl, (h f hf).2⟩

/-- Casting a scalar leaves the store as it is. -/
theorem operate_castValue (x : Scalar) (elt : ElemType) :
    (operate trace (castValue elt (.scalar x)) : Eval Value) = pure (.scalar (x.cast elt)) :=
  Run.eq_of_exec fun _ => rfl

mutual
theorem evalImage_agree (hc : c.Imaged calls) (hscope : c.Admits scope)
    (happly : CallsAgree c calls apply) :
    ∀ {e e' : Expr} {ty : Ty}, e.Image c calls scope e' ty →
      ∀ {σ : State Session}, σ.context = c → env.OfTypes σ.store scope →
      Agree σ (SameOfType ty) (evalExpr apply trace env e) (evalExpr apply trace' env e')
  | _, _, _, .lit value, σ, _, _ => by
    rw [Expr.plain, Expr.typed, evalExpr, evalExpr, literalValue_none, literalValue_ty]
    exact .pure ⟨rfl, ofLiteral_ofType value⟩
  | _, _, _, .var h, σ, hσ, henv => by
    rw [Expr.plain, Expr.typed, evalExpr, evalExpr]
    exact readVar_agree henv h (hσ ▸ hscope.unnamed h)
  | _, _, _, .tuple h, σ, hσ, henv => by
    rw [Expr.plain, Expr.typed, evalExpr, evalExpr]
    refine (evalImages_agree hc hscope happly h hσ henv).bind fun vs ws τ _ _ hvw => ?_
    obtain ⟨heq, hof⟩ := hvw
    rw [heq]
    exact .pure ⟨rfl, .tuple hof⟩
  | _, _, _, .proj h hty, σ, hσ, henv => by
    rw [Expr.plain, Expr.typed, evalExpr, evalExpr]
    refine (evalImage_agree hc hscope happly h hσ henv).bind fun v w τ _ _ hvw => ?_
    obtain ⟨heq, hof⟩ := hvw
    obtain ⟨items, item, rfl, hitem, hof⟩ := exists_item hty hof
    rw [heq]
    dsimp only
    rw [hitem]
    exact .pure ⟨rfl, hof⟩
  | _, _, _, .array h hty, σ, hσ, henv => by
    rw [Expr.plain, Expr.typed, evalExpr, evalExpr]
    refine (evalOperandImages_agree hc hscope happly h hσ henv).bind
      fun vs ws τ _ _ ⟨hrecast, hof⟩ => ?_
    have hcarried := Expr.OperandImages.carried hc hscope h
    exact operate_agree (arrayLiteral_recast hof hcarried hty hrecast)
      (arrayLiteral_makesType hof hcarried hty)
  | _, _, _, .index hbase hindex hty, σ, hσ, henv => by
    rw [Expr.plain, Expr.typed, evalExpr, evalExpr]
    refine (evalImage_agree hc hscope happly hbase hσ henv).bind fun v w τ hτ hret hvw => ?_
    obtain ⟨heq, hof⟩ := hvw
    have henv := henv.retained hscope hret
    refine (constant_agree hindex (evalImage_agree hc hscope happly hindex (hτ.trans hσ) henv)).bind
      fun i j υ hυ hret' hvw => ?_
    obtain ⟨⟨heq', hof'⟩, hconst⟩ := hvw
    rw [heq, heq']
    refine .getStore_bind (.orFault _ _ fun r hr => ⟨rfl, ?_⟩)
    exact indexValue_ofType hty (hof.retained hret' (Expr.Image.carried hc hscope hbase)) hof' hconst hr
  | _, _, _, .slice hstart hstop hstep hbounds, σ, hσ, henv => by
    rw [Expr.plain, Expr.typed, evalExpr, evalExpr]
    refine (evalImage_agree hc hscope happly hstart hσ henv).bind fun v v' τ hτ hret hvw => ?_
    obtain ⟨heq, hof⟩ := hvw
    have hτ := hτ.trans hσ
    have henv := henv.retained hscope hret
    refine (evalImage_agree hc hscope happly hstop hτ henv).bind fun w w' υ hυ hret hvw => ?_
    obtain ⟨heq', hof'⟩ := hvw
    have hυ := hυ.trans hτ
    have henv := henv.retained hscope hret
    rw [evalOption, evalOption]
    simp only [bind_assoc, pure_bind]
    refine (evalImage_agree hc hscope happly hstep hυ henv).bind fun x x' φ hφ hret' hvw => ?_
    obtain ⟨heq'', hof''⟩ := hvw
    rw [heq, heq', heq'']
    have hof := hof.retained (hret.trans hret') (Expr.Image.carried hc hscope hstart)
    have hof' := hof'.retained hret' (Expr.Image.carried hc hscope hstop)
    exact slice_agree hof hof' hof'' hbounds
  | _, _, _, .attr h hty, σ, hσ, henv => by
    rw [Expr.plain, Expr.typed, evalExpr, evalExpr]
    refine (evalImage_agree hc hscope happly h hσ henv).bind fun v w τ _ _ hvw => ?_
    obtain ⟨heq, hof⟩ := hvw
    rw [heq]
    exact .getStore_bind (.orFault _ _ fun r hr => ⟨rfl, attributeOf_ofType hty hof hr⟩)
  | _, _, _, .op h hexpected helt, σ, hσ, henv => by
    rw [Expr.plain, Expr.typed, evalExpr, evalExpr]
    refine (evalOperandImages_agree hc hscope happly h hσ henv).bind
      fun vs ws τ _ _ ⟨hrecast, hof⟩ => ?_
    have hcarried := Expr.OperandImages.carried hc hscope h
    obtain rfl := Operator.inputOf_eq_of_types hof hcarried hexpected helt
    exact operate_agree (applyOperator_recast hof hcarried hexpected hrecast)
      (applyOperator_makesType hof hcarried hexpected)
  | _, _, _, .call h hkey hdecl hspec hmany hdefaults, σ, hσ, henv => by
    rw [Expr.plain, Expr.typed, evalExpr, evalExpr, evalExprs_literals]
    simp only [bind_assoc, pure_bind]
    refine (evalImages_agree hc hscope happly h hσ henv).bind fun vs ws τ hτ hret hvw => ?_
    obtain ⟨heq, hof⟩ := hvw
    refine (namedFn_agree hc (hτ.trans hσ) hdecl (hc.found hkey hspec).1).bind
      fun g g' υ hυ hret' ⟨hg, hg'⟩ => ?_
    have hlength := hof.length_eq.trans h.length_eq.symm
    have hargs := hof.retained hret' (Expr.Images.carried hc hscope h)
    rw [hg, hg', heq]
    exact happly.call hkey hspec hdecl (hlength ▸ hmany) (hlength ▸ hdefaults)
      (hυ.trans (hτ.trans hσ)) (hargs.append (.ofLiterals _)) trace trace'
  | _, _, _, .cast h hty helt, σ, hσ, henv => by
    rw [Expr.plain, Expr.typed, evalExpr, evalExpr]
    refine (evalImage_agree hc hscope happly h hσ henv).bind fun v w τ _ _ hvw => ?_
    obtain ⟨heq, hof⟩ := hvw
    rw [heq]
    exact operate_agree rfl (castValue_makesType hty hof)
  | _, _, _, .struct h, σ, hσ, henv => by
    rw [Expr.plain, Expr.typed, evalExpr, evalExpr]
    refine (evalFieldImages_agree hc hscope happly h hσ henv).bind fun vs ws τ _ _ hvw => ?_
    obtain ⟨heq, hof⟩ := hvw
    rw [heq]
    exact .pure ⟨rfl, .struct hof⟩
  | _, _, _, .alloc h hty helt, σ, hσ, henv => by
    rw [Expr.plain, Expr.typed, evalExpr, evalExpr]
    refine (evalImage_agree hc hscope happly h hσ henv).bind fun v w τ _ _ hvw => ?_
    obtain ⟨heq, hof⟩ := hvw
    rw [heq]
    exact operate_agree rfl (allocValue_makesType hty hof)

theorem evalImages_agree (hc : c.Imaged calls) (hscope : c.Admits scope)
    (happly : CallsAgree c calls apply) :
    ∀ {es es' : List Expr} {types : List Ty},
      Expr.Images c calls scope es es' types →
      ∀ {σ : State Session}, σ.context = c → env.OfTypes σ.store scope →
      Agree σ (fun vs ws s => ws = vs ∧ AllOfType s vs types) (evalExprs apply trace env es)
        (evalExprs apply trace' env es')
  | _, _, _, .nil, σ, _, _ => .pure ⟨rfl, .nil⟩
  | _, _, _, .cons h hs, σ, hσ, henv => by
    rw [evalExprs, evalExprs]
    refine (evalImage_agree hc hscope happly h hσ henv).bind fun v w τ hτ hret hvw => ?_
    obtain ⟨heq, hof⟩ := hvw
    refine (evalImages_agree hc hscope happly hs (hτ.trans hσ) (henv.retained hscope hret)).bind
      fun vs ws υ hυ hret' hvw => ?_
    obtain ⟨heqs, hofs⟩ := hvw
    rw [heq, heqs]
    exact .pure ⟨rfl, .cons (hof.retained hret' (Expr.Image.carried hc hscope h)) hofs⟩

theorem evalOperandImages_agree (hc : c.Imaged calls) (hscope : c.Admits scope)
    (happly : CallsAgree c calls apply) :
    ∀ {elt : ElemType} {es es' : List Expr} {types : List Ty},
      Expr.OperandImages c calls scope elt es es' types →
      ∀ {σ : State Session}, σ.context = c → env.OfTypes σ.store scope →
      Agree σ (fun vs ws s => List.Forall₂ (Recast elt) vs ws ∧ AllOfType s vs types)
        (evalExprs apply trace env es) (evalExprs apply trace' env es')
  | _, _, _, _, .nil _, σ, _, _ => .pure ⟨.nil, .nil⟩
  | _, _, _, _, .same h helt hs, σ, hσ, henv => by
    rw [evalExprs, evalExprs]
    refine (evalImage_agree hc hscope happly h hσ henv).bind fun v w τ hτ hret hvw => ?_
    obtain ⟨heq, hof⟩ := hvw
    refine (evalOperandImages_agree hc hscope happly hs (hτ.trans hσ) (henv.retained hscope hret)).bind
      fun vs ws υ _ hret' ⟨hrecast, hofs⟩ => ?_
    have hof := hof.retained hret' (Expr.Image.carried hc hscope h)
    rw [heq]
    exact .pure ⟨.cons (.same v) hrecast, .cons hof hofs⟩
  | elt, _, _, _, .cast h hne hs, σ, hσ, henv => by
    rw [evalExprs, evalExprs, Expr.typed, evalExpr]
    simp only [bind_assoc]
    refine (evalImage_agree hc hscope happly h hσ henv).bind fun v w τ hτ hret hvw => ?_
    obtain ⟨heq, hof⟩ := hvw
    have henv := henv.retained hscope hret
    rw [heq]
    cases hof with
    | @scalar x _ hx =>
      rw [operate_castValue, pure_bind]
      refine (evalOperandImages_agree hc hscope happly hs (hτ.trans hσ) henv).bind
        fun vs ws υ _ _ ⟨hrecast, hofs⟩ => ?_
      exact .pure ⟨.cons (.cast x) hrecast, .cons (.scalar hx) hofs⟩

theorem evalFieldImages_agree (hc : c.Imaged calls) (hscope : c.Admits scope)
    (happly : CallsAgree c calls apply) :
    ∀ {es es' : List (String × Expr)} {types : List (String × Ty)},
      Expr.FieldImages c calls scope es es' types →
      ∀ {σ : State Session}, σ.context = c → env.OfTypes σ.store scope →
      Agree σ (fun vs ws s => ws = vs ∧ FieldsOfType s vs types) (evalFields apply trace env es)
        (evalFields apply trace' env es')
  | _, _, _, .nil, σ, _, _ => .pure ⟨rfl, .nil⟩
  | _, _, _, .cons h hs, σ, hσ, henv => by
    rw [evalFields, evalFields]
    refine (evalImage_agree hc hscope happly h hσ henv).bind fun v w τ hτ hret hvw => ?_
    obtain ⟨heq, hof⟩ := hvw
    refine (evalFieldImages_agree hc hscope happly hs (hτ.trans hσ) (henv.retained hscope hret)).bind
      fun vs ws υ _ hret' hvw => ?_
    obtain ⟨heqs, hofs⟩ := hvw
    rw [heq, heqs]
    exact .pure ⟨rfl, .cons (hof.retained hret' (Expr.Image.carried hc hscope h)) hofs⟩
end

end
end Interpreter
end ArrayLang
