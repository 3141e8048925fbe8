import ArrayLang.Proofs.Typing.Annotation
import ArrayLang.Proofs.Typing.Conversion
import ArrayLang.Typing.Lowering

/-!
# What lowering an expression gives

Lowering emits well-typed statements and returns a well-typed expression, in an environment that
grows by the temporaries it makes. Temporaries are new as long as the names of source code are apart
from fresh names, and everything but the invariant of sessions depends on that.
-/

namespace ArrayLang

open Typing

/-- What lowering keeps of its state: the declared variables are covered by the supply of names, and
the statements emitted so far are well typed. -/
structure LowerState.WellTyped (result : Ty) (st : LowerState) : Prop where
  covered {name : String} {ty : Ty} (h : st.env.find? name = some ty) : st.names.Covers name
  emitted : Check.checkBlock st.env result st.emitted = .ok ()

/-- What has to hold of a node itself for its conversion to be well typed. -/
def Node.Plain (env : TypeEnv) (ty : Ty) : Node → Prop
  | .var name => env.find? name = some ty
  | .opValue _ | .lambda _ => False
  | _ => True

theorem Node.AnnotatedAt.plain {env : TypeEnv} {ty : Ty} {node : Node}
    (h : node.AnnotatedAt env ty) : node.Plain env ty := by
  cases node with
  | var | opValue | lambda => exact h
  | _ => trivial

namespace Lower

/-! ## Lowering computations -/

section
variable (q : String → Prop) (I : Session → Prop) (result : Ty)

/-- The computation keeps `I`. When the names of source code are apart from fresh names and it starts
from a well-typed state over `env`, it ends in a well-typed state over an extension of `env`, and
what it returns satisfies `Q` there. -/
def Meets {α : Type} (env : TypeEnv) (x : Lower α) (Q : α → TypeEnv → Prop) : Prop :=
  ∀ st, (NamesApart q → st.WellTyped result ∧ st.env = env) →
    Typing.Meets I (x.run st) fun r =>
      NamesApart q → r.2.WellTyped result ∧ env.Included r.2.env ∧ Q r.1 r.2.env

end

variable {q : String → Prop} {I : Session → Prop} {result : Ty} {env : TypeEnv} {α β : Type}

namespace Meets

variable {Q : α → TypeEnv → Prop} {R : β → TypeEnv → Prop}

theorem bind {x : Lower α} {f : α → Lower β} (hx : Meets q I result env x Q)
    (hf : ∀ a env', (NamesApart q → env.Included env' ∧ Q a env') →
      Meets q I result env' (f a) R) : Meets q I result env (x >>= f) R := by
  intro st hst
  rw [StateT.run_bind]
  refine (hx st hst).bind fun r hr => ?_
  refine (hf r.1 r.2.env (fun hq => (hr hq).2) r.2 fun hq => ⟨(hr hq).1, rfl⟩).mono fun r' hr' hq => ?_
  obtain ⟨hwt, henv, hR⟩ := hr' hq
  exact ⟨hwt, (hr hq).2.1.trans henv, hR⟩

theorem mono {Q' : α → TypeEnv → Prop} {x : Lower α} (hx : Meets q I result env x Q)
    (h : ∀ a env', NamesApart q → env.Included env' → Q a env' → Q' a env') :
    Meets q I result env x Q' :=
  fun st hst => (hx st hst).mono fun r hr hq => by
    obtain ⟨hwt, henv, hQ⟩ := hr hq
    exact ⟨hwt, henv, h r.1 r.2.env hq henv hQ⟩

theorem and {Q' : α → TypeEnv → Prop} {x : Lower α} (hx : Meets q I result env x Q)
    (hx' : Meets q I result env x Q') : Meets q I result env x fun a env' => Q a env' ∧ Q' a env' :=
  fun st hst => ((hx st hst).and (hx' st hst)).mono fun _ hr hq => by
    obtain ⟨hwt, henv, hQ⟩ := hr.1 hq
    exact ⟨hwt, henv, hQ, (hr.2 hq).2.2⟩

theorem pure {a : α} (h : NamesApart q → Q a env) :
    Meets q I result env (Pure.pure a : Lower α) Q := by
  intro st hst
  refine .pure fun hq => ?_
  obtain ⟨hwt, rfl⟩ := hst hq
  exact ⟨hwt, .refl _, h hq⟩

/-- A step that does not touch the state of lowering. -/
theorem lift {x : Typing α} {P : α → Prop} (hx : Typing.Meets I x fun a => NamesApart q → P a) :
    Meets q I result env (liftM x : Lower α) fun a _ => P a := by
  intro st hst
  show Typing.Meets I (x >>= fun a => Pure.pure (a, st)) _
  refine hx.bind fun a ha => .pure fun hq => ?_
  obtain ⟨hwt, rfl⟩ := hst hq
  exact ⟨hwt, .refl _, ha hq⟩

theorem get : Meets q I result env (get : Lower LowerState) fun st env' => st.env = env' := by
  intro st hst
  refine .pure fun hq => ?_
  obtain ⟨hwt, rfl⟩ := hst hq
  exact ⟨hwt, .refl _, rfl⟩

theorem fail (cause : TypingError) : Meets q I result env (Typing.fail cause : Lower α) Q :=
  (lift (P := fun _ => False) (Typing.Meets.fail cause).guard).mono fun _ _ _ _ h => h.elim

theorem ite {c : Prop} [Decidable c] {x y : Lower α} (hx : c → Meets q I result env x Q)
    (hy : ¬c → Meets q I result env y Q) : Meets q I result env (if c then x else y) Q := by
  split
  · exact hx ‹_›
  · exact hy ‹_›

/-- Every result of several steps is as its step makes it, as long as later steps keep that. -/
theorem mapM {f : α → Lower β} {Q : α → β → TypeEnv → Prop} {l : List α}
    (hmono : ∀ a b env₁ env₂, env₁.Included env₂ → Q a b env₁ → Q a b env₂)
    (h : ∀ a ∈ l, ∀ env', (NamesApart q → env.Included env') →
      Meets q I result env' (f a) (Q a)) :
    Meets q I result env (l.mapM f) fun bs env' => List.Forall₂ (fun a b => Q a b env') l bs := by
  induction l generalizing env with
  | nil => exact pure fun _ => .nil
  | cons a l ih =>
    rw [List.mapM_cons]
    refine bind (h a List.mem_cons_self env fun _ => .refl _) fun b env₁ hb => ?_
    refine bind (ih fun c hc env' henv' => ?_) fun bs env₂ hbs => ?_
    · exact h c (List.mem_cons_of_mem _ hc) env' fun hq => (hb hq).1.trans (henv' hq)
    · refine pure fun hq => .cons ?_ (hbs hq).2
      exact hmono a b env₁ env₂ (hbs hq).1 (hb hq).2

/-- What every step keeps is kept by all. -/
theorem foldlM {f : β → α → Lower β} {l : List α} {b : β} (hb : NamesApart q → R b env)
    (h : ∀ a ∈ l, ∀ b env', (NamesApart q → env.Included env' ∧ R b env') →
      Meets q I result env' (f b a) R) :
    Meets q I result env (l.foldlM f b) R := by
  induction l generalizing env b with
  | nil => exact pure hb
  | cons a l ih =>
    rw [List.foldlM_cons]
    refine bind (h a List.mem_cons_self b env fun hq => ⟨.refl _, hb hq⟩) fun b' env₁ hb' => ?_
    refine ih (fun hq => (hb' hq).2) fun c hc b'' env' henv' => ?_
    exact h c (List.mem_cons_of_mem _ hc) b'' env'
      fun hq => ⟨(hb' hq).1.trans (henv' hq).1, (henv' hq).2⟩

theorem forM {f : α → Lower Unit} {l : List α}
    (h : ∀ a ∈ l, ∀ env', (NamesApart q → env.Included env') →
      Meets q I result env' (f a) fun _ _ => True) :
    Meets q I result env (l.forM f) fun _ _ => True := by
  induction l generalizing env with
  | nil => exact pure fun _ => trivial
  | cons a l ih =>
    refine bind (h a List.mem_cons_self env fun _ => .refl _) fun _ env₁ henv₁ => ?_
    exact ih fun c hc env' henv' =>
      h c (List.mem_cons_of_mem _ hc) env' fun hq => (henv₁ hq).1.trans (henv' hq)

end Meets

/-! ## Emitting statements -/

theorem emitAll_meets {ss : Block}
    (h : NamesApart q → Check.checkBlock env result ss = .ok ()) :
    Meets q I result env (emitAll ss) fun _ _ => True := by
  intro st hst
  refine .pure fun hq => ?_
  obtain ⟨hwt, rfl⟩ := hst hq
  refine ⟨⟨hwt.covered, ?_⟩, .refl _, trivial⟩
  rw [Check.checkBlock_eq_ok, List.forall_mem_append, ← Check.checkBlock_eq_ok,
    ← Check.checkBlock_eq_ok]
  exact ⟨hwt.emitted, h hq⟩

theorem emit_meets {s : Stmt} (h : NamesApart q → Check.checkStmt env result s = .ok ()) :
    Meets q I result env (emit s) fun _ _ => True := by
  refine emitAll_meets fun hq => ?_
  rw [Check.checkBlock_eq_ok, List.forall_mem_singleton]
  exact h hq

/-- What is emitted on the side is well typed. -/
theorem collectAfter_meets {before : Block} {x : Lower α} {Q : α → TypeEnv → Prop}
    (hbefore : NamesApart q → Check.checkBlock env result before = .ok ())
    (hx : Meets q I result env x Q) :
    Meets q I result env (collectAfter before x) fun r env' =>
      Q r.1 env' ∧ Check.checkBlock env' result r.2 = .ok () := by
  intro st hst
  have hstart : NamesApart q →
      LowerState.WellTyped result { st with emitted := before } ∧ st.env = env := by
    intro hq
    obtain ⟨hwt, henv⟩ := hst hq
    exact ⟨⟨hwt.covered, henv ▸ hbefore hq⟩, henv⟩
  refine (hx { st with emitted := before } hstart).bind fun r hr => ?_
  refine .pure fun hq => ?_
  obtain ⟨hwt, henv, hQ⟩ := hr hq
  refine ⟨⟨hwt.covered, ?_⟩, henv, hQ, hwt.emitted⟩
  exact Check.checkBlock_mono ((hst hq).2 ▸ henv) (hst hq).1.emitted

/-- A temporary is a new variable of its type. -/
theorem temp_meets (base : String) (ty : Ty) :
    Meets q I result env (temp base ty) fun e env' =>
      e.HasType env' ty ∧ ∃ name, e = .typed (.var name) ty := by
  intro st hst
  refine .pure fun hq => ?_
  obtain ⟨hwt, rfl⟩ := hst hq
  have hnew : st.env.find? (st.names.fresh base).1 = none := by
    cases h : st.env.find? (st.names.fresh base).1 with
    | none => rfl
    | some ty => exact absurd (hwt.covered h) (st.names.not_covers_fresh base)
  have hincluded : st.env.Included (st.env.insert (st.names.fresh base).1 ty) :=
    .insert hnew
  refine ⟨⟨fun {name _} h => ?_, Check.checkBlock_mono hincluded hwt.emitted⟩, hincluded,
    ⟨Expr.wellTyped_var.2 ?_, rfl⟩, _, rfl⟩
  · by_cases heq : name = (st.names.fresh base).1
    · rw [heq]
      exact st.names.covers_fresh base
    · have hold : (st.env.insert (st.names.fresh base).1 ty).find? name = st.env.find? name :=
        (NameMap.find?_insert ..).trans (if_neg heq)
      exact (hwt.covered (hold.symm.trans h)).fresh base
  · exact (NameMap.find?_insert ..).trans (if_pos rfl)

/-! ## Converting nodes -/

/-- An integer constant fits everywhere. -/
theorem intConst_hasType (n : Nat) : (intConst n).HasType env .int64 :=
  ⟨Expr.wellTyped_of_children rfl fun _ h => (List.not_mem_nil h).elim, rfl⟩

/-- The initial value of a reduction stays well typed. -/
theorem coerceStart_meets {combine : Expr} {start? : Option Expr}
    (h : NamesApart q → ∀ e ∈ start?, e.WellTyped env) :
    Meets q I result env (coerceStart combine start?) fun start? env' =>
      ∀ e ∈ start?, e.WellTyped env' := by
  cases start? with
  | none => exact .pure fun _ _ h => by cases h
  | some start =>
    unfold coerceStart
    dsimp only
    split
    · refine (Meets.lift Typing.Meets.get.guard).bind fun s env₁ henv₁ => ?_
      cases s.typed.find? _ with
      | none => exact .fail _
      | some typed =>
        dsimp only
        split
        · have hstart : NamesApart q → start.WellTyped env₁ :=
            fun hq => (h hq start rfl).mono (henv₁ hq).1
          refine (Meets.lift (coerce_meets hstart _)).bind fun e env₂ he => .pure fun hq => ?_
          intro e' he'
          cases he'
          exact (he hq).2.1.mono (he hq).1
        · exact .fail _
    · exact (Meets.lift (Typing.Meets.typeOf combine).guard).bind fun ty env₁ _ => .fail _

/-- Conversions of operands give operands of the types that are asked for. -/
theorem coerceOperands_meets {args : List Expr} {expected : List Ty}
    (hargs : NamesApart q → ∀ e ∈ args, e.WellTyped env)
    (hlen : NamesApart q → args.length = expected.length) :
    Meets q I result env
      ((args.zip expected).mapM fun (arg, target) => (coerceOperand arg target : Lower Expr))
      fun args' env' => List.Forall₂ (fun e ty => e.HasType env' ty) args' expected := by
  induction args generalizing expected env with
  | nil =>
    refine .pure fun hq => ?_
    rw [List.length_eq_zero_iff.1 (hlen hq).symm]
    exact .nil
  | cons arg args ih =>
    cases expected with
    | nil => exact .pure fun _ => .nil
    | cons ty expected =>
      simp only [List.forall_mem_cons] at hargs
      rw [List.zip_cons_cons, List.mapM_cons]
      refine (Meets.lift (coerceOperand_meets (fun hq => (hargs hq).1) ty)).bind
        fun e env₁ he => ?_
      have hargs₁ (hq : NamesApart q) : ∀ e ∈ args, e.WellTyped env₁ :=
        fun e h => ((hargs hq).2 e h).mono (he hq).1
      refine (ih hargs₁ fun hq => Nat.succ.inj (hlen hq)).bind fun es env₂ hes => .pure fun hq => ?_
      exact .cons (((he hq).2.mono (he hq).1).mono (hes hq).1) (hes hq).2

theorem forall_wellTyped_of_hasType {es : List Expr} {types : List Ty}
    (h : List.Forall₂ (fun e ty => e.HasType env ty) es types) : ∀ e ∈ es, e.WellTyped env := by
  induction h with
  | nil => exact fun _ h => (List.not_mem_nil h).elim
  | cons h _ ih => exact List.forall_mem_cons.2 ⟨h.1, ih⟩

theorem convertOp_meets {op : Operator} {args : List Expr}
    (hargs : NamesApart q → ∀ e ∈ args, e.WellTyped env) :
    Meets q I result env (do
        let expected ← check (TypingRule.operandTypes op (← typesOf args))
        let args ← (args.zip expected).mapM fun (arg, target) => coerceOperand arg target
        return Expr.typed (.op op args) (op.resultType expected) : Lower Expr)
      fun e env' => e.WellTyped env' := by
  refine (Meets.lift (Typing.Meets.typesOf args).guard).bind fun types env₁ htypes => ?_
  have hcheck : Typing.Meets I (check (TypingRule.operandTypes op types))
      fun expected => op.expectedTypes? types = some expected := by
    refine Typing.Meets.check fun expected h => ?_
    unfold TypingRule.operandTypes at h
    split at h
    · cases h
      assumption
    · cases h
  refine (Meets.lift hcheck.guard).bind fun expected env₂ hexpected => ?_
  have hargs₂ (hq : NamesApart q) : ∀ e ∈ args, e.WellTyped env₂ :=
    fun e h => ((hargs hq e h).mono (htypes hq).1).mono (hexpected hq).1
  have hlen (hq : NamesApart q) : args.length = expected.length := by
    obtain ⟨-, elt, -, rfl⟩ := Operator.expectedTypes?_eq_some (hexpected hq).2
    rw [List.length_map, (htypes hq).2.length_eq]
  refine (coerceOperands_meets hargs₂ hlen).bind fun args' env₃ hargs' => .pure fun hq => ?_
  have htypes' : Check.typesOf args' = expected :=
    Expr.typesOf_eq_map ((hargs' hq).2.imp fun _ _ h => h.2)
  refine Expr.wellTyped_of_children (Expr.checkNode_op.2 ?_)
    (forall_wellTyped_of_hasType (hargs' hq).2)
  rw [htypes']
  exact ⟨Operator.expectedTypes?_idem (hexpected hq).2, rfl⟩

/-- The items of a one-dimensional literal become of its element type. -/
theorem convertItems_meets {items : List Expr} {elt : ElemType}
    (hitems : NamesApart q → ∀ e ∈ items, e.WellTyped env) :
    Meets q I result env (do
        return Expr.typed (.array (← items.mapM (coerce · (.scalar elt)))) (.array elt 1) : Lower Expr)
      fun e env' => e.WellTyped env' := by
  refine (Meets.mapM (Q := fun _ e env' => e.HasType env' (.scalar elt))
    (fun _ _ _ _ henv h => h.mono henv) fun e he env' henv' => ?_).bind fun items' env₁ hitems' => ?_
  · have hcoerce := coerce_meets (I := I) (fun hq => (hitems hq e he).mono (henv' hq)) (.scalar elt)
    exact (Meets.lift hcoerce).mono fun _ _ _ henv h => h.mono henv
  · refine .pure fun hq => ?_
    have hitems' := List.forall_of_forall₂_right (hitems' hq).2
    refine Expr.wellTyped_of_children (Expr.checkNode_array fun elt' heq t ht => ?_)
      fun e he => (hitems' e he).1
    cases heq
    obtain ⟨e, he, hty⟩ := List.mem_filterMap.1 ht
    rw [(hitems' e he).2] at hty
    exact (Option.some.inj hty).symm

/-- A literal of arrays becomes a variable that holds an array of its type. -/
theorem expandLiteral_meets {first : Expr} {rest : List Expr} (elt : ElemType) (rank : Nat)
    (hfirst : NamesApart q → first.WellTyped env)
    (hrest : NamesApart q → ∀ e ∈ rest, e.WellTyped env) :
    Meets q I result env (expandLiteral first rest elt rank) fun e env' => e.WellTyped env' := by
  unfold expandLiteral
  refine (Meets.lift (Typing.Meets.typeOf first).guard).bind fun ty env₁ hty => ?_
  refine (temp_meets _ ty).bind fun firstVar env₂ hvar => ?_
  have henv₂ (hq : NamesApart q) : env.Included env₂ := (hty hq).1.trans (hvar hq).1
  refine (emit_meets fun hq => ?_).bind fun _ env₃ henv₃ => ?_
  · obtain ⟨-, hvar, name, rfl⟩ := hvar hq
    rw [Check.checkStmt, Outcome.then_eq_ok, Outcome.then_eq_ok, Expr.checkExpr_eq_ok]
    refine ⟨(Expr.checkExpr_eq_ok _).2 hvar.1, (hfirst hq).mono (henv₂ hq), ?_⟩
    exact Check.checkAssign_of_eq rfl (hty hq).2
  refine (temp_meets _ _).bind fun array env₄ harray => ?_
  have henv₄ (hq : NamesApart q) : env₂.Included env₄ := (henv₃ hq).1.trans (harray hq).1
  refine (emit_meets fun hq => ?_).bind fun _ env₅ henv₅ => ?_
  · obtain ⟨-, harray, name, rfl⟩ := harray hq
    rw [Check.checkStmt, Outcome.then_eq_ok, Outcome.then_eq_ok, Expr.checkExpr_eq_ok]
    refine ⟨(Expr.checkExpr_eq_ok _).2 harray.1, ?_, Check.checkAssign_of_eq rfl rfl⟩
    have hshape : (Expr.typed (.attr firstVar "shape")
        (.tuple (List.replicate (rank - 1) .int64))).WellTyped env₄ :=
      Expr.wellTyped_of_children rfl
        (List.forall_mem_singleton.2 ((hvar hq).2.1.1.mono (henv₄ hq)))
    refine Expr.wellTyped_of_children rfl (List.forall_mem_singleton.2 ?_)
    refine Expr.wellTyped_of_children rfl (List.forall_mem_cons.2 ⟨(intConst_hasType _).1, ?_⟩)
    exact List.forall_mem_map.2 fun i _ =>
      Expr.wellTyped_of_children rfl (List.forall_mem_singleton.2 hshape)
  refine (Meets.forM fun p hp env₆ henv₆ => ?_).bind fun _ env₇ henv₇ => .pure fun hq => ?_
  · have hvalue (hq : NamesApart q) : p.1.WellTyped env₆ := by
      have henv₂₆ : env₂.Included env₆ := ((henv₄ hq).trans (henv₅ hq).1).trans (henv₆ hq)
      have hmem : p.1 ∈ firstVar :: rest := (List.mem_zipIdx' hp).2 ▸ List.getElem_mem _
      rcases List.mem_cons.1 hmem with heq | hmem
      · rw [heq]
        exact (hvar hq).2.1.1.mono henv₂₆
      · exact (hrest hq p.1 hmem).mono ((henv₂ hq).trans henv₂₆)
    refine (Meets.lift (coerceSlot_meets hvalue _)).bind fun value env₈ hvalue => ?_
    refine emit_meets fun hq => ?_
    have henv₄₈ : env₄.Included env₈ := ((henv₅ hq).1.trans (henv₆ hq)).trans (hvalue hq).1
    obtain ⟨ty, hty, hfits⟩ := (hvalue hq).2
    rw [Check.checkStmt, Outcome.then_eq_ok, Outcome.then_eq_ok, Expr.checkExpr_eq_ok]
    refine ⟨(Expr.checkExpr_eq_ok _).2 ?_, hty.1.mono (hvalue hq).1,
      Check.checkAssign_of_fits rfl hty.2 ⟨_, _, rfl⟩ hfits⟩
    refine Expr.wellTyped_of_children rfl (List.forall_mem_cons.2 ⟨?_, ?_⟩)
    · exact (harray hq).2.1.1.mono henv₄₈
    · exact List.forall_mem_singleton.2 (intConst_hasType _).1
  · exact ((harray hq).2.1.1.mono (henv₅ hq).1).mono (henv₇ hq).1

/-- Converting a node whose children are well typed gives a well-typed expression. -/
theorem convertNode_meets {node : Node} {ty? : Option Ty}
    (hnode : NamesApart q → ∃ ty, ty? = some ty ∧ node.Plain env ty)
    (hchildren : NamesApart q → ∀ c ∈ node.children, c.WellTyped env) :
    Meets q I result env (convertNode ⟨node, ty?⟩) fun e env' => e.WellTyped env' := by
  unfold convertNode
  refine (Meets.lift (Typing.Meets.typeOf _).guard).bind fun ty env₁ hty => ?_
  have hchildren₁ (hq : NamesApart q) : ∀ c ∈ node.children, c.WellTyped env₁ :=
    fun c hc => (hchildren hq c hc).mono (hty hq).1
  cases node with
  | op op args => exact convertOp_meets hchildren₁
  | array items =>
    dsimp only
    split
    · exact convertItems_meets hchildren₁
    · rename_i elt rank first rest hrank
      exact expandLiteral_meets elt rank (fun hq => hchildren₁ hq first List.mem_cons_self)
        fun hq c hc => hchildren₁ hq c (List.mem_cons_of_mem _ hc)
    · rename_i hrank _
      refine .pure fun hq => Expr.wellTyped_of_children (Expr.checkNode_array ?_) (hchildren₁ hq)
      exact fun elt heq => absurd heq (hrank elt)
  | reduce func combine start args axis =>
    simp only [Node.children, List.forall_mem_cons, List.forall_mem_append] at hchildren₁
    refine (coerceStart_meets fun hq e he => ?_).bind fun start? env₂ hstart => .pure fun hq => ?_
    · exact (hchildren₁ hq).2.2.1 e (Option.mem_toList.2 he)
    · obtain ⟨hfunc, hcombine, -, hargs⟩ := hchildren₁ hq
      have henv := (hstart hq).1
      refine Expr.wellTyped_of_children rfl ?_
      simp only [Node.children, List.forall_mem_cons, List.forall_mem_append]
      refine ⟨hfunc.mono henv, hcombine.mono henv, fun c hc => ?_, fun c hc => ?_, ?_⟩
      · exact (hstart hq).2 c (Option.mem_toList.1 hc)
      · exact (hargs.1 c hc).mono henv
      · exact ⟨hargs.2.1.mono henv, fun _ h => (List.not_mem_nil h).elim⟩
  | scan func combine emit start args axis =>
    simp only [Node.children, List.forall_mem_cons, List.forall_mem_append] at hchildren₁
    refine (coerceStart_meets fun hq e he => ?_).bind fun start? env₂ hstart => .pure fun hq => ?_
    · exact (hchildren₁ hq).2.2.2.1 e (Option.mem_toList.2 he)
    · obtain ⟨hfunc, hcombine, hemit, -, hargs⟩ := hchildren₁ hq
      have henv := (hstart hq).1
      refine Expr.wellTyped_of_children rfl ?_
      simp only [Node.children, List.forall_mem_cons, List.forall_mem_append]
      refine ⟨hfunc.mono henv, hcombine.mono henv, hemit.mono henv, fun c hc => ?_,
        fun c hc => ?_, ?_⟩
      · exact (hstart hq).2 c (Option.mem_toList.1 hc)
      · exact (hargs.1 c hc).mono henv
      · exact ⟨hargs.2.1.mono henv, fun _ h => (List.not_mem_nil h).elim⟩
  | var name =>
    refine .pure fun hq => Expr.forall_iff.2 ⟨?_, hchildren₁ hq⟩
    obtain ⟨ty, hty', hnode⟩ := hnode hq
    exact ⟨ty, hty', Expr.checkNode_var.2 ((hty hq).1 name ty hnode)⟩
  | opValue | lambda =>
    refine .pure fun hq => ?_
    obtain ⟨_, _, hnode⟩ := hnode hq
    exact hnode.elim
  | _ => exact .pure fun hq => Expr.forall_iff.2 ⟨⟨ty, (hty hq).2, rfl⟩, hchildren₁ hq⟩

/-! ## Rebuilding expressions -/

/-- Once the children of an annotated node have been rebuilt, it is converted. -/
theorem convert_rebuilt_meets {node node' : Node} {ty? : Option Ty} {env₀ : TypeEnv}
    (h : NamesApart q → Expr.Annotated env₀ ⟨node, ty?⟩) (hplain : ∀ ty, node'.Plain env ty)
    (hchildren : NamesApart q → ∀ c ∈ node'.children, c.WellTyped env) :
    Meets q I result env (convertNode ⟨node', ty?⟩) fun e env' => e.WellTyped env' := by
  refine convertNode_meets (fun hq => ?_) hchildren
  obtain ⟨ty, hty, -⟩ := Expr.Forall.self (h hq)
  exact ⟨ty, hty, hplain ty⟩

mutual
theorem rebuild_meets : ∀ (e : Expr) {env : TypeEnv}, (NamesApart q → e.Annotated env) →
    Meets q I result env (e.rebuildM convertNode) fun e' env' => e'.WellTyped env'
  | ⟨.lit value, t⟩, env, h => by
    rw [Expr.rebuildM]
    exact convert_rebuilt_meets h (fun _ => trivial) fun _ _ hc => (List.not_mem_nil hc).elim
  | ⟨.var name, t⟩, env, h | ⟨.opValue name, t⟩, env, h | ⟨.lambda name, t⟩, env, h => by
    rw [Expr.rebuildM]
    refine convertNode_meets (fun hq => ?_) fun _ _ hc => (List.not_mem_nil hc).elim
    obtain ⟨ty, hty, hat⟩ := Expr.Forall.self (h hq)
    exact ⟨ty, hty, hat.plain⟩
  | ⟨.tuple items, t⟩, env, h => by
    rw [Expr.rebuildM]
    refine (rebuildList_meets items fun hq => (h hq).children).bind fun items env₁ hitems => ?_
    exact convert_rebuilt_meets h (fun _ => trivial) fun hq => (hitems hq).2
  | ⟨.array items, t⟩, env, h => by
    rw [Expr.rebuildM]
    refine (rebuildList_meets items fun hq => (h hq).children).bind fun items env₁ hitems => ?_
    exact convert_rebuilt_meets h (fun _ => trivial) fun hq => (hitems hq).2
  | ⟨.op op args, t⟩, env, h => by
    rw [Expr.rebuildM]
    refine (rebuildList_meets args fun hq => (h hq).children).bind fun args env₁ hargs => ?_
    exact convert_rebuilt_meets h (fun _ => trivial) fun hq => (hargs hq).2
  | ⟨.call func args, t⟩, env, h => by
    rw [Expr.rebuildM]
    refine (rebuildList_meets args fun hq => (h hq).children).bind fun args env₁ hargs => ?_
    exact convert_rebuilt_meets h (fun _ => trivial) fun hq => (hargs hq).2
  | ⟨.closure func values, t⟩, env, h => by
    rw [Expr.rebuildM]
    refine (rebuildList_meets values fun hq => (h hq).children).bind fun values env₁ hvalues => ?_
    exact convert_rebuilt_meets h (fun _ => trivial) fun hq => (hvalues hq).2
  | ⟨.proj base i, t⟩, env, h => by
    rw [Expr.rebuildM]
    refine (rebuild_meets base fun hq => (h hq).children _ List.mem_cons_self).bind
      fun base env₁ hbase => ?_
    exact convert_rebuilt_meets h (fun _ => trivial) fun hq =>
      List.forall_mem_singleton.2 (hbase hq).2
  | ⟨.attr base name, t⟩, env, h => by
    rw [Expr.rebuildM]
    refine (rebuild_meets base fun hq => (h hq).children _ List.mem_cons_self).bind
      fun base env₁ hbase => ?_
    exact convert_rebuilt_meets h (fun _ => trivial) fun hq =>
      List.forall_mem_singleton.2 (hbase hq).2
  | ⟨.captured base i, t⟩, env, h => by
    rw [Expr.rebuildM]
    refine (rebuild_meets base fun hq => (h hq).children _ List.mem_cons_self).bind
      fun base env₁ hbase => ?_
    exact convert_rebuilt_meets h (fun _ => trivial) fun hq =>
      List.forall_mem_singleton.2 (hbase hq).2
  | ⟨.cast value elt, t⟩, env, h => by
    rw [Expr.rebuildM]
    refine (rebuild_meets value fun hq => (h hq).children _ List.mem_cons_self).bind
      fun value env₁ hvalue => ?_
    exact convert_rebuilt_meets h (fun _ => trivial) fun hq =>
      List.forall_mem_singleton.2 (hvalue hq).2
  | ⟨.alloc elt shape, t⟩, env, h => by
    rw [Expr.rebuildM]
    refine (rebuild_meets shape fun hq => (h hq).children _ List.mem_cons_self).bind
      fun shape env₁ hshape => ?_
    exact convert_rebuilt_meets h (fun _ => trivial) fun hq =>
      List.forall_mem_singleton.2 (hshape hq).2
  | ⟨.index base key, t⟩, env, h => by
    have hchildren (hq : NamesApart q) := (h hq).children
    simp only [Expr.children, Node.children, List.forall_mem_cons] at hchildren
    rw [Expr.rebuildM]
    refine (rebuild_meets base fun hq => (hchildren hq).1).bind
      fun base env₁ hbase => ?_
    have henv₁ (hq : NamesApart q) := (hbase hq).1
    refine (rebuild_meets key fun hq => ((hchildren hq).2.1).mono (henv₁ hq)).bind
      fun key env₂ hkey => ?_
    refine convert_rebuilt_meets h (fun _ => trivial) fun hq => ?_
    simp only [Node.children, List.forall_mem_cons]
    refine ⟨?_, ?_, ?_⟩
    · exact ((hbase hq).2.mono (hkey hq).1)
    · exact (hkey hq).2
    · exact fun _ hc => (List.not_mem_nil hc).elim
  | ⟨.slice start stop step, t⟩, env, h => by
    have hchildren (hq : NamesApart q) := (h hq).children
    simp only [Expr.children, Node.children, List.forall_mem_cons] at hchildren
    rw [Expr.rebuildM]
    refine (rebuild_meets start fun hq => (hchildren hq).1).bind
      fun start env₁ hstart => ?_
    have henv₁ (hq : NamesApart q) := (hstart hq).1
    refine (rebuild_meets stop fun hq => ((hchildren hq).2.1).mono (henv₁ hq)).bind
      fun stop env₂ hstop => ?_
    have henv₂ (hq : NamesApart q) := (henv₁ hq).trans (hstop hq).1
    refine (rebuildOption_meets step fun hq c hc =>
      ((hchildren hq).2.2 c (Option.mem_toList.2 hc)).mono (henv₂ hq)).bind fun step env₃ hstep => ?_
    refine convert_rebuilt_meets h (fun _ => trivial) fun hq => ?_
    simp only [Node.children, List.forall_mem_cons]
    refine ⟨?_, ?_, ?_⟩
    · exact (((hstart hq).2.mono (hstop hq).1).mono (hstep hq).1)
    · exact ((hstop hq).2.mono (hstep hq).1)
    · exact fun c hc => ((hstep hq).2 c (Option.mem_toList.1 hc))
  | ⟨.invoke callee args, t⟩, env, h => by
    have hchildren (hq : NamesApart q) := (h hq).children
    simp only [Expr.children, Node.children, List.forall_mem_cons] at hchildren
    rw [Expr.rebuildM]
    refine (rebuild_meets callee fun hq => (hchildren hq).1).bind
      fun callee env₁ hcallee => ?_
    have henv₁ (hq : NamesApart q) := (hcallee hq).1
    refine (rebuildList_meets args fun hq c hc => ((hchildren hq).2 c hc).mono (henv₁ hq)).bind
      fun args env₂ hargs => ?_
    refine convert_rebuilt_meets h (fun _ => trivial) fun hq => ?_
    simp only [Node.children, List.forall_mem_cons]
    refine ⟨?_, ?_⟩
    · exact ((hcallee hq).2.mono (hargs hq).1)
    · exact fun c hc => ((hargs hq).2 c hc)
  | ⟨.struct name fields, t⟩, env, h => by
    rw [Expr.rebuildM]
    refine (rebuildFields_meets fields fun hq p hp =>
      (h hq).children p.2 (List.mem_map_of_mem hp)).bind fun fields env₁ hfields => ?_
    exact convert_rebuilt_meets h (fun _ => trivial) fun hq => List.forall_mem_map.2 (hfields hq).2
  | ⟨.map func args axis, t⟩, env, h => by
    have hchildren (hq : NamesApart q) := (h hq).children
    simp only [Expr.children, Node.children, List.forall_mem_cons, List.forall_mem_append] at hchildren
    rw [Expr.rebuildM]
    refine (rebuild_meets func fun hq => (hchildren hq).1).bind
      fun func env₁ hfunc => ?_
    have henv₁ (hq : NamesApart q) := (hfunc hq).1
    refine (rebuildList_meets args fun hq c hc => ((hchildren hq).2.1 c hc).mono (henv₁ hq)).bind
      fun args env₂ hargs => ?_
    have henv₂ (hq : NamesApart q) := (henv₁ hq).trans (hargs hq).1
    refine (rebuild_meets axis fun hq => ((hchildren hq).2.2.1).mono (henv₂ hq)).bind
      fun axis env₃ haxis => ?_
    refine convert_rebuilt_meets h (fun _ => trivial) fun hq => ?_
    simp only [Node.children, List.forall_mem_cons, List.forall_mem_append]
    refine ⟨?_, ?_, ?_, ?_⟩
    · exact (((hfunc hq).2.mono (hargs hq).1).mono (haxis hq).1)
    · exact fun c hc => (((hargs hq).2 c hc).mono (haxis hq).1)
    · exact (haxis hq).2
    · exact fun _ hc => (List.not_mem_nil hc).elim
  | ⟨.allPairs func args axis, t⟩, env, h => by
    have hchildren (hq : NamesApart q) := (h hq).children
    simp only [Expr.children, Node.children, List.forall_mem_cons, List.forall_mem_append] at hchildren
    rw [Expr.rebuildM]
    refine (rebuild_meets func fun hq => (hchildren hq).1).bind
      fun func env₁ hfunc => ?_
    have henv₁ (hq : NamesApart q) := (hfunc hq).1
    refine (rebuildList_meets args fun hq c hc => ((hchildren hq).2.1 c hc).mono (henv₁ hq)).bind
      fun args env₂ hargs => ?_
    have henv₂ (hq : NamesApart q) := (henv₁ hq).trans (hargs hq).1
    refine (rebuild_meets axis fun hq => ((hchildren hq).2.2.1).mono (henv₂ hq)).bind
      fun axis env₃ haxis => ?_
    refine convert_rebuilt_meets h (fun _ => trivial) fun hq => ?_
    simp only [Node.children, List.forall_mem_cons, List.forall_mem_append]
    refine ⟨?_, ?_, ?_, ?_⟩
    · exact (((hfunc hq).2.mono (hargs hq).1).mono (haxis hq).1)
    · exact fun c hc => (((hargs hq).2 c hc).mono (haxis hq).1)
    · exact (haxis hq).2
    · exact fun _ hc => (List.not_mem_nil hc).elim
  | ⟨.reduce func combine start args axis, t⟩, env, h => by
    have hchildren (hq : NamesApart q) := (h hq).children
    simp only [Expr.children, Node.children, List.forall_mem_cons, List.forall_mem_append] at hchildren
    rw [Expr.rebuildM]
    refine (rebuild_meets func fun hq => (hchildren hq).1).bind
      fun func env₁ hfunc => ?_
    have henv₁ (hq : NamesApart q) := (hfunc hq).1
    refine (rebuild_meets combine fun hq => ((hchildren hq).2.1).mono (henv₁ hq)).bind
      fun combine env₂ hcombine => ?_
    have henv₂ (hq : NamesApart q) := (henv₁ hq).trans (hcombine hq).1
    refine (rebuildOption_meets start fun hq c hc =>
      ((hchildren hq).2.2.1 c (Option.mem_toList.2 hc)).mono (henv₂ hq)).bind fun start env₃ hstart => ?_
    have henv₃ (hq : NamesApart q) := (henv₂ hq).trans (hstart hq).1
    refine (rebuildList_meets args fun hq c hc => ((hchildren hq).2.2.2.1 c hc).mono (henv₃ hq)).bind
      fun args env₄ hargs => ?_
    have henv₄ (hq : NamesApart q) := (henv₃ hq).trans (hargs hq).1
    refine (rebuild_meets axis fun hq => ((hchildren hq).2.2.2.2.1).mono (henv₄ hq)).bind
      fun axis env₅ haxis => ?_
    refine convert_rebuilt_meets h (fun _ => trivial) fun hq => ?_
    simp only [Node.children, List.forall_mem_cons, List.forall_mem_append]
    refine ⟨?_, ?_, ?_, ?_, ?_, ?_⟩
    · exact (((((hfunc hq).2.mono (hcombine hq).1).mono (hstart hq).1).mono (hargs hq).1).mono (haxis hq).1)
    · exact ((((hcombine hq).2.mono (hstart hq).1).mono (hargs hq).1).mono (haxis hq).1)
    · exact fun c hc => ((((hstart hq).2 c (Option.mem_toList.1 hc)).mono (hargs hq).1).mono (haxis hq).1)
    · exact fun c hc => (((hargs hq).2 c hc).mono (haxis hq).1)
    · exact (haxis hq).2
    · exact fun _ hc => (List.not_mem_nil hc).elim
  | ⟨.scan func combine emit start args axis, t⟩, env, h => by
    have hchildren (hq : NamesApart q) := (h hq).children
    simp only [Expr.children, Node.children, List.forall_mem_cons, List.forall_mem_append] at hchildren
    rw [Expr.rebuildM]
    refine (rebuild_meets func fun hq => (hchildren hq).1).bind
      fun func env₁ hfunc => ?_
    have henv₁ (hq : NamesApart q) := (hfunc hq).1
    refine (rebuild_meets combine fun hq => ((hchildren hq).2.1).mono (henv₁ hq)).bind
      fun combine env₂ hcombine => ?_
    have henv₂ (hq : NamesApart q) := (henv₁ hq).trans (hcombine hq).1
    refine (rebuild_meets emit fun hq => ((hchildren hq).2.2.1).mono (henv₂ hq)).bind
      fun emit env₃ hemit => ?_
    have henv₃ (hq : NamesApart q) := (henv₂ hq).trans (hemit hq).1
    refine (rebuildOption_meets start fun hq c hc =>
      ((hchildren hq).2.2.2.1 c (Option.mem_toList.2 hc)).mono (henv₃ hq)).bind fun start env₄ hstart => ?_
    have henv₄ (hq : NamesApart q) := (henv₃ hq).trans (hstart hq).1
    refine (rebuildList_meets args fun hq c hc => ((hchildren hq).2.2.2.2.1 c hc).mono (henv₄ hq)).bind
      fun args env₅ hargs => ?_
    have henv₅ (hq : NamesApart q) := (henv₄ hq).trans (hargs hq).1
    refine (rebuild_meets axis fun hq => ((hchildren hq).2.2.2.2.2.1).mono (henv₅ hq)).bind
      fun axis env₆ haxis => ?_
    refine convert_rebuilt_meets h (fun _ => trivial) fun hq => ?_
    simp only [Node.children, List.forall_mem_cons, List.forall_mem_append]
    refine ⟨?_, ?_, ?_, ?_, ?_, ?_, ?_⟩
    · have hstarted := (((hfunc hq).2.mono (hcombine hq).1).mono (hemit hq).1).mono (hstart hq).1
      exact (hstarted.mono (hargs hq).1).mono (haxis hq).1
    · exact (((((hcombine hq).2.mono (hemit hq).1).mono (hstart hq).1).mono (hargs hq).1).mono (haxis hq).1)
    · exact ((((hemit hq).2.mono (hstart hq).1).mono (hargs hq).1).mono (haxis hq).1)
    · exact fun c hc => ((((hstart hq).2 c (Option.mem_toList.1 hc)).mono (hargs hq).1).mono (haxis hq).1)
    · exact fun c hc => (((hargs hq).2 c hc).mono (haxis hq).1)
    · exact (haxis hq).2
    · exact fun _ hc => (List.not_mem_nil hc).elim
termination_by structural e => e

theorem rebuildList_meets : ∀ (es : List Expr) {env : TypeEnv},
    (NamesApart q → ∀ e ∈ es, e.Annotated env) →
      Meets q I result env (Expr.rebuildListM convertNode es)
        fun es' env' => ∀ e ∈ es', e.WellTyped env'
  | [], _, _ => by
    rw [Expr.rebuildListM]
    exact .pure fun _ _ h => (List.not_mem_nil h).elim
  | e :: es, env, h => by
    simp only [List.forall_mem_cons] at h
    rw [Expr.rebuildListM]
    refine (rebuild_meets e fun hq => (h hq).1).bind fun e env₁ he => ?_
    refine (rebuildList_meets es fun hq c hc => ((h hq).2 c hc).mono (he hq).1).bind
      fun es env₂ hes => .pure fun hq => ?_
    exact List.forall_mem_cons.2 ⟨(he hq).2.mono (hes hq).1, (hes hq).2⟩
termination_by structural es => es

theorem rebuildOption_meets : ∀ (e? : Option Expr) {env : TypeEnv},
    (NamesApart q → ∀ e ∈ e?, e.Annotated env) →
      Meets q I result env (Expr.rebuildOptionM convertNode e?)
        fun e?' env' => ∀ e ∈ e?', e.WellTyped env'
  | none, _, _ => by
    rw [Expr.rebuildOptionM]
    exact .pure fun _ _ h => by cases h
  | some e, env, h => by
    rw [Expr.rebuildOptionM]
    refine (rebuild_meets e fun hq => h hq e rfl).bind fun e env₁ he => .pure fun hq => ?_
    intro e' he'
    cases he'
    exact (he hq).2
termination_by structural e? => e?

theorem rebuildFields_meets : ∀ (fields : List (String × Expr)) {env : TypeEnv},
    (NamesApart q → ∀ p ∈ fields, p.2.Annotated env) →
      Meets q I result env (Expr.rebuildFieldsM convertNode fields)
        fun fields' env' => ∀ p ∈ fields', p.2.WellTyped env'
  | [], _, _ => by
    rw [Expr.rebuildFieldsM]
    exact .pure fun _ _ h => (List.not_mem_nil h).elim
  | (name, e) :: fields, env, h => by
    simp only [List.forall_mem_cons] at h
    rw [Expr.rebuildFieldsM]
    refine (rebuild_meets e fun hq => (h hq).1).bind fun e env₁ he => ?_
    refine (rebuildFields_meets fields fun hq c hc => ((h hq).2 c hc).mono (he hq).1).bind
      fun fields env₂ hfields => .pure fun hq => ?_
    exact List.forall_mem_cons.2 ⟨(he hq).2.mono (hfields hq).1, (hfields hq).2⟩
termination_by structural fields => fields
end

end Lower
end ArrayLang
