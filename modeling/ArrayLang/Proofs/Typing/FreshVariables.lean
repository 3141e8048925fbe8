import ArrayLang.Dataflow.Alias
import ArrayLang.Proofs.Dataflow.Path
import ArrayLang.Proofs.Syntax.FreshNames
import ArrayLang.Proofs.Typing.Emission

/-!
# Variables that lowering makes

The variables that lowering makes are listed in the order in which they are made, each with the expression
that it is made for. The list determines the names that the supply has given out and the types of variables,
and a variable on the list is bound as a whole by assignments of its expression only. Lowering only ever
adds to it.

## Main results

- `LowerState.Lists.fresh`: making a variable adds it to the list.
- `Lower.Grows.bind`: one computation after the other adds to the list what both add.
- `Lower.Grows.declare`: a new variable may be assigned the expression that it is made for.
-/

namespace ArrayLang

open Typing

/-! ## Variables that lowering makes -/

/-- A variable that lowering makes from a base. -/
structure FreshVar where
  base : String
  name : String
  ty : Ty
  /-- The expression that it is made for, unless it is a parameter. -/
  origin? : Option Expr

namespace FreshVar

def expr (v : FreshVar) : Expr :=
  .typed (.var v.name) v.ty

def entry (v : FreshVar) : String × Ty :=
  (v.name, v.ty)

end FreshVar

/-- The variables that a statement binds as a whole. -/
def Stmt.binds : Stmt → List String
  | .assign target _ => target.targetVars
  | .ret _ => []
  | .branch _ _ _ merge | .loop _ _ merge => merge.map (·.name)

/-- The statement binds source variables only, or it assigns to a variable the expression that this was
made for. -/
def Stmt.BindsAs (q : String → Prop) (made : List FreshVar) (s : Stmt) : Prop :=
  (∀ name ∈ s.binds, q name) ∨ ∃ v ∈ made, ∃ e, v.origin? = some e ∧ s = .assign v.expr e

/-- All statements of a block do. -/
abbrev Block.KeepsTo (q : String → Prop) (made : List FreshVar) (block : Block) : Prop :=
  block.Everywhere (Stmt.BindsAs q made)

variable {q : String → Prop} {start : TypeEnv} {made made' : List FreshVar}

theorem Stmt.BindsAs.mono {s : Stmt} (h : s.BindsAs q made) (hmade : made <+: made') :
    s.BindsAs q made' := by
  refine h.imp_right ?_
  rintro ⟨v, hv, hs⟩
  exact ⟨v, hmade.subset hv, hs⟩

theorem Block.KeepsTo.grow {block : Block} (h : block.KeepsTo q made) (hmade : made <+: made') :
    block.KeepsTo q made' :=
  Block.Everywhere.mono h fun _ hs => hs.mono hmade

/-- What the list of new variables says of the state of lowering. -/
structure LowerState.Lists (q : String → Prop) (start : TypeEnv) (made : List FreshVar)
    (st : LowerState) : Prop where
  names : made.map (·.name) = NameSupply.freshAll {} (made.map (·.base))
  next : st.names.next = made.length
  env : st.env = start.insertAll (made.map FreshVar.entry)
  emitted : st.emitted.KeepsTo q made

/-- The list with the variable that is made next. -/
theorem LowerState.Lists.fresh {st : LowerState} (h : st.Lists q start made) (base : String) (ty : Ty)
    (origin? : Option Expr) :
    LowerState.Lists q start (made ++ [⟨base, (st.names.fresh base).1, ty, origin?⟩])
      { st with names := (st.names.fresh base).2, env := st.env.insert (st.names.fresh base).1 ty } where
  names := by
    have hsupply : (⟨0 + (made.map (·.base)).length⟩ : NameSupply) = st.names := by
      rw [List.length_map, Nat.zero_add, ← h.next]
    rw [List.map_append, List.map_append, h.names]
    show _ = NameSupply.freshAll {} (made.map (·.base) ++ [base])
    rw [NameSupply.freshAll_concat, hsupply]
    rfl
  next := by
    rw [List.length_append]
    exact congrArg (· + 1) h.next
  env := by
    show st.env.insert _ ty = _
    rw [h.env, List.map_append, NameMap.insertAll, NameMap.insertAll, List.foldl_append]
    rfl
  emitted := h.emitted.grow (List.prefix_append _ _)

/-! ## Computations that add to the list -/

namespace Lower

variable {α β : Type}

/-- From a state that the list `made` is about, the computation adds to the list, which then is about the
state it leaves, and what it returns satisfies `Q` of the new list. -/
def Grows (q : String → Prop) (start : TypeEnv) (made : List FreshVar) (x : Lower α)
    (Q : List FreshVar → α → Prop) : Prop :=
  MeetsFrom anySession (LowerState.Lists q start made) x fun a st =>
    ∃ made', made <+: made' ∧ st.Lists q start made' ∧ Q made' a

namespace Grows

variable {x : Lower α} {P : List FreshVar → α → Prop} {Q : List FreshVar → β → Prop}

theorem mono {P' : List FreshVar → α → Prop} (hx : Grows q start made x P)
    (h : ∀ made' a, made <+: made' → P made' a → P' made' a) : Grows q start made x P' :=
  MeetsFrom.mono hx (fun _ h => h) fun a _ ⟨made', hmade, hst, ha⟩ =>
    ⟨made', hmade, hst, h made' a hmade ha⟩

theorem bind {f : α → Lower β} (hx : Grows q start made x P)
    (hf : ∀ made' a, made <+: made' → P made' a → Grows q start made' (f a) Q) :
    Grows q start made (x >>= f) Q := by
  intro st hst
  rw [StateT.run_bind]
  refine (hx st hst).bind fun r ⟨made₁, hmade₁, hst₁, ha⟩ => ?_
  refine (hf made₁ r.1 hmade₁ ha r.2 hst₁).mono fun r' ⟨made₂, hmade₂, hst₂, hb⟩ => ?_
  exact ⟨made₂, hmade₁.trans hmade₂, hst₂, hb⟩

theorem pure {a : α} (h : P made a) : Grows q start made (Pure.pure a : Lower α) P :=
  MeetsFrom.pure fun _ hst => ⟨made, List.prefix_rfl, hst, h⟩

/-- A step that does not touch the state of lowering. -/
theorem lift {x : Typing α} {P : α → Prop} (hx : Meets anySession x P) :
    Grows q start made (liftM x : Lower α) fun _ a => P a :=
  (MeetsFrom.lift hx).mono (fun _ h => h) fun _ _ h => ⟨made, List.prefix_rfl, h.1, h.2⟩

theorem lift_any (x : Typing α) : Grows q start made (liftM x : Lower α) fun _ _ => True :=
  lift (.any x)

theorem fail (cause : TypingError) : Grows q start made (Typing.fail cause : Lower α) P :=
  (lift (P := fun _ => False) (.fail cause)).mono fun _ _ _ h => h.elim

theorem get : Grows q start made (get : Lower LowerState) fun _ _ => True :=
  MeetsFrom.get.mono (fun _ h => h) fun _ _ h => ⟨made, List.prefix_rfl, h.1 ▸ h.2, trivial⟩

theorem ite {c : Prop} [Decidable c] {y : Lower α} (hx : c → Grows q start made x P)
    (hy : ¬c → Grows q start made y P) : Grows q start made (if c then x else y) P :=
  MeetsFrom.ite hx hy

/-- Any results go with further computation. -/
theorem any {x : Lower α} (hx : Grows q start made x P) : Grows q start made x fun _ _ => True :=
  hx.mono fun _ _ _ _ => trivial

/-- Running one such computation after the other is one. -/
theorem sequential (q : String → Prop) (start : TypeEnv) :
    Sequential Lower fun x => ∀ made, Grows q start made x fun _ _ => True where
  pure _ _ := pure trivial
  bind hx hf made := (hx made).bind fun made' a _ _ => hf a made'

theorem forM {f : α → Lower Unit} {l : List α}
    (hf : ∀ a ∈ l, ∀ made', made <+: made' → Grows q start made' (f a) fun _ _ => True) :
    Grows q start made (l.forM f) fun _ _ => True := by
  induction l generalizing made with
  | nil => exact pure trivial
  | cons a l ih =>
    refine (hf a List.mem_cons_self made List.prefix_rfl).bind fun made₁ _ hmade₁ _ => ih ?_
    exact fun b hb made₂ hmade₂ => hf b (List.mem_cons_of_mem a hb) made₂ (hmade₁.trans hmade₂)

/-- What is found of each result, and stays true as the list grows, is true of all at the end. -/
theorem mapM {f : α → Lower β} {R : List FreshVar → α → β → Prop} {l : List α}
    (hR : ∀ a b made made', made <+: made' → R made a b → R made' a b)
    (hf : ∀ a ∈ l, ∀ made, Grows q start made (f a) fun made' => R made' a) :
    Grows q start made (l.mapM f) fun made' => List.Forall₂ (R made') l := by
  induction l generalizing made with
  | nil => exact pure .nil
  | cons a l ih =>
    rw [List.mapM_cons]
    refine (hf a List.mem_cons_self made).bind fun made₁ b _ hb => ?_
    refine (ih fun c hc => hf c (List.mem_cons_of_mem a hc)).bind fun made₂ bs hmade₂ hbs => ?_
    exact pure (.cons (hR a b made₁ made₂ hmade₂ hb) hbs)

theorem foldlM {f : β → α → Lower β} {l : List α}
    (hf : ∀ b, ∀ a ∈ l, ∀ made, Q made b → Grows q start made (f b a) Q) {b : β} (hb : Q made b) :
    Grows q start made (l.foldlM f b) Q := by
  induction l generalizing made b with
  | nil => exact pure hb
  | cons a l ih =>
    rw [List.foldlM_cons]
    refine (hf b a List.mem_cons_self made hb).bind fun made₁ b₁ _ hb₁ => ?_
    exact ih (fun b c hc => hf b c (List.mem_cons_of_mem a hc)) hb₁

/-- Statements that keep to the list may be emitted. -/
theorem emitAll {ss : Block} (h : ss.KeepsTo q made) :
    Grows q start made (Lower.emitAll ss) fun _ _ => True :=
  MeetsFrom.modify fun _ hst => ⟨made, List.prefix_rfl,
    ⟨hst.names, hst.next, hst.env, Block.everywhere_append.2 ⟨hst.emitted, h⟩⟩, trivial⟩

theorem emit {s : Stmt} (h : s.Everywhere (Stmt.BindsAs q made)) :
    Grows q start made (Lower.emit s) fun _ _ => True :=
  emitAll (Block.everywhere_cons.2 ⟨h, Block.everywhere_nil⟩)

/-- A new variable may be listed with any expression, as long as it is bound to no other. -/
theorem temp (base : String) (ty : Ty) (origin? : Option Expr) :
    Grows q start made (Lower.temp base ty) fun made' e =>
      ∃ v ∈ made', v.base = base ∧ v.ty = ty ∧ v.origin? = origin? ∧ e = v.expr :=
  fun _ hst => .pure ⟨_, List.prefix_append _ _, hst.fresh base ty origin?, _,
    List.mem_append_right _ (List.mem_singleton_self _), rfl, rfl, rfl, rfl⟩

/-- A new variable that is assigned an expression is made for it. -/
theorem declare {base : String} {ty : Ty} {value : Expr} {f : Expr → Lower β}
    (hf : ∀ (v : FreshVar) made', Grows q start made' (f v.expr) Q) :
    Grows q start made (do
      let e ← Lower.temp base ty
      Lower.emit (.assign e value)
      f e) Q := by
  refine (temp base ty (some value)).bind fun made₁ e _ he => ?_
  obtain ⟨v, hv, -, -, horigin, rfl⟩ := he
  have hbinds : (Stmt.assign v.expr value).BindsAs q made₁ := .inr ⟨v, hv, value, horigin, rfl⟩
  exact (emit (Stmt.everywhere_assign.2 hbinds)).bind fun made₂ _ _ _ => hf v made₂

/-- A block that is built on the side keeps to the list, and so does what was emitted before. -/
theorem collectAfter {before : Block} (hx : Grows q start made x P) (hbefore : before.KeepsTo q made) :
    Grows q start made (Lower.collectAfter before x) fun made' r =>
      P made' r.1 ∧ r.2.KeepsTo q made' := by
  intro st hst
  have hinner : LowerState.Lists q start made { st with emitted := before } :=
    ⟨hst.names, hst.next, hst.env, hbefore⟩
  refine (hx { st with emitted := before } hinner).bind fun r ⟨made', hmade, hr, ha⟩ => .pure ?_
  exact ⟨made', hmade, ⟨hr.names, hr.next, hr.env, hst.emitted.grow hmade⟩, ha, hr.emitted⟩

end Grows

end Lower
end ArrayLang
