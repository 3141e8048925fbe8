import ArrayLang.Proofs.Array.Stack
import ArrayLang.Proofs.Interpreter.Quiet
import ArrayLang.Proofs.Interpreter.Reads
import ArrayLang.Proofs.Storage.Confined
import ArrayLang.Proofs.Typing.ExpandedLiteral

/-!
# Items of array literals

An expression without effects that evaluates to an array evaluates to an array of the same contents later
on: when blocks were added to the store, and when variables were bound that it does not read. The blocks
that are there may be read in the meantime, and new ones may be written.

## Main results

- `EvaluatesTo.of_quiet`: an expression without effects keeps its contents.
- `EvaluatesTo.convert`: so does its conversion to an element type.
- `exec_evalExprs`: several such expressions, one after the other.
-/

namespace ArrayLang

/-- The session is the same, and the blocks are as they were, apart from new ones. -/
def State.Grows {κ : Type} (σ σ' : State κ) : Prop :=
  σ'.context = σ.context ∧ σ.store.TouchesOnly (fun _ => False) σ'.store

namespace State.Grows

variable {κ : Type} {σ σ' σ'' : State κ} {v : View} {c : Contents}

theorem refl (σ : State κ) : σ.Grows σ :=
  ⟨rfl, .refl _ _⟩

theorem trans (h : σ.Grows σ') (h' : σ'.Grows σ'') : σ.Grows σ'' :=
  ⟨h'.1.trans h.1, h.2.trans h'.2 fun _ _ => id⟩

theorem block_lt (h : σ.Grows σ') (hv : v.block < σ.store.blocks.size) :
    v.block < σ'.store.blocks.size :=
  Nat.lt_of_lt_of_le hv h.2.size

theorem shows (h : σ.Grows σ') (hv : v.block < σ.store.blocks.size) (hshows : v.Shows σ.store c) :
    v.Shows σ'.store c :=
  hshows.of_touches h.2 hv id

end State.Grows

/-- The contents of an array of the given type after the conversion of its elements. -/
def Contents.convert (ty? : Option Ty) (elt : ElemType) (c : Contents) : Contents :=
  match ty?.getD .none with
  | .array found _ => if found = elt then c else c.cast elt
  | _ => c

@[simp] theorem Contents.shape_convert (ty? : Option Ty) (elt : ElemType) (c : Contents) :
    (c.convert ty? elt).shape = c.shape := by
  unfold convert
  split
  · split <;> rfl
  · rfl

/-- The contents of several items after the conversion of their elements. -/
def Contents.convertAll (elt : ElemType) (es : List Expr) (cs : List Contents) : List Contents :=
  es.zipWith (fun e c => c.convert e.ty? elt) cs

theorem Contents.length_convertAll {es : List Expr} {cs : List Contents} (h : es.length = cs.length)
    (elt : ElemType) : (convertAll elt es cs).length = es.length := by
  rw [convertAll, List.length_zipWith, ← h, Nat.min_self]

/-- The conversions have the shapes of the items. -/
theorem Contents.forall_convertAll {es : List Expr} {cs : List Contents} (p : List Nat → Prop)
    (h : es.length = cs.length) (elt : ElemType) :
    (∀ c ∈ convertAll elt es cs, p c.shape) ↔ ∀ c ∈ cs, p c.shape := by
  have hshapes : (convertAll elt es cs).map shape = cs.map shape := by
    refine List.ext_getElem (by simp [length_convertAll h, h]) fun i hi hi' => ?_
    simp [convertAll]
  rw [← List.forall_mem_map, hshapes, List.forall_mem_map]

namespace Interpreter

open Run Lower

variable {apply : Apply} {trace : Trace} {p q : String → Prop} {env env' : Env}
  {σ σ' : State Session} {e : Expr} {c : Contents} {elt : ElemType}

/-- The array lies in the store and has the contents. -/
def Holds (σ : State Session) (v : View) (c : Contents) : Prop :=
  v.block < σ.store.blocks.size ∧ v.Shows σ.store c

theorem Holds.grow {v : View} (h : Holds σ v c) (hσ : σ.Grows σ') : Holds σ' v c :=
  ⟨hσ.block_lt h.1, hσ.shows h.1 h.2⟩

/-- In every state that `σ` grows to, and where the variables that satisfy `p` have the values of `env`,
the expression evaluates to an array of the contents, without an effect. -/
def EvaluatesTo (apply : Apply) (trace : Trace) (p : String → Prop) (env : Env) (σ : State Session)
    (e : Expr) (c : Contents) : Prop :=
  ∀ env' σ', env.Agree p env' → σ.Grows σ' →
    ∃ v σ'', exec (evalExpr apply trace env' e) σ' = (.ok (.array v), σ'') ∧ σ'.Grows σ''
      ∧ Holds σ'' v c

namespace EvaluatesTo

theorem here (h : EvaluatesTo apply trace p env σ e c) :
    ∃ v σ', exec (evalExpr apply trace env e) σ = (.ok (.array v), σ') ∧ σ.Grows σ' ∧ Holds σ' v c :=
  h env σ (.refl env) (.refl σ)

/-- It does so from any such state on. -/
theorem later (h : EvaluatesTo apply trace p env σ e c) (henv : env.Agree p env') (hσ : σ.Grows σ')
    (hq : ∀ x, p x → q x) : EvaluatesTo apply trace q env' σ' e c :=
  fun _ _ henv' hσ' => h _ _ (henv.trans fun x hx => henv' x (hq x hx)) (hσ.trans hσ')

/-- A variable that holds an array. -/
theorem var {x : String} {v : View} {ty? : Option Ty} (hx : env.find? x = some (.array v)) (hp : p x)
    (hv : Holds σ v c) : EvaluatesTo apply trace p env σ ⟨.var x, ty?⟩ c := by
  intro env' σ' henv hσ
  exact ⟨v, σ', exec_var ((henv x hp).symm.trans hx) ty? σ', .refl σ', hv.grow hσ⟩

/-- A cast makes an array of the same elements in the other element type. -/
theorem cast (h : EvaluatesTo apply trace p env σ e c) (elt : ElemType) (ty? : Option Ty) :
    EvaluatesTo apply trace p env σ ⟨.cast e elt, ty?⟩ (c.cast elt) := by
  intro env' σ' henv hσ
  obtain ⟨v, σ'', hexec, hgrows, hv⟩ := h env' σ' henv hσ
  refine ⟨(v.cast elt σ''.store).1, ⟨(v.cast elt σ''.store).2, σ''.context⟩, ?_, ?_, ?_, ?_⟩
  · rw [evalExpr, exec_bind_ok hexec]
    exact exec_attempt _ _ _
  · exact hgrows.trans ⟨rfl, .alloc _ _ _⟩
  · show σ''.store.blocks.size < (σ''.store.blocks.push _).size
    rw [Array.size_push]
    exact Nat.lt_succ_self _
  · exact hv.2.cast elt

/-- The conversion of an item. -/
theorem convert (h : EvaluatesTo apply trace p env σ e c) (elt : ElemType) :
    EvaluatesTo apply trace p env σ (convertItem elt e) (c.convert e.ty? elt) := by
  unfold convertItem Contents.convert
  cases e.ty?.getD .none with
  | array found rank =>
    show EvaluatesTo apply trace p env σ (if found = elt then e else .typed (.cast e elt) _)
      (if found = elt then c else c.cast elt)
    split
    · exact h
    · exact h.cast elt _
  | _ => exact h

/-- The conversions of several items. -/
theorem convertAll {es : List Expr} {cs : List Contents}
    (h : List.Forall₂ (EvaluatesTo apply trace p env σ) es cs) (elt : ElemType) :
    List.Forall₂ (EvaluatesTo apply trace p env σ) (es.map (convertItem elt))
      (Contents.convertAll elt es cs) := by
  induction h with
  | nil => exact .nil
  | cons he _ ih => exact .cons (he.convert elt) ih

/-! ## Expressions without effects -/

open Pairing Value

/-- The blocks of the earlier store stand for themselves. -/
theorem self_matches_of_grows (hσ : σ.Grows σ') :
    (Pairing.self (· < σ.store.blocks.size)).Matches σ.store σ'.store :=
  (self_matches fun _ => id).of_touches (.refl (fun _ => False) σ.store) hσ.2 (fun _ _ => id)
    fun _ _ => id

/-- An expression without effects whose value is an array evaluates to an array of the same contents
later on. What it reads has to lie in the store. -/
theorem of_quiet (happly : ApplyAlike apply) (hsession : σ.context.Impartial)
    (hquiet : ∀ env', Run.Quiet (evalExpr apply trace env' e)) (hreads : e.ReadsOnly p)
    (hthere : ∀ x value, p x → env.find? x = some value →
      ∀ b ∈ value.blocks, b < σ.store.blocks.size)
    {v : View} (hexec : exec (evalExpr apply trace env e) σ = (.ok (.array v), σ')) :
    EvaluatesTo apply trace p env σ e ⟨v.shape, v.get σ'.store⟩ := by
  intro env' τ henv hσ
  -- What the expression reads is there in both states, and there it stands for itself.
  have henvPaired : EnvPaired (.self (· < σ.store.blocks.size)) p env env' := by
    intro x hx
    rw [← henv x hx]
    cases hvalue : env.find? x with
    | none => exact .none
    | some value => exact .some (paired_self value (hthere x value hx hvalue))
  obtain ⟨ρ, hρ, -, -, hout⟩ := evalExpr_alike happly trace e hreads henvPaired σ.store τ.store
    σ.context (self_matches_of_grows hσ) (.inr hsession)
  have hτ : (⟨τ.store, σ.context⟩ : State Session) = τ := by rw [← hσ.1]
  rw [hτ] at hρ hout
  have hgrows : τ.Grows (exec (evalExpr apply trace env' e) τ).2 := hquiet env' τ
  cases hx : exec (evalExpr apply trace env' e) τ with
  | mk result τ' =>
    rw [hx] at hρ hout hgrows
    change Outcome.Alike _ (exec (evalExpr apply trace env e) σ).1 result at hout
    change Evolves _ _ _ ρ (exec (evalExpr apply trace env e) σ).2.store τ'.store at hρ
    rw [hexec] at hρ hout
    cases hout with
    | ok hpaired =>
      cases hpaired with
      | array hblock =>
        exact ⟨_, τ', rfl, hgrows, hρ.stores.lt_right hblock, rfl,
          fun index _ => View.get_on hρ.stores hblock index⟩

end EvaluatesTo

/-! ## Several items -/

/-- Items are evaluated one after the other, and then hold their contents. -/
theorem exec_evalExprs {es : List Expr} {cs : List Contents}
    (h : List.Forall₂ (EvaluatesTo apply trace p env σ) es cs) (hσ : σ.Grows σ') :
    ∃ vs σ'', exec (evalExprs apply trace env es) σ' = (.ok (vs.map Value.array), σ'')
      ∧ σ'.Grows σ'' ∧ List.Forall₂ (Holds σ'') vs cs := by
  induction h generalizing σ' with
  | nil => exact ⟨[], σ', rfl, .refl σ', .nil⟩
  | cons he _ ih =>
    obtain ⟨v, σ₁, hv, hgrows, hholds⟩ := he env σ' (.refl env) hσ
    obtain ⟨vs, σ₂, hvs, hgrows', hall⟩ := ih (hσ.trans hgrows)
    refine ⟨v :: vs, σ₂, ?_, hgrows.trans hgrows', .cons (hholds.grow hgrows') hall⟩
    rw [evalExprs, exec_bind_ok hv, exec_bind_ok hvs]
    rfl

end Interpreter
end ArrayLang
