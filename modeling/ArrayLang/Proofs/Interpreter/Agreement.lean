import ArrayLang.Interpreter.Evaluation
import ArrayLang.Proofs.Yields
import ArrayLang.Proofs.Value.Carried

/-!
# Runs that agree

Two computations that run different code on one state agree when they leave one state again and return
what belongs together, or stop for the same reason. Only the names of the calls that are active may
differ. Neither touches the session, and arrays that were well formed still are, so that what was of a
type before is of it afterwards. Each way of building a computation has one rule.
-/

namespace ArrayLang

/-- Both stop for one reason, whatever calls are active. -/
inductive Stop.Agrees : Stop → Stop → Prop
  | fault (kind : Fault) (trace trace' : Trace) : Agrees (.fault kind trace) (.fault kind trace')
  | outOfFuel : Agrees .outOfFuel .outOfFuel

namespace Interpreter

open Run

variable {α β α' β' : Type}

/-- From the state both have results that `R` relates and leave one state, or stop for one reason. -/
inductive Coincide (σ : State Session) (R : α → β → Store → Prop) :
    Except Stop α × State Session → Except Stop β × State Session → Prop
  | ok {a : α} {b : β} {τ : State Session} (hcontext : τ.context = σ.context)
    (hstore : σ.store.Retains τ.store) (h : R a b τ.store) : Coincide σ R (.ok a, τ) (.ok b, τ)
  | error {e e' : Stop} {τ : State Session} (h : e.Agrees e') : Coincide σ R (.error e, τ) (.error e', τ)

/-- From the state both computations do the same. -/
def Agree (σ : State Session) (R : α → β → Store → Prop) (x : Eval α) (y : Eval β) : Prop :=
  Coincide σ R (exec x σ) (exec y σ)

namespace Agree

variable {σ : State Session} {R : α → β → Store → Prop} {Q : α' → β' → Store → Prop} {x : Eval α}
  {y : Eval β}

theorem pure {a : α} {b : β} (h : R a b σ.store) : Agree σ R (Pure.pure a) (Pure.pure b) :=
  .ok rfl (.refl _) h

theorem throw {e e' : Stop} (h : e.Agrees e') :
    Agree σ R (throw e : Eval α) (throw e' : Eval β) :=
  .error h

theorem fail (trace trace' : Trace) (kind : Fault) :
    Agree σ R (fail trace kind : Eval α) (Interpreter.fail trace' kind : Eval β) :=
  .error (.fault kind trace trace')

theorem bind {f : α → Eval α'} {g : β → Eval β'} (hx : Agree σ R x y)
    (hf : ∀ a b τ, τ.context = σ.context → σ.store.Retains τ.store → R a b τ.store →
      Agree τ Q (f a) (g b)) : Agree σ Q (x >>= f) (y >>= g) := by
  unfold Agree at hx ⊢
  rw [exec_bind, exec_bind]
  generalize exec x σ = r at hx
  generalize exec y σ = r' at hx
  cases hx with
  | error h => exact .error h
  | @ok a b τ hcontext hstore h =>
    have hrest : Coincide τ Q (exec (f a) τ) (exec (g b) τ) := hf a b τ hcontext hstore h
    change Coincide σ Q (exec (f a) τ) (exec (g b) τ)
    generalize exec (f a) τ = r at hrest
    generalize exec (g b) τ = r' at hrest
    cases hrest with
    | error h => exact .error h
    | ok hcontext' hstore' h => exact .ok (hcontext'.trans hcontext) (hstore.trans hstore') h

theorem mono {Q : α → β → Store → Prop} (hx : Agree σ R x y)
    (h : ∀ a b s, σ.store.Retains s → R a b s → Q a b s) : Agree σ Q x y := by
  unfold Agree at hx ⊢
  generalize exec x σ = r at hx
  generalize exec y σ = r' at hx
  cases hx with
  | error h => exact .error h
  | ok hcontext hstore hR => exact .ok hcontext hstore (h _ _ _ hstore hR)

/-- What is known of the results of one of them. -/
theorem and {P : State Session → Prop} {T : α → State Session → Prop} (hx : Agree σ R x y)
    (hyields : Yields P T x) (hσ : P σ) :
    Agree σ (fun a b s => R a b s ∧ ∃ τ, T a τ) x y := by
  have hresult := hyields σ
  unfold Agree at hx ⊢
  generalize exec x σ = r at hx hresult
  generalize exec y σ = r' at hx
  cases hx with
  | error h => exact .error h
  | ok hcontext hstore hR => exact .ok hcontext hstore ⟨hR, _, hresult _ _ hσ rfl⟩

theorem ite {c : Prop} [Decidable c] {x' : Eval α} {y' : Eval β} (hx : c → Agree σ R x y)
    (hy : ¬c → Agree σ R x' y') : Agree σ R (if c then x else x') (if c then y else y') := by
  split
  · exact hx ‹_›
  · exact hy ‹_›

/-- What follows may look at the store, which is the same. -/
theorem getStore_bind {f : Store → Eval α} {g : Store → Eval β}
    (h : Agree σ R (f σ.store) (g σ.store)) : Agree σ R (getStore >>= f) (getStore >>= g) := by
  unfold Agree at h ⊢
  rw [exec_bind, exec_bind]
  exact h

/-- What follows may look at the state. -/
theorem get_bind {f : State Session → Eval α} {g : State Session → Eval β}
    (h : Agree σ R (f σ) (g σ)) : Agree σ R (get >>= f) (get >>= g) := by
  unfold Agree at h ⊢
  rw [exec_bind, exec_bind]
  exact h

/-- One of them may look at the state where the other does not. -/
theorem get_bind_left {f : State Session → Eval α} (h : Agree σ R (f σ) y) :
    Agree σ R (get >>= f) y :=
  h

theorem orFault (trace trace' : Trace) {r : Except Fault α} {R : α → α → Store → Prop}
    (h : ∀ a, r = .ok a → R a a σ.store) :
    Agree σ R (orFault trace r) (Interpreter.orFault trace' r) := by
  cases r with
  | error e => exact .error (.fault e trace trace')
  | ok a => exact .ok rfl (.refl _) (h a rfl)

theorem operate (trace trace' : Trace) {plan plan' : Store → Except Fault (Store → α × Store)}
    {R : α → α → Store → Prop} (hplan : plan' σ.store = plan σ.store)
    (h : ∀ f, plan σ.store = .ok f →
      σ.store.Retains (f σ.store).2 ∧ R (f σ.store).1 (f σ.store).1 (f σ.store).2) :
    Agree σ R (operate trace plan) (Interpreter.operate trace' plan') := by
  unfold Agree Interpreter.operate
  rw [exec_attempt, exec_attempt, hplan]
  cases hr : plan σ.store with
  | error e => exact .error (.fault e trace trace')
  | ok f => exact .ok rfl (h f hr).1 (h f hr).2

end Agree
end Interpreter
end ArrayLang
