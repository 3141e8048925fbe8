import ArrayLang.Proofs.Adverb.Arguments
import ArrayLang.Proofs.Interpreter.Elementwise
import ArrayLang.Proofs.Interpreter.Frame

/-!
# Functions that only compute

The numbers of blocks are of no use to a function that only computes: what it returns depends on what the
arguments hold. No function of the language can tell the numbers apart. The operators also leave everything
as it was, so that they only compute.

## Main results

- `Oblivious`, `callValue_oblivious`: functions that do not depend on where values are stored.
- `IsPure`, `callValue_op_pure`: functions that only compute.
-/

namespace ArrayLang.Adverb

open Interpreter Run
open Value (Paired PairedAll)

variable {κ ε : Type}

/-- What calls of the function do does not depend on the numbers of the blocks that the function and the
arguments lie in: on paired stores they do alike. -/
def Oblivious (J : κ → Prop) (apply : Value → List Value → Run κ ε Value) (func : Value) : Prop :=
  ∀ (ρ : Pairing) (as bs : List Value), func.Paired ρ func → PairedAll ρ as bs →
    Run.Alike J ρ Paired (apply func as) (apply func bs)

/-- Calls of the function change neither the context nor a block that is there, and what they return depends
on what the arguments hold. -/
structure IsPure (J : κ → Prop) (apply : Value → List Value → Run κ ε Value) (func : Value) : Prop where
  oblivious : Oblivious J apply func
  context : ∀ args (σ : State κ), J σ.context → (∀ v ∈ func :: args, InStore σ.store v) →
    (exec (apply func args) σ).2.context = σ.context
  touches : ∀ args (σ : State κ), J σ.context → (∀ v ∈ func :: args, InStore σ.store v) →
    σ.store.TouchesOnly (fun _ => False) (exec (apply func args) σ).2.store

/-! ## Functions of the language -/

theorem callValue_oblivious (fuel : Nat) (trace : Trace) (func : Value) :
    Oblivious Session.Impartial (callValue (applyFn fuel) trace) func :=
  fun _ _ _ hfunc h => callValue_alike (applyFn_alike fuel) trace hfunc h

/-- Applying an operator makes at most a new block. -/
theorem applyOperator_touches {op : Operator} {args : List Value} {ty? : Option Ty} {s : Store}
    {f : Store → Value × Store} (h : applyOperator op args ty? s = .ok f) :
    s.TouchesOnly (fun _ => False) (f s).2 := by
  have happlied := applyOperator_applied op args ty? s
  rw [h] at happlied
  cases happlied with
  | computed _ hcomputed =>
    generalize f s = r at hcomputed ⊢
    cases hcomputed with
    | scalar => exact .refl _ s
    | array _ _ _ _ hkept => exact hkept

theorem callValue_op_pure (fuel : Nat) (trace : Trace) (op : Operator) :
    IsPure Session.Impartial (callValue (applyFn fuel) trace) (.op op) := by
  have hexec (args : List Value) (σ : State Session) :
      exec (callValue (applyFn fuel) trace (.op op) args) σ = match applyOperator op args none σ.store with
        | .ok f => (.ok (f σ.store).1, ⟨(f σ.store).2, σ.context⟩)
        | .error e => (.error (.fault e trace), σ) := by
    show exec (operate trace (applyOperator op args none)) σ = _
    unfold operate
    rw [exec_attempt]
    cases applyOperator op args none σ.store <;> rfl
  refine ⟨callValue_oblivious fuel trace _, fun args σ _ _ => ?_, fun args σ _ _ => ?_⟩
  · rw [hexec]
    cases applyOperator op args none σ.store <;> rfl
  · rw [hexec]
    cases h : applyOperator op args none σ.store with
    | ok f => exact applyOperator_touches h
    | error e => exact .refl _ σ.store

end ArrayLang.Adverb
