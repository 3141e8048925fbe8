import ArrayLang.Adverb
import ArrayLang.Proofs.Yields

/-!
# Accumulators of reductions

What the calls of a reduction keep of its accumulators holds of its result. An accumulator is the
initial value, the first element if there is no initial value, or a result of combining. The first
element is only detached from other storage before it becomes an accumulator, so what accumulators
satisfy has to hold of it as the element function returns it.
-/

namespace ArrayLang.Adverb

open Run

variable {κ ε : Type} {apply : Value → List Value → Run κ ε Value} {f : Fold}
  {E A : Value → State κ → Prop} {P : State κ → Prop}

/-- What holds of an accumulator holds of the current one, if there is one. -/
def Current (f : Fold) (A : Value → State κ → Prop) (acc? : Option Value) (σ : State κ) : Prop :=
  (acc? = none → f.start? = none) ∧ ∀ acc, acc? = some acc → A acc σ

/-- The calls of a fold: elements are in `E`, combining an accumulator in `A` with an element gives
an accumulator in `A`, and a first element may seed the accumulator. -/
structure Fold.Keeps (f : Fold) (apply : Value → List Value → Run κ ε Value)
    (E A : Value → State κ → Prop) : Prop where
  element : ∀ acc? args, Yields (Current f A acc?) (fun e σ => E e σ ∧ Current f A acc? σ)
    (apply f.func args)
  combine : ∀ acc e, Yields (fun σ => E e σ ∧ A acc σ) A (apply f.combine [acc, e])
  seed : f.start? = none → ∀ e, Yields (E e) A (detach e : Run κ (AdverbStop ε) Value)

theorem calling_yields {Q : Value → State κ → Prop} {x : Run κ ε Value} (h : Yields P Q x) :
    Yields P Q (calling x) :=
  h.mapError

theorem sliceArgs_yields (axis : Nat) (args : List Value) (i : Nat) :
    Yields P (fun _ => P) (sliceArgs axis args i : Run κ (AdverbStop ε) (List Value)) :=
  Yields.bind (Q := fun _ => P) (.getStore fun _ h => h) fun _ => .pure fun _ h => h

/-- One step keeps what holds of accumulators. -/
theorem step_yields (h : f.Keeps apply E A) (acc? : Option Value) (slices : List Value) :
    Yields (Current f A acc?) A (f.step apply acc? slices) := by
  unfold Fold.step
  refine (calling_yields (h.element acc? slices)).bind fun e => ?_
  cases acc? with
  | none =>
    intro σ v σ' hσ hx
    obtain ⟨he, hcurrent⟩ := hσ
    exact h.seed (hcurrent.1 rfl) e σ v σ' he hx
  | some acc =>
    refine (calling_yields (h.combine acc e)).pre fun σ hσ => ?_
    exact ⟨hσ.1, hσ.2.2 acc rfl⟩

/-- What the calls of a fold keep of its accumulators holds of the result of a reduction. -/
theorem reduce_yields (h : f.Keeps apply E A) (args : List Value) (axis : Nat)
    (hstart : ∀ σ, P σ → ∀ acc, f.start? = some acc → A acc σ) :
    Yields P A (reduce apply f args axis) := by
  have hcurrent : ∀ σ, P σ → Current f A f.start? σ := fun σ hσ => ⟨id, hstart σ hσ⟩
  unfold reduce
  refine Yields.bind (Q := fun _ => P) (.ofExcept fun _ _ _ hσ => hσ) fun len? => ?_
  cases len? with
  | none => exact (step_yields h f.start? args).pre hcurrent
  | some len =>
    -- The invariant of the loop is that the current accumulator satisfies `A`.
    have hloop : Yields P (Current f A) (foldPositionsM (fun acc? i => do
        return some (← f.step apply acc? (← sliceArgs axis args i))) 0 len f.start?) := by
      refine (Yields.foldPositionsM (I := fun _ => Current f A) 0 len hcurrent
        fun acc? i _ _ => ?_)
      refine (sliceArgs_yields axis args i).bind fun slices => ?_
      refine (step_yields h acc? slices).bind fun acc => .pure fun σ hacc => ?_
      refine ⟨nofun, fun acc' heq => ?_⟩
      cases heq
      exact hacc
    refine hloop.bind fun acc? => ?_
    cases acc? with
    | none => exact .throw _
    | some acc => exact .pure fun σ hσ => hσ.2 acc rfl

end ArrayLang.Adverb
