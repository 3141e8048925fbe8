import ArrayLang.Proofs.Run

/-!
# Results of computations

What holds of the result of a computation, and of the state that it leaves, wherever it succeeds. Nothing
is said where it fails, unless an invariant of the state is kept on the way: that holds of the state that
a failure leaves too. There is one rule for each way of building a computation.
-/

namespace ArrayLang.Run

variable {κ ε ε' α β : Type} {P P' : State κ → Prop}

/-- Wherever `x` succeeds from a state in `P`, its result and the state it leaves are in `Q`. -/
def Yields (P : State κ → Prop) (Q : α → State κ → Prop) (x : Run κ ε α) : Prop :=
  ∀ σ a σ', P σ → exec x σ = (.ok a, σ') → Q a σ'

namespace Yields

variable {Q Q' : α → State κ → Prop} {R : β → State κ → Prop} {x : Run κ ε α}

theorem mono (h : Yields P Q x) (hQ : ∀ a σ, Q a σ → Q' a σ) : Yields P Q' x :=
  fun σ a σ' hσ hx => hQ a σ' (h σ a σ' hσ hx)

theorem pre (h : Yields P Q x) (hP : ∀ σ, P' σ → P σ) : Yields P' Q x :=
  fun σ a σ' hσ hx => h σ a σ' (hP σ hσ) hx

/-- What does not depend on the state may be assumed. -/
theorem of_and {p : Prop} (h : p → Yields P Q x) : Yields (fun σ => P σ ∧ p) Q x :=
  fun σ a σ' hσ hx => h hσ.2 σ a σ' hσ.1 hx

theorem and (h : Yields P Q x) (h' : Yields P Q' x) : Yields P (fun a σ => Q a σ ∧ Q' a σ) x :=
  fun σ a σ' hσ hx => ⟨h σ a σ' hσ hx, h' σ a σ' hσ hx⟩

theorem bind {f : α → Run κ ε β} (hx : Yields P Q x) (hf : ∀ a, Yields (Q a) R (f a)) :
    Yields P R (x >>= f) := by
  intro σ b σ'' hσ h
  obtain ⟨a, σ', hxa, hfa⟩ := exec_bind_eq_ok h
  exact hf a σ' b σ'' (hx σ a σ' hσ hxa) hfa

theorem pure {a : α} (h : ∀ σ, P σ → Q a σ) : Yields P Q (Pure.pure a : Run κ ε α) := by
  intro σ a' σ' hσ hx
  cases hx
  exact h σ hσ

theorem throw (e : ε) : Yields P Q (throw e : Run κ ε α) := by
  intro σ a σ' _ hx
  cases hx

theorem getStore {Q : Store → State κ → Prop} (h : ∀ σ, P σ → Q σ.store σ) :
    Yields P Q (getStore : Run κ ε Store) := by
  intro σ a σ' hσ hx
  cases hx
  exact h σ hσ

theorem attempt {raise : ε' → ε} {plan : Store → Except ε' (Store → α × Store)}
    (h : ∀ s c f, P ⟨s, c⟩ → plan s = .ok f → Q (f s).1 ⟨(f s).2, c⟩) :
    Yields P Q (attempt raise plan : Run κ ε α) := by
  intro σ a σ' hσ hx
  rw [exec_attempt] at hx
  cases hplan : plan σ.store with
  | error e =>
    rw [hplan] at hx
    cases hx
  | ok f =>
    rw [hplan] at hx
    cases hx
    exact h σ.store σ.context f hσ hplan

theorem ofExcept {raise : ε' → ε} {r : Except ε' α} (h : ∀ a σ, r = .ok a → P σ → Q a σ) :
    Yields P Q (ofExcept raise r : Run κ ε α) := by
  intro σ a σ' hσ hx
  rw [exec_ofExcept] at hx
  cases r with
  | error e => cases hx
  | ok a =>
    cases hx
    exact h a σ rfl hσ

theorem mapError {f : ε → ε'} (h : Yields P Q x) : Yields P Q (mapError f x) :=
  fun σ a σ' hσ hx => h σ a σ' hσ (exec_mapError_eq_ok hx)

theorem ite {p : Prop} [Decidable p] {y : Run κ ε α} (hx : Yields P Q x) (hy : Yields P Q y) :
    Yields P Q (if p then x else y) := by
  split
  · exact hx
  · exact hy

/-- What holds before each step, by its position, holds at the end. -/
theorem foldPositionsM {I : Nat → α → State κ → Prop} {step : α → Nat → Run κ ε α}
    (i count : Nat) {a : α} (ha : ∀ σ, P σ → I i a σ)
    (h : ∀ a j, i ≤ j → j < i + count → Yields (I j a) (I (j + 1)) (step a j)) :
    Yields P (I (i + count)) (foldPositionsM step i count a) := by
  induction count generalizing i a P with
  | zero => exact .pure ha
  | succ count ih =>
    refine ((h a i (Nat.le_refl i) (by omega)).pre ha).bind fun a' => ?_
    have hrest := ih (i + 1) (a := a') (fun σ hσ => hσ) fun a j hj hlt => h a j (by omega) (by omega)
    rw [Nat.succ_add_eq_add_succ] at hrest
    exact hrest

end Yields

/-! ## Invariants of the state -/

/-- From a state in `P`, `x` keeps the invariant `I` whether it succeeds or not. Where it succeeds, its result
and the state it leaves are in `Q`. -/
def Preserves (I P : State κ → Prop) (Q : α → State κ → Prop) (x : Run κ ε α) : Prop :=
  ∀ σ, I σ → P σ → I (exec x σ).2 ∧ ∀ a σ', exec x σ = (.ok a, σ') → Q a σ'

namespace Preserves

variable {I : State κ → Prop} {Q Q' : α → State κ → Prop} {R : β → State κ → Prop} {x : Run κ ε α}

theorem pre (h : Preserves I P Q x) (hP : ∀ σ, P' σ → P σ) : Preserves I P' Q x :=
  fun σ hI hσ => h σ hI (hP σ hσ)

theorem mono (h : Preserves I P Q x) (hQ : ∀ a σ, Q a σ → Q' a σ) : Preserves I P Q' x := by
  intro σ hI hσ
  obtain ⟨hkept, hresult⟩ := h σ hI hσ
  exact ⟨hkept, fun a σ' hx => hQ a σ' (hresult a σ' hx)⟩

/-- What does not depend on the state may be assumed. -/
theorem of_and {p : Prop} (h : p → Preserves I P Q x) : Preserves I (fun σ => p ∧ P σ) Q x :=
  fun σ hI hσ => h hσ.1 σ hI hσ.2

theorem bind {f : α → Run κ ε β} (hx : Preserves I P Q x) (hf : ∀ a, Preserves I (Q a) R (f a)) :
    Preserves I P R (x >>= f) := by
  intro σ hI hσ
  obtain ⟨hkept, hresult⟩ := hx σ hI hσ
  rw [exec_bind]
  cases h : exec x σ with
  | mk r σ' =>
    rw [h] at hkept
    cases r with
    | error e => exact ⟨hkept, nofun⟩
    | ok a => exact hf a σ' hkept (hresult a σ' h)

theorem pure {a : α} (h : ∀ σ, P σ → Q a σ) : Preserves I P Q (Pure.pure a : Run κ ε α) := by
  refine fun σ hI hσ => ⟨hI, fun a' σ' hx => ?_⟩
  cases hx
  exact h σ hσ

theorem throw (e : ε) : Preserves I P Q (throw e : Run κ ε α) :=
  fun _ hI _ => ⟨hI, nofun⟩

theorem getStore {Q : Store → State κ → Prop} (h : ∀ σ, P σ → Q σ.store σ) :
    Preserves I P Q (getStore : Run κ ε Store) := by
  refine fun σ hI hσ => ⟨hI, fun a σ' hx => ?_⟩
  cases hx
  exact h σ hσ

theorem make {f : Store → α × Store}
    (h : ∀ s c, I ⟨s, c⟩ → P ⟨s, c⟩ → I ⟨(f s).2, c⟩ ∧ Q (f s).1 ⟨(f s).2, c⟩) :
    Preserves I P Q (make f : Run κ ε α) := by
  intro σ hI hσ
  obtain ⟨hkept, hmade⟩ := h σ.store σ.context hI hσ
  refine ⟨hkept, fun a σ' hx => ?_⟩
  cases hx
  exact hmade

theorem attempt {raise : ε' → ε} {plan : Store → Except ε' (Store → α × Store)}
    (h : ∀ s c f, I ⟨s, c⟩ → P ⟨s, c⟩ → plan s = .ok f →
      I ⟨(f s).2, c⟩ ∧ Q (f s).1 ⟨(f s).2, c⟩) :
    Preserves I P Q (attempt raise plan : Run κ ε α) := by
  intro σ hI hσ
  rw [exec_attempt]
  cases hplan : plan σ.store with
  | error e => exact ⟨hI, nofun⟩
  | ok f =>
    obtain ⟨hkept, hmade⟩ := h σ.store σ.context f hI hσ hplan
    refine ⟨hkept, fun a σ' hx => ?_⟩
    cases hx
    exact hmade

theorem ofExcept {raise : ε' → ε} {r : Except ε' α} (h : ∀ a σ, r = .ok a → P σ → Q a σ) :
    Preserves I P Q (ofExcept raise r : Run κ ε α) := by
  intro σ hI hσ
  rw [exec_ofExcept]
  refine ⟨hI, fun a σ' hx => ?_⟩
  cases r with
  | error e => cases hx
  | ok a' =>
    cases hx
    exact h a σ rfl hσ

theorem mapError {f : ε → ε'} (h : Preserves I P Q x) : Preserves I P Q (mapError f x) := by
  intro σ hI hσ
  obtain ⟨hkept, hresult⟩ := h σ hI hσ
  refine ⟨?_, fun a σ' hx => hresult a σ' (exec_mapError_eq_ok hx)⟩
  rw [exec_mapError]
  exact hkept

/-- What each step preserves of the values that are handed on holds at the end. -/
theorem foldPositionsM {step : α → Nat → Run κ ε α} (h : ∀ a i, Preserves I (Q a) Q (step a i))
    (i count : Nat) (a : α) : Preserves I (Q a) Q (foldPositionsM step i count a) := by
  induction count generalizing i a with
  | zero => exact .pure fun _ hσ => hσ
  | succ count ih => exact (h a i).bind fun a' => ih (i + 1) a'

end Preserves

end ArrayLang.Run
