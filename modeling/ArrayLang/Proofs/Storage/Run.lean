import ArrayLang.Proofs.Interpreter.Operation
import ArrayLang.Proofs.Run

/-!
# Runs on paired stores

Two computations are alike when on paired stores and one context they change the stores alike, leave
one context, and have like outcomes. Each way of building a computation has one rule. Pairings only
grow along a run, so that values that stood for each other still do afterwards.

The context may hold code that is asked about values. Its answers agree when it cannot tell the
numbers of blocks apart, which is what `J` is for, or when values that stand for each other are equal,
as they are in two runs that number their blocks alike.
-/

namespace ArrayLang.Run

open Pairing

variable {κ ε ε' α α' β β' : Type} {J : κ → Prop} {ρ ρ₁ : Pairing}

/-- On stores that `ρ` pairs, if they number their blocks alike or the context is in `J`, the
computations change the stores alike, leave one context, still in `J` if it was, and have outcomes
related by `Q` or stop with the same error. -/
def Alike (J : κ → Prop) (ρ : Pairing) (Q : Pairing → α → β → Prop) (x : Run κ ε α)
    (y : Run κ ε β) : Prop :=
  ∀ s t c, ρ.Matches s t → ρ.Diagonal s t ∨ J c → ∃ ρ',
    Evolves ρ s t ρ' (exec x ⟨s, c⟩).2.store (exec y ⟨t, c⟩).2.store
      ∧ (exec y ⟨t, c⟩).2.context = (exec x ⟨s, c⟩).2.context
      ∧ (J c → J (exec x ⟨s, c⟩).2.context)
      ∧ Outcome.Alike (Q ρ') (exec x ⟨s, c⟩).1 (exec y ⟨t, c⟩).1

namespace Alike

variable {P Q : Pairing → α → β → Prop} {R : Pairing → α' → β' → Prop} {x : Run κ ε α}
  {y : Run κ ε β}

theorem mono (h : Alike J ρ P x y) (hPQ : ∀ ρ' a b, ρ ≤ ρ' → P ρ' a b → Q ρ' a b) :
    Alike J ρ Q x y := by
  intro s t c hs hc
  obtain ⟨ρ', hρ, hcontext, hJ, hout⟩ := h s t c hs hc
  exact ⟨ρ', hρ, hcontext, hJ, hout.mono fun a b => hPQ ρ' a b hρ.le⟩

theorem bind {f : α → Run κ ε α'} {g : β → Run κ ε β'} (hx : Alike J ρ P x y)
    (hf : ∀ ρ' a b, ρ ≤ ρ' → P ρ' a b → Alike J ρ' R (f a) (g b)) :
    Alike J ρ R (x >>= f) (y >>= g) := by
  intro s t c hs hc
  obtain ⟨ρ', hρ, hcontext, hJ, hout⟩ := hx s t c hs hc
  rw [exec_bind, exec_bind]
  cases h : exec x ⟨s, c⟩ with
  | mk r σ =>
    cases h' : exec y ⟨t, c⟩ with
    | mk r' σ' =>
      obtain ⟨s', c'⟩ := σ
      obtain ⟨t', d'⟩ := σ'
      rw [h, h'] at hρ hout hcontext
      rw [h] at hJ
      obtain rfl : d' = c' := hcontext
      cases hout with
      | error e => exact ⟨ρ', hρ, rfl, hJ, .error e⟩
      | ok hab =>
        obtain ⟨ρ'', hρ', hcontext, hJ', hout⟩ :=
          hf ρ' _ _ hρ.le hab s' t' d' hρ.stores (hc.imp hρ.diagonal hJ)
        exact ⟨ρ'', hρ.trans hρ', hcontext, fun hc => hJ' (hJ hc), hout⟩

theorem pure {a : α} {b : β} (h : Q ρ a b) :
    Alike J ρ Q (Pure.pure a : Run κ ε α) (Pure.pure b) :=
  fun _ _ _ hs _ => ⟨ρ, .refl hs, rfl, id, .ok h⟩

theorem throw (e : ε) : Alike J ρ Q (throw e : Run κ ε α) (throw e : Run κ ε β) :=
  fun _ _ _ hs _ => ⟨ρ, .refl hs, rfl, id, .error e⟩

/-- What follows may look at the stores, which are paired. -/
theorem getStore_bind {f : Store → Run κ ε α} {g : Store → Run κ ε β}
    (h : ∀ s t, ρ.Matches s t → Alike J ρ Q (f s) (g t)) :
    Alike J ρ Q (getStore >>= f) (getStore >>= g) := by
  intro s t c hs hc
  rw [exec_bind, exec_bind]
  exact h s t hs s t c hs hc

/-- What follows may look at the stores and at the context. -/
theorem get_bind {f : State κ → Run κ ε α} {g : State κ → Run κ ε β}
    (h : ∀ s t c, ρ.Matches s t → Alike J ρ Q (f ⟨s, c⟩) (g ⟨t, c⟩)) :
    Alike J ρ Q (get >>= f) (get >>= g) := by
  intro s t c hs hc
  rw [exec_bind, exec_bind]
  exact h s t c hs s t c hs hc

theorem make {f : Store → α × Store} {g : Store → β × Store}
    (h : ∀ s t, ρ.Matches s t → ρ.Makes s t Q f g) :
    Alike J ρ Q (make f : Run κ ε α) (make g) := by
  intro s t c hs hc
  obtain ⟨ρ', hρ, hQ⟩ := h s t hs
  exact ⟨ρ', hρ, rfl, id, .ok hQ⟩

theorem attempt (raise : ε' → ε) {plan : Store → Except ε' (Store → α × Store)}
    {plan' : Store → Except ε' (Store → β × Store)}
    (h : ∀ s t, ρ.Matches s t → Outcome.Alike (ρ.Makes s t Q) (plan s) (plan' t)) :
    Alike J ρ Q (attempt raise plan : Run κ ε α) (attempt raise plan') := by
  intro s t c hs hc
  have hplan := h s t hs
  rw [exec_attempt, exec_attempt]
  dsimp only
  generalize plan s = r at hplan
  generalize plan' t = r' at hplan
  cases hplan with
  | error e => exact ⟨ρ, .refl hs, rfl, id, .error _⟩
  | ok h =>
    obtain ⟨ρ', hρ, hQ⟩ := h
    exact ⟨ρ', hρ, rfl, id, .ok hQ⟩

theorem onContext {f g : κ → α × κ}
    (h : ∀ s t c, ρ.Matches s t → ρ.Diagonal s t ∨ J c → g c = f c)
    (hJ : ∀ c, J c → J (f c).2) :
    Alike J ρ (fun _ a b => b = a) (onContext f : Run κ ε α) (onContext g) := by
  intro s t c hs hc
  rw [exec_onContext, exec_onContext, h s t c hs hc]
  exact ⟨ρ, .refl hs, rfl, hJ c, .ok rfl⟩

theorem ofExcept (raise : ε' → ε) {r : Except ε' α} {r' : Except ε' β}
    (h : Outcome.Alike (Q ρ) r r') : Alike J ρ Q (ofExcept raise r : Run κ ε α) (ofExcept raise r') := by
  intro s t c hs hc
  rw [exec_ofExcept, exec_ofExcept]
  exact ⟨ρ, .refl hs, rfl, id, h.mapError raise⟩

theorem mapError (f : ε → ε') (h : Alike J ρ Q x y) :
    Alike J ρ Q (mapError f x) (mapError f y) := by
  intro s t c hs hc
  obtain ⟨ρ', hρ, hcontext, hJ, hout⟩ := h s t c hs hc
  rw [exec_mapError, exec_mapError]
  exact ⟨ρ', hρ, hcontext, hJ, hout.mapError f⟩

theorem ite {p : Prop} [Decidable p] {x' : Run κ ε α} {y' : Run κ ε β} (h : Alike J ρ Q x y)
    (h' : Alike J ρ Q x' y') : Alike J ρ Q (if p then x else x') (if p then y else y') := by
  split
  · exact h
  · exact h'

/-- Steps that keep a relation between their accumulators. -/
theorem foldPositionsM {step : α → Nat → Run κ ε α} {step' : β → Nat → Run κ ε β}
    (h : ∀ ρ' a b i, ρ ≤ ρ' → Q ρ' a b → Alike J ρ' Q (step a i) (step' b i)) {a : α} {b : β}
    (hab : Q ρ a b) (i count : Nat) :
    Alike J ρ Q (foldPositionsM step i count a) (foldPositionsM step' i count b) := by
  induction count generalizing i a b ρ with
  | zero => exact pure hab
  | succ count ih =>
    refine bind (h ρ a b i (le_refl ρ) hab) fun ρ₁ a' b' hle hab' => ?_
    exact ih (fun ρ' a b i hle' => h ρ' a b i (le_trans hle hle')) hab' (i + 1)

/-- Run from paired states, both fail alike or return related values. -/
theorem outcomes (h : Alike J ρ Q x y) {σ τ : State κ} (hs : ρ.Matches σ.store τ.store)
    (hcontext : τ.context = σ.context) (hJ : J σ.context) :
    (∃ e σ' τ', exec x σ = (.error e, σ') ∧ exec y τ = (.error e, τ'))
      ∨ ∃ a b σ' τ' ρ', exec x σ = (.ok a, σ') ∧ exec y τ = (.ok b, τ')
        ∧ Evolves ρ σ.store τ.store ρ' σ'.store τ'.store ∧ τ'.context = σ'.context ∧ J σ'.context
        ∧ Q ρ' a b := by
  obtain ⟨t, c⟩ := τ
  obtain rfl : c = σ.context := hcontext
  obtain ⟨ρ', hρ, hcontext, hJ', hout⟩ := h σ.store t σ.context hs (.inr hJ)
  have hJ := hJ' hJ
  change Evolves _ _ _ _ (exec x σ).2.store _ at hρ
  change _ = (exec x σ).2.context at hcontext
  change J (exec x σ).2.context at hJ
  change Outcome.Alike _ (exec x σ).1 _ at hout
  generalize exec x σ = r at hρ hcontext hJ hout
  generalize exec y ⟨t, σ.context⟩ = r' at hρ hcontext hout
  obtain ⟨result, σ'⟩ := r
  obtain ⟨result', τ'⟩ := r'
  cases hout with
  | error e => exact .inl ⟨e, σ', τ', rfl, rfl⟩
  | ok hab => exact .inr ⟨_, _, σ', τ', ρ', rfl, rfl, hρ, hcontext, hJ, hab⟩

/-- Where the first succeeds, so does the second. -/
theorem succeeds (h : Alike J ρ Q x y) {s t : Store} {c : κ} {a : α} {σ : State κ}
    (hs : ρ.Matches s t) (hc : J c) (hx : exec x ⟨s, c⟩ = (.ok a, σ)) :
    ∃ ρ' b t', exec y ⟨t, c⟩ = (.ok b, ⟨t', σ.context⟩) ∧ Evolves ρ s t ρ' σ.store t'
      ∧ J σ.context ∧ Q ρ' a b := by
  rcases @outcomes _ _ _ _ _ _ _ _ _ h ⟨s, c⟩ ⟨t, c⟩ hs rfl hc with
    ⟨e, σ', τ', hx', -⟩ | ⟨a', b, σ', ⟨t', c'⟩, ρ', hx', hy, hρ, hcontext, hJ, hQ⟩
  · rw [hx] at hx'
    cases hx'
  · rw [hx] at hx'
    cases hx'
    obtain rfl : c' = σ.context := hcontext
    exact ⟨ρ', b, t', hy, hρ, hJ, hQ⟩

end Alike
end ArrayLang.Run
