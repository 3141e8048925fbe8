import ArrayLang.Proofs.Storage.Run

/-!
# One run follows another

A computation follows another when it succeeds wherever the other does, ends in the same context, and
related stores and results stay related. Nothing is said where the first one fails.
-/

namespace ArrayLang.Run

open Pairing

variable {κ ε α α' β β' : Type} {J : κ → Prop} {ρ : Pairing} {P P' : Store → Store → Prop}

/-- Wherever `x` succeeds on stores related by `P`, so does `y`, and the pairing grows to one under
which results and stores are related by `Q`. -/
def Follows (J : κ → Prop) (ρ : Pairing) (P : Store → Store → Prop)
    (Q : Pairing → α → β → Store → Store → Prop) (x : Run κ ε α) (y : Run κ ε β) : Prop :=
  ∀ s t c a σ, P s t → J c → exec x ⟨s, c⟩ = (.ok a, σ) → J σ.context ∧ ∃ ρ' b t',
    exec y ⟨t, c⟩ = (.ok b, ⟨t', σ.context⟩) ∧ ρ ≤ ρ' ∧ Q ρ' a b σ.store t'

namespace Follows

variable {Q R : Pairing → α → β → Store → Store → Prop} {x : Run κ ε α} {y : Run κ ε β}

theorem mono (h : Follows J ρ P Q x y)
    (hQR : ∀ ρ' a b s t, ρ ≤ ρ' → Q ρ' a b s t → R ρ' a b s t) : Follows J ρ P R x y := by
  intro s t c a σ hs hc hx
  obtain ⟨hJ, ρ', b, t', hy, hle, hQ⟩ := h s t c a σ hs hc hx
  exact ⟨hJ, ρ', b, t', hy, hle, hQR ρ' a b _ _ hle hQ⟩

/-- The relation of the stores may be looked at first. -/
theorem of_pre (h : ∀ s t, P s t → Follows J ρ (fun s' t' => s' = s ∧ t' = t) Q x y) :
    Follows J ρ P Q x y :=
  fun s t c a σ hs => h s t hs s t c a σ ⟨rfl, rfl⟩

theorem bind {S : Pairing → α' → β' → Store → Store → Prop} {f : α → Run κ ε α'}
    {g : β → Run κ ε β'} (hx : Follows J ρ P Q x y)
    (hf : ∀ ρ' a b, ρ ≤ ρ' → Follows J ρ' (Q ρ' a b) S (f a) (g b)) :
    Follows J ρ P S (x >>= f) (y >>= g) := by
  intro s t c a' σ'' hs hc h
  obtain ⟨a, ⟨s', c'⟩, hxa, hfa⟩ := exec_bind_eq_ok h
  obtain ⟨hJ, ρ', b, t', hy, hle, hQ⟩ := hx s t c a _ hs hc hxa
  obtain ⟨hJ', ρ'', b', t'', hg, hle', hS⟩ := hf ρ' a b hle s' t' c' a' σ'' hQ hJ hfa
  refine ⟨hJ', ρ'', b', t'', ?_, le_trans hle hle', hS⟩
  rw [exec_bind_ok hy]
  exact hg

/-- The same when what is known of the results does not depend on the stores. -/
theorem bind_and {I : Pairing → Store → Store → Prop} {V : Pairing → α → β → Prop}
    {S : Pairing → α' → β' → Store → Store → Prop} {f : α → Run κ ε α'} {g : β → Run κ ε β'}
    (hx : Follows J ρ P (fun ρ' a b s t => I ρ' s t ∧ V ρ' a b) x y)
    (hf : ∀ ρ' a b, ρ ≤ ρ' → V ρ' a b → Follows J ρ' (I ρ') S (f a) (g b)) :
    Follows J ρ P S (x >>= f) (y >>= g) :=
  hx.bind fun ρ' a b hle s t c a' σ hs => hf ρ' a b hle hs.2 s t c a' σ hs.1

theorem pure {a : α} {b : β} (h : ∀ s t, P s t → Q ρ a b s t) :
    Follows J ρ P Q (Pure.pure a : Run κ ε α) (Pure.pure b) := by
  intro s t c a' σ hs hc hx
  cases hx
  exact ⟨hc, ρ, b, t, rfl, le_refl ρ, h s t hs⟩

/-- Nothing has to be shown where the first computation fails. -/
theorem throw (e : ε) : Follows J ρ P Q (throw e : Run κ ε α) y := by
  intro s t c a σ _ _ hx
  cases hx

theorem ite {p : Prop} [Decidable p] {x' : Run κ ε α} {y' : Run κ ε β} (h : Follows J ρ P Q x y)
    (h' : Follows J ρ P Q x' y') :
    Follows J ρ P Q (if p then x else x') (if p then y else y') := by
  split
  · exact h
  · exact h'

/-- What follows may look at the stores. -/
theorem getStore_bind {f : Store → Run κ ε α} {g : Store → Run κ ε β}
    (h : ∀ s t, P s t → Follows J ρ (fun s' t' => s' = s ∧ t' = t) Q (f s) (g t)) :
    Follows J ρ P Q (getStore >>= f) (getStore >>= g) :=
  fun s t c a σ hs => h s t hs s t c a σ ⟨rfl, rfl⟩

theorem ofExcept {ε' : Type} (raise : ε' → ε) {r : Except ε' α} {r' : Except ε' β}
    (h : ∀ s t a, P s t → r = .ok a → ∃ b, r' = .ok b ∧ Q ρ a b s t) :
    Follows J ρ P Q (ofExcept raise r : Run κ ε α) (ofExcept raise r') := by
  intro s t c a σ hs hc hx
  rw [exec_ofExcept] at hx
  cases r with
  | error e => cases hx
  | ok a =>
    cases hx
    obtain ⟨b, rfl, hQ⟩ := h s t a hs rfl
    exact ⟨hc, ρ, b, t, rfl, le_refl ρ, hQ⟩

theorem attempt {ε' : Type} (raise : ε' → ε) {plan : Store → Except ε' (Store → α × Store)}
    {plan' : Store → Except ε' (Store → β × Store)}
    (h : ∀ s t f, P s t → plan s = .ok f →
      ∃ g, plan' t = .ok g ∧ Q ρ (f s).1 (g t).1 (f s).2 (g t).2) :
    Follows J ρ P Q (attempt raise plan : Run κ ε α) (attempt raise plan') := by
  intro s t c a σ hs hc hx
  rw [exec_attempt] at hx
  dsimp only at hx
  cases hplan : plan s with
  | error e =>
    rw [hplan] at hx
    cases hx
  | ok f =>
    rw [hplan] at hx
    cases hx
    obtain ⟨g, hplan', hQ⟩ := h s t f hs hplan
    refine ⟨hc, ρ, (g t).1, (g t).2, ?_, le_refl ρ, hQ⟩
    rw [exec_attempt]
    dsimp only
    rw [hplan']

/-- What is alike on paired parts of the stores follows, whatever else is known of the stores. -/
theorem of_alike {τ : Pairing} {R : Pairing → α → β → Prop} (h : Alike J τ R x y)
    (hP : ∀ s t, P s t → τ.Matches s t)
    (hQ : ∀ s t τ' s' t' a b, P s t → Evolves τ s t τ' s' t' → R τ' a b →
      ∃ ρ', ρ ≤ ρ' ∧ Q ρ' a b s' t') : Follows J ρ P Q x y := by
  intro s t c a σ hs hc hx
  obtain ⟨τ', b, t', hy, hτ, hJ, hR⟩ := h.succeeds (hP s t hs) hc hx
  obtain ⟨ρ', hle, hQ⟩ := hQ s t τ' σ.store t' a b hs hτ hR
  exact ⟨hJ, ρ', b, t', hy, hle, hQ⟩

end Follows

/-- What is alike on paired stores follows. -/
theorem Alike.follows {R : Pairing → α → β → Prop} {x : Run κ ε α} {y : Run κ ε β}
    (h : Alike J ρ R x y) :
    Follows J ρ ρ.Matches (fun ρ' a b s t => ρ'.Matches s t ∧ R ρ' a b) x y :=
  .of_alike h (fun _ _ hs => hs) fun _ _ ρ' _ _ _ _ _ hρ hR => ⟨ρ', hρ.le, hρ.stores, hR⟩

end ArrayLang.Run
