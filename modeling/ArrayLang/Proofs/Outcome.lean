import Mathlib.Data.List.Forall2

/-!
# Computations that may fail

When a computation made of several that may fail gives a result, what holds of the result, and when
two of them have like outcomes.
-/

namespace ArrayLang.Outcome

variable {ε α β : Type}

theorem bind_eq_ok {x : Except ε α} {f : α → Except ε β} {b : β} :
    (x >>= f) = .ok b ↔ ∃ a, x = .ok a ∧ f a = .ok b := by
  cases x with
  | error e =>
    constructor
    · intro h
      cases h
    · rintro ⟨_, h, _⟩
      cases h
  | ok a =>
    constructor
    · exact fun h => ⟨a, rfl, h⟩
    · rintro ⟨_, h, hb⟩
      cases h
      exact hb

theorem then_eq_ok {x y : Except ε Unit} : (do x; y) = .ok () ↔ x = .ok () ∧ y = .ok () := by
  rw [bind_eq_ok]
  exact ⟨fun ⟨_, hx, hy⟩ => ⟨hx, hy⟩, fun ⟨hx, hy⟩ => ⟨(), hx, hy⟩⟩

theorem forM_eq_ok {l : List α} {f : α → Except ε Unit} :
    l.forM f = .ok () ↔ ∀ a ∈ l, f a = .ok () := by
  induction l with
  | nil => exact ⟨fun _ _ h => (List.not_mem_nil h).elim, fun _ => rfl⟩
  | cons a l ih =>
    show (do f a; l.forM f) = .ok () ↔ _
    rw [then_eq_ok, ih, List.forall_mem_cons]

theorem map_eq_ok {x : Except ε α} {f : α → β} {b : β} :
    (do return f (← x) : Except ε β) = .ok b ↔ ∃ a, x = .ok a ∧ f a = b := by
  rw [bind_eq_ok]
  refine exists_congr fun a => and_congr_right fun _ => ?_
  exact ⟨fun h => by cases h; rfl, fun h => congrArg _ h⟩

theorem mapM_eq_ok {l : List α} {f : α → Except ε β} {bs : List β} :
    l.mapM f = .ok bs ↔ List.Forall₂ (fun a b => f a = .ok b) l bs := by
  induction l generalizing bs with
  | nil =>
    rw [List.mapM_nil, List.forall₂_nil_left_iff]
    exact ⟨fun h => by cases h; rfl, fun h => by rw [h]; rfl⟩
  | cons a l ih =>
    rw [List.mapM_cons, bind_eq_ok]
    constructor
    · rintro ⟨b, hb, h⟩
      obtain ⟨rest, hrest, rfl⟩ := map_eq_ok.1 h
      exact .cons hb (ih.1 hrest)
    · intro h
      cases h with
      | cons hb hrest => exact ⟨_, hb, map_eq_ok.2 ⟨_, ih.2 hrest, rfl⟩⟩

theorem mapM_eq_ok_map {l : List α} {f : α → Except ε β} {g : α → β}
    (h : ∀ a ∈ l, f a = .ok (g a)) : l.mapM f = .ok (l.map g) := by
  rw [mapM_eq_ok, List.forall₂_map_right_iff, List.forall₂_same]
  exact h

theorem mapM_eq_some {l : List α} {f : α → Option β} {bs : List β} :
    l.mapM f = some bs ↔ List.Forall₂ (fun a b => f a = some b) l bs := by
  induction l generalizing bs with
  | nil =>
    rw [List.mapM_nil, List.forall₂_nil_left_iff]
    exact ⟨fun h => by cases h; rfl, fun h => by rw [h]; rfl⟩
  | cons a l ih =>
    rw [List.mapM_cons]
    constructor
    · intro h
      obtain ⟨b, hb, h⟩ := Option.bind_eq_some_iff.1 h
      obtain ⟨rest, hrest, h⟩ := Option.bind_eq_some_iff.1 h
      cases h
      exact .cons hb (ih.1 hrest)
    · intro h
      cases h with
      | cons hb hrest =>
        rw [hb, ih.2 hrest]
        rfl

theorem mapM_eq_some_map {l : List α} {f : α → Option β} {g : α → β}
    (h : ∀ a ∈ l, f a = some (g a)) : l.mapM f = some (l.map g) := by
  rw [mapM_eq_some, List.forall₂_map_right_iff, List.forall₂_same]
  exact h

/-- Several computations that can fail for one reason only fail for it if one of them does. -/
theorem mapM_eq_error {l : List α} {f : α → Except ε β} {e : ε}
    (honly : ∀ a ∈ l, ∀ e', f a = .error e' → e' = e) (h : ∃ a ∈ l, f a = .error e) :
    l.mapM f = .error e := by
  induction l with
  | nil =>
    obtain ⟨a, ha, -⟩ := h
    exact absurd ha List.not_mem_nil
  | cons a l ih =>
    obtain ⟨ha, hl⟩ := List.forall_mem_cons.1 honly
    rw [List.mapM_cons]
    cases hf : f a with
    | error e' =>
      obtain rfl := ha e' hf
      rfl
    | ok b =>
      have hrest : ∃ a ∈ l, f a = .error e := by
        obtain ⟨a', ha', he⟩ := h
        rcases List.mem_cons.1 ha' with rfl | ha'
        · rw [hf] at he
          cases he
        · exact ⟨a', ha', he⟩
      show (l.mapM f >>= _) = _
      rw [ih hl hrest]
      rfl

/-! ## Results -/

/-- The result, if there is one, satisfies `P`. -/
def Gives (P : α → Prop) (x : Except ε α) : Prop :=
  ∀ a, x = .ok a → P a

namespace Gives

variable {P : α → Prop} {Q : β → Prop} {x : Except ε α}

theorem ok {a : α} (h : P a) : Gives P (.ok a : Except ε α) := by
  intro a' heq
  cases heq
  exact h

theorem error (e : ε) : Gives P (.error e : Except ε α) := by
  intro a heq
  cases heq

theorem bind {f : α → Except ε β} (hx : Gives P x) (hf : ∀ a, P a → Gives Q (f a)) :
    Gives Q (x >>= f) := by
  intro b h
  obtain ⟨a, ha, hb⟩ := bind_eq_ok.1 h
  exact hf a (hx a ha) b hb

/-- What comes first need not be known. -/
theorem of_bind {f : α → Except ε β} (hf : ∀ a, Gives Q (f a)) : Gives Q (x >>= f) := by
  intro b h
  obtain ⟨a, -, hb⟩ := bind_eq_ok.1 h
  exact hf a b hb

theorem map {f : α → β} (hx : Gives P x) (hf : ∀ a, P a → Q (f a)) : Gives Q (x.map f) := by
  intro b h
  cases x with
  | error e => cases h
  | ok a =>
    cases h
    exact hf a (hx a rfl)

theorem mapM {f : α → Except ε β} {l : List α} (hf : ∀ a ∈ l, Gives Q (f a)) :
    Gives (fun bs => ∀ b ∈ bs, Q b) (l.mapM f) := by
  induction l with
  | nil => exact ok fun b hb => (List.not_mem_nil hb).elim
  | cons a l ih =>
    rw [List.mapM_cons]
    refine (hf a List.mem_cons_self).bind fun b hb => ?_
    refine (ih fun a ha => hf a (List.mem_cons_of_mem _ ha)).bind fun bs hbs => ?_
    exact ok (List.forall_mem_cons.2 ⟨hb, hbs⟩)

theorem foldlM {f : β → α → Except ε β} {l : List α} (hf : ∀ b, ∀ a ∈ l, Q b → Gives Q (f b a))
    {b : β} (hb : Q b) : Gives Q (l.foldlM f b) := by
  induction l generalizing b with
  | nil => exact ok hb
  | cons a l ih =>
    rw [List.foldlM_cons]
    refine (hf b a List.mem_cons_self hb).bind fun b' hb' => ?_
    exact ih (fun b a ha => hf b a (List.mem_cons_of_mem _ ha)) hb'

end Gives

/-! ## Like outcomes -/

/-- Both give results that are related, or both fail for the same reason. -/
inductive Alike (Q : α → β → Prop) : Except ε α → Except ε β → Prop
  | ok {a : α} {b : β} (h : Q a b) : Alike Q (.ok a) (.ok b)
  | error (e : ε) : Alike Q (.error e) (.error e)

namespace Alike

variable {α' β' ε' : Type} {P Q : α → β → Prop} {R : α' → β' → Prop} {x : Except ε α}
  {y : Except ε β}

theorem mono (h : Alike P x y) (hPQ : ∀ a b, P a b → Q a b) : Alike Q x y := by
  cases h with
  | ok h => exact .ok (hPQ _ _ h)
  | error e => exact .error e

theorem bind {f : α → Except ε α'} {g : β → Except ε β'} (h : Alike P x y)
    (hf : ∀ a b, P a b → Alike R (f a) (g b)) : Alike R (x >>= f) (y >>= g) := by
  cases h with
  | ok h => exact hf _ _ h
  | error e => exact .error e

theorem map {f : α → α'} {g : β → β'} (h : Alike P x y) (hf : ∀ a b, P a b → R (f a) (g b)) :
    Alike R (x.map f) (y.map g) := by
  cases h with
  | ok h => exact .ok (hf _ _ h)
  | error e => exact .error e

theorem mapError (f : ε → ε') (h : Alike Q x y) : Alike Q (x.mapError f) (y.mapError f) := by
  cases h with
  | ok h => exact .ok h
  | error e => exact .error (f e)

/-- An outcome is like itself when its result is related to itself. -/
theorem refl {Q : α → α → Prop} (x : Except ε α) (h : ∀ a, x = .ok a → Q a a) : Alike Q x x := by
  cases x with
  | ok a => exact .ok (h a rfl)
  | error e => exact .error e

theorem mapM {f : α → Except ε α'} {g : β → Except ε β'} {as : List α} {bs : List β}
    (h : List.Forall₂ Q as bs) (hf : ∀ a b, Q a b → Alike R (f a) (g b)) :
    Alike (List.Forall₂ R) (as.mapM f) (bs.mapM g) := by
  induction h with
  | nil => exact .ok .nil
  | cons hab _ ih =>
    rw [List.mapM_cons, List.mapM_cons]
    exact (hf _ _ hab).bind fun _ _ h => ih.bind fun _ _ hs => .ok (.cons h hs)

end Alike
end ArrayLang.Outcome
