import ArrayLang.Array.View
import Mathlib.Order.Basic

/-!
# Paired storage

Two stores may hold the same arrays under different block numbers. A pairing says which blocks of one
stand for which blocks of the other; paired blocks have the same cells. Reading through paired views
gives the same elements. Writing the same through them, and making the same blocks, keeps the stores
paired and leaves all other blocks alone.
-/

namespace ArrayLang

/-! ## What changes in a store -/

/-- Between two states of a store only blocks that satisfy `p` have changed, and blocks were added. -/
structure Store.TouchesOnly (p : Nat → Prop) (s s' : Store) : Prop where
  size : s.blocks.size ≤ s'.blocks.size
  frame : ∀ b < s.blocks.size, ¬p b → s'.blocks[b]? = s.blocks[b]?

namespace Store.TouchesOnly

variable {p q : Nat → Prop} {s s' s'' : Store}

theorem refl (p : Nat → Prop) (s : Store) : TouchesOnly p s s :=
  ⟨Nat.le_refl _, fun _ _ _ => rfl⟩

/-- What the second change touches must be new or touched by the first. -/
theorem trans (h : TouchesOnly p s s') (h' : TouchesOnly q s' s'')
    (hq : ∀ b < s.blocks.size, q b → p b) : TouchesOnly p s s'' := by
  refine ⟨Nat.le_trans h.size h'.size, fun b hb hp => ?_⟩
  have hkept := h'.frame b (Nat.lt_of_lt_of_le hb h.size) fun hqb => hp (hq b hb hqb)
  rw [hkept, h.frame b hb hp]

theorem mono (h : TouchesOnly p s s') (hpq : ∀ b, p b → q b) : TouchesOnly q s s' :=
  ⟨h.size, fun b hb hq => h.frame b hb fun hp => hq (hpq b hp)⟩

theorem modify {b : Nat} (hb : p b) (f : Array Scalar → Array Scalar) :
    TouchesOnly p s ⟨s.blocks.modify b f⟩ := by
  refine ⟨Nat.le_of_eq Array.size_modify.symm, fun b' _ hp => ?_⟩
  have hne : b ≠ b' := fun heq => hp (heq ▸ hb)
  exact Array.getElem?_modify.trans (if_neg hne)

theorem alloc (p : Nat → Prop) (s : Store) (cells : Array Scalar) :
    TouchesOnly p s (s.alloc cells).2 := by
  refine ⟨?_, fun b hb _ => ?_⟩
  · show s.blocks.size ≤ (s.blocks.push cells).size
    rw [Array.size_push]
    omega
  · show (s.blocks.push cells)[b]? = s.blocks[b]?
    rw [Array.getElem?_push, if_neg (Nat.ne_of_lt hb)]

end Store.TouchesOnly

/-! ## Pairings -/

/-- Which blocks of one store stand for which blocks of another. -/
abbrev Pairing := Nat → Nat → Prop

namespace Pairing

variable {ρ ρ' ρ'' : Pairing} {s s' s'' t t' t'' : Store} {b c : Nat}

/-- The paired blocks of the first store. -/
def Left (ρ : Pairing) (b : Nat) : Prop :=
  ∃ c, ρ b c

/-- The paired blocks of the second store. -/
def Right (ρ : Pairing) (c : Nat) : Prop :=
  ∃ b, ρ b c

/-- No block is paired. -/
def empty : Pairing :=
  fun _ _ => False

/-- The pairing with a further pair. -/
def add (ρ : Pairing) (b c : Nat) : Pairing :=
  fun b' c' => ρ b' c' ∨ b' = b ∧ c' = c

/-- The pairs of two pairings. -/
def union (ρ τ : Pairing) : Pairing :=
  fun b c => ρ b c ∨ τ b c

/-- The pairs of a pairing that are not among those of another. -/
def without (ρ ρ₀ : Pairing) : Pairing :=
  fun b c => ρ b c ∧ ¬ρ₀ b c

/-- The pairs whose blocks in the first store satisfy `p`. -/
def on (ρ : Pairing) (p : Nat → Prop) : Pairing :=
  fun b c => ρ b c ∧ p b

/-- No block is paired with two. -/
structure OneToOne (ρ : Pairing) : Prop where
  left {b b' c : Nat} (h : ρ b c) (h' : ρ b' c) : b = b'
  right {b c c' : Nat} (h : ρ b c) (h' : ρ b c') : c = c'

/-- The pairing is one-to-one, and paired blocks exist and have the same cells. -/
structure Matches (ρ : Pairing) (s t : Store) : Prop extends OneToOne ρ where
  cells {b c : Nat} (h : ρ b c) : ∃ cells, s.blocks[b]? = some cells ∧ t.blocks[c]? = some cells

theorem empty_matches (s t : Store) : empty.Matches s t :=
  ⟨⟨fun h => h.elim, fun h => h.elim⟩, fun h => h.elim⟩

namespace Matches

theorem lt_left (h : ρ.Matches s t) (hb : ρ b c) : b < s.blocks.size := by
  obtain ⟨cells, hs, -⟩ := h.cells hb
  exact (Array.getElem?_eq_some_iff.1 hs).1

theorem lt_right (h : ρ.Matches s t) (hb : ρ b c) : c < t.blocks.size := by
  obtain ⟨cells, -, ht⟩ := h.cells hb
  exact (Array.getElem?_eq_some_iff.1 ht).1

/-- What touches no paired block keeps the stores paired. -/
theorem of_touches {p q : Nat → Prop} (h : ρ.Matches s t) (hs : s.TouchesOnly p s')
    (ht : t.TouchesOnly q t') (hp : ∀ b, ρ.Left b → ¬p b) (hq : ∀ c, ρ.Right c → ¬q c) :
    ρ.Matches s' t' where
  left := h.left
  right := h.right
  cells {b c} hb := by
    obtain ⟨cells, hsb, htc⟩ := h.cells hb
    refine ⟨cells, ?_, ?_⟩
    · rw [hs.frame b (h.lt_left hb) (hp b ⟨c, hb⟩)]
      exact hsb
    · rw [ht.frame c (h.lt_right hb) (hq c ⟨b, hb⟩)]
      exact htc

theorem mono (h : ρ'.Matches s t) (hle : ρ ≤ ρ') : ρ.Matches s t where
  left hb hb' := h.left (hle _ _ hb) (hle _ _ hb')
  right hb hb' := h.right (hle _ _ hb) (hle _ _ hb')
  cells hb := h.cells (hle _ _ hb)

theorem read (h : ρ.Matches s t) (hb : ρ b c) (i : Nat) : t.read c i = s.read b i := by
  obtain ⟨cells, hs, ht⟩ := h.cells hb
  unfold Store.read
  rw [hs, ht]

end Matches

/-! ## Steps of two stores -/

/-- Blocks are paired with themselves only, and both stores give the next block the same number. -/
structure Diagonal (ρ : Pairing) (s t : Store) : Prop where
  size : t.blocks.size = s.blocks.size
  eq {b c : Nat} (h : ρ b c) : c = b

/-- Two stores have changed alike: pairs are kept and new ones relate new blocks only, and blocks
that are not paired have not changed. Stores that number their blocks alike go on doing so. -/
structure Evolves (ρ : Pairing) (s t : Store) (ρ' : Pairing) (s' t' : Store) : Prop where
  le : ρ ≤ ρ'
  fresh : ∀ b c, ρ' b c → ρ b c ∨ s.blocks.size ≤ b ∧ t.blocks.size ≤ c
  stores : ρ'.Matches s' t'
  left : s.TouchesOnly ρ.Left s'
  right : t.TouchesOnly ρ.Right t'
  diagonal : ρ.Diagonal s t → ρ'.Diagonal s' t'

namespace Evolves

theorem refl (h : ρ.Matches s t) : Evolves ρ s t ρ s t :=
  ⟨le_refl ρ, fun _ _ hb => .inl hb, h, .refl _ _, .refl _ _, id⟩

theorem trans (h : Evolves ρ s t ρ' s' t') (h' : Evolves ρ' s' t' ρ'' s'' t'') :
    Evolves ρ s t ρ'' s'' t'' := by
  have hleft := h.left.size
  have hright := h.right.size
  refine ⟨le_trans h.le h'.le, fun b c hb => ?_, h'.stores, h.left.trans h'.left ?_,
    h.right.trans h'.right ?_, fun hd => h'.diagonal (h.diagonal hd)⟩
  · rcases h'.fresh b c hb with hb | hb
    · exact h.fresh b c hb
    · omega
  · rintro b hlt ⟨c, hb⟩
    rcases h.fresh b c hb with hb | hb
    · exact ⟨c, hb⟩
    · omega
  · rintro c hlt ⟨b, hb⟩
    rcases h.fresh b c hb with hb | hb
    · exact ⟨b, hb⟩
    · omega

/-- Changing paired blocks in the same way. -/
theorem modify (h : ρ.Matches s t) (hb : ρ b c) (f : Array Scalar → Array Scalar) :
    Evolves ρ s t ρ ⟨s.blocks.modify b f⟩ ⟨t.blocks.modify c f⟩ := by
  have hdiagonal (hd : ρ.Diagonal s t) :
      ρ.Diagonal ⟨s.blocks.modify b f⟩ ⟨t.blocks.modify c f⟩ :=
    ⟨Array.size_modify.trans (hd.size.trans Array.size_modify.symm), hd.eq⟩
  refine ⟨le_refl ρ, fun _ _ hb => .inl hb, ⟨⟨h.left, h.right⟩, fun {b' c'} hb' => ?_⟩,
    .modify ⟨c, hb⟩ f, .modify ⟨b, hb⟩ f, hdiagonal⟩
  obtain ⟨cells, hs, ht⟩ := h.cells hb'
  by_cases heq : b = b'
  · subst heq
    obtain rfl := h.right hb hb'
    refine ⟨f cells, ?_, ?_⟩
    · rw [Array.getElem?_modify, if_pos rfl, hs]
      rfl
    · rw [Array.getElem?_modify, if_pos rfl, ht]
      rfl
  · have hne : c ≠ c' := fun hc => heq (h.left hb (hc ▸ hb'))
    exact ⟨cells, (Array.getElem?_modify.trans (if_neg heq)).trans hs,
      (Array.getElem?_modify.trans (if_neg hne)).trans ht⟩

/-- Adding the same block to both stores. -/
theorem alloc (h : ρ.Matches s t) (cells : Array Scalar) :
    Evolves ρ s t (ρ.add (s.alloc cells).1 (t.alloc cells).1) (s.alloc cells).2
      (t.alloc cells).2 := by
  have hdiagonal (hd : ρ.Diagonal s t) :
      (ρ.add s.blocks.size t.blocks.size).Diagonal (s.alloc cells).2 (t.alloc cells).2 := by
    refine ⟨?_, fun {b c} hb => ?_⟩
    · show (t.blocks.push cells).size = (s.blocks.push cells).size
      rw [Array.size_push, Array.size_push, hd.size]
    · rcases hb with hb | ⟨rfl, rfl⟩
      · exact hd.eq hb
      · exact hd.size
  refine ⟨fun _ _ hb => .inl hb, fun b c hb => ?_, ⟨⟨?_, ?_⟩, ?_⟩, .alloc _ _ _, .alloc _ _ _,
    hdiagonal⟩
  · rcases hb with hb | ⟨rfl, rfl⟩
    · exact .inl hb
    · exact .inr ⟨Nat.le_refl _, Nat.le_refl _⟩
  · rintro b b' c (hb | ⟨rfl, rfl⟩) (hb' | ⟨rfl, hc⟩)
    · exact h.left hb hb'
    · exact absurd (h.lt_right hb) (hc ▸ Nat.lt_irrefl _)
    · exact absurd (h.lt_right hb') (Nat.lt_irrefl _)
    · rfl
  · rintro b c c' (hb | ⟨rfl, rfl⟩) (hb' | ⟨hb', rfl⟩)
    · exact h.right hb hb'
    · exact absurd (h.lt_left hb) (hb' ▸ Nat.lt_irrefl _)
    · exact absurd (h.lt_left hb') (Nat.lt_irrefl _)
    · rfl
  · rintro b c (hb | ⟨rfl, rfl⟩)
    · obtain ⟨old, hs, ht⟩ := h.cells hb
      refine ⟨old, ?_, ?_⟩
      · rw [(Store.TouchesOnly.alloc (fun _ => False) s cells).frame b (h.lt_left hb) id]
        exact hs
      · rw [(Store.TouchesOnly.alloc (fun _ => False) t cells).frame c (h.lt_right hb) id]
        exact ht
    · exact ⟨cells, Array.getElem?_push_size, Array.getElem?_push_size⟩

end Evolves

/-! ## Storage that is not paired -/

/-- The blocks that are there and are not paired. -/
def apart (ρ : Pairing) (s t : Store) : Pairing :=
  fun b c => (b < s.blocks.size ∧ ¬ρ.Left b) ∧ c < t.blocks.size ∧ ¬ρ.Right c

/-- New pairs are made of new blocks, so that what was not paired stays so. -/
theorem Evolves.apart_le (h : Evolves ρ s t ρ' s' t') : ρ.apart s t ≤ ρ'.apart s' t' := by
  rintro b c ⟨⟨hb, hleft⟩, hc, hright⟩
  refine ⟨⟨Nat.lt_of_lt_of_le hb h.left.size, ?_⟩, Nat.lt_of_lt_of_le hc h.right.size, ?_⟩
  · rintro ⟨c', hbc⟩
    rcases h.fresh b c' hbc with hold | ⟨hnew, -⟩
    · exact hleft ⟨c', hold⟩
    · omega
  · rintro ⟨b', hbc⟩
    rcases h.fresh b' c hbc with hold | ⟨-, hnew⟩
    · exact hright ⟨b', hold⟩
    · omega

/-- Storage that is apart and paired itself makes up a larger pairing. -/
theorem Matches.union {τ : Pairing} (h : ρ.Matches s t) (h' : τ.Matches s t)
    (hτ : τ ≤ ρ.apart s t) : (ρ.union τ).Matches s t where
  left {b b' c} hb hb' := by
    rcases hb with hb | hb <;> rcases hb' with hb' | hb'
    · exact h.left hb hb'
    · exact absurd ⟨b, hb⟩ (hτ _ _ hb').2.2
    · exact absurd ⟨b', hb'⟩ (hτ _ _ hb).2.2
    · exact h'.left hb hb'
  right {b c c'} hb hb' := by
    rcases hb with hb | hb <;> rcases hb' with hb' | hb'
    · exact h.right hb hb'
    · exact absurd ⟨c, hb⟩ (hτ _ _ hb').1.2
    · exact absurd ⟨c', hb'⟩ (hτ _ _ hb).1.2
    · exact h'.right hb hb'
  cells {b c} hb := by
    rcases hb with hb | hb
    · exact h.cells hb
    · exact h'.cells hb

/-- New pairs are apart from the old ones. -/
theorem Evolves.without_le_apart (h : Evolves ρ s t ρ' s' t') : ρ'.without ρ ≤ ρ.apart s' t' := by
  rintro b c ⟨hbc, hnot⟩
  refine ⟨⟨h.stores.lt_left hbc, ?_⟩, h.stores.lt_right hbc, ?_⟩
  · rintro ⟨c', hold⟩
    exact hnot (h.stores.right (h.le _ _ hold) hbc ▸ hold)
  · rintro ⟨b', hold⟩
    exact hnot (h.stores.left (h.le _ _ hold) hbc ▸ hold)

/-! ## Separate changes -/

/-- The pairs of `α` may be extended by pairs of blocks that `ρ` does not pair. -/
theorem OneToOne.extend {α α' : Pairing} (hρ : ρ.OneToOne) (hα' : α'.OneToOne) (hα : α ≤ ρ)
    (hnew : ∀ b c, α' b c → α b c ∨ ¬ρ.Left b ∧ ¬ρ.Right c) :
    (α'.union (ρ.without α)).OneToOne where
  left {b b' c} hb hb' := by
    rcases hb with hb | hb <;> rcases hb' with hb' | hb'
    · exact hα'.left hb hb'
    · exact (hnew b c hb).elim (fun hold => hρ.left (hα b c hold) hb'.1)
        fun hfresh => absurd ⟨b', hb'.1⟩ hfresh.2
    · exact (hnew b' c hb').elim (fun hold => hρ.left hb.1 (hα b' c hold))
        fun hfresh => absurd ⟨b, hb.1⟩ hfresh.2
    · exact hρ.left hb.1 hb'.1
  right {b c c'} hb hb' := by
    rcases hb with hb | hb <;> rcases hb' with hb' | hb'
    · exact hα'.right hb hb'
    · exact (hnew b c hb).elim (fun hold => hρ.right (hα b c hold) hb'.1)
        fun hfresh => absurd ⟨c', hb'.1⟩ hfresh.1
    · exact (hnew b c' hb').elim (fun hold => hρ.right hb.1 (hα b c' hold))
        fun hfresh => absurd ⟨c, hb.1⟩ hfresh.1
    · exact hρ.right hb.1 hb'.1

/-- Two changes to separate storage may be made in either order. From stores that `ρ` pairs, the first
store changes in the storage of `α` and then in that of `τ`, and the second store changes the other way
round. Then all that `ρ` pairs is paired again, and so is what the first change has made. -/
theorem Matches.interchange {α α' τ τ' : Pairing} (h : ρ.Matches s t) (hα : α ≤ ρ) (hτ : τ ≤ ρ)
    (hapart : ∀ b, α.Left b → ¬τ.Left b) (h₁ : Evolves α s t' α' s' t'')
    (h₂ : Evolves τ s' t τ' s'' t') : (α'.union (ρ.without α)).Matches s'' t'' := by
  have hsize := h₂.right.size
  -- What the first change pairs is among its old pairs, or lies in blocks that `ρ` does not reach.
  have hnew (b c : Nat) (hbc : α' b c) : α b c ∨ ¬ρ.Left b ∧ ¬ρ.Right c := by
    refine (h₁.fresh b c hbc).imp_right fun hfresh => ⟨?_, ?_⟩
    · rintro ⟨c', hbc'⟩
      exact absurd (h.lt_left hbc') (Nat.not_lt.2 hfresh.1)
    · rintro ⟨b', hbc'⟩
      exact absurd (h.lt_right hbc') (Nat.not_lt.2 (Nat.le_trans hsize hfresh.2))
  refine ⟨h.toOneToOne.extend h₁.stores.toOneToOne hα hnew, ?_⟩
  rintro b c (hbc | ⟨hbc, hnot⟩)
  -- The second change leaves the storage of the first one alone.
  · obtain ⟨cells, hs, ht⟩ := h₁.stores.cells hbc
    have hb : ¬τ.Left b := by
      rintro ⟨c', hbc'⟩
      rcases hnew b c hbc with hold | hfresh
      · exact hapart b ⟨c, hold⟩ ⟨c', hbc'⟩
      · exact hfresh.1 ⟨c', hτ b c' hbc'⟩
    refine ⟨cells, ?_, ht⟩
    rw [h₂.left.frame b (h₁.stores.lt_left hbc) hb]
    exact hs
  -- Of the other pairs, either the second change knows of both blocks or neither change does.
  · have hb : ¬α.Left b := fun ⟨c', hbc'⟩ => hnot (h.right (hα b c' hbc') hbc ▸ hbc')
    have hc : ¬α.Right c := fun ⟨b', hbc'⟩ => hnot (h.left (hα b' c hbc') hbc ▸ hbc')
    by_cases hpair : τ b c
    · have hbc' := h₂.le b c hpair
      obtain ⟨cells, hs, ht⟩ := h₂.stores.cells hbc'
      refine ⟨cells, hs, ?_⟩
      rw [h₁.right.frame c (h₂.stores.lt_right hbc') hc]
      exact ht
    · have hb' : ¬τ.Left b := fun ⟨c', hbc'⟩ => hpair (h.right (hτ b c' hbc') hbc ▸ hbc')
      have hc' : ¬τ.Right c := fun ⟨b', hbc'⟩ => hpair (h.left (hτ b' c hbc') hbc ▸ hbc')
      have hlt := h.lt_left hbc
      have hlt' := h.lt_right hbc
      obtain ⟨cells, hs, ht⟩ := h.cells hbc
      refine ⟨cells, ?_, ?_⟩
      · rw [h₂.left.frame b (Nat.lt_of_lt_of_le hlt h₁.left.size) hb', h₁.left.frame b hlt hb]
        exact hs
      · rw [h₁.right.frame c (Nat.lt_of_lt_of_le hlt' hsize) hc, h₂.right.frame c hlt' hc']
        exact ht

end Pairing
end ArrayLang
