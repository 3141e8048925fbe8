import ArrayLang.Proofs.Storage.Run

/-!
# Confined computations

A computation that is alike to itself on some blocks is confined to them: it changes no other block
that is there, and its value lies in these blocks and in new ones.
-/

namespace ArrayLang

/-! ## The storage of a value -/

mutual
/-- The blocks that the arrays in a value lie in. -/
def Value.blocks : Value → List Nat
  | .array v => [v.block]
  | .tuple items => blocksAll items
  | .struct _ fields => blocksFields fields
  | .closure _ fixed => blocksAll fixed
  | .host _ _ captured => blocksAll captured
  | _ => []
termination_by structural v => v

def Value.blocksAll : List Value → List Nat
  | [] => []
  | v :: vs => v.blocks ++ blocksAll vs
termination_by structural vs => vs

def Value.blocksFields : List (String × Value) → List Nat
  | [] => []
  | (_, v) :: vs => v.blocks ++ blocksFields vs
termination_by structural vs => vs
end

namespace Value

theorem mem_blocksAll {b : Nat} {vs : List Value} :
    b ∈ blocksAll vs ↔ ∃ v ∈ vs, b ∈ v.blocks := by
  induction vs with
  | nil => simp [blocksAll]
  | cons v vs ih => simp [blocksAll, ih]

theorem mem_blocksAll_singleton {b : Nat} {v : Value} : b ∈ blocksAll [v] ↔ b ∈ v.blocks := by
  simp [blocksAll]

theorem blocks_ofView (s : Store) (v : View) : ∀ b ∈ (ofView s v).blocks, b = v.block := by
  intro b hb
  unfold ofView at hb
  by_cases hrank : v.rank = 0
  · rw [if_pos hrank] at hb
    cases hb
  · rw [if_neg hrank] at hb
    exact List.mem_singleton.1 hb

end Value

/-! ## Values paired with themselves -/

/-- Every block that satisfies `p` is paired with itself. -/
def Pairing.self (p : Nat → Prop) : Pairing :=
  fun b c => p b ∧ c = b

theorem Pairing.self_matches {p : Nat → Prop} {s : Store} (hp : ∀ b, p b → b < s.blocks.size) :
    (Pairing.self p).Matches s s where
  left h h' := h.2.symm.trans h'.2
  right h h' := h.2.trans h'.2.symm
  cells {b c} h := by
    obtain ⟨hb, rfl⟩ := h
    exact ⟨_, Array.getElem?_eq_getElem (hp _ hb), Array.getElem?_eq_getElem (hp _ hb)⟩

theorem Pairing.self_diagonal (p : Nat → Prop) (s : Store) : (Pairing.self p).Diagonal s s :=
  ⟨rfl, fun h => h.2⟩

namespace Value

variable {p : Nat → Prop} {ρ : Pairing}

mutual
theorem paired_self : ∀ v : Value, (∀ b ∈ v.blocks, p b) → v.Paired (.self p) v
  | .array v, h => .array ⟨h v.block List.mem_cons_self, rfl⟩
  | .tuple items, h => .tuple (pairedAll_self items h)
  | .struct name fields, h => .struct name (pairedFields_self fields h)
  | .closure func fixed, h => .closure func (pairedAll_self fixed h)
  | .host id name captured, h => .host id name (pairedAll_self captured h)
  | .none, _ => .none
  | .scalar x, _ => .scalar x
  | .slice x, _ => .slice x
  | .op o, _ => .op o
termination_by structural v => v

theorem pairedAll_self :
    ∀ vs : List Value, (∀ b ∈ blocksAll vs, p b) → PairedAll (.self p) vs vs
  | [], _ => .nil
  | v :: vs, h =>
    .cons (paired_self v fun b hb => h b (List.mem_append_left _ hb))
      (pairedAll_self vs fun b hb => h b (List.mem_append_right _ hb))
termination_by structural vs => vs

theorem pairedFields_self :
    ∀ vs : List (String × Value), (∀ b ∈ blocksFields vs, p b) → PairedFields (.self p) vs vs
  | [], _ => .nil
  | (name, v) :: vs, h =>
    .cons name (paired_self v fun b hb => h b (List.mem_append_left _ hb))
      (pairedFields_self vs fun b hb => h b (List.mem_append_right _ hb))
termination_by structural vs => vs
end

mutual
/-- A value that stands for another lies in paired blocks. -/
theorem Paired.left : ∀ {v w : Value}, v.Paired ρ w → ∀ b ∈ v.blocks, ρ.Left b
  | _, _, .array h, _, hb => List.mem_singleton.1 hb ▸ ⟨_, h⟩
  | _, _, .tuple h, b, hb => h.left b hb
  | _, _, .struct _ h, b, hb => h.left b hb
  | _, _, .closure _ h, b, hb => h.left b hb
  | _, _, .host _ _ h, b, hb => h.left b hb
termination_by structural _ _ h => h

theorem PairedAll.left :
    ∀ {as bs : List Value}, PairedAll ρ as bs → ∀ b ∈ blocksAll as, ρ.Left b
  | _, _, .cons h hs, b, hb => (List.mem_append.1 hb).elim (h.left b) (hs.left b)
termination_by structural _ _ h => h

theorem PairedFields.left :
    ∀ {as bs : List (String × Value)}, PairedFields ρ as bs → ∀ b ∈ blocksFields as, ρ.Left b
  | _, _, .cons _ h hs, b, hb => (List.mem_append.1 hb).elim (h.left b) (hs.left b)
termination_by structural _ _ h => h
end

mutual
/-- So does the other. -/
theorem Paired.right : ∀ {v w : Value}, v.Paired ρ w → ∀ c ∈ w.blocks, ρ.Right c
  | _, _, .array h, _, hc => List.mem_singleton.1 hc ▸ ⟨_, h⟩
  | _, _, .tuple h, c, hc => h.right c hc
  | _, _, .struct _ h, c, hc => h.right c hc
  | _, _, .closure _ h, c, hc => h.right c hc
  | _, _, .host _ _ h, c, hc => h.right c hc
termination_by structural _ _ h => h

theorem PairedAll.right :
    ∀ {as bs : List Value}, PairedAll ρ as bs → ∀ c ∈ blocksAll bs, ρ.Right c
  | _, _, .cons h hs, c, hc => (List.mem_append.1 hc).elim (h.right c) (hs.right c)
termination_by structural _ _ h => h

theorem PairedFields.right :
    ∀ {as bs : List (String × Value)}, PairedFields ρ as bs → ∀ c ∈ blocksFields bs, ρ.Right c
  | _, _, .cons _ h hs, c, hc => (List.mem_append.1 hc).elim (h.right c) (hs.right c)
termination_by structural _ _ h => h
end

mutual
/-- For values to stand for each other only the pairs of their own blocks matter. -/
theorem Paired.on : ∀ {v w : Value}, v.Paired ρ w → (∀ b ∈ v.blocks, p b) → v.Paired (ρ.on p) w
  | _, _, .none, _ => .none
  | _, _, .scalar x, _ => .scalar x
  | _, _, .array h, hp => .array ⟨h, hp _ List.mem_cons_self⟩
  | _, _, .tuple h, hp => .tuple (h.on hp)
  | _, _, .struct name h, hp => .struct name (h.on hp)
  | _, _, .slice x, _ => .slice x
  | _, _, .closure func h, hp => .closure func (h.on hp)
  | _, _, .op o, _ => .op o
  | _, _, .host id name h, hp => .host id name (h.on hp)
termination_by structural _ _ h => h

theorem PairedAll.on :
    ∀ {as bs : List Value}, PairedAll ρ as bs → (∀ b ∈ blocksAll as, p b) → PairedAll (ρ.on p) as bs
  | _, _, .nil, _ => .nil
  | _, _, .cons h hs, hp => .cons (h.on fun b hb => hp b (List.mem_append_left _ hb))
    (hs.on fun b hb => hp b (List.mem_append_right _ hb))
termination_by structural _ _ h => h

theorem PairedFields.on : ∀ {as bs : List (String × Value)}, PairedFields ρ as bs →
    (∀ b ∈ blocksFields as, p b) → PairedFields (ρ.on p) as bs
  | _, _, .nil, _ => .nil
  | _, _, .cons name h hs, hp => .cons name (h.on fun b hb => hp b (List.mem_append_left _ hb))
    (hs.on fun b hb => hp b (List.mem_append_right _ hb))
termination_by structural _ _ h => h
end

end Value

namespace Run

variable {κ ε α : Type} {J : κ → Prop} {p : Nat → Prop} {s : Store} {c : κ}

/-! ## What a computation changes and returns -/

/-- On stores that have the blocks of `p`, the computation changes no other block that is there and
keeps the context in `J`, whether it succeeds or not. -/
structure Confined (J : κ → Prop) (p : Nat → Prop) (x : Run κ ε α) : Prop where
  context {s : Store} {c : κ} (hp : ∀ b, p b → b < s.blocks.size) (hc : J c) :
    J (exec x ⟨s, c⟩).2.context
  touches {s : Store} {c : κ} (hp : ∀ b, p b → b < s.blocks.size) :
    s.TouchesOnly p (exec x ⟨s, c⟩).2.store

/-- What is alike to itself on the blocks of `p` is confined to them. -/
theorem Alike.confined {Q : Pairing → α → α → Prop} {x : Run κ ε α} (h : Alike J (.self p) Q x x) :
    Confined J p x where
  context {s c} hp hc := by
    obtain ⟨ρ, -, -, hJ, -⟩ := h s s c (Pairing.self_matches hp) (.inr hc)
    exact hJ hc
  touches {s c} hp := by
    obtain ⟨ρ, hρ, -⟩ := h s s c (Pairing.self_matches hp) (.inl (Pairing.self_diagonal p s))
    exact hρ.left.mono fun b ⟨_, hb, _⟩ => hb

variable {x : Run κ ε Value} {v : Value} {σ : State κ}

/-- Its value lies in the blocks of `p` and in new ones. -/
theorem Alike.blocks (h : Alike J (.self p) Value.Paired x x)
    (hp : ∀ b, p b → b < s.blocks.size) (hx : exec x ⟨s, c⟩ = (.ok v, σ)) :
    ∀ b ∈ v.blocks, p b ∨ s.blocks.size ≤ b ∧ b < σ.store.blocks.size := by
  intro b hb
  obtain ⟨ρ, hρ, -, -, hout⟩ :=
    h s s c (Pairing.self_matches hp) (.inl (Pairing.self_diagonal p s))
  rw [hx] at hρ hout
  cases hout with
  | ok hvw =>
    obtain ⟨c', hbc⟩ := hvw.left b hb
    rcases hρ.fresh b c' hbc with ⟨hold, -⟩ | ⟨hnew, -⟩
    · exact .inl hold
    · exact .inr ⟨hnew, hρ.stores.lt_left hbc⟩

/-- What is alike to itself by way of new storage has its value in new blocks only. -/
theorem Alike.blocks_new (h : Alike J (.self p) (Value.PairedAnew (.self p)) x x)
    (hp : ∀ b, p b → b < s.blocks.size) (hx : exec x ⟨s, c⟩ = (.ok v, σ)) :
    ∀ b ∈ v.blocks, s.blocks.size ≤ b ∧ b < σ.store.blocks.size := by
  intro b hb
  obtain ⟨ρ, hρ, -, -, hout⟩ :=
    h s s c (Pairing.self_matches hp) (.inl (Pairing.self_diagonal p s))
  rw [hx] at hρ hout
  cases hout with
  | ok hvw =>
    obtain ⟨c', hbc, hnot⟩ := Value.Paired.left hvw b hb
    rcases hρ.fresh b c' hbc with hold | ⟨hnew, -⟩
    · exact absurd hold hnot
    · exact ⟨hnew, hρ.stores.lt_left hbc⟩

end Run
end ArrayLang
