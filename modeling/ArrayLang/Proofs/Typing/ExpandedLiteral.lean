import ArrayLang.Proofs.Typing.Emission

/-!
# The statements of an array literal

A literal of arrays is lowered to statements that bind its first item, allocate an array from the number
of items and the shape of the first, and write every item to its slot. Items are converted to the element
type of the literal on the way, and to nothing else: their shapes are not looked at.

## Main results

- `literalType_array`: the items of a literal of rank two or more are arrays of one rank.
- `Lower.convertNode_literal`, `Lower.expandLiteral_run`: the statements that such a literal is lowered
  to.
-/

namespace ArrayLang

open Typing

namespace TypingRule

/-- The items of a literal of rank two or more are arrays of the rank below. -/
theorem literalType_array {types : List Ty} {elt : ElemType} {rank : Nat} (hrank : 2 ≤ rank)
    (h : literalType types = .ok (.array elt rank)) :
    ∀ t ∈ types, ∃ found, t = .array found (rank - 1) := by
  cases types with
  | nil =>
    cases h
    omega
  | cons first rest =>
    unfold literalType at h
    dsimp only at h
    split at h
    · cases h
    · rename_i hcompatible
      split at h
      · cases h
      · cases h
        intro t ht
        have hsame := List.find?_eq_none.1 hcompatible t ht
        simp only [Bool.not_eq_true', Bool.not_eq_false, Bool.and_eq_true,
          decide_eq_true_eq] at hsame
        -- A type of this rank is that of an array.
        have hpos : 0 < t.rank := by omega
        cases t with
        | array found rank => exact ⟨found, congrArg (Ty.array found) hsame.2⟩
        | _ => cases hpos

end TypingRule

namespace Lower

/-- An array expression, with its elements converted to an element type. -/
def convertItem (elt : ElemType) (item : Expr) : Expr :=
  convertElements item (item.ty?.getD .none) elt

/-- The shape of an array in a variable, as the lengths of its axes. -/
def shapeDims (var : Expr) (rank : Nat) : List Expr :=
  let shape := Expr.typed (.attr var "shape") (.tuple (List.replicate rank .int64))
  (List.range rank).map fun i => .typed (.proj shape i) .int64

/-- Allocates an array of `n` arrays of the shape of the one in a variable. -/
def allocLike (var : Expr) (n : Nat) (elt : ElemType) (rank : Nat) : Expr :=
  let dims := intConst n :: shapeDims var (rank - 1)
  .typed (.alloc elt (.typed (.tuple dims) (.tuple (List.replicate rank .int64)))) (.array elt rank)

/-- Writes an item to the slot of its position. -/
def writeSlot (result : Expr) (elt : ElemType) (rank : Nat) (item : Expr) (i : Nat) : Stmt :=
  .assign (.typed (.index result (intConst i)) (.array elt (rank - 1))) (convertItem elt item)

/-- Writes items to the slots from the given one on. -/
def writeSlots (result : Expr) (elt : ElemType) (rank : Nat) (items : List Expr) (i : Nat) : Block :=
  (items.zipIdx i).map fun p => writeSlot result elt rank p.1 p.2

/-- The variables of the first item and of the array that is made. -/
def literalVars (names : NameSupply) (first : Expr) (elt : ElemType) (rank : Nat) : Expr × Expr :=
  let (firstName, names) := names.fresh "array.first"
  (⟨.var firstName, first.ty?⟩, .typed (.var (names.fresh "array").1) (.array elt rank))

/-- The statements that a literal of arrays is expanded to. -/
def expandedLiteral (names : NameSupply) (first : Expr) (rest : List Expr) (elt : ElemType)
    (rank : Nat) : Block :=
  let (firstVar, result) := literalVars names first elt rank
  .assign firstVar first :: .assign result (allocLike firstVar (rest.length + 1) elt rank)
    :: writeSlots result elt rank (firstVar :: rest) 0

/-- The items of a literal of arrays of one rank. -/
def ArrayItem (rank : Nat) (item : Expr) : Prop :=
  ∃ found, item.ty? = some (.array found rank)

theorem coerceSlot_array {item : Expr} {elt : ElemType} {rank : Nat} (h : ArrayItem rank item) :
    coerceSlot item (.array elt rank) = pure (convertItem elt item) := by
  obtain ⟨found, hty⟩ := h
  obtain ⟨node, ty?⟩ := item
  obtain rfl : ty? = some (.array found rank) := hty
  show (if rank ≤ rank then pure _ else _ : Typing Expr) = _
  rw [if_pos (Nat.le_refl rank)]
  rfl

/-- Emits the write of an item to its slot. -/
def emitSlot (result : Expr) (elt : ElemType) (rank : Nat) (p : Expr × Nat) : Lower Unit := do
  let slotType := Ty.arrayOf elt (rank - 1)
  let slot := Expr.typed (.index result (intConst p.2)) slotType
  emit (.assign slot (← coerceSlot p.1 slotType))

theorem emitSlot_run {result : Expr} {elt : ElemType} {rank : Nat} (hrank : 2 ≤ rank)
    {p : Expr × Nat} (hitem : ArrayItem (rank - 1) p.1) (st : LowerState) :
    (emitSlot result elt rank p).run st
      = pure (⟨⟩, { st with emitted := st.emitted ++ [writeSlot result elt rank p.1 p.2] }) := by
  have hslot : Ty.arrayOf elt (rank - 1) = .array elt (rank - 1) := if_neg (by omega)
  unfold emitSlot
  rw [hslot]
  dsimp only
  rw [coerceSlot_array hitem]
  rfl

/-- Every item is written to its slot, in order. -/
theorem emitSlots_run {result : Expr} {elt : ElemType} {rank : Nat} (hrank : 2 ≤ rank)
    {items : List (Expr × Nat)} (hitems : ∀ p ∈ items, ArrayItem (rank - 1) p.1)
    (st : LowerState) :
    (items.forM (emitSlot result elt rank)).run st = pure (⟨⟩, { st with
      emitted := st.emitted ++ items.map fun p => writeSlot result elt rank p.1 p.2 }) := by
  induction items generalizing st with
  | nil =>
    rw [List.map_nil, List.append_nil]
    rfl
  | cons p items ih =>
    rw [List.forall_mem_cons] at hitems
    show (emitSlot result elt rank p >>= fun _ => items.forM (emitSlot result elt rank)).run st = _
    rw [StateT.run_bind, emitSlot_run hrank hitems.1, pure_bind, ih hitems.2, List.append_assoc]
    rfl

/-- The statements that a literal of arrays is lowered to. -/
theorem expandLiteral_run {first : Expr} {rest : List Expr} {elt : ElemType} {rank : Nat}
    (hrank : 2 ≤ rank) (hitems : ∀ item ∈ first :: rest, ArrayItem (rank - 1) item)
    (st : LowerState) :
    ∃ env names, (expandLiteral first rest elt rank).run st
      = pure ((literalVars st.names first elt rank).2,
          ⟨env, names, st.emitted ++ expandedLiteral st.names first rest elt rank⟩) := by
  obtain ⟨node, ty?⟩ := first
  obtain ⟨found, rfl⟩ : ∃ found, ty? = some (.array found (rank - 1)) :=
    (List.forall_mem_cons.1 hitems).1
  let first : Expr := .typed node (.array found (rank - 1))
  let vars := literalVars st.names first elt rank
  let names := (st.names.fresh "array.first").2
  let env := (st.env.insert (st.names.fresh "array.first").1 (.array found (rank - 1))).insert
    (names.fresh "array").1 (.array elt rank)
  let emitted := st.emitted ++ [.assign vars.1 first]
    ++ [.assign vars.2 (allocLike vars.1 (rest.length + 1) elt rank)]
  -- All but the writes of the slots is carried out by computing.
  have hslots : (expandLiteral first rest elt rank).run st
      = ((vars.1 :: rest).zipIdx.forM (emitSlot vars.2 elt rank)).run
          ⟨env, (names.fresh "array").2, emitted⟩ >>= fun r => pure (vars.2, r.2) := rfl
  have hvars : ∀ p ∈ (vars.1 :: rest).zipIdx, ArrayItem (rank - 1) p.1 := by
    intro p hp
    rcases List.mem_cons.1 (List.fst_mem_of_mem_zipIdx hp) with heq | hrest
    · exact heq ▸ ⟨found, rfl⟩
    · exact hitems p.1 (List.mem_cons_of_mem _ hrest)
  refine ⟨env, (names.fresh "array").2, hslots.trans ?_⟩
  rw [emitSlots_run hrank hvars, pure_bind]
  have hemitted : emitted ++ (vars.1 :: rest).zipIdx.map (fun p => writeSlot vars.2 elt rank p.1 p.2)
      = st.emitted ++ expandedLiteral st.names first rest elt rank := by
    rw [List.append_assoc, List.append_assoc]
    rfl
  rw [hemitted]
  rfl

/-- A literal of arrays is expanded. -/
theorem convertNode_literal (first : Expr) (rest : List Expr) (elt : ElemType) {rank : Nat}
    (hrank : 2 ≤ rank) :
    convertNode (.typed (.array (first :: rest)) (.array elt rank))
      = expandLiteral first rest elt rank := by
  obtain ⟨rank, rfl⟩ := Nat.exists_eq_add_of_le' hrank
  rfl

end Lower
end ArrayLang
