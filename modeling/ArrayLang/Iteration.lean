/-!
# Iteration over positions

Steps that run one after the other for consecutive positions. A position is only counted when it is
reached, so a step that stops leaves the later ones unlisted, however many there are.
-/

namespace ArrayLang

variable {m : Type → Type} [Monad m] {α : Type}

/-- Runs a step for each of `count` positions from `i` on. -/
@[specialize]
def foldPositionsM (step : α → Nat → m α) : Nat → Nat → α → m α
  | _, 0, a => pure a
  | i, count + 1, a => do
    let a ← step a i
    foldPositionsM step (i + 1) count a

theorem foldPositionsM_eq_foldlM (step : α → Nat → m α) (i count : Nat) (a : α) :
    foldPositionsM step i count a = (List.range' i count).foldlM step a := by
  induction count generalizing i a with
  | zero => rfl
  | succ count ih => simp only [foldPositionsM, List.range'_succ, List.foldlM_cons, ih]

end ArrayLang
