import ArrayLang.Proofs.Adverb.Map

/-!
# Reductions

A reduction goes through the positions of an axis from left to right. For each it calls the element function
on the slices there, as they are when the position is reached, and then combines the accumulator with what
was returned. Without an initial value, the first element becomes the accumulator and is not combined with
anything. The first call that fails ends the reduction. Without an array among the arguments there is one
position, and its inputs are the arguments themselves.

The relation for one position says which calls are made and how they end, and the relation for all positions
is put together from it.

## Main results

- `Stepped`, `step_stepped`: the calls for one position.
- `Folded`, `reduce_folded`, `reduce_folded_no_array`: the calls of a reduction, and its result.
- `reduce_emptyReduce_iff`: when a reduction itself fails for want of a first accumulator.
-/

namespace ArrayLang.Adverb

open Run

variable {κ ε ι : Type} {apply : Value → List Value → Run κ ε Value} {f : Fold} {axis len : Nat}
  {args inputs : List Value} {acc? : Option Value} {σ τ : State κ} {positions : List ι}
  {read : Store → ι → List Value}

/-! ## One position -/

/-- How a first element becomes the accumulator. An array is copied to a new block, and no other value changes. -/
inductive Detached : Value → State κ → Value → State κ → Prop
  | value {element : Value} {σ : State κ} (h : ∀ v, element ≠ .array v) : Detached element σ element σ
  | array {v w : View} {σ : State κ} {s : Store} (hnew : w.block = σ.store.blocks.size)
    (helt : w.elt = v.elt) (hkept : σ.store.TouchesOnly (fun _ => False) s)
    (hshows : w.Shows s ⟨v.shape, fun index => (v.get σ.store index).cast v.elt⟩) :
    Detached (.array v) σ (.array w) ⟨s, σ.context⟩

/-- The calls for one position, from an accumulator if there is one. -/
inductive Stepped (f : Fold) (apply : Value → List Value → Run κ ε Value) (inputs : List Value) :
    Option Value → State κ → Except (AdverbStop ε) Value × State κ → Prop
  | elementFailed {acc? : Option Value} {σ τ : State κ} {e : ε}
    (hfunc : exec (apply f.func inputs) σ = (.error e, τ)) :
    Stepped f apply inputs acc? σ (.error (.call e), τ)
  | seeded {element acc : Value} {σ σ' τ : State κ}
    (hfunc : exec (apply f.func inputs) σ = (.ok element, σ')) (hseed : Detached element σ' acc τ) :
    Stepped f apply inputs none σ (.ok acc, τ)
  | combined {acc element next : Value} {σ σ' τ : State κ}
    (hfunc : exec (apply f.func inputs) σ = (.ok element, σ'))
    (hcombine : exec (apply f.combine [acc, element]) σ' = (.ok next, τ)) :
    Stepped f apply inputs (some acc) σ (.ok next, τ)
  | combineFailed {acc element : Value} {σ σ' τ : State κ} {e : ε}
    (hfunc : exec (apply f.func inputs) σ = (.ok element, σ'))
    (hcombine : exec (apply f.combine [acc, element]) σ' = (.error e, τ)) :
    Stepped f apply inputs (some acc) σ (.error (.call e), τ)

theorem exec_detach_detached (element : Value) (σ : State κ) :
    ∃ acc τ, exec (detach element : Run κ (AdverbStop ε) Value) σ = (.ok acc, τ)
      ∧ Detached element σ acc τ := by
  cases element with
  | array v =>
    have hshows : v.Shows σ.store ⟨v.shape, v.get σ.store⟩ := ⟨rfl, fun _ _ => rfl⟩
    exact ⟨_, _, rfl, .array rfl rfl (.alloc _ _ _) (hshows.cast v.elt)⟩
  | _ => exact ⟨_, _, rfl, .value nofun⟩

theorem step_stepped (f : Fold) (apply : Value → List Value → Run κ ε Value) (inputs : List Value)
    (acc? : Option Value) (σ : State κ) :
    Stepped f apply inputs acc? σ (exec (f.step apply acc? inputs) σ) := by
  unfold Fold.step
  rw [exec_bind, exec_calling]
  cases hfunc : exec (apply f.func inputs) σ with
  | mk result σ' =>
    cases result with
    | error e => exact .elementFailed hfunc
    | ok element =>
      cases acc? with
      | none =>
        obtain ⟨acc, τ, hdetach, hdetached⟩ := exec_detach_detached (ε := ε) element σ'
        dsimp only
        rw [hdetach]
        exact .seeded hfunc hdetached
      | some acc =>
        dsimp only
        rw [exec_calling]
        cases hcombine : exec (apply f.combine [acc, element]) σ' with
        | mk result τ =>
          cases result with
          | error e => exact .combineFailed hfunc hcombine
          | ok next => exact .combined hfunc hcombine

/-- A position has an accumulator afterwards, unless a call fails. -/
theorem Stepped.error {e : AdverbStop ε} (h : Stepped f apply inputs acc? σ (.error e, τ)) :
    ∃ cause, e = .call cause := by
  cases h with
  | elementFailed hfunc => exact ⟨_, rfl⟩
  | combineFailed hfunc hcombine => exact ⟨_, rfl⟩

/-! ## All positions -/

/-- The calls for positions from left to right, up to the first that fails. The inputs of a position are read
from the store as it is then. -/
inductive Folded (f : Fold) (apply : Value → List Value → Run κ ε Value)
    (read : Store → ι → List Value) : List ι → Option Value → State κ →
      Except (AdverbStop ε) (Option Value) × State κ → Prop
  | done (acc? : Option Value) (σ : State κ) : Folded f apply read [] acc? σ (.ok acc?, σ)
  | failed {i : ι} {later : List ι} {acc? : Option Value} {σ τ : State κ} {e : AdverbStop ε}
    (hstep : Stepped f apply (read σ.store i) acc? σ (.error e, τ)) :
    Folded f apply read (i :: later) acc? σ (.error e, τ)
  | next {i : ι} {later : List ι} {acc? : Option Value} {acc : Value} {σ τ : State κ}
    {outcome : Except (AdverbStop ε) (Option Value) × State κ}
    (hstep : Stepped f apply (read σ.store i) acc? σ (.ok acc, τ))
    (hrest : Folded f apply read later (some acc) τ outcome) :
    Folded f apply read (i :: later) acc? σ outcome

/-- The last accumulator is the result. There is none if there is no position and no initial value. -/
def finished :
    Except (AdverbStop ε) (Option Value) × State κ → Except (AdverbStop ε) Value × State κ
  | (.ok (some acc), σ) => (.ok acc, σ)
  | (.ok none, σ) => (.error (.adverb .emptyReduce), σ)
  | (.error e, σ) => (.error e, σ)

namespace Folded

theorem error {e : AdverbStop ε} (h : Folded f apply read positions acc? σ (.error e, τ)) :
    ∃ cause, e = .call cause := by
  generalize houtcome : (Except.error e, τ) = outcome at h
  induction h with
  | done => cases houtcome
  | failed hstep =>
    cases houtcome
    exact hstep.error
  | next _ _ ih => exact ih houtcome

theorem ok_none (h : Folded f apply read positions acc? σ (.ok none, τ)) :
    positions = [] ∧ acc? = none := by
  generalize houtcome : ((.ok none, τ) : Except (AdverbStop ε) (Option Value) × State κ) = outcome at h
  induction h with
  | done =>
    cases houtcome
    exact ⟨rfl, rfl⟩
  | failed => cases houtcome
  | next _ _ ih => exact nomatch (ih houtcome).2

/-- Only without a position and an accumulator is there nothing to return. -/
theorem emptyReduce_iff {outcome : Except (AdverbStop ε) (Option Value) × State κ}
    (h : Folded f apply read positions acc? σ outcome) :
    (finished outcome).1 = .error (.adverb .emptyReduce) ↔ positions = [] ∧ acc? = none := by
  constructor
  · intro herror
    match outcome, h with
    | (.ok (some acc), _), _ => cases herror
    | (.ok none, _), h => exact h.ok_none
    | (.error e, _), h =>
      obtain ⟨cause, rfl⟩ := h.error
      cases herror
  · rintro ⟨rfl, rfl⟩
    cases h
    rfl

end Folded

/-! ## Reductions along an axis -/

/-- The slices of the arguments at a position. -/
def slicesAt (axis : Nat) (args : List Value) (s : Store) (i : Nat) : List Value :=
  args.map (sliceArg s axis i)

/-- A position of a fold along an axis, between accumulators. -/
def position (f : Fold) (apply : Value → List Value → Run κ ε Value) (args : List Value) (axis : Nat)
    (acc? : Option Value) (i : Nat) : Run κ (AdverbStop ε) (Option Value) := do
  return some (← f.step apply acc? (← sliceArgs axis args i))

theorem exec_position (f : Fold) (apply : Value → List Value → Run κ ε Value) (args : List Value)
    (axis : Nat) (acc? : Option Value) (i : Nat) (σ : State κ) :
    exec (position f apply args axis acc? i) σ
      = match exec (f.step apply acc? (slicesAt axis args σ.store i)) σ with
        | (.ok acc, τ) => (.ok (some acc), τ)
        | (.error e, τ) => (.error e, τ) := by
  show exec (f.step apply acc? (slicesAt axis args σ.store i) >>= fun acc => pure (some acc)) σ = _
  rw [exec_bind]
  match exec (f.step apply acc? (slicesAt axis args σ.store i)) σ with
  | (.ok acc, τ) => rfl
  | (.error e, τ) => rfl

theorem positions_folded (f : Fold) (apply : Value → List Value → Run κ ε Value) (args : List Value)
    (axis i count : Nat) (acc? : Option Value) (σ : State κ) :
    Folded f apply (slicesAt axis args) (List.range' i count) acc? σ
      (exec (foldPositionsM (position f apply args axis) i count acc?) σ) := by
  induction count generalizing i acc? σ with
  | zero => exact .done acc? σ
  | succ count ih =>
    have hstep := step_stepped f apply (slicesAt axis args σ.store i) acc? σ
    rw [foldPositionsM, exec_bind, exec_position]
    cases hx : exec (f.step apply acc? (slicesAt axis args σ.store i)) σ with
    | mk result τ =>
      rw [hx] at hstep
      cases result with
      | error e => exact .failed hstep
      | ok acc => exact .next hstep (ih (i + 1) (some acc) τ)

theorem exec_reduce (harray : HasArray args) (h : Aligned axis len args) (σ : State κ) :
    exec (reduce apply f args axis) σ
      = finished (exec (foldPositionsM (position f apply args axis) 0 len f.start?) σ) := by
  have hlen : (axisLen axis args) = .ok (some len) := axisLen_aligned harray h
  unfold reduce
  rw [hlen]
  show exec (foldPositionsM (position f apply args axis) 0 len f.start? >>= _) σ = _
  rw [exec_bind]
  match exec (foldPositionsM (position f apply args axis) 0 len f.start?) σ with
  | (.ok (some acc), τ) => rfl
  | (.ok none, τ) => rfl
  | (.error e, τ) => rfl

/-- The calls of a reduction along an axis. -/
theorem reduce_folded (apply : Value → List Value → Run κ ε Value) (f : Fold)
    (harray : HasArray args) (h : Aligned axis len args) (σ : State κ) :
    ∃ outcome, Folded f apply (slicesAt axis args) (List.range len) f.start? σ outcome
      ∧ exec (reduce apply f args axis) σ = finished outcome := by
  refine ⟨_, ?_, exec_reduce harray h σ⟩
  rw [List.range_eq_range']
  exact positions_folded f apply args axis 0 len f.start? σ

/-- Without an array there is one position. -/
theorem reduce_folded_no_array (apply : Value → List Value → Run κ ε Value) (f : Fold) (axis : Nat)
    (h : ¬HasArray args) (σ : State κ) :
    ∃ outcome, Folded f apply (fun _ (_ : Unit) => args) [()] f.start? σ outcome
      ∧ exec (reduce apply f args axis) σ = finished outcome := by
  have hstep := step_stepped f apply args f.start? σ
  have hreduce : reduce apply f args axis = f.step apply f.start? args := by
    unfold reduce
    rw [axisLen_no_array h]
    rfl
  rw [hreduce]
  cases hx : exec (f.step apply f.start? args) σ with
  | mk result τ =>
    rw [hx] at hstep
    cases result with
    | error e => exact ⟨_, .failed hstep, rfl⟩
    | ok acc => exact ⟨_, .next hstep (.done _ τ), rfl⟩

/-! ## Empty reductions -/

theorem axisStep_ne_emptyReduce {len? : Option Nat} {arg : Value} :
    axisStep axis len? arg ≠ .error .emptyReduce := by
  unfold axisStep
  cases arg with
  | array v =>
    dsimp only
    split
    · exact nofun
    · cases len? with
      | none => exact nofun
      | some expected =>
        dsimp only
        split <;> exact nofun
  | _ => exact nofun

theorem axisLen_ne_emptyReduce (axis : Nat) (args : List Value) :
    axisLen axis args ≠ .error .emptyReduce := by
  have hfold : ∀ (args : List Value) (len? : Option Nat),
      args.foldlM (axisStep axis) len? ≠ .error .emptyReduce := by
    intro args
    induction args with
    | nil => exact fun _ => nofun
    | cons arg args ih =>
      intro len?
      rw [List.foldlM_cons]
      have hstep : axisStep axis len? arg ≠ .error .emptyReduce := axisStep_ne_emptyReduce
      cases hnext : axisStep axis len? arg with
      | error e => exact fun h => hstep (hnext.trans h)
      | ok next? => exact ih next?
  exact hfold args none

/-- A reduction itself fails for want of an accumulator exactly if there is no initial value and the axis
is empty. -/
theorem reduce_emptyReduce_iff (apply : Value → List Value → Run κ ε Value) (f : Fold)
    (args : List Value) (axis : Nat) (σ : State κ) :
    (exec (reduce apply f args axis) σ).1 = .error (.adverb .emptyReduce)
      ↔ f.start? = none ∧ HasArray args ∧ Aligned axis 0 args := by
  by_cases harray : HasArray args
  · cases hlen : axisLen axis args with
    | error e =>
      have hexec : exec (reduce apply f args axis) σ = (.error (.adverb e), σ) := by
        unfold reduce
        rw [hlen]
        rfl
      rw [hexec]
      constructor
      · intro h
        cases h
        exact absurd hlen (axisLen_ne_emptyReduce axis args)
      · rintro ⟨-, -, haligned⟩
        rw [axisLen_aligned harray haligned] at hlen
        cases hlen
    | ok len? =>
      obtain ⟨v, hv⟩ := harray
      have haligned : Aligned axis (v.shape.getD axis 0) args := by
        intro w hw
        have hsame := (of_axisLen hlen w hw).2.symm.trans (of_axisLen hlen v hv).2
        exact ⟨(of_axisLen hlen w hw).1, Option.some.inj hsame⟩
      obtain ⟨outcome, hfolded, hexec⟩ := reduce_folded apply f ⟨v, hv⟩ haligned σ
      rw [hexec, hfolded.emptyReduce_iff, List.range_eq_nil]
      constructor
      · rintro ⟨hzero, hstart⟩
        exact ⟨hstart, ⟨v, hv⟩, hzero ▸ haligned⟩
      · rintro ⟨hstart, -, hzero⟩
        exact ⟨(haligned v hv).2.symm.trans (hzero v hv).2, hstart⟩
  · obtain ⟨outcome, hfolded, hexec⟩ := reduce_folded_no_array apply f axis harray σ
    rw [hexec, hfolded.emptyReduce_iff]
    exact ⟨fun h => absurd h.1 nofun, fun h => absurd h.2.1 harray⟩

end ArrayLang.Adverb
