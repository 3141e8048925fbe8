import ArrayLang.Proofs.Array.Layout

/-!
# The positions that a slice selects

A slice selects the positions that its step leads to from its start, as long as they lie strictly
before its stop. A bound that is negative counts from the end, and every bound is then moved to the
axis or to the place next to it where the step leaves the axis. A bound that is left out is the end of
the axis that the step leads from or to.

Resolving a slice counts these positions by a division that rounds up. With 64-bit integers the sums
that it forms do not overflow as long as the length of the axis and the size of the step together are
such an integer.

## Main results

- `Slice.lt_steps_iff`: the count is that of the positions before the stop.
- `Slice.resolveWords?_eq`: no sum overflows.
- `Slice.resolve_enumerates`: resolving a slice enumerates the positions that it selects.
-/

namespace ArrayLang.Slice

variable {s : Slice} {start stop step : Int} {len k : Nat}

/-! ## Bounds as positions -/

/-- The step, which is 1 if it is left out. -/
def stride (s : Slice) : Int :=
  (s.step?.map Int64.toInt).getD 1

/-- The position lies strictly before the stop, in the direction of the step. -/
def Before (step position stop : Int) : Prop :=
  if 0 < step then position < stop else stop < position

/-- The least position that a bound is moved to. A step down leaves the axis at -1. -/
def lowest (step : Int) : Int :=
  if step < 0 then -1 else 0

/-- The greatest position that a bound is moved to. A step up leaves the axis at its length. -/
def highest (len : Nat) (step : Int) : Int :=
  if step < 0 then len - 1 else len

/-- A bound as a position: the length is added to a negative one, and the sum or the bound itself is
moved between the least position and the greatest. -/
def normalized (len : Nat) (step bound : Int) : Int :=
  max (lowest step) (min (highest len step) (if bound < 0 then bound + len else bound))

/-- Where the slice starts. Without a bound it starts at the first position of the axis in the
direction of the step. -/
def startPosition (s : Slice) (len : Nat) : Int :=
  match s.start? with
  | some bound => normalized len s.stride bound.toInt
  | none => if s.stride < 0 then len - 1 else 0

/-- Where the slice stops. Without a bound it stops where the step leaves the axis. -/
def stopPosition (s : Slice) (len : Nat) : Int :=
  match s.stop? with
  | some bound => normalized len s.stride bound.toInt
  | none => if s.stride < 0 then -1 else len

theorem lowest_le_highest (len : Nat) (step : Int) : lowest step ≤ highest len step := by
  unfold lowest highest
  split <;> omega

theorem normalized_mem (len : Nat) (step bound : Int) :
    lowest step ≤ normalized len step bound ∧ normalized len step bound ≤ highest len step := by
  have hends := lowest_le_highest len step
  unfold normalized
  omega

/-- Only one end of the interval can matter for a bound, depending on its sign. -/
theorem clamp_eq_normalized (len : Nat) (step bound : Int) :
    clamp len (lowest step) (highest len step) bound = normalized len step bound := by
  have hlowest : lowest step ≤ 0 := by
    unfold lowest
    split <;> omega
  have hhighest : (len : Int) - 1 ≤ highest len step := by
    unfold highest
    split <;> omega
  have hends := lowest_le_highest len step
  unfold clamp normalized
  by_cases hneg : bound < 0
  · rw [if_pos hneg, if_pos hneg]
    omega
  · rw [if_neg hneg, if_neg hneg]
    omega

theorem startPosition_mem (s : Slice) (len : Nat) :
    lowest s.stride ≤ s.startPosition len ∧ s.startPosition len ≤ highest len s.stride := by
  unfold startPosition
  cases s.start? with
  | some bound => exact normalized_mem len s.stride bound.toInt
  | none =>
    unfold lowest highest
    dsimp only
    split <;> omega

theorem stopPosition_mem (s : Slice) (len : Nat) :
    lowest s.stride ≤ s.stopPosition len ∧ s.stopPosition len ≤ highest len s.stride := by
  unfold stopPosition
  cases s.stop? with
  | some bound => exact normalized_mem len s.stride bound.toInt
  | none =>
    unfold lowest highest
    dsimp only
    split <;> omega

/-! ## Counting -/

/-- The steps that are counted are those that stay before the stop. -/
theorem lt_steps_iff (hstep : step ≠ 0) :
    k < steps start stop step ↔ Before step (start + k * step) stop := by
  unfold Before
  by_cases hup : 0 < step
  · rw [if_pos hup, lt_steps_up_iff hup]
  · -- Mirrored, the steps go upwards.
    have hdown : step < 0 := by omega
    rw [if_neg hup, steps_neg hdown, lt_steps_up_iff (by omega), Int.mul_neg]
    omega

/-- The start by the rule for the sign of its bound. -/
theorem startPosition_eq (s : Slice) (len : Nat) :
    (match s.start? with
      | some b => clamp len (lowest s.stride) (highest len s.stride) b.toInt
      | none => if s.stride < 0 then highest len s.stride else lowest s.stride)
    = s.startPosition len := by
  unfold startPosition
  cases s.start? with
  | some b => exact clamp_eq_normalized len s.stride b.toInt
  | none =>
    unfold lowest highest
    dsimp only
    split <;> rfl

/-- The stop by the rule for the sign of its bound. -/
theorem stopPosition_eq (s : Slice) (len : Nat) :
    (match s.stop? with
      | some b => clamp len (lowest s.stride) (highest len s.stride) b.toInt
      | none => if s.stride < 0 then lowest s.stride else highest len s.stride)
    = s.stopPosition len := by
  unfold stopPosition
  cases s.stop? with
  | some b => exact clamp_eq_normalized len s.stride b.toInt
  | none =>
    unfold lowest highest
    dsimp only
    split <;> rfl

/-- Resolving a slice gives its start, its step and the number of steps to its stop. -/
theorem resolve_eq (hstep : s.stride ≠ 0) (len : Nat) :
    s.resolve len
      = .ok ⟨s.startPosition len, steps (s.startPosition len) (s.stopPosition len) s.stride,
          s.stride⟩ := by
  rw [← startPosition_eq, ← stopPosition_eq]
  unfold resolve
  show (if s.stride = 0 then _ else _) = _
  rw [if_neg hstep]
  rfl

/-! ## Overflow -/

/-- The result of an operation on 64-bit integers. There is none if the operation overflows. -/
def word? (n : Int) : Option Int :=
  if -2 ^ 63 ≤ n ∧ n < 2 ^ 63 then some n else none

/-- A bound that is given or left out, moved to the axis on 64-bit integers. -/
def boundWords? (len lower upper : Int) (given? : Option Int64) (missing : Int) : Option Int := do
  match given? with
  | some bound =>
    if bound.toInt < 0 then
      let fromEnd ← word? (bound.toInt + len)
      return max fromEnd lower
    else return min bound.toInt upper
  | none => return missing

/-- `steps` on 64-bit integers. -/
def stepsWords? (start stop step : Int) : Option Nat := do
  if 0 < step ∧ start < stop then
    let distance ← word? (stop - start)
    let longer ← word? (distance + step)
    let rounded ← word? (longer - 1)
    return (rounded / step).toNat
  else if step < 0 ∧ stop < start then
    let distance ← word? (start - stop)
    let longer ← word? (distance - step)
    let rounded ← word? (longer - 1)
    let size ← word? (-step)
    return (rounded / size).toNat
  else return 0

/-- `resolve` on 64-bit integers. -/
def resolveWords? (s : Slice) (len : Nat) : Option (Except ArrayError AxisRange) := do
  let step := (s.step?.map Int64.toInt).getD 1
  if step = 0 then return .error .zeroStep
  else
    let len ← word? len
    let last ← word? (len - 1)
    let lower : Int := if step < 0 then -1 else 0
    let upper : Int := if step < 0 then last else len
    let start ← boundWords? len lower upper s.start? (if step < 0 then upper else lower)
    let stop ← boundWords? len lower upper s.stop? (if step < 0 then lower else upper)
    let count ← stepsWords? start stop step
    return .ok ⟨start, count, step⟩

theorem word?_eq_some {n : Int} (hlower : -2 ^ 63 ≤ n) (hupper : n < 2 ^ 63) : word? n = some n :=
  if_pos ⟨hlower, hupper⟩

/-- Adding the length to a negative bound cannot overflow. -/
theorem boundWords?_eq (hlen : (len : Int) < 2 ^ 63) (lower upper : Int) (given? : Option Int64)
    (missing : Int) :
    boundWords? len lower upper given? missing = some (match given? with
      | some b => clamp len lower upper b.toInt
      | none => missing) := by
  cases given? with
  | none => rfl
  | some b =>
    have hleast := b.le_toInt
    unfold boundWords? clamp
    by_cases hneg : b.toInt < 0
    · have hsum := word?_eq_some (n := b.toInt + len) (by omega) (by omega)
      simp only [if_pos hneg, hsum]
      rfl
    · simp only [if_neg hneg]
      rfl

/-- The distance between two positions of the interval is at most the length, and the sums add the
size of the step to it. -/
theorem stepsWords?_eq (hfits : (len : Int) + step.natAbs < 2 ^ 63)
    (hstart : lowest step ≤ start ∧ start ≤ highest len step)
    (hstop : lowest step ≤ stop ∧ stop ≤ highest len step) :
    stepsWords? start stop step = some (steps start stop step) := by
  unfold lowest highest at hstart hstop
  unfold stepsWords? steps
  by_cases hup : 0 < step ∧ start < stop
  · have hdown : ¬step < 0 := by omega
    rw [if_neg hdown, if_neg hdown] at hstart hstop
    have hdistance := word?_eq_some (n := stop - start) (by omega) (by omega)
    have hlonger := word?_eq_some (n := stop - start + step) (by omega) (by omega)
    have hrounded := word?_eq_some (n := stop - start + step - 1) (by omega) (by omega)
    simp only [if_pos hup, hdistance, hlonger, hrounded, Option.bind_eq_bind, Option.bind_some]
    rfl
  · by_cases hdown : step < 0 ∧ stop < start
    · rw [if_pos hdown.1, if_pos hdown.1] at hstart hstop
      have hdistance := word?_eq_some (n := start - stop) (by omega) (by omega)
      have hlonger := word?_eq_some (n := start - stop - step) (by omega) (by omega)
      have hrounded := word?_eq_some (n := start - stop - step - 1) (by omega) (by omega)
      have hsize := word?_eq_some (n := -step) (by omega) (by omega)
      simp only [if_neg hup, if_pos hdown, hdistance, hlonger, hrounded, hsize,
        Option.bind_eq_bind, Option.bind_some]
      rfl
    · simp only [if_neg hup, if_neg hdown]
      rfl

/-- A slice is resolved on 64-bit integers as on all integers. -/
theorem resolveWords?_eq (hstep : s.stride ≠ 0)
    (hfits : (len : Int) + s.stride.natAbs < 2 ^ 63) :
    s.resolveWords? len = some (s.resolve len) := by
  have hlen := word?_eq_some (n := len) (by omega) (by omega)
  have hlast := word?_eq_some (n := (len : Int) - 1) (by omega) (by omega)
  have hlength : (len : Int) < 2 ^ 63 := by omega
  have hbound := boundWords?_eq hlength (lowest s.stride) (highest len s.stride)
  have hstart := hbound s.start? (if s.stride < 0 then highest len s.stride else lowest s.stride)
  have hstop := hbound s.stop? (if s.stride < 0 then lowest s.stride else highest len s.stride)
  have hsteps := stepsWords?_eq hfits (startPosition_mem s len) (stopPosition_mem s len)
  rw [startPosition_eq] at hstart
  rw [stopPosition_eq] at hstop
  unfold resolveWords?
  show (if s.stride = 0 then _ else word? len >>= _) = _
  rw [if_neg hstep, hlen, Option.bind_eq_bind, Option.bind_some, hlast, Option.bind_eq_bind,
    Option.bind_some]
  show (boundWords? len (lowest s.stride) (highest len s.stride) s.start?
      (if s.stride < 0 then highest len s.stride else lowest s.stride) >>= fun start =>
    boundWords? len (lowest s.stride) (highest len s.stride) s.stop?
      (if s.stride < 0 then lowest s.stride else highest len s.stride) >>= fun stop =>
    stepsWords? start stop s.stride >>= _) = _
  rw [hstart, Option.bind_eq_bind, Option.bind_some, hstop, Option.bind_eq_bind, Option.bind_some,
    hsteps, resolve_eq hstep]
  rfl

/-! ## Main result -/

/-- Take an axis and a slice whose step is not 0, such that the length of the axis and the size of the
step together are a signed 64-bit integer. Then the slice is resolved, without an overflow, to its start,
its step, and a count such that the `k`-th position from the start on is counted exactly if it lies
strictly before the stop. The positions that are counted lie on the axis. -/
theorem resolve_enumerates (s : Slice) (len : Nat) (hstep : s.stride ≠ 0)
    (hfits : (len : Int) + s.stride.natAbs < 2 ^ 63) :
    ∃ r, s.resolve len = .ok r ∧ s.resolveWords? len = some (.ok r)
      ∧ r.start = s.startPosition len ∧ r.step = s.stride
      ∧ (∀ k : Nat, k < r.count ↔ Before s.stride (r.start + k * r.step) (s.stopPosition len))
      ∧ ∀ k < r.count, 0 ≤ r.start + k * r.step ∧ r.start + k * r.step < len := by
  have hresolve := resolve_eq hstep len
  have hwords := resolveWords?_eq hstep hfits
  rw [hresolve] at hwords
  exact ⟨_, hresolve, hwords, rfl, rfl, fun k => lt_steps_iff hstep, (resolve_on hresolve).bounds⟩

/-- From the last position down to the first by threes. -/
def down : Slice :=
  ⟨some (-1), some 0, some (-3)⟩

/-- On an axis of length 8 it selects 7, 4 and 1: the step does not divide the distance. -/
theorem resolve_enumerates_down :
    down.stride ≠ 0 ∧ ((8 : Nat) : Int) + down.stride.natAbs < 2 ^ 63
      ∧ down.resolve 8 = .ok ⟨7, 3, -3⟩ ∧ ∀ k : Nat, k < 3 ↔ Before (-3) (7 + k * -3) 0 := by
  have hstep : down.stride ≠ 0 := by decide
  have hfits : ((8 : Nat) : Int) + down.stride.natAbs < 2 ^ 63 := by decide
  have hresolve : down.resolve 8 = .ok ⟨7, 3, -3⟩ := by decide
  obtain ⟨r, hr, -, -, -, hcount, -⟩ := resolve_enumerates down 8 hstep hfits
  obtain rfl : r = ⟨7, 3, -3⟩ := Except.ok.inj (hr.symm.trans hresolve)
  exact ⟨hstep, hfits, hresolve, hcount⟩

end ArrayLang.Slice
