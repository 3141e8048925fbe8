import ArrayLang.Proofs.Adverb.Fold
import ArrayLang.Proofs.Value.Conforms

/-!
# Types of accumulators

An accumulator is the initial value, the first element, or what combining returned. When all three conform
to one type, every accumulator of a reduction or scan does, at every length of the axis: those that are
passed to the combining function or to the emitting function, and the last one. That accumulators of other
types are never passed on is said by replacing the calls: calls that differ only where they are given such
an accumulator give the same reduction.

The first element is not converted to the type of the accumulator. So over an axis of one position the
result is of the type of the elements, and does not conform to an accumulator type of another sort.

## Main results

- `Fold.Accumulates`: what is asked of the calls of a fold and of its initial value.
- `reduce_conforms`: the last accumulator.
- `reduce_congr`, `scan_congr`: the accumulators that are passed to calls.
- `reduce_one`, `reduce_one_not_conforms`: the first element as the result.
-/

namespace ArrayLang

namespace Run

variable {κ ε α β : Type}

/-- What a computation returns may be used to compare what follows. -/
theorem bind_congr_of_yields {Q : α → Prop} {x : Run κ ε α} {f g : α → Run κ ε β}
    (hx : Yields (fun _ => True) (fun a _ => Q a) x) (hfg : ∀ a, Q a → f a = g a) :
    x >>= f = x >>= g := by
  refine eq_of_exec fun σ => ?_
  rw [exec_bind, exec_bind]
  cases hr : exec x σ with
  | mk r σ' =>
    cases r with
    | error e => rfl
    | ok a => exact congrArg (exec · σ') (hfg a (hx σ a σ' trivial hr))

/-- Steps that agree on what they keep give the same walk. -/
theorem foldPositionsM_congr {I : α → Prop} {step step' : α → Nat → Run κ ε α}
    (hstep : ∀ a i, I a → step a i = step' a i)
    (hI : ∀ a i, I a → Yields (fun _ => True) (fun a _ => I a) (step a i)) (i count : Nat) {a : α}
    (ha : I a) : foldPositionsM step i count a = foldPositionsM step' i count a := by
  induction count generalizing i a with
  | zero => rfl
  | succ count ih =>
    show step a i >>= foldPositionsM step (i + 1) count
      = step' a i >>= foldPositionsM step' (i + 1) count
    rw [← hstep a i ha]
    exact bind_congr_of_yields (hI a i ha) fun a ha => ih (i + 1) ha

end Run

namespace Adverb

open Run

variable {κ ε : Type} {apply apply' : Value → List Value → Run κ ε Value} {f : Fold}
  {A E R : Ty}

/-- Elements conform to `E`, results of combining to `R`, and everything that becomes an accumulator
conforms to `A`. -/
structure Fold.Accumulates (f : Fold) (apply : Value → List Value → Run κ ε Value) (A E R : Ty) :
    Prop where
  element : ∀ args, Yields (fun _ => True) (fun e _ => e.Conforms E) (apply f.func args)
  combine : ∀ acc e, acc.Conforms A → e.Conforms E →
    Yields (fun _ => True) (fun v _ => v.Conforms R) (apply f.combine [acc, e])
  combined : Ty.Lift ElemType.Embeds R A
  start : ∀ acc, f.start? = some acc → acc.Conforms A
  seed : f.start? = none → Ty.Lift ElemType.Embeds E A

/-- An accumulator, if there is one, conforms to the type. There is none only at the start of a fold
without an initial value. -/
def Accumulated (f : Fold) (A : Ty) (acc? : Option Value) : Prop :=
  (acc? = none → f.start? = none) ∧ ∀ acc, acc? = some acc → acc.Conforms A

theorem accumulated_some {acc : Value} (h : acc.Conforms A) : Accumulated f A (some acc) :=
  ⟨nofun, fun _ heq => Option.some.inj heq ▸ h⟩

/-- Detaching an array keeps its element type and rank. -/
theorem detach_conforms {e : Value} {ty : Ty} (h : e.Conforms ty) :
    Yields (fun _ => True) (fun v _ => v.Conforms ty) (detach e : Run κ (AdverbStop ε) Value) := by
  cases e with
  | array v =>
    intro σ w σ' _ hx
    cases hx
    cases h with
    | array hembeds => exact .array (v := (v.cast v.elt σ.store).1) hembeds
  | _ => exact .pure fun _ _ => h

theorem Fold.Accumulates.start_accumulated (h : f.Accumulates apply A E R) :
    Accumulated f A f.start? :=
  ⟨id, h.start⟩

/-- One step gives an accumulator of the type. -/
theorem step_conforms (h : f.Accumulates apply A E R) {acc? : Option Value}
    (hacc : Accumulated f A acc?) (slices : List Value) :
    Yields (fun _ => True) (fun v _ => v.Conforms A) (f.step apply acc? slices) := by
  unfold Fold.step
  refine (calling_yields (h.element slices)).bind fun e => ?_
  refine Yields.pre (P := fun _ => True ∧ e.Conforms E) (.of_and fun he => ?_)
    fun _ he => ⟨trivial, he⟩
  cases acc? with
  | none =>
    -- The first element becomes the accumulator, in storage of its own but otherwise as it is.
    exact detach_conforms (he.embed (h.seed (hacc.1 rfl)))
  | some acc =>
    refine (calling_yields (h.combine acc e (hacc.2 acc rfl) he)).mono fun v _ hv => ?_
    exact hv.embed h.combined

/-- The last accumulator of a reduction conforms to the type. -/
theorem reduce_conforms (h : f.Accumulates apply A E R) (args : List Value) (axis : Nat) :
    Yields (fun _ => True) (fun v _ => v.Conforms A) (reduce apply f args axis) := by
  unfold reduce
  refine Yields.bind (Q := fun _ _ => True) (.ofExcept fun _ _ _ _ => trivial) fun len? => ?_
  cases len? with
  | none => exact step_conforms h h.start_accumulated args
  | some len =>
    have hloop : Yields (fun _ => True) (fun acc? _ => Accumulated f A acc?)
        (foldPositionsM (fun acc? i => do
          return some (← f.step apply acc? (← sliceArgs axis args i))) 0 len f.start?) := by
      refine (Yields.foldPositionsM (I := fun _ acc? _ => Accumulated f A acc?) 0 len
        (fun _ _ => h.start_accumulated) fun acc? i _ _ => ?_)
      refine Yields.pre (P := fun _ => True ∧ Accumulated f A acc?) (.of_and fun hacc => ?_)
        fun _ hacc => ⟨trivial, hacc⟩
      refine (sliceArgs_yields axis args i).bind fun slices => ?_
      exact (step_conforms h hacc slices).bind fun acc => .pure fun _ => accumulated_some
    refine hloop.bind fun acc? => ?_
    cases acc? with
    | none => exact .throw _
    | some acc => exact .pure fun _ hacc => hacc.2 acc rfl

/-! ## Calls on accumulators of the type -/

/-- The calls of two folds agree on elements and on accumulators of the type. -/
structure Fold.Agree (f : Fold) (apply apply' : Value → List Value → Run κ ε Value) (A E : Ty) :
    Prop where
  func : ∀ args, apply f.func args = apply' f.func args
  combine : ∀ acc e, acc.Conforms A → e.Conforms E →
    apply f.combine [acc, e] = apply' f.combine [acc, e]

theorem step_congr (h : f.Accumulates apply A E R) (hcalls : f.Agree apply apply' A E)
    {acc? : Option Value} (hacc : Accumulated f A acc?) (slices : List Value) :
    f.step apply acc? slices = f.step apply' acc? slices := by
  unfold Fold.step
  rw [← hcalls.func]
  refine bind_congr_of_yields (calling_yields (h.element slices)) fun e he => ?_
  cases acc? with
  | none => rfl
  | some acc => exact congrArg calling (hcalls.combine acc e (hacc.2 acc rfl) he)

/-- No accumulator of another type is passed to a call of a reduction: calls that differ only on such
accumulators give the same reduction. -/
theorem reduce_congr (h : f.Accumulates apply A E R) (hcalls : f.Agree apply apply' A E)
    (args : List Value) (axis : Nat) : reduce apply f args axis = reduce apply' f args axis := by
  unfold reduce
  refine congrArg (orFail (axisLen axis args) >>= ·) (funext fun len? => ?_)
  cases len? with
  | none => exact step_congr h hcalls h.start_accumulated args
  | some len =>
    dsimp only
    rw [foldPositionsM_congr (I := Accumulated f A) (fun acc? i hacc => ?_)
      (fun acc? i hacc => ?_) 0 len h.start_accumulated]
    · exact congrArg (sliceArgs axis args i >>= ·) (funext fun slices =>
        congrArg (· >>= fun acc => pure (some acc)) (step_congr h hcalls hacc slices))
    · refine (sliceArgs_yields axis args i).bind fun slices => ?_
      exact (step_conforms h hacc slices).bind fun acc => .pure fun _ => accumulated_some

/-- Stacking the results of steps that agree on the states that they hand on. -/
theorem stackResults_congr {α : Type} {I : α → Prop} (axis len : Nat)
    {step step' : α → Nat → Run κ (AdverbStop ε) (Value × α)}
    (hstep : ∀ a i, I a → step a i = step' a i)
    (hI : ∀ a i, I a → Yields (fun _ => True) (fun r _ => I r.2) (step a i)) {a : α} (ha : I a) :
    stackResults axis len step a = stackResults axis len step' a := by
  unfold stackResults
  rw [← hstep a 0 ha]
  refine bind_congr_of_yields (hI a 0 ha) fun r hr => ?_
  obtain ⟨first, a⟩ := r
  refine congrArg (getStore >>= ·) (funext fun s => ?_)
  refine congrArg (orFail (elementLayout s first) >>= ·) (funext fun layout => ?_)
  obtain ⟨elt, shape⟩ := layout
  refine congrArg (make _ >>= ·) (funext fun out => ?_)
  refine congrArg (store _ first >>= ·) (funext fun _ => ?_)
  rw [foldPositionsM_congr (I := I) (fun a i ha => ?_) (fun a i ha => ?_) 1 (len - 1) hr]
  · rw [hstep a i ha]
  · refine (hI a i ha).bind fun r => ?_
    exact (Yields.attempt fun _ _ _ hr _ => hr).bind fun _ => .pure fun _ hr => hr

/-- No accumulator of another type is passed to a call of a scan. -/
theorem scan_congr (h : f.Accumulates apply A E R) (hcalls : f.Agree apply apply' A E)
    {emit : Value} (hemit : ∀ acc, acc.Conforms A → apply emit [acc] = apply' emit [acc])
    (args : List Value) (axis : Nat) :
    scan apply f emit args axis = scan apply' f emit args axis := by
  unfold scan
  refine congrArg (orFail (axisLen axis args) >>= ·) (funext fun len? => ?_)
  have hcall (acc : Value) (hacc : acc.Conforms A) :
      (calling (apply emit [acc]) : Run κ (AdverbStop ε) Value) = calling (apply' emit [acc]) :=
    congrArg calling (hemit acc hacc)
  match len? with
  | none =>
    dsimp only
    rw [← step_congr h hcalls h.start_accumulated args]
    exact bind_congr_of_yields (step_conforms h h.start_accumulated args) hcall
  | some 0 => rfl
  | some (len + 1) =>
    refine stackResults_congr (I := Accumulated f A) axis _ (fun acc? i hacc => ?_)
      (fun acc? i hacc => ?_) h.start_accumulated
    · refine congrArg (sliceArgs axis args i >>= ·) (funext fun slices => ?_)
      rw [← step_congr h hcalls hacc slices]
      refine bind_congr_of_yields (step_conforms h hacc slices) fun acc hacc => ?_
      exact congrArg (· >>= fun r => pure (r, some acc)) (hcall acc hacc)
    · refine (sliceArgs_yields axis args i).bind fun slices => ?_
      refine (step_conforms h hacc slices).bind fun acc => ?_
      refine Yields.pre (P := fun _ => True ∧ acc.Conforms A) (.of_and fun hacc => ?_)
        fun _ hacc => ⟨trivial, hacc⟩
      refine Yields.bind (Q := fun _ _ => True) (fun _ _ _ _ _ => trivial) fun r => ?_
      exact .pure fun _ _ => accumulated_some hacc

/-! ## The first element -/

/-- Over an axis of one position and without an initial value, a reduction is the detached element. -/
theorem reduce_one (hstart : f.start? = none) {args : List Value} {axis : Nat}
    (hlen : axisLen axis args = .ok (some 1)) :
    reduce apply f args axis = (do
      detach (← calling (apply f.func (← sliceArgs axis args 0)))) := by
  unfold reduce
  rw [hlen, hstart]
  simp only [orFail, Run.ofExcept, pure_bind, foldPositionsM, Fold.step, bind_assoc, bind_pure]

/-- The first element is not converted: a reduction of one scalar does not conform to an accumulator
type of another sort than the type of the elements. -/
theorem reduce_one_not_conforms {elt acc : ElemType} (hstart : f.start? = none)
    (helement : ∀ args, Yields (fun _ => True) (fun e _ => e.Conforms (.scalar elt))
      (apply f.func args))
    (hcarrier : elt.carrier ≠ acc.carrier) {args : List Value} {axis : Nat}
    (hlen : axisLen axis args = .ok (some 1)) :
    Yields (fun _ => True) (fun v _ => ¬v.Conforms (.scalar acc)) (reduce apply f args axis) := by
  rw [reduce_one hstart hlen]
  refine (sliceArgs_yields axis args 0).bind fun slices => ?_
  refine (calling_yields (helement slices)).bind fun e => ?_
  refine Yields.pre (P := fun _ => True ∧ e.Conforms (.scalar elt)) (.of_and fun he => ?_)
    fun _ he => ⟨trivial, he⟩
  exact (detach_conforms he).mono fun v _ hv hacc =>
    hcarrier (Value.carrier_eq_of_conforms hv hacc)

end Adverb
end ArrayLang
