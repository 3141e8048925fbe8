import ArrayLang.Proofs.Adverb.Purity
import ArrayLang.Proofs.Adverb.Reduce

/-!
# Scans

A scan goes through the positions like a reduction, and after each it emits what a function makes of the
accumulator. The result for a position is then what is emitted after a reduction over the positions up to it,
if emitting only computes: it changes nothing, and what is returned depends on what the values hold, and not
on where they are stored.

The reduction over the first positions and the scan run in lockstep. The scan has made more arrays by then,
its result among them, so blocks have other numbers. The induction carries a pairing of the blocks that the
accumulators and the arguments can reach. Emitting touches none of them and the result is not among them, so
the next position finds the same accumulator in both.

## Main results

- `Lockstep.advance`: a position of the scan beside the one of the reduction.
- `scan_scanned`, `scan_callValue`: what a scan over an axis that is not empty returns.
- `fold_prefixes`: the calls of reductions, and scans as reductions over the first positions.
-/

namespace ArrayLang

/-- The last one of several positions is run after the others. -/
theorem foldPositionsM_concat {m : Type → Type} [Monad m] [LawfulMonad m] {α : Type}
    (step : α → Nat → m α) (i n : Nat) (a : α) :
    foldPositionsM step i (n + 1) a = foldPositionsM step i n a >>= fun b => step b (i + n) := by
  rw [foldPositionsM_eq_foldlM, foldPositionsM_eq_foldlM, List.range'_concat, List.foldlM_append]
  simp

namespace Adverb

open Interpreter Pairing Run
open Value (Paired PairedAll paired_self pairedAll_self pairedAll_iff mem_blocksAll)

variable {κ ε : Type} {J : κ → Prop} {apply : Value → List Value → Run κ ε Value} {f : Fold}
  {func emit : Value} {args as bs : List Value} {axis len n : Nat} {acc? acc?' : Option Value}
  {σ σ' τ : State κ} {s t : Store} {ρ : Pairing} {value : Value} {shape : List Nat}

/-! ## Values that hold the same -/

/-- The two values hold the same, each where it was returned. -/
def Returned.Same (r r' : Returned κ) : Prop :=
  ∃ ρ : Pairing, ρ.Matches r.state.store r'.state.store ∧ r.value.Paired ρ r'.value

namespace Returned.Same

variable {r r' : Returned κ} (h : r.Same r')
include h

theorem contents? (shape : List Nat) : r'.contents? shape = r.contents? shape := by
  obtain ⟨v, σ⟩ := r
  obtain ⟨w, σ'⟩ := r'
  obtain ⟨ρ, hs, hvalue⟩ := h
  unfold Returned.contents?
  dsimp only at hs hvalue ⊢
  cases hvalue with
  | array hc =>
    unfold Value.contents?
    simp only [View.get_on hs hc]
    rfl
  | _ => rfl

theorem refusal (shape : List Nat) :
    r'.value.refusal r'.state.store shape = r.value.refusal r.state.store shape := by
  obtain ⟨v, σ⟩ := r
  obtain ⟨w, σ'⟩ := r'
  obtain ⟨ρ, hs, hvalue⟩ := h
  have htext := hvalue.text hs
  dsimp only at hs hvalue htext ⊢
  cases hvalue with
  | array hc => rfl
  | _ =>
    unfold Value.refusal
    dsimp only
    rw [htext]

theorem elementLayout :
    elementLayout r'.state.store r'.value = elementLayout r.state.store r.value := by
  obtain ⟨ρ, hs, hvalue⟩ := h
  exact elementLayout_paired hs hvalue

theorem shape_eq : r'.value.shape = r.value.shape := by
  obtain ⟨ρ, -, hvalue⟩ := h
  exact hvalue.shape

end Returned.Same

/-! ## Reductions over the first positions -/

/-- The first positions of an axis, of an array. -/
def firstPositions (axis n : Nat) : Value → Value
  | .array v => .array (v.sliceAxis axis ⟨0, n, 1⟩)
  | arg => arg

/-- What is emitted after a reduction over the positions up to `i`. -/
def emittedAt (apply : Value → List Value → Run κ ε Value) (f : Fold) (emit : Value)
    (args : List Value) (axis i : Nat) : Run κ (AdverbStop ε) Value := do
  let acc ← reduce apply f (args.map (firstPositions axis (i + 1))) axis
  calling (apply emit [acc])

/-- A slice at one of the first positions is the slice of the whole. -/
theorem indexAxis_firstPositions (v : View) (axis n i : Nat) :
    (v.sliceAxis axis ⟨0, n, 1⟩).indexAxis axis i = v.indexAxis axis i := by
  have hstride : (v.strides.set axis (v.strides.getD axis 0 * 1)).getD axis 0
      = v.strides.getD axis 0 := by
    rw [mul_one, List.getD_eq_getElem?_getD, List.getElem?_set_self']
    cases hstride : v.strides[axis]? with
    | none => rw [List.getD_eq_getElem?_getD, hstride]; rfl
    | some stride => rw [List.getD_eq_getElem?_getD, hstride]; rfl
  unfold View.indexAxis View.sliceAxis
  dsimp only
  rw [hstride, List.eraseIdx_set_eq, List.eraseIdx_set_eq]
  simp

theorem slicesAt_firstPositions (axis n : Nat) (args : List Value) :
    slicesAt axis (args.map (firstPositions axis n)) = slicesAt axis args := by
  funext s i
  unfold slicesAt
  rw [List.map_map]
  refine List.map_congr_left fun arg _ => ?_
  cases arg with
  | array v => exact congrArg (Value.ofView s) (indexAxis_firstPositions v axis n i)
  | _ => rfl

theorem hasArray_firstPositions (h : HasArray args) : HasArray (args.map (firstPositions axis n)) := by
  obtain ⟨v, hv⟩ := h
  exact ⟨_, List.mem_map.2 ⟨.array v, hv, rfl⟩⟩

theorem aligned_firstPositions (h : Aligned axis len args) :
    Aligned axis n (args.map (firstPositions axis n)) := by
  intro v hv
  obtain ⟨arg, harg, heq⟩ := List.mem_map.1 hv
  cases arg with
  | array w =>
    cases heq
    have haxis := (h w harg).1
    refine ⟨(View.rank_sliceAxis w axis _).symm ▸ haxis, ?_⟩
    show (w.shape.set axis n).getD axis 0 = n
    rw [List.getD_eq_getElem?_getD, List.getElem?_set_self haxis]
    rfl
  | _ => cases heq

/-- A reduction over the positions up to `n` is one over those before, followed by a step. -/
theorem exec_emittedAt (emit : Value) (harray : HasArray args) (h : Aligned axis len args)
    (hrun : exec (foldPositionsM (position f apply args axis) 0 n f.start?) σ = (.ok acc?, τ)) :
    exec (emittedAt apply f emit args axis n) σ
      = exec (f.step apply acc? (slicesAt axis args τ.store n) >>= fun acc =>
          calling (apply emit [acc])) τ := by
  have hposition : position f apply (args.map (firstPositions axis (n + 1))) axis
      = position f apply args axis := by
    funext acc? i
    show (getStore >>= fun s => f.step apply acc? (slicesAt axis _ s i) >>= _) = _
    rw [slicesAt_firstPositions]
    rfl
  unfold emittedAt
  rw [exec_bind, exec_reduce (hasArray_firstPositions harray) (aligned_firstPositions h), hposition,
    foldPositionsM_concat, exec_bind_ok hrun, Nat.zero_add, exec_position, exec_bind]
  match exec (f.step apply acc? (slicesAt axis args τ.store n)) τ with
  | (.ok acc, τ') => rfl
  | (.error e, τ') => rfl

/-! ## Lockstep -/

/-- A position of a scan: the accumulator after it, and what is emitted. -/
def scanPosition (apply : Value → List Value → Run κ ε Value) (f : Fold) (emit : Value)
    (args : List Value) (axis : Nat) (acc? : Option Value) (i : Nat) :
    Run κ (AdverbStop ε) (Value × Option Value) := do
  let acc ← f.step apply acc? (← sliceArgs axis args i)
  return (← calling (apply emit [acc]), some acc)

/-- After `n` positions from `σ`, a reduction is at `τ` and a scan at `σ'`. Their accumulators hold the same, and
so do their functions and arguments. -/
structure Lockstep (J : κ → Prop) (apply : Value → List Value → Run κ ε Value) (f : Fold) (emit : Value)
    (args : List Value) (axis : Nat) (σ : State κ) (ρ : Pairing) (n : Nat) (acc? : Option Value)
    (τ : State κ) (acc?' : Option Value) (σ' : State κ) : Prop where
  run : exec (foldPositionsM (position f apply args axis) 0 n f.start?) σ = (.ok acc?, τ)
  stores : ρ.Matches τ.store σ'.store
  context : σ'.context = τ.context
  allowed : J τ.context
  acc : Option.Rel (Paired ρ) acc? acc?'
  fold : FoldPaired ρ f f
  emits : emit.Paired ρ emit
  inputs : PairedAll ρ args args

/-- A position of a scan that is at `σ'`, beside what is emitted after the reduction: both fail alike, or what is
returned holds the same. Of the blocks that were there, it changes only those of the pairing, and the pairing
gets none of the others. -/
inductive Advanced (J : κ → Prop) (apply : Value → List Value → Run κ ε Value) (f : Fold) (emit : Value)
    (args : List Value) (axis : Nat) (σ : State κ) (ρ : Pairing) (n : Nat) (acc?' : Option Value)
    (σ' : State κ) : Prop
  | failed {e : AdverbStop ε} {τ τ' : State κ}
    (hemitted : exec (emittedAt apply f emit args axis n) σ = (.error e, τ))
    (hscan : exec (scanPosition apply f emit args axis acc?' n) σ' = (.error e, τ'))
  | emitted {r r' : Returned κ} {acc acc' : Value} {τ : State κ} {ρ' : Pairing}
    (hsame : r.Same r')
    (hemitted : exec (emittedAt apply f emit args axis n) σ = (.ok r.value, r.state))
    (hscan : exec (scanPosition apply f emit args axis acc?' n) σ' = (.ok (r'.value, some acc'), r'.state))
    (hnext : Lockstep J apply f emit args axis σ ρ' (n + 1) (some acc) τ (some acc') r'.state)
    (htouches : σ'.store.TouchesOnly ρ.Right r'.state.store)
    (hold : ∀ b < σ'.store.blocks.size, ρ'.Right b → ρ.Right b)

theorem exec_scanPosition (apply : Value → List Value → Run κ ε Value) (f : Fold) (emit : Value)
    (args : List Value) (axis : Nat) (acc? : Option Value) (i : Nat) (σ : State κ) :
    exec (scanPosition apply f emit args axis acc? i) σ
      = exec (f.step apply acc? (slicesAt axis args σ.store i) >>= fun acc => do
          return (← calling (apply emit [acc]), some acc)) σ :=
  rfl

/-- A call with values of the pairing finds them in the store. -/
theorem inStore_of_paired {v w : Value} (hs : ρ.Matches s t) (h : v.Paired ρ w) : InStore t w := by
  intro b hb
  obtain ⟨c, hc⟩ := h.right b hb
  exact hs.lt_right hc

section

variable (hfunc : Oblivious J apply f.func) (hcombine : Oblivious J apply f.combine)
  (hemit : IsPure J apply emit) (harray : HasArray args) (haligned : Aligned axis len args)
include hfunc hcombine hemit harray haligned

theorem Lockstep.advance (h : Lockstep J apply f emit args axis σ ρ n acc? τ acc?' σ') :
    Advanced J apply f emit args axis σ ρ n acc?' σ' := by
  have hslices := map_sliceArg_paired h.stores h.inputs axis n
  have hstep : Run.Alike J ρ Paired (f.step apply acc? (slicesAt axis args τ.store n))
      (f.step apply acc?' (slicesAt axis args σ'.store n)) :=
    step_alike_of_calls (hfunc ρ _ _ h.fold.func hslices)
      (fun ρ' xs ys hle => hcombine ρ' xs ys (h.fold.combine.mono hle)) h.acc
  have hemitted := exec_emittedAt emit harray haligned h.run
  have hscan := exec_scanPosition apply f emit args axis acc?' n σ'
  rcases hstep.outcomes h.stores h.context h.allowed with
    ⟨e, τ₁, σ₁, hx, hy⟩ | ⟨acc, acc', τ₁, σ₁, ρ₁, hx, hy, hρ₁, hcontext₁, hJ₁, hacc⟩
  · rw [exec_bind, hx] at hemitted
    rw [exec_bind, hy] at hscan
    exact .failed hemitted hscan
  rw [exec_bind_ok hx] at hemitted
  rw [exec_bind_ok hy] at hscan
  have hrun : exec (foldPositionsM (position f apply args axis) 0 (n + 1) f.start?) σ
      = (.ok (some acc), τ₁) := by
    rw [foldPositionsM_concat, exec_bind_ok h.run, Nat.zero_add, exec_position, hx]
  have hemits := h.emits.mono hρ₁.le
  have hcall := (hemit.oblivious ρ₁ _ _ hemits (.cons hacc .nil)).mapError (AdverbStop.call (ε := ε))
  rcases hcall.outcomes hρ₁.stores hcontext₁ hJ₁ with
    ⟨e, τ₂, σ₂, hx, hy⟩ | ⟨value, value', τ₂, σ₂, ρ₂, hx, hy, hρ₂, -, -, hvalue⟩
  · have hy' : exec (calling (apply emit [acc'])) σ₁ = (.error e, σ₂) := hy
    rw [exec_bind, hy'] at hscan
    exact .failed (hemitted.trans hx) hscan
  have hy' : exec (calling (apply emit [acc'])) σ₁ = (.ok value', σ₂) := hy
  rw [exec_bind_ok hy'] at hscan
  -- Emitting changes nothing that the next position finds.
  have hthere : ∀ v ∈ [emit, acc'], InStore σ₁.store v := by
    intro v hv
    rcases List.mem_pair.1 hv with rfl | rfl
    · exact inStore_of_paired hρ₁.stores hemits
    · exact inStore_of_paired hρ₁.stores hacc
  have hcall' := exec_mapError_eq_ok hy
  have htouches := hemit.touches [acc'] σ₁ (hcontext₁ ▸ hJ₁) hthere
  have hcontext := hemit.context [acc'] σ₁ (hcontext₁ ▸ hJ₁) hthere
  rw [hcall'] at htouches hcontext
  have hstores := hρ₁.stores.of_touches (.refl (fun _ => False) _) htouches (fun _ _ => id) fun _ _ => id
  have hsame : Returned.Same ⟨value, τ₂⟩ ⟨value', σ₂⟩ := ⟨ρ₂, hρ₂.stores, hvalue⟩
  exact .emitted hsame (hemitted.trans hx) hscan
    ⟨hrun, hstores, hcontext.trans hcontext₁, hJ₁, .some hacc, h.fold.mono hρ₁.le, hemits,
      h.inputs.mono hρ₁.le⟩
    (hρ₁.right.trans htouches fun _ _ => False.elim)
    fun b hb ⟨a, hab⟩ => (hρ₁.fresh a b hab).elim (fun hold => ⟨a, hold⟩) fun hnew => by omega

end

/-- What leaves the blocks of the pairing alone keeps a scan in lockstep. -/
theorem Lockstep.of_touches {σ'' : State κ} {p : Nat → Prop}
    (h : Lockstep J apply f emit args axis σ ρ n acc? τ acc?' σ')
    (htouches : σ'.store.TouchesOnly p σ''.store) (hp : ∀ b, ρ.Right b → ¬p b)
    (hcontext : σ''.context = σ'.context) :
    Lockstep J apply f emit args axis σ ρ n acc? τ acc?' σ'' :=
  { h with
    stores := h.stores.of_touches (.refl (fun _ => False) _) htouches (fun _ _ => id) hp
    context := hcontext.trans h.context }

/-- At the start, what there is stands for itself. -/
theorem Lockstep.start (hJ : J σ.context)
    (hthere : ∀ v ∈ f.func :: f.combine :: emit :: (args ++ f.start?.toList), InStore σ.store v) :
    Lockstep J apply f emit args axis σ (.self (· < σ.store.blocks.size)) 0 f.start? σ f.start? σ := by
  have hself {v : Value} (hv : v ∈ f.func :: f.combine :: emit :: (args ++ f.start?.toList)) :
      v.Paired (.self (· < σ.store.blocks.size)) v := paired_self v (hthere v hv)
  have hstart : Option.Rel (Paired (.self (· < σ.store.blocks.size))) f.start? f.start? := by
    cases hstart? : f.start? with
    | none => exact .none
    | some acc => exact .some (hself (by simp [hstart?]))
  refine ⟨rfl, self_matches fun _ => id, rfl, hJ, hstart, ⟨hself ?_, hself ?_, hstart⟩, hself ?_, ?_⟩
  · exact List.mem_cons_self
  · exact List.mem_cons_of_mem _ List.mem_cons_self
  · exact List.mem_cons_of_mem _ (List.mem_cons_of_mem _ List.mem_cons_self)
  · refine pairedAll_self args fun b hb => ?_
    obtain ⟨v, hv, hb⟩ := mem_blocksAll.1 hb
    exact hthere v (by simp [hv]) b hb

/-! ## The result of a scan -/

/-- These are emitted for the positions before `i`. -/
def Emitted (emitted : Nat → Run κ (AdverbStop ε) Value) (σ : State κ) (i : Nat)
    (returned : List (Returned κ)) : Prop :=
  List.Forall₂ (fun j r => exec (emitted j) σ = (.ok r.value, r.state)) (List.range i) returned

/-- How a scan over `len` positions from `σ` ends, by what is emitted for each of them. -/
inductive Scanned (emitted : Nat → Run κ (AdverbStop ε) Value) (axis len : Nat) (σ : State κ) :
    Except (AdverbStop ε) Value × State κ → Prop
  /-- All positions emit something. The first of it sizes a new array, and each part of the array holds what
  is emitted for its position, broadcast to the shape of the first and cast to its element type. -/
  | returned {out : View} {first : Returned κ} {σ' : State κ}
      (hfirst : exec (emitted 0) σ = (.ok first.value, first.state))
      (hlayout : elementLayout first.state.store first.value = .ok (out.elt, first.value.shape))
      (hshape : out.shape = first.value.shape.insertIdx (min axis first.value.shape.length) len)
      (hnew : σ.store.blocks.size ≤ out.block) (hwellFormed : out.WellFormed σ'.store)
      (hparts : ∀ i < len, ∃ (r : Returned κ) (c : Contents),
        exec (emitted i) σ = (.ok r.value, r.state) ∧ r.contents? first.value.shape = some c
          ∧ ∀ index, Shape.InRange first.value.shape index →
            Shape.InRange out.shape (index.insertIdx (min axis first.value.shape.length) i)
            ∧ out.get σ'.store (index.insertIdx (min axis first.value.shape.length) i)
              = (c.get index).cast out.elt) :
    Scanned emitted axis len σ (.ok (.array out), σ')
  /-- A position fails, and those before it do not. -/
  | failed {i : Nat} {returned : List (Returned κ)} {e : AdverbStop ε} {τ τ' : State κ} (hi : i < len)
      (hbefore : Emitted emitted σ i returned) (hfit : Fit returned)
      (hfailed : exec (emitted i) σ = (.error e, τ)) :
    Scanned emitted axis len σ (.error e, τ')
  /-- What a position emits cannot be written, and those before it can. -/
  | refused {i : Nat} {returned : List (Returned κ)} {r first : Returned κ} {τ' : State κ} (hi : i < len)
      (hbefore : Emitted emitted σ (i + 1) (returned ++ [r])) (hfit : Fit returned)
      (hfirst : (returned ++ [r]).head? = some first)
      (hrefused : r.contents? first.value.shape = none) :
    Scanned emitted axis len σ
      (.error (.adverb (r.value.refusal r.state.store first.value.shape)), τ')

theorem Emitted.concat {emitted : Nat → Run κ (AdverbStop ε) Value} {returned : List (Returned κ)}
    {r : Returned κ} (h : Emitted emitted σ n returned)
    (hr : exec (emitted n) σ = (.ok r.value, r.state)) : Emitted emitted σ (n + 1) (returned ++ [r]) := by
  unfold Emitted
  rw [List.range_succ]
  exact List.rel_append h (.cons hr .nil)

theorem Emitted.first {emitted : Nat → Run κ (AdverbStop ε) Value} {first : Returned κ}
    {rest : List (Returned κ)} (h : Emitted emitted σ n (first :: rest)) :
    exec (emitted 0) σ = (.ok first.value, first.state) := by
  cases n with
  | zero => cases h
  | succ n =>
    unfold Emitted at h
    rw [List.range_succ_eq_map] at h
    cases h with
    | cons hfirst _ => exact hfirst

/-- What is emitted for a position is in the part for it. -/
theorem Emitted.part {emitted : Nat → Run κ (AdverbStop ε) Value} {returned : List (Returned κ)}
    {P : Nat → Returned κ → Contents → Prop} {i : Nat} (h : Emitted emitted σ n returned)
    (hparts : List.Forall₂ (fun i r => ∃ c, r.contents? shape = some c ∧ P i r c) (List.range n) returned)
    (hi : i < n) :
    ∃ (r : Returned κ) (c : Contents), exec (emitted i) σ = (.ok r.value, r.state)
      ∧ r.contents? shape = some c ∧ P i r c := by
  have hrange : i < (List.range n).length := by rwa [List.length_range]
  have hreturned : i < returned.length := h.length_eq ▸ hrange
  have hemitted := h.get hrange hreturned
  obtain ⟨c, hc⟩ := hparts.get hrange hreturned
  simp only [List.get_eq_getElem, List.getElem_range] at hemitted hc
  exact ⟨_, c, hemitted, hc⟩

/-- A position of a scan whose output is there. -/
def recordPosition (apply : Value → List Value → Run κ ε Value) (f : Fold) (emit : Value)
    (args : List Value) (axis : Nat) (slot : Nat → View) (acc? : Option Value) (i : Nat) :
    Run κ (AdverbStop ε) (Option Value) := do
  let (value, acc?) ← scanPosition apply f emit args axis acc? i
  store (slot i) value
  return acc?

theorem exec_recordPosition (apply : Value → List Value → Run κ ε Value) (f : Fold) (emit : Value)
    (args : List Value) (axis : Nat) (slot : Nat → View) (acc? : Option Value) (i : Nat) (σ : State κ) :
    exec (recordPosition apply f emit args axis slot acc? i) σ
      = match exec (scanPosition apply f emit args axis acc? i) σ with
        | (.ok (value, acc?), τ) =>
          match value.contents? τ.store (slot i).shape with
          | some c => (.ok acc?, ⟨(slot i).setCells c.cells τ.store, τ.context⟩)
          | none => (.error (.adverb (value.refusal τ.store (slot i).shape)), τ)
        | (.error e, τ) => (.error e, τ) := by
  unfold recordPosition
  rw [exec_bind]
  match exec (scanPosition apply f emit args axis acc? i) σ with
  | (.ok (value, acc?), τ) =>
    dsimp only
    rw [exec_bind, exec_store]
    cases value.contents? τ.store (slot i).shape <;> rfl
  | (.error e, τ) => rfl

section

variable (hfunc : Oblivious J apply f.func) (hcombine : Oblivious J apply f.combine)
  (hemit : IsPure J apply emit) (harray : HasArray args) (haligned : Aligned axis len args)
include hfunc hcombine hemit harray haligned

/-- The positions that are left fill the array, up to the first that fails or whose result is refused. -/
theorem fill_scanned {i count : Nat} {out : View} {first : Returned κ} {returned : List (Returned κ)}
    (hlock : Lockstep J apply f emit args axis σ ρ i acc? τ acc?' σ') (hout : ¬ρ.Right out.block)
    (hemitted : Emitted (emittedAt apply f emit args axis) σ i returned) (hfit : Fit returned)
    (hfirst : returned.head? = some first)
    (hlayout : elementLayout first.state.store first.value = .ok (out.elt, first.value.shape))
    (hnew : σ.store.blocks.size ≤ out.block)
    (hfilled : Filled (.along axis len) (fun _ _ => False) first.value.shape out (List.range i)
      returned σ') (hcount : i + count = len) :
    Scanned (emittedAt apply f emit args axis) axis len σ
      (exec (foldPositionsM (recordPosition apply f emit args axis
        (out.indexAxis (min axis first.value.shape.length))) i count acc?' >>= fun _ =>
          return .array out) σ') := by
  induction count generalizing i ρ acc? τ acc?' σ' returned with
  | zero =>
    obtain rfl : i = len := hcount
    obtain ⟨rest, rfl⟩ := List.head?_eq_some_iff.1 hfirst
    exact .returned hemitted.first hlayout hfilled.shape_eq hnew hfilled.wellFormed fun j hj =>
      hemitted.part hfilled.parts hj
  | succ count ih =>
    have hi : i < len := by omega
    have hshape : (out.indexAxis (min axis first.value.shape.length) i).shape = first.value.shape :=
      (Arrangement.along axis len).slot_shape i hfilled.shape_eq
    have hmade : ∀ j ∈ List.range i, j ∈ List.range len ∧ j ≠ i := fun j hj =>
      ⟨List.mem_range.2 ((List.mem_range.1 hj).trans hi), Nat.ne_of_lt (List.mem_range.1 hj)⟩
    rw [foldPositionsM, bind_assoc, exec_bind, exec_recordPosition]
    cases hlock.advance hfunc hcombine hemit harray haligned with
    | failed hfailed hscan =>
      rw [hscan]
      exact .failed hi hemitted hfit hfailed
    | @emitted r r' acc acc' τ' ρ' hsame hr hscan hnext htouches hold =>
      have hfirst' : (returned ++ [r]).head? = some first := by
        rw [List.head?_append, hfirst]
        rfl
      have hcontents : r'.value.contents? r'.state.store first.value.shape
          = r.contents? first.value.shape := hsame.contents? _
      rw [hscan]
      dsimp only
      rw [hshape, hcontents]
      cases hc : r.contents? first.value.shape with
      | none =>
        dsimp only
        rw [hsame.refusal]
        exact .refused hi (hemitted.concat hr) hfit hfirst' hc
      | some c =>
        have hthere := hfilled.wellFormed.block_lt
        have hout' : ¬ρ'.Right out.block := fun hright => hout (hold _ hthere hright)
        have hkept := hfilled.of_touches (fun j hj => (hmade j hj).1) htouches hout fun _ => False.elim
        have hwritten := hkept.after_write (List.mem_range.2 hi) hmade hc
        rw [← List.range_succ] at hwritten
        have hwrite := (out.indexAxis (min axis first.value.shape.length) i).setCells_touches c.cells
          r'.state.store
        have hlock' : Lockstep J apply f emit args axis σ ρ' (i + 1) (some acc) τ' (some acc')
            ⟨(out.indexAxis (min axis first.value.shape.length) i).setCells c.cells r'.state.store,
              r'.state.context⟩ :=
          hnext.of_touches hwrite (fun b hb heq => hout' (heq ▸ hb)) rfl
        exact ih hlock' hout' (hemitted.concat hr) (hfit.concat hfirst' (Option.isSome_of_eq_some hc))
          hfirst' hwritten (by omega)

/-- What is emitted first sizes a new array, which the later positions fill. -/
theorem fill_new_scanned {r r' : Returned κ} {elt : ElemType} {c : Contents} (hsame : r.Same r')
    (hr : exec (emittedAt apply f emit args axis 0) σ = (.ok r.value, r.state))
    (hlock : Lockstep J apply f emit args axis σ ρ 1 acc? τ acc?' r'.state)
    (hsize : σ.store.blocks.size ≤ r'.state.store.blocks.size)
    (hlayout : elementLayout r.state.store r.value = .ok (elt, r.value.shape))
    (hc : r.contents? r.value.shape = some c) (hlen : 1 + n = len) :
    Scanned (emittedAt apply f emit args axis) axis len σ
      (exec (do
        let out ← make (View.zeros elt ((Arrangement.along axis len).shape r.value.shape))
        store (out.indexAxis (min axis r.value.shape.length) 0) r'.value
        let _ ← foldPositionsM (recordPosition apply f emit args axis
          (out.indexAxis (min axis r.value.shape.length))) 1 n acc?'
        return .array out) r'.state) := by
  have hfilled : Filled (.along axis len) (fun _ _ => False) r.value.shape _ [] ([] : List (Returned κ)) _ :=
    .start (σ := r'.state) (fun _ => False.elim) elt
  have hmade : r'.state.store.TouchesOnly (fun _ => False)
      (View.zeros elt ((Arrangement.along axis len).shape r.value.shape) r'.state.store).2 := .alloc _ _ _
  have hblock : (View.zeros elt ((Arrangement.along axis len).shape r.value.shape)
      r'.state.store).1.block = r'.state.store.blocks.size := rfl
  have helt : (View.zeros elt ((Arrangement.along axis len).shape r.value.shape)
      r'.state.store).1.elt = elt := rfl
  rw [exec_bind, exec_make]
  generalize View.zeros elt ((Arrangement.along axis len).shape r.value.shape) r'.state.store = made
    at hfilled hmade hblock helt ⊢
  obtain ⟨out, s⟩ := made
  dsimp only at hfilled hmade hblock helt ⊢
  subst helt
  -- The array is new, so nothing that the next positions find is in it.
  have hout : ¬ρ.Right out.block := by
    rintro ⟨b, hb⟩
    exact absurd (hlock.stores.lt_right hb) (hblock ▸ Nat.lt_irrefl _)
  have hthere : InStore r'.state.store r'.value := by
    obtain ⟨ρ', hs, hvalue⟩ := hsame
    exact inStore_of_paired hs hvalue
  have hcontents : r'.value.contents? s r.value.shape = some c :=
    calc r'.value.contents? s r.value.shape
        = r'.value.contents? r'.state.store r.value.shape :=
          r'.value.contents?_of_touches hmade hthere (fun _ _ => id) r.value.shape
      _ = r.contents? r.value.shape := hsame.contents? _
      _ = some c := hc
  have hshape : (out.indexAxis (min axis r.value.shape.length) 0).shape = r.value.shape :=
    (Arrangement.along axis len).slot_shape 0 hfilled.shape_eq
  have hfirst : 0 ∈ (Arrangement.along axis len).positions :=
    List.mem_range.2 (hlen ▸ Nat.add_pos_left Nat.one_pos n)
  have hwrite := (out.indexAxis (min axis r.value.shape.length) 0).setCells_touches c.cells s
  have hlock' : Lockstep J apply f emit args axis σ ρ 1 acc? τ acc?'
      ⟨(out.indexAxis (min axis r.value.shape.length) 0).setCells c.cells s, r'.state.context⟩ :=
    hlock.of_touches ((hmade.mono fun _ => False.elim).trans hwrite fun _ _ => id)
      (fun b hb heq => hout (heq ▸ hb)) rfl
  have hemitted : Emitted (emittedAt apply f emit args axis) σ 0 [] := .nil
  have hfit : Fit ([] : List (Returned κ)) := fun _ hnone => nomatch hnone
  rw [exec_bind, exec_store, hshape, hcontents]
  exact fill_scanned hfunc hcombine hemit harray haligned hlock' hout (hemitted.concat hr)
    (hfit.concat rfl (Option.isSome_of_eq_some hc)) rfl hlayout (hblock ▸ hsize)
    (hfilled.after_write hfirst (fun _ hj => nomatch hj) hc) hlen

/-- What a scan along an axis that is not empty returns. -/
theorem scan_scanned (hlen : 0 < len) (hJ : J σ.context)
    (hthere : ∀ v ∈ f.func :: f.combine :: emit :: (args ++ f.start?.toList), InStore σ.store v) :
    Scanned (emittedAt apply f emit args axis) axis len σ (exec (scan apply f emit args axis) σ) := by
  obtain ⟨n, rfl⟩ := Nat.exists_eq_succ_of_ne_zero (Nat.ne_of_gt hlen)
  have hscan : scan apply f emit args axis
      = stackResults axis (n + 1) (scanPosition apply f emit args axis) f.start? := by
    unfold scan
    rw [axisLen_aligned harray haligned]
    rfl
  have hemitted : Emitted (emittedAt apply f emit args axis) σ 0 [] := .nil
  have hfit : Fit ([] : List (Returned κ)) := fun _ hnone => nomatch hnone
  have hstart : Lockstep J apply f emit args axis σ (.self (· < σ.store.blocks.size)) 0 f.start? σ f.start? σ :=
    .start hJ hthere
  rw [hscan]
  unfold stackResults
  cases hstart.advance hfunc hcombine hemit harray haligned with
  | failed hfailed hexec =>
    rw [exec_bind, hexec]
    exact .failed hlen hemitted hfit hfailed
  | @emitted r r' acc acc' τ ρ hsame hr hexec hnext htouches hold =>
    rw [exec_bind_ok hexec, exec_bind, exec_getStore]
    dsimp only
    rw [hsame.elementLayout]
    rcases elementLayout_cases r.state.store r.value with ⟨c, elt, hc, hlayout⟩ | ⟨hc, hlayout⟩
    · have hok : exec (orFail (elementLayout r.state.store r.value) : Run κ (AdverbStop ε) _) r'.state
          = (.ok (elt, r.value.shape), r'.state) := by
        rw [hlayout]
        rfl
      rw [exec_bind_ok hok]
      exact fill_new_scanned hfunc hcombine hemit harray haligned hsame hr hnext htouches.size hlayout hc
        (Nat.add_comm 1 n)
    · rw [hlayout]
      exact .refused hlen (hemitted.concat hr) hfit rfl hc

end

/-- No function of the language depends on where values are stored, so that a scan over calls of the
language holds what is emitted after reductions, if emitting only computes. -/
theorem scan_callValue {σ : State Session} (fuel : Nat) (trace : Trace) (harray : HasArray args)
    (haligned : Aligned axis len args) (hlen : 0 < len) (hσ : σ.context.Impartial)
    (hthere : ∀ v ∈ f.func :: f.combine :: emit :: (args ++ f.start?.toList), InStore σ.store v)
    (hemit : IsPure Session.Impartial (callValue (applyFn fuel) trace) emit) :
    Scanned (emittedAt (callValue (applyFn fuel) trace) f emit args axis) axis len σ
      (exec (scan (callValue (applyFn fuel) trace) f emit args axis) σ) :=
  scan_scanned (callValue_oblivious fuel trace _) (callValue_oblivious fuel trace _) hemit harray haligned
    hlen hσ hthere

/-! ## All folds -/

theorem scan_no_array (apply : Value → List Value → Run κ ε Value) (f : Fold) (emit : Value) (axis : Nat)
    (h : ¬HasArray args) :
    scan apply f emit args axis = (do
      let acc ← reduce apply f args axis
      calling (apply emit [acc])) := by
  unfold scan reduce
  rw [axisLen_no_array h]
  rfl

theorem scan_empty (apply : Value → List Value → Run κ ε Value) (f : Fold) (emit : Value) {first : View}
    (h : Aligned axis 0 args) (hfirst : args.find? Value.isArray = some (.array first)) (σ : State κ) :
    exec (scan apply f emit args axis) σ
      = (.ok (.array (View.zeros first.elt first.shape σ.store).1),
        ⟨(View.zeros first.elt first.shape σ.store).2, σ.context⟩) := by
  have harray : HasArray args := ⟨first, List.mem_of_find?_eq_some hfirst⟩
  unfold scan
  rw [axisLen_aligned harray h]
  show exec (emptyLike args) σ = _
  unfold emptyLike
  rw [firstLayout_eq hfirst]
  rfl

/-- Take any functions, initial value, arguments and axis. If the arrays among the arguments do not agree on the
axis, reductions and scans fail without a call. Otherwise the calls of a reduction are made for one position
after the other, up to the first that fails, and the last accumulator is the result. A reduction itself fails
for want of an accumulator exactly if there is no initial value and the axis is empty.

Without an array, a scan emits the one accumulator. If the axis is empty, it makes no call. Otherwise, if
emitting only computes and no function depends on where values are stored, it holds for each position what
is emitted after a reduction over the positions up to it. -/
theorem fold_prefixes (apply : Value → List Value → Run κ ε Value) (f : Fold) (emit : Value)
    (args : List Value) (axis : Nat) (σ : State κ) :
    (Misaligned axis args → ∃ e, axisLen axis args = .error e
        ∧ exec (reduce apply f args axis) σ = (.error (.adverb e), σ)
        ∧ exec (scan apply f emit args axis) σ = (.error (.adverb e), σ))
      ∧ (¬HasArray args →
        (∃ outcome, Folded f apply (fun _ (_ : Unit) => args) [()] f.start? σ outcome
          ∧ exec (reduce apply f args axis) σ = finished outcome)
        ∧ scan apply f emit args axis = (do
          let acc ← reduce apply f args axis
          calling (apply emit [acc])))
      ∧ (∀ len, HasArray args → Aligned axis len args →
        ∃ outcome, Folded f apply (slicesAt axis args) (List.range len) f.start? σ outcome
          ∧ exec (reduce apply f args axis) σ = finished outcome)
      ∧ ((exec (reduce apply f args axis) σ).1 = .error (.adverb .emptyReduce)
        ↔ f.start? = none ∧ HasArray args ∧ Aligned axis 0 args)
      ∧ (∀ first, args.find? Value.isArray = some (.array first) → Aligned axis 0 args →
        exec (scan apply f emit args axis) σ
          = (.ok (.array (View.zeros first.elt first.shape σ.store).1),
            ⟨(View.zeros first.elt first.shape σ.store).2, σ.context⟩))
      ∧ ∀ len J, HasArray args → Aligned axis len args → 0 < len → J σ.context →
        (∀ v ∈ f.func :: f.combine :: emit :: (args ++ f.start?.toList), InStore σ.store v) →
          Oblivious J apply f.func → Oblivious J apply f.combine → IsPure J apply emit →
            Scanned (emittedAt apply f emit args axis) axis len σ
              (exec (scan apply f emit args axis) σ) := by
  refine ⟨fun h => ?_, fun h => ⟨reduce_folded_no_array apply f axis h σ, scan_no_array apply f emit axis h⟩,
    fun len harray h => reduce_folded apply f harray h σ, reduce_emptyReduce_iff apply f args axis σ,
    fun first hfirst h => scan_empty apply f emit h hfirst σ, ?_⟩
  · obtain ⟨e, he, hstop⟩ := exec_misaligned h
    exact ⟨e, he, hstop _ σ, hstop _ σ⟩
  · intro len J harray h hlen hJ hthere hfunc hcombine hemit
    exact scan_scanned hfunc hcombine hemit harray h hlen hJ hthere

/-- Sums of absolute values. -/
def absoluteSums : Fold :=
  ⟨.op .abs, .op .add, none⟩

/-- The table, in a session that knows nothing yet. -/
def tableInSession : State Session :=
  ⟨Arrays.table.2, .new none⟩

/-- The integers of the array that is returned. -/
def returnedInts (r : Except (AdverbStop Stop) Value × State Session) : List Int64 :=
  match r with
  | (.ok (.array out), σ) => (out.toFlat σ.store).map Scalar.toInt64
  | _ => []

/-- The table has no third axis. Its columns are summed from left to right, and each sum is emitted with the
opposite sign. Without rows there is nothing to sum, and nothing to emit. -/
theorem fold_prefixes_table :
    (exec (reduce (callValue (applyFn 0) []) absoluteSums [.array Arrays.table.1] 2) tableInSession).2
        = tableInSession
      ∧ scan (callValue (applyFn 0) []) absoluteSums (.op .negative) [.int (-3)] 0 = (do
        let acc ← reduce (callValue (applyFn 0) []) absoluteSums [.int (-3)] 0
        calling (callValue (applyFn 0) [] (.op .negative) [acc]))
      ∧ (∃ outcome, Folded absoluteSums (callValue (applyFn 0) []) (slicesAt 1 [.array Arrays.table.1])
          (List.range 3) none tableInSession outcome
        ∧ exec (reduce (callValue (applyFn 0) []) absoluteSums [.array Arrays.table.1] 1) tableInSession
          = finished outcome)
      ∧ (exec (reduce (callValue (applyFn 0) []) absoluteSums [.array noRows] 0) tableInSession).1
        = .error (.adverb .emptyReduce)
      ∧ (exec (scan (callValue (applyFn 0) []) absoluteSums (.op .negative) [.array noRows] 0)
          tableInSession).1 = .ok (.array (View.zeros .int8 [0, 3] Arrays.table.2).1)
      ∧ Scanned (emittedAt (callValue (applyFn 0) []) absoluteSums (.op .negative)
          [.array Arrays.table.1] 1) 1 3 tableInSession
        (exec (scan (callValue (applyFn 0) []) absoluteSums (.op .negative) [.array Arrays.table.1] 1)
          tableInSession)
      ∧ returnedInts (exec (scan (callValue (applyFn 0) []) absoluteSums (.op .negative)
          [.array Arrays.table.1] 1) tableInSession) = [-1, -3, -6, -4, -9, -53] := by
  have hmember : Value.array Arrays.table.1 ∈ [.array Arrays.table.1] := List.mem_cons_self
  have haligned : Aligned 1 3 [.array Arrays.table.1] := by
    intro v hv
    cases List.mem_singleton.1 hv
    decide
  have hempty : Aligned 0 0 [.array noRows] := by
    intro v hv
    cases List.mem_singleton.1 hv
    decide
  have hthere : ∀ v ∈ [.op .abs, .op .add, .op .negative, .array Arrays.table.1],
      InStore tableInSession.store v := by
    intro v hv b hb
    simp only [List.mem_cons, List.not_mem_nil, or_false] at hv
    rcases hv with rfl | rfl | rfl | rfl
    · cases hb
    · cases hb
    · cases hb
    · obtain rfl : b = 0 := List.mem_singleton.1 hb
      decide
  have himpartial : tableInSession.context.Impartial := nofun
  obtain ⟨hmisaligned, -⟩ := fold_prefixes (callValue (applyFn 0) []) absoluteSums (.op .negative)
    [.array Arrays.table.1] 2 tableInSession
  obtain ⟨-, hnone, -⟩ := fold_prefixes (callValue (applyFn 0) []) absoluteSums (.op .negative)
    [.int (-3)] 0 tableInSession
  obtain ⟨-, -, -, hemptyReduce, hnoRows, -⟩ := fold_prefixes (callValue (applyFn 0) []) absoluteSums
    (.op .negative) [.array noRows] 0 tableInSession
  obtain ⟨-, -, hfolded, -, -, hscanned⟩ := fold_prefixes (callValue (applyFn 0) []) absoluteSums
    (.op .negative) [.array Arrays.table.1] 1 tableInSession
  obtain ⟨e, -, hreduce, -⟩ := hmisaligned (.inl ⟨_, hmember, by decide⟩)
  refine ⟨by rw [hreduce], (hnone ?_).2, hfolded 3 ⟨_, hmember⟩ haligned,
    hemptyReduce.2 ⟨rfl, ⟨noRows, List.mem_cons_self⟩, hempty⟩, by rw [hnoRows noRows rfl hempty]; rfl, ?_,
    by decide +kernel⟩
  · rintro ⟨v, hv⟩
    cases List.mem_singleton.1 hv
  · exact hscanned 3 Session.Impartial ⟨_, hmember⟩ haligned (by decide) himpartial hthere
      (callValue_oblivious 0 [] _) (callValue_oblivious 0 [] _) (callValue_op_pure 0 [] .negative)

end Adverb
end ArrayLang
