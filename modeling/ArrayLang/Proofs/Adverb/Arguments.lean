import ArrayLang.Proofs.Adverb.Fold
import ArrayLang.Proofs.Array.Contents
import ArrayLang.Proofs.Storage.Confined

/-!
# What a fold does to its arguments

A fold without an initial value starts with the first element, which may be a view of an argument. It is
detached: an array gets storage of its own. Later accumulators are what combining returns, and are not
detached, so they share storage with an argument as soon as combining returns its element or a part of it.
The next combination may then write through it into the argument.

Arguments are as they were under two conditions. What combining returns lies in the storage of its
accumulator or in new storage, and so does a first element that is no array, since only arrays are
detached. The invariant is that the accumulator lies in blocks that were made since the start.

## Main results

- `Fold.Confined`: what is asked of the calls of a fold.
- `reduce_touches`, `scan_touches`: no block changes but those of the initial value.
- `reduce_arguments`, `scan_arguments`: without one, the arguments are as they were.
- `reduce_last`: a reduction that always takes the element ends with a view of its argument.
-/

namespace ArrayLang.Adverb

open Run

variable {κ ε : Type} {apply : Value → List Value → Run κ ε Value} {f : Fold} {s : Store}
  {p : Nat → Prop} {σ σ' : State κ} {v e acc : Value} {w slot : View} {args slices : List Value}
  {acc? : Option Value}

/-! ## The storage of calls -/

/-- The value lies in blocks of the store. -/
def InStore (s : Store) (v : Value) : Prop :=
  ∀ b ∈ v.blocks, b < s.blocks.size

/-- The call changes no other block than those of `p`, and what it returns is in the store, in blocks of `q`
and in new ones. -/
structure Confines (p q : Nat → Prop) (x : Run κ ε Value) (σ : State κ) : Prop where
  touches : σ.store.TouchesOnly p (exec x σ).2.store
  result : ∀ v σ', exec x σ = (.ok v, σ') →
    ∀ b ∈ v.blocks, b < σ'.store.blocks.size ∧ (q b ∨ σ.store.blocks.size ≤ b)

theorem Confines.size_le {q : Nat → Prop} {x : Run κ ε Value} (h : Confines p q x σ)
    (hx : exec x σ = (.ok v, σ')) : σ.store.blocks.size ≤ σ'.store.blocks.size := by
  have hsize := h.touches.size
  rwa [hx] at hsize

/-- The calls of a fold: the element function writes nothing, and combining writes only what its accumulator
lies in and returns nothing of its element. Without an initial value, elements are arrays or lie in
new blocks. -/
structure Fold.Confined (f : Fold) (apply : Value → List Value → Run κ ε Value) : Prop where
  element : ∀ args σ, (∀ arg ∈ args, InStore σ.store arg) →
    Confines (fun _ => False) (fun _ => True) (apply f.func args) σ
  seed : f.start? = none → ∀ args σ e σ', (∀ arg ∈ args, InStore σ.store arg) →
    exec (apply f.func args) σ = (.ok e, σ') →
      (∃ v, e = .array v) ∨ ∀ b ∈ e.blocks, σ.store.blocks.size ≤ b
  combine : ∀ acc e σ, InStore σ.store acc → InStore σ.store e →
    Confines (· ∈ acc.blocks) (· ∈ acc.blocks) (apply f.combine [acc, e]) σ

/-- The blocks of the initial value. -/
def Fold.initial (f : Fold) (b : Nat) : Prop :=
  ∃ acc, f.start? = some acc ∧ b ∈ acc.blocks

/-! ## One step -/

/-- Since `s`, no other block that was there has changed than those of `p`. -/
def Since (s : Store) (p : Nat → Prop) (σ : State κ) : Prop :=
  s.TouchesOnly p σ.store

/-- The value is in the store and lies in blocks of `p` and in those made since `s`. -/
def Owned (s : Store) (p : Nat → Prop) (v : Value) (σ : State κ) : Prop :=
  ∀ b ∈ v.blocks, b < σ.store.blocks.size ∧ (p b ∨ s.blocks.size ≤ b)

theorem Owned.grow (h : Owned s p v σ) (hsize : σ.store.blocks.size ≤ σ'.store.blocks.size) :
    Owned s p v σ' :=
  fun b hb => ⟨Nat.lt_of_lt_of_le (h b hb).1 hsize, (h b hb).2⟩

theorem Current.grow (h : Current f (Owned s p) acc? σ)
    (hsize : σ.store.blocks.size ≤ σ'.store.blocks.size) : Current f (Owned s p) acc? σ' :=
  ⟨h.1, fun acc hacc => (h.2 acc hacc).grow hsize⟩

theorem Current.of_some (h : Owned s p acc σ) : Current f (Owned s p) (some acc) σ :=
  ⟨nofun, fun _ heq => Option.some.inj heq ▸ h⟩

theorem alloc_since {t : Store} {c : κ} (h : Since s p ⟨t, c⟩) (cells : Array Scalar) :
    Since s p ⟨(t.alloc cells).2, c⟩ ∧ t.blocks.size < (t.alloc cells).2.blocks.size := by
  have halloc := Store.TouchesOnly.alloc p t cells
  refine ⟨Store.TouchesOnly.trans h halloc fun _ _ => id, ?_⟩
  show _ < (t.blocks.push cells).size
  rw [Array.size_push]
  omega

/-- A call that writes only what a value lies in keeps other blocks as they were. -/
theorem Since.call {x : Run κ ε Value} {a q : Nat → Prop} (h : Since s p σ)
    (ha : ∀ b, a b → p b ∨ s.blocks.size ≤ b) (hx : Confines a q x σ) :
    Since s p (exec x σ).2 := by
  refine Store.TouchesOnly.trans h hx.touches fun b hb hab => ?_
  exact (ha b hab).resolve_right (Nat.not_le_of_lt hb)

theorem element_preserves (h : f.Confined apply) (hslices : ∀ arg ∈ slices, InStore s arg) :
    Preserves (Since s p) (Current f (Owned s p) acc?)
      (fun e σ => InStore σ.store e
        ∧ (acc? = none → (∃ v, e = .array v) ∨ ∀ b ∈ e.blocks, s.blocks.size ≤ b)
        ∧ Current f (Owned s p) acc? σ)
      (apply f.func slices) := by
  intro σ hI hσ
  have hthere : ∀ arg ∈ slices, InStore σ.store arg := fun arg harg b hb =>
    Nat.lt_of_lt_of_le (hslices arg harg b hb) hI.size
  have hcall := h.element slices σ hthere
  -- The accumulator waits while the element is computed, and stays in the store.
  refine ⟨hI.call (fun _ => False.elim) hcall, fun e σ' hx => ?_⟩
  refine ⟨fun b hb => (hcall.result e σ' hx b hb).1, fun hnone => ?_, hσ.grow (hcall.size_le hx)⟩
  refine (h.seed (hσ.1 hnone) slices σ e σ' hthere hx).imp_right fun hnew b hb => ?_
  exact Nat.le_trans hI.size (hnew b hb)

/-- A first element that is an array is detached, and others are in new blocks already. -/
theorem detach_preserves {e : Value} :
    Preserves (Since s p)
      (fun σ => InStore σ.store e ∧ ((∃ v, e = .array v) ∨ ∀ b ∈ e.blocks, s.blocks.size ≤ b))
      (Owned s p) (detach e : Run κ (AdverbStop ε) Value) := by
  intro σ hI hσ
  obtain ⟨hthere, hseed⟩ := hσ
  by_cases harray : ∃ v, e = .array v
  · obtain ⟨v, rfl⟩ := harray
    have halloc := alloc_since hI ((v.toFlat σ.store).map (·.cast v.elt)).toArray
    refine ⟨halloc.1, fun a σ' hx b hb => ?_⟩
    cases hx
    obtain rfl : b = σ.store.blocks.size := List.mem_singleton.1 hb
    exact ⟨halloc.2, .inr hI.size⟩
  · have hkept : (detach e : Run κ (AdverbStop ε) Value) = pure e := by
      cases e with
      | array v => exact absurd ⟨v, rfl⟩ harray
      | _ => rfl
    rw [hkept]
    refine ⟨hI, fun a σ' hx b hb => ?_⟩
    cases hx
    exact ⟨hthere b hb, .inr (hseed.resolve_left harray b hb)⟩

/-- Combining keeps to what its accumulator lies in and to new blocks. -/
theorem combine_preserves (h : f.Confined apply) (acc e : Value) :
    Preserves (Since s p) (fun σ => InStore σ.store e ∧ Owned s p acc σ) (Owned s p)
      (apply f.combine [acc, e]) := by
  intro σ hI hσ
  obtain ⟨he, hacc⟩ := hσ
  have hcall := h.combine acc e σ (fun b hb => (hacc b hb).1) he
  refine ⟨hI.call (fun b hb => (hacc b hb).2) hcall, fun v σ' hx b hb => ?_⟩
  -- What is new since the call is new since the start.
  obtain ⟨hlt, hold | hnew⟩ := hcall.result v σ' hx b hb
  · exact ⟨hlt, (hacc b hold).2⟩
  · exact ⟨hlt, .inr (Nat.le_trans hI.size hnew)⟩

theorem step_preserves (h : f.Confined apply) (hslices : ∀ arg ∈ slices, InStore s arg) :
    Preserves (Since s p) (Current f (Owned s p) acc?) (Owned s p) (f.step apply acc? slices) := by
  unfold Fold.step
  refine Preserves.bind (element_preserves h hslices).mapError fun e => ?_
  cases acc? with
  | none => exact detach_preserves.pre fun σ hσ => ⟨hσ.1, hσ.2.1 rfl⟩
  | some acc =>
    exact (combine_preserves h acc e).mapError.pre fun σ hσ => ⟨hσ.1, hσ.2.2.2 acc rfl⟩

/-! ## Walks along an axis -/

theorem mem_blocks_of_sliceArg {axis i b : Nat} {arg : Value}
    (hb : b ∈ (sliceArg s axis i arg).blocks) : b ∈ arg.blocks := by
  cases arg with
  | array v => exact List.mem_singleton.2 (Value.blocks_ofView s (v.indexAxis axis i) b hb)
  | _ => exact hb

/-- Slices of arguments lie where the arguments do. -/
theorem sliceArgs_preserves (axis i : Nat) (hargs : ∀ arg ∈ args, InStore s arg) :
    Preserves (Since s p) (Current f (Owned s p) acc?)
      (fun slices σ => (∀ arg ∈ slices, InStore s arg) ∧ Current f (Owned s p) acc? σ)
      (sliceArgs axis args i : Run κ (AdverbStop ε) (List Value)) := by
  refine Preserves.bind (Q := fun _ => Current f (Owned s p) acc?) (.getStore fun _ hσ => hσ)
    fun t => .pure fun σ hσ => ⟨fun slice hslice b hb => ?_, hσ⟩
  obtain ⟨arg, harg, rfl⟩ := List.mem_map.1 hslice
  exact hargs arg harg b (mem_blocks_of_sliceArg hb)

/-- At the start, an accumulator is the initial value. -/
theorem current_start (hstart : ∀ acc, f.start? = some acc → InStore s acc) {c : κ} :
    Current f (Owned s f.initial) f.start? ⟨s, c⟩ :=
  ⟨id, fun acc hacc b hb => ⟨hstart acc hacc b hb, .inl ⟨acc, hacc, hb⟩⟩⟩

/-- Take a fold whose calls are confined, and arguments that are in the store. A reduction changes no block
that is there but those of its initial value, whether it succeeds or not. -/
theorem reduce_touches (h : f.Confined apply) (hargs : ∀ arg ∈ args, InStore s arg)
    (hstart : ∀ acc, f.start? = some acc → InStore s acc) (axis : Nat) (c : κ) :
    s.TouchesOnly f.initial (exec (reduce apply f args axis) ⟨s, c⟩).2.store := by
  have hreduce : Preserves (Since s f.initial) (Current f (Owned s f.initial) f.start?)
      (fun _ _ => True) (reduce apply f args axis) := by
    unfold reduce
    refine Preserves.bind (Q := fun _ => Current f (Owned s f.initial) f.start?)
      (.ofExcept fun _ _ _ hσ => hσ) fun len? => ?_
    cases len? with
    | none => exact (step_preserves h hargs).mono fun _ _ _ => trivial
    | some len =>
      -- Every accumulator may be written: it lies in the initial value or in blocks made since.
      refine Preserves.bind (Preserves.foldPositionsM (Q := Current f (Owned s f.initial))
        (fun acc? i => ?_) 0 len f.start?) fun acc? => ?_
      · refine (sliceArgs_preserves axis i hargs).bind fun slices => .of_and fun hslices => ?_
        exact (step_preserves h hslices).bind fun acc => .pure fun _ => .of_some
      · cases acc? with
        | none => exact .throw _
        | some acc => exact .pure fun _ _ => trivial
  exact (hreduce ⟨s, c⟩ (.refl _ s) (current_start hstart)).1

/-! ## Stacking -/

theorem writeSlot_touches {t : Store} {write : Store → Store}
    (h : writeSlot slot v t = .ok write) : t.TouchesOnly (· = slot.block) (write t) := by
  cases v with
  | scalar x =>
    cases h
    exact slot.fill_touches x t
  | array src => exact View.cellsFrom_touches h
  | _ => cases h

section Stack

variable {α : Type} {J : α → State κ → Prop}
  (hgrow : ∀ a σ σ', J a σ → σ.store.blocks.size ≤ σ'.store.blocks.size → J a σ')
include hgrow

/-- Writing into a new block keeps what only needs blocks to be there. -/
theorem store_preserves (hslot : s.blocks.size ≤ slot.block) (value : Value) (a : α) :
    Preserves (Since s p) (J a) (fun _ => J a)
      (store slot value : Run κ (AdverbStop ε) Unit) := by
  refine .attempt fun t c f hI hJ hplan => ?_
  cases hwrite : writeSlot slot value t with
  | error e =>
    rw [hwrite] at hplan
    cases hplan
  | ok write =>
    rw [hwrite] at hplan
    cases hplan
    have htouches := writeSlot_touches hwrite
    refine ⟨Store.TouchesOnly.trans hI htouches fun b hb heq => ?_, hgrow a _ _ hJ htouches.size⟩
    exact absurd (heq ▸ hslot) (Nat.not_le_of_lt hb)

/-- Stacking writes only the output, which is new. -/
theorem stackResults_preserves {step : α → Nat → Run κ (AdverbStop ε) (Value × α)}
    (hstep : ∀ a i, Preserves (Since s p) (J a) (fun r => J r.2) (step a i)) (axis len : Nat)
    (start : α) :
    Preserves (Since s p) (J start) (fun _ _ => True) (stackResults axis len step start) := by
  unfold stackResults
  refine (hstep start 0).bind fun r => ?_
  obtain ⟨first, a⟩ := r
  refine Preserves.bind (Q := fun _ => J a) (.getStore fun _ hJ => hJ) fun t => ?_
  refine Preserves.bind (Q := fun _ => J a) (.ofExcept fun _ _ _ hJ => hJ) fun layout => ?_
  obtain ⟨elt, shape⟩ := layout
  dsimp only
  have hmake : Preserves (Since s p) (J a) (fun out σ => s.blocks.size ≤ out.block ∧ J a σ)
      (make (View.zeros elt (shape.insertIdx (min axis shape.length) len)) :
        Run κ (AdverbStop ε) View) := by
    refine .make fun t c hI hJ => ?_
    have halloc := alloc_since (c := c) hI
      (.replicate (Shape.size (shape.insertIdx (min axis shape.length) len))
        ((Scalar.int 0).cast elt))
    exact ⟨halloc.1, hI.size, hgrow a _ _ hJ (Nat.le_of_lt halloc.2)⟩
  refine hmake.bind fun out => .of_and fun hout => ?_
  have hslot (i : Nat) : s.blocks.size ≤ (out.indexAxis (min axis shape.length) i).block := hout
  refine (store_preserves hgrow (hslot 0) first a).bind fun _ => ?_
  refine (Preserves.foldPositionsM (Q := J) (fun a i => ?_) 1 (len - 1) a).bind fun _ =>
    .pure fun _ _ => trivial
  refine (hstep a i).bind fun r => ?_
  obtain ⟨value, a⟩ := r
  exact (store_preserves hgrow (hslot i) value a).bind fun _ => .pure fun _ hJ => hJ

end Stack

theorem emit_preserves {emit : Value}
    (hemit : ∀ acc σ, InStore σ.store acc →
      Confines (· ∈ acc.blocks) (fun _ => True) (apply emit [acc]) σ) (acc : Value) :
    Preserves (Since s p) (Owned s p acc) (fun _ => Owned s p acc) (apply emit [acc]) := by
  intro σ hI hacc
  have hcall := hemit acc σ fun b hb => (hacc b hb).1
  exact ⟨hI.call (fun b hb => (hacc b hb).2) hcall, fun v σ' hx => hacc.grow (hcall.size_le hx)⟩

/-- Take in addition an emitting function that writes only what the accumulator lies in. A scan changes no
block that is there but those of the initial value, whether it succeeds or not. -/
theorem scan_touches (h : f.Confined apply) {emit : Value}
    (hemit : ∀ acc σ, InStore σ.store acc →
      Confines (· ∈ acc.blocks) (fun _ => True) (apply emit [acc]) σ)
    (hargs : ∀ arg ∈ args, InStore s arg) (hstart : ∀ acc, f.start? = some acc → InStore s acc)
    (axis : Nat) (c : κ) :
    s.TouchesOnly f.initial (exec (scan apply f emit args axis) ⟨s, c⟩).2.store := by
  have hscan : Preserves (Since s f.initial) (Current f (Owned s f.initial) f.start?)
      (fun _ _ => True) (scan apply f emit args axis) := by
    unfold scan
    refine Preserves.bind (Q := fun _ => Current f (Owned s f.initial) f.start?)
      (.ofExcept fun _ _ _ hσ => hσ) fun len? => ?_
    match len? with
    | none =>
      refine (step_preserves h hargs).bind fun acc => ?_
      exact (emit_preserves hemit acc).mapError.mono fun _ _ _ => trivial
    | some 0 =>
      refine Preserves.bind (Q := fun _ _ => True) (.make fun t c hI _ => ?_) fun out =>
        .pure fun _ _ => trivial
      exact ⟨(alloc_since (c := c) hI _).1, trivial⟩
    | some (len + 1) =>
      refine stackResults_preserves (J := Current f (Owned s f.initial))
        (fun _ _ _ hσ hsize => hσ.grow hsize) (fun acc? i => ?_) axis _ f.start?
      refine (sliceArgs_preserves axis i hargs).bind fun slices => .of_and fun hslices => ?_
      refine (step_preserves h hslices).bind fun acc => ?_
      exact (emit_preserves hemit acc).mapError.bind fun _ => .pure fun _ => .of_some
  exact (hscan ⟨s, c⟩ (.refl _ s) (current_start hstart)).1

/-! ## Arguments -/

/-- Without an initial value there is nothing to write to. -/
theorem not_initial (hstart : f.start? = none) (b : Nat) : ¬f.initial b := by
  rintro ⟨acc, hacc, -⟩
  rw [hstart] at hacc
  cases hacc

theorem get_argument {s' : Store} (hs : s.TouchesOnly f.initial s') (hstart : f.start? = none)
    (hargs : ∀ arg ∈ args, InStore s arg) (hw : .array w ∈ args) (index : List Nat) :
    w.get s' index = w.get s index :=
  w.get_of_touches hs (hargs _ hw w.block List.mem_cons_self) (not_initial hstart _) index

/-- After a reduction without an initial value, every array among the arguments has the elements that it
had before. -/
theorem reduce_arguments (h : f.Confined apply) (hstart : f.start? = none)
    (hargs : ∀ arg ∈ args, InStore s arg) (axis : Nat) (c : κ) (hw : .array w ∈ args)
    (index : List Nat) :
    w.get (exec (reduce apply f args axis) ⟨s, c⟩).2.store index = w.get s index := by
  refine get_argument (reduce_touches h hargs ?_ axis c) hstart hargs hw index
  rw [hstart]
  exact nofun

/-- So has it after a scan. -/
theorem scan_arguments (h : f.Confined apply) {emit : Value}
    (hemit : ∀ acc σ, InStore σ.store acc →
      Confines (· ∈ acc.blocks) (fun _ => True) (apply emit [acc]) σ)
    (hstart : f.start? = none) (hargs : ∀ arg ∈ args, InStore s arg) (axis : Nat) (c : κ)
    (hw : .array w ∈ args) (index : List Nat) :
    w.get (exec (scan apply f emit args axis) ⟨s, c⟩).2.store index = w.get s index := by
  refine get_argument (scan_touches h hemit hargs ?_ axis c) hstart hargs hw index
  rw [hstart]
  exact nofun

/-! ## Accumulators that are views of an argument -/

section Last

variable (hfunc : ∀ x, apply f.func [x] = pure x)
  (hcombine : ∀ acc e, apply f.combine [acc, e] = pure e)

theorem exec_detach (e : Value) (σ : State κ) :
    ∃ acc σ', exec (detach e : Run κ (AdverbStop ε) Value) σ = (.ok acc, σ') := by
  cases e with
  | array v => exact ⟨_, _, rfl⟩
  | _ => exact ⟨_, _, rfl⟩

include hfunc

theorem step_first (x : Value) : f.step apply none [x] = detach x := by
  unfold Fold.step
  rw [hfunc]
  exact pure_bind x _

include hcombine

theorem step_next (acc x : Value) : f.step apply (some acc) [x] = pure x := by
  unfold Fold.step
  rw [hfunc]
  exact congrArg calling (hcombine acc x)

/-- From the second position on, the accumulator is the slice at the position. -/
theorem exec_loop_last (w : View) (axis i n : Nat) (acc : Value) (σ : State κ) :
    exec (foldPositionsM (fun acc? i => do
        return some (← f.step apply acc? (← sliceArgs axis [.array w] i))) i (n + 1) (some acc)
      : Run κ (AdverbStop ε) (Option Value)) σ
      = (.ok (some (.ofView σ.store (w.indexAxis axis (i + n)))), σ) := by
  have hstep (i : Nat) (acc : Value) : exec (do
      return some (← f.step apply (some acc) (← sliceArgs axis [.array w] i))
      : Run κ (AdverbStop ε) (Option Value)) σ
      = (.ok (some (.ofView σ.store (w.indexAxis axis i))), σ) := by
    show exec (f.step apply (some acc) [.ofView σ.store (w.indexAxis axis i)] >>= _) σ = _
    rw [step_next hfunc hcombine]
    rfl
  induction n generalizing i acc with
  | zero =>
    rw [foldPositionsM, exec_bind_ok (hstep i acc)]
    rfl
  | succ n ih =>
    rw [foldPositionsM, exec_bind_ok (hstep i acc), ih, Nat.succ_add_eq_add_succ]

/-- Combining may return its element: then a reduction over more than one position returns a view of the
argument, which the caller can write through. -/
theorem reduce_last (hstart : f.start? = none) {w : View} {axis n : Nat} (haxis : axis < w.rank)
    (hrank : 1 < w.rank) (hlen : w.shape.getD axis 0 = n + 2) (σ : State κ) :
    ∃ σ', exec (reduce apply f [.array w] axis) σ
      = (.ok (.array (w.indexAxis axis (n + 1))), σ') := by
  have haxisLen : axisLen axis [.array w] = .ok (some (n + 2)) := by
    have hfits : ¬w.rank ≤ axis := Nat.not_le_of_lt haxis
    unfold axisLen
    rw [List.foldlM_cons]
    dsimp only
    rw [if_neg hfits, hlen]
    rfl
  obtain ⟨acc, σ', hdetach⟩ :=
    exec_detach (ε := ε) (.ofView σ.store (w.indexAxis axis 0)) σ
  have hfirst : exec (do
      return some (← f.step apply none (← sliceArgs axis [.array w] 0))
      : Run κ (AdverbStop ε) (Option Value)) σ = (.ok (some acc), σ') := by
    show exec (f.step apply none [.ofView σ.store (w.indexAxis axis 0)] >>= _) σ = _
    rw [step_first hfunc, exec_bind_ok hdetach]
    rfl
  have hview : Value.ofView σ'.store (w.indexAxis axis (n + 1))
      = .array (w.indexAxis axis (n + 1)) := by
    refine if_neg ?_
    rw [View.rank_indexAxis haxis]
    omega
  have hok : exec (orFail (axisLen axis [.array w]) : Run κ (AdverbStop ε) _) σ
      = (.ok (some (n + 2)), σ) := by
    rw [haxisLen]
    rfl
  refine ⟨σ', ?_⟩
  unfold reduce
  rw [exec_bind_ok hok, hstart, ← hview, Nat.add_comm n 1]
  dsimp only
  rw [foldPositionsM, bind_assoc, exec_bind_ok hfirst,
    exec_bind_ok (exec_loop_last hfunc hcombine w axis 1 n acc σ')]
  rfl

end Last

end ArrayLang.Adverb
