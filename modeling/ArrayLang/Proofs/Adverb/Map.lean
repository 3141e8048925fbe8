import ArrayLang.Proofs.Adverb
import ArrayLang.Proofs.Adverb.Collect
import ArrayLang.Proofs.Array.RowMajor
import ArrayLang.Proofs.Value.Conforms

/-!
# Maps

A map calls its function once for each position along an axis that all array arguments share, in ascending
order, and stacks the results. It stops before the first call if the arrays do not agree on the axis, and
it makes no call if the axis is empty. Without an array among the arguments it is one call.

The axis of the output is where that of the arguments is, or the last one if the results have too few axes.
Since slices have one axis fewer than the arrays that they are taken from, mapping a function that returns
its argument puts every element back where it was.

## Main results

- `axisLen_aligned`, `axisLen_misaligned`: which arguments agree on the axis.
- `map_collected`: the calls of a map and what its result holds.
- `map_identity`: a map of a function that returns its argument.
- `map_pointwise`: these together, for all arguments.
-/

namespace ArrayLang.Adverb

open Run

variable {κ ε : Type} {apply : Value → List Value → Run κ ε Value} {held : κ → Nat → Prop}
  {func arg : Value} {args : List Value} {axis len n : Nat} {len? next? : Option Nat} {v first : View}
  {σ : State κ} {s : Store} {owned : Prop}

/-! ## The length of the axis -/

/-- Every array among the arguments has the axis, with the given length. -/
def Aligned (axis len : Nat) (args : List Value) : Prop :=
  ∀ v, .array v ∈ args → axis < v.rank ∧ v.shape.getD axis 0 = len

/-- An array among the arguments has too few axes, or two of them have different lengths there. -/
def Misaligned (axis : Nat) (args : List Value) : Prop :=
  (∃ v, .array v ∈ args ∧ v.rank ≤ axis)
    ∨ ∃ v w, .array v ∈ args ∧ .array w ∈ args ∧ v.shape.getD axis 0 ≠ w.shape.getD axis 0

/-- A length that is known stays, and an array has the axis with the length that is known from then on. -/
theorem of_axisStep (h : axisStep axis len? arg = .ok next?) :
    (∀ n, len? = some n → next? = some n)
      ∧ ∀ v, arg = .array v → axis < v.rank ∧ next? = some (v.shape.getD axis 0) := by
  cases arg with
  | array v =>
    unfold axisStep at h
    dsimp only at h
    by_cases haxis : v.rank ≤ axis
    · rw [if_pos haxis] at h
      cases h
    rw [if_neg haxis] at h
    have hrank : axis < v.rank := Nat.lt_of_not_le haxis
    cases len? with
    | none =>
      cases h
      refine ⟨nofun, fun w hw => ?_⟩
      cases hw
      exact ⟨hrank, rfl⟩
    | some expected =>
      dsimp only at h
      by_cases hsame : expected = v.shape.getD axis 0
      · rw [if_pos hsame] at h
        cases h
        refine ⟨fun _ => id, fun w hw => ?_⟩
        cases hw
        exact ⟨hrank, congrArg some hsame⟩
      · rw [if_neg hsame] at h
        cases h
  | _ =>
    cases h
    exact ⟨fun _ => id, nofun⟩

/-- If there is an answer, every array has the axis with that length. -/
theorem of_axisLen (h : axisLen axis args = .ok len?) :
    ∀ v, .array v ∈ args → axis < v.rank ∧ len? = some (v.shape.getD axis 0) := by
  have hfold : ∀ (args : List Value) (start? : Option Nat),
      args.foldlM (axisStep axis) start? = .ok len? →
        (∀ n, start? = some n → len? = some n)
          ∧ ∀ v, .array v ∈ args → axis < v.rank ∧ len? = some (v.shape.getD axis 0) := by
    intro args
    induction args with
    | nil =>
      intro start? h
      cases h
      exact ⟨fun _ => id, nofun⟩
    | cons arg args ih =>
      intro start? h
      rw [List.foldlM_cons, Outcome.bind_eq_ok] at h
      obtain ⟨next?, hstep, hrest⟩ := h
      obtain ⟨hkeep, harray⟩ := of_axisStep hstep
      obtain ⟨hkeep', harrays⟩ := ih next? hrest
      refine ⟨fun n hn => hkeep' n (hkeep n hn), fun v hv => ?_⟩
      rcases List.mem_cons.1 hv with heq | hv
      · obtain ⟨hrank, hlen⟩ := harray v heq.symm
        exact ⟨hrank, hkeep' _ hlen⟩
      · exact harrays v hv
  rw [axisLen_eq_foldlM] at h
  exact (hfold args none h).2

theorem axisLen_misaligned (h : Misaligned axis args) : ∃ e, axisLen axis args = .error e := by
  cases hlen : axisLen axis args with
  | error e => exact ⟨e, rfl⟩
  | ok len? =>
    rcases h with ⟨v, hv, hrank⟩ | ⟨v, w, hv, hw, hne⟩
    · exact absurd (of_axisLen hlen v hv).1 (Nat.not_lt_of_le hrank)
    · have hsame := (of_axisLen hlen v hv).2.symm.trans (of_axisLen hlen w hw).2
      exact absurd (Option.some.inj hsame) hne

theorem axisLen_no_array (h : ¬HasArray args) : axisLen axis args = .ok none := by
  rw [axisLen_eq_foldlM]
  induction args with
  | nil => rfl
  | cons arg args ih =>
    have hstep : axisStep axis none arg = .ok none := by
      cases arg with
      | array v => exact absurd ⟨v, List.mem_cons_self⟩ h
      | _ => rfl
    rw [List.foldlM_cons, hstep]
    exact ih fun ⟨v, hv⟩ => h ⟨v, List.mem_cons_of_mem _ hv⟩

/-- Arrays that agree on the axis have the length that they agree on. -/
theorem axisLen_aligned (harray : HasArray args) (h : Aligned axis len args) :
    axisLen axis args = .ok (some len) := by
  have hfold : ∀ (args : List Value) (start? : Option Nat), Aligned axis len args →
      (∀ n, start? = some n → n = len) →
        ∃ len?, args.foldlM (axisStep axis) start? = .ok len? := by
    intro args
    induction args with
    | nil => exact fun start? _ _ => ⟨start?, rfl⟩
    | cons arg args ih =>
      intro start? h hstart
      have hstep : ∃ next?, axisStep axis start? arg = .ok next? ∧ ∀ n, next? = some n → n = len := by
        cases arg with
        | array v =>
          obtain ⟨hrank, hlen⟩ := h v List.mem_cons_self
          unfold axisStep
          dsimp only
          rw [if_neg (Nat.not_le_of_lt hrank), hlen]
          cases start? with
          | none => exact ⟨some len, rfl, fun n hn => (Option.some.inj hn).symm⟩
          | some expected =>
            exact ⟨some expected, if_pos (hstart expected rfl), hstart⟩
        | _ => exact ⟨start?, rfl, hstart⟩
      obtain ⟨next?, hnext, hlen⟩ := hstep
      rw [List.foldlM_cons, hnext]
      exact ih next? (fun v hv => h v (List.mem_cons_of_mem _ hv)) hlen
  obtain ⟨len?, hlen⟩ := hfold args none h nofun
  rw [← axisLen_eq_foldlM] at hlen
  obtain ⟨v, hv⟩ := harray
  rw [hlen, (of_axisLen hlen v hv).2, (h v hv).2]

/-- The result over an empty axis is like the first array. -/
theorem firstLayout_eq (h : args.find? Value.isArray = some (.array first)) :
    firstLayout args = (first.elt, first.shape) := by
  induction args with
  | nil => cases h
  | cons arg args ih =>
    cases arg with
    | array v =>
      cases h
      rfl
    | _ => exact ih h

/-! ## Maps -/

/-- The call for a position along the axis. -/
def sliceCall (apply : Value → List Value → Run κ ε Value) (func : Value) (args : List Value)
    (axis : Nat) : Nat → Run κ ε Value :=
  callOn apply func fun s i => args.map (sliceArg s axis i)

/-- Arrays that do not agree on the axis stop what asks for its length. -/
theorem exec_misaligned (h : Misaligned axis args) :
    ∃ e, axisLen axis args = .error e
      ∧ ∀ (body : Option Nat → Run κ (AdverbStop ε) Value) σ,
        exec (orFail (axisLen axis args) >>= body) σ = (.error (.adverb e), σ) := by
  obtain ⟨e, he⟩ := axisLen_misaligned h
  refine ⟨e, he, fun body σ => ?_⟩
  rw [he]
  rfl

theorem map_misaligned (apply : Value → List Value → Run κ ε Value) (func : Value)
    (h : Misaligned axis args) :
    ∃ e, axisLen axis args = .error e
      ∧ ∀ σ, exec (map apply func args axis) σ = (.error (.adverb e), σ) := by
  obtain ⟨e, he, hstop⟩ := exec_misaligned h
  exact ⟨e, he, hstop _⟩

theorem map_no_array (apply : Value → List Value → Run κ ε Value) (func : Value) (axis : Nat)
    (h : ¬HasArray args) : map apply func args axis = calling (apply func args) := by
  unfold map
  rw [axisLen_no_array h]
  rfl

theorem map_empty (apply : Value → List Value → Run κ ε Value) (func : Value)
    (h : Aligned axis 0 args) (hfirst : args.find? Value.isArray = some (.array first))
    (σ : State κ) :
    exec (map apply func args axis) σ
      = (.ok (.array (View.zeros first.elt first.shape σ.store).1),
        ⟨(View.zeros first.elt first.shape σ.store).2, σ.context⟩) := by
  have harray : HasArray args := ⟨first, List.mem_of_find?_eq_some hfirst⟩
  unfold map
  rw [axisLen_aligned harray h]
  show exec (emptyLike args) σ = _
  unfold emptyLike
  rw [firstLayout_eq hfirst]
  rfl

theorem stackResults_eq_collect (call : Nat → Run κ ε Value) (axis n : Nat) :
    stackResults axis (n + 1) (fun (_ : Unit) i => do return (← calling (call i), ())) ()
      = collect (.along axis (n + 1)) call 0 (List.range' 1 n) := by
  unfold stackResults collect
  simp only [bind_assoc, pure_bind]
  refine congrArg (calling (call 0) >>= ·) (funext fun value => ?_)
  refine congrArg (getStore >>= ·) (funext fun s => ?_)
  refine congrArg (orFail (elementLayout s value) >>= ·) (funext fun layout => ?_)
  obtain ⟨elt, shape⟩ := layout
  refine congrArg (make _ >>= ·) (funext fun out => ?_)
  refine congrArg (store _ value >>= ·) (funext fun _ => ?_)
  rw [← foldPositionsM_eq_forM]
  exact congrArg (· >>= _) (congrArg (foldPositionsM · 1 n ()) (funext fun _ => funext fun i =>
    congrArg (calling (call i) >>= ·) (funext fun value => bind_pure_unit)))

theorem map_eq_collect (apply : Value → List Value → Run κ ε Value) (func : Value)
    (harray : HasArray args) (h : Aligned axis (n + 1) args) :
    map apply func args axis
      = collect (.along axis (n + 1)) (sliceCall apply func args axis) 0 (List.range' 1 n) := by
  rw [← stackResults_eq_collect]
  unfold map
  rw [axisLen_aligned harray h]
  rfl

/-- The calls of a map over an axis that is not empty, and what its result holds. -/
theorem map_collected (harray : HasArray args) (h : Aligned axis len args) (hlen : 0 < len)
    (hfunc : owned → Owning held apply func)
    (hthere : owned → Present (Reaches held func args) σ) :
    Collected (.along axis len) (sliceCall apply func args axis) owned σ
      (exec (map apply func args axis) σ) := by
  obtain ⟨n, rfl⟩ := Nat.exists_eq_succ_of_ne_zero (Nat.ne_of_gt hlen)
  have hslices (s : Store) (i b : Nat) (hb : b ∈ Value.blocksAll (args.map (sliceArg s axis i))) :
      b ∈ Value.blocksAll args := by
    obtain ⟨slice, hslice, hb⟩ := Value.mem_blocksAll.1 hb
    obtain ⟨arg, harg, rfl⟩ := List.mem_map.1 hslice
    exact Value.mem_blocksAll.2 ⟨arg, harg, mem_blocks_of_sliceArg hb⟩
  rw [map_eq_collect apply func harray h]
  exact collect_collected (fun howned => (hfunc howned).enclosed hslices) hthere
    (Arrangement.positions_along axis n)

/-! ## Functions that return their argument -/

theorem shape_ofView (s : Store) (v : View) : (Value.ofView s v).shape = v.shape := by
  unfold Value.ofView
  by_cases hrank : v.rank = 0
  · rw [if_pos hrank]
    exact (List.length_eq_zero_iff.1 hrank).symm
  · rw [if_neg hrank]
    rfl

/-- A view as a value holds the elements of the view. -/
theorem contents?_ofView (s : Store) (v : View) :
    ∃ c, (Value.ofView s v).contents? s v.shape = some c
      ∧ ∀ index, Shape.InRange v.shape index → c.get index = v.get s index := by
  unfold Value.ofView
  by_cases hrank : v.rank = 0
  · have hshape : v.shape = [] := List.length_eq_zero_iff.1 hrank
    rw [if_pos hrank]
    refine ⟨_, rfl, fun index hindex => ?_⟩
    rw [hshape] at hindex
    rw [List.forall₂_nil_right_iff.1 hindex]
  · rw [if_neg hrank]
    refine ⟨_, Value.contents?_array_self s v, fun index hindex => ?_⟩
    show v.get s (Shape.aligned v.shape index) = v.get s index
    rw [Shape.aligned_eq_shrink hindex.length_eq, Shape.shrink_self hindex]

/-- The elements are in the representation of the element type, which a cast to it leaves alone. -/
def Settled (v : View) (s : Store) : Prop :=
  ∀ index, Shape.InRange v.shape index → (v.get s index).cast v.elt = v.get s index

/-- The layout of an array for results like this view takes in its elements as they are. -/
theorem elementLayout_ofView (h : Settled v s) {elt : ElemType} {shape : List Nat}
    (hlayout : elementLayout s (.ofView s v) = .ok (elt, shape)) : v.elt.Embeds elt := by
  unfold Value.ofView at hlayout
  by_cases hrank : v.rank = 0
  · rw [if_pos hrank] at hlayout
    cases hlayout
    have hindex : Shape.InRange v.shape [] := by
      rw [List.length_eq_zero_iff.1 hrank]
      exact .nil
    rw [← Scalar.carrier_of_cast_eq_self (h [] hindex)]
    generalize v.elt = elt
    cases elt <;> decide
  · rw [if_neg hrank] at hlayout
    cases hlayout
    exact .refl _

/-- Well-formed views are settled, apart from what single precision asks of doubles. -/
theorem settled_of_wellFormed (hv : v.WellFormed s) (hsingle : v.elt = .float32 → Settled v s) :
    Settled v s := by
  by_cases hfloat : v.elt = .float32
  · exact hsingle hfloat
  · exact fun index hindex => Scalar.cast_eq_self_of_holds (hv.holds_get hindex) hfloat

section Identity

variable (hpure : ∀ x, apply func [x] = pure x)

/-- What is returned for a position is the slice there, of an array that is as it was at the start. -/
def SliceOf (axis : Nat) (v : View) (s : Store) (i : Nat) (r : Returned κ) : Prop :=
  r.value = .ofView r.state.store (v.indexAxis axis i)
    ∧ ∀ index, v.get r.state.store index = v.get s index

theorem SliceOf.shape {r : Returned κ} {i : Nat} (h : SliceOf axis v s i r) :
    r.value.shape = v.shape.eraseIdx axis :=
  h.1 ▸ shape_ofView _ _

theorem SliceOf.contents {r : Returned κ} {i : Nat} (h : SliceOf axis v s i r)
    (hrank : v.strides.length = v.shape.length) (hi : i < v.shape.getD axis 0) :
    ∃ c, r.contents? (v.shape.eraseIdx axis) = some c
      ∧ ∀ index, Shape.InRange (v.shape.eraseIdx axis) index →
        c.get index = v.get s (index.insertIdx axis i) := by
  obtain ⟨c, hc, hget⟩ := contents?_ofView r.state.store (v.indexAxis axis i)
  refine ⟨c, ?_, fun index hindex => ?_⟩
  · rw [Returned.contents?, h.1]
    exact hc
  · rw [hget index hindex, (View.PartOf.indexAxis hrank hi).get_eq hindex, h.2]

theorem Settled.indexAxis (h : Settled v s) (hrank : v.strides.length = v.shape.length) {i : Nat}
    (hi : i < v.shape.getD axis 0) : Settled (v.indexAxis axis i) s := by
  have hpart := View.PartOf.indexAxis hrank hi
  intro index hindex
  rw [hpart.get_eq hindex]
  exact h _ (hpart.inRange index hindex)

/-- Slices that are put where they were taken from make the array that they were taken from. -/
theorem slices_parts {out : View} {s' : Store} {first : Returned κ} {rest : List (Returned κ)}
    (haxis : axis < v.rank) (hlen : v.shape.getD axis 0 = n + 1)
    (hrank : v.strides.length = v.shape.length) (hsettled : Settled v s)
    (hslices : List.Forall₂ (SliceOf axis v s) (List.range (n + 1)) (first :: rest))
    (hlayout : elementLayout first.state.store first.value = .ok (out.elt, first.value.shape))
    (hshape : out.shape = (Arrangement.along axis (n + 1)).shape first.value.shape)
    (hparts : List.Forall₂ (fun i r => ∃ c, r.contents? first.value.shape = some c
      ∧ ∀ index, Shape.InRange first.value.shape index →
        Shape.InRange out.shape ((Arrangement.along axis (n + 1)).place first.value.shape i index)
        ∧ out.get s' ((Arrangement.along axis (n + 1)).place first.value.shape i index)
          = (c.get index).cast out.elt)
      (List.range (n + 1)) (first :: rest)) :
    out.shape = v.shape
      ∧ ∀ index, Shape.InRange v.shape index → out.get s' index = v.get s index := by
  obtain ⟨i, hi, hfirst⟩ := hslices.exists_left List.mem_cons_self
  have hi : i < v.shape.getD axis 0 := hlen ▸ List.mem_range.1 hi
  have hpos : min axis (v.shape.eraseIdx axis).length = axis := by
    have hlength : (v.shape.eraseIdx axis).length = v.rank - 1 := List.length_eraseIdx_of_lt haxis
    omega
  have hembeds : v.elt.Embeds out.elt := by
    have hsettled' : Settled v first.state.store := fun index hindex => by
      rw [hfirst.2]
      exact hsettled index hindex
    rw [hfirst.1] at hlayout
    exact elementLayout_ofView (hsettled'.indexAxis hrank hi) hlayout
  rw [hfirst.shape] at hshape hparts
  refine ⟨?_, fun index hindex => ?_⟩
  · calc out.shape = (v.shape.eraseIdx axis).insertIdx (min axis (v.shape.eraseIdx axis).length) (n + 1) :=
          hshape
      _ = (v.shape.eraseIdx axis).insertIdx axis v.shape[axis] := by
          rw [hpos, ← hlen, List.getD_eq_getElem _ _ haxis]
      _ = v.shape := List.insertIdx_eraseIdx_getElem haxis
  · -- The index is at its own coordinate on the axis.
    obtain ⟨j, other, hj, hother, rfl⟩ := View.exists_insertIdx_of_inRange haxis hindex
    have hrange : j < (List.range (n + 1)).length := by rwa [List.length_range, ← hlen]
    have hrest : j < (first :: rest).length := hslices.length_eq ▸ hrange
    have hslice := hslices.get hrange hrest
    obtain ⟨c, hc, hget⟩ := hparts.get hrange hrest
    rw [List.get_eq_getElem, List.getElem_range] at hslice hget
    obtain ⟨c', hc', hget'⟩ := hslice.contents hrank hj
    obtain rfl : c = c' := Option.some.inj (hc.symm.trans hc')
    have helement := (hget other hother).2
    rw [hget' other hother] at helement
    calc out.get s' (other.insertIdx axis j)
        = out.get s' (other.insertIdx (min axis (v.shape.eraseIdx axis).length) j) := by rw [hpos]
      _ = (v.get s (other.insertIdx axis j)).cast out.elt := helement
      _ = v.get s (other.insertIdx axis j) :=
          Scalar.cast_eq_self_of_embeds hembeds (hsettled _ hindex)

include hpure

theorem exec_identity (i : Nat) (σ : State κ) :
    exec (sliceCall apply func [.array v] axis i) σ
      = (.ok (.ofView σ.store (v.indexAxis axis i)), σ) := by
  show exec (apply func [.ofView σ.store (v.indexAxis axis i)]) σ = _
  rw [hpure]
  rfl

theorem identity_enclosed :
    Enclosed (fun (_ : κ) => (· = v.block)) (sliceCall apply func [.array v] axis) := by
  refine ⟨fun i σ _ => ?_, fun i σ hthere b hb => ?_, fun i σ hthere value σ' hx b hb => ?_⟩
  · rw [exec_identity hpure]
    exact .refl _ _
  · rw [exec_identity hpure]
    exact ⟨hthere b hb, .inl hb⟩
  · rw [exec_identity hpure] at hx
    cases hx
    exact hthere b (Value.blocks_ofView σ.store (v.indexAxis axis i) b hb)

theorem identity_returned {out : Nat} {positions : List Nat} {returned : List (Returned κ)}
    {τ : State κ} (h : InTurn (sliceCall apply func [.array v] axis) out positions σ returned τ)
    (hthere : v.block < σ.store.blocks.size) (hout : σ.store.blocks.size ≤ out) :
    List.Forall₂ (SliceOf axis v σ.store) positions returned := by
  refine h.forall₂ (P := fun τ => σ.store.blocks.size ≤ τ.store.blocks.size
    ∧ ∀ index, v.get τ.store index = v.get σ.store index) ?_ ?_ ⟨Nat.le_refl _, fun _ => rfl⟩
  · intro i τ r hτ hx
    rw [exec_identity hpure] at hx
    obtain ⟨hvalue, hstate⟩ := Prod.mk.inj hx
    rw [← hstate]
    refine ⟨hτ, ?_, ?_⟩
    · rw [← hstate]
      exact (Except.ok.inj hvalue).symm
    · rw [← hstate]
      exact hτ.2
  · intro τ τ' hτ _ htouches
    have hblock : v.block < τ.store.blocks.size := Nat.lt_of_lt_of_le hthere hτ.1
    have hne : v.block ≠ out := Nat.ne_of_lt (Nat.lt_of_lt_of_le hthere hout)
    refine ⟨Nat.le_trans hτ.1 htouches.size, fun index => ?_⟩
    rw [v.get_of_touches htouches hblock hne, hτ.2]

/-- A map of a function that returns its argument over one array makes an array of the same shape and
elements. -/
theorem map_identity (haxis : axis < v.rank) (hv : v.WellFormed σ.store)
    (hsingle : v.elt = .float32 → Settled v σ.store) :
    ∃ out σ', exec (map apply func [.array v] axis) σ = (.ok (.array out), σ')
      ∧ out.shape = v.shape
      ∧ ∀ index, Shape.InRange v.shape index → out.get σ'.store index = v.get σ.store index := by
  have hsettled := settled_of_wellFormed hv hsingle
  have harray : HasArray [.array v] := ⟨v, List.mem_cons_self⟩
  have haligned : Aligned axis (v.shape.getD axis 0) [.array v] := by
    intro w hw
    cases List.mem_singleton.1 hw
    exact ⟨haxis, rfl⟩
  have hrank : v.strides.length = v.shape.length := by
    obtain ⟨cells, -, hlaid, -⟩ := hv
    exact hlaid.rank
  rcases Nat.eq_zero_or_pos (v.shape.getD axis 0) with hlen | hlen
  · -- The axis is empty, and so is the array.
    refine ⟨_, _, map_empty apply func (hlen ▸ haligned) rfl σ, rfl, fun index hindex => ?_⟩
    obtain ⟨i, -, hi, -, -⟩ := View.exists_insertIdx_of_inRange haxis hindex
    rw [hlen] at hi
    exact absurd hi (Nat.not_lt_zero i)
  obtain ⟨n, hn⟩ := Nat.exists_eq_succ_of_ne_zero (Nat.ne_of_gt hlen)
  have henclosed : Enclosed (fun (_ : κ) => (· = v.block)) (sliceCall apply func [.array v] axis) :=
    identity_enclosed hpure
  have hthere : Present (fun (_ : κ) => (· = v.block)) σ := fun b hb => hb ▸ hv.block_lt
  have hcollected := collect_collected (fun _ : True => henclosed) (fun _ => hthere)
    (Arrangement.positions_along axis n)
  rw [map_eq_collect apply func harray (hn ▸ haligned)]
  generalize exec (collect (.along axis (n + 1)) (sliceCall apply func [.array v] axis) 0
    (List.range' 1 n)) σ = outcome at hcollected ⊢
  cases hcollected with
  | failed _ _ _ _ hcall =>
    rw [exec_identity hpure] at hcall
    cases hcall
  | @refused made later i _ returned r first hpositions hcalls hnew _ hfirst hrefused =>
    have hslices := identity_returned hpure hcalls hv.block_lt (hnew trivial)
    obtain ⟨_, -, hslice⟩ := hslices.exists_left (List.mem_of_mem_head? hfirst)
    obtain ⟨j, hj, hslice'⟩ := hslices.exists_left (List.mem_append_right _ List.mem_cons_self)
    have hj : j ∈ List.range (n + 1) := by
      show j ∈ (Arrangement.along axis (n + 1)).positions
      rw [hpositions, ← List.singleton_append, ← List.append_assoc]
      exact List.mem_append_left _ hj
    obtain ⟨c, hc, -⟩ := hslice'.contents hrank (hn ▸ List.mem_range.1 hj)
    rw [hslice.shape, hc] at hrefused
    cases hrefused
  | @returned out first rest σ' hcalls hlayout hshape hnew hparts =>
    have hslices := identity_returned hpure hcalls hv.block_lt (hnew trivial).1
    exact ⟨out, σ', rfl,
      slices_parts haxis hn hrank hsettled hslices hlayout hshape (hparts trivial)⟩

end Identity

/-! ## All maps -/

/-- Take any function, arguments and axis. If the arrays among the arguments do not agree on the axis, the map
fails without a call. Without an array it is one call on the arguments. If the axis is empty, it makes no
call and returns an empty array like the first one. Otherwise the calls are made for one position after the
other, up to the first that fails or whose result is refused, and the result holds what they returned if
calls of the function own what they touch. A function that returns its argument is mapped to an array of
the same shape and elements. -/
theorem map_pointwise (apply : Value → List Value → Run κ ε Value) (func : Value)
    (args : List Value) (axis : Nat) (σ : State κ) :
    (Misaligned axis args → ∃ e, axisLen axis args = .error e
        ∧ exec (map apply func args axis) σ = (.error (.adverb e), σ))
      ∧ (¬HasArray args → map apply func args axis = calling (apply func args))
      ∧ (∀ first, args.find? Value.isArray = some (.array first) → Aligned axis 0 args →
        Shape.size first.shape = 0
          ∧ exec (map apply func args axis) σ
            = (.ok (.array (View.zeros first.elt first.shape σ.store).1),
              ⟨(View.zeros first.elt first.shape σ.store).2, σ.context⟩))
      ∧ (∀ len, HasArray args → Aligned axis len args → 0 < len → ∀ held,
        Collected (.along axis len) (sliceCall apply func args axis)
          (Owning held apply func ∧ Present (Reaches held func args) σ) σ
          (exec (map apply func args axis) σ))
      ∧ ∀ v, args = [.array v] → axis < v.rank → v.WellFormed σ.store →
        (v.elt = .float32 → Settled v σ.store) → (∀ x, apply func [x] = pure x) →
          ∃ out σ', exec (map apply func args axis) σ = (.ok (.array out), σ')
            ∧ out.shape = v.shape
            ∧ ∀ index, Shape.InRange v.shape index → out.get σ'.store index = v.get σ.store index := by
  refine ⟨fun h => ?_, map_no_array apply func axis, fun first hfirst h => ⟨?_, ?_⟩,
    fun len harray h hlen held => map_collected harray h hlen And.left And.right, ?_⟩
  · obtain ⟨e, he, hexec⟩ := map_misaligned apply func h
    exact ⟨e, he, hexec σ⟩
  · obtain ⟨hrank, hlen⟩ := h first (List.mem_of_find?_eq_some hfirst)
    rw [Shape.size_eq_zero_iff, ← hlen, List.getD_eq_getElem _ _ hrank]
    exact List.getElem_mem hrank
  · exact map_empty apply func h hfirst σ
  · rintro v rfl haxis hv hsingle hpure
    exact map_identity hpure haxis hv hsingle

/-- A function that returns how many calls were made before. -/
def ticket (_ : Value) (_ : List Value) : Run Nat Unit Value := do
  return .ofNat (← onContext fun n => (n, n + 1))

/-- A function that returns its first argument. -/
def echo (_ : Value) (args : List Value) : Run Nat Unit Value :=
  pure (args.headD .none)

theorem ticket_owning (func : Value) : Owning (fun _ _ => False) ticket func where
  touches _ _ _ := .refl _ _
  holds _ _ _ _ := False.elim
  result _ _ _ _ _ hx := by
    cases hx
    exact nofun

/-- The table of two rows and three columns, and no call made so far. -/
def atTable : State Nat :=
  ⟨Arrays.table.2, 0⟩

/-- The table without its rows. -/
def noRows : View :=
  ⟨.int8, 0, [0, 3], [3, 1], 0⟩

/-- The table has no third axis, three columns for which there are three calls, and the columns that are returned
make the table again. Without rows there is no call, and without an array there is one. -/
theorem map_pointwise_table :
    (exec (map ticket .none [.array Arrays.table.1] 2) atTable).2.context = 0
      ∧ map ticket .none [.none] 0 = calling (ticket .none [.none])
      ∧ (exec (map ticket .none [.array noRows] 0) atTable).2.context = 0
      ∧ Collected (.along 1 3) (sliceCall ticket .none [.array Arrays.table.1] 1) True atTable
        (exec (map ticket .none [.array Arrays.table.1] 1) atTable)
      ∧ (exec (map ticket .none [.array Arrays.table.1] 1) atTable).2.context = 3
      ∧ ∃ out σ', exec (map echo .none [.array Arrays.table.1] 1) atTable = (.ok (.array out), σ')
        ∧ out.toFlat σ'.store = Arrays.table.1.toFlat atTable.store := by
  have hwellFormed : Arrays.table.1.WellFormed atTable.store := View.ofFlat_wellFormed .int8 ∅ rfl
  have hmember : Value.array Arrays.table.1 ∈ [.array Arrays.table.1] := List.mem_cons_self
  have haligned : Aligned 1 3 [.array Arrays.table.1] := by
    intro v hv
    cases List.mem_singleton.1 hv
    decide
  have hempty : Aligned 0 0 [.array noRows] := by
    intro v hv
    cases List.mem_singleton.1 hv
    decide
  have hpresent : Present (Reaches (fun _ _ => False) .none [.array Arrays.table.1]) atTable := by
    rintro b (hb | hb)
    · obtain rfl : b = 0 := List.mem_singleton.1 hb
      decide
    · exact hb.elim
  obtain ⟨hmisaligned, -⟩ := map_pointwise ticket .none [.array Arrays.table.1] 2 atTable
  obtain ⟨-, hnone, -⟩ := map_pointwise ticket .none [.none] 0 atTable
  obtain ⟨-, -, hnoRows, -⟩ := map_pointwise ticket .none [.array noRows] 0 atTable
  obtain ⟨-, -, -, hcalls, -⟩ := map_pointwise ticket .none [.array Arrays.table.1] 1 atTable
  obtain ⟨-, -, -, -, hecho⟩ := map_pointwise echo .none [.array Arrays.table.1] 1 atTable
  obtain ⟨e, -, hexec⟩ := hmisaligned (.inl ⟨_, hmember, by decide⟩)
  obtain ⟨out, σ', hmap, hshape, hget⟩ :=
    hecho _ rfl (by decide) hwellFormed nofun fun _ => rfl
  refine ⟨by rw [hexec]; rfl, hnone ?_, ?_, ?_, rfl, out, σ', hmap, ?_⟩
  · rintro ⟨v, hv⟩
    cases List.mem_singleton.1 hv
  · rw [(hnoRows noRows rfl hempty).2]
    rfl
  · exact (hcalls 3 ⟨_, hmember⟩ haligned (by decide) _).mono fun _ => ⟨ticket_owning _, hpresent⟩
  · unfold View.toFlat
    rw [hshape]
    exact List.map_congr_left fun index hindex => hget index (Shape.mem_indices.1 hindex)

end ArrayLang.Adverb
