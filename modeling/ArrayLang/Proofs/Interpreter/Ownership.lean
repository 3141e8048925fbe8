import ArrayLang.Proofs.Adverb.AllPairs
import ArrayLang.Proofs.Interpreter.Frame

/-!
# Functions of the language own what they touch

Code keeps no array from one call to the next: what a call reaches is the called value and its arguments. So
the results of maps and all-pairs are those of their calls, whatever functions they call.

## Main results

- `callValue_owning`: every value that can be called owns what it touches.
- `map_callValue`, `allPairs_callValue`: adverbs over calls of the language.
-/

namespace ArrayLang.Interpreter

open Value

variable {func : Value} {args : List Value} {axis len : Nat} {σ : State Session}

/-- A session holds no arrays. -/
def holdsNone (_ : Session) (_ : Nat) : Prop :=
  False

/-- Every value that can be called owns what it touches, and any other is refused without a trace. -/
theorem callValue_owning (fuel : Nat) (trace : Trace) (func : Value) :
    Adverb.Owning holdsNone (callValue (applyFn fuel) trace) func := by
  have hblocks {args : List Value} {σ : State Session}
      (hthere : Adverb.Present (Adverb.Reaches holdsNone func args) σ) :
      BlocksIn (func :: args) σ.store :=
    fun b hb => hthere b (.inl hb)
  have htouches (args : List Value) (σ : State Session)
      (hthere : Adverb.Present (Adverb.Reaches holdsNone func args) σ) :
      σ.store.TouchesOnly (· ∈ blocksAll (func :: args))
        (Run.exec (callValue (applyFn fuel) trace func args) σ).2.store :=
    (callValue_confined fuel trace func args).touches (c := σ.context) (hblocks hthere)
  refine ⟨fun args σ hthere => ?_, fun _ _ _ _ => False.elim, fun args σ hthere value σ' hx b hb => ?_⟩
  · exact (htouches args σ hthere).mono fun _ => .inl
  · have hsize := (htouches args σ hthere).size
    rw [hx] at hsize
    rcases callValue_blocks (hblocks hthere) hx b hb with hold | ⟨-, hnew⟩
    · exact Nat.lt_of_lt_of_le (hblocks hthere b hold) hsize
    · exact hnew

theorem present_of_blocksIn (h : BlocksIn (func :: args) σ.store) :
    Adverb.Present (Adverb.Reaches holdsNone func args) σ :=
  fun b hb => hb.elim (h b) False.elim

/-- A map of a value over arrays that agree on an axis makes its calls in order and holds their results. -/
theorem map_callValue (fuel : Nat) (trace : Trace) (harray : Adverb.HasArray args)
    (h : Adverb.Aligned axis len args) (hlen : 0 < len) :
    Adverb.Collected (.along axis len)
      (Adverb.sliceCall (callValue (applyFn fuel) trace) func args axis)
      (BlocksIn (func :: args) σ.store) σ
      (Run.exec (Adverb.map (callValue (applyFn fuel) trace) func args axis) σ) :=
  Adverb.map_collected harray h hlen (fun _ => callValue_owning fuel trace func)
    present_of_blocksIn

/-- So does all-pairs. -/
theorem allPairs_callValue (fuel : Nat) (trace : Trace) {xs ys : View} (hx : axis < xs.rank)
    (hy : axis < ys.rank) (hxs : 0 < xs.shape.getD axis 0) (hys : 0 < ys.shape.getD axis 0) :
    Adverb.Collected (.pairs (xs.shape.getD axis 0) (ys.shape.getD axis 0))
      (Adverb.pairCall (callValue (applyFn fuel) trace) func xs ys axis)
      (BlocksIn [func, .array xs, .array ys] σ.store) σ
      (Run.exec (Adverb.allPairs (callValue (applyFn fuel) trace) func (.array xs) (.array ys) axis)
        σ) :=
  Adverb.allPairs_collected hx hy hxs hys (fun _ => callValue_owning fuel trace func)
    present_of_blocksIn

end ArrayLang.Interpreter
