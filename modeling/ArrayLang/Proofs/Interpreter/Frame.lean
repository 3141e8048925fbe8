import ArrayLang.Proofs.Interpreter.AlikeStatement
import ArrayLang.Proofs.Storage.Confined

/-!
# What a call can touch

A call reaches the storage of the called value and of the arguments, and what it makes on the way. No
other block changes, whether the call returns, faults or runs out of fuel. The value it returns lies
in storage of the same two sorts.

A run is alike to itself wherever the values it starts from are paired with themselves, so that the
frame is what two runs of one call have in common. Nothing is assumed of the converter: the two runs
number their blocks alike, so it is asked the same question in both.

## Main results

- `callValue_confined`: a call is confined to the blocks of the called value and of the arguments.
- `call_frame`: a block that none of them lies in is left as it was.
- `callValue_blocks`: the result lies in these blocks and in new ones.
-/

namespace ArrayLang.Interpreter

open Value

variable {fuel : Nat} {trace : Trace} {args : List Value} {σ σ' : State Session}

/-- Every block of `vs` is one of the store. -/
def BlocksIn (vs : List Value) (s : Store) : Prop :=
  ∀ b ∈ blocksAll vs, b < s.blocks.size

/-! ## Calls that are alike to themselves -/

/-- Two runs of one call, on what the called value and the arguments reach. -/
theorem callValue_alike_self (fuel : Nat) (trace : Trace) (target : Value) (args : List Value) :
    Run.Alike Session.Impartial (.self (· ∈ blocksAll (target :: args))) Paired
      (callValue (applyFn fuel) trace target args) (callValue (applyFn fuel) trace target args) := by
  have htarget : target.Paired (.self (· ∈ blocksAll (target :: args))) target :=
    paired_self target fun b hb => mem_blocksAll.2 ⟨target, List.mem_cons_self, hb⟩
  have hargs : PairedAll (.self (· ∈ blocksAll (target :: args))) args args :=
    pairedAll_self args fun b hb => List.mem_append_right _ hb
  exact callValue_alike (applyFn_alike fuel) trace htarget hargs

/-- A call is confined to the blocks of the called value and of the arguments. -/
theorem callValue_confined (fuel : Nat) (trace : Trace) (target : Value) (args : List Value) :
    Run.Confined Session.Impartial (· ∈ blocksAll (target :: args))
      (callValue (applyFn fuel) trace target args) :=
  (callValue_alike_self fuel trace target args).confined

/-- A function applied to arguments is confined to their blocks: code has no storage of its own. -/
theorem applyFn_confined (fuel : Nat) (trace : Trace) (func : FnDef) (args : List Value) :
    Run.Confined Session.Impartial (· ∈ blocksAll args) (applyFn fuel trace func args) :=
  Run.Alike.confined
    (applyFn_alike fuel _ trace func args args (pairedAll_self args fun _ hb => hb))

/-! ## The frame of a call -/

/-- A call of any value leaves every block alone that was there and that neither the value nor the
arguments lie in. -/
theorem call_frame (fuel : Nat) (target : Value) (args : List Value) (σ : State Session)
    (hthere : BlocksIn (target :: args) σ.store) {b : Nat} (hb : b < σ.store.blocks.size)
    (hunreached : b ∉ blocksAll (target :: args)) :
    (Run.exec (call fuel target args) σ).2.store.blocks[b]? = σ.store.blocks[b]? :=
  have htouches := (callValue_confined fuel [] target args).touches (c := σ.context) hthere
  htouches.frame b hb hunreached

/-- So does a call of a specialized function. -/
theorem callTyped_touches (fuel : Nat) (func : TypedFn) (hthere : BlocksIn args σ.store) :
    σ.store.TouchesOnly (· ∈ blocksAll args)
      (Run.exec (callTyped fuel func args) σ).2.store :=
  (applyFn_confined fuel [] (.typed func) args).touches hthere

/-- So does a call by name, which changes nothing at all if the name is unknown. -/
theorem callSource_touches (fuel : Nat) (name : String) (hthere : BlocksIn args σ.store) :
    σ.store.TouchesOnly (· ∈ blocksAll args)
      (Run.exec (callSource fuel name args) σ).2.store := by
  have hget : Run.exec (get : Eval (State Session)) σ = (.ok σ, σ) := rfl
  unfold callSource
  rw [Run.exec_bind_ok hget]
  cases σ.context.sources.find? name with
  | none => exact .refl _ _
  | some decl => exact (applyFn_confined fuel [] (.source decl) args).touches hthere

/-- A call returns what it was given and what it made. -/
theorem callValue_blocks {target value : Value} (hthere : BlocksIn (target :: args) σ.store)
    (hcall : Run.exec (callValue (applyFn fuel) trace target args) σ = (.ok value, σ')) :
    ∀ b ∈ value.blocks, b ∈ blocksAll (target :: args)
      ∨ σ.store.blocks.size ≤ b ∧ b < σ'.store.blocks.size :=
  (callValue_alike_self fuel trace target args).blocks hthere hcall

/-! ## A call that writes -/

/-- `fn clear(a): a[0] = 0`, as a value. -/
def clear : Value :=
  .closure (.source
    { name := "clear"
      params := ⟨["a"], [], none⟩
      nonlocals := []
      body := [.assign (.plain (.index (.plain (.var "a")) (.plain (.lit (.int 0)))))
        (.plain (.lit (.int 0)))] }) []

/-- Two blocks of one integer each. -/
def twoBlocks : State Session :=
  ⟨⟨#[#[.int 7], #[.int 8]]⟩, .new none⟩

/-- The array in the first of them. -/
def firstBlock : Value :=
  .array ⟨.int64, 0, [1], [1], 0⟩

/-- The array it is given is cleared, and the other one is not. -/
theorem call_frame_clear :
    (Run.exec (call 1 clear [firstBlock]) twoBlocks).2.store.blocks[0]? = some #[.int 0]
      ∧ (Run.exec (call 1 clear [firstBlock]) twoBlocks).2.store.blocks[1]? = some #[.int 8] :=
  ⟨rfl, call_frame 1 clear [firstBlock] twoBlocks
    (by show ∀ b ∈ [0], b < 2; decide) (by show 1 < 2; decide) (by show 1 ∉ [0]; decide)⟩

end ArrayLang.Interpreter
