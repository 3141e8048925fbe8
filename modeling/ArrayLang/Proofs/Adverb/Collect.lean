import ArrayLang.Proofs.Adverb.Arguments
import ArrayLang.Proofs.Array.Arrangement
import ArrayLang.Proofs.Array.Copy

/-!
# Collecting the results of calls

A function is called for the positions of an arrangement, one after the other, and each result is written
into its part of one array before the next call. The first result sizes the array, so the array is made
when the first call has returned. Calls may write to what they are given, to what they return and to what
the context holds, which changes nothing in results that are written already: those are copies, and no
call can reach the array that they are in. That calls keep to what they can reach is what ownership of
arrays gives (`Enclosed`). Which calls are made and how they end does not depend on it.

What carries the induction over the positions is the part of the array that is filled (`Filled`): each call
keeps it, since the array is out of its reach, and each write adds one part and leaves the others.

## Main results

- `InTurn`: calls for some positions, each after the other.
- `Collected`: how the calls end and what the array holds.
- `collect_collected`: collecting the results of calls ends so.
-/

/-- What is on the right of a relation item by item has its item on the left. -/
theorem List.Forall₂.exists_left {α β : Type} {R : α → β → Prop} {as : List α} {bs : List β} {b : β}
    (h : Forall₂ R as bs) (hb : b ∈ bs) : ∃ a ∈ as, R a b := by
  obtain ⟨n, hn, rfl⟩ := List.getElem_of_mem hb
  have hn' : n < as.length := h.length_eq ▸ hn
  exact ⟨as[n], List.getElem_mem hn', h.get hn' hn⟩

namespace ArrayLang

/-! ## What a value holds -/

namespace Value

variable {s : Store} {shape : List Nat} {value : Value} {c : Contents}

/-- What the value holds when it is broadcast to a shape: a scalar is at every index, and an array has its
elements there. No other value can be broadcast. -/
def contents? (s : Store) (shape : List Nat) : Value → Option Contents
  | .scalar x => some ⟨shape, fun _ => x⟩
  | .array v =>
    if Shape.BroadcastsTo v.shape shape then
      some ⟨shape, fun index => v.get s (Shape.aligned v.shape index)⟩
    else Option.none
  | _ => Option.none

/-- Why a value is not written into a part of the shape. -/
def refusal (s : Store) (shape : List Nat) : Value → AdverbError
  | .array v => .array (.shapeMismatch shape v.shape)
  | value => .unsupportedElement (value.text s)

theorem shape_of_contents? (h : value.contents? s shape = some c) : c.shape = shape := by
  cases value with
  | scalar x =>
    cases h
    rfl
  | array v =>
    obtain ⟨-, hc⟩ := Option.ite_none_right_eq_some.1 h
    cases hc
    rfl
  | _ => cases h

/-- A value that is in the store holds the same as long as its blocks are untouched. -/
theorem contents?_of_touches {s' : Store} {p : Nat → Prop} (hs : s.TouchesOnly p s')
    (hvalue : Adverb.InStore s value) (hp : ∀ b ∈ value.blocks, ¬p b) (shape : List Nat) :
    value.contents? s' shape = value.contents? s shape := by
  cases value with
  | array v =>
    have hblock : v.block ∈ (Value.array v).blocks := List.mem_cons_self
    have hget (index : List Nat) : v.get s' index = v.get s index :=
      v.get_of_touches hs (hvalue _ hblock) (hp _ hblock) index
    simp only [contents?, hget]
  | _ => rfl

/-- Whether a value can be broadcast to a shape does not depend on the elements. -/
theorem isSome_contents? (s s' : Store) (shape : List Nat) (value : Value) :
    (value.contents? s shape).isSome = (value.contents? s' shape).isSome := by
  cases value with
  | array v =>
    unfold contents?
    dsimp only
    by_cases hfits : Shape.BroadcastsTo v.shape shape
    · rw [if_pos hfits, if_pos hfits]
      rfl
    · rw [if_neg hfits, if_neg hfits]
  | _ => rfl

theorem contents?_array_self (s : Store) (v : View) :
    (Value.array v).contents? s v.shape
      = some ⟨v.shape, fun index => v.get s (Shape.aligned v.shape index)⟩ :=
  if_pos (.refl v.shape)

end Value

namespace Adverb

open Run

variable {κ ε ι : Type} {σ σ' τ : State κ} {s : Store} {slot out : View} {value : Value}
  {shape : List Nat} {c : Contents}

theorem writeSlot_eq (slot : View) (value : Value) (s : Store) :
    writeSlot slot value s = match value.contents? s slot.shape with
      | some c => .ok (slot.setCells c.cells)
      | none => .error (value.refusal s slot.shape) := by
  cases value with
  | scalar x =>
    refine congrArg Except.ok (funext fun s => ?_)
    unfold View.fill View.setCells Contents.cells
    rw [List.foldl_map]
  | array v =>
    unfold writeSlot Value.contents?
    dsimp only
    rw [View.cellsFrom_eq]
    by_cases hfits : Shape.BroadcastsTo v.shape slot.shape
    · rw [if_pos hfits, if_pos hfits]
      rfl
    · rw [if_neg hfits, if_neg hfits]
      rfl
  | _ => rfl

/-- What can be written goes into the slot, and anything else changes nothing. -/
theorem exec_store (slot : View) (value : Value) (σ : State κ) :
    exec (store slot value : Run κ (AdverbStop ε) Unit) σ
      = match value.contents? σ.store slot.shape with
        | some c => (.ok (), ⟨slot.setCells c.cells σ.store, σ.context⟩)
        | none => (.error (.adverb (value.refusal σ.store slot.shape)), σ) := by
  unfold store
  rw [exec_attempt, writeSlot_eq]
  cases value.contents? σ.store slot.shape <;> rfl

/-- The first result sizes the array if it can be written into a part of its own shape. -/
theorem elementLayout_cases (s : Store) (value : Value) :
    (∃ c elt, value.contents? s value.shape = some c
        ∧ elementLayout s value = .ok (elt, value.shape))
      ∨ (value.contents? s value.shape = none
        ∧ elementLayout s value = .error (value.refusal s value.shape)) := by
  cases value with
  | scalar x => exact .inl ⟨_, _, rfl, rfl⟩
  | array v => exact .inl ⟨_, _, Value.contents?_array_self s v, rfl⟩
  | _ => exact .inr ⟨rfl, rfl⟩

/-! ## Calls one after the other -/

/-- What a call returned, and the state that it returned in. -/
structure Returned (κ : Type) where
  value : Value
  state : State κ

/-- What the value held when it was returned, broadcast to a shape. -/
def Returned.contents? (r : Returned κ) (shape : List Nat) : Option Contents :=
  r.value.contents? r.state.store shape

/-- All results can be written into parts of the shape of the first. -/
def Fit (returned : List (Returned κ)) : Prop :=
  ∀ first ∈ returned.head?, ∀ r ∈ returned, (r.contents? first.value.shape).isSome

/-- The calls for the positions return, each after the other. From the return of one to the next nothing
else happens than that the block `out` is made or written. -/
inductive InTurn (call : ι → Run κ ε Value) (out : Nat) :
    List ι → State κ → List (Returned κ) → State κ → Prop
  | nil (σ : State κ) : InTurn call out [] σ [] σ
  | cons {i : ι} {positions : List ι} {σ σ' σ'' : State κ} {r : Returned κ}
      {returned : List (Returned κ)} (hcall : exec (call i) σ = (.ok r.value, r.state))
      (hcontext : σ'.context = r.state.context)
      (hstore : r.state.store.TouchesOnly (· = out) σ'.store)
      (hrest : InTurn call out positions σ' returned σ'') :
    InTurn call out (i :: positions) σ (r :: returned) σ''

variable {call : ι → Run κ ε Value} {reach : κ → Nat → Prop} {a : Arrangement ι} {made later : List ι}
  {returned : List (Returned κ)} {r first : Returned κ} {i j : ι} {b : Nat} {owned : Prop}

theorem Fit.concat (h : Fit returned) (hfirst : (returned ++ [r]).head? = some first)
    (hr : (r.contents? first.value.shape).isSome) : Fit (returned ++ [r]) := by
  intro first' hfirst' r' hr'
  obtain rfl : first = first' := Option.some.inj (hfirst.symm.trans hfirst')
  rcases List.mem_append.1 hr' with hold | hlast
  · refine h first ?_ r' hold
    rwa [List.head?_append_of_ne_nil _ (List.ne_nil_of_mem hold)] at hfirst
  · rwa [List.mem_singleton.1 hlast]

/-- A further call. -/
theorem InTurn.concat (h : InTurn call b made σ returned τ) (r : Returned κ) (σ' : State κ)
    (hcall : exec (call i) τ = (.ok r.value, r.state)) (hcontext : σ'.context = r.state.context)
    (hstore : r.state.store.TouchesOnly (· = b) σ'.store) :
    InTurn call b (made ++ [i]) σ (returned ++ [r]) σ' := by
  induction h with
  | nil σ => exact .cons hcall hcontext hstore (.nil σ')
  | cons hfirst hfirstContext hfirstStore _ ih =>
    exact .cons hfirst hfirstContext hfirstStore (ih hcall)

/-- What holds of the states between calls, and of what a call returns from such a state. -/
theorem InTurn.forall₂ {P : State κ → Prop} {Q : ι → Returned κ → Prop} {positions : List ι}
    (h : InTurn call b positions σ returned τ)
    (hcall : ∀ i σ r, P σ → exec (call i) σ = (.ok r.value, r.state) → P r.state ∧ Q i r)
    (hwrite : ∀ σ σ', P σ → σ'.context = σ.context → σ.store.TouchesOnly (· = b) σ'.store → P σ')
    (hσ : P σ) : List.Forall₂ Q positions returned := by
  induction h with
  | nil σ => exact .nil
  | cons hfirst hcontext hstore _ ih =>
    obtain ⟨hP, hQ⟩ := hcall _ _ _ hσ hfirst
    exact .cons hQ (ih (hwrite _ _ hP hcontext hstore))

/-- Everything that is reached from the context is in the store. -/
def Present (reach : κ → Nat → Prop) (σ : State κ) : Prop :=
  ∀ b, reach σ.context b → b < σ.store.blocks.size

/-- Calls keep to the blocks that are reached from the context: they change no other block that is there,
what is reached afterwards was reached before or is new, and what they return is in the store. -/
structure Enclosed (reach : κ → Nat → Prop) (call : ι → Run κ ε Value) : Prop where
  touches : ∀ i σ, Present reach σ →
    σ.store.TouchesOnly (reach σ.context) (exec (call i) σ).2.store
  reached : ∀ i σ, Present reach σ → ∀ b, reach (exec (call i) σ).2.context b →
    b < (exec (call i) σ).2.store.blocks.size ∧ (reach σ.context b ∨ σ.store.blocks.size ≤ b)
  result : ∀ i σ, Present reach σ → ∀ value σ', exec (call i) σ = (.ok value, σ') →
    InStore σ'.store value

/-- How the calls for all positions end. That the array is new and holds the results is said on a condition:
that the calls are `owned`, so that none of them can reach it. -/
inductive Collected (a : Arrangement ι) (call : ι → Run κ ε Value) (owned : Prop) (σ : State κ) :
    Except (AdverbStop ε) Value × State κ → Prop
  /-- All calls return. The array is sized by the first result. Each of its parts holds what was returned for
  its position, as it was then, broadcast to the shape of the first result and cast to its element type. -/
  | returned {out : View} {first : Returned κ} {rest : List (Returned κ)} {σ' : State κ}
      (hcalls : InTurn call out.block a.positions σ (first :: rest) σ')
      (hlayout : elementLayout first.state.store first.value = .ok (out.elt, first.value.shape))
      (hshape : out.shape = a.shape first.value.shape)
      (hnew : owned → σ.store.blocks.size ≤ out.block ∧ out.WellFormed σ'.store)
      (hparts : owned → List.Forall₂ (fun i r => ∃ c, r.contents? first.value.shape = some c
        ∧ ∀ index, Shape.InRange first.value.shape index →
          Shape.InRange out.shape (a.place first.value.shape i index)
          ∧ out.get σ'.store (a.place first.value.shape i index) = (c.get index).cast out.elt)
        a.positions (first :: rest)) :
    Collected a call owned σ (.ok (.array out), σ')
  /-- A call fails, and no later one is made. -/
  | failed {made later : List ι} {i : ι} {b : Nat} {returned : List (Returned κ)} {σ' τ : State κ}
      {e : ε} (hpositions : a.positions = made ++ i :: later)
      (hcalls : InTurn call b made σ returned σ') (hnew : owned → σ.store.blocks.size ≤ b)
      (hfit : Fit returned) (hcall : exec (call i) σ' = (.error e, τ)) :
    Collected a call owned σ (.error (.call e), τ)
  /-- A result cannot be written, and no later call is made. -/
  | refused {made later : List ι} {i : ι} {b : Nat} {returned : List (Returned κ)}
      {r first : Returned κ} (hpositions : a.positions = made ++ i :: later)
      (hcalls : InTurn call b (made ++ [i]) σ (returned ++ [r]) r.state)
      (hnew : owned → σ.store.blocks.size ≤ b) (hfit : Fit returned)
      (hfirst : (returned ++ [r]).head? = some first)
      (hrefused : r.contents? first.value.shape = none) :
    Collected a call owned σ
      (.error (.adverb (r.value.refusal r.state.store first.value.shape)), r.state)

theorem Collected.mono {owned' : Prop} {outcome : Except (AdverbStop ε) Value × State κ}
    (h : Collected a call owned σ outcome) (himp : owned' → owned) :
    Collected a call owned' σ outcome := by
  cases h with
  | returned hcalls hlayout hshape hnew hparts =>
    exact .returned hcalls hlayout hshape (hnew ∘ himp) (hparts ∘ himp)
  | failed hpositions hcalls hnew hfit hcall =>
    exact .failed hpositions hcalls (hnew ∘ himp) hfit hcall
  | refused hpositions hcalls hnew hfit hfirst hrefused =>
    exact .refused hpositions hcalls (hnew ∘ himp) hfit hfirst hrefused

/-! ## Filling the array -/

/-- The array while it is filled. The calls cannot reach it, and the parts for the positions so far hold what
was returned for them. -/
structure Filled (a : Arrangement ι) (reach : κ → Nat → Prop) (shape : List Nat) (out : View)
    (made : List ι) (returned : List (Returned κ)) (σ : State κ) : Prop where
  shape_eq : out.shape = a.shape shape
  wellFormed : out.WellFormed σ.store
  apart : ∀ b, reach σ.context b → b < σ.store.blocks.size ∧ b ≠ out.block
  shows : List.Forall₂ (fun i r => ∃ c, r.contents? shape = some c
    ∧ (a.slot shape out i).Shows σ.store (c.cast out.elt)) made returned

namespace Filled

/-- The array when it is made. -/
theorem start (hthere : Present reach σ) (elt : ElemType) :
    Filled a reach shape (View.zeros elt (a.shape shape) σ.store).1 [] []
      ⟨(View.zeros elt (a.shape shape) σ.store).2, σ.context⟩ := by
  have hmade : σ.store.TouchesOnly (fun _ => False) (View.zeros elt (a.shape shape) σ.store).2 :=
    .alloc _ _ _
  refine ⟨rfl, ?_, fun b hb => ?_, .nil⟩
  · rw [View.zeros_eq_ofFlat]
    exact View.ofFlat_wellFormed elt σ.store List.length_replicate
  · exact ⟨Nat.lt_of_lt_of_le (hthere b hb) hmade.size, Nat.ne_of_lt (hthere b hb)⟩

/-- What leaves the block of the array alone leaves the array as it is. -/
theorem of_touches {p : Nat → Prop} (h : Filled a reach shape out made returned σ)
    (hmade : ∀ j ∈ made, j ∈ a.positions) (htouches : σ.store.TouchesOnly p σ'.store)
    (hout : ¬p out.block)
    (hapart : ∀ b, reach σ'.context b → b < σ'.store.blocks.size ∧ b ≠ out.block) :
    Filled a reach shape out made returned σ' := by
  refine ⟨h.shape_eq, h.wellFormed.of_touches htouches hout, hapart, ?_⟩
  refine ((List.forall₂_and_left _ _).2 ⟨hmade, h.shows⟩).imp ?_
  rintro j r ⟨hj, c, hc, hshows⟩
  have hblock := (a.partOf h.shape_eq h.wellFormed hj).block
  exact ⟨c, hc, hshows.of_touches htouches (hblock ▸ h.wellFormed.block_lt) (hblock ▸ hout)⟩

/-- A call that keeps to what it reaches leaves the array as it is, whether it returns or fails. -/
theorem after_call (h : Filled a reach shape out made returned σ)
    (hmade : ∀ j ∈ made, j ∈ a.positions) (hcall : Enclosed reach call) (i : ι) :
    Filled a reach shape out made returned (exec (call i) σ).2 := by
  have hthere : Present reach σ := fun b hb => (h.apart b hb).1
  have hout : ¬reach σ.context out.block := fun hreach => (h.apart _ hreach).2 rfl
  refine h.of_touches hmade (hcall.touches i σ hthere) hout fun b hb => ?_
  obtain ⟨hlt, hold | hnew⟩ := hcall.reached i σ hthere b hb
  · exact ⟨hlt, (h.apart b hold).2⟩
  · exact ⟨hlt, Nat.ne_of_gt (Nat.lt_of_lt_of_le h.wellFormed.block_lt hnew)⟩

/-- Writing a result fills the part for its position. -/
theorem after_write (h : Filled a reach shape out made returned σ) (hi : i ∈ a.positions)
    (hmade : ∀ j ∈ made, j ∈ a.positions ∧ j ≠ i) (hc : r.contents? shape = some c) :
    Filled a reach shape out (made ++ [i]) (returned ++ [r])
      ⟨(a.slot shape out i).setCells c.cells σ.store, σ.context⟩ := by
  have hshape := Value.shape_of_contents? hc
  have htouches := (a.slot shape out i).setCells_touches c.cells σ.store
  refine ⟨h.shape_eq, a.set_wellFormed h.shape_eq h.wellFormed hi _, fun b hb => ?_, ?_⟩
  · exact ⟨Nat.lt_of_lt_of_le (h.apart b hb).1 htouches.size, (h.apart b hb).2⟩
  · refine List.rel_append (((List.forall₂_and_left _ _).2 ⟨hmade, h.shows⟩).imp ?_) (.cons ?_ .nil)
    · rintro j r' ⟨⟨hj, hji⟩, c', hc', hshows⟩
      exact ⟨c', hc', a.set_shows_ne h.shape_eq h.wellFormed hj hi hji hshape hshows⟩
    · exact ⟨c, hc, a.set_shows h.shape_eq h.wellFormed hi hshape⟩

/-- When all parts are filled, each place of the array holds an element of a result. -/
theorem parts (h : Filled a reach shape out a.positions returned σ) :
    List.Forall₂ (fun i r => ∃ c, r.contents? shape = some c
      ∧ ∀ index, Shape.InRange shape index → Shape.InRange out.shape (a.place shape i index)
        ∧ out.get σ.store (a.place shape i index) = (c.get index).cast out.elt)
      a.positions returned := by
  refine ((List.forall₂_and_left _ _).2 ⟨fun _ => id, h.shows⟩).imp ?_
  rintro i r ⟨hi, c, hc, hshows⟩
  have hpart := a.partOf h.shape_eq h.wellFormed hi
  refine ⟨c, hc, fun index hindex => ?_⟩
  rw [← a.slot_shape i h.shape_eq] at hindex
  refine ⟨hpart.inRange index hindex, ?_⟩
  rw [← hpart.get_eq hindex]
  exact hshows.get_eq index (hshows.shape_eq ▸ hindex)

end Filled

/-! ## Collecting -/

/-- A call whose result is written into the part for its position. -/
def fillPart (a : Arrangement ι) (call : ι → Run κ ε Value) (shape : List Nat) (out : View) (i : ι) :
    Run κ (AdverbStop ε) Unit := do
  store (a.slot shape out i) (← calling (call i))

/-- Calls for a first position, whose result sizes the array, and for later ones. -/
def collect (a : Arrangement ι) (call : ι → Run κ ε Value) (first : ι) (later : List ι) :
    Run κ (AdverbStop ε) Value := do
  let value ← calling (call first)
  let (elt, shape) ← orFail (elementLayout (← getStore) value)
  let out ← make (View.zeros elt (a.shape shape))
  store (a.slot shape out first) value
  forM later (fillPart a call shape out)
  return .array out

/-- A loop over positions without an accumulator. -/
theorem foldPositionsM_eq_forM {m : Type → Type} [Monad m] (step : Nat → m Unit) (i count : Nat) :
    foldPositionsM (fun _ j => step j) i count () = forM (List.range' i count) step := by
  induction count generalizing i with
  | zero => rfl
  | succ count ih => exact congrArg (step i >>= ·) (funext fun _ => ih (i + 1))

theorem exec_calling (x : Run κ ε Value) (σ : State κ) :
    exec (calling x) σ = match exec x σ with
      | (.ok value, τ) => (.ok value, τ)
      | (.error e, τ) => (.error (.call e), τ) := by
  unfold calling
  rw [exec_mapError]
  cases exec x σ with
  | mk result τ => cases result <;> rfl

theorem exec_fillPart (a : Arrangement ι) (call : ι → Run κ ε Value) (shape : List Nat) (out : View)
    (i : ι) (σ : State κ) :
    exec (fillPart a call shape out i) σ = match exec (call i) σ with
      | (.ok value, τ) => exec (store (a.slot shape out i) value) τ
      | (.error e, τ) => (.error (.call e), τ) := by
  unfold fillPart
  rw [exec_bind, exec_calling]
  cases exec (call i) σ with
  | mk result τ => cases result <;> rfl

/-- The calls for the positions that are left fill the array, up to the first that fails or whose result is
refused. -/
theorem fill_collected (hcall : owned → Enclosed reach call)
    (hnew : owned → σ.store.blocks.size ≤ out.block)
    (hlayout : elementLayout first.state.store first.value = .ok (out.elt, first.value.shape))
    (hshape : out.shape = a.shape first.value.shape)
    (hrank : out.strides.length = out.shape.length) (hfirst : returned.head? = some first)
    (hpositions : a.positions = made ++ later) (hcalls : InTurn call out.block made σ returned τ)
    (hfit : Fit returned)
    (hfilled : owned → Filled a reach first.value.shape out made returned τ) :
    Collected a call owned σ (exec (do
      forM later (fillPart a call first.value.shape out)
      return .array out) τ) := by
  induction later generalizing made returned τ with
  | nil =>
    rw [List.append_nil] at hpositions
    obtain ⟨rest, rfl⟩ := List.head?_eq_some_iff.1 hfirst
    rw [← hpositions] at hcalls hfilled
    exact .returned hcalls hlayout hshape (fun h => ⟨hnew h, (hfilled h).wellFormed⟩)
      fun h => (hfilled h).parts
  | cons i later ih =>
    have hi : i ∈ a.positions := hpositions ▸ List.mem_append_right _ List.mem_cons_self
    have hmade : ∀ j ∈ made, j ∈ a.positions ∧ j ≠ i := by
      have hnodup := a.nodup
      rw [hpositions, List.nodup_middle, List.nodup_cons] at hnodup
      intro j hj
      refine ⟨hpositions ▸ List.mem_append_left _ hj, fun heq => hnodup.1 ?_⟩
      exact heq ▸ List.mem_append_left _ hj
    have hkept (h : owned) := (hfilled h).after_call (fun j hj => (hmade j hj).1) (hcall h) i
    show Collected a call owned σ (exec ((fillPart a call first.value.shape out i >>= fun _ =>
      forM later (fillPart a call first.value.shape out)) >>= _) τ)
    rw [bind_assoc, exec_bind, exec_fillPart]
    cases hx : exec (call i) τ with
    | mk result τ' =>
      rw [hx] at hkept
      cases result with
      | error e => exact .failed hpositions hcalls hnew hfit hx
      | ok value =>
        dsimp only
        rw [exec_store, a.slot_shape i hshape]
        have hfirst' : (returned ++ [(⟨value, τ'⟩ : Returned κ)]).head? = some first := by
          rw [List.head?_append, hfirst]
          rfl
        cases hc : value.contents? τ'.store first.value.shape with
        | none =>
          have hcalls' := hcalls.concat ⟨value, τ'⟩ τ' hx rfl (.refl _ _)
          exact .refused hpositions hcalls' hnew hfit hfirst' hc
        | some c =>
          have htouches := (a.slot first.value.shape out i).setCells_touches c.cells τ'.store
          rw [(a.slot_partOf hi hshape hrank).block] at htouches
          have hcalls' := hcalls.concat ⟨value, τ'⟩
            ⟨(a.slot first.value.shape out i).setCells c.cells τ'.store, τ'.context⟩ hx rfl htouches
          have hfit' := hfit.concat hfirst' (Option.isSome_of_eq_some hc)
          refine ih hfirst' ?_ hcalls' hfit' fun h => (hkept h).after_write hi hmade hc
          rw [hpositions, List.append_assoc, List.singleton_append]

/-- The first result sizes a new array, which the later calls fill. -/
theorem fill_new_collected (hcall : owned → Enclosed reach call) (hthere : owned → Present reach σ)
    (hpositions : a.positions = i :: later)
    (hx : exec (call i) σ = (.ok first.value, first.state)) {elt : ElemType}
    (hlayout : elementLayout first.state.store first.value = .ok (elt, first.value.shape))
    (hfits : (first.contents? first.value.shape).isSome) :
    Collected a call owned σ (exec (do
      let out ← make (View.zeros elt (a.shape first.value.shape))
      store (a.slot first.value.shape out i) first.value
      forM later (fillPart a call first.value.shape out)
      return .array out) first.state) := by
  have hi : i ∈ a.positions := hpositions ▸ List.mem_cons_self
  have hfilled (h : owned) : Filled a reach first.value.shape _ [] [] _ :=
    .start (σ := first.state) (fun b hb => by
      have hreached := (hcall h).reached i σ (hthere h)
      rw [hx] at hreached
      exact (hreached b hb).1) elt
  have hold (h : owned) : σ.store.blocks.size ≤ first.state.store.blocks.size := by
    have htouches := (hcall h).touches i σ (hthere h)
    rw [hx] at htouches
    exact htouches.size
  have hmade : first.state.store.TouchesOnly (fun _ => False)
      (View.zeros elt (a.shape first.value.shape) first.state.store).2 := .alloc _ _ _
  have hblock : (View.zeros elt (a.shape first.value.shape) first.state.store).1.block
      = first.state.store.blocks.size := rfl
  have helt : (View.zeros elt (a.shape first.value.shape) first.state.store).1.elt = elt := rfl
  have hshape : (View.zeros elt (a.shape first.value.shape) first.state.store).1.shape
      = a.shape first.value.shape := rfl
  have hrank : (View.zeros elt (a.shape first.value.shape) first.state.store).1.strides.length
      = (View.zeros elt (a.shape first.value.shape) first.state.store).1.shape.length :=
    Shape.length_contiguousStrides _
  rw [exec_bind, exec_make]
  generalize View.zeros elt (a.shape first.value.shape) first.state.store = made
    at hfilled hmade hblock helt hshape hrank ⊢
  obtain ⟨out, s⟩ := made
  dsimp only at hfilled hmade hblock helt hshape hrank ⊢
  obtain ⟨c, hc⟩ := Option.isSome_iff_exists.1
    ((first.value.isSome_contents? s first.state.store first.value.shape).trans hfits)
  -- A value that was in the store before the array was made still holds the same.
  have hsame (h : owned) : first.contents? first.value.shape = some c :=
    (first.value.contents?_of_touches hmade ((hcall h).result i σ (hthere h) _ _ hx) (fun _ _ => id)
      first.value.shape).symm.trans hc
  rw [exec_bind, exec_store, a.slot_shape i hshape, hc]
  have hwritten := (a.slot first.value.shape out i).setCells_touches c.cells s
  rw [(a.slot_partOf hi hshape hrank).block] at hwritten
  have hsince : first.state.store.TouchesOnly (· = out.block)
      ((a.slot first.value.shape out i).setCells c.cells s) :=
    (hmade.mono fun _ => False.elim).trans hwritten fun _ _ => id
  have hstart : InTurn call out.block [] σ [] σ := .nil σ
  have hfit : Fit ([] : List (Returned κ)) := fun _ hnone => nomatch hnone
  exact fill_collected hcall (fun h => hblock ▸ hold h) (helt ▸ hlayout) hshape hrank rfl hpositions
    (hstart.concat first ⟨_, first.state.context⟩ hx rfl hsince) (hfit.concat rfl hfits)
    fun h => (hfilled h).after_write hi (fun _ hj => nomatch hj) (hsame h)

/-- Collecting the results of calls. The first call is made before there is an array, which is out of the
reach of the later ones if they are owned, because it is new. -/
theorem collect_collected (hcall : owned → Enclosed reach call) (hthere : owned → Present reach σ)
    (hpositions : a.positions = i :: later) :
    Collected a call owned σ (exec (collect a call i later) σ) := by
  have hstart : InTurn call σ.store.blocks.size [] σ [] σ := .nil σ
  have hfit : Fit ([] : List (Returned κ)) := fun _ hnone => nomatch hnone
  have hpositions' : a.positions = [] ++ i :: later := hpositions
  unfold collect
  rw [exec_bind, exec_calling]
  cases hx : exec (call i) σ with
  | mk result τ =>
    cases result with
    | error e => exact .failed hpositions' hstart (fun _ => Nat.le_refl _) hfit hx
    | ok value =>
      dsimp only
      rw [exec_bind, exec_getStore]
      dsimp only
      rcases elementLayout_cases τ.store value with ⟨c, elt, hc, hlayout⟩ | ⟨hc, hlayout⟩
      · have hok : exec (orFail (elementLayout τ.store value) : Run κ (AdverbStop ε) _) τ
            = (.ok (elt, value.shape), τ) := by
          rw [hlayout]
          rfl
        rw [exec_bind_ok hok]
        let first : Returned κ := ⟨value, τ⟩
        have hfirst : exec (call i) σ = (.ok first.value, first.state) := hx
        exact fill_new_collected hcall hthere hpositions hfirst hlayout (Option.isSome_of_eq_some hc)
      · rw [hlayout]
        have hcalls : InTurn call _ ([] ++ [i]) σ ([] ++ [⟨value, τ⟩]) τ :=
          hstart.concat ⟨value, τ⟩ τ hx rfl (.refl _ _)
        exact .refused hpositions' hcalls (fun _ => Nat.le_refl _) hfit rfl hc

/-! ## Functions that own what they touch -/

/-- What a call reaches: the blocks of the function and of the arguments, and those that the context holds. -/
def Reaches (held : κ → Nat → Prop) (func : Value) (args : List Value) (c : κ) (b : Nat) : Prop :=
  b ∈ Value.blocksAll (func :: args) ∨ held c b

/-- A call of the function, on arguments that are read from the store. -/
def callOn (apply : Value → List Value → Run κ ε Value) (func : Value)
    (input : Store → ι → List Value) (i : ι) : Run κ ε Value := do
  apply func (input (← getStore) i)

/-- All calls of the function keep to what they reach: they change no other block that is there, what the
context holds afterwards was reached or is new, and what they return is in the store. -/
structure Owning (held : κ → Nat → Prop) (apply : Value → List Value → Run κ ε Value)
    (func : Value) : Prop where
  touches : ∀ args σ, Present (Reaches held func args) σ →
    σ.store.TouchesOnly (Reaches held func args σ.context) (exec (apply func args) σ).2.store
  holds : ∀ args σ, Present (Reaches held func args) σ →
    ∀ b, held (exec (apply func args) σ).2.context b →
      b < (exec (apply func args) σ).2.store.blocks.size
        ∧ (Reaches held func args σ.context b ∨ σ.store.blocks.size ≤ b)
  result : ∀ args σ, Present (Reaches held func args) σ →
    ∀ value σ', exec (apply func args) σ = (.ok value, σ') → InStore σ'.store value

/-- Calls on parts of the arguments keep to what a call on the arguments reaches. -/
theorem Owning.enclosed {held : κ → Nat → Prop} {apply : Value → List Value → Run κ ε Value}
    {func : Value} {args : List Value} {input : Store → ι → List Value}
    (h : Owning held apply func)
    (hinput : ∀ s i, ∀ b ∈ Value.blocksAll (input s i), b ∈ Value.blocksAll args) :
    Enclosed (Reaches held func args) (callOn apply func input) := by
  have hpart (i : ι) (σ : State κ) (b : Nat)
      (hb : Reaches held func (input σ.store i) σ.context b) : Reaches held func args σ.context b :=
    hb.imp_left fun hb => (List.mem_append.1 hb).elim (List.mem_append_left _)
      fun hb => List.mem_append_right _ (hinput σ.store i b hb)
  have hpresent (i : ι) (σ : State κ) (hthere : Present (Reaches held func args) σ) :
      Present (Reaches held func (input σ.store i)) σ :=
    fun b hb => hthere b (hpart i σ b hb)
  refine ⟨fun i σ hthere => ?_, fun i σ hthere b hb => ?_, fun i σ hthere => ?_⟩
  · exact (h.touches _ σ (hpresent i σ hthere)).mono (hpart i σ)
  · rcases hb with hb | hb
    · have hold : Reaches held func args σ.context b := .inl hb
      have hsize := (h.touches _ σ (hpresent i σ hthere)).size
      exact ⟨Nat.lt_of_lt_of_le (hthere b hold) hsize, .inl hold⟩
    · obtain ⟨hlt, hreach⟩ := h.holds _ σ (hpresent i σ hthere) b hb
      exact ⟨hlt, hreach.imp_left (hpart i σ b)⟩
  · exact h.result _ σ (hpresent i σ hthere)

end Adverb
end ArrayLang
