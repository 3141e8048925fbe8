import ArrayLang.Adverb

/-!
# Running computations

The outcome of a computation with a store and the state it leaves behind, by the form of the
computation, and the invariants of the context that a computation keeps whatever happens.
-/

namespace ArrayLang.Run

variable {κ ε ε' α β : Type}

/-- The outcome of a computation and the state it leaves behind. -/
def exec (x : Run κ ε α) (σ : State κ) : Except ε α × State κ :=
  ExceptT.run x |>.run σ

theorem exec_bind (x : Run κ ε α) (f : α → Run κ ε β) (σ : State κ) :
    exec (x >>= f) σ = match exec x σ with
      | (.ok a, σ') => exec (f a) σ'
      | (.error e, σ') => (.error e, σ') := by
  show (ExceptT.bindCont f (ExceptT.run x |>.run σ).1).run (ExceptT.run x |>.run σ).2 = _
  unfold exec
  cases h : (ExceptT.run x).run σ with
  | mk r σ' => cases r <;> rfl

/-- A sequence of two computations succeeds when both do. -/
theorem exec_bind_eq_ok {x : Run κ ε α} {f : α → Run κ ε β} {b : β} {σ σ'' : State κ}
    (h : exec (x >>= f) σ = (.ok b, σ'')) :
    ∃ a σ', exec x σ = (.ok a, σ') ∧ exec (f a) σ' = (.ok b, σ'') := by
  rw [exec_bind] at h
  cases hx : exec x σ with
  | mk r σ' =>
    rw [hx] at h
    cases r with
    | error e => cases h
    | ok a => exact ⟨a, σ', rfl, h⟩

theorem exec_bind_ok {x : Run κ ε α} {f : α → Run κ ε β} {a : α} {σ σ' : State κ}
    (h : exec x σ = (.ok a, σ')) : exec (x >>= f) σ = exec (f a) σ' := by
  rw [exec_bind, h]

/-- It fails where the first one does, or where the second one does after it. -/
theorem exec_bind_eq_error {x : Run κ ε α} {f : α → Run κ ε β} {e : ε} {σ σ'' : State κ}
    (h : exec (x >>= f) σ = (.error e, σ'')) :
    exec x σ = (.error e, σ'')
      ∨ ∃ a σ', exec x σ = (.ok a, σ') ∧ exec (f a) σ' = (.error e, σ'') := by
  rw [exec_bind] at h
  cases hx : exec x σ with
  | mk r σ' =>
    rw [hx] at h
    cases r with
    | error e' =>
      cases h
      exact .inl rfl
    | ok a => exact .inr ⟨a, σ', rfl, h⟩

theorem exec_bind_of_error {x : Run κ ε α} {f : α → Run κ ε β} {e : ε} {σ σ' : State κ}
    (h : exec x σ = (.error e, σ')) : exec (x >>= f) σ = (.error e, σ') := by
  rw [exec_bind, h]

@[simp] theorem exec_pure (a : α) (σ : State κ) : exec (pure a : Run κ ε α) σ = (.ok a, σ) :=
  rfl

@[simp] theorem exec_throw (e : ε) (σ : State κ) :
    exec (throw e : Run κ ε α) σ = (.error e, σ) :=
  rfl

@[simp] theorem exec_getStore (σ : State κ) :
    exec (getStore : Run κ ε Store) σ = (.ok σ.store, σ) :=
  rfl

@[simp] theorem exec_make (f : Store → α × Store) (σ : State κ) :
    exec (make f : Run κ ε α) σ = (.ok (f σ.store).1, ⟨(f σ.store).2, σ.context⟩) :=
  rfl

@[simp] theorem exec_onContext (f : κ → α × κ) (σ : State κ) :
    exec (onContext f : Run κ ε α) σ = (.ok (f σ.context).1, ⟨σ.store, (f σ.context).2⟩) :=
  rfl

theorem exec_attempt (raise : ε' → ε) (plan : Store → Except ε' (Store → α × Store))
    (σ : State κ) :
    exec (attempt raise plan) σ = match plan σ.store with
      | .ok f => (.ok (f σ.store).1, ⟨(f σ.store).2, σ.context⟩)
      | .error e => (.error (raise e), σ) := by
  unfold attempt
  rw [exec_bind, exec_getStore]
  dsimp only
  cases plan σ.store <;> rfl

theorem exec_ofExcept (raise : ε' → ε) (r : Except ε' α) (σ : State κ) :
    exec (ofExcept raise r) σ = (r.mapError raise, σ) := by
  cases r <;> rfl

theorem exec_mapError (f : ε → ε') (x : Run κ ε α) (σ : State κ) :
    exec (mapError f x) σ = ((exec x σ).1.mapError f, (exec x σ).2) := by
  unfold exec mapError
  show (((ExceptT.run x).run σ).1.mapError f, _) = _
  rfl

theorem exec_mapError_eq_ok {f : ε → ε'} {x : Run κ ε α} {a : α} {σ σ' : State κ}
    (h : exec (mapError f x) σ = (.ok a, σ')) : exec x σ = (.ok a, σ') := by
  rw [exec_mapError] at h
  cases hx : exec x σ with
  | mk r τ =>
    rw [hx] at h
    cases r with
    | error e => cases h
    | ok b =>
      cases h
      rfl

/-- Computations with the same outcomes are the same. -/
theorem eq_of_exec {x y : Run κ ε α} (h : ∀ σ, exec x σ = exec y σ) : x = y :=
  funext h

theorem mapError_bind (g : ε → ε') (x : Run κ ε α) (f : α → Run κ ε β) :
    mapError g (x >>= f) = mapError g x >>= fun a => mapError g (f a) := by
  refine eq_of_exec fun σ => ?_
  rw [exec_mapError, exec_bind, exec_bind, exec_mapError]
  cases exec x σ with
  | mk r σ' =>
    cases r with
    | error e => rfl
    | ok a => exact exec_mapError g (f a) σ'

/-! ## Invariants of the context -/

/-- The computation keeps an invariant of the context, whether it succeeds or not. -/
def Keeps (J : κ → Prop) (x : Run κ ε α) : Prop :=
  ∀ σ, J σ.context → J (exec x σ).2.context

namespace Keeps

variable {J : κ → Prop}

theorem bind {x : Run κ ε α} {f : α → Run κ ε β} (hx : Keeps J x) (hf : ∀ a, Keeps J (f a)) :
    Keeps J (x >>= f) := by
  intro σ hσ
  have hx := hx σ hσ
  rw [exec_bind]
  cases h : exec x σ with
  | mk r σ' =>
    rw [h] at hx
    cases r with
    | error e => exact hx
    | ok a => exact hf a σ' hx

theorem pure (a : α) : Keeps J (Pure.pure a : Run κ ε α) :=
  fun _ hσ => hσ

theorem throw (e : ε) : Keeps J (throw e : Run κ ε α) :=
  fun _ hσ => hσ

theorem getStore : Keeps J (getStore : Run κ ε Store) :=
  fun _ hσ => hσ

theorem get : Keeps J (get : Run κ ε (State κ)) :=
  fun _ hσ => hσ

theorem make (f : Store → α × Store) : Keeps J (make f : Run κ ε α) :=
  fun _ hσ => hσ

theorem onContext {f : κ → α × κ} (h : ∀ c, J c → J (f c).2) :
    Keeps J (onContext f : Run κ ε α) :=
  fun σ hσ => h σ.context hσ

theorem attempt (raise : ε' → ε) (plan : Store → Except ε' (Store → α × Store)) :
    Keeps J (attempt raise plan : Run κ ε α) := by
  intro σ hσ
  rw [exec_attempt]
  cases plan σ.store <;> exact hσ

theorem ofExcept (raise : ε' → ε) (r : Except ε' α) : Keeps J (ofExcept raise r : Run κ ε α) := by
  intro σ hσ
  rw [exec_ofExcept]
  exact hσ

theorem mapError {x : Run κ ε α} (hx : Keeps J x) (f : ε → ε') : Keeps J (mapError f x) := by
  intro σ hσ
  rw [exec_mapError]
  exact hx σ hσ

theorem ite {c : Prop} [Decidable c] {x y : Run κ ε α} (hx : Keeps J x) (hy : Keeps J y) :
    Keeps J (if c then x else y) := by
  split
  · exact hx
  · exact hy

theorem mapM {f : α → Run κ ε β} (l : List α) (h : ∀ a ∈ l, Keeps J (f a)) :
    Keeps J (l.mapM f) := by
  induction l with
  | nil => exact pure []
  | cons a l ih =>
    rw [List.mapM_cons]
    refine bind (h a List.mem_cons_self) fun b => ?_
    exact bind (ih fun c hc => h c (List.mem_cons_of_mem _ hc)) fun _ => pure _

theorem foldPositionsM {step : α → Nat → Run κ ε α} (h : ∀ a i, Keeps J (step a i))
    (i count : Nat) (a : α) : Keeps J (foldPositionsM step i count a) := by
  induction count generalizing i a with
  | zero => exact pure a
  | succ count ih => exact bind (h a i) fun b => ih (i + 1) b

end Keeps

/-! ## Adverbs -/

section
variable {J : κ → Prop} {apply : Value → List Value → Run κ ε Value}

open Adverb

theorem calling_keeps {x : Run κ ε Value} (hx : Keeps J x) : Keeps J (calling x) :=
  hx.mapError _

theorem emptyLike_keeps (args : List Value) :
    Keeps J (emptyLike args : Run κ (AdverbStop ε) Value) :=
  (Keeps.make _).bind fun _ => .pure _

theorem sliceArgs_keeps (axis : Nat) (args : List Value) (i : Nat) :
    Keeps J (sliceArgs axis args i : Run κ (AdverbStop ε) (List Value)) :=
  Keeps.getStore.bind fun _ => .pure _

theorem stackResults_keeps (axis len : Nat) {step : α → Nat → Run κ (AdverbStop ε) (Value × α)}
    (hstep : ∀ a i, Keeps J (step a i)) (start : α) :
    Keeps J (stackResults axis len step start) := by
  unfold stackResults
  refine (hstep start 0).bind fun r => ?_
  refine Keeps.getStore.bind fun s => (Keeps.ofExcept _ _).bind fun layout => ?_
  refine (Keeps.make _).bind fun out => (Keeps.attempt _ _).bind fun _ => ?_
  refine (Keeps.foldPositionsM (fun a i => ?_) _ _ _).bind fun _ => .pure _
  exact (hstep a i).bind fun r => (Keeps.attempt _ _).bind fun _ => .pure _

theorem map_keeps (happly : ∀ f args, Keeps J (apply f args)) (func : Value) (args : List Value)
    (axis : Nat) : Keeps J (Adverb.map apply func args axis) := by
  unfold Adverb.map
  refine (Keeps.ofExcept _ _).bind fun len? => ?_
  split
  · exact calling_keeps (happly func args)
  · exact emptyLike_keeps args
  · refine stackResults_keeps axis _ (fun _ i => ?_) ()
    exact (sliceArgs_keeps axis args i).bind fun slices =>
      (calling_keeps (happly func slices)).bind fun _ => .pure _

theorem allPairs_keeps (happly : ∀ f args, Keeps J (apply f args)) (func x y : Value)
    (axis : Nat) : Keeps J (Adverb.allPairs apply func x y axis) := by
  unfold Adverb.allPairs
  split
  · rename_i xs ys
    have hpair (i j : Nat) : Keeps J (do
        let s ← getStore
        calling (apply func [.ofView s (xs.indexAxis axis i), .ofView s (ys.indexAxis axis j)])) :=
      Keeps.getStore.bind fun _ => calling_keeps (happly _ _)
    refine (Keeps.ofExcept _ _).bind fun nx => (Keeps.ofExcept _ _).bind fun ny => ?_
    refine .ite ((Keeps.make _).bind fun _ => .pure _) ?_
    refine (hpair 0 0).bind fun first => Keeps.getStore.bind fun s => ?_
    refine (Keeps.ofExcept _ _).bind fun layout => (Keeps.make _).bind fun out => ?_
    have hrow (i start count : Nat) (slot : Nat → View) : Keeps J (foldPositionsM (fun _ j => do
        Adverb.store (slot j) (← (do
          let s ← getStore
          calling (apply func
            [.ofView s (xs.indexAxis axis i), .ofView s (ys.indexAxis axis j)])))) start count ()
        : Run κ (AdverbStop ε) Unit) :=
      Keeps.foldPositionsM (fun _ j => (hpair i j).bind fun _ => .attempt _ _) _ _ _
    refine (Keeps.attempt _ _).bind fun _ => (hrow 0 1 _ _).bind fun _ => ?_
    exact (Keeps.foldPositionsM (fun _ i => hrow i 0 _ _) _ _ _).bind fun _ => .pure _
  · exact .throw _

theorem detach_keeps (value : Value) :
    Keeps J (detach value : Run κ (AdverbStop ε) Value) := by
  cases value with
  | array v => exact (Keeps.make _).bind fun _ => .pure _
  | _ => exact .pure _

theorem step_keeps (happly : ∀ f args, Keeps J (apply f args)) (fold : Fold) (acc? : Option Value)
    (slices : List Value) : Keeps J (fold.step apply acc? slices) := by
  unfold Fold.step
  refine (calling_keeps (happly fold.func slices)).bind fun element => ?_
  cases acc? with
  | none => exact detach_keeps element
  | some acc => exact calling_keeps (happly _ _)

theorem reduce_keeps (happly : ∀ f args, Keeps J (apply f args)) (fold : Fold) (args : List Value)
    (axis : Nat) : Keeps J (Adverb.reduce apply fold args axis) := by
  unfold Adverb.reduce
  refine (Keeps.ofExcept _ _).bind fun len? => ?_
  split
  · exact step_keeps happly fold _ _
  · refine (Keeps.foldPositionsM (fun acc? i => ?_) _ _ _).bind fun acc? => ?_
    · exact (sliceArgs_keeps axis args i).bind fun slices =>
        (step_keeps happly fold acc? slices).bind fun _ => .pure _
    · split
      · exact .pure _
      · exact .throw _

theorem scan_keeps (happly : ∀ f args, Keeps J (apply f args)) (fold : Fold) (emit : Value)
    (args : List Value) (axis : Nat) : Keeps J (Adverb.scan apply fold emit args axis) := by
  unfold Adverb.scan
  refine (Keeps.ofExcept _ _).bind fun len? => ?_
  split
  · exact (step_keeps happly fold _ _).bind fun acc => calling_keeps (happly _ _)
  · exact emptyLike_keeps args
  · refine stackResults_keeps axis _ (fun acc? i => ?_) _
    exact (sliceArgs_keeps axis args i).bind fun slices =>
      (step_keeps happly fold acc? slices).bind fun acc =>
        (calling_keeps (happly _ _)).bind fun _ => .pure _

end
end ArrayLang.Run
