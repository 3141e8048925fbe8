import ArrayLang.Proofs.Reachable

/-!
# Sessions only grow

The operations on a session, and what no sequence of them takes back: the definition of a source
function, the conversion of a host function, and the function of a recorded signature. The converter
is never asked again for a host function that it converted, and no two host functions are given the
same identity.

All operations come down to a few changes of the session, so an invariant is shown of these changes
and holds after whole runs (`Session.Stable.performAll`).

## Main results

- `Session.append_only`: what every run from a new session keeps.
-/

namespace ArrayLang

open Typing

/-! ## Operations -/

/-- What is done with a session. Running code and specializing are bounded by fuel, and may fail. -/
inductive Operation where
  | register (decl : FnDecl)
  | hostFunction (name : String) (captured : List Value)
  | convert (id : Nat) (name : String) (captured : List Value)
  | insertTyped (func : TypedFn)
  | specialize (fuel : Nat) (name : String) (types : List Ty)
  | specializeClosure (fuel : Nat) (func : String) (captured types : List Ty)
  | specializeBound (fuel : Nat) (func : FnDecl) (params : List (String × Ty))
  | infer (fuel : Nat) (func : FnDecl) (params : List (String × Ty))
  | annotate (fuel : Nat) (env : TypeEnv) (e : Expr)
  | call (store : Store) (fuel : Nat) (target : Value) (args : List Value)
  | callSource (store : Store) (fuel : Nat) (name : String) (args : List Value)
  | callTyped (store : Store) (fuel : Nat) (func : TypedFn) (args : List Value)
  | eliminateCopies

namespace Session

/-- The session that an operation leaves behind, whether it succeeds or fails. -/
def perform (s : Session) : Operation → Session
  | .register decl => (s.register decl).2
  | .hostFunction name captured => (s.hostFunction name captured).2
  | .convert id name captured => (s.convert id name captured).2
  | .insertTyped func => s.insertTyped func
  | .specialize fuel name types => (exec (ArrayLang.specialize fuel name types) s).2
  | .specializeClosure fuel func captured types =>
    (exec (Annotate.specializeClosure (ArrayLang.specializeBound fuel) func captured types) s).2
  | .specializeBound fuel func params => (exec (ArrayLang.specializeBound fuel func params) s).2
  | .infer fuel func params => (exec (inferFn (ArrayLang.specializeBound fuel) func params) s).2
  | .annotate fuel env e =>
    (exec (ArrayLang.annotate (ArrayLang.specializeBound fuel) env e) s).2
  | .call store fuel target args =>
    (Run.exec (Interpreter.call fuel target args) ⟨store, s⟩).2.context
  | .callSource store fuel name args =>
    (Run.exec (Interpreter.callSource fuel name args) ⟨store, s⟩).2.context
  | .callTyped store fuel func args =>
    (Run.exec (Interpreter.callTyped fuel func args) ⟨store, s⟩).2.context
  | .eliminateCopies => s.eliminateCopies

/-- The session after several operations. -/
def performAll (s : Session) (ops : List Operation) : Session :=
  ops.foldl perform s

/-- The identity of the host function that an operation makes, if it makes one. -/
def madeId? (s : Session) : Operation → Option Nat
  | .hostFunction name captured =>
    match (s.hostFunction name captured).1 with
    | .host id _ _ => some id
    | _ => none
  | _ => none

/-- The identities of the host functions that operations make, in order. -/
def madeIds : Session → List Operation → List Nat
  | _, [] => []
  | s, op :: ops => (s.madeId? op).toList ++ (s.perform op).madeIds ops

/-! ## Invariants of operations -/

/-- An invariant that is kept by every change that operations make to a session. The converter is
asked for, and a conversion recorded of, host functions that are not converted yet. -/
structure Stable (J : Session → Prop) : Prop where
  register {s : Session} (decl : FnDecl) (hs : J s) : J (s.register decl).2
  request {s : Session} {id : Nat} (hid : s.conversions.lookup id = none) (hs : J s) :
    J { s with requests := id :: s.requests }
  recordConversion {s : Session} {id : Nat} (decl : FnDecl)
    (hid : s.conversions.lookup id = none) (hs : J s) :
    J { s with conversions := (id, decl) :: s.conversions }
  hostFunction {s : Session} (name : String) (captured : List Value) (hs : J s) :
    J (s.hostFunction name captured).2
  insertTyped {s : Session} (func : TypedFn) (hs : J s) : J (s.insertTyped func)
  beginSpecialization {s : Session} (key : Signature) (hs : J s) : J (s.beginSpecialization key)
  endSpecialization {s : Session} (key : Signature) (hs : J s) : J (s.endSpecialization key)
  recordSpecialization {s : Session} (key : Signature) (func : TypedFn) (hs : J s) :
    J (s.recordSpecialization key func)

theorem conversions_register (s : Session) (decl : FnDecl) :
    (s.register decl).2.conversions = s.conversions := by
  unfold register
  split <;> rfl

theorem requests_register (s : Session) (decl : FnDecl) :
    (s.register decl).2.requests = s.requests := by
  unfold register
  split <;> rfl

namespace Stable

variable {J : Session → Prop} {s : Session}

theorem convert (hJ : Stable J) (id : Nat) (name : String) (captured : List Value) (hs : J s) :
    J (s.convert id name captured).2 := by
  unfold Session.convert
  split
  · exact hs
  · rename_i hid
    split
    · exact hs
    · dsimp only
      have hasked := hJ.request hid hs
      split
      · exact hasked
      · rename_i decl _
        -- The host function still has no conversion after its definition was registered.
        refine hJ.recordConversion _ ?_ (hJ.register decl hasked)
        rw [conversions_register]
        exact hid

theorem runInvariant (hJ : Stable J) : Interpreter.RunInvariant J where
  register decl hs := hJ.register decl hs
  convert id name captured hs := hJ.convert id name captured hs

/-- Nothing is asked of the names of source code here, so nothing follows for what is recorded. -/
theorem sessionInvariant (hJ : Stable J) : SessionInvariant (fun _ => True) J where
  sources _ _ := fun _ _ => trivial
  typed _ _ hq := absurd (hq "." trivial) (by decide)
  register hs _ := hJ.register _ hs
  beginSpecialization hs := hJ.beginSpecialization _ hs
  endSpecialization hs := hJ.endSpecialization _ hs
  recordSpecialization hs _ := hJ.recordSpecialization _ _ hs

theorem eliminateCopies (hJ : Stable J) (hs : J s) : J s.eliminateCopies := by
  unfold Session.eliminateCopies
  refine List.foldlRecOn _ _ hs fun t ht f _ => ?_
  dsimp only
  split
  · exact ht
  · exact hJ.insertTyped _ ht

/-- One operation keeps the invariant, also when it fails. -/
theorem perform (hJ : Stable J) (hs : J s) (op : Operation) : J (s.perform op) := by
  have hI := hJ.sessionInvariant
  have hspec := specializeBound_keeps hI
  have hrun := hJ.runInvariant
  cases op with
  | register decl => exact hJ.register decl hs
  | hostFunction name captured => exact hJ.hostFunction name captured hs
  | convert id name captured => exact hJ.convert id name captured hs
  | insertTyped func => exact hJ.insertTyped func hs
  | specialize fuel name types => exact (specialize_meets hI fuel name types s hs).1
  | specializeClosure fuel func captured types =>
    exact (Annotate.specializeClosure_meets hI.toSourceInvariant (hspec fuel) func captured types
      s hs).1
  | specializeBound fuel func params =>
    exact (hspec fuel func params (fun _ _ => trivial) (fun _ _ => trivial) s hs).1
  | infer fuel func params =>
    have hinfer : Meets J (inferFn (ArrayLang.specializeBound fuel) func params) _ :=
      inferFn_meets hI.toSourceInvariant (hspec fuel) (fun _ _ => trivial) fun _ _ => trivial
    exact (hinfer s hs).1
  | annotate fuel env e =>
    exact (annotate_meets hI.toSourceInvariant (hspec fuel) e (fun _ _ => trivial) s hs).1
  | call store fuel target args => exact Interpreter.call_keeps hrun fuel target args ⟨store, s⟩ hs
  | callSource store fuel name args =>
    exact Interpreter.callSource_keeps hrun fuel name args ⟨store, s⟩ hs
  | callTyped store fuel func args =>
    exact Interpreter.callTyped_keeps hrun fuel func args ⟨store, s⟩ hs
  | eliminateCopies => exact hJ.eliminateCopies hs

/-- Every run keeps the invariant. -/
theorem performAll (hJ : Stable J) (hs : J s) (ops : List Operation) : J (s.performAll ops) :=
  List.foldlRecOn ops Session.perform hs fun _ ht op _ => hJ.perform ht op

end Stable

/-! ## What is kept -/

/-- The definition of a name stays. -/
theorem stable_source (name : String) (decl : FnDecl) :
    Stable fun s => s.sources.find? name = some decl where
  register d hs := sources_register _ d name decl hs
  request _ hs := hs
  recordConversion _ _ hs := hs
  hostFunction _ _ hs := hs
  insertTyped _ hs := hs
  beginSpecialization _ hs := hs
  endSpecialization _ hs := hs
  recordSpecialization _ _ hs := hs

/-- The host functions that were made stay counted. -/
theorem stable_hostCount (n : Nat) : Stable fun s => n ≤ s.hostCount where
  register {s} d hs := by
    unfold Session.register
    split <;> exact hs
  request _ hs := hs
  recordConversion _ _ hs := hs
  hostFunction _ _ hs := Nat.le_succ_of_le hs
  insertTyped _ hs := hs
  beginSpecialization _ hs := hs
  endSpecialization _ hs := hs
  recordSpecialization _ _ hs := hs

/-- A conversion stays, and the converter is not asked for the host function again. -/
theorem stable_conversion (id : Nat) (decl : FnDecl) (n : Nat) :
    Stable fun s => s.conversions.lookup id = some decl ∧ s.requests.count id = n where
  register {s} d hs := by
    rw [conversions_register, requests_register]
    exact hs
  request {s other} hother hs := by
    have hne : other ≠ id := by
      rintro rfl
      rw [hs.1] at hother
      cases hother
    exact ⟨hs.1, by rw [List.count_cons_of_ne hne, hs.2]⟩
  recordConversion {s other} d hother hs := by
    have hne : (id == other) = false := by
      refine beq_false_of_ne ?_
      rintro rfl
      rw [hs.1] at hother
      cases hother
    exact ⟨by rw [List.lookup_cons, hne, hs.1], hs.2⟩
  hostFunction _ _ hs := hs
  insertTyped _ hs := hs
  beginSpecialization _ hs := hs
  endSpecialization _ hs := hs
  recordSpecialization _ _ hs := hs

/-- Typed functions are stored under their names. -/
def ByName (s : Session) : Prop :=
  ∀ e ∈ s.typed.entries, e.2.name = e.1

theorem ByName.insertTyped {s : Session} (func : TypedFn) (hs : s.ByName) :
    (s.insertTyped func).ByName := by
  intro e he
  rcases NameMap.mem_insertEntry he with rfl | he
  · rfl
  · exact hs e he

theorem stable_byName : Stable ByName where
  register {s} d hs := by
    unfold ByName
    rw [typed_register]
    exact hs
  request _ hs := hs
  recordConversion _ _ hs := hs
  hostFunction _ _ hs := hs
  insertTyped func hs := hs.insertTyped func
  beginSpecialization _ hs := hs
  endSpecialization _ hs := hs
  recordSpecialization _ func hs := ByName.insertTyped func hs

/-- The functions of recorded signatures are known. -/
def Recorded (s : Session) : Prop :=
  ∀ e ∈ s.specializations, ∃ func, s.typed.find? e.2 = some func

/-- A typed function may be replaced, but its name stays known. -/
theorem find?_insertTyped {s : Session} {name : String} (func : TypedFn)
    (h : ∃ known, s.typed.find? name = some known) :
    ∃ known, (s.insertTyped func).typed.find? name = some known := by
  obtain ⟨known, hknown⟩ := h
  unfold Session.insertTyped
  rw [NameMap.find?_insert]
  by_cases heq : name = func.name
  · exact ⟨func, if_pos heq⟩
  · exact ⟨known, (if_neg heq).trans hknown⟩

theorem stable_recorded : Stable Recorded where
  register {s} d hs := by
    unfold Recorded
    rw [typed_register, specializations_register]
    exact hs
  request _ hs := hs
  recordConversion _ _ hs := hs
  hostFunction _ _ hs := hs
  insertTyped func hs := fun e he => find?_insertTyped func (hs e he)
  beginSpecialization _ hs := hs
  endSpecialization _ hs := hs
  recordSpecialization {s} key func hs := by
    intro e he
    rcases List.mem_cons.1 he with rfl | he
    · exact ⟨func, by
        show (s.typed.insert func.name func).find? func.name = some func
        rw [NameMap.find?_insert, if_pos rfl]⟩
    · exact find?_insertTyped func (hs e he)

/-! ## Host functions -/

/-- Host functions are made with identities that were not given before. -/
theorem hostCount_le_of_mem_madeIds {s : Session} {ops : List Operation} {id : Nat}
    (h : id ∈ s.madeIds ops) : s.hostCount ≤ id := by
  induction ops generalizing s with
  | nil => exact (List.not_mem_nil h).elim
  | cons op ops ih =>
    rw [madeIds, List.mem_append] at h
    rcases h with h | h
    · cases op with
      | hostFunction name captured =>
        exact Nat.le_of_eq (List.mem_singleton.1 h).symm
      | _ => exact (List.not_mem_nil h).elim
    · have hcount := (stable_hostCount s.hostCount).perform (Nat.le_refl _) op
      exact Nat.le_trans hcount (ih h)

/-- Host functions made in one run have different identities. -/
theorem nodup_madeIds (s : Session) (ops : List Operation) : (s.madeIds ops).Nodup := by
  induction ops generalizing s with
  | nil => exact .nil
  | cons op ops ih =>
    rw [madeIds]
    cases op with
    | hostFunction name captured =>
      refine List.nodup_cons.2 ⟨fun hagain => ?_, ih _⟩
      -- The count is past the new identity when the later ones are given.
      have hlater : s.hostCount + 1 ≤ s.hostCount := hostCount_le_of_mem_madeIds hagain
      omega
    | _ => exact ih _

/-- A successful conversion is recorded. -/
theorem lookup_of_convert {s s' : Session} {id : Nat} {name : String} {captured : List Value}
    {decl : FnDecl} (h : s.convert id name captured = (.ok decl, s')) :
    s'.conversions.lookup id = some decl := by
  unfold Session.convert at h
  split at h
  · cases h
    assumption
  · split at h
    · cases h
    · dsimp only at h
      split at h
      · cases h
      · cases h
        exact List.lookup_cons_self

/-- A recorded conversion answers without a change to the session. -/
theorem convert_of_lookup {s : Session} {id : Nat} {decl : FnDecl} (name : String)
    (captured : List Value) (h : s.conversions.lookup id = some decl) :
    s.convert id name captured = (.ok decl, s) := by
  unfold Session.convert
  rw [h]

/-! ## Whole runs -/

/-- What operations do to a new session is never taken back. From any point of a run on, a source
function keeps its definition, and a host function whose conversion succeeded keeps its definition as
well, without the converter being asked for it again. No two host functions are made with one
identity, and the function of every recorded signature is known. -/
theorem append_only (converter? : Option Converter) (ops more : List Operation) :
    let s := (new converter?).performAll ops
    let t := s.performAll more
    (∀ name decl, s.sources.find? name = some decl → t.sources.find? name = some decl)
      ∧ ((new converter?).madeIds (ops ++ more)).Nodup
      ∧ (∀ id name captured decl s', s.convert id name captured = (.ok decl, s') →
        s'.conversions.lookup id = some decl)
      ∧ (∀ id decl, s.conversions.lookup id = some decl → ∀ name captured,
        t.convert id name captured = (.ok decl, t) ∧ t.requests.count id = s.requests.count id)
      ∧ ∀ key name, (key, name) ∈ s.specializations →
        ∃ func, s.typed.find? name = some func ∧ func.name = name := by
  intro s t
  refine ⟨fun name decl h => (stable_source name decl).performAll h more, nodup_madeIds _ _,
    fun id name captured decl s' h => lookup_of_convert h, fun id decl h name captured => ?_,
    fun key name h => ?_⟩
  · obtain ⟨hlookup, hcount⟩ := (stable_conversion id decl _).performAll ⟨h, rfl⟩ more
    exact ⟨convert_of_lookup name captured hlookup, hcount⟩
  · have hrecorded : Recorded s :=
      stable_recorded.performAll (fun _ h => (List.not_mem_nil h).elim) ops
    have hbyName : ByName s :=
      stable_byName.performAll (fun _ h => (List.not_mem_nil h).elim) ops
    obtain ⟨func, hfunc⟩ := hrecorded _ h
    exact ⟨func, hfunc, hbyName _ (NameMap.mem_entries_of_find? hfunc)⟩

/-- `fn half(x): return x / 2` -/
def half : FnDecl :=
  ⟨"half", ⟨["x"], [], none⟩, [],
    [.ret (.plain (.op .divide [.plain (.var "x"), .plain (.lit (.int 2))]))]⟩

/-- A host function is converted and then called twice, while its name is registered once more and
its conversion specialized. -/
theorem append_only_half :
    let converter : Converter := .ofTable [("half", half)]
    let s := (new (some converter)).performAll [.hostFunction "half" [], .convert 0 "half" []]
    let t := s.performAll [.call ∅ 3 (.host 0 "half" []) [.int 4],
      .register { half with body := [] }, .specialize 3 "half" [.scalar .int64], .eliminateCopies,
      .call ∅ 3 (.host 0 "half" []) [.int 5]]
    t.sources.find? "half" = some half ∧ t.convert 0 "half" [] = (.ok half, t)
      ∧ t.requests.count 0 = 1 ∧ t.typed.values.length = 1 := by
  intro converter s t
  obtain ⟨hsources, -, -, hconversions, -⟩ := append_only (some converter)
    [.hostFunction "half" [], .convert 0 "half" []]
    [.call ∅ 3 (.host 0 "half" []) [.int 4], .register { half with body := [] },
      .specialize 3 "half" [.scalar .int64], .eliminateCopies,
      .call ∅ 3 (.host 0 "half" []) [.int 5]]
  obtain ⟨hconvert, hcount⟩ := hconversions 0 half rfl "half" []
  exact ⟨hsources "half" half rfl, hconvert, hcount, by decide +kernel⟩

end Session
end ArrayLang
