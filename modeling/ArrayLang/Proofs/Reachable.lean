import ArrayLang.Proofs.CopyElimination.WellTyped
import ArrayLang.Proofs.Interpreter.Session
import ArrayLang.Proofs.Typing.Specialization

/-!
# Reachable sessions

The sessions that arise from an empty one by registering and converting functions, specializing,
running code and eliminating copies, each also when it fails. Source functions are never forgotten.
All specializations of a reachable session are well typed, as long as no source function names a
variable that could be a fresh name.
-/

namespace ArrayLang

open Typing

/-! ## Values of maps -/

namespace NameMap

variable {α : Type} {m : NameMap α}

theorem mem_entries_of_find? {name : String} {value : α} (h : m.find? name = some value) :
    (name, value) ∈ m.entries := by
  obtain ⟨entries, _⟩ := m
  unfold find? at h
  dsimp only at h ⊢
  obtain ⟨l₁, l₂, rfl, -⟩ := List.lookup_eq_some_iff.1 h
  simp

theorem mem_values_of_find? {name : String} {value : α} (h : m.find? name = some value) :
    value ∈ m.values :=
  List.mem_map_of_mem (mem_entries_of_find? h)

theorem mem_values_insert {name : String} {value v : α} (h : v ∈ (m.insert name value).values) :
    v = value ∨ v ∈ m.values := by
  obtain ⟨e, he, rfl⟩ := List.mem_map.1 h
  rcases mem_insertEntry he with rfl | hmem
  · exact .inl rfl
  · exact .inr (List.mem_map_of_mem hmem)

end NameMap

/-! ## Reaching a session -/

namespace Session

/-- The session arises from an empty one. Functions are specialized for the parameters that they
declare, and whatever code runs does so with any store. -/
inductive Reachable : Session → Prop
  | new (converter? : Option Converter) : Reachable (.new converter?)
  | register {s : Session} (h : Reachable s) (decl : FnDecl) : Reachable (s.register decl).2
  | hostFunction {s : Session} (h : Reachable s) (name : String) (captured : List Value) :
    Reachable (s.hostFunction name captured).2
  | convert {s : Session} (h : Reachable s) (id : Nat) (name : String) (captured : List Value) :
    Reachable (s.convert id name captured).2
  | specialize {s : Session} (h : Reachable s) (fuel : Nat) (name : String) (types : List Ty) :
    Reachable (exec (specialize fuel name types) s).2
  | specializeClosure {s : Session} (h : Reachable s) (fuel : Nat) (func : String)
    (captured types : List Ty) :
    Reachable (exec (Annotate.specializeClosure (specializeBound fuel) func captured types) s).2
  | specializeBound {s : Session} (h : Reachable s) (fuel : Nat) {name : String} {func : FnDecl}
    {params : List (String × Ty)} (hfunc : s.sources.find? name = some func)
    (hparams : ∀ p ∈ params, p.1 ∈ func.nonlocals ++ func.params.names) :
    Reachable (exec (specializeBound fuel func params) s).2
  | inferFn {s : Session} (h : Reachable s) (fuel : Nat) {name : String} {func : FnDecl}
    {params : List (String × Ty)} (hfunc : s.sources.find? name = some func)
    (hparams : ∀ p ∈ params, p.1 ∈ func.nonlocals ++ func.params.names) :
    Reachable (exec (inferFn (ArrayLang.specializeBound fuel) func params) s).2
  | call {s : Session} (h : Reachable s) (store : Store) (fuel : Nat) (target : Value)
    (args : List Value) :
    Reachable (Run.exec (Interpreter.call fuel target args) ⟨store, s⟩).2.context
  | callSource {s : Session} (h : Reachable s) (store : Store) (fuel : Nat) (name : String)
    (args : List Value) :
    Reachable (Run.exec (Interpreter.callSource fuel name args) ⟨store, s⟩).2.context
  | callTyped {s : Session} (h : Reachable s) (store : Store) (fuel : Nat) (func : TypedFn)
    (args : List Value) :
    Reachable (Run.exec (Interpreter.callTyped fuel func args) ⟨store, s⟩).2.context
  | eliminateCopies {s : Session} (h : Reachable s) : Reachable s.eliminateCopies

/-- Every source function names variables without a dot only, also in functions written in place. -/
def Dotless (s : Session) : Prop :=
  ∀ name decl, s.sources.find? name = some decl → decl.Names ArrayLang.Dotless

/-- Every specialized function passes the check. -/
def WellTyped (s : Session) : Prop :=
  ∀ f ∈ s.typed.values, f.check = .ok ()

variable {s s' : Session}

/-! ## Source functions -/

theorem Dotless.of_included (h : s'.Dotless) (hs : s.sources.Included s'.sources) : s.Dotless :=
  fun name decl hfind => h name decl (hs name decl hfind)

theorem sources_register (s : Session) (decl : FnDecl) :
    s.sources.Included (s.register decl).2.sources := by
  unfold register
  split
  · exact NameMap.Included.refl _
  · rename_i hnone
    exact NameMap.Included.insert hnone

theorem typed_register (s : Session) (decl : FnDecl) : (s.register decl).2.typed = s.typed := by
  unfold register
  split <;> rfl

theorem specializations_register (s : Session) (decl : FnDecl) :
    (s.register decl).2.specializations = s.specializations := by
  unfold register
  split <;> rfl

/-- Registering a function that satisfies `q` keeps all source functions satisfying it. -/
theorem forall_sources_register {q : FnDecl → Prop} {decl : FnDecl} (hdecl : q decl)
    (h : ∀ name d, s.sources.find? name = some d → q d) :
    ∀ name d, (s.register decl).2.sources.find? name = some d → q d := by
  unfold register
  split
  · exact h
  · intro name d hfind
    rw [NameMap.find?_insert] at hfind
    by_cases heq : name = decl.name
    · rw [if_pos heq, Option.some_inj] at hfind
      exact hfind ▸ hdecl
    · rw [if_neg heq] at hfind
      exact h name d hfind

/-- What is registered, converted or run keeps the source functions of `s₀` and has the same
specialized functions. -/
def Extends (s₀ s : Session) : Prop :=
  s₀.sources.Included s.sources ∧ s.typed = s₀.typed

theorem Extends.refl (s : Session) : s.Extends s :=
  ⟨NameMap.Included.refl _, rfl⟩

theorem Extends.register {s₀ : Session} (decl : FnDecl) (h : s₀.Extends s) :
    s₀.Extends (s.register decl).2 :=
  ⟨h.1.trans (sources_register s decl), (typed_register s decl).trans h.2⟩

theorem Extends.convert {s₀ : Session} (id : Nat) (name : String) (captured : List Value)
    (h : s₀.Extends s) : s₀.Extends (s.convert id name captured).2 := by
  unfold Session.convert
  split
  · exact h
  · split
    · exact h
    · dsimp only
      split
      · exact h
      · exact Extends.register (s := { s with requests := id :: s.requests }) _ h

theorem extends_runInvariant (s₀ : Session) : Interpreter.RunInvariant s₀.Extends where
  register decl hs := hs.register decl
  convert id name captured hs := hs.convert id name captured

/-- Running code leaves the specialized functions as they are. -/
theorem WellTyped.of_extends (hs : s.Dotless → s.WellTyped) (h : s.Extends s') (hd : s'.Dotless) :
    s'.WellTyped := by
  intro f hf
  rw [h.2] at hf
  exact hs (hd.of_included h.1) f hf

/-! ## Specialized functions -/

theorem WellTyped.insertTyped {f : TypedFn} (hs : s.WellTyped) (hf : f.check = .ok ()) :
    (s.insertTyped f).WellTyped := by
  intro g hg
  rcases NameMap.mem_values_insert hg with rfl | hmem
  · exact hf
  · exact hs g hmem

/-- Growing is kept whatever the names of source code are. -/
theorem growing_invariant (s₀ : Session) :
    SessionInvariant (fun _ => True) fun s => s₀.sources.Included s.sources where
  sources _ _ := fun _ _ => trivial
  typed _ _ hq := absurd (hq "." trivial) (by decide)
  register hs _ := hs.trans (sources_register _ _)
  beginSpecialization hs := hs
  endSpecialization hs := hs
  recordSpecialization hs _ := hs

/-- While source functions name variables without a dot, what is recorded is well typed. -/
theorem wellTyped_invariant :
    SessionInvariant ArrayLang.Dotless fun s => s.Dotless ∧ s.WellTyped where
  sources hs h := hs.1 _ _ h
  typed hs h _ := hs.2 _ (NameMap.mem_values_of_find? h)
  register hs h :=
    ⟨forall_sources_register h hs.1, fun f hf => hs.2 f (typed_register _ _ ▸ hf)⟩
  beginSpecialization hs := hs
  endSpecialization hs := hs
  recordSpecialization hs h := ⟨hs.1, hs.2.insertTyped (h fun _ hq => hq)⟩

/-- What a typing computation records is well typed if it keeps every invariant of sessions. -/
theorem WellTyped.of_meets {α : Type} {x : Typing α}
    (hx : ∀ q I, SessionInvariant q I → I s → ∃ Q, Meets I x Q) (hs : s.Dotless → s.WellTyped)
    (hd : (exec x s).2.Dotless) : (exec x s).2.WellTyped := by
  obtain ⟨_, hgrow⟩ := hx _ _ (growing_invariant s) (NameMap.Included.refl _)
  have hsources := (hgrow s (NameMap.Included.refl _)).1
  have hd₀ := hd.of_included hsources
  have hinv := And.intro hd₀ (hs hd₀)
  obtain ⟨_, hkeep⟩ := hx _ _ wellTyped_invariant hinv
  exact (hkeep s hinv).1.2

/-- The parameters that a source function declares are among the names of source code. -/
theorem names_params {q : String → Prop} {I : Session → Prop} (hI : SessionInvariant q I)
    (hs : I s) {name : String} {func : FnDecl} {params : List (String × Ty)}
    (hfunc : s.sources.find? name = some func)
    (hparams : ∀ p ∈ params, p.1 ∈ func.nonlocals ++ func.params.names) :
    func.Names q ∧ ∀ p ∈ params, q p.1 := by
  have hnames := hI.sources hs hfunc
  exact ⟨hnames, fun p hp => hnames.bound p.1 (hparams p hp)⟩

/-! ## Copy elimination -/

theorem WellTyped.eliminateCopies (hs : s.WellTyped) : s.eliminateCopies.WellTyped := by
  unfold Session.eliminateCopies
  refine List.foldlRecOn _ _ hs fun t ht f hf => ?_
  dsimp only
  split
  · exact ht
  · exact ht.insertTyped (TypedFn.eliminateCopies_check (hs f hf))

theorem sources_eliminateCopies (s : Session) : s.eliminateCopies.sources = s.sources := by
  unfold Session.eliminateCopies
  refine List.foldlRecOn (motive := fun t : Session => t.sources = s.sources) _ _ rfl fun t ht f _ => ?_
  dsimp only
  split <;> exact ht

/-! ## Every reachable session -/

/-- Every specialized function of a reachable session is well typed, if the variables of its source
functions have names without a dot. -/
theorem Reachable.wellTyped {s : Session} (h : s.Reachable) : s.Dotless → s.WellTyped := by
  induction h with
  | new converter? => exact fun _ f hf => (List.not_mem_nil hf).elim
  | register h decl ih => exact WellTyped.of_extends ih ((Extends.refl _).register decl)
  | hostFunction h name captured ih => exact WellTyped.of_extends ih ⟨.refl _, rfl⟩
  | convert h id name captured ih =>
    exact WellTyped.of_extends ih ((Extends.refl _).convert id name captured)
  | specialize h fuel name types ih =>
    exact WellTyped.of_meets (fun q I hI _ => ⟨_, specialize_meets hI fuel name types⟩) ih
  | specializeClosure h fuel func captured types ih =>
    exact WellTyped.of_meets (fun q I hI _ => ⟨_, Annotate.specializeClosure_meets hI.toSourceInvariant
      (specializeBound_keeps hI fuel) func captured types⟩) ih
  | specializeBound h fuel hfunc hparams ih =>
    refine WellTyped.of_meets (fun q I hI hs => ?_) ih
    obtain ⟨hfunc, hparams⟩ := names_params hI hs hfunc hparams
    exact ⟨_, specializeBound_keeps hI fuel _ _ hfunc hparams⟩
  | inferFn h fuel hfunc hparams ih =>
    refine WellTyped.of_meets (fun q I hI hs => ?_) ih
    obtain ⟨hfunc, hparams⟩ := names_params hI hs hfunc hparams
    exact ⟨_, inferFn_meets hI.toSourceInvariant (specializeBound_keeps hI fuel) hfunc hparams⟩
  | call h store fuel target args ih =>
    exact WellTyped.of_extends ih
      (Interpreter.call_keeps (extends_runInvariant _) fuel target args ⟨store, _⟩ (.refl _))
  | callSource h store fuel name args ih =>
    exact WellTyped.of_extends ih
      (Interpreter.callSource_keeps (extends_runInvariant _) fuel name args ⟨store, _⟩ (.refl _))
  | callTyped h store fuel func args ih =>
    exact WellTyped.of_extends ih
      (Interpreter.callTyped_keeps (extends_runInvariant _) fuel func args ⟨store, _⟩ (.refl _))
  | eliminateCopies h ih =>
    intro hd
    refine (ih (hd.of_included ?_)).eliminateCopies
    rw [sources_eliminateCopies]
    exact NameMap.Included.refl _

/-- What specializing a function of a reachable session gives passes the check, and so does every
specialized function that the session has afterwards, also when the specialization fails. -/
theorem Reachable.specialize_check {s : Session} (h : s.Reachable) (hd : s.Dotless) (fuel : Nat)
    (name : String) (types : List Ty) :
    (∀ f, (exec (ArrayLang.specialize fuel name types) s).1 = .ok f → f.check = .ok ())
      ∧ (exec (ArrayLang.specialize fuel name types) s).2.WellTyped := by
  have hmeets := specialize_meets wellTyped_invariant fuel name types s ⟨hd, h.wellTyped hd⟩
  exact ⟨fun f hf => hmeets.2 f hf fun _ hq => hq, hmeets.1.2⟩

/-- A session with `next(x) = x + 1` and `half(x) = next(x) / 2`. -/
def halving : Session :=
  .ofSources none [
    ⟨"next", ⟨["x"], [], none⟩, [],
      [.ret (.plain (.op .add [.plain (.var "x"), .plain (.lit (.int 1))]))]⟩,
    ⟨"half", ⟨["x"], [], none⟩, [],
      [.assign (.plain (.var "y")) (.plain (.call "next" [.plain (.var "x")])),
        .ret (.plain (.op .divide [.plain (.var "y"), .plain (.lit (.int 2))]))]⟩]

theorem halving_dotless : halving.Dotless := by
  refine forall_sources_register ?_ (forall_sources_register ?_ fun _ _ h => by cases h)
  · show ∀ name ∈ FnDecl.variables _, ArrayLang.Dotless name
    decide
  · show ∀ name ∈ FnDecl.variables _, ArrayLang.Dotless name
    decide

theorem specialize_check_half :
    halving.Reachable ∧ halving.Dotless
      ∧ (∃ f, (exec (specialize 3 "half" [.scalar .int64]) halving).1 = .ok f ∧ f.check = .ok ())
      ∧ (exec (specialize 3 "half" [.scalar .int64]) halving).2.WellTyped := by
  have hreach : halving.Reachable := .register (.register (.new none) _) _
  have hcheck := hreach.specialize_check halving_dotless 3 "half" [.scalar .int64]
  have hok : (exec (specialize 3 "half" [.scalar .int64]) halving).1.isOk = true := by decide
  refine ⟨hreach, halving_dotless, ?_, hcheck.2⟩
  cases hf : (exec (specialize 3 "half" [.scalar .int64]) halving).1 with
  | error e =>
    rw [hf] at hok
    cases hok
  | ok f => exact ⟨f, rfl, hcheck.1 f hf⟩

end Session
end ArrayLang
