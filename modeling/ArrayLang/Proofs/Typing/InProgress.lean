import ArrayLang.Proofs.Session.AppendOnly
import ArrayLang.Proofs.Typing.Signature
import ArrayLang.Proofs.Typing.Termination

/-!
# Signatures in progress

A signature is marked while its function is built, and a marked signature is refused. Building calls
for further specializations from inference, lowering, closures and adverbs, and an error in any of
these ends the ones around it. Each of them takes its own mark back all the same, so that the marks
are at every point the signatures that the calls around it are building.

This is stated by a specializer that is told these signatures, `specializeUnder`: it refuses by what it
is told and never looks at a mark.

## Main results

- `specializeBound_eq_under`: refusing by the marks is refusing by the calls around.
- `specializeBound_unsettled`: a signature in progress is not recorded by the calls that are nested in
  it.
- `specializeBound_leaves_no_mark`: what a specialization, successful or not, leaves in the session.
-/

namespace ArrayLang

open Typing

variable {s t : Session} {key other : Signature} {callees : Specializer} {func : FnDecl}
  {params : List (String × Ty)}

/-! ## Nested calls do not record what is in progress -/

namespace Session

/-- The signature is in progress and was not specialized before. -/
structure Unsettled (s : Session) (key : Signature) : Prop where
  active : key ∈ s.inProgress
  unrecorded : key ∉ s.signatures

namespace Unsettled

theorem register (decl : FnDecl) (h : s.Unsettled key) : (s.register decl).2.Unsettled key where
  active := by
    rw [inProgress_register]
    exact h.active
  unrecorded := by
    rw [signatures, specializations_register]
    exact h.unrecorded

theorem beginSpecialization (other : Signature) (h : s.Unsettled key) :
    (s.beginSpecialization other).Unsettled key where
  active := List.mem_cons_of_mem other h.active
  unrecorded := h.unrecorded

theorem endSpecialization (hne : key ≠ other) (h : s.Unsettled key) :
    (s.endSpecialization other).Unsettled key where
  active := List.mem_filter.2 ⟨h.active, decide_eq_true hne⟩
  unrecorded := h.unrecorded

theorem recordSpecialization (hne : key ≠ other) (typed : TypedFn) (h : s.Unsettled key) :
    (s.recordSpecialization other typed).Unsettled key where
  active := h.active
  unrecorded := by
    show key ∉ other :: s.signatures
    rw [List.mem_cons, not_or]
    exact ⟨hne, h.unrecorded⟩

/-- Nothing is asked of the names of source code here, so nothing follows for what is recorded. -/
theorem sourceInvariant (key : Signature) :
    SourceInvariant (fun _ => True) fun s => s.Unsettled key where
  sources _ _ := fun _ _ => trivial
  typed _ _ hq := absurd (hq "." trivial) (by decide)
  register hs _ := hs.register _

end Unsettled
end Session

/-- Building records nothing but what the nested calls do. -/
theorem buildTypedFn_unsettled (hcallees : callees.Keeps (fun _ => True) fun s => s.Unsettled key)
    (func : FnDecl) (params : List (String × Ty)) (hs : s.Unsettled key) :
    (exec (buildTypedFn callees func params) s).2.Unsettled key := by
  have hbuild : Meets (fun s => s.Unsettled key) (buildTypedFn callees func params) _ :=
    buildTypedFn_signature (Session.Unsettled.sourceInvariant key) hcallees (fun _ _ => trivial)
      fun _ _ => trivial
  exact hbuild.exec_snd hs

/-- A call at a signature in progress is refused, and one at another signature records that one only. -/
theorem specializeOnce_unsettled (key : Signature)
    (hcallees : callees.Keeps (fun _ => True) fun s => s.Unsettled key) :
    Specializer.Keeps (fun _ => True) (fun s => s.Unsettled key) (specializeOnce callees) := by
  intro func params _ _ s hs
  refine ⟨?_, fun _ _ hq => absurd (hq "." trivial) (by decide)⟩
  have hbuilt := buildTypedFn_unsettled hcallees func params
    (hs.beginSpecialization (func.signature params))
  have hne (hnew : func.signature params ∉ s.inProgress) : key ≠ func.signature params := by
    rintro rfl
    exact hnew hs.active
  have hstep := specializeOnce_step callees func params s
  generalize exec (specializeOnce callees func params) s = run at hstep
  cases hstep with
  | found hfound => exact hs
  | refused hnone hactive => exact hs
  | failed hnone hnew hbuild =>
    rw [hbuild] at hbuilt
    exact hbuilt.endSpecialization (hne hnew)
  | built hnone hnew hbuild =>
    rw [hbuild] at hbuilt
    exact (hbuilt.endSpecialization (hne hnew)).recordSpecialization (hne hnew) _

/-- A signature that is in progress and not recorded stays so, whatever is specialized meanwhile. -/
theorem specializeBound_unsettled (key : Signature) (fuel : Nat) :
    Specializer.Keeps (fun _ => True) (fun s => s.Unsettled key) (specializeBound fuel) := by
  induction fuel with
  | zero => exact fun _ _ _ _ => .throw _
  | succ fuel ih => exact specializeOnce_unsettled key ih

/-- A specialization that fails does not record its signature. -/
theorem specializeBound_unrecorded {fuel : Nat} {stop : TypingStop}
    (h : exec (specializeBound fuel func params) s = (.error stop, t))
    (hs : func.signature params ∉ s.signatures) : func.signature params ∉ t.signatures := by
  cases fuel with
  | zero =>
    cases h
    exact hs
  | succ fuel =>
    rw [specializeBound] at h
    have hstep := specializeOnce_step (specializeBound fuel) func params s
    rw [h] at hstep
    cases hstep with
    | refused hnone hactive => exact hs
    | failed hnone hnew hbuild =>
      have hbegun : (s.beginSpecialization (func.signature params)).Unsettled
          (func.signature params) :=
        ⟨List.mem_cons_self, hs⟩
      have hbuilt := buildTypedFn_unsettled (specializeBound_unsettled _ fuel) func params hbegun
      rw [hbuild] at hbuilt
      exact hbuilt.unrecorded

/-! ## The marks are the calls around -/

/-- Specializes as `specializeBound` does, but refuses the signatures of the stack, which the calls
around this one are building. Calls that are nested in this one have its own signature on top. The marks
are kept and never read. -/
def specializeUnder (stack : List Signature) : Nat → Specializer
  | 0 => fun _ _ => throw .outOfFuel
  | fuel + 1 => fun func params => do
    let key := func.signature params
    match (← get).specialization? key with
    | some typed => return typed
    | none =>
      if stack.contains key then Typing.fail (.recursive func.name)
      modify (·.beginSpecialization key)
      let built ← Typing.attempt (buildTypedFn (specializeUnder (key :: stack) fuel) func params)
      modify (·.endSpecialization key)
      match built with
      | .ok typed =>
        modify (·.recordSpecialization key typed)
        return typed
      | .error stop => throw stop

theorem exec_specializeUnder (stack : List Signature) (fuel : Nat) (func : FnDecl)
    (params : List (String × Ty)) (s : Session) :
    exec (specializeUnder stack (fuel + 1) func params) s =
      let key := func.signature params
      match s.specialization? key with
      | some typed => (.ok typed, s)
      | none =>
        if stack.contains key then (.error (.error (.recursive func.name)), s)
        else
          match exec (buildTypedFn (specializeUnder (key :: stack) fuel) func params)
            (s.beginSpecialization key) with
          | (.ok typed, t) => (.ok typed, (t.endSpecialization key).recordSpecialization key typed)
          | (.error stop, t) => (.error stop, t.endSpecialization key) := by
  rw [specializeUnder]
  rw [exec_get_bind]
  dsimp only
  cases s.specialization? (func.signature params) with
  | some typed => rfl
  | none =>
    dsimp only
    by_cases hstack : stack.contains (func.signature params) = true
    · rw [if_pos hstack, if_pos hstack]
      rfl
    · rw [if_neg hstack, if_neg hstack]
      rw [exec_modify_bind, exec_attempt_bind, exec_modify_bind]
      cases exec (buildTypedFn (specializeUnder (func.signature params :: stack) fuel) func params)
        (s.beginSpecialization (func.signature params)) with
      | mk built t => cases built <;> rfl

/-- While the given signatures are marked, the computations do the same, and leave the same marks. -/
def Nested (active : List Signature) {α : Type} (x y : Typing α) : Prop :=
  ∀ s, s.inProgress = active → exec x s = exec y s ∧ (exec y s).2.inProgress = active

theorem nested_congruence (active : List Signature) : Congruence (Nested active) where
  pure _ _ hs := ⟨rfl, hs⟩
  fail _ _ hs := ⟨rfl, hs⟩
  untyped _ hs := ⟨rfl, hs⟩
  get _ hs := ⟨rfl, hs⟩
  register decl s hs := ⟨rfl, (inProgress_register s decl).trans hs⟩
  bind {_ _ x y f g} hxy hfg := by
    intro s hs
    obtain ⟨heq, hactive⟩ := hxy s hs
    rw [exec_bind, exec_bind, heq]
    cases h : exec y s with
    | mk r t =>
      rw [h] at hactive
      cases r with
      | error e => exact ⟨rfl, hactive⟩
      | ok a => exact hfg a t hactive

/-- The induction is on the fuel, for all marks at once: a call puts its own mark on top of those around
it, and the calls nested in it leave these marks as they find them. -/
theorem specializeBound_nested (fuel : Nat) (active : List Signature) :
    (specializeBound fuel).Related (Nested active) (specializeUnder active fuel) := by
  induction fuel generalizing active with
  | zero => exact fun _ _ _ hs => ⟨rfl, hs⟩
  | succ fuel ih =>
    intro func params s hs
    rw [specializeBound, exec_specializeOnce, exec_specializeUnder]
    dsimp only
    rw [← FnDecl.signature]
    cases s.specialization? (func.signature params) with
    | some typed => exact ⟨rfl, hs⟩
    | none =>
      dsimp only
      rw [hs]
      by_cases hcontains : active.contains (func.signature params) = true
      · rw [if_pos hcontains, if_pos hcontains]
        exact ⟨rfl, hs⟩
      · rw [if_neg hcontains, if_neg hcontains]
        have hnew : func.signature params ∉ active := by simpa using hcontains
        have hbuild := buildTypedFn_congr (nested_congruence (func.signature params :: active))
          (ih _) func params
        obtain ⟨heq, hactive⟩ := hbuild (s.beginSpecialization (func.signature params))
          (by rw [← hs]; rfl)
        rw [heq]
        refine ⟨rfl, ?_⟩
        cases hx : exec (buildTypedFn (specializeUnder (func.signature params :: active) fuel) func
          params) (s.beginSpecialization (func.signature params)) with
        | mk r t =>
          rw [hx] at hactive
          have hended := inProgress_endSpecialization hnew hactive
          cases r with
          | ok typed => exact hended
          | error stop => exact hended

/-- Refusing by the marks is refusing by the calls around, those that marked the session included. -/
theorem specializeBound_eq_under (fuel : Nat) (func : FnDecl) (params : List (String × Ty))
    (s : Session) :
    exec (specializeBound fuel func params) s
      = exec (specializeUnder s.inProgress fuel func params) s :=
  (specializeBound_nested fuel s.inProgress func params s rfl).1

theorem inProgress_specializeBound (fuel : Nat) (func : FnDecl) (params : List (String × Ty))
    (s : Session) : (exec (specializeBound fuel func params) s).2.inProgress = s.inProgress := by
  obtain ⟨heq, hactive⟩ := specializeBound_nested fuel s.inProgress func params s rfl
  rw [heq]
  exact hactive

/-! ## What is left in the session -/

theorem stable_signature (key : Signature) : Session.Stable fun s => key ∈ s.signatures where
  register {s} decl hs := by
    rw [Session.signatures, Session.specializations_register]
    exact hs
  request _ hs := hs
  recordConversion _ _ hs := hs
  hostFunction _ _ hs := hs
  insertTyped _ hs := hs
  beginSpecialization _ hs := hs
  endSpecialization _ hs := hs
  recordSpecialization _ _ hs := List.mem_cons_of_mem _ hs

/-- A specialization, also in the middle of others, takes back every mark that it sets; it does not record
its signature if it fails, and records the function that it gives if it succeeds; no signature that was
recorded is forgotten; and a signature is refused only where it is being built by the calls around. -/
theorem specializeBound_leaves_no_mark (fuel : Nat) (func : FnDecl) (params : List (String × Ty))
    (s : Session) :
    let key := func.signature params
    let run := exec (specializeBound fuel func params) s
    run.2.inProgress = s.inProgress
      ∧ (∀ stop, run.1 = .error stop → key ∉ s.signatures → key ∉ run.2.signatures)
      ∧ (∀ typed, run.1 = .ok typed → run.2.specialization? key = some typed)
      ∧ (∀ other ∈ s.signatures, other ∈ run.2.signatures)
      ∧ run = exec (specializeUnder s.inProgress fuel func params) s := by
  intro key run
  refine ⟨inProgress_specializeBound fuel func params s, fun stop hstop hs => ?_,
    fun typed hok => ?_, fun other hother => ?_, specializeBound_eq_under fuel func params s⟩
  · exact specializeBound_unrecorded (Prod.ext hstop rfl) hs
  · exact specializeBound_recorded (Prod.ext hok rfl)
  · have hkeeps := specializeBound_keeps (stable_signature other).sessionInvariant fuel
    exact (hkeeps func params (fun _ _ => trivial) fun _ _ => trivial).exec_snd hother

/-- A session in the middle of specializing `g`, with `fn f(x): return f(x)`. -/
def Session.midway : Session :=
  { Session.ofSources none [⟨"f", ⟨["x"], [], none⟩, [],
      [.ret (.plain (.call "f" [.plain (.var "x")]))]⟩] with
    inProgress := [("g", [.scalar .int64])] }

/-- `f` is refused when it calls itself, and only the mark of `g` is left. -/
theorem specializeBound_leaves_no_mark_midway :
    let f : FnDecl := ⟨"f", ⟨["x"], [], none⟩, [],
      [.ret (.plain (.call "f" [.plain (.var "x")]))]⟩
    let run := exec (specializeBound 2 f [("x", .scalar .int64)]) Session.midway
    run.1 = .error (.error (.recursive "f"))
      ∧ run.2.inProgress = [("g", [.scalar .int64])]
      ∧ ("f", [.scalar .int64]) ∉ run.2.signatures := by
  intro f run
  have hrefused : run.1 = .error (.error (.recursive "f")) := by rfl
  have hnew : ("f", [.scalar .int64]) ∉ Session.midway.signatures := by decide
  obtain ⟨hmarks, hunrecorded, -, -, -⟩ :=
    specializeBound_leaves_no_mark 2 f [("x", .scalar .int64)] Session.midway
  exact ⟨hrefused, hmarks, hunrecorded _ hrefused hnew⟩

end ArrayLang
