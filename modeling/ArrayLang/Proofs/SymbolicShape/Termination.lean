import ArrayLang.Proofs.SymbolicShape.OpenInference

/-!
# Termination of shape inference

Inference walks through the functions of a session as its calls lead it, and keeps a list of those whose
bodies are being walked. Nothing but this list stops it: a walk is followed here without a bound on its
depth, with the list as state that a call pushes to and pops from. Every walk ends, the list is what it
was before each call, and a recursion is reported for calls of listed functions only. The measure is
the number of functions of the session that are not being walked.

## Main results

- `Infers.active_eq`: a walk restores the list of active functions.
- `Ends.scripted`, `Ends.call`: every walk ends.
- `resultShape_infers`: what is inferred for a function is what the walk from it ends with, and why it
  may report a recursion.
-/

namespace ArrayLang.ShapeInference

open AbstractValue

variable {α β : Type} {session : Session} {active active' : List String}

/-! ## Walks -/

/-- A call of a function of the session, and the functions that are being walked when it is made,
innermost first. -/
structure Meeting where
  callee : TypedFn
  active : List String

/-- The callee is being walked already. -/
def Meeting.Recursive (m : Meeting) : Prop :=
  m.callee.name ∈ m.active

/-- A walk with a list of active functions, from the list before it to the list after it, with its
outcome and all calls that were made, in order. A call pushes its function to the list, and pops it when
the walk through the body is over, whatever the outcome is. -/
inductive Infers (session : Session) : {α : Type} → Open α → List String → List Meeting →
    Except ShapeInferError α → List String → Prop
  | step {α : Type} (r : Except ShapeInferError α) (active : List String) :
    Infers session (fun _ => r) active [] r active
  | next {α β : Type} {x : Open α} {f : α → Open β} {a : α} {r : Except ShapeInferError β}
    {active active₁ active₂ : List String} {meetings meetings' : List Meeting}
    (hx : Infers session x active meetings (.ok a) active₁)
    (hf : Infers session (f a) active₁ meetings' r active₂) :
    Infers session (fun call => x call >>= fun a => f a call) active (meetings ++ meetings') r active₂
  | stop {α β : Type} {x : Open α} {f : α → Open β} {e : ShapeInferError}
    {active active₁ : List String} {meetings : List Meeting}
    (hx : Infers session x active meetings (.error e) active₁) :
    Infers session (fun call => x call >>= fun a => f a call) active meetings (.error e) active₁
  | unknown {name : String} (args : List AbstractValue) (active : List String)
    (hnone : session.typed.find? name = none) :
    Infers session (fun call => call name args) active [] (.error (.unknownFunction name)) active
  | refused {name : String} {callee : TypedFn} (args : List AbstractValue) {active : List String}
    (hsome : session.typed.find? name = some callee) (hactive : callee.name ∈ active) :
    Infers session (fun call => call name args) active [⟨callee, active⟩]
      (.error (.recursive callee.name)) active
  | entered {name : String} {callee : TypedFn} {args : List AbstractValue}
    {r : Except ShapeInferError AbstractValue} {active active₁ : List String}
    {meetings : List Meeting} (hsome : session.typed.find? name = some callee)
    (hnew : callee.name ∉ active)
    (h : Infers session (walk callee args) (callee.name :: active) meetings r active₁) :
    Infers session (fun call => call name args) active (⟨callee, active⟩ :: meetings) r active₁.tail

namespace Infers

variable {x : Open α} {r : Except ShapeInferError α} {meetings : List Meeting}

/-- A walk restores the list of active functions. -/
theorem active_eq (h : Infers session x active meetings r active') : active' = active := by
  induction h with
  | step _ _ => rfl
  | next _ _ ihx ihf => exact ihf.trans ihx
  | stop _ ihx => exact ihx
  | unknown _ _ _ => rfl
  | refused _ _ _ => rfl
  | entered _ _ _ ih => rw [ih, List.tail_cons]

/-- A call of a function that is being walked is the last one, and the walk fails with it. -/
theorem eq_error_of_recursive (h : Infers session x active meetings r active') {m : Meeting}
    (hm : m ∈ meetings) (hrec : m.Recursive) : r = .error (.recursive m.callee.name) := by
  induction h with
  | step _ _ => cases hm
  | next _ _ ihx ihf =>
    rcases List.mem_append.1 hm with hm | hm
    · cases ihx hm
    · exact ihf hm
  | stop _ ihx =>
    cases ihx hm
    rfl
  | unknown _ _ _ => cases hm
  | refused _ _ _ =>
    cases List.mem_singleton.1 hm
    rfl
  | entered _ hnew _ ih =>
    rcases List.mem_cons.1 hm with rfl | hm
    · exact absurd hrec hnew
    · exact ih hm

/-- Calls are of functions of the session. -/
theorem callee_mem (h : Infers session x active meetings r active') {m : Meeting}
    (hm : m ∈ meetings) : ∃ name, session.typed.find? name = some m.callee := by
  induction h with
  | step _ _ => cases hm
  | next _ _ ihx ihf => exact (List.mem_append.1 hm).elim ihx ihf
  | stop _ ihx => exact ihx hm
  | unknown _ _ _ => cases hm
  | refused _ hsome _ =>
    cases List.mem_singleton.1 hm
    exact ⟨_, hsome⟩
  | entered hsome _ _ ih =>
    rcases List.mem_cons.1 hm with rfl | hm
    · exact ⟨_, hsome⟩
    · exact ih hm

end Infers

/-! ## The depth of calls -/

/-- How many functions of the session are not being walked. -/
def inactive (session : Session) (active : List String) : Nat :=
  session.typed.entries.countP (·.2.name ∉ active)

/-- One less after a function is entered. -/
theorem inactive_lt {name : String} {callee : TypedFn}
    (hsome : session.typed.find? name = some callee) (hnew : callee.name ∉ active) :
    inactive session (callee.name :: active) < inactive session active := by
  obtain ⟨before, after, hentries, -⟩ := List.lookup_eq_some_iff.1 hsome
  have hle (entries : List (String × TypedFn)) :
      entries.countP (·.2.name ∉ callee.name :: active) ≤ entries.countP (·.2.name ∉ active) := by
    refine List.countP_mono_left fun e _ he => ?_
    rw [decide_eq_true_eq] at he ⊢
    exact fun hmem => he (List.mem_cons_of_mem _ hmem)
  -- The entry of the callee is counted before and not afterwards.
  have hentered : ((name, callee) :: after).countP (·.2.name ∉ callee.name :: active)
      = after.countP (·.2.name ∉ callee.name :: active) :=
    List.countP_cons_of_neg (by simp)
  have hcounted : ((name, callee) :: after).countP (·.2.name ∉ active)
      = after.countP (·.2.name ∉ active) + 1 :=
    List.countP_cons_of_pos (decide_eq_true hnew)
  have hbefore := hle before
  have hafter := hle after
  rw [inactive, inactive, hentries, List.countP_append, List.countP_append, hentered, hcounted]
  omega

/-- What calls give when some functions are being walked. -/
def callUnder (session : Session) (depth : Nat) (active : List String) : Call := fun name args =>
  match session.typed.find? name with
  | some callee => inferFn session depth active callee args
  | none => .error (.unknownFunction name)

theorem callUnder_of_none {name : String} (h : session.typed.find? name = none) (depth : Nat)
    (active : List String) (args : List AbstractValue) :
    callUnder session depth active name args = .error (.unknownFunction name) := by
  rw [callUnder, h]

theorem callUnder_of_some {name : String} {callee : TypedFn}
    (h : session.typed.find? name = some callee) (depth : Nat) (active : List String)
    (args : List AbstractValue) :
    callUnder session depth active name args = inferFn session depth active callee args := by
  rw [callUnder, h]

theorem inferFn_of_mem {func : TypedFn} (h : func.name ∈ active) (depth : Nat)
    (args : List AbstractValue) :
    inferFn session depth active func args = .error (.recursive func.name) := by
  cases depth with
  | zero => rfl
  | succ depth =>
    rw [inferFn, if_pos (List.elem_eq_true_of_mem h)]
    rfl

theorem inferFn_of_not_mem {func : TypedFn} (h : func.name ∉ active) (depth : Nat)
    (args : List AbstractValue) :
    inferFn session (depth + 1) active func args
      = walk func args (callUnder session depth (func.name :: active)) := by
  rw [inferFn, if_neg (by simpa using h)]
  rfl

/-- A walk ends with what inference gives for it, if inference goes as deep as there are functions that
are not being walked. -/
theorem Infers.eq {x : Open α} {r : Except ShapeInferError α} {meetings : List Meeting}
    (h : Infers session x active meetings r active') {depth : Nat}
    (hdepth : inactive session active ≤ depth) : x (callUnder session depth active) = r := by
  induction h generalizing depth with
  | step _ _ => rfl
  | next hx _ ihx ihf =>
    cases hx.active_eq
    show _ >>= _ = _
    rw [ihx hdepth]
    exact ihf hdepth
  | stop _ ihx =>
    show _ >>= _ = _
    rw [ihx hdepth]
    rfl
  | unknown args active hnone => exact callUnder_of_none hnone depth active args
  | refused args hsome hactive =>
    exact (callUnder_of_some hsome depth _ args).trans (inferFn_of_mem hactive depth args)
  | @entered name callee args r active _ _ hsome hnew _ ih =>
    have hlt := inactive_lt hsome hnew
    cases depth with
    | zero => omega
    | succ depth =>
      show callUnder session (depth + 1) active name args = r
      rw [callUnder_of_some hsome, inferFn_of_not_mem hnew]
      exact ih (by omega)

/-! ## Every walk ends -/

/-- The walk ends, with what inference gives for it. -/
def Ends (session : Session) (depth : Nat) (active : List String) (x : Open α) : Prop :=
  ∃ meetings, Infers session x active meetings (x (callUnder session depth active)) active

namespace Ends

variable {depth : Nat}

theorem bind {x : Open α} {f : α → Open β} (hx : Ends session depth active x)
    (hf : ∀ a, Ends session depth active (f a)) :
    Ends session depth active fun call => x call >>= fun a => f a call := by
  obtain ⟨meetings, h⟩ := hx
  cases hr : x (callUnder session depth active) with
  | error e =>
    rw [hr] at h
    refine ⟨meetings, ?_⟩
    show Infers session _ active meetings (x _ >>= _) active
    rw [hr]
    exact .stop h
  | ok a =>
    rw [hr] at h
    obtain ⟨meetings', h'⟩ := hf a
    refine ⟨meetings ++ meetings', ?_⟩
    show Infers session _ active (meetings ++ meetings') (x _ >>= _) active
    rw [hr]
    exact .next h h'

theorem scripted {typed : Prop} {x : Open α} (hx : Scripted typed x)
    (hcall : ∀ name args, Ends session depth active fun call => call name args) :
    Ends session depth active x := by
  induction hx with
  | @step _ r h => exact ⟨[], .step r active⟩
  | call name args => exact hcall name args
  | bind _ _ ihx ihf => exact ihx.bind ihf

/-- The induction is on the depth: a function that is entered leaves fewer functions to enter. -/
theorem call {depth : Nat} {active : List String} (hdepth : inactive session active ≤ depth)
    (name : String) (args : List AbstractValue) :
    Ends session depth active fun call => call name args := by
  cases hfind : session.typed.find? name with
  | none =>
    refine ⟨[], ?_⟩
    show Infers session _ active [] (callUnder session depth active name args) active
    rw [callUnder_of_none hfind]
    exact .unknown args active hfind
  | some callee =>
    show ∃ meetings,
      Infers session _ active meetings (callUnder session depth active name args) active
    rw [callUnder_of_some hfind]
    by_cases hactive : callee.name ∈ active
    · rw [inferFn_of_mem hactive]
      exact ⟨_, .refused args hfind hactive⟩
    -- There is a function left to enter, so that the depth is not used up.
    · have hlt := inactive_lt hfind hactive
      cases depth with
      | zero => omega
      | succ depth =>
        rw [inferFn_of_not_mem hactive]
        obtain ⟨meetings, h⟩ : Ends session depth (callee.name :: active) (walk callee args) :=
          scripted (walk_scripted callee args) fun name args => call (by omega) name args
        exact ⟨_, .entered hfind hactive h⟩
termination_by depth

end Ends

/-! ## Errors -/

/-- Why a walk fails: a name is not known to the session, a call is recursive, or the body of a function
that was entered has an error of its own. -/
inductive Explained (meetings : List Meeting) : ShapeInferError → Prop
  | unknown (name : String) : Explained meetings (.unknownFunction name)
  | recursive {m : Meeting} (hm : m ∈ meetings) (hrec : m.Recursive) :
    Explained meetings (.recursive m.callee.name)
  | own {m : Meeting} {e : ShapeInferError} (hm : m ∈ meetings) (hnew : ¬m.Recursive)
    (h : OwnError m.callee.NodesTyped e) : Explained meetings e

theorem Explained.mono {meetings meetings' : List Meeting} {e : ShapeInferError}
    (h : Explained meetings e) (hle : ∀ m ∈ meetings, m ∈ meetings') : Explained meetings' e := by
  cases h with
  | unknown name => exact .unknown name
  | recursive hm hrec => exact .recursive (hle _ hm) hrec
  | own hm hnew h => exact .own (hle _ hm) hnew h

/-- What calls give, with another error for those that fail. -/
def markErrors (session : Session) (active : List String) : Call := fun name args =>
  (callUnder session (inactive session active) active name args).mapError fun _ => .nonConstantAxis

/-- With this error for the calls, all errors are like those of steps. -/
theorem Scripted.ownError {typed : Prop} {x : Open α} (hx : Scripted typed x) {e : ShapeInferError}
    (h : x (markErrors session active) = .error e) : OwnError typed e := by
  rcases hx.error_origin h with h | ⟨name, args, hcall⟩
  · exact h
  · rw [markErrors] at hcall
    cases hr : callUnder session (inactive session active) active name args with
    | ok v =>
      rw [hr] at hcall
      cases hcall
    | error e' =>
      rw [hr] at hcall
      cases hcall
      exact ⟨fun _ => nofun, fun _ => nofun⟩

namespace Infers

variable {x : Open α} {r : Except ShapeInferError α} {meetings : List Meeting}

/-- A walk that has a value has it also where calls fail with another error. -/
theorem markErrors_of_ok (h : Infers session x active meetings r active') {a : α} (hr : r = .ok a) :
    x (markErrors session active) = .ok a := by
  induction h with
  | step _ _ => exact hr
  | next hx _ ihx ihf =>
    cases hx.active_eq
    show _ >>= _ = _
    rw [ihx rfl]
    exact ihf hr
  | stop _ _ => cases hr
  | unknown _ _ _ => cases hr
  | refused _ _ _ => cases hr
  -- Only the outcome of the call matters here, and it is a value.
  | @entered name callee args r active _ _ hsome hnew h _ =>
    have hcall : callUnder session (inactive session active) active name args = .ok a :=
      (Infers.eq (.entered hsome hnew h) (Nat.le_refl _)).trans hr
    show (callUnder session (inactive session active) active name args).mapError _ = _
    rw [hcall]
    rfl

/-- A walk fails in one of its steps, or its calls explain why it fails. -/
theorem error_origin (h : Infers session x active meetings r active') {e : ShapeInferError}
    (hr : r = .error e) : x (markErrors session active) = .error e ∨ Explained meetings e := by
  induction h with
  | step _ _ => exact .inl hr
  | next hx _ _ ihf =>
    cases hx.active_eq
    rcases ihf hr with hf | hf
    · left
      show _ >>= _ = _
      rw [hx.markErrors_of_ok rfl]
      exact hf
    · exact .inr (hf.mono fun m hm => List.mem_append_right _ hm)
  | stop _ ihx =>
    cases hr
    rcases ihx rfl with hx | hx
    · left
      show _ >>= _ = _
      rw [hx]
      rfl
    · exact .inr hx
  | unknown _ _ _ =>
    cases hr
    exact .inr (.unknown _)
  | @refused _ callee _ active _ hactive =>
    cases hr
    exact .inr (.recursive (m := ⟨callee, active⟩) List.mem_cons_self hactive)
  -- The walk through the callee failed in a step of its own, or further down.
  | @entered _ callee args _ active _ _ _ hnew _ ih =>
    right
    rcases ih hr with hwalk | hwalk
    · have hown := (walk_scripted callee args).ownError hwalk
      exact .own (m := ⟨callee, active⟩) List.mem_cons_self hnew hown
    · exact hwalk.mono fun m hm => List.mem_cons_of_mem _ hm

end Infers

/-! ## Results -/

/-- The walk that infers the shape of a function's result. -/
def shapeWalk (func : TypedFn) : Open SymbolicShape := fun call => do
  let args := AbstractValue.ofParams (ParamShape.layout func.inputTypes) func.inputTypes
  let result ← walk func args call
  let shape := result.toShape
  if shape.hasUnknown then throw (.dataDependent func.name)
  return shape

theorem shapeWalk_scripted (func : TypedFn) : Scripted func.NodesTyped (shapeWalk func) := by
  refine (walk_scripted func _).bind fun result => ?_
  by_cases hunknown : result.toShape.hasUnknown = true
  · simp only [if_pos hunknown]
    exact .error ⟨fun _ => nofun, fun _ => nofun⟩
  · simp only [if_neg hunknown]
    exact .pure _

theorem resultShape_eq (session : Session) (func : TypedFn) :
    resultShape session func
      = shapeWalk func (callUnder session session.typed.entries.length [func.name]) := by
  rw [resultShape, inferFn_of_not_mem List.not_mem_nil]
  rfl

/-- Inferring the shape of a function's result is a walk that ends, whatever calls the functions of the
session make. Every walk leaves the list of active functions as it was. It reports a recursion exactly
when it meets a function whose body is being walked, and it misses no type if all nodes of the function
and of those that it enters have types. -/
theorem resultShape_infers (session : Session) (func : TypedFn) :
    (∃ meetings, Infers session (shapeWalk func) [func.name] meetings (resultShape session func)
      [func.name])
    ∧ (∀ {α : Type} {x : Open α} {active meetings r active'},
        Infers session x active meetings r active' → active' = active)
    ∧ ∀ meetings r active, Infers session (shapeWalk func) [func.name] meetings r active →
      r = resultShape session func
      ∧ (∀ m ∈ meetings, ∃ name, session.typed.find? name = some m.callee)
      ∧ (∀ name, r = .error (.recursive name)
        ↔ ∃ m ∈ meetings, m.callee.name = name ∧ m.callee.name ∈ m.active)
      ∧ (func.NodesTyped → (∀ m ∈ meetings, m.callee.name ∉ m.active → m.callee.NodesTyped) →
        r ≠ .error .untyped) := by
  have hdepth : inactive session [func.name] ≤ session.typed.entries.length := List.countP_le_length
  have hscripted := shapeWalk_scripted func
  refine ⟨?_, Infers.active_eq, fun meetings r active h => ?_⟩
  · rw [resultShape_eq]
    exact Ends.scripted hscripted (Ends.call hdepth)
  refine ⟨?_, fun m hm => h.callee_mem hm, fun name => ⟨?_, ?_⟩, ?_⟩
  · rw [resultShape_eq]
    exact (h.eq hdepth).symm
  -- No step reports a recursion, neither in the walk itself nor in a function that was entered.
  · rintro rfl
    rcases h.error_origin rfl with hown | hexplained
    · exact absurd rfl ((hscripted.ownError hown).not_recursive name)
    · cases hexplained with
      | recursive hm hrec => exact ⟨_, hm, rfl, hrec⟩
      | own _ _ h => exact absurd rfl (h.not_recursive name)
  · rintro ⟨m, hm, rfl, hrec⟩
    exact h.eq_error_of_recursive hm hrec
  · rintro hfunc hcallees rfl
    rcases h.error_origin rfl with hown | hexplained
    · exact absurd rfl ((hscripted.ownError hown).not_untyped hfunc)
    · cases hexplained with
      | own hm hnew h => exact absurd rfl (h.not_untyped (hcallees _ hm hnew))

/-- A function that maps `pong` over an array. -/
def ping : TypedFn where
  name := "ping"
  argNames := ["a"]
  inputTypes := [.array .int64 1]
  body := [.ret (.typed (.map (.typed (.closure "pong" []) (.closure "pong" []))
    [.typed (.var "a") (.array .int64 1)] (.typed (.lit (.int 0)) .int64)) (.array .int64 1))]
  returnType := .array .int64 1
  typeEnv := ∅

/-- A function that calls `ping`. -/
def pong : TypedFn where
  name := "pong"
  argNames := ["x"]
  inputTypes := [.int64]
  body := [.ret (.typed (.call "ping" [.typed (.var "x") .int64]) (.array .int64 1))]
  returnType := .array .int64 1
  typeEnv := ∅

/-- A session that knows both. -/
def pingPong : Session :=
  ((Session.new none).insertTyped ping).insertTyped pong

/-- The walk from `ping` enters `pong` and meets `ping` again. -/
theorem resultShape_infers_pingPong :
    resultShape pingPong ping = .error (.recursive "ping")
      ∧ ∃ meetings, Infers pingPong (shapeWalk ping) ["ping"] meetings
          (resultShape pingPong ping) ["ping"]
        ∧ (∃ m ∈ meetings, m.callee.name = "ping" ∧ m.callee.name ∈ m.active)
        ∧ resultShape pingPong ping ≠ .error .untyped := by
  have hshape : resultShape pingPong ping = .error (.recursive "ping") := rfl
  have hping : ping.NodesTyped := by
    simp [TypedFn.NodesTyped, Stmt.AllNodesTyped, Stmt.NodesTyped, Node.children, ping]
  have hpong : pong.NodesTyped := by
    simp [TypedFn.NodesTyped, Stmt.AllNodesTyped, Stmt.NodesTyped, Node.children, pong]
  obtain ⟨⟨meetings, h⟩, -, hwalks⟩ := resultShape_infers pingPong ping
  obtain ⟨-, hknown, hrecursive, htyped⟩ := hwalks meetings _ _ h
  refine ⟨hshape, meetings, h, (hrecursive "ping").1 hshape, htyped hping fun m hm _ => ?_⟩
  obtain ⟨name, hname⟩ := hknown m hm
  replace hname : (((∅ : NameMap TypedFn).insert "ping" ping).insert "pong" pong).find? name
      = some m.callee := hname
  rw [NameMap.find?_insert, NameMap.find?_insert] at hname
  split at hname
  · exact Option.some.inj hname ▸ hpong
  · split at hname
    · exact Option.some.inj hname ▸ hping
    · cases hname

end ArrayLang.ShapeInference
