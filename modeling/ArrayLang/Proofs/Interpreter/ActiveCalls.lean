import ArrayLang.Proofs.Interpreter.OpenCalls
import ArrayLang.Proofs.Interpreter.TraceText

/-!
# Active calls

A run is followed by the functions that it enters and those that return to their callers. A function
is entered before its arguments are bound, and it returns when its body has a value. What is entered
and has not returned when a run stops are its active calls, and the trace of a fault names these,
wherever the fault was raised: in the code of a function, while arguments are bound, in an adverb or
by what an adverb calls.

## Main results

- `Trail.trace_eq`: a fault under some calls carries these and the calls that were active.
- `Entry.trace_eq_activeCalls`: the fault of a run of the interpreter carries its active calls.
-/

namespace ArrayLang.Interpreter

variable {α : Type} {fuel : Nat} {trace : Trace}

/-! ## Functions that were entered -/

/-- A function is entered, or the last one that was entered returns. -/
inductive CallEvent where
  | enter (func : FnDef)
  | leave

/-- The active calls after some events, innermost first. -/
def activeAfter : List FnDef → List CallEvent → List FnDef
  | active, [] => active
  | active, .enter func :: events => activeAfter (func :: active) events
  | active, .leave :: events => activeAfter active.tail events

/-- The functions that were entered and have not returned, innermost first. -/
def activeCalls (events : List CallEvent) : List FnDef :=
  activeAfter [] events

/-- Every function that was entered has returned. -/
def Balanced (events : List CallEvent) : Prop :=
  ∀ active, activeAfter active events = active

theorem activeAfter_append (active : List FnDef) (events events' : List CallEvent) :
    activeAfter active (events ++ events') = activeAfter (activeAfter active events) events' := by
  induction events generalizing active with
  | nil => rfl
  | cons event events ih =>
    cases event with
    | enter func => exact ih (func :: active)
    | leave => exact ih active.tail

theorem Balanced.append {events events' : List CallEvent} (h : Balanced events)
    (h' : Balanced events') : Balanced (events ++ events') := fun active => by
  rw [activeAfter_append, h, h']

theorem Balanced.call {events : List CallEvent} (h : Balanced events) (func : FnDef) :
    Balanced (.enter func :: (events ++ [.leave])) := fun active => by
  rw [activeAfter, activeAfter_append, h]
  rfl

/-! ## Trails -/

/-- What a call does once the function is entered. -/
def entered (fuel : Nat) (trace : Trace) (func : FnDef) (args : List Value) : Open Value :=
  fun apply => do
    let env ← orFault (func.name :: trace) (bindCall func args)
    runBody apply (func.name :: trace) fuel (bodyOf func) env

theorem entered_scripted (func : FnDef) (args : List Value) :
    Scripted (func.name :: trace) (entered fuel trace func args) :=
  (Scripted.orFault _).bind fun env => runBody_scripted fuel (bodyOf func) env

/-- A run of a computation with its events: from a state it comes to an outcome and a state. A step
without calls has no events. A call that has a value enters its function and leaves it, with the events
of the body in between. One that stops never leaves it. -/
inductive Trail : Nat → {α : Type} → Open α → State Session → List CallEvent → Except Stop α →
    State Session → Prop
  | step {fuel : Nat} {α : Type} (x : Eval α) (σ : State Session) :
    Trail fuel (fun _ => x) σ [] (Run.exec x σ).1 (Run.exec x σ).2
  | next {fuel : Nat} {α β : Type} {x : Open α} {f : α → Open β} {a : α} {r : Except Stop β}
    {σ σ₁ σ₂ : State Session} {events events' : List CallEvent}
    (hx : Trail fuel x σ events (.ok a) σ₁) (hf : Trail fuel (f a) σ₁ events' r σ₂) :
    Trail fuel (fun apply => x apply >>= fun a => f a apply) σ (events ++ events') r σ₂
  | stop {fuel : Nat} {α β : Type} {x : Open α} {f : α → Open β} {stop : Stop}
    {σ σ₁ : State Session} {events : List CallEvent} (hx : Trail fuel x σ events (.error stop) σ₁) :
    Trail fuel (fun apply => x apply >>= fun a => f a apply) σ events (.error stop) σ₁
  | exhausted (trace : Trace) (func : FnDef) (args : List Value) (σ : State Session) :
    Trail 0 (fun apply => apply trace func args) σ [] (.error .outOfFuel) σ
  | returned {fuel : Nat} {trace : Trace} {func : FnDef} {args : List Value} {value : Value}
    {σ σ₁ : State Session} {events : List CallEvent}
    (h : Trail fuel (entered fuel trace func args) σ events (.ok value) σ₁) :
    Trail (fuel + 1) (fun apply => apply trace func args) σ (.enter func :: (events ++ [.leave]))
      (.ok value) σ₁
  | aborted {fuel : Nat} {trace : Trace} {func : FnDef} {args : List Value} {stop : Stop}
    {σ σ₁ : State Session} {events : List CallEvent}
    (h : Trail fuel (entered fuel trace func args) σ events (.error stop) σ₁) :
    Trail (fuel + 1) (fun apply => apply trace func args) σ (.enter func :: events)
      (.error stop) σ₁

namespace Trail

variable {x : Open α} {σ σ' : State Session} {events : List CallEvent} {r : Except Stop α}

/-- A trail has the outcome of the run. -/
theorem exec_eq (h : Trail fuel x σ events r σ') : Run.exec (x (applyFn fuel)) σ = (r, σ') := by
  induction h with
  | step x σ => rfl
  | next _ _ ihx ihf => rw [Run.exec_bind_ok ihx, ihf]
  | stop _ ihx => exact Run.exec_bind_of_error ihx
  | exhausted trace func args σ => rfl
  | returned _ ih => exact ih
  | aborted _ ih => exact ih

/-- A run that has a value has left all functions that it entered. -/
theorem balanced (h : Trail fuel x σ events r σ') {a : α} (hr : r = .ok a) : Balanced events := by
  induction h with
  | step _ _ => exact fun _ => rfl
  | next _ _ ihx ihf => exact (ihx rfl).append (ihf hr)
  | stop _ _ => cases hr
  | exhausted _ _ _ _ => cases hr
  | @returned _ _ func _ _ _ _ _ _ ih => exact (ih hr).call func
  | aborted _ _ => cases hr

end Trail

/-- Every run of the computation has a trail. -/
def Followed (fuel : Nat) (x : Open α) : Prop :=
  ∀ σ, ∃ events, Trail fuel x σ events (Run.exec (x (applyFn fuel)) σ).1
    (Run.exec (x (applyFn fuel)) σ).2

namespace Followed

theorem bind {β : Type} {x : Open α} {f : α → Open β} (hx : Followed fuel x)
    (hf : ∀ a, Followed fuel (f a)) : Followed fuel fun apply => x apply >>= fun a => f a apply := by
  intro σ
  obtain ⟨events, h⟩ := hx σ
  cases hr : Run.exec (x (applyFn fuel)) σ with
  | mk r σ₁ =>
    rw [hr] at h
    cases r with
    | error stop =>
      rw [Run.exec_bind_of_error hr]
      exact ⟨events, .stop h⟩
    | ok a =>
      rw [Run.exec_bind_ok hr]
      obtain ⟨events', h'⟩ := hf a σ₁
      exact ⟨events ++ events', .next h h'⟩

theorem scripted {x : Open α} (hx : Scripted trace x)
    (hcall : ∀ func args, Followed fuel fun apply => apply trace func args) : Followed fuel x := by
  induction hx with
  | @step _ x h => exact fun σ => ⟨[], .step x σ⟩
  | call func args => exact hcall func args
  | bind _ _ ihx ihf => exact ihx.bind ihf

theorem call (trace : Trace) (func : FnDef) (args : List Value) :
    Followed fuel fun apply => apply trace func args := by
  induction fuel generalizing trace func args with
  | zero => exact fun σ => ⟨[], .exhausted trace func args σ⟩
  | succ fuel ih =>
    intro σ
    -- The body makes its calls with less fuel, under one more name.
    obtain ⟨events, h⟩ :=
      scripted (entered_scripted func args) (fun func' args' => ih _ func' args') σ
    have hexec : Run.exec (applyFn (fuel + 1) trace func args) σ
        = Run.exec (entered fuel trace func args (applyFn fuel)) σ := rfl
    rw [hexec]
    cases hr : Run.exec (entered fuel trace func args (applyFn fuel)) σ with
    | mk r σ₁ =>
      rw [hr] at h
      cases r with
      | ok value => exact ⟨_, .returned h⟩
      | error stop => exact ⟨_, .aborted h⟩

end Followed

/-! ## Where a run stops -/

/-- The calls that have values in a run have the same values here. -/
def AgreesOnValues (fuel : Nat) (apply : Apply) : Prop :=
  ∀ {trace : Trace} {func : FnDef} {args : List Value} {value : Value} {σ σ' : State Session},
    Run.exec (applyFn fuel trace func args) σ = (.ok value, σ') →
    Run.exec (apply trace func args) σ = (.ok value, σ')

/-- The run stopped in a call after others that had values. Whatever this call stops with is what the
computation stops with. -/
inductive StoppedIn (apply : Apply) (x : Open α) (σ : State Session) :
    Nat → List CallEvent → Stop → State Session → Prop
  | call {fuel : Nat} {trace : Trace} {func : FnDef} {args : List Value} {stop : Stop}
    {σ₁ σ' : State Session} {before inside : List CallEvent} (hbefore : Balanced before)
    (h : Trail fuel (entered fuel trace func args) σ₁ inside (.error stop) σ')
    (hstop : ∀ stop', Run.exec (apply trace func args) σ₁ = (.error stop', σ') →
      Run.exec (x apply) σ = (.error stop', σ')) :
    StoppedIn apply x σ (fuel + 1) (before ++ .enter func :: inside) stop σ'

namespace Trail

variable {apply : Apply} {x : Open α} {σ σ' : State Session} {events : List CallEvent}
  {r : Except Stop α}

/-- A run that has a value has it also where the calls do as in this run. -/
theorem exec_of_ok (h : Trail fuel x σ events r σ') (happly : AgreesOnValues fuel apply) {a : α}
    (hr : r = .ok a) : Run.exec (x apply) σ = (.ok a, σ') := by
  induction h with
  | step x σ => rw [← hr]
  | next _ _ ihx ihf => rw [Run.exec_bind_ok (ihx happly rfl), ihf happly hr]
  | stop _ _ => cases hr
  | exhausted _ _ _ _ => cases hr
  | returned h _ =>
    cases hr
    exact happly h.exec_eq
  | aborted _ _ => cases hr

/-- A run stops in one of its steps, or in one of its calls. -/
theorem stops (h : Trail fuel x σ events r σ') (happly : AgreesOnValues fuel apply) {stop : Stop}
    (hr : r = .error stop) :
    stop = .outOfFuel ∨ Balanced events ∧ Run.exec (x apply) σ = (.error stop, σ')
      ∨ StoppedIn apply x σ fuel events stop σ' := by
  induction h with
  | step x σ => exact .inr (.inl ⟨fun _ => rfl, by rw [← hr]⟩)
  -- The first part has a value, so that it is the second part that stops.
  | next hx _ ihx ihf =>
    have hok := hx.exec_of_ok happly rfl
    rcases ihf happly hr with h | ⟨hbalanced, hf⟩ | ⟨hbefore, h, hstop⟩
    · exact .inl h
    · exact .inr (.inl ⟨(hx.balanced rfl).append hbalanced, by rw [Run.exec_bind_ok hok, hf]⟩)
    · rw [← List.append_assoc]
      refine .inr (.inr (.call ((hx.balanced rfl).append hbefore) h fun stop' hcall => ?_))
      rw [Run.exec_bind_ok hok, hstop stop' hcall]
  | stop _ ihx =>
    cases hr
    rcases ihx happly rfl with h | ⟨hbalanced, hx⟩ | ⟨hbefore, h, hstop⟩
    · exact .inl h
    · exact .inr (.inl ⟨hbalanced, Run.exec_bind_of_error hx⟩)
    · refine .inr (.inr (.call hbefore h fun stop' hcall => ?_))
      exact Run.exec_bind_of_error (hstop stop' hcall)
  | exhausted _ _ _ _ =>
    cases hr
    exact .inl rfl
  | returned _ _ => cases hr
  | aborted h _ =>
    cases hr
    exact .inr (.inr (.call (fun _ => rfl : Balanced []) h fun _ hcall => hcall))

end Trail

/-! ## Traces of faults -/

/-- The calls of a run, with another stop for those that stop: under the given trace they run out of
fuel, and elsewhere they fault with a trace that is not this one. -/
def markStops (fuel : Nat) (trace : Trace) : Apply := fun trace' func args =>
  Run.mapError (fun _ => if trace' = trace then .outOfFuel else .fault .badTarget ("" :: trace))
    (applyFn fuel trace' func args)

theorem markStops_agrees (fuel : Nat) (trace : Trace) :
    AgreesOnValues fuel (markStops fuel trace) := by
  intro trace' func args value σ σ' h
  rw [markStops, Run.exec_mapError, h]
  rfl

theorem markStops_of_error {trace' : Trace} {func : FnDef} {args : List Value} {stop : Stop}
    {σ σ' : State Session} (h : Run.exec (applyFn fuel trace' func args) σ = (.error stop, σ')) :
    Run.exec (markStops fuel trace trace' func args) σ
      = (.error (if trace' = trace then .outOfFuel else .fault .badTarget ("" :: trace)), σ') := by
  rw [markStops, Run.exec_mapError, h]
  rfl

/-- With these stops, a fault of scripted code carries the trace that the code runs under. -/
theorem Scripted.trace_of_markStops {x : Open α} (hx : Scripted trace x) {σ σ' : State Session}
    {kind : Fault} {trace' : Trace}
    (h : Run.exec (x (markStops fuel trace)) σ = (.error (.fault kind trace'), σ')) :
    trace' = trace := by
  rcases hx.fault_origin _ h with h | ⟨func, args, σ₁, hcall⟩
  · exact h
  · cases hr : Run.exec (applyFn fuel trace func args) σ₁ with
    | mk r σ₂ =>
      cases r with
      | ok value =>
        rw [markStops_agrees fuel trace hr] at hcall
        cases hcall
      | error stop =>
        rw [markStops_of_error hr, if_pos rfl] at hcall
        cases hcall

/-- A fault under some active calls carries these and the calls that were made and had not returned. The
induction is on the fuel: a fault arose in a step of the code, under the trace of the code, or in a call
that the code made under its trace and that is still active. -/
theorem Trail.trace_eq {x : Open α} {active : List FnDef}
    (hx : Scripted (active.map FnDef.name) x) {σ σ' : State Session} {events : List CallEvent}
    {kind : Fault} (h : Trail fuel x σ events (.error (.fault kind trace)) σ') :
    trace = (activeAfter active events).map FnDef.name := by
  induction fuel using Nat.strongRecOn generalizing α x active σ events with
  | _ fuel ih =>
    rcases h.stops (markStops_agrees fuel (active.map FnDef.name)) rfl with h | ⟨hbalanced, h⟩ | h
    · cases h
    -- A step of the code raised the fault, also where calls stop with something else.
    · rw [hbalanced]
      exact hx.trace_of_markStops h
    -- A call raised it. Under another trace the mark of that call would be a fault of the code.
    · cases h with
      | @call fuel trace' func args _ σ₁ _ before inside hbefore h hstop =>
        have hcall : Run.exec (applyFn (fuel + 1) trace' func args) σ₁
            = (.error (.fault kind trace), σ') := h.exec_eq
        have htrace : trace' = active.map FnDef.name := by
          refine Decidable.byContradiction fun hne => ?_
          have hmarked := hstop _ (markStops_of_error hcall)
          rw [if_neg hne] at hmarked
          exact List.cons_ne_self _ _ (hx.trace_of_markStops hmarked)
        subst htrace
        have hbody : Scripted ((func :: active).map FnDef.name)
            (entered fuel (active.map FnDef.name) func args) := entered_scripted func args
        rw [ih fuel (Nat.lt_succ_self fuel) hbody h, activeAfter_append, hbefore, activeAfter]

/-! ## Runs of the interpreter -/

/-- How the interpreter is entered. -/
inductive Entry where
  | value (target : Value) (args : List Value)
  | source (name : String) (args : List Value)
  | typed (func : TypedFn) (args : List Value)

namespace Entry

/-- The run from an entry. -/
def run (fuel : Nat) : Entry → Eval Value
  | value target args => call fuel target args
  | source name args => callSource fuel name args
  | typed func args => callTyped fuel func args

/-- The run from an entry, told how functions are called. -/
def script : Entry → Open Value
  | value target args => fun apply => callValue apply [] target args
  | source name args => fun apply => do
    match (← get).context.sources.find? name with
    | some decl => apply [] (.source decl) args
    | none => fail [] (.unknownFunction name)
  | typed func args => fun apply => apply [] (.typed func) args

theorem run_eq (fuel : Nat) (entry : Entry) : entry.run fuel = entry.script (applyFn fuel) := by
  cases entry <;> rfl

theorem script_scripted (entry : Entry) : Scripted [] entry.script := by
  cases entry with
  | value target args => exact callValue_scripted target args
  | source name args =>
    refine Scripted.get.bind fun σ => ?_
    cases σ.context.sources.find? name with
    | some decl => exact .call (.source decl) args
    | none => exact .fail _
  | typed func args => exact .call (.typed func) args

/-- Every run has a trail. By every trail of a run that faults, its trace names the active calls: the
functions that were entered and had not returned when the fault arose. Its text has a line for each of
them, outermost first. -/
theorem trace_eq_activeCalls (fuel : Nat) (entry : Entry) (σ : State Session) :
    (∃ events, Trail fuel entry.script σ events (Run.exec (entry.run fuel) σ).1
      (Run.exec (entry.run fuel) σ).2)
    ∧ ∀ events r σ', Trail fuel entry.script σ events r σ' →
      Run.exec (entry.run fuel) σ = (r, σ')
      ∧ ∀ kind trace, r = .error (.fault kind trace) →
        trace = (activeCalls events).map FnDef.name
        ∧ trace.text = "\n".intercalate ("Stacktrace:" :: (activeCalls events).reverse.map
            fun func => "func: " ++ String.ofList (unbroken func.name.toList)) := by
  rw [run_eq]
  refine ⟨Followed.scripted entry.script_scripted (Followed.call []) σ, fun events r σ' h => ?_⟩
  refine ⟨h.exec_eq, ?_⟩
  rintro kind trace rfl
  have hscripted : Scripted (([] : List FnDef).map FnDef.name) entry.script :=
    entry.script_scripted
  have htrace : trace = (activeCalls events).map FnDef.name := h.trace_eq hscripted
  refine ⟨htrace, ?_⟩
  rw [htrace, Trace.text_eq, ← List.map_reverse, List.map_map]
  rfl

/-- A function whose name has two lines, and that reads a variable that is not bound. -/
def failing : FnDecl where
  name := "inner\nlambda"
  params := ⟨["x"], [], none⟩
  nonlocals := []
  body := [.ret (.plain (.var "missing"))]

/-- A function that maps its first argument over its second one. -/
def mapping : FnDecl where
  name := "outer"
  params := ⟨["f", "a"], [], none⟩
  nonlocals := []
  body := [.ret (.plain (.map (.plain (.var "f")) [.plain (.var "a")] (.plain (.lit (.int 0)))))]

/-- The two functions and an array of one integer. -/
def mapped : Entry :=
  .value (.closure (.source mapping) [])
    [.closure (.source failing) [], .array ⟨.int64, 0, [1], [1], 0⟩]

/-- The fault of the function that the adverb calls names both calls. -/
theorem trace_eq_activeCalls_mapped :
    ∃ events σ', Trail 3 mapped.script ⟨⟨#[#[.int 7]]⟩, .new none⟩ events
        (.error (.fault (.unboundVariable "missing") ["inner\nlambda", "outer"])) σ'
      ∧ ["inner\nlambda", "outer"] = (activeCalls events).map FnDef.name
      ∧ Trace.text ["inner\nlambda", "outer"] = "Stacktrace:\nfunc: outer\nfunc: inner lambda" := by
  obtain ⟨⟨events, h⟩, htrace⟩ :=
    trace_eq_activeCalls 3 mapped ⟨⟨#[#[.int 7]]⟩, .new none⟩
  have hr : (Run.exec (mapped.run 3) ⟨⟨#[#[.int 7]]⟩, .new none⟩).1
      = .error (.fault (.unboundVariable "missing") ["inner\nlambda", "outer"]) := rfl
  rw [hr] at h
  obtain ⟨hnames, htext⟩ := (htrace events _ _ h).2 _ _ rfl
  refine ⟨events, _, h, hnames, ?_⟩
  have hframes : (activeCalls events).reverse.map
      (fun func => "func: " ++ String.ofList (unbroken func.name.toList))
      = ((activeCalls events).map FnDef.name).reverse.map
        (fun name => "func: " ++ String.ofList (unbroken name.toList)) := by
    rw [← List.map_reverse, List.map_map]
    rfl
  rw [htext, hframes, ← hnames]
  rfl

end Entry

end ArrayLang.Interpreter
