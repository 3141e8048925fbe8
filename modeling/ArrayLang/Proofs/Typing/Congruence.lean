import ArrayLang.Proofs.Typing.Computation
import ArrayLang.Typing.Inference

/-!
# Typing with related specializers

Code is typed by walks that call a specializer and otherwise only read the session, register functions
and stop with errors. A relation between typing computations that all these keep, a congruence, relates
the walks with two specializers as soon as it relates the specializers. Running code twice with
different fuel and leaving a set of signatures are compared in this way, by one walk through the rules
for annotating, inferring and lowering code.

Annotating an expression reads of the session only which function has a name. A relation that need not
be kept when whole sessions are read, but when functions are looked up, is a lookup congruence, and
annotation keeps it as well.

Here are the rules for congruences, and the walks that annotate code and infer its types.

## Main results

- `Typing.Congruence`, `Typing.LookupCongruence`: what a relation has to be kept by.
- `annotate_congr`: annotation keeps every lookup congruence.
- `inferFn_congr`: inference keeps every congruence.
-/

namespace ArrayLang.Typing

variable {R : {α : Type} → Typing α → Typing α → Prop} {α β σ : Type}

/-! ## Looking functions up -/

/-- Goes on with the source function of a name. -/
def lookupSource (cause : TypingError) (name : String) (next : FnDecl → Typing α) : Typing α :=
  get >>= fun s => require cause (s.sources.find? name) >>= next

/-- Goes on with the specialized function of a name, or else with its source function. -/
def lookupFn (cause : TypingError) (name : String) (typed : TypedFn → Typing α)
    (source : FnDecl → Typing α) : Typing α :=
  get >>= fun s => match s.typed.find? name with
    | some func => typed func
    | none => lookupSource cause name source

/-- Goes on if some function has the name. -/
def requireFn (cause : TypingError) (name : String) (next : Typing α) : Typing α :=
  get >>= fun s => if s.sources.contains name || s.typed.contains name then next else fail cause

theorem exec_lookupSource (cause : TypingError) (name : String) (next : FnDecl → Typing α)
    (s : Session) :
    exec (lookupSource cause name next) s = match s.sources.find? name with
      | some decl => exec (next decl) s
      | none => exec (fail cause) s := by
  unfold lookupSource
  rw [exec_get_bind]
  cases s.sources.find? name <;> rfl

theorem exec_lookupFn (cause : TypingError) (name : String) (typed : TypedFn → Typing α)
    (source : FnDecl → Typing α) (s : Session) :
    exec (lookupFn cause name typed source) s = match s.typed.find? name with
      | some func => exec (typed func) s
      | none => exec (lookupSource cause name source) s := by
  unfold lookupFn
  rw [exec_get_bind]
  cases s.typed.find? name <;> rfl

theorem exec_requireFn (cause : TypingError) (name : String) (next : Typing α) (s : Session) :
    exec (requireFn cause name next) s =
      if s.sources.contains name || s.typed.contains name then exec next s
      else exec (fail cause) s := by
  unfold requireFn
  rw [exec_get_bind]
  split <;> rfl

/-! ## Congruences -/

/-- A relation between typing computations that is kept by the ways of building those that do not read
the session. Running out of fuel is not among these: only specializers do. -/
structure CoreCongruence (R : {α : Type} → Typing α → Typing α → Prop) : Prop where
  pure {α : Type} (a : α) : R (Pure.pure a) (Pure.pure a)
  fail {α : Type} (cause : TypingError) : R (Typing.fail cause : Typing α) (Typing.fail cause)
  untyped {α : Type} : R (throw .untyped : Typing α) (throw .untyped)
  bind {α β : Type} {x y : Typing α} {f g : α → Typing β} (hxy : R x y) (hfg : ∀ a, R (f a) (g a)) :
    R (x >>= f) (y >>= g)
  register (decl : FnDecl) :
    R (modify fun s => (s.register decl).2 : Typing PUnit) (modify fun s => (s.register decl).2)

/-- A relation that is kept by reading the session as well. -/
structure Congruence (R : {α : Type} → Typing α → Typing α → Prop) : Prop
    extends CoreCongruence R where
  get : R (get : Typing Session) get

/-- A relation that is kept by looking functions up as well. -/
structure LookupCongruence (R : {α : Type} → Typing α → Typing α → Prop) : Prop
    extends CoreCongruence R where
  source {α : Type} (cause : TypingError) (name : String) {next next' : FnDecl → Typing α}
    (hnext : ∀ decl, R (next decl) (next' decl)) :
    R (lookupSource cause name next) (lookupSource cause name next')
  fn {α : Type} (cause : TypingError) (name : String) {typed typed' : TypedFn → Typing α}
    {source source' : FnDecl → Typing α} (htyped : ∀ func, R (typed func) (typed' func))
    (hsource : ∀ decl, R (source decl) (source' decl)) :
    R (lookupFn cause name typed source) (lookupFn cause name typed' source')
  present {α : Type} (cause : TypingError) (name : String) {next next' : Typing α}
    (hnext : R next next') : R (requireFn cause name next) (requireFn cause name next')

namespace CoreCongruence

variable (hR : CoreCongruence R)
include hR

omit hR in
theorem ite {c : Prop} [Decidable c] {x y x' y' : Typing α} (hx : R x x') (hy : R y y') :
    R (if c then x else y) (if c then x' else y') := by
  split
  · exact hx
  · exact hy

theorem check (r : Except TypingError α) : R (Typing.check r) (Typing.check r) := by
  cases r with
  | ok a => exact hR.pure a
  | error cause => exact hR.fail cause

theorem require (cause : TypingError) (a? : Option α) :
    R (Typing.require cause a?) (Typing.require cause a?) := by
  cases a? with
  | some a => exact hR.pure a
  | none => exact hR.fail cause

theorem mapM {f g : α → Typing β} (hfg : ∀ a, R (f a) (g a)) (l : List α) :
    R (l.mapM f) (l.mapM g) := by
  induction l with
  | nil => exact hR.pure []
  | cons a l ih =>
    rw [List.mapM_cons, List.mapM_cons]
    refine hR.bind (hfg a) fun b => ?_
    exact hR.bind ih fun bs => hR.pure _

theorem typeOf (e : Expr) : R (Typing.typeOf e) (Typing.typeOf e) := by
  unfold Typing.typeOf
  split
  · exact hR.pure _
  · exact hR.untyped

theorem typesOf (es : List Expr) : R (Typing.typesOf es) (Typing.typesOf es) :=
  hR.mapM hR.typeOf es

end CoreCongruence

/-- Asking whether a name has a specialized function looks the name up. -/
theorem LookupCongruence.specialized (hR : LookupCongruence R) (cause : TypingError) (name : String)
    {x x' : Typing α} {source source' : FnDecl → Typing α} (hx : R x x')
    (hsource : ∀ decl, R (source decl) (source' decl)) :
    R (get >>= fun s => if s.typed.contains name then x else lookupSource cause name source)
      (get >>= fun s => if s.typed.contains name then x' else lookupSource cause name source') := by
  have hlookup (x : Typing α) (source : FnDecl → Typing α) :
      (get >>= fun s : Session =>
          if s.typed.contains name then x else lookupSource cause name source) =
        lookupFn cause name (fun _ => x) source := by
    refine congrArg (get >>= ·) (funext fun s => ?_)
    unfold NameMap.contains
    cases s.typed.find? name <;> rfl
  rw [hlookup, hlookup]
  exact hR.fn cause name (fun _ => hx) hsource

/-- Functions are looked up by reading the session. -/
theorem Congruence.lookups (hR : Congruence R) : LookupCongruence R := by
  have hsource {α : Type} (cause : TypingError) (name : String) {next next' : FnDecl → Typing α}
      (hnext : ∀ decl, R (next decl) (next' decl)) :
      R (lookupSource cause name next) (lookupSource cause name next') :=
    hR.bind hR.get fun s => hR.bind (hR.require _ _) hnext
  refine { hR with source := hsource, fn := ?_, present := ?_ }
  · intro α cause name typed typed' source source' htyped hnext
    refine hR.bind hR.get fun s => ?_
    cases s.typed.find? name with
    | some func => exact htyped func
    | none => exact hsource cause name hnext
  · intro α cause name next next' hnext
    exact hR.bind hR.get fun s => CoreCongruence.ite hnext (hR.fail _)

/-! ## Walks with a state -/

/-- The two walks are related from every state. -/
def Along (R : {α : Type} → Typing α → Typing α → Prop) (x y : StateT σ Typing α) : Prop :=
  ∀ st, R (x.run st) (y.run st)

namespace Along

variable (hR : Congruence R)
include hR

theorem bind {x y : StateT σ Typing α} {f g : α → StateT σ Typing β} (hxy : Along R x y)
    (hfg : ∀ a, Along R (f a) (g a)) : Along R (x >>= f) (y >>= g) := by
  intro st
  rw [StateT.run_bind, StateT.run_bind]
  exact hR.bind (hxy st) fun r => hfg r.1 r.2

theorem pure (a : α) : Along R (Pure.pure a : StateT σ Typing α) (Pure.pure a) :=
  fun st => hR.pure (a, st)

theorem lift {x y : Typing α} (hxy : R x y) :
    Along R (liftM x : StateT σ Typing α) (liftM y : StateT σ Typing α) := by
  intro st
  show R (x >>= fun a => Pure.pure (a, st)) (y >>= fun a => Pure.pure (a, st))
  exact hR.bind hxy fun a => hR.pure (a, st)

theorem fail (cause : TypingError) :
    Along R (Typing.fail cause : StateT σ Typing α) (Typing.fail cause : StateT σ Typing α) :=
  lift hR (hR.fail cause)

theorem get : Along R (get : StateT σ Typing σ) get :=
  fun st => hR.pure (st, st)

theorem modify (f : σ → σ) : Along R (modify f : StateT σ Typing PUnit) (modify f) := by
  intro st
  show R (Pure.pure (PUnit.unit, f st)) (Pure.pure (PUnit.unit, f st))
  exact hR.pure _

omit hR in
theorem ite {c : Prop} [Decidable c] {x y x' y' : StateT σ Typing α} (hx : Along R x x')
    (hy : Along R y y') : Along R (if c then x else y) (if c then x' else y') := by
  split
  · exact hx
  · exact hy

theorem mapM {f g : α → StateT σ Typing β} (hfg : ∀ a, Along R (f a) (g a)) (l : List α) :
    Along R (l.mapM f) (l.mapM g) := by
  induction l with
  | nil => exact pure hR []
  | cons a l ih =>
    rw [List.mapM_cons, List.mapM_cons]
    refine bind hR (hfg a) fun b => ?_
    exact bind hR ih fun bs => pure hR _

theorem forM {f g : α → StateT σ Typing PUnit} (hfg : ∀ a, Along R (f a) (g a)) (l : List α) :
    Along R (l.forM f) (l.forM g) := by
  induction l with
  | nil => exact pure hR PUnit.unit
  | cons a l ih => exact bind hR (hfg a) fun _ => ih

theorem foldlM {f g : β → α → StateT σ Typing β} (hfg : ∀ b a, Along R (f b a) (g b a))
    (l : List α) (b : β) : Along R (l.foldlM f b) (l.foldlM g b) := by
  induction l generalizing b with
  | nil => exact pure hR b
  | cons a l ih =>
    rw [List.foldlM_cons, List.foldlM_cons]
    exact bind hR (hfg b a) fun b => ih b

end Along
end ArrayLang.Typing

/-! ## Binding and specializing -/

namespace ArrayLang

open Typing

variable {R : {α : Type} → Typing α → Typing α → Prop}

/-- The specializers are related on all functions and parameters. -/
def Specializer.Related (R : {α : Type} → Typing α → Typing α → Prop)
    (specialize specialize' : Specializer) : Prop :=
  ∀ func params, R (specialize func params) (specialize' func params)

namespace Annotate

section
variable (hR : LookupCongruence R)
include hR

mutual
theorem complete_congr {node : Node} {ty? : Option Ty} :
    R (complete ⟨node, ty?⟩) (complete ⟨node, ty?⟩) := by
  cases ty? with
  | some ty =>
    rw [complete]
    exact hR.pure _
  | none =>
    cases node with
    | lit value => exact hR.pure _
    | tuple items =>
      rw [complete]
      refine hR.bind (completeAll_congr items) fun items => ?_
      exact hR.bind (hR.typesOf items) fun types => hR.pure _
    | _ => exact hR.untyped
termination_by sizeOf node

theorem completeAll_congr : ∀ es : List Expr, R (completeAll es) (completeAll es)
  | [] => hR.pure _
  | ⟨node, ty?⟩ :: es => by
    rw [completeAll]
    refine hR.bind complete_congr fun e => ?_
    exact hR.bind (completeAll_congr es) fun es => hR.pure _
termination_by es => sizeOf es
end

theorem bindExprs_congr (func : FnDecl) (args : List Expr) :
    R (bindExprs func args) (bindExprs func args) := by
  unfold bindExprs
  refine hR.bind (hR.check _) fun bound => hR.mapM (fun p => ?_) bound
  obtain ⟨name, node, ty?⟩ := p
  exact hR.bind (complete_congr hR) fun e => hR.pure _

theorem paramTypes_congr (bound : List (String × Expr)) :
    R (paramTypes bound) (paramTypes bound) := by
  unfold paramTypes
  refine hR.mapM (fun p => ?_) bound
  exact hR.bind (hR.typeOf p.2) fun ty => hR.pure _

theorem closureOf_congr (func : String) (captured : List Expr) :
    R (closureOf func captured) (closureOf func captured) := by
  unfold closureOf
  exact hR.bind (hR.typesOf captured) fun types => hR.pure _

end

section
variable {specialize specialize' : Specializer} (hR : LookupCongruence R)
  (hspec : specialize.Related R specialize')
include hR hspec

theorem specializeNamed_congr (name : String) (types : List Ty) :
    R (specializeNamed specialize name types) (specializeNamed specialize' name types) := by
  refine hR.source (.unknownFunction name) name fun func => ?_
  exact hR.bind (hR.check _) fun bound => hspec func bound

theorem specializeClosure_congr (func : String) (captured types : List Ty) :
    R (specializeClosure specialize func captured types)
      (specializeClosure specialize' func captured types) := by
  refine hR.fn (.unknownFunction func) func (fun typed => ?_) fun decl => ?_
  · exact CoreCongruence.ite (hR.pure _) (hR.fail _)
  · exact hR.bind (hR.check _) fun bound => hspec decl bound

theorem annotateCall_congr (name : String) (args : List Expr) :
    R (annotateCall specialize name args) (annotateCall specialize' name args) := by
  refine hR.fn (.unknownFunction name) name (fun typed => ?_) fun func => ?_
  · exact hR.bind (hR.typesOf args) fun found => CoreCongruence.ite (hR.pure _) (hR.fail _)
  · refine hR.bind (bindExprs_congr hR func args) fun bound => ?_
    refine hR.bind (paramTypes_congr hR bound) fun params => ?_
    exact hR.bind (hspec func params) fun typed => hR.pure _

theorem specializeCallee_congr (callee : Expr) (args : List Expr) :
    R (specializeCallee specialize callee args) (specializeCallee specialize' callee args) := by
  unfold specializeCallee
  refine hR.bind (hR.typeOf callee) fun ty => ?_
  split
  · rename_i name types
    refine hR.specialized (.unknownFunction name) name ?_ fun func => ?_
    · refine hR.bind (hR.typesOf args) fun found => ?_
      exact hR.bind (specializeClosure_congr hR hspec _ _ found) fun typed => hR.pure _
    · refine CoreCongruence.ite (hR.fail _) ?_
      refine hR.bind (bindExprs_congr hR func _) fun bound => ?_
      refine hR.bind (paramTypes_congr hR bound) fun params => ?_
      refine hR.bind (hspec func params) fun typed => ?_
      exact hR.bind (closureOf_congr hR _ _) fun closure => hR.pure _
  · exact hR.fail _

theorem specializeElementwise_congr (func : Expr) (types : List Ty) :
    R (specializeElementwise specialize func types)
      (specializeElementwise specialize' func types) := by
  unfold specializeElementwise
  refine hR.bind (specializeCallee_congr hR hspec func _) fun r => ?_
  exact CoreCongruence.ite (hR.pure _) (hR.fail _)

theorem settleAccumulator_congr (combine : Expr) (element : Ty) (passes : Nat) (acc : Ty) :
    R (settleAccumulator specialize combine element passes acc)
      (settleAccumulator specialize' combine element passes acc) := by
  induction passes generalizing acc with
  | zero => exact hR.fail _
  | succ passes ih =>
    unfold settleAccumulator
    refine hR.bind (specializeElementwise_congr hR hspec combine _) fun r => ?_
    refine hR.bind (hR.require _ _) fun joined => ?_
    exact CoreCongruence.ite (hR.pure _) (ih joined)

omit hspec in
/-- A walk goes on with the type of a starting value, or else of the first element. -/
theorem startType_congr {α : Type} {next next' : Ty → Typing α} (start? : Option Expr)
    (element : Ty) (hnext : ∀ ty, R (next ty) (next' ty)) :
    R (match start? with
      | some start => do next (← typeOf start)
      | none => do next (← pure element))
      (match start? with
      | some start => do next' (← typeOf start)
      | none => do next' (← pure element)) := by
  cases start? with
  | some start => exact hR.bind (hR.typeOf start) hnext
  | none => exact hR.bind (hR.pure element) hnext

omit hspec in
/-- A walk goes on with the type of stacked results, or with that of a single one. -/
theorem stackedType_congr {α : Type} {next next' : Ty → Typing α} {c : Prop} [Decidable c]
    (r : Except TypingError Ty) (ty : Ty) (hnext : ∀ ty, R (next ty) (next' ty)) :
    R (if c then do next (← check r) else do next (← pure ty))
      (if c then do next' (← check r) else do next' (← pure ty)) :=
  CoreCongruence.ite (hR.bind (hR.check r) hnext) (hR.bind (hR.pure ty) hnext)

end
end Annotate

/-! ## Annotating expressions -/

section
open Annotate TypingRule

variable {specialize specialize' : Specializer} {env : TypeEnv} (hR : LookupCongruence R)
include hR

mutual
/-- Annotating an expression keeps every lookup congruence. -/
theorem annotate_congr (hspec : specialize.Related R specialize') :
    ∀ e : Expr, R (annotate specialize env e) (annotate specialize' env e)
  | ⟨.lit value, _⟩ => hR.pure _
  | ⟨.var name, _⟩ => hR.check _
  | ⟨.tuple items, _⟩ => by
    rw [annotate, annotate]
    refine hR.bind (annotateAll_congr hspec items) fun items => ?_
    exact hR.bind (hR.typesOf items) fun types => hR.pure _
  | ⟨.proj base i, _⟩ => by
    rw [annotate, annotate]
    refine hR.bind (annotate_congr hspec base) fun base => hR.bind (hR.typeOf base) fun ty => ?_
    exact hR.bind (hR.check _) fun ty => hR.pure _
  | ⟨.array items, _⟩ => by
    rw [annotate, annotate]
    refine hR.bind (annotateAll_congr hspec items) fun items => ?_
    refine hR.bind (hR.typesOf items) fun types => ?_
    exact hR.bind (hR.check _) fun ty => hR.pure _
  | ⟨.index base key, _⟩ => by
    rw [annotate, annotate]
    refine hR.bind (annotate_congr hspec base) fun base =>
      hR.bind (annotate_congr hspec key) fun key => ?_
    refine hR.bind (hR.typeOf base) fun baseTy => hR.bind (hR.typeOf key) fun keyTy => ?_
    exact hR.bind (hR.check _) fun ty => hR.pure _
  | ⟨.slice start stop step, _⟩ => by
    rw [annotate, annotate]
    refine hR.bind (annotate_congr hspec start) fun start =>
      hR.bind (annotate_congr hspec stop) fun stop => ?_
    refine hR.bind (annotateOption_congr hspec step) fun step? => ?_
    refine hR.bind (hR.typesOf _) fun types => ?_
    split
    · exact hR.fail _
    · refine hR.bind (hR.typeOf start) fun startTy => hR.bind (hR.typeOf stop) fun stopTy => ?_
      exact hR.bind (hR.typeOf _) fun stepTy => hR.pure _
  | ⟨.attr base name, _⟩ => by
    rw [annotate, annotate]
    refine hR.bind (annotate_congr hspec base) fun base => hR.bind (hR.typeOf base) fun ty => ?_
    exact hR.bind (hR.check _) fun ty => hR.pure _
  | ⟨.op op args, _⟩ => by
    rw [annotate, annotate]
    refine hR.bind (annotateAll_congr hspec args) fun args => hR.bind (hR.typesOf args) fun types => ?_
    exact hR.bind (hR.check _) fun expected => hR.pure _
  | ⟨.opValue op, _⟩ => hR.fail _
  | ⟨.call func args, _⟩ => by
    rw [annotate, annotate]
    exact hR.bind (annotateAll_congr hspec args) fun args => annotateCall_congr hR hspec func args
  | ⟨.invoke callee args, _⟩ => by
    rw [annotate, annotate]
    refine hR.bind (annotate_congr hspec callee) fun callee => ?_
    refine hR.bind (annotateAll_congr hspec args) fun args => ?_
    exact hR.bind (specializeCallee_congr hR hspec callee args) fun r => hR.pure _
  | ⟨.closure func captured, _⟩ => by
    rw [annotate, annotate]
    refine hR.present (.unknownFunction func) func ?_
    exact hR.bind (annotateAll_congr hspec captured) fun captured => closureOf_congr hR func captured
  | ⟨.captured base i, _⟩ => by
    rw [annotate, annotate]
    refine hR.bind (annotate_congr hspec base) fun base => hR.bind (hR.typeOf base) fun ty => ?_
    exact hR.bind (hR.check _) fun ty => hR.pure _
  | ⟨.lambda decl, _⟩ => by
    rw [annotate, annotate]
    refine hR.bind (hR.register decl) fun _ => ?_
    refine hR.bind (hR.mapM (fun name => hR.check _) _) fun captured => ?_
    exact closureOf_congr hR _ captured
  | ⟨.cast value elt, _⟩ => by
    rw [annotate, annotate]
    refine hR.bind (annotate_congr hspec value) fun value => hR.bind (hR.typeOf value) fun ty => ?_
    exact hR.bind (hR.check _) fun ty => hR.pure _
  | ⟨.struct name fields, _⟩ => by
    rw [annotate, annotate]
    refine hR.bind (annotateFields_congr hspec fields) fun fields => ?_
    refine hR.bind (hR.mapM (fun p => ?_) fields) fun types => hR.pure _
    exact hR.bind (hR.typeOf p.2) fun ty => hR.pure _
  | ⟨.alloc elt shape, _⟩ => by
    rw [annotate, annotate]
    refine hR.bind (annotate_congr hspec shape) fun shape => hR.bind (hR.typeOf shape) fun ty => ?_
    exact hR.bind (hR.check _) fun ty => hR.pure _
  | ⟨.map func args axis, _⟩ => by
    rw [annotate, annotate]
    refine hR.bind (hR.check _) fun i => hR.bind (annotate_congr hspec axis) fun axis => ?_
    refine hR.bind (annotate_congr hspec func) fun func => ?_
    refine hR.bind (annotateAll_congr hspec args) fun args => hR.bind (hR.typesOf args) fun types => ?_
    refine hR.bind (hR.check _) fun slices => ?_
    refine hR.bind (specializeElementwise_congr hR hspec func slices) fun r => ?_
    exact stackedType_congr hR _ _ fun ty => hR.pure _
  | ⟨.allPairs func args axis, _⟩ => by
    rw [annotate, annotate]
    refine hR.bind (hR.check _) fun i => hR.bind (annotate_congr hspec axis) fun axis => ?_
    refine hR.bind (annotate_congr hspec func) fun func => ?_
    refine hR.bind (annotateAll_congr hspec args) fun args => hR.bind (hR.typesOf args) fun types => ?_
    refine CoreCongruence.ite (hR.fail _) (hR.bind (hR.check _) fun slices => ?_)
    refine hR.bind (specializeElementwise_congr hR hspec func slices) fun r => ?_
    exact hR.bind (hR.check _) fun ty => hR.pure _
  | ⟨.reduce func combine start args axis, _⟩ => by
    rw [annotate, annotate]
    refine hR.bind (hR.check _) fun i => hR.bind (annotate_congr hspec axis) fun axis => ?_
    refine hR.bind (annotate_congr hspec func) fun func => ?_
    refine hR.bind (annotate_congr hspec combine) fun combine => ?_
    refine hR.bind (annotateOption_congr hspec start) fun start? => ?_
    refine hR.bind (annotateAll_congr hspec args) fun args => hR.bind (hR.typesOf args) fun types => ?_
    refine hR.bind (hR.check _) fun slices => ?_
    refine hR.bind (specializeElementwise_congr hR hspec func slices) fun r => ?_
    refine startType_congr hR start? _ fun first => ?_
    exact hR.bind (settleAccumulator_congr hR hspec combine _ _ first) fun r' => hR.pure _
  | ⟨.scan func combine emit start args axis, _⟩ => by
    rw [annotate, annotate]
    refine hR.bind (hR.check _) fun i => hR.bind (annotate_congr hspec axis) fun axis => ?_
    refine hR.bind (annotate_congr hspec func) fun func => ?_
    refine hR.bind (annotate_congr hspec combine) fun combine => ?_
    refine hR.bind (annotate_congr hspec emit) fun emit => ?_
    refine hR.bind (annotateOption_congr hspec start) fun start? => ?_
    refine hR.bind (annotateAll_congr hspec args) fun args => hR.bind (hR.typesOf args) fun types => ?_
    refine hR.bind (hR.check _) fun slices => ?_
    refine hR.bind (specializeElementwise_congr hR hspec func slices) fun r => ?_
    refine startType_congr hR start? _ fun first => ?_
    refine hR.bind (settleAccumulator_congr hR hspec combine _ _ first) fun r' => ?_
    refine hR.bind (specializeElementwise_congr hR hspec emit _) fun r'' => ?_
    exact stackedType_congr hR _ _ fun ty => hR.pure _
termination_by structural e => e

theorem annotateAll_congr (hspec : specialize.Related R specialize') :
    ∀ es : List Expr, R (annotateAll specialize env es) (annotateAll specialize' env es)
  | [] => hR.pure _
  | e :: es => by
    rw [annotateAll, annotateAll]
    refine hR.bind (annotate_congr hspec e) fun e => ?_
    exact hR.bind (annotateAll_congr hspec es) fun es => hR.pure _
termination_by structural es => es

theorem annotateOption_congr (hspec : specialize.Related R specialize') :
    ∀ e? : Option Expr, R (annotateOption specialize env e?) (annotateOption specialize' env e?)
  | none => hR.pure _
  | some e => by
    rw [annotateOption, annotateOption]
    exact hR.bind (annotate_congr hspec e) fun e => hR.pure _
termination_by structural e? => e?

theorem annotateFields_congr (hspec : specialize.Related R specialize') :
    ∀ fields : List (String × Expr),
      R (annotateFields specialize env fields) (annotateFields specialize' env fields)
  | [] => hR.pure _
  | (_, e) :: fields => by
    rw [annotateFields, annotateFields]
    refine hR.bind (annotate_congr hspec e) fun e => ?_
    exact hR.bind (annotateFields_congr hspec fields) fun fields => hR.pure _
termination_by structural fields => fields
end

end

/-! ## Inferring types -/

section
variable {specialize specialize' : Specializer} (hR : Congruence R)
include hR

namespace Infer

theorem bindVar_along (name : String) (ty : Ty) : Along R (bindVar name ty) (bindVar name ty) := by
  unfold bindVar
  refine Along.bind hR (Along.get hR) fun st => ?_
  cases st.env.find? name with
  | none => exact Along.modify hR _
  | some known =>
    refine Along.bind hR (Along.lift hR (hR.require _ _)) fun joined => ?_
    exact Along.ite (Along.modify hR _) (Along.pure hR _)

theorem bindReturn_along (ty : Ty) : Along R (bindReturn ty) (bindReturn ty) := by
  unfold bindReturn
  refine Along.bind hR (Along.get hR) fun st => ?_
  cases st.returned? with
  | none => exact Along.modify hR _
  | some known =>
    refine Along.bind hR (Along.lift hR (hR.require _ _)) fun joined => ?_
    exact Along.ite (Along.modify hR _) (Along.pure hR _)

theorem changes_along {pass pass' : Infer Unit} (hpass : Along R pass pass') :
    Along R (changes pass) (changes pass') := by
  unfold changes
  refine Along.bind hR (Along.get hR) fun before => Along.bind hR hpass fun _ => ?_
  exact Along.bind hR (Along.get hR) fun after => Along.pure hR _

theorem settle_along {pass pass' : Infer Unit} (hpass : Along R pass pass') (name : String)
    (passes : Nat) : Along R (settle name pass passes) (settle name pass' passes) := by
  induction passes with
  | zero =>
    rw [settle, settle]
    refine Along.bind hR (changes_along hR hpass) fun changed => ?_
    exact Along.ite (Along.fail hR _) (Along.pure hR _)
  | succ passes ih =>
    rw [settle, settle]
    refine Along.bind hR (changes_along hR hpass) fun changed => ?_
    exact Along.ite ih (Along.pure hR _)

variable (hspec : specialize.Related R specialize')
include hspec

theorem annotated_along (e : Expr) :
    Along R (annotated specialize e) (annotated specialize' e) := by
  unfold annotated
  refine Along.bind hR (Along.get hR) fun st => ?_
  exact Along.lift hR (annotate_congr hR.lookups hspec e)

theorem typed_along (e : Expr) : Along R (typed specialize e) (typed specialize' e) := by
  unfold typed
  refine Along.bind hR (annotated_along hR hspec e) fun e => ?_
  exact Along.lift hR (hR.typeOf e)

omit hspec in
mutual
theorem bindTarget_along (hspec : specialize.Related R specialize')
    {node : Node} {ty? : Option Ty} (ty : Ty) :
    Along R (bindTarget specialize ⟨node, ty?⟩ ty) (bindTarget specialize' ⟨node, ty?⟩ ty) := by
  cases node with
  | var name => exact bindVar_along hR name ty
  | tuple targets =>
    cases ty with
    | tuple types =>
      rw [bindTarget, bindTarget]
      exact Along.ite (bindTargets_along hspec targets types) (Along.fail hR _)
    | _ => exact Along.fail hR _
  | index base key =>
    rw [bindTarget, bindTarget]
    exact Along.bind hR (annotated_along hR hspec _) fun _ => Along.pure hR _
  | _ => exact Along.fail hR _
termination_by sizeOf node

theorem bindTargets_along (hspec : specialize.Related R specialize') :
    ∀ (targets : List Expr) (types : List Ty),
      Along R (bindTargets specialize targets types) (bindTargets specialize' targets types)
  | ⟨node, ty?⟩ :: targets, ty :: types => by
    rw [bindTargets, bindTargets]
    exact Along.bind hR (bindTarget_along hspec ty) fun _ => bindTargets_along hspec targets types
  | [], _ => Along.pure hR _
  | _ :: _, [] => Along.pure hR _
termination_by targets => sizeOf targets
end

theorem bindSide_along (side : Phi → Expr) (merge : List Phi) :
    Along R (bindSide specialize side merge) (bindSide specialize' side merge) := by
  refine Along.forM hR (fun phi => ?_) merge
  exact Along.bind hR (typed_along hR hspec _) fun ty => bindVar_along hR phi.name ty

omit hspec in
mutual
theorem inferStmt_along (hspec : specialize.Related R specialize') :
    ∀ s : Stmt, Along R (inferStmt specialize s) (inferStmt specialize' s)
  | .assign ⟨node, ty?⟩ value => by
    rw [inferStmt, inferStmt]
    exact Along.bind hR (typed_along hR hspec value) fun ty => bindTarget_along hR hspec ty
  | .ret value => by
    rw [inferStmt, inferStmt]
    exact Along.bind hR (typed_along hR hspec value) fun ty => bindReturn_along hR ty
  | .branch cond onTrue onFalse merge => by
    rw [inferStmt, inferStmt]
    refine Along.bind hR (annotated_along hR hspec cond) fun _ => ?_
    refine Along.bind hR (inferBlock_along hspec onTrue) fun _ => ?_
    refine Along.bind hR (inferBlock_along hspec onFalse) fun _ => ?_
    refine Along.forM hR (fun phi => ?_) merge
    refine Along.bind hR (typed_along hR hspec phi.left) fun left => ?_
    refine Along.bind hR (typed_along hR hspec phi.right) fun right => ?_
    exact Along.bind hR (bindVar_along hR _ left) fun _ => bindVar_along hR _ right
  | .loop cond body merge => by
    rw [inferStmt, inferStmt]
    refine Along.bind hR (bindSide_along hR hspec _ merge) fun _ => settle_along hR ?_ _ _
    refine Along.bind hR (annotated_along hR hspec cond) fun _ => ?_
    exact Along.bind hR (inferBlock_along hspec body) fun _ => bindSide_along hR hspec _ merge
termination_by structural s => s

theorem inferBlock_along (hspec : specialize.Related R specialize') :
    ∀ ss : Block, Along R (inferBlock specialize ss) (inferBlock specialize' ss)
  | [] => Along.pure hR _
  | s :: ss => by
    rw [inferBlock, inferBlock]
    exact Along.bind hR (inferStmt_along hspec s) fun _ => inferBlock_along hspec ss
termination_by structural ss => ss
end

end Infer

/-- Inferring the types of a function keeps every congruence. -/
theorem inferFn_congr (hspec : specialize.Related R specialize') (func : FnDecl)
    (params : List (String × Ty)) :
    R (inferFn specialize func params) (inferFn specialize' func params) := by
  unfold inferFn
  have hwalk := Infer.settle_along hR (Infer.inferBlock_along hR hspec func.body) func.name
    Infer.maxPasses
  exact hR.bind (hwalk _) fun r => hR.pure _

end
end ArrayLang
