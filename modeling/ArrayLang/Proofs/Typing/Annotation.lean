import ArrayLang.Proofs.Syntax.Names
import ArrayLang.Proofs.Typing.Binding
import ArrayLang.Proofs.Typing.Computation
import ArrayLang.Proofs.Typing.WellTyped
import ArrayLang.Typing.Annotate

/-!
# What annotation gives

An annotated expression carries a type at every node, uses every variable at its declared type, and
holds neither an operator as a value nor a function written in place. Annotating keeps whatever
invariant of sessions the registration of functions and the specialization of callees keep.
-/

namespace ArrayLang

open Typing

/-! ## Annotated expressions -/

/-- What annotation makes sure of at a node of type `ty`. -/
def Node.AnnotatedAt (env : TypeEnv) (ty : Ty) : Node → Prop
  | .var name => env.find? name = some ty
  | .opValue _ | .lambda _ => False
  | .closure _ values => ∃ func types, ty = .closure func types ∧ types.length = values.length
  | _ => True

/-- Every node inside the expression has a type and is as annotation makes it. -/
def Expr.Annotated (env : TypeEnv) (e : Expr) : Prop :=
  e.Forall fun s => ∃ ty, s.ty? = some ty ∧ s.node.AnnotatedAt env ty

namespace Expr.Annotated

variable {env : TypeEnv} {e : Expr}

theorem typed (h : e.Annotated env) : ∃ ty, e.ty? = some ty := by
  obtain ⟨ty, hty, -⟩ := Forall.self h
  exact ⟨ty, hty⟩

theorem mono {env' : TypeEnv} (h : e.Annotated env) (henv : env.Included env') :
    e.Annotated env' := by
  refine Forall.mono h fun s ⟨ty, hty, hat⟩ => ⟨ty, hty, ?_⟩
  cases hnode : s.node with
  | var name =>
    rw [hnode] at hat
    exact henv name ty hat
  | _ =>
    rw [hnode] at hat
    exact hat

theorem children (h : e.Annotated env) : ∀ c ∈ e.children, c.Annotated env :=
  (forall_iff.1 h).2

/-- A node is annotated when its children are and the node itself is as annotation makes it. -/
theorem node {node : Node} {ty : Ty} (hnode : node.AnnotatedAt env ty)
    (h : ∀ c ∈ node.children, c.Annotated env) : (Expr.typed node ty).Annotated env :=
  forall_iff.2 ⟨⟨ty, rfl, hnode⟩, h⟩

theorem literal (value : Literal) : (Annotate.literal value).Annotated env :=
  node (by trivial) fun _ h => (List.not_mem_nil h).elim

end Expr.Annotated

/-! ## Invariants of sessions -/

/-- A property of the names of source code under which fresh names are new. -/
def NamesApart (q : String → Prop) : Prop :=
  ∀ name, q name → Dotless name

/-- An invariant of sessions whose source code names variables that satisfy `q` only. Registering
functions keeps it. As far as the names of source code are apart from fresh names, the recorded
specializations are well typed. -/
structure SourceInvariant (q : String → Prop) (I : Session → Prop) : Prop where
  sources {s : Session} {name : String} {decl : FnDecl} (hs : I s)
    (h : s.sources.find? name = some decl) : decl.Names q
  typed {s : Session} {name : String} {func : TypedFn} (hs : I s)
    (h : s.typed.find? name = some func) (hq : NamesApart q) : func.check = .ok ()
  register {s : Session} {decl : FnDecl} (hs : I s) (h : decl.Names q) : I (s.register decl).2

/-- Recording specializations that are well typed keeps the invariant as well. -/
structure SessionInvariant (q : String → Prop) (I : Session → Prop) : Prop
    extends SourceInvariant q I where
  beginSpecialization {s : Session} {key : Signature} (hs : I s) : I (s.beginSpecialization key)
  endSpecialization {s : Session} {key : Signature} (hs : I s) : I (s.endSpecialization key)
  recordSpecialization {s : Session} {key : Signature} {func : TypedFn} (hs : I s)
    (h : NamesApart q → func.check = .ok ()) : I (s.recordSpecialization key func)

/-- Specializing functions whose names satisfy `q` keeps the invariant. -/
def Specializer.Keeps (q : String → Prop) (I : Session → Prop) (specialize : Specializer) : Prop :=
  ∀ func params, func.Names q → (∀ p ∈ params, q p.1) →
    Meets I (specialize func params) fun typed => NamesApart q → typed.check = .ok ()

/-! ## Binding expressions -/

namespace Annotate

variable {q : String → Prop} {I : Session → Prop} {env : TypeEnv} {args : List Expr}

/-- What binding typed arguments gives: an argument, a typed constant, or a typed tuple of
arguments. -/
inductive Completed (args : List Expr) : Expr → Prop where
  | arg {e : Expr} (h : e ∈ args) : Completed args e
  | lit (value : Literal) : Completed args (literal value)
  | rest {items : List Expr} {ty : Ty} (h : ∀ e ∈ items, e ∈ args) :
    Completed args (.typed (.tuple items) ty)

theorem Completed.annotated {e : Expr} (h : Completed args e)
    (hargs : ∀ a ∈ args, a.Annotated env) : e.Annotated env := by
  cases h with
  | arg h => exact hargs e h
  | lit value => exact .literal value
  | rest h => exact .node (by trivial) fun c hc => hargs c (h c hc)

theorem Completed.typed {e : Expr} (h : Completed args e)
    (hargs : ∀ a ∈ args, ∃ ty, a.ty? = some ty) : ∃ ty, e.ty? = some ty := by
  cases h with
  | arg h => exact hargs e h
  | lit value => exact ⟨_, rfl⟩
  | rest h => exact ⟨_, rfl⟩

theorem complete_of_typed {e : Expr} (h : ∃ ty, e.ty? = some ty) : complete e = pure e := by
  obtain ⟨node, ty?⟩ := e
  obtain ⟨ty, rfl⟩ := h
  rw [complete]

theorem completeAll_of_typed {es : List Expr} (h : ∀ e ∈ es, ∃ ty, e.ty? = some ty) :
    completeAll es = pure es := by
  induction es with
  | nil => rw [completeAll]
  | cons e es ih =>
    rw [List.forall_mem_cons] at h
    rw [completeAll, complete_of_typed h.1, ih h.2]
    rfl

/-- A bound expression is completed, and one that has a type is left as it is. -/
theorem complete_meets {e : Expr} (hargs : ∀ a ∈ args, ∃ ty, a.ty? = some ty)
    (h : Binding.FromArgs args e) :
    Meets I (complete e) fun e' => Completed args e' ∧ ((∃ ty, e.ty? = some ty) → e' = e) := by
  obtain h | ⟨value, rfl⟩ | ⟨items, hitems, rfl⟩ := h
  · rw [complete_of_typed (hargs e h)]
    exact .pure ⟨.arg h, fun _ => rfl⟩
  · show Meets I (complete ⟨.lit value, none⟩) _
    rw [complete]
    exact .pure ⟨.lit value, fun ⟨_, h⟩ => by cases h⟩
  · show Meets I (complete ⟨.tuple items, none⟩) _
    rw [complete, completeAll_of_typed fun e he => hargs e (hitems e he)]
    rw [pure_bind]
    refine (Meets.typesOf items).bind fun types _ => ?_
    exact .pure ⟨.rest hitems, fun ⟨_, h⟩ => by cases h⟩

/-- What binding typed arguments gives: all parameters in order, bound to completed expressions, the
leading ones to the leading arguments. -/
structure Bound (func : FnDecl) (args : List Expr) (bound : List (String × Expr)) : Prop where
  names : bound.map (·.1) = func.nonlocals ++ func.params.names
  completed : ∀ e ∈ bound.map (·.2), Completed args e
  take : ∀ n ≤ args.length, n ≤ func.nonlocals.length + func.params.positional.length →
    (bound.map (·.2)).take n = args.take n

/-- Captured values that fit the leading parameters are bound to them as they are. -/
theorem Bound.take_captured {func : FnDecl} {captured : List Expr} {bound : List (String × Expr)}
    {n : Nat} (h : Bound func (captured ++ args) bound) (hlen : captured.length = n)
    (hfit : ¬func.nonlocals.length + func.params.positional.length < n) :
    (bound.map (·.2)).take n = captured := by
  rw [h.take n (by rw [List.length_append]; omega) (by omega), ← hlen, List.take_left]

theorem map_fst_of_forall₂ {l l' : List (String × Expr)}
    (h : List.Forall₂ (fun p p' => p'.1 = p.1) l l') : l'.map (·.1) = l.map (·.1) := by
  induction h with
  | nil => rfl
  | cons h _ ih => rw [List.map_cons, List.map_cons, h, ih]

theorem take_map_snd_of_forall₂ {l l' : List (String × Expr)} {P : Expr → Prop} {n : Nat}
    (h : List.Forall₂ (fun p p' => P p.2 → p'.2 = p.2) l l')
    (hn : ∀ e ∈ (l.map (·.2)).take n, P e) : (l'.map (·.2)).take n = (l.map (·.2)).take n := by
  induction h generalizing n with
  | nil => rfl
  | cons h _ ih =>
    cases n with
    | zero => rfl
    | succ n =>
      simp only [List.map_cons, List.take_succ_cons, List.forall_mem_cons] at hn ⊢
      rw [h hn.1, ih hn.2]

theorem bindArgs_meets {α : Type} [Bindable α] (name : String) (func : FnDecl) (args : List α) :
    Meets I (check ((bindArgs name func.params func.nonlocals args []).mapError .bind))
      fun bound => bindArgs name func.params func.nonlocals args [] = .ok bound := by
  refine Meets.check fun bound h => ?_
  cases hb : bindArgs name func.params func.nonlocals args [] with
  | error e =>
    rw [hb] at h
    cases h
  | ok bound' =>
    rw [hb] at h
    cases h
    rfl

theorem bindExprs_meets (func : FnDecl) (hargs : ∀ a ∈ args, ∃ ty, a.ty? = some ty) :
    Meets I (bindExprs func args) (Bound func args) := by
  unfold bindExprs
  refine (bindArgs_meets func.name func args).bind fun bound hbound => ?_
  have hfrom := Binding.bindArgs_fromArgs hbound
  have hmap : Meets I (bound.mapM fun p => do return (p.1, ← complete p.2))
      (List.Forall₂ (fun p p' => p'.1 = p.1 ∧ Completed args p'.2
        ∧ ((∃ ty, p.2.ty? = some ty) → p'.2 = p.2)) bound) := by
    refine Meets.mapM fun p hp => ?_
    refine (complete_meets hargs (hfrom p.2 (List.mem_map_of_mem hp))).bind fun e he => ?_
    exact .pure ⟨rfl, he⟩
  refine hmap.mono fun bound' hforall => ⟨?_, ?_, ?_⟩
  · rw [map_fst_of_forall₂ (hforall.imp fun _ _ h => h.1)]
    exact Binding.bindArgs_names hbound
  · intro e he
    obtain ⟨p, hp, rfl⟩ := List.mem_map.1 he
    exact List.forall_of_forall₂_right (hforall.imp fun _ _ h => h.2.1) p hp
  · intro n hn hpositional
    have htake := Binding.bindArgs_take hbound hn hpositional
    have hkept : List.Forall₂ (fun p p' => (∃ ty, p.2.ty? = some ty) → p'.2 = p.2) bound bound' :=
      hforall.imp fun _ _ h => h.2.2
    rw [take_map_snd_of_forall₂ (P := fun e => ∃ ty, e.ty? = some ty) hkept, htake]
    intro e he
    rw [htake] at he
    exact hargs e (List.mem_of_mem_take he)

theorem paramTypes_meets (bound : List (String × Expr)) :
    Meets I (paramTypes bound) fun params => params.map (·.1) = bound.map (·.1) := by
  unfold paramTypes
  induction bound with
  | nil => exact .pure rfl
  | cons p bound ih =>
    rw [List.mapM_cons]
    have hhead : Meets I (do return (p.1, ← typeOf p.2)) fun p' => p'.1 = p.1 :=
      (Meets.typeOf p.2).bind fun _ _ => .pure rfl
    refine hhead.bind fun p' hp => ?_
    refine ih.bind fun params hparams => .pure ?_
    rw [List.map_cons, List.map_cons, hp, hparams]

/-! ## Specializing callees -/

variable {specialize : Specializer}

/-- The parameters of a specialization of a source function have names of source code. -/
theorem params_satisfy {func : FnDecl} {params : List (String × Ty)} (hfunc : func.Names q)
    (hparams : params.map (·.1) = func.nonlocals ++ func.params.names) :
    ∀ p ∈ params, q p.1 := by
  intro p hp
  refine hfunc.bound p.1 ?_
  rw [← hparams]
  exact List.mem_map_of_mem hp

theorem specializeNamed_meets (hI : SourceInvariant q I) (hspec : specialize.Keeps q I)
    (name : String) (types : List Ty) :
    Meets I (specializeNamed specialize name types)
      fun typed => NamesApart q → typed.check = .ok () := by
  unfold specializeNamed
  refine Meets.get.bind fun s hs => ?_
  refine (Meets.require (Q := fun decl => decl.Names q) fun _ h => hI.sources hs h).bind
    fun func hfunc => ?_
  refine (bindArgs_meets name func types).bind fun bound hbound => ?_
  exact hspec func bound hfunc (params_satisfy hfunc (Binding.bindArgs_names hbound))

theorem specializeClosure_meets (hI : SourceInvariant q I) (hspec : specialize.Keeps q I)
    (func : String) (captured types : List Ty) :
    Meets I (specializeClosure specialize func captured types)
      fun typed => NamesApart q → typed.check = .ok () := by
  unfold specializeClosure
  refine Meets.get.bind fun s hs => ?_
  cases hfind : s.typed.find? func with
  | some typed =>
    refine .ite (fun _ => .pure ?_) fun _ => .fail _
    exact hI.typed hs hfind
  | none => exact specializeNamed_meets hI hspec func _

theorem annotateCall_meets (hI : SourceInvariant q I) (hspec : specialize.Keeps q I)
    (name : String) (hargs : ∀ a ∈ args, a.Annotated env) :
    Meets I (annotateCall specialize name args) (Expr.Annotated env) := by
  unfold annotateCall
  refine Meets.get.bind fun s hs => ?_
  cases s.typed.find? name with
  | some typed =>
    refine (Meets.typesOf args).bind fun found _ => ?_
    exact .ite (fun _ => .pure (.node (by trivial) hargs)) fun _ => .fail _
  | none =>
    refine Meets.get.bind fun s hs => ?_
    refine (Meets.require (Q := fun decl => decl.Names q) fun _ h => hI.sources hs h).bind
      fun func hfunc => ?_
    refine (bindExprs_meets func fun a ha => (hargs a ha).typed).bind fun bound hbound => ?_
    refine (paramTypes_meets bound).bind fun params hparams => ?_
    refine (hspec func params hfunc ?_).bind fun typed _ => .pure ?_
    · exact params_satisfy hfunc (hparams.trans hbound.names)
    · exact .node (by trivial) fun c hc => (hbound.completed c hc).annotated hargs

theorem capturedValues_annotated {callee : Expr} {name : String} {types : List Ty}
    (hcallee : callee.Annotated env) (hty : callee.ty? = some (.closure name types)) :
    (∀ e ∈ capturedValues callee types, e.Annotated env)
      ∧ (capturedValues callee types).length = types.length := by
  unfold capturedValues
  split
  · rename_i func values hnode
    constructor
    · intro e he
      refine Expr.Forall.of_mem_children hcallee ?_
      unfold Expr.children
      rw [hnode]
      exact he
    · obtain ⟨ty, hty', hat⟩ := Expr.Forall.self hcallee
      rw [hty] at hty'
      cases hty'
      rw [hnode] at hat
      obtain ⟨func', types', heq, hlen⟩ := hat
      cases heq
      exact hlen.symm
  · constructor
    · intro e he
      obtain ⟨i, hi, rfl⟩ := List.mem_mapIdx.1 he
      exact .node (by trivial) fun c hc => by rw [List.mem_singleton.1 hc]; exact hcallee
    · exact List.length_mapIdx

theorem closureOf_meets {func : String} {captured : List Expr}
    (h : ∀ e ∈ captured, e.Annotated env) :
    Meets I (closureOf func captured) (Expr.Annotated env) := by
  unfold closureOf
  refine (Meets.typesOf captured).bind fun types htypes => .pure (.node ?_ h)
  exact ⟨func, types, rfl, htypes.length_eq.symm⟩

/-- Resolving a callee gives an annotated closure, whatever the arguments are, and leaves annotated
arguments annotated. -/
theorem specializeCallee_meets (hI : SourceInvariant q I) (hspec : specialize.Keeps q I)
    {callee : Expr} (hcallee : callee.Annotated env) (hargs : ∀ a ∈ args, ∃ ty, a.ty? = some ty) :
    Meets I (specializeCallee specialize callee args) fun r =>
      r.1.Annotated env ∧ ((∀ a ∈ args, a.Annotated env) → ∀ a ∈ r.2.1, a.Annotated env) := by
  unfold specializeCallee
  refine (Meets.typeOf callee).bind fun ty hty => ?_
  split
  · rename_i name types
    obtain ⟨hcaptured, hlen⟩ := capturedValues_annotated hcallee hty
    refine Meets.get.bind fun s hs => .ite (fun _ => ?_) fun _ => ?_
    · refine (Meets.typesOf args).bind fun found _ => ?_
      refine (specializeClosure_meets hI hspec name types found).bind fun typed _ => .pure ?_
      exact ⟨.node ⟨name, types, rfl, hlen.symm⟩ hcaptured, id⟩
    · refine Meets.get.bind fun s hs => ?_
      refine (Meets.require (Q := fun decl => decl.Names q) fun _ h => hI.sources hs h).bind
        fun func hfunc => ?_
      refine .ite (fun _ => .fail _) fun hfew => ?_
      have hall : ∀ a ∈ capturedValues callee types ++ args, ∃ ty, a.ty? = some ty := by
        rw [List.forall_mem_append]
        exact ⟨fun e he => (hcaptured e he).typed, hargs⟩
      refine (bindExprs_meets func hall).bind fun bound hbound => ?_
      refine (paramTypes_meets bound).bind fun params hparams => ?_
      refine (hspec func params hfunc ?_).bind fun typed _ => ?_
      · exact params_satisfy hfunc (hparams.trans hbound.names)
      · show Meets I (do
          let closure ← closureOf typed.name ((bound.map (·.2)).take types.length)
          return (closure, (bound.map (·.2)).drop types.length, typed)) _
        -- The captured values fill leading parameters, so no argument becomes one of them.
        rw [hbound.take_captured hlen hfew]
        refine (closureOf_meets hcaptured).bind fun closure hclosure => .pure ⟨hclosure, ?_⟩
        intro hargs a ha
        refine (hbound.completed a (List.mem_of_mem_drop ha)).annotated ?_
        rw [List.forall_mem_append]
        exact ⟨hcaptured, hargs⟩
  · exact .fail _

theorem specializeElementwise_meets (hI : SourceInvariant q I) (hspec : specialize.Keeps q I)
    {func : Expr} (hfunc : func.Annotated env) (types : List Ty) :
    Meets I (specializeElementwise specialize func types) fun r => r.1.Annotated env := by
  unfold specializeElementwise
  refine (specializeCallee_meets hI hspec hfunc fun a ha => ?_).bind fun r hr => ?_
  · obtain ⟨ty, -, rfl⟩ := List.mem_map.1 ha
    exact ⟨ty, rfl⟩
  · exact .ite (fun _ => .pure hr.1) fun _ => .fail _

theorem settleAccumulator_meets (hI : SourceInvariant q I) (hspec : specialize.Keeps q I)
    {combine : Expr} (hcombine : combine.Annotated env) (element : Ty) (passes : Nat) (acc : Ty) :
    Meets I (settleAccumulator specialize combine element passes acc)
      fun r => r.1.Annotated env := by
  induction passes generalizing acc with
  | zero => exact .fail _
  | succ passes ih =>
    unfold settleAccumulator
    refine (specializeElementwise_meets hI hspec hcombine _).bind fun r hr => ?_
    refine (Meets.require_any _ _).bind fun joined _ => ?_
    exact .ite (fun _ => .pure hr) fun _ => ih joined

theorem declaredVar_meets (name : String) :
    Meets I (check (declaredVar? env name)) (Expr.Annotated env) := by
  refine Meets.check fun e h => ?_
  unfold declaredVar? at h
  split at h
  · cases h
    exact .node ‹_› fun _ hc => (List.not_mem_nil hc).elim
  · cases h

/-- The type of the first accumulator. -/
def SeedType (element : Ty) : Option Expr → Ty → Prop
  | some start, seed => start.ty? = some seed
  | none, seed => seed = element

/-- A walk goes on with the type of a starting value, or else of the first element. -/
theorem startType_meets {α : Type} {Q : α → Prop} {next : Ty → Typing α} (start? : Option Expr)
    (element : Ty) (h : ∀ seed, SeedType element start? seed → Meets I (next seed) Q) :
    Meets I (match start? with
      | some start => do next (← typeOf start)
      | none => do next (← pure element)) Q := by
  cases start? with
  | some start => exact (Meets.typeOf start).bind fun seed hseed => h seed hseed
  | none => exact h element rfl

/-- A walk goes on with the type of stacked results, or with that of a single one. -/
theorem stackedType_meets {α : Type} {Q : α → Prop} {next : Ty → Typing α} {c : Prop}
    [Decidable c] (r : Except TypingError Ty) (ty : Ty) (h : ∀ ty, Meets I (next ty) Q) :
    Meets I (if c then do next (← check r) else do next (← pure ty)) Q :=
  .ite (fun _ => (Meets.check_any r).bind fun ty _ => h ty) fun _ => h ty

end Annotate

/-! ## Annotating expressions -/

open Annotate TypingRule

section
variable {q : String → Prop} {I : Session → Prop} {specialize : Specializer} {env : TypeEnv}

mutual
/-- An annotated expression has types at all nodes and uses variables at their declared types. -/
theorem annotate_meets (hI : SourceInvariant q I) (hspec : specialize.Keeps q I) :
    ∀ e : Expr, (∀ name ∈ e.variables, q name) →
      Meets I (annotate specialize env e) (Expr.Annotated env)
  | ⟨.lit value, _⟩, _ => by
    rw [annotate]
    exact .pure (.literal value)
  | ⟨.var name, _⟩, _ => by
    rw [annotate]
    exact declaredVar_meets name
  | ⟨.tuple items, _⟩, he => by
    rw [annotate]
    refine (annotateAll_meets hI hspec items he).bind fun items hitems => ?_
    refine (Meets.typesOf items).bind fun types _ => ?_
    exact .pure (.node (by trivial) hitems)
  | ⟨.proj base i, _⟩, he => by
    rw [annotate]
    refine (annotate_meets hI hspec base he).bind fun base hbase => ?_
    refine (Meets.typeOf base).bind fun types _ => ?_
    refine (Meets.check_any _).bind fun ty _ => .pure ?_
    exact .node (by trivial) (List.forall_mem_singleton.2 hbase)
  | ⟨.array items, _⟩, he => by
    rw [annotate]
    refine (annotateAll_meets hI hspec items he).bind fun items hitems => ?_
    refine (Meets.typesOf items).bind fun types _ => ?_
    refine (Meets.check_any _).bind fun ty _ => .pure ?_
    exact .node (by trivial) hitems
  | ⟨.index base key, _⟩, he => by
    rw [Expr.variables, List.forall_mem_append] at he
    rw [annotate]
    refine (annotate_meets hI hspec base he.1).bind fun base hbase => ?_
    refine (annotate_meets hI hspec key he.2).bind fun key hkey => ?_
    refine (Meets.typeOf base).bind fun baseTy _ => ?_
    refine (Meets.typeOf key).bind fun keyTy _ => ?_
    refine (Meets.check_any _).bind fun ty _ => .pure ?_
    exact .node (by trivial) (List.forall_mem_cons.2 ⟨hbase, List.forall_mem_singleton.2 hkey⟩)
  | ⟨.slice start stop step, _⟩, he => by
    rw [Expr.variables, List.forall_mem_append, List.forall_mem_append] at he
    obtain ⟨⟨hstart, hstop⟩, hstep⟩ := he
    rw [annotate]
    refine (annotate_meets hI hspec start hstart).bind fun start hstart => ?_
    refine (annotate_meets hI hspec stop hstop).bind fun stop hstop => ?_
    refine (annotateOption_meets hI hspec step hstep).bind fun step? hstep => ?_
    have hstep : (step?.getD (literal (.int 1))).Annotated env := by
      cases step? with
      | none => exact .literal _
      | some step => exact hstep step rfl
    refine (Meets.typesOf _).bind fun types _ => ?_
    split
    · exact .fail _
    · refine (Meets.typeOf start).bind fun startTy _ => ?_
      refine (Meets.typeOf stop).bind fun stopTy _ => ?_
      refine (Meets.typeOf _).bind fun stepTy _ => .pure ?_
      refine .node (by trivial) (List.forall_mem_cons.2 ⟨hstart, List.forall_mem_cons.2 ⟨hstop, ?_⟩⟩)
      exact List.forall_mem_singleton.2 hstep
  | ⟨.attr base name, _⟩, he => by
    rw [annotate]
    refine (annotate_meets hI hspec base he).bind fun base hbase => ?_
    refine (Meets.typeOf base).bind fun types _ => ?_
    refine (Meets.check_any _).bind fun ty _ => .pure ?_
    exact .node (by trivial) (List.forall_mem_singleton.2 hbase)
  | ⟨.op op args, _⟩, he => by
    rw [annotate]
    refine (annotateAll_meets hI hspec args he).bind fun args hargs => ?_
    refine (Meets.typesOf args).bind fun types _ => ?_
    refine (Meets.check_any _).bind fun expected _ => .pure ?_
    exact .node (by trivial) hargs
  | ⟨.opValue op, _⟩, _ => by
    rw [annotate]
    exact .fail _
  | ⟨.call func args, _⟩, he => by
    rw [annotate]
    refine (annotateAll_meets hI hspec args he).bind fun args hargs => ?_
    exact annotateCall_meets hI hspec func hargs
  | ⟨.invoke callee args, _⟩, he => by
    rw [Expr.variables, List.forall_mem_append] at he
    rw [annotate]
    refine (annotate_meets hI hspec callee he.1).bind fun callee hcallee => ?_
    refine (annotateAll_meets hI hspec args he.2).bind fun args hargs => ?_
    refine (specializeCallee_meets hI hspec hcallee fun a ha => (hargs a ha).typed).bind
      fun r hr => .pure ?_
    exact .node (by trivial) (List.forall_mem_cons.2 ⟨hr.1, hr.2 hargs⟩)
  | ⟨.closure func captured, _⟩, he => by
    rw [annotate]
    refine Meets.get.bind fun s hs => .ite (fun _ => ?_) fun _ => .fail _
    refine (annotateAll_meets hI hspec captured he).bind fun captured hcaptured => ?_
    exact closureOf_meets hcaptured
  | ⟨.captured base i, _⟩, he => by
    rw [annotate]
    refine (annotate_meets hI hspec base he).bind fun base hbase => ?_
    refine (Meets.typeOf base).bind fun types _ => ?_
    refine (Meets.check_any _).bind fun ty _ => .pure ?_
    exact .node (by trivial) (List.forall_mem_singleton.2 hbase)
  | ⟨.lambda decl, _⟩, he => by
    rw [annotate]
    refine (Meets.modify fun s hs => hI.register hs he).bind fun _ _ => ?_
    refine (Meets.mapM_forall fun name _ => declaredVar_meets name).bind fun captured hcaptured => ?_
    exact closureOf_meets hcaptured
  | ⟨.cast value elt, _⟩, he => by
    rw [annotate]
    refine (annotate_meets hI hspec value he).bind fun value hvalue => ?_
    refine (Meets.typeOf value).bind fun types _ => ?_
    refine (Meets.check_any _).bind fun ty _ => .pure ?_
    exact .node (by trivial) (List.forall_mem_singleton.2 hvalue)
  | ⟨.struct name fields, _⟩, he => by
    rw [annotate]
    refine (annotateFields_meets hI hspec fields he).bind fun fields hfields => ?_
    refine (Meets.mapM_forall (Q := fun _ => True) fun p _ => ?_).bind fun types _ => .pure ?_
    · exact (Meets.typeOf p.2).bind fun _ _ => .pure trivial
    · exact .node (by trivial) (List.forall_mem_map.2 fun p hp => hfields p hp)
  | ⟨.alloc elt shape, _⟩, he => by
    rw [annotate]
    refine (annotate_meets hI hspec shape he).bind fun shape hshape => ?_
    refine (Meets.typeOf shape).bind fun types _ => ?_
    refine (Meets.check_any _).bind fun ty _ => .pure ?_
    exact .node (by trivial) (List.forall_mem_singleton.2 hshape)
  | ⟨.map func args axis, _⟩, he => by
    rw [Expr.variables, List.forall_mem_append, List.forall_mem_append] at he
    obtain ⟨⟨hfunc, hargs⟩, haxis⟩ := he
    rw [annotate]
    refine (Meets.check_any _).bind fun i _ => ?_
    refine (annotate_meets hI hspec axis haxis).bind fun axis haxis => ?_
    refine (annotate_meets hI hspec func hfunc).bind fun func hfunc => ?_
    refine (annotateAll_meets hI hspec args hargs).bind fun args hargs => ?_
    refine (Meets.typesOf args).bind fun types _ => ?_
    refine (Meets.check_any _).bind fun slices _ => ?_
    refine (specializeElementwise_meets hI hspec hfunc slices).bind fun r hr => ?_
    refine stackedType_meets _ _ fun ty => .pure (.node (by trivial) ?_)
    exact List.forall_mem_cons.2 ⟨hr,
      List.forall_mem_append.2 ⟨hargs, List.forall_mem_singleton.2 haxis⟩⟩
  | ⟨.allPairs func args axis, _⟩, he => by
    rw [Expr.variables, List.forall_mem_append, List.forall_mem_append] at he
    obtain ⟨⟨hfunc, hargs⟩, haxis⟩ := he
    rw [annotate]
    refine (Meets.check_any _).bind fun i _ => ?_
    refine (annotate_meets hI hspec axis haxis).bind fun axis haxis => ?_
    refine (annotate_meets hI hspec func hfunc).bind fun func hfunc => ?_
    refine (annotateAll_meets hI hspec args hargs).bind fun args hargs => ?_
    refine (Meets.typesOf args).bind fun types _ => .ite (fun _ => .fail _) fun _ => ?_
    refine (Meets.check_any _).bind fun slices _ => ?_
    refine (specializeElementwise_meets hI hspec hfunc slices).bind fun r hr => ?_
    refine (Meets.check_any _).bind fun ty _ => .pure (.node (by trivial) ?_)
    exact List.forall_mem_cons.2 ⟨hr,
      List.forall_mem_append.2 ⟨hargs, List.forall_mem_singleton.2 haxis⟩⟩
  | ⟨.reduce func combine start args axis, _⟩, he => by
    simp only [Expr.variables, List.forall_mem_append] at he
    obtain ⟨⟨⟨⟨hfunc, hcombine⟩, hstart⟩, hargs⟩, haxis⟩ := he
    rw [annotate]
    refine (Meets.check_any _).bind fun i _ => ?_
    refine (annotate_meets hI hspec axis haxis).bind fun axis haxis => ?_
    refine (annotate_meets hI hspec func hfunc).bind fun func hfunc => ?_
    refine (annotate_meets hI hspec combine hcombine).bind fun combine hcombine => ?_
    refine (annotateOption_meets hI hspec start hstart).bind fun start? hstart => ?_
    refine (annotateAll_meets hI hspec args hargs).bind fun args hargs => ?_
    refine (Meets.typesOf args).bind fun types _ => ?_
    refine (Meets.check_any _).bind fun slices _ => ?_
    refine (specializeElementwise_meets hI hspec hfunc slices).bind fun r hr => ?_
    refine startType_meets start? _ fun first _ => ?_
    refine (settleAccumulator_meets hI hspec hcombine _ _ first).bind fun r' hr' => .pure ?_
    refine .node (by trivial) (List.forall_mem_cons.2 ⟨hr, List.forall_mem_cons.2 ⟨hr', ?_⟩⟩)
    exact List.forall_mem_append.2 ⟨fun c hc => hstart c (Option.mem_toList.1 hc),
      List.forall_mem_append.2 ⟨hargs, List.forall_mem_singleton.2 haxis⟩⟩
  | ⟨.scan func combine emit start args axis, _⟩, he => by
    simp only [Expr.variables, List.forall_mem_append] at he
    obtain ⟨⟨⟨⟨⟨hfunc, hcombine⟩, hemit⟩, hstart⟩, hargs⟩, haxis⟩ := he
    rw [annotate]
    refine (Meets.check_any _).bind fun i _ => ?_
    refine (annotate_meets hI hspec axis haxis).bind fun axis haxis => ?_
    refine (annotate_meets hI hspec func hfunc).bind fun func hfunc => ?_
    refine (annotate_meets hI hspec combine hcombine).bind fun combine hcombine => ?_
    refine (annotate_meets hI hspec emit hemit).bind fun emit hemit => ?_
    refine (annotateOption_meets hI hspec start hstart).bind fun start? hstart => ?_
    refine (annotateAll_meets hI hspec args hargs).bind fun args hargs => ?_
    refine (Meets.typesOf args).bind fun types _ => ?_
    refine (Meets.check_any _).bind fun slices _ => ?_
    refine (specializeElementwise_meets hI hspec hfunc slices).bind fun r hr => ?_
    refine startType_meets start? _ fun first _ => ?_
    refine (settleAccumulator_meets hI hspec hcombine _ _ first).bind fun r' hr' => ?_
    refine (specializeElementwise_meets hI hspec hemit _).bind fun r'' hr'' => ?_
    refine stackedType_meets _ _ fun ty => .pure (.node (by trivial) ?_)
    refine List.forall_mem_cons.2 ⟨hr, List.forall_mem_cons.2 ⟨hr', List.forall_mem_cons.2
      ⟨hr'', ?_⟩⟩⟩
    exact List.forall_mem_append.2 ⟨fun c hc => hstart c (Option.mem_toList.1 hc),
      List.forall_mem_append.2 ⟨hargs, List.forall_mem_singleton.2 haxis⟩⟩
termination_by structural e => e

theorem annotateAll_meets (hI : SourceInvariant q I) (hspec : specialize.Keeps q I) :
    ∀ es : List Expr, (∀ name ∈ Expr.variablesAll es, q name) →
      Meets I (annotateAll specialize env es) fun es' => ∀ e ∈ es', e.Annotated env
  | [], _ => by
    rw [annotateAll]
    exact .pure fun _ h => (List.not_mem_nil h).elim
  | e :: es, hes => by
    rw [Expr.variablesAll, List.forall_mem_append] at hes
    rw [annotateAll]
    refine (annotate_meets hI hspec e hes.1).bind fun e he => ?_
    refine (annotateAll_meets hI hspec es hes.2).bind fun es hes => .pure ?_
    exact List.forall_mem_cons.2 ⟨he, hes⟩
termination_by structural es => es

theorem annotateOption_meets (hI : SourceInvariant q I) (hspec : specialize.Keeps q I) :
    ∀ e? : Option Expr, (∀ name ∈ Expr.variablesOption e?, q name) →
      Meets I (annotateOption specialize env e?) fun e?' => ∀ e ∈ e?', e.Annotated env
  | none, _ => by
    rw [annotateOption]
    exact .pure fun _ h => by cases h
  | some e, he => by
    rw [annotateOption]
    refine (annotate_meets hI hspec e he).bind fun e he => .pure ?_
    intro e' he'
    cases he'
    exact he
termination_by structural e? => e?

theorem annotateFields_meets (hI : SourceInvariant q I) (hspec : specialize.Keeps q I) :
    ∀ fields : List (String × Expr), (∀ name ∈ Expr.variablesFields fields, q name) →
      Meets I (annotateFields specialize env fields) fun fields' =>
        ∀ p ∈ fields', p.2.Annotated env
  | [], _ => by
    rw [annotateFields]
    exact .pure fun _ h => (List.not_mem_nil h).elim
  | (_, e) :: fields, h => by
    rw [Expr.variablesFields, List.forall_mem_append] at h
    rw [annotateFields]
    refine (annotate_meets hI hspec e h.1).bind fun e he => ?_
    refine (annotateFields_meets hI hspec fields h.2).bind fun fields hfields => .pure ?_
    exact List.forall_mem_cons.2 ⟨he, hfields⟩
termination_by structural fields => fields
end

end
end ArrayLang
