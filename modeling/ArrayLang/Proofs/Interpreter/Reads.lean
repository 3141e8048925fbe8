import ArrayLang.Proofs.Interpreter.AlikeExpression
import ArrayLang.Proofs.Run

/-!
# What evaluation reads

An expression has the same meaning, as a computation, wherever the variables that it reads have the
same values.
-/

namespace ArrayLang

variable {p : String → Prop} {env env' env'' : Env}

/-- The variables that satisfy `p` have the same values, or have none in both. -/
def Env.Agree (p : String → Prop) (env env' : Env) : Prop :=
  ∀ x, p x → env.find? x = env'.find? x

namespace Env.Agree

theorem refl (env : Env) : Agree p env env :=
  fun _ _ => rfl

theorem trans (h : Agree p env env') (h' : Agree p env' env'') : Agree p env env'' :=
  fun x hx => (h x hx).trans (h' x hx)

/-- Variables outside of `p` may be bound. -/
theorem insert {name : String} (h : Agree p env env') (hname : ¬p name) (v : Value) :
    Agree p env (env'.insert name v) := by
  intro x hx
  have hne : x ≠ name := fun heq => hname (heq ▸ hx)
  rw [NameMap.find?_insert, if_neg hne]
  exact h x hx

theorem insertAll {names : List String} (h : Agree p env env') (hnames : ∀ name ∈ names, ¬p name)
    (values : List Value) : Agree p env (env'.insertAll (names.zip values)) := by
  induction names generalizing values env' with
  | nil => exact h
  | cons name names ih =>
    rw [List.forall_mem_cons] at hnames
    cases values with
    | nil => exact h
    | cons v values => exact ih (h.insert hnames.1 v) hnames.2 values

end Env.Agree

namespace Interpreter

variable {apply : Apply} {trace : Trace}

/-- A variable that has a value is read without an effect. -/
theorem exec_var {x : String} {value : Value} (hx : env.find? x = some value) (ty? : Option Ty)
    (σ : State Session) : Run.exec (evalExpr apply trace env ⟨.var x, ty?⟩) σ = (.ok value, σ) := by
  show Run.exec (readVar trace env x) σ = _
  unfold readVar
  rw [hx]
  rfl

theorem readVar_congr (h : env.Agree p env') {name : String} (hname : p name) :
    readVar trace env name = readVar trace env' name := by
  unfold readVar
  rw [h name hname]

theorem captureAll_congr (h : env.Agree p env') (hp : ∀ name, p name) :
    captureAll trace env = captureAll trace env' := by
  funext names
  unfold captureAll
  refine congrArg (List.mapM · names) (funext fun name => ?_)
  rw [h name (hp name)]

mutual
/-- Evaluation depends on the variables that the expression reads. -/
theorem evalExpr_congr (h : env.Agree p env') : ∀ e : Expr, e.ReadsOnly p →
    evalExpr apply trace env e = evalExpr apply trace env' e
  | ⟨.lit value, _⟩, _ | ⟨.opValue value, _⟩, _ => by
    rw [evalExpr, evalExpr]
  | ⟨.var name, _⟩, he => by
    rw [evalExpr, evalExpr]
    exact readVar_congr h (Expr.Forall.self he)
  | ⟨.lambda decl, _⟩, he => by
    rw [evalExpr, evalExpr, captureAll_congr h (Expr.Forall.self he)]
  | ⟨.tuple items, _⟩, he | ⟨.array items, _⟩, he | ⟨.op _ items, _⟩, he
  | ⟨.call _ items, _⟩, he | ⟨.closure _ items, _⟩, he => by
    rw [evalExpr, evalExpr, evalExprs_congr h items fun c hc => he.child hc]
  | ⟨.proj base _, _⟩, he | ⟨.attr base _, _⟩, he | ⟨.captured base _, _⟩, he
  | ⟨.cast base _, _⟩, he => by
    rw [evalExpr, evalExpr, evalExpr_congr h base (he.child List.mem_cons_self)]
  | ⟨.alloc _ shape, _⟩, he => by
    rw [evalExpr, evalExpr, evalExpr_congr h shape (he.child List.mem_cons_self)]
  | ⟨.index base key, _⟩, he => by
    rw [evalExpr, evalExpr, evalExpr_congr h base (he.child List.mem_cons_self),
      evalExpr_congr h key (he.child (List.mem_cons_of_mem _ List.mem_cons_self))]
  | ⟨.slice start stop step, _⟩, he => by
    rw [evalExpr, evalExpr, evalExpr_congr h start (he.child List.mem_cons_self),
      evalExpr_congr h stop (he.child (List.mem_cons_of_mem _ List.mem_cons_self)),
      evalOption_congr h step fun c hc =>
        he.child (List.mem_cons_of_mem _ (List.mem_cons_of_mem _ hc))]
  | ⟨.invoke callee args, _⟩, he => by
    rw [evalExpr, evalExpr, evalExpr_congr h callee (he.child List.mem_cons_self),
      evalExprs_congr h args fun c hc => he.child (List.mem_cons_of_mem _ hc)]
  | ⟨.struct name fields, _⟩, he => by
    rw [evalExpr, evalExpr, evalFields_congr h fields fun q hq => he.child (List.mem_map_of_mem hq)]
  | ⟨.map func args axis, _⟩, he | ⟨.allPairs func args axis, _⟩, he => by
    have hargs : ∀ c ∈ args ++ [axis], c.ReadsOnly p :=
      fun c hc => he.child (List.mem_cons_of_mem _ hc)
    rw [List.forall_mem_append] at hargs
    rw [evalExpr, evalExpr, evalExpr_congr h func (he.child List.mem_cons_self),
      evalExprs_congr h args hargs.1, evalExpr_congr h axis (hargs.2 _ List.mem_cons_self)]
  | ⟨.reduce func combine start args axis, _⟩, he => by
    have hrest : ∀ c ∈ start.toList ++ (args ++ [axis]), c.ReadsOnly p :=
      fun c hc => he.child (List.mem_cons_of_mem _ (List.mem_cons_of_mem _ hc))
    rw [List.forall_mem_append, List.forall_mem_append] at hrest
    rw [evalExpr, evalExpr, evalExpr_congr h func (he.child List.mem_cons_self),
      evalExpr_congr h combine (he.child (List.mem_cons_of_mem _ List.mem_cons_self)),
      evalOption_congr h start hrest.1, evalExprs_congr h args hrest.2.1,
      evalExpr_congr h axis (hrest.2.2 _ List.mem_cons_self)]
  | ⟨.scan func combine emit start args axis, _⟩, he => by
    have hrest : ∀ c ∈ start.toList ++ (args ++ [axis]), c.ReadsOnly p := fun c hc =>
      he.child (List.mem_cons_of_mem _ (List.mem_cons_of_mem _ (List.mem_cons_of_mem _ hc)))
    rw [List.forall_mem_append, List.forall_mem_append] at hrest
    rw [evalExpr, evalExpr, evalExpr_congr h func (he.child List.mem_cons_self),
      evalExpr_congr h combine (he.child (List.mem_cons_of_mem _ List.mem_cons_self)),
      evalExpr_congr h emit
        (he.child (List.mem_cons_of_mem _ (List.mem_cons_of_mem _ List.mem_cons_self))),
      evalOption_congr h start hrest.1, evalExprs_congr h args hrest.2.1,
      evalExpr_congr h axis (hrest.2.2 _ List.mem_cons_self)]
termination_by structural e => e

theorem evalExprs_congr (h : env.Agree p env') : ∀ es : List Expr, (∀ e ∈ es, e.ReadsOnly p) →
    evalExprs apply trace env es = evalExprs apply trace env' es
  | [], _ => by
    rw [evalExprs, evalExprs]
  | e :: es, hes => by
    rw [List.forall_mem_cons] at hes
    rw [evalExprs, evalExprs, evalExpr_congr h e hes.1, evalExprs_congr h es hes.2]
termination_by structural es => es

theorem evalOption_congr (h : env.Agree p env') :
    ∀ e? : Option Expr, (∀ e ∈ e?.toList, e.ReadsOnly p) →
      evalOption apply trace env e? = evalOption apply trace env' e?
  | none, _ => by
    rw [evalOption, evalOption]
  | some e, he => by
    rw [evalOption, evalOption, evalExpr_congr h e (he e List.mem_cons_self)]
termination_by structural e? => e?

theorem evalFields_congr (h : env.Agree p env') :
    ∀ fields : List (String × Expr), (∀ q ∈ fields, q.2.ReadsOnly p) →
      evalFields apply trace env fields = evalFields apply trace env' fields
  | [], _ => by
    rw [evalFields, evalFields]
  | (_, e) :: fields, hfields => by
    rw [List.forall_mem_cons] at hfields
    rw [evalFields, evalFields, evalExpr_congr h e hfields.1, evalFields_congr h fields hfields.2]
termination_by structural fields => fields
end

end Interpreter
end ArrayLang
