import ArrayLang.Proofs.SymbolicShape.Integral

/-!
# Inferred shapes have values

Shape inference keeps every scalar and dimension of its abstract values an integer or unknown, through
calls, loops and joins. A shape that it gives for a function's result is not unknown anywhere, so that
on arguments of the function's parameter types it has a value. The one thing that can be in the way is
a closure in the shape, which has no value. Variables are bound, entries are in range, and arithmetic
is on integers, whatever the code and the session are, well typed or not.

## Main results

- `ShapeInference.gives_inferFn`: what is inferred for a call of integral arguments is integral.
- `resultShape_evalOn`: an inferred shape has a value, or mentions a closure.
-/

namespace ArrayLang

open AbstractValue Outcome

variable {b : ShapeBindings}

namespace ShapeInference

/-! ## Environments -/

/-- All values of the variables are integral. -/
def EnvIntegral (b : ShapeBindings) (env : AbstractEnv) : Prop :=
  ∀ e ∈ env.entries, e.2.Integral b

variable {env env' : AbstractEnv} {v : AbstractValue}

namespace EnvIntegral

theorem find? {name : String} (h : EnvIntegral b env) (hv : env.find? name = some v) :
    v.Integral b := by
  obtain ⟨before, after, heq, -⟩ := List.lookup_eq_some_iff.1 hv
  exact h (name, v) (heq ▸ List.mem_append_right before List.mem_cons_self)

theorem insert (h : EnvIntegral b env) (name : String) (hv : v.Integral b) :
    EnvIntegral b (env.insert name v) := by
  intro e he
  rcases NameMap.mem_insertEntry he with rfl | hold
  · exact hv
  · exact h e hold

theorem insertAll {pairs : List (String × AbstractValue)} (h : EnvIntegral b env)
    (hpairs : ∀ e ∈ pairs, e.2.Integral b) : EnvIntegral b (env.insertAll pairs) := by
  induction pairs generalizing env with
  | nil => exact h
  | cons e pairs ih =>
    obtain ⟨he, hpairs⟩ := List.forall_mem_cons.1 hpairs
    exact ih (h.insert e.1 he) hpairs

theorem joinEnv (h : EnvIntegral b env) (h' : EnvIntegral b env') :
    EnvIntegral b (joinEnv env env') := by
  have hentries : ∀ e ∈ env'.entries, e.2.Integral b := h'
  unfold ShapeInference.joinEnv
  generalize env'.entries = entries at hentries
  induction entries generalizing env with
  | nil => exact h
  | cons e entries ih =>
    obtain ⟨name, value⟩ := e
    obtain ⟨hvalue, hrest⟩ := List.forall_mem_cons.1 hentries
    rw [List.foldl_cons]
    refine ih ?_ hrest
    dsimp only
    cases hknown : env.find? name with
    | none => exact h.insert name hvalue
    | some known => exact h.insert name ((h.find? hknown).join value)

end EnvIntegral

/-- The variables are integral, and so is what was returned so far. -/
structure Frame.Integral (b : ShapeBindings) (frame : Frame) : Prop where
  env : EnvIntegral b frame.env
  returned : ∀ v ∈ frame.returned?, v.Integral b

namespace Frame.Integral

variable {frame : Frame}

theorem recordReturn (h : frame.Integral b) (hv : v.Integral b) :
    (frame.recordReturn v).Integral b := by
  refine ⟨h.env, fun w hw => ?_⟩
  cases hw
  cases hknown : frame.returned? with
  | none => exact hv
  | some known => exact (h.returned known hknown).join v

theorem recordReturn? {v? : Option AbstractValue} (h : frame.Integral b)
    (hv : ∀ v ∈ v?, v.Integral b) : (frame.recordReturn? v?).Integral b := by
  cases v? with
  | none => exact h
  | some v => exact h.recordReturn (hv v rfl)

end Frame.Integral

/-! ## Expressions -/

/-- Calls with integral arguments give integral results. -/
def CallIntegral (b : ShapeBindings) (call : Call) : Prop :=
  ∀ name args, (∀ v ∈ args, v.Integral b) → Gives (·.Integral b) (call name args)

variable {call : Call}

theorem gives_invoke {callee : AbstractValue} {args : List AbstractValue}
    (hcall : CallIntegral b call) (hcallee : callee.Integral b) (hargs : ∀ v ∈ args, v.Integral b) :
    Gives (·.Integral b) (invoke call callee args) := by
  cases callee with
  | closure func fixed =>
    refine hcall func _ fun v hv => ?_
    rcases List.mem_append.1 hv with hv | hv
    · exact integral_closure.1 hcallee v hv
    · exact hargs v hv
  | _ => exact .error _

/-- A fold combines what it has accumulated with an element. -/
theorem gives_combine {combine acc element : AbstractValue} (hcall : CallIntegral b call)
    (hcombine : combine.Integral b) (hacc : acc.Integral b) (helement : element.Integral b) :
    Gives (·.Integral b) (invoke call combine [acc, element]) :=
  gives_invoke hcall hcombine
    (List.forall_mem_cons.2 ⟨hacc, List.forall_mem_singleton.2 helement⟩)

theorem gives_sliceBound {missing : SymbolicShape} {bound : Expr}
    {inferred : Except ShapeInferError AbstractValue} (hmissing : missing.Integral b)
    (h : Gives (·.Integral b) inferred) :
    Gives (·.Integral b) (sliceBound missing bound inferred) := by
  have hvalue : Gives (·.Integral b) (inferred.map value) := h.map fun v hv => hv.value
  unfold sliceBound
  split
  · exact .ok hmissing
  · split
    · exact .ok .unknown
    · exact hvalue
  · exact hvalue

theorem integral_head? {dims : List SymbolicShape} (h : ∀ d ∈ dims, d.Integral b) :
    (dims.head?.getD .unknown).Integral b :=
  .getD (fun d hd => h d (List.mem_of_head? hd)) .unknown

theorem integral_slices {args : List AbstractValue} (h : ∀ v ∈ args, v.Integral b) (axis : Nat) :
    ∀ v ∈ args.map (sliceArg axis), v.Integral b := by
  intro v hv
  obtain ⟨w, hw, rfl⟩ := List.mem_map.1 hv
  exact integral_sliceArg (h w hw) axis

/-- The result of an adverb: one element, or a stack of them. -/
theorem integral_stacked {args : List AbstractValue} (h : ∀ v ∈ args, v.Integral b) (axis : Nat)
    (hv : v.Integral b) :
    (if args.any isArray then stackElement v (axisLength axis args) axis else v).Integral b := by
  split
  · exact integral_stackElement hv (integral_axisLength h axis) axis
  · exact hv

mutual
/-- An expression of integral variables is integral. -/
theorem gives_inferExpr (hcall : CallIntegral b call) (henv : EnvIntegral b env) :
    ∀ e : Expr, Gives (·.Integral b) (inferExpr call env e)
  | ⟨.lit value, ty?⟩ => by
    cases value with
    | int n =>
      rw [inferExpr]
      exact .of_bind fun _ => .ok (.const n)
    | none =>
      rw [inferExpr]
      exact .of_bind fun _ => .ok trivial
    | _ =>
      simp only [inferExpr]
      exact .of_bind fun _ => .ok .unknown
  | ⟨.var name, ty?⟩ => by
    rw [inferExpr]
    exact .of_bind fun ty => .ok (integral_getD (fun v hv => henv.find? hv) (integral_unknownOf ty))
  | ⟨.tuple items, ty?⟩ => by
    rw [inferExpr]
    exact .of_bind fun _ => (gives_inferExprs hcall henv items).bind fun vs hvs =>
      .ok (integral_tuple.2 hvs)
  | ⟨.proj base i, ty?⟩ => by
    rw [inferExpr]
    refine .of_bind fun ty => (gives_inferExpr hcall henv base).bind fun v hv => ?_
    cases v with
    | tuple items =>
      have hget : ∀ w ∈ items[i]?, w.Integral b :=
        fun w hw => integral_tuple.1 hv w (List.mem_of_getElem? hw)
      exact .ok (integral_getD hget (integral_unknownOf ty))
    | _ => exact .ok (integral_unknownOf ty)
  | ⟨.array items, ty?⟩ => by
    rw [inferExpr]
    exact .of_bind fun _ => (gives_inferExprs hcall henv items).bind fun vs hvs =>
      .ok (integral_literalResult hvs)
  | ⟨.index base index, ty?⟩ => by
    rw [inferExpr]
    refine .of_bind fun ty => (gives_inferExpr hcall henv base).bind fun v hv => ?_
    cases v with
    | array dims =>
      have hdrop (n : Nat) : ∀ d ∈ dims.drop n, d.Integral b :=
        fun d hd => hv d (List.mem_of_mem_drop hd)
      dsimp only
      split
      · exact (gives_sliceExtents hcall henv _ hv).bind fun kept hkept =>
          .ok (integral_selected (List.forall_mem_append.2 ⟨hkept, hdrop _⟩))
      · exact (gives_sliceExtent hcall henv index (integral_head? hv)).bind fun kept hkept =>
          .ok (integral_selected (List.forall_mem_append.2 ⟨hkept, hdrop 1⟩))
    | tuple items =>
      dsimp only
      split
      · exact .ok (integral_tupleItem (integral_tuple.1 hv) _ ty)
      · exact .ok (integral_unknownOf ty)
    | _ => exact .ok (integral_unknownOf ty)
  | ⟨.slice _ _ _, ty?⟩ => by
    rw [inferExpr]
    exact .of_bind fun _ => .ok trivial
  | ⟨.attr base name, ty?⟩ => by
    rw [inferExpr]
    refine .of_bind fun ty => (gives_inferExpr hcall henv base).bind fun v hv => ?_
    cases v with
    | tuple items => exact .of_bind fun baseTy => .ok (integral_attributeResult hv baseTy name ty)
    | _ => exact .ok (integral_attributeResult hv .none name ty)
  | ⟨.op op args, ty?⟩ => by
    rw [inferExpr]
    exact .of_bind fun ty => (gives_inferExprs hcall henv args).bind fun vs hvs =>
      .ok (integral_operatorResult op ty hvs)
  | ⟨.opValue _, ty?⟩ => by
    rw [inferExpr]
    exact .of_bind fun _ => .ok trivial
  | ⟨.lambda _, ty?⟩ => by
    rw [inferExpr]
    exact .of_bind fun _ => .ok trivial
  | ⟨.call func args, ty?⟩ => by
    rw [inferExpr]
    exact .of_bind fun _ => (gives_inferExprs hcall henv args).bind fun vs hvs => hcall func vs hvs
  | ⟨.invoke callee args, ty?⟩ => by
    rw [inferExpr]
    exact .of_bind fun _ => (gives_inferExpr hcall henv callee).bind fun v hv =>
      (gives_inferExprs hcall henv args).bind fun vs hvs => gives_invoke hcall hv hvs
  | ⟨.closure func captured, ty?⟩ => by
    rw [inferExpr]
    exact .of_bind fun _ => (gives_inferExprs hcall henv captured).bind fun vs hvs =>
      .ok (integral_closure.2 hvs)
  | ⟨.captured base i, ty?⟩ => by
    rw [inferExpr]
    refine .of_bind fun ty => (gives_inferExpr hcall henv base).bind fun v hv => ?_
    cases v with
    | closure func captured =>
      have hget : ∀ w ∈ captured[i]?, w.Integral b :=
        fun w hw => integral_closure.1 hv w (List.mem_of_getElem? hw)
      exact .ok (integral_getD hget (integral_unknownOf ty))
    | _ => exact .ok (integral_unknownOf ty)
  | ⟨.cast value _, ty?⟩ => by
    rw [inferExpr]
    refine .of_bind fun ty => (gives_inferExpr hcall henv value).bind fun v hv => ?_
    cases v with
    | scalar s =>
      refine .ok ?_
      split
      · exact hv
      · exact .unknown
    | _ => exact .ok hv
  | ⟨.struct _ fields, ty?⟩ => by
    rw [inferExpr]
    exact .of_bind fun _ => (gives_inferFields hcall henv fields).bind fun vs hvs =>
      .ok (integral_tuple.2 hvs)
  | ⟨.alloc _ shape, ty?⟩ => by
    rw [inferExpr]
    exact .of_bind fun ty => (gives_inferExpr hcall henv shape).bind fun v hv =>
      .ok (integral_allocResult hv ty)
  | ⟨.map func args axis, ty?⟩ => by
    rw [inferExpr]
    refine .of_bind fun _ => .of_bind fun axis => (gives_inferExpr hcall henv func).bind fun f hf => ?_
    refine (gives_inferExprs hcall henv args).bind fun vs hvs => ?_
    exact (gives_invoke hcall hf (integral_slices hvs axis)).bind fun v hv =>
      .ok (integral_stacked hvs axis hv)
  | ⟨.allPairs func args axis, ty?⟩ => by
    rw [inferExpr]
    refine .of_bind fun ty => .of_bind fun axis => (gives_inferExpr hcall henv func).bind fun f hf => ?_
    refine (gives_inferExprs hcall henv args).bind fun vs hvs => ?_
    split
    · rename_i x y
      obtain ⟨hx, hy⟩ : x.Integral b ∧ y.Integral b := by simpa using hvs
      have hnx : (axisLength axis [x]).Integral b :=
        integral_axisLength (List.forall_mem_singleton.2 hx) axis
      have hny : (axisLength axis [y]).Integral b :=
        integral_axisLength (List.forall_mem_singleton.2 hy) axis
      refine (gives_invoke hcall hf (integral_slices hvs axis)).bind fun v hv => ?_
      cases v with
      | scalar s =>
        exact .ok (List.forall_mem_cons.2 ⟨hnx, List.forall_mem_singleton.2 hny⟩)
      | array dims =>
        exact .ok (List.forall_mem_cons.2 ⟨hnx, List.forall_mem_cons.2 ⟨hny, hv⟩⟩)
      | _ => exact .ok (integral_unknownOf ty)
    · exact .ok (integral_unknownOf ty)
  | ⟨.reduce func combine start args axis, ty?⟩ => by
    rw [inferExpr]
    refine .of_bind fun _ => .of_bind fun axis => (gives_inferExpr hcall henv func).bind fun f hf => ?_
    refine (gives_inferExpr hcall henv combine).bind fun c hc =>
      (gives_inferExprs hcall henv args).bind fun vs hvs => ?_
    refine (gives_invoke hcall hf (integral_slices hvs axis)).bind fun v hv => ?_
    refine (gives_inferOption hcall henv start).bind fun start? hstart => ?_
    have hacc : (start?.getD v).Integral b := integral_getD hstart hv
    exact (gives_combine hcall hc hacc hv).bind fun w hw => .ok (hacc.join w)
  | ⟨.scan func combine emit start args axis, ty?⟩ => by
    rw [inferExpr]
    refine .of_bind fun _ => .of_bind fun axis => (gives_inferExpr hcall henv func).bind fun f hf => ?_
    refine (gives_inferExpr hcall henv combine).bind fun c hc =>
      (gives_inferExpr hcall henv emit).bind fun e he => ?_
    refine (gives_inferExprs hcall henv args).bind fun vs hvs => ?_
    refine (gives_invoke hcall hf (integral_slices hvs axis)).bind fun v hv => ?_
    refine (gives_inferOption hcall henv start).bind fun start? hstart => ?_
    have hacc : (start?.getD v).Integral b := integral_getD hstart hv
    refine (gives_combine hcall hc hacc hv).bind fun w hw => ?_
    refine (gives_invoke hcall he (List.forall_mem_singleton.2 (hacc.join w))).bind fun u hu => ?_
    exact .ok (integral_stacked hvs axis hu)
termination_by e => sizeOf e

theorem gives_inferExprs (hcall : CallIntegral b call) (henv : EnvIntegral b env) :
    ∀ es : List Expr,
      Gives (fun vs => ∀ v ∈ vs, v.Integral b) (inferExprs call env es)
  | [] => .ok fun _ hv => (List.not_mem_nil hv).elim
  | e :: es => by
    rw [inferExprs]
    exact (gives_inferExpr hcall henv e).bind fun v hv =>
      (gives_inferExprs hcall henv es).bind fun vs hvs =>
      .ok (List.forall_mem_cons.2 ⟨hv, hvs⟩)
termination_by es => sizeOf es

theorem gives_inferOption (hcall : CallIntegral b call) (henv : EnvIntegral b env) :
    ∀ e? : Option Expr,
      Gives (fun v? => ∀ v ∈ v?, v.Integral b) (inferOption call env e?)
  | none => .ok fun _ hv => nomatch hv
  | some e => by
    rw [inferOption]
    refine (gives_inferExpr hcall henv e).bind fun v hv => .ok fun w hw => ?_
    cases hw
    exact hv
termination_by e? => sizeOf e?

theorem gives_inferFields (hcall : CallIntegral b call) (henv : EnvIntegral b env) :
    ∀ fields : List (String × Expr),
      Gives (fun vs => ∀ v ∈ vs, v.Integral b) (inferFields call env fields)
  | [] => .ok fun _ hv => (List.not_mem_nil hv).elim
  | (_, e) :: fields => by
    rw [inferFields]
    exact (gives_inferExpr hcall henv e).bind fun v hv =>
      (gives_inferFields hcall henv fields).bind fun vs hvs =>
      .ok (List.forall_mem_cons.2 ⟨hv, hvs⟩)
termination_by fields => sizeOf fields

theorem gives_sliceExtent (hcall : CallIntegral b call) (henv : EnvIntegral b env) :
    ∀ {dim? : Option SymbolicShape} (e : Expr),
      (dim?.getD .unknown).Integral b →
      Gives (fun ds => ∀ d ∈ ds, d.Integral b) (sliceExtent call env dim? e)
  | dim?, ⟨node, ty?⟩, hdim => by
    have hunknown : ∀ d ∈ [SymbolicShape.unknown], d.Integral b :=
      List.forall_mem_singleton.2 .unknown
    have hnone : ∀ d ∈ ([] : List SymbolicShape), d.Integral b :=
      fun _ hd => (List.not_mem_nil hd).elim
    cases node with
    | slice start stop step =>
      rw [sliceExtent]
      refine .of_bind fun ty => ?_
      split
      · split
        · refine (gives_sliceBound (.const 0) (gives_inferExpr hcall henv start)).bind
            fun low hlow => ?_
          refine (gives_sliceBound hdim (gives_inferExpr hcall henv stop)).bind fun high hhigh => ?_
          exact .ok (List.forall_mem_singleton.2 (hhigh.fold .sub hlow))
        · exact .ok hunknown
      · exact .ok hnone
    | _ =>
      simp only [sliceExtent]
      refine .of_bind fun ty => ?_
      split
      · exact .ok hunknown
      · exact .ok hnone
termination_by _ e => sizeOf e

theorem gives_sliceExtents (hcall : CallIntegral b call) (henv : EnvIntegral b env) :
    ∀ {dims : List SymbolicShape} (es : List Expr),
      (∀ d ∈ dims, d.Integral b) →
      Gives (fun ds => ∀ d ∈ ds, d.Integral b) (sliceExtents call env dims es)
  | _, [], _ => .ok fun _ hd => (List.not_mem_nil hd).elim
  | dims, e :: es, hdims => by
    rw [sliceExtents]
    refine (gives_sliceExtent hcall henv e (integral_head? hdims)).bind fun kept hkept => ?_
    have htail : ∀ d ∈ dims.tail, d.Integral b := fun d hd => hdims d (List.mem_of_mem_tail hd)
    exact (gives_sliceExtents hcall henv es htail).bind fun rest hrest =>
      .ok (List.forall_mem_append.2 ⟨hkept, hrest⟩)
termination_by _ es => sizeOf es
end

/-! ## Statements -/

mutual
theorem gives_bindTarget : ∀ (target : Expr) {v : AbstractValue} {env : AbstractEnv},
    v.Integral b → EnvIntegral b env → Gives (EnvIntegral b) (bindTarget target v env)
  | ⟨node, ty?⟩, v, env, hv, henv => by
    cases node with
    | var name => exact .ok (henv.insert name hv)
    | tuple targets =>
      cases v with
      | tuple items => exact gives_bindTargets targets (integral_tuple.1 hv) henv
      | _ => exact gives_bindTargets targets (fun _ hv => (List.not_mem_nil hv).elim) henv
    | _ => exact .ok henv
termination_by target => sizeOf target

theorem gives_bindTargets : ∀ (targets : List Expr) {vs : List AbstractValue} {env : AbstractEnv},
    (∀ v ∈ vs, v.Integral b) → EnvIntegral b env →
      Gives (EnvIntegral b) (bindTargets targets vs env)
  | [], _, _, _, henv => .ok henv
  | target :: targets, v :: vs, _, hvs, henv => by
    obtain ⟨hv, hvs⟩ := List.forall_mem_cons.1 hvs
    rw [bindTargets]
    exact (gives_bindTarget target hv henv).bind fun _ henv => gives_bindTargets targets hvs henv
  | target :: targets, [], _, hvs, henv => by
    rw [bindTargets]
    exact .of_bind fun ty => (gives_bindTarget target (integral_unknownOf ty) henv).bind
      fun _ henv => gives_bindTargets targets hvs henv
termination_by targets => sizeOf targets
end

/-- A loop whose passes keep the state integral settles in an integral state. -/
theorem gives_settleLoop {func : String} {pass : Frame → Except ShapeInferError Frame}
    (hpass : ∀ frame, frame.Integral b → Gives (Frame.Integral b) (pass frame)) (passes : Nat)
    {frame : Frame} (hframe : frame.Integral b) :
    Gives (Frame.Integral b) (settleLoop func pass passes frame) := by
  induction passes generalizing frame with
  | zero => exact .error _
  | succ passes ih =>
    rw [settleLoop]
    refine (hpass frame hframe).bind fun after hafter => ?_
    have hnext := hframe.recordReturn? hafter.returned
    dsimp only
    -- Either the pass changed nothing, or the next one starts from the join.
    split
    · exact .ok hnext
    · exact ih ⟨hframe.env.joinEnv hafter.env, hnext.returned⟩

theorem gives_bindSides (hcall : CallIntegral b call) (side : Phi → Expr) (merge : List Phi)
    (henv : EnvIntegral b env) :
    Gives (EnvIntegral b) (bindSides call side merge env) := by
  refine Gives.foldlM (fun env phi _ henv => ?_) henv
  exact (gives_inferExpr hcall henv (side phi)).bind fun v hv => .ok (henv.insert phi.name hv)

mutual
/-- A statement keeps the state integral. -/
theorem gives_inferStmt (hcall : CallIntegral b call) (func : String) :
    ∀ (s : Stmt) {frame : Frame}, frame.Integral b →
      Gives (Frame.Integral b) (inferStmt call func s frame)
  | .assign target value, frame, hframe => by
    rw [inferStmt]
    refine (gives_inferExpr hcall hframe.env value).bind fun v hv => ?_
    exact (gives_bindTarget target hv hframe.env).bind fun env henv =>
      .ok ⟨henv, hframe.returned⟩
  | .ret value, frame, hframe => by
    rw [inferStmt]
    exact (gives_inferExpr hcall hframe.env value).bind fun v hv => .ok (hframe.recordReturn hv)
  | .branch _ onTrue onFalse merge, frame, hframe => by
    rw [inferStmt]
    refine (gives_inferBlock hcall func onTrue hframe).bind fun whenTrue htrue => ?_
    refine (gives_inferBlock hcall func onFalse hframe).bind fun whenFalse hfalse => ?_
    refine Gives.bind (P := fun merged => ∀ e ∈ merged, e.2.Integral b)
      (Gives.mapM fun phi _ => ?_) fun merged hmerged => ?_
    · refine (gives_inferExpr hcall htrue.env phi.left).bind fun left hleft => ?_
      exact .of_bind fun right => .ok (hleft.join right)
    · have henv := (htrue.env.joinEnv hfalse.env).insertAll hmerged
      have hmet : Frame.Integral b { frame with env := _ } := ⟨henv, hframe.returned⟩
      exact .ok ((hmet.recordReturn? htrue.returned).recordReturn? hfalse.returned)
  | .loop _ body merge, frame, hframe => by
    rw [inferStmt]
    refine (gives_bindSides hcall Phi.left merge hframe.env).bind fun env henv => ?_
    refine gives_settleLoop (fun frame hframe => ?_) loopPasses ⟨henv, hframe.returned⟩
    refine (gives_inferBlock hcall func body hframe).bind fun after hafter => ?_
    exact (gives_bindSides hcall Phi.right merge hafter.env).bind fun env henv =>
      .ok ⟨henv, hafter.returned⟩
termination_by structural s => s

theorem gives_inferBlock (hcall : CallIntegral b call) (func : String) :
    ∀ (ss : List Stmt) {frame : Frame}, frame.Integral b →
      Gives (Frame.Integral b) (inferBlock call func ss frame)
  | [], _, hframe => .ok hframe
  | s :: ss, _, hframe => by
    rw [inferBlock]
    exact (gives_inferStmt hcall func s hframe).bind fun _ hframe =>
      gives_inferBlock hcall func ss hframe
termination_by structural ss => ss
end

/-! ## Calls -/

/-- What is inferred for a call of integral arguments is integral. The induction is on the depth,
which bounds how many calls are active. -/
theorem gives_inferFn (session : Session) (depth : Nat) (active : List String) (func : TypedFn)
    {args : List AbstractValue} (hargs : ∀ v ∈ args, v.Integral b) :
    Gives (·.Integral b) (inferFn session depth active func args) := by
  induction depth generalizing active func args with
  | zero => exact .error _
  | succ depth ih =>
    have hempty : EnvIntegral b ∅ := fun _ he => (List.not_mem_nil he).elim
    have henv : EnvIntegral b (.ofList (func.argNames.zip args)) :=
      hempty.insertAll fun e he => hargs e.2 (List.of_mem_zip he).2
    have hstart : Frame.Integral b ⟨.ofList (func.argNames.zip args), none⟩ := by
      refine ⟨henv, ?_⟩
      rintro v ⟨⟩
    rw [inferFn]
    split
    · exact .error _
    refine (gives_inferBlock ?_ func.name func.body hstart).bind fun frame hframe => .ok ?_
    -- A callee is inferred one level deeper, and an unknown name is an error.
    · intro name args hargs
      dsimp only
      cases session.typed.find? name with
      | none => exact .error _
      | some callee => exact ih (func.name :: active) callee hargs
    · exact integral_getD hframe.returned trivial

end ShapeInference

/-! ## Evaluation -/

mutual
/-- The names of the closures that a shape mentions. -/
def SymbolicShape.closures : SymbolicShape → List String
  | .closure name captured => name :: SymbolicShape.closuresAll captured
  | .dim inner _ => inner.closures
  | .tuple items => SymbolicShape.closuresAll items
  | .binop _ lhs rhs => lhs.closures ++ rhs.closures
  | _ => []
termination_by structural s => s

def SymbolicShape.closuresAll : List SymbolicShape → List String
  | [] => []
  | s :: ss => s.closures ++ SymbolicShape.closuresAll ss
termination_by structural ss => ss
end

/-- There is a value, or evaluation stopped at one of the closures. -/
def ValueOrClosure {α : Type} (closures : List String) (x : Except ShapeEvalError α) : Prop :=
  (∃ value, x = .ok value) ∨ ∃ name ∈ closures, x = .error (.closure name)

namespace SymbolicShape

/-- Dimensions that are known have values, one after the other. -/
theorem evalList_of_integral {dims : List SymbolicShape} (hdims : ∀ d ∈ dims, d.Integral b)
    (hknown : hasUnknownList dims = false) : ∃ values, evalList b dims = .ok values := by
  induction dims with
  | nil => exact ⟨[], rfl⟩
  | cons d dims ih =>
    obtain ⟨hd, hdims⟩ := List.forall_mem_cons.1 hdims
    rw [hasUnknownList, Bool.or_eq_false_iff] at hknown
    obtain ⟨n, hn⟩ := hd hknown.1
    obtain ⟨values, hvalues⟩ := ih hdims hknown.2
    refine ⟨.int n :: values, ?_⟩
    rw [evalList, hn, hvalues]
    rfl

end SymbolicShape

namespace AbstractValue

open SymbolicShape

mutual
/-- The shape of an integral value has a value itself if it is known, up to closures. -/
theorem Integral.eval_toShape : ∀ {v : AbstractValue}, v.Integral b →
    v.toShape.hasUnknown = false → ValueOrClosure v.toShape.closures (v.toShape.eval b)
  | scalar _, _, _ => .inl ⟨_, rfl⟩
  | array dims, h, hknown => by
    obtain ⟨values, hvalues⟩ := evalList_of_integral h hknown
    refine .inl ⟨.tuple values, ?_⟩
    rw [toShape, SymbolicShape.eval, hvalues]
    rfl
  | tuple items, h, hknown => by
    rw [toShape, SymbolicShape.eval]
    rcases evalList_toShapes h hknown with ⟨values, hvalues⟩ | ⟨name, hname, herror⟩
    · exact .inl ⟨.tuple values, by rw [hvalues]; rfl⟩
    · exact .inr ⟨name, hname, by rw [herror]; rfl⟩
  | closure func _, _, _ => .inr ⟨func, List.mem_cons_self, rfl⟩
  | untracked, _, hknown => nomatch hknown
termination_by structural v => v

theorem evalList_toShapes : ∀ {vs : List AbstractValue}, AllIntegral b vs →
    hasUnknownList (toShapes vs) = false →
      ValueOrClosure (closuresAll (toShapes vs)) (evalList b (toShapes vs))
  | [], _, _ => .inl ⟨[], rfl⟩
  | v :: vs, h, hknown => by
    rw [toShapes, hasUnknownList, Bool.or_eq_false_iff] at hknown
    rw [toShapes, evalList, closuresAll]
    rcases h.1.eval_toShape hknown.1 with ⟨value, hvalue⟩ | ⟨name, hname, herror⟩
    · rcases evalList_toShapes h.2 hknown.2 with ⟨values, hvalues⟩ | ⟨name, hname, herror⟩
      · exact .inl ⟨value :: values, by rw [hvalue, hvalues]; rfl⟩
      · exact .inr ⟨name, List.mem_append_right _ hname, by rw [hvalue, herror]; rfl⟩
    · exact .inr ⟨name, List.mem_append_left _ hname, by rw [herror]; rfl⟩
termination_by structural vs => vs
end

end AbstractValue

/-- A shape that is inferred for a function's result has a value on all arguments of the function's
parameter types, unless it mentions a closure. No variable is unbound, no entry out of range, nothing
unknown, and no operand anything but an integer. -/
theorem resultShape_evalOn {session : Session} {func : TypedFn} {shape : SymbolicShape}
    (hshape : resultShape session func = .ok shape) {args : List Value}
    (htys : Value.tys? args = some func.inputTypes) :
    ValueOrClosure shape.closures (shape.evalOn func.inputTypes (ShapeValue.ofArgs args)) := by
  have hparams := integral_ofParams htys
  obtain ⟨result, hresult, hshape⟩ := bind_eq_ok.1 hshape
  have hintegral := ShapeInference.gives_inferFn session _ [] func (allIntegral_iff.1 hparams) _
    hresult
  have hlength : func.inputTypes.length = (ShapeValue.ofArgs args).length := by
    rw [ShapeValue.length_ofArgs, Value.length_tys? htys]
  dsimp only at hshape
  by_cases hunknown : result.toShape.hasUnknown = true
  · rw [if_pos hunknown] at hshape
    cases hshape
  · rw [if_neg hunknown] at hshape
    cases hshape
    unfold SymbolicShape.evalOn
    rw [if_neg (not_not_intro hlength)]
    exact hintegral.eval_toShape (Bool.eq_false_iff.2 hunknown)

/-- A function without parameters that returns the value of an expression. -/
def TypedFn.returning (name : String) (value : Expr) (ty : Ty) : TypedFn where
  name
  argNames := []
  inputTypes := []
  body := [.ret value]
  returnType := ty
  typeEnv := ∅

/-- That a function returns an integer does not keep closures out of its shape: a session knows the
functions it calls by name only, and another may have taken the name since. -/
example :
    let g := TypedFn.returning "g" (.typed (.call "f" []) .int64) .int64
    let f := TypedFn.returning "f" (.typed (.closure "h" []) (.closure "h" [])) (.closure "h" [])
    ∃ shape, resultShape ((Session.new none).insertTyped f) g = .ok shape
      ∧ shape.closures = ["h"] ∧ shape.evalOn [] [] = .error (.closure "h") :=
  ⟨.closure "h" [], rfl, rfl, rfl⟩

end ArrayLang
