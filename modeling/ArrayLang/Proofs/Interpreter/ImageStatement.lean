import ArrayLang.Proofs.Interpreter.AlikeStatement
import ArrayLang.Proofs.Interpreter.ImageExpression
import ArrayLang.Proofs.Reachable
import ArrayLang.Proofs.Typing.Computation
import ArrayLang.Typing.Specialization

/-!
# Images of functions do the same

Statements and their images, run with the same variables from one state, bind the same values, return the
same value or fail for one reason, and leave one state. A loop makes as many passes in both. So a call of a
specialization does what a call of its source does, as long as the body is the image of the body, and the
same is true of the functions that it calls. The induction is on the fuel, and below that on how the image
is made.

## Main results

- `Interpreter.runImage_agree`: statements and their images agree.
- `Interpreter.applyFn_agree`: calls of functions and of their images agree.
- `Interpreter.callTyped_agrees_callSource`: so do calls of a session.
-/

namespace ArrayLang

open Value TypingRule Interpreter

/-- Both have the same variables, with values of their types. -/
def Env.SameOfTypes (scope : TypeEnv) (env env' : Env) (s : Store) : Prop :=
  env' = env ∧ env.OfTypes s scope

/-- Control goes on with the same variables, or both return one value of the type. -/
def Flow.SameOfTypes (scope : TypeEnv) (result : Ty) (flow flow' : Flow) (s : Store) : Prop :=
  FlowRel (fun env env' => env.SameOfTypes scope env' s) (fun v w => SameOfType result v w s) flow flow'

/-- Control leaves with a value. -/
def Flow.IsReturn (flow : Flow) : Prop :=
  ∃ value, flow = .ret value

namespace Env.OfTypes

variable {scope : TypeEnv} {env : Env} {s : Store}

theorem insertAll (h : env.OfTypes s scope) {names : List String} {vs : List Value} {types : List Ty}
    (htypes : List.Forall₂ (fun name ty => scope.find? name = some ty) names types)
    (hvs : AllOfType s vs types) : Env.OfTypes (env.insertAll (names.zip vs)) s scope := by
  induction htypes generalizing env vs with
  | nil => exact h
  | cons hty _ ih =>
    cases hvs with
    | cons hv hvs => exact ih (h.insert hty hv) hvs

end Env.OfTypes

/-- What is written to an array of element types that scalars have on their own leaves the others well
formed. -/
theorem assignIndex_retains {s : Store} {base index value : Value} {baseTy : Ty} {write : Store → Store}
    (hbase : base.OfType s baseTy) (hcarried : baseTy.Carried)
    (h : assignIndex base index value s = .ok write) : s.Retains (write s) := by
  cases hbase with
  | @array v hrank hv =>
    cases hcarried with
    | array helt =>
      simp only [assignIndex] at h
      split at h
      · cases h
      · rename_i items hitems
        split at h
        · cases h
        · rename_i slot hslot
          have hslotTyped := hv.select hslot
          have hslotElt : slot.elt.IsCarrier := by
            rw [View.select_elt hslot]
            exact helt
          split at h
          · cases h
            exact .fill hslotTyped.wellFormed hslotElt _
          · rename_i src
            cases hcells : slot.cellsFrom src s with
            | error e =>
              rw [hcells] at h
              cases h
            | ok cells =>
              rw [hcells] at h
              cases h
              exact .setCells hslotTyped.wellFormed hslotElt cells
          · cases h
  | _ => cases h

namespace Interpreter

section
variable {c : Session} {calls : Signature → Prop} {scope : TypeEnv} {apply : Apply}
  {trace trace' : Trace} {σ : State Session} {env : Env} {result : Ty}

/-! ## Assignments -/

mutual
/-- Assigning to variables cannot fail where the value is of the type of the target. -/
theorem assignImage_eq : ∀ {target target' : Expr} {ty : Ty}, target.TargetImage scope target' ty →
    ∀ {s : Store} {value : Value} {env : Env}, value.OfType s ty → env.OfTypes s scope →
      ∃ next : Env, next.OfTypes s scope ∧ ∀ trace, assign apply trace target value env = pure next
        ∧ assign apply trace target' value env = pure next
  | _, _, _, .var h, s, value, env, hvalue, henv =>
    ⟨_, henv.insert h hvalue, fun _ => ⟨rfl, rfl⟩⟩
  | _, _, _, .tuple h, s, value, env, hvalue, henv => by
    cases hvalue with
    | tuple hvalues =>
      obtain ⟨next, hnext, heq⟩ := assignImages_eq h hvalues henv
      have hlength := hvalues.length_eq.trans h.length_eq.1.symm
      have hlength' := hvalues.length_eq.trans h.length_eq.2.symm
      refine ⟨next, hnext, fun trace => ?_⟩
      rw [Expr.plain, Expr.typed, assign, assign]
      dsimp only
      rw [if_pos hlength, if_pos hlength']
      exact heq trace

theorem assignImages_eq : ∀ {targets targets' : List Expr} {types : List Ty},
    Expr.TargetImages scope targets targets' types →
    ∀ {s : Store} {values : List Value} {env : Env}, AllOfType s values types → env.OfTypes s scope →
      ∃ next : Env, next.OfTypes s scope ∧ ∀ trace, assignAll apply trace targets values env = pure next
        ∧ assignAll apply trace targets' values env = pure next
  | _, _, _, .nil, _, _, env, _, henv => ⟨env, henv, fun _ => ⟨rfl, rfl⟩⟩
  | _, _, _, .cons h hs, _, _, _, .cons hvalue hvalues, henv => by
    obtain ⟨first, hfirst, heq⟩ := assignImage_eq h hvalue henv
    obtain ⟨next, hnext, heqs⟩ := assignImages_eq hs hvalues hfirst
    refine ⟨next, hnext, fun trace => ?_⟩
    rw [assignAll, assignAll, (heq trace).1, (heq trace).2]
    exact heqs trace
end

variable (hc : c.Imaged calls) (hscope : c.Admits scope) (happly : CallsAgree c calls apply)
include hc hscope happly

/-- Writing to a part of an array binds no variable. -/
theorem writeImage_agree {base index slot : Expr} {ty : Ty} {value : Value}
    (h : Expr.Image c calls scope (.plain (.index base index)) slot ty) (hσ : σ.context = c)
    (henv : env.OfTypes σ.store scope) :
    Agree σ (Env.SameOfTypes scope) (assign apply trace (.plain (.index base index)) value env)
      (assign apply trace' slot value env) := by
  cases h with
  | index hbase hindex hty =>
    rw [Expr.plain, Expr.typed, assign, assign]
    refine (evalImage_agree hc hscope happly hbase hσ henv).bind fun v w τ hτ hret hvw => ?_
    obtain ⟨heq, hof⟩ := hvw
    have hτ := hτ.trans hσ
    have henv := henv.retained hscope hret
    refine (evalImage_agree hc hscope happly hindex hτ henv).bind fun i j υ hυ hret hvw => ?_
    obtain ⟨heq', _⟩ := hvw
    have henv := henv.retained hscope hret
    have hcarried := Expr.Image.carried hc hscope hbase
    have hof := hof.retained hret hcarried
    rw [heq, heq']
    refine Agree.bind (R := fun _ _ _ => True) (.operate _ _ rfl fun f hf => ⟨?_, trivial⟩)
      fun _ _ φ _ hret _ => .pure ⟨rfl, henv.retained hscope hret⟩
    cases hwrite : assignIndex v i value υ.store with
    | error e =>
      rw [hwrite] at hf
      cases hf
    | ok write =>
      rw [hwrite] at hf
      cases hf
      exact assignIndex_retains hof hcarried hwrite

/-! ## Conditions and reconciled variables -/

theorem condImage_agree {cond cond' : Expr} (h : cond.CondImage c calls scope cond')
    (hσ : σ.context = c) (henv : env.OfTypes σ.store scope) :
    Agree σ (fun a b _ => b = a) (evalCond apply trace cond env) (evalCond apply trace' cond' env) := by
  unfold evalCond
  cases h with
  | same h =>
    refine (evalImage_agree hc hscope happly h hσ henv).bind fun v w τ hτ hret hvw => ?_
    obtain ⟨heq, hof⟩ := hvw
    rw [heq]
    cases hof with
    | scalar hx => exact .pure rfl
  | cast h hne =>
    rw [Expr.typed, evalExpr]
    simp only [bind_assoc]
    refine (evalImage_agree hc hscope happly h hσ henv).bind fun v w τ hτ hret hvw => ?_
    obtain ⟨heq, hof⟩ := hvw
    rw [heq]
    cases hof with
    | scalar hx =>
      rw [operate_castValue, pure_bind]
      exact .pure rfl

/-- Reconciled variables take the values of one of their sides. -/
theorem bindMergeImage_agree {side : Phi → Expr} {merge merge' : List Phi}
    (hside : ∀ {phi phi' : Phi}, phi.Image c calls scope phi' → phi'.name = phi.name ∧
      ∃ ty, scope.find? phi.name = some ty ∧ (side phi).Image c calls scope (side phi') ty)
    (h : List.Forall₂ (Phi.Image c calls scope) merge merge') (hσ : σ.context = c)
    (henv : env.OfTypes σ.store scope) :
    Agree σ (Env.SameOfTypes scope) (bindMerge apply trace side merge env)
      (bindMerge apply trace' side merge' env) := by
  obtain ⟨types, htypes, hnames, himages⟩ : ∃ types,
      List.Forall₂ (fun name ty => scope.find? name = some ty) (merge.map (·.name)) types
        ∧ merge'.map (·.name) = merge.map (·.name)
        ∧ Expr.Images c calls scope (merge.map side) (merge'.map side) types := by
    induction h with
    | nil => exact ⟨[], .nil, rfl, .nil⟩
    | cons hphi _ ih =>
      obtain ⟨hname, ty, hty, himage⟩ := hside hphi
      obtain ⟨types, htypes, hnames, himages⟩ := ih
      exact ⟨ty :: types, .cons hty htypes, congrArg₂ List.cons hname hnames, .cons himage himages⟩
  unfold bindMerge
  refine (evalImages_agree hc hscope happly himages hσ henv).bind fun vs ws τ _ hret hvw => ?_
  obtain ⟨heq, hof⟩ := hvw
  rw [heq, hnames]
  exact .pure ⟨rfl, (henv.retained hscope hret).insertAll htypes hof⟩

/-! ## Statements -/

omit hc hscope happly in
/-- Variables are reconciled after a block that does not return. -/
theorem merged_agree {block block' : Eval Flow} {merge merge' : Env → Eval Env} (hσ : σ.context = c)
    (hblock : Agree σ (Flow.SameOfTypes scope result) block block')
    (hmerge : ∀ {τ : State Session} {env : Env}, τ.context = c → env.OfTypes τ.store scope →
      Agree τ (Env.SameOfTypes scope) (merge env) (merge' env)) :
    Agree σ (Flow.SameOfTypes scope result)
      (do match ← block with
        | .ret value => return .ret value
        | .next env => return .next (← merge env))
      (do match ← block' with
        | .ret value => return .ret value
        | .next env => return .next (← merge' env)) := by
  refine hblock.bind fun flow flow' τ hτ _ hflow => ?_
  cases hflow with
  | ret h => exact .pure (.ret h)
  | next h =>
    obtain ⟨rfl, hof⟩ := h
    exact (hmerge (hτ.trans hσ) hof).bind fun _ _ _ _ _ h => .pure (.next h)

omit hc happly in
/-- Loops make as many passes if tests and passes agree. -/
theorem runLoop_agree {test test' : Env → Eval Bool} {pass pass' : Env → Eval Flow}
    (htest : ∀ {σ : State Session} {env : Env}, σ.context = c → env.OfTypes σ.store scope →
      Agree σ (fun a b _ => b = a) (test env) (test' env))
    (hpass : ∀ {σ : State Session} {env : Env}, σ.context = c → env.OfTypes σ.store scope →
      Agree σ (Flow.SameOfTypes scope result) (pass env) (pass' env)) (fuel : Nat)
    (hσ : σ.context = c) (henv : env.OfTypes σ.store scope) :
    Agree σ (Flow.SameOfTypes scope result) (runLoop test pass fuel env)
      (runLoop test' pass' fuel env) := by
  induction fuel generalizing σ env with
  | zero => exact .throw .outOfFuel
  | succ fuel ih =>
    rw [runLoop, runLoop]
    refine (htest hσ henv).bind fun a b τ hτ hret heq => ?_
    have hτ := hτ.trans hσ
    have henv := henv.retained hscope hret
    rw [heq]
    refine .ite (fun _ => ?_) fun _ => .pure (.next ⟨rfl, henv⟩)
    refine (hpass hτ henv).bind fun flow flow' υ hυ hret hflow => ?_
    cases hflow with
    | ret h => exact .pure (.ret h)
    | next h =>
      obtain ⟨rfl, hof⟩ := h
      exact ih (hυ.trans hτ) hof

omit hc hscope happly in
mutual
theorem runImage_agree (hc : c.Imaged calls) (hscope : c.Admits scope)
    (happly : CallsAgree c calls apply) (fuel : Nat) :
    ∀ {s s' : Stmt}, s.Image c calls scope result s' →
      ∀ {σ : State Session} {env : Env}, σ.context = c → env.OfTypes σ.store scope →
      Agree σ (Flow.SameOfTypes scope result) (runStmt apply trace fuel s env)
        (runStmt apply trace' fuel s' env)
  | _, _, .assign htarget hvalue, σ, env, hσ, henv => by
    rw [runStmt, runStmt]
    refine (evalImage_agree hc hscope happly hvalue hσ henv).bind fun v w τ hτ hret hvw => ?_
    obtain ⟨heq, hof⟩ := hvw
    obtain ⟨next, hnext, hassign⟩ := assignImage_eq htarget hof (henv.retained hscope hret)
    rw [heq, (hassign trace).1, (hassign trace').2, pure_bind]
    exact .pure (.next ⟨rfl, hnext⟩)
  | _, _, .write hslot hvalue _, σ, env, hσ, henv => by
    rw [runStmt, runStmt]
    refine (evalImage_agree hc hscope happly hvalue hσ henv).bind fun v w τ hτ hret hvw => ?_
    obtain ⟨heq, hof⟩ := hvw
    rw [heq]
    exact (writeImage_agree hc hscope happly hslot (hτ.trans hσ) (henv.retained hscope hret)).bind
      fun _ _ _ _ _ h => .pure (.next h)
  | _, _, .ret h, σ, env, hσ, henv => by
    rw [runStmt, runStmt]
    exact (evalImage_agree hc hscope happly h hσ henv).bind fun _ _ _ _ _ h => .pure (.ret h)
  | _, _, .branch hcond htrue hfalse hmerge, σ, env, hσ, henv => by
    rw [runStmt, runStmt]
    refine (condImage_agree hc hscope happly hcond hσ henv).bind fun a b τ hτ hret heq => ?_
    have hτ := hτ.trans hσ
    have henv := henv.retained hscope hret
    rw [heq]
    refine .ite (fun _ => ?_) fun _ => ?_
    · exact merged_agree hτ (runImages_agree hc hscope happly fuel htrue hτ henv)
        (bindMergeImage_agree hc hscope happly Phi.Image.left hmerge)
    · exact merged_agree hτ (runImages_agree hc hscope happly fuel hfalse hτ henv)
        (bindMergeImage_agree hc hscope happly Phi.Image.right hmerge)
  | _, _, .loop hcond hbody hmerge, σ, env, hσ, henv => by
    rw [runStmt, runStmt]
    refine (bindMergeImage_agree hc hscope happly Phi.Image.left hmerge hσ henv).bind
      fun env env' τ hτ _ hvw => ?_
    obtain ⟨heq, hof⟩ := hvw
    rw [heq]
    refine runLoop_agree hscope (condImage_agree hc hscope happly hcond) (fun hσ henv => ?_) fuel
      (hτ.trans hσ) hof
    exact merged_agree hσ (runImages_agree hc hscope happly fuel hbody hσ henv)
      (bindMergeImage_agree hc hscope happly Phi.Image.right hmerge)

theorem runImages_agree (hc : c.Imaged calls) (hscope : c.Admits scope)
    (happly : CallsAgree c calls apply) (fuel : Nat) :
    ∀ {ss ss' : List Stmt}, Stmt.Images c calls scope result ss ss' →
      ∀ {σ : State Session} {env : Env}, σ.context = c → env.OfTypes σ.store scope →
      Agree σ (Flow.SameOfTypes scope result) (runBlock apply trace fuel ss env)
        (runBlock apply trace' fuel ss' env)
  | _, _, .nil, σ, env, _, henv => .pure (.next ⟨rfl, henv⟩)
  | _, _, .cons h hs, σ, env, hσ, henv => by
    rw [runBlock, runBlock]
    refine (runImage_agree hc hscope happly fuel h hσ henv).bind fun flow flow' τ hτ _ hflow => ?_
    cases hflow with
    | ret h => exact .pure (.ret h)
    | next h =>
      obtain ⟨rfl, hof⟩ := h
      exact runImages_agree hc hscope happly fuel hs (hτ.trans hσ) hof
end

end

/-! ## Returning -/

section
variable {apply : Apply} {trace : Trace} {fuel : Nat}

mutual
theorem runStmt_returns : ∀ {s : Stmt}, s.Returns → ∀ {env : Env},
    Run.Yields (fun _ => True) (fun flow _ => flow.IsReturn) (runStmt apply trace fuel s env)
  | _, .ret value, env => by
    rw [runStmt]
    refine Run.Yields.bind (Q := fun _ _ => True) (fun _ _ _ _ _ => trivial) fun v => ?_
    exact .pure fun _ _ => ⟨v, rfl⟩
  | _, .branch htrue hfalse, env => by
    have hleave {block : Eval Flow} {f : Env → Eval Flow}
        (hblock : Run.Yields (fun _ => True) (fun flow _ => flow.IsReturn) block) :
        Run.Yields (fun _ => True) (fun flow _ => flow.IsReturn) (do
          match ← block with
          | .ret value => return .ret value
          | .next env => f env) := by
      refine hblock.bind fun flow σ b σ' hflow h => ?_
      obtain ⟨value, rfl⟩ := hflow
      cases h
      exact ⟨value, rfl⟩
    rw [runStmt]
    refine Run.Yields.bind (Q := fun _ _ => True) (fun _ _ _ _ _ => trivial) fun b => .ite ?_ ?_
    · exact hleave (runBlock_returns htrue)
    · exact hleave (runBlock_returns hfalse)

/-- Statements one of which returns do not end without returning. -/
theorem runBlock_returns : ∀ {ss : List Stmt}, Stmt.SomeReturns ss → ∀ {env : Env},
    Run.Yields (fun _ => True) (fun flow _ => flow.IsReturn) (runBlock apply trace fuel ss env)
  | _, .head h, env => by
    rw [runBlock]
    refine (runStmt_returns h).bind fun flow σ b σ' hflow h => ?_
    obtain ⟨value, rfl⟩ := hflow
    cases h
    exact ⟨value, rfl⟩
  | _, .tail h, env => by
    rw [runBlock]
    refine Run.Yields.bind (Q := fun _ _ => True) (fun _ _ _ _ _ => trivial) fun flow => ?_
    cases flow with
    | ret value => exact .pure fun _ _ => ⟨value, rfl⟩
    | next env => exact runBlock_returns h
end

end

/-! ## Functions -/

section
variable {c : Session} {calls : Signature → Prop} {σ : State Session}

/-- A function and its image do the same once their parameters are bound. -/
theorem runBodyImage_agree {apply : Apply} {trace trace' : Trace} (hc : c.Imaged calls)
    (happly : CallsAgree c calls apply) {decl : FnDecl} {f : TypedFn} {scope : TypeEnv}
    (himage : decl.Image c calls f scope) (fuel : Nat) {env : Env} (hσ : σ.context = c)
    (henv : env.OfTypes σ.store scope) :
    Agree σ (SameOfType f.returnType) (runBody apply trace fuel decl.body env)
      (runBody apply trace' fuel f.body env) := by
  have hblock : Agree σ _ (runBlock apply trace fuel decl.body env)
      (runBlock apply trace' fuel f.body env) :=
    runImages_agree hc himage.admits happly fuel himage.body hσ henv
  unfold runBody
  rcases himage.returns with hnone | hreturns
  · refine hblock.bind fun flow flow' τ _ _ hflow => ?_
    cases hflow with
    | ret h => exact .pure h
    | next _ => exact .pure ⟨rfl, hnone ▸ .none⟩
  · refine (hblock.and (runBlock_returns hreturns) trivial).bind fun flow flow' τ _ _ hflow => ?_
    obtain ⟨hflow, _, value, rfl⟩ := hflow
    cases hflow with
    | ret h => exact .pure h

/-- Parameters are bound to values of their types. -/
theorem ofTypes_ofList {s : Store} {scope : TypeEnv} {names : List String} {types : List Ty}
    {vs : List Value} (htypes : List.Forall₂ (fun name ty => scope.find? name = some ty) names types)
    (hvs : AllOfType s vs types) : Env.OfTypes (.ofList (names.zip vs)) s scope := by
  have hempty : Env.OfTypes ∅ s scope := ⟨fun h => absurd h (Option.some_ne_none _).symm⟩
  exact hempty.insertAll htypes hvs

/-- Calls of images agree with calls of what they are images of. The induction is on the fuel. -/
theorem applyFn_agree (hc : c.Imaged calls) (fuel : Nat) : CallsAgree c calls (applyFn fuel) := by
  induction fuel with
  | zero => exact ⟨fun _ _ _ _ _ _ _ _ _ => .throw .outOfFuel⟩
  | succ fuel ih =>
    refine ⟨fun {key f decl args defaults σ} hkey hspec hdecl hmany hdefaults hσ hof trace trace' => ?_⟩
    obtain ⟨decl', scope, hdecl', himage⟩ := hc.image hkey hspec
    obtain rfl : decl' = decl := Option.some.inj (hdecl'.symm.trans hdecl)
    have hbound : bindCall (.source decl') args
        = .ok (.ofList (decl'.params.positional.zip (args ++ defaults.map ofLiteral))) := by
      rw [bindCall, himage.nonlocals, Binding.bindArgs_defaults himage.rest hmany hdefaults]
      rfl
    have htypes := (hc.found hkey hspec).2
    have hlength : (args ++ defaults.map ofLiteral).length = f.argNames.length := by
      rw [hof.length_eq, ← htypes, himage.params.length_eq]
    have hbound' : bindCall (.typed f) (args ++ defaults.map ofLiteral)
        = .ok (.ofList (decl'.params.positional.zip (args ++ defaults.map ofLiteral))) := by
      rw [bindCall, if_pos hlength, himage.argNames]
    rw [applyFn, applyFn, hbound, hbound']
    refine runBodyImage_agree hc ih himage fuel hσ ?_
    have hparams := himage.params
    rw [himage.argNames, htypes] at hparams
    exact ofTypes_ofList hparams hof

/-- A specialization that is an image of its source does the same as the source on arguments of its
types: both return one value, which is of the type that the specialization declares, and leave one store,
or both fail for one reason, or neither ends within the fuel. -/
theorem callTyped_agrees_callSource (hc : c.Imaged calls) {key : Signature} {f : TypedFn}
    (hkey : calls key) (hspec : c.specialization? key = some f) (hσ : σ.context = c)
    {args : List Value} (hargs : AllOfType σ.store args key.2) (fuel : Nat) :
    Agree σ (SameOfType f.returnType) (callSource fuel key.1 args) (callTyped fuel f args) := by
  obtain ⟨decl, scope, hdecl, himage⟩ := hc.image hkey hspec
  have hlength : args.length = decl.params.positional.length := by
    rw [hargs.length_eq, ← (hc.found hkey hspec).2, ← himage.argNames, himage.params.length_eq]
  have hnone : (decl.params.positional.drop args.length).map decl.params.default?
      = ([] : List Literal).map some := by
    rw [hlength, List.drop_length]
    rfl
  have hcall : Agree σ (SameOfType f.returnType) (applyFn fuel [] (.source decl) args)
      (applyFn fuel [] (.typed f) (args ++ ([] : List Literal).map ofLiteral)) :=
    (applyFn_agree hc fuel).call hkey hspec hdecl hlength.le hnone hσ
      (by rwa [List.map_nil, List.append_nil]) [] []
  rw [List.map_nil, List.append_nil] at hcall
  unfold callSource callTyped
  refine .get_bind_left ?_
  rw [hσ, hdecl]
  exact hcall

end
end Interpreter

/-! ## A session of images -/

/-- `fn f(x): y = x + 1; return y` -/
def successor : FnDecl :=
  ⟨"f", ⟨["x"], [], none⟩, [],
    [.assign (.plain (.var "y")) (.plain (.op .add [.plain (.var "x"), .plain (.lit (.int 1))])),
      .ret (.plain (.var "y"))]⟩

/-- A session with one specialization. -/
def Session.ofSuccessor : Session :=
  (Typing.exec (specialize 1 "f" [.scalar .float64]) (.ofSources none [successor])).2

theorem Session.ofSuccessor_imaged : Session.ofSuccessor.Imaged (· = ("f", [.scalar .float64])) where
  apart {name decl} h := by
    have hname : name = "f" := by
      have hmem : (name, decl) ∈ [("f", successor)] := NameMap.mem_entries_of_find? h
      exact congrArg Prod.fst (List.mem_singleton.1 hmem)
    subst hname
    cbv
  found {key f} hkey h := by
    subst hkey
    obtain rfl := Option.some.inj h
    exact ⟨rfl, rfl⟩
  image {key f} hkey h := by
    subst hkey
    obtain rfl := Option.some.inj h
    let types : TypeEnv := .ofList [("x", .scalar .float64), ("y", .scalar .float64)]
    have hx : types.find? "x" = some (.scalar .float64) := rfl
    have hy : types.find? "y" = some (.scalar .float64) := rfl
    refine ⟨successor, types, rfl, rfl, rfl, rfl, .cons hx .nil, ?_, ?_, .scalar rfl, ?_⟩
    · have hnames : ∀ {name : String} {ty : Ty}, types.find? name = some ty →
          (name, ty) = ("x", .scalar .float64) ∨ (name, ty) = ("y", .scalar .float64) := by
        intro name ty h
        have hmem : (name, ty) ∈ [("x", .scalar .float64), ("y", .scalar .float64)] :=
          NameMap.mem_entries_of_find? h
        simpa using hmem
      refine ⟨fun h => ?_, fun h => ?_⟩
      · rcases hnames h with heq | heq <;> cases heq <;> exact .scalar rfl
      · rcases hnames h with heq | heq <;> cases heq <;> rfl
    · refine .cons (.assign (.var hy) ?_) (.cons (.ret (.var hy)) .nil)
      exact .op (.same (.var hx) rfl (.cast (.lit _) (by decide) (.nil _))) rfl rfl
    · exact .inr (.tail (.head (.ret _)))

end ArrayLang
