import ArrayLang.Proofs.Dataflow.Alias
import ArrayLang.Proofs.Dataflow.Roots
import ArrayLang.Proofs.Interpreter.Walk

/-!
# Aliases cover storage

At every point of a run, variables whose values lie in a common block are in one class of aliases, and
variables that reach the storage of an argument or of the result escape. This holds of runs that bind
variables to the values of traceable expressions only, which draw on no more than their alias roots.
The invariant is on what variables have reached so far: no block has been reached from two classes.
-/

namespace ArrayLang

open Value

/-! ## What variables have reached -/

/-- Which variables have reached which blocks at some point of a run. -/
abbrev Seen := String → Nat → Prop

/-- The variables have reached the blocks, too. -/
def Seen.bind (seen : Seen) (names : List String) (blocks : List Nat) : Seen :=
  fun x b => seen x b ∨ x ∈ names ∧ b ∈ blocks

theorem Seen.le_bind (seen : Seen) (names : List String) (blocks : List Nat) :
    seen ≤ seen.bind names blocks :=
  fun _ _ => .inl

namespace Interpreter

variable {r : String → String → Prop} {seen seen' : Seen} {env env' : Env} {σ σ' : State Session}

/-- All that the variables reach has been seen. -/
def Covers (seen : Seen) (env : Env) : Prop :=
  ∀ x b, env.Reaches x b → seen x b

/-- No block has been reached from variables that are not related. -/
def Unshared (r : String → String → Prop) (seen : Seen) : Prop :=
  ∀ x y b, seen x b → seen y b → r x y

/-- What has been reached is there and is not shared between variables that are not related, and what
the variables reach now is among it. -/
structure Held (r : String → String → Prop) (seen : Seen) (env : Env) (σ : State Session) : Prop where
  unshared : Unshared r seen
  there : ∀ x b, seen x b → b < σ.store.blocks.size
  covers : Covers seen env
  context : σ.context.Impartial

namespace Held

theorem below (h : Held r seen env σ) : ∀ x b, env.Reaches x b → b < σ.store.blocks.size :=
  fun x b hb => h.there x b (h.covers x b hb)

theorem grow (h : Held r seen env σ) (hsize : σ.store.blocks.size ≤ σ'.store.blocks.size)
    (hc : σ'.context.Impartial) : Held r seen env σ' :=
  ⟨h.unshared, fun x b hb => Nat.lt_of_lt_of_le (h.there x b hb) hsize, h.covers, hc⟩

/-- Nothing is traced yet. -/
theorem traced (h : Held r seen env σ) (q : Nat → Prop) :
    Traced σ.store.blocks.size q (fun _ => False) σ :=
  ⟨Nat.le_refl _, h.context, fun _ => False.elim, fun _ => False.elim⟩

theorem insert {x : String} {v : Value} (h : Held r seen env σ) (hv : ∀ b ∈ v.blocks, seen x b) :
    Held r seen (env.insert x v) σ := by
  refine ⟨h.unshared, h.there, fun y b ⟨w, hw, hb⟩ => ?_, h.context⟩
  rw [NameMap.find?_insert] at hw
  split at hw
  · rename_i heq
    cases hw
    exact heq ▸ hv b hb
  · exact h.covers y b ⟨w, hw, hb⟩

theorem insertAll {names : List String} {vs : List Value} (h : Held r seen env σ)
    (hvs : ∀ x v, (x, v) ∈ names.zip vs → ∀ b ∈ v.blocks, seen x b) :
    Held r seen (env.insertAll (names.zip vs)) σ := by
  induction names generalizing vs env with
  | nil => exact h
  | cons x names ih =>
    cases vs with
    | nil => exact h
    | cons v vs =>
      refine ih (h.insert (hvs x v List.mem_cons_self)) fun y w hmem => ?_
      exact hvs y w (List.mem_cons_of_mem _ hmem)

end Held

/-! ## Binding values -/

section
variable {apply : Apply} (happly : ApplyAlike apply) {trace : Trace}
include happly

/-- Evaluating an expression binds nothing. -/
theorem Held.eval {e : Expr} {v : Value} (h : Held r seen env σ)
    (hx : Run.exec (evalExpr apply trace env e) σ = (.ok v, σ')) : Held r seen env σ' := by
  have hkept := evalExpr_kept happly trace h.below e σ v σ' (h.traced fun _ => True) hx
  exact h.grow hkept.size hkept.context

/-- Binding variables to a value relates no more variables, if the value draws on its alias roots
only and these are related to the variables. -/
theorem Held.bind (hr : Equivalence r) {names : List String} {e : Expr} {v : Value}
    (h : Held r seen env σ) (hx : Run.exec (evalExpr apply trace env e) σ = (.ok v, σ'))
    (hnames : names.length ≤ 1 ∨ e.aliasRoots ≠ [])
    (htraceable : v.blocks = [] ∨ e.Traceable env)
    (hroots : ∀ x ∈ names, ∀ z ∈ e.aliasRoots, r x z) :
    Held r (seen.bind names v.blocks) env σ' := by
  have hnext := h.eval happly hx
  -- A block of the value has been reached from a root, or it is new.
  have hblocks : ∀ b ∈ v.blocks, b < σ'.store.blocks.size
      ∧ (b < σ.store.blocks.size → ∃ z ∈ e.aliasRoots, seen z b) := by
    intro b hb
    rcases htraceable with hnone | htraceable
    · rw [hnone] at hb
      cases hb
    · have htraced := evalExpr_traced happly trace h.below
        (q := fun b => ∃ z ∈ e.aliasRoots, seen z b)
        (fun z hz b hb => ⟨z, hz, h.covers z b hb⟩) e (Expr.Traceable.drawsOn e htraceable) σ v σ'
        (h.traced _) hx
      exact ⟨htraced.there b (.inr hb), htraced.old b (.inr hb)⟩
  have hrelated : ∀ x ∈ names, ∀ y ∈ names, r x y := by
    intro x hx y hy
    rcases hnames with hlength | hsome
    · have hone : names.length = 1 := by
        have := List.length_pos_of_mem hx
        omega
      obtain ⟨name, rfl⟩ := List.length_eq_one_iff.1 hone
      rw [List.mem_singleton.1 hx, List.mem_singleton.1 hy]
      exact hr.refl name
    · obtain ⟨z, hz⟩ := List.exists_mem_of_ne_nil _ hsome
      exact hr.trans (hroots x hx z hz) (hr.symm (hroots y hy z hz))
  -- So whatever has reached it before is related to that root, and the root to the names.
  have hold : ∀ x y b, seen x b → y ∈ names → b ∈ v.blocks → r x y := by
    intro x y b hseen hy hb
    obtain ⟨z, hz, hzb⟩ := (hblocks b hb).2 (h.there x b hseen)
    exact hr.trans (h.unshared x z b hseen hzb) (hr.symm (hroots y hy z hz))
  refine ⟨fun x y b hxb hyb => ?_, fun x b hxb => ?_, fun x b hb => .inl (hnext.covers x b hb),
    hnext.context⟩
  · rcases hxb with hxb | ⟨hxn, hxb⟩ <;> rcases hyb with hyb | ⟨hyn, hyb⟩
    · exact h.unshared x y b hxb hyb
    · exact hold x y b hxb hyn hyb
    · exact hr.symm (hold y x b hyb hxn hxb)
    · exact hrelated x hxn y hyn
  · rcases hxb with hxb | ⟨-, hb⟩
    · exact hnext.there x b hxb
    · exact (hblocks b hb).1

/-- The sides of a merge are evaluated one after the other, from the same variables. -/
theorem Held.bindSides (hr : Equivalence r) (side : Phi → Expr) {merge : List Phi}
    {vs : List Value} (h : Held r seen env σ)
    (hx : Run.exec (evalExprs apply trace env (merge.map side)) σ = (.ok vs, σ'))
    (htraceable : ∀ phi v, (phi, v) ∈ merge.zip vs → v.blocks = [] ∨ (side phi).Traceable env)
    (hroots : ∀ phi ∈ merge, ∀ z ∈ (side phi).aliasRoots, r phi.name z) :
    ∃ seen', seen ≤ seen' ∧ Held r seen' env σ'
      ∧ ∀ x v, (x, v) ∈ (merge.map (·.name)).zip vs → ∀ b ∈ v.blocks, seen' x b := by
  induction merge generalizing seen σ vs with
  | nil =>
    cases hx
    exact ⟨seen, le_refl seen, h, fun x v hmem => nomatch hmem⟩
  | cons phi merge ih =>
    rw [List.map_cons, evalExprs] at hx
    obtain ⟨v, σ₁, hv, hx⟩ := Run.exec_bind_eq_ok hx
    obtain ⟨ws, σ₂, hws, hx⟩ := Run.exec_bind_eq_ok hx
    cases hx
    obtain ⟨hphi, hrest⟩ := List.forall_mem_cons.1 hroots
    have hfirst : Held r (seen.bind [phi.name] v.blocks) env σ₁ :=
      h.bind happly hr hv (.inl (Nat.le_refl 1)) (htraceable phi v List.mem_cons_self)
        fun x hx => List.mem_singleton.1 hx ▸ hphi
    -- The other sides are evaluated from a history in which this variable has its blocks.
    obtain ⟨seen', hle, hheld, hbound⟩ := ih hfirst hws
      (fun phi' w hmem => htraceable phi' w (List.mem_cons_of_mem _ hmem)) hrest
    refine ⟨seen', le_trans (seen.le_bind _ _) hle, hheld, fun x w hmem b hb => ?_⟩
    rcases List.mem_cons.1 hmem with heq | hmem
    · cases heq
      exact hle _ _ (.inr ⟨List.mem_singleton_self _, hb⟩)
    · exact hbound x w hmem b hb

/-- Writing to a part of an array binds no variable. -/
theorem assignPart_held {base key : Expr} {ty? : Option Ty} {v : Value} :
    Run.Yields (Held r seen env) (Held r seen) (assign apply trace ⟨.index base key, ty?⟩ v env) := by
  rw [assign]
  refine Run.Yields.bind (Q := fun _ => Held r seen env) (fun σ _ σ' h hx => h.eval happly hx)
    fun b => ?_
  refine Run.Yields.bind (Q := fun _ => Held r seen env) (fun σ _ σ' h hx => h.eval happly hx)
    fun k => ?_
  refine Run.Yields.bind (Q := fun _ => Held r seen env) (.attempt fun s c f h hf => ?_)
    fun _ => .pure fun _ h => h
  cases hwrite : assignIndex b k v s with
  | error e =>
    rw [hwrite] at hf
    cases hf
  | ok write =>
    rw [hwrite] at hf
    cases hf
    obtain ⟨view, -, htouches⟩ := assignIndex_touches hwrite
    exact h.grow htouches.size h.context

omit happly in
mutual
/-- An assignment binds the variables of its target to parts of the value. -/
theorem assign_held (happly : ApplyAlike apply) {node : Node} {ty? : Option Ty} {v : Value}
    {env : Env} (hv : ∀ x ∈ Expr.targetVars ⟨node, ty?⟩, ∀ b ∈ v.blocks, seen x b) :
    Run.Yields (Held r seen env) (Held r seen) (assign apply trace ⟨node, ty?⟩ v env) := by
  cases node with
  | var x => exact .pure fun σ h => h.insert (hv x (List.mem_singleton_self x))
  | tuple targets =>
    cases v with
    | tuple items =>
      rw [assign]
      exact .ite (assignAll_held happly targets hv) (failText_yields trace _)
    | _ => exact failText_yields trace _
  | index base key => exact assignPart_held happly
  | _ => exact .throw _
termination_by sizeOf node

theorem assignAll_held (happly : ApplyAlike apply) : ∀ {vs : List Value} {env : Env}
    (targets : List Expr), (∀ x ∈ Expr.targetVarsList targets, ∀ b ∈ blocksAll vs, seen x b) →
      Run.Yields (Held r seen env) (Held r seen) (assignAll apply trace targets vs env)
  | _, _, [], _ => .pure fun _ h => h
  | [], _, _ :: _, _ => .pure fun _ h => h
  | v :: vs, env, ⟨node, ty?⟩ :: targets, hv => by
    rw [assignAll]
    refine (assign_held happly fun x hx b hb => ?_).bind fun env' =>
      assignAll_held happly targets fun x hx b hb => ?_
    · exact hv x (List.mem_append_left _ hx) b (List.mem_append_left _ hb)
    · exact hv x (List.mem_append_right _ hx) b (List.mem_append_right _ hb)
termination_by _ _ targets => sizeOf targets
end

theorem evalCond_held {cond : Expr} {b : Bool} (h : Held r seen env σ)
    (hx : Run.exec (evalCond apply trace cond env) σ = (.ok b, σ')) : Held r seen env σ' := by
  have hyields : Run.Yields (Held r seen env) (fun _ => Held r seen env)
      (evalCond apply trace cond env) := by
    unfold evalCond
    refine Run.Yields.bind (Q := fun _ => Held r seen env) (fun σ _ σ' h hx => h.eval happly hx)
      fun v => ?_
    split
    · exact .pure fun _ h => h
    · exact failText_yields trace _
  exact hyields σ b σ' h hx

end

/-! ## Runs -/

/-- What is required of the values that are bound at a point, and of what is returned there: a value
that lies in any storage is that of a traceable expression, and if it is taken apart then the
expression has alias roots. A returned expression reads the variables that occur in it. -/
def Tracks (apply : Apply) (trace : Trace) : AtPoint
  | .stmt (.assign target value), env, σ =>
    ∀ v σ', Run.exec (evalExpr apply trace env value) σ = (.ok v, σ') →
      (target.targetVars.length ≤ 1 ∨ value.aliasRoots ≠ [])
        ∧ (v.blocks = [] ∨ value.Traceable env)
  | .stmt (.ret value), _, _ => value.ReadsOnly (· ∈ value.vars)
  | .merge side merge, env, σ =>
    ∀ vs σ', Run.exec (evalExprs apply trace env (merge.map side)) σ = (.ok vs, σ') →
      ∀ phi v, (phi, v) ∈ merge.zip vs → v.blocks = [] ∨ (side phi).Traceable env
  | _, _, _ => True

/-- All that the variables reach at a point has been seen. -/
def Covered (seen : Seen) : AtPoint :=
  fun _ env _ => Covers seen env

/-- How control leaves code: with variables whose storage has been seen, or with a result that shares
storage only with variables that are related to one that `returned` names. -/
def FlowHeld (r : String → String → Prop) (returned : String → Prop) (seen : Seen) :
    Flow → State Session → Prop
  | .next env, σ => Held r seen env σ
  | .ret v, _ => ∀ b ∈ v.blocks, ∀ x, seen x b → ∃ z, returned z ∧ r z x

/-- Code that binds tracked values only: there is a history that covers every point of a run, and in
which no block is shared between variables that are not related. -/
def Sound (r : String → String → Prop) (returned : String → Prop) (tracks : AtPoint)
    (run : Env → Eval Flow) (w : Walk) : Prop :=
  ∀ seen env σ, w tracks env σ → Held r seen env σ → ∃ seen', seen ≤ seen' ∧ Unshared r seen'
    ∧ w (Covered seen') env σ
    ∧ ∀ flow σ', Run.exec (run env) σ = (.ok flow, σ') → FlowHeld r returned seen' flow σ'

variable {returned : String → Prop} {tracks : AtPoint} {run run' : Env → Eval Flow} {w w' : Walk}

theorem Covered.mono {seen seen' : Seen} (hle : seen ≤ seen') (point : Point) (env : Env)
    (σ : State Session) (h : Covered seen point env σ) : Covered seen' point env σ :=
  fun x b hb => hle x b (h x b hb)

theorem Sound.andThen (hw : w.Joint) (h : Sound r returned tracks run w)
    (h' : Sound r returned tracks run' w') :
    Sound r returned tracks (fun env => do (← run env).andThen run') (w.andThen run w') := by
  intro seen env σ htracks hheld
  obtain ⟨seen₁, hle₁, hunshared₁, hwalk₁, hflow₁⟩ := h seen env σ htracks.1 hheld
  cases hrun : Run.exec (run env) σ with
  | mk result σ₁ =>
    rcases result with e | flow
    · refine ⟨seen₁, hle₁, hunshared₁, ⟨hwalk₁, fun env' σ' heq => ?_⟩, fun flow σ' hx => ?_⟩
      · rw [hrun] at heq
        cases heq
      · rw [Run.exec_bind, hrun] at hx
        cases hx
    · rw [Run.exec_bind_ok hrun]
      cases flow with
      | ret v =>
        refine ⟨seen₁, hle₁, hunshared₁, ⟨hwalk₁, fun env' σ' heq => ?_⟩, fun flow σ' hx => ?_⟩
        · rw [hrun] at heq
          cases heq
        · cases hx
          exact hflow₁ _ _ hrun
      | next env₁ =>
        -- The second run starts from the history of the first, and covers its points as well.
        obtain ⟨seen₂, hle₂, hunshared₂, hwalk₂, hflow₂⟩ :=
          h' seen₁ env₁ σ₁ (htracks.2 env₁ σ₁ hrun) (hflow₁ _ _ hrun)
        refine ⟨seen₂, le_trans hle₁ hle₂, hunshared₂, ⟨?_, fun env' σ' heq => ?_⟩, hflow₂⟩
        · exact hw.mono _ _ (Covered.mono hle₂) env σ hwalk₁
        · rw [hrun] at heq
          cases heq
          exact hwalk₂

theorem Sound.startAt (point : Point) (h : Sound r returned tracks run w) :
    Sound r returned tracks run (w.startAt point) := by
  intro seen env σ htracks hheld
  obtain ⟨seen', hle, hunshared, hwalk, hflow⟩ := h seen env σ htracks.2 hheld
  exact ⟨seen', hle, hunshared, ⟨fun x b hb => hle x b (hheld.covers x b hb), hwalk⟩, hflow⟩

/-- Code that does nothing. -/
theorem Sound.next (point : Point) :
    Sound r returned tracks (fun env => pure (.next env)) (.here point) := by
  refine fun seen env σ _ hheld => ⟨seen, le_refl seen, hheld.unshared, hheld.covers,
    fun flow σ' hx => ?_⟩
  cases hx
  exact hheld

/-- A test that changes nothing that is known. -/
def TestHolds (r : String → String → Prop) (test : Env → Eval Bool) : Prop :=
  ∀ {seen : Seen} {env : Env} {σ σ' : State Session} {b : Bool}, Held r seen env σ →
    Run.exec (test env) σ = (.ok b, σ') → Held r seen env σ'

theorem Sound.branch {test : Env → Eval Bool} (h : Sound r returned tracks run w)
    (htest : TestHolds r test) (h' : Sound r returned tracks run' w') :
    Sound r returned tracks (fun env => do if ← test env then run env else run' env)
      (.branch test w w') := by
  intro seen env σ htracks hheld
  cases hrun : Run.exec (test env) σ with
  | mk result σ₁ =>
    rcases result with e | b
    · refine ⟨seen, le_refl seen, hheld.unshared, fun b σ' heq => ?_, fun flow σ' hx => ?_⟩
      · rw [hrun] at heq
        cases heq
      · rw [Run.exec_bind, hrun] at hx
        cases hx
    · have htracks₁ := htracks b σ₁ hrun
      have hheld₁ := htest hheld hrun
      rw [Run.exec_bind_ok hrun]
      unfold Walk.branch
      rw [hrun]
      cases b with
      | true =>
        obtain ⟨seen', hle, hunshared, hwalk, hflow⟩ := h seen env σ₁ htracks₁ hheld₁
        refine ⟨seen', hle, hunshared, fun b σ' heq => ?_, hflow⟩
        cases heq
        exact hwalk
      | false =>
        obtain ⟨seen', hle, hunshared, hwalk, hflow⟩ := h' seen env σ₁ htracks₁ hheld₁
        refine ⟨seen', hle, hunshared, fun b σ' heq => ?_, hflow⟩
        cases heq
        exact hwalk

theorem Sound.loop {test : Env → Eval Bool} (htest : TestHolds r test) (hw : w.Joint)
    (h : Sound r returned tracks run w) (fuel : Nat) :
    Sound r returned tracks (runLoop test run fuel) (.loop test run w fuel) := by
  induction fuel with
  | zero =>
    refine fun seen env σ _ hheld => ⟨seen, le_refl seen, hheld.unshared, trivial, fun _ _ hx => ?_⟩
    cases hx
  | succ fuel ih => exact ((h.andThen hw ih).branch htest (.next .done)).startAt .test

/-- The pairs of a merge relate each variable to the roots of both sides. -/
theorem related_sides {merge : List Phi}
    (h : ∀ pair ∈ merge.flatMap Alias.ofPhi, r pair.1 pair.2) :
    (∀ phi ∈ merge, ∀ z ∈ phi.left.aliasRoots, r phi.name z)
      ∧ ∀ phi ∈ merge, ∀ z ∈ phi.right.aliasRoots, r phi.name z := by
  have hphi := List.forall_mem_flatMap.1 h
  refine ⟨fun phi hmem z hz => ?_, fun phi hmem z hz => ?_⟩
  · exact hphi phi hmem (phi.name, z) (List.mem_append_left _ (List.mem_map_of_mem hz))
  · exact hphi phi hmem (phi.name, z) (List.mem_append_right _ (List.mem_map_of_mem hz))

section
variable {apply : Apply} (happly : ApplyAlike apply) (trace : Trace) (fuel : Nat)
  (hr : Equivalence r)
include happly hr

theorem assign_sound {target value : Expr}
    (hpairs : ∀ pair ∈ Alias.ofStmt (.assign target value), r pair.1 pair.2) :
    Sound r returned (Tracks apply trace) (runStmt apply trace fuel (.assign target value))
      (stmtWalk apply trace fuel (.assign target value)) := by
  intro seen env σ htracks hheld
  have hroots : ∀ x ∈ target.targetVars, ∀ z ∈ value.aliasRoots, r x z := fun x hx z hz =>
    hpairs (x, z) (List.mem_flatMap.2 ⟨x, hx, List.mem_map_of_mem hz⟩)
  rw [runStmt]
  cases hv : Run.exec (evalExpr apply trace env value) σ with
  | mk result σ₁ =>
    rcases result with e | v
    · refine ⟨seen, le_refl seen, hheld.unshared, hheld.covers, fun flow σ' hx => ?_⟩
      rw [Run.exec_bind, hv] at hx
      cases hx
    · obtain ⟨hnames, htraceable⟩ := htracks v σ₁ hv
      have hbound := hheld.bind happly hr hv hnames htraceable hroots
      refine ⟨_, seen.le_bind _ _, hbound.unshared, fun x b hb => .inl (hheld.covers x b hb),
        fun flow σ' hx => ?_⟩
      rw [Run.exec_bind_ok hv] at hx
      obtain ⟨env', σ₂, hassign, hx⟩ := Run.exec_bind_eq_ok hx
      cases hx
      obtain ⟨node, ty?⟩ := target
      exact assign_held happly (fun x hx b hb => .inr ⟨hx, hb⟩) σ₁ env' _ hbound hassign

omit hr in
theorem ret_sound {value : Expr}
    (hreturned : ∀ z ∈ Alias.returnedVars (.ret value), returned z) :
    Sound r returned (Tracks apply trace) (runStmt apply trace fuel (.ret value))
      (stmtWalk apply trace fuel (.ret value)) := by
  intro seen env σ htracks hheld
  refine ⟨seen, le_refl seen, hheld.unshared, hheld.covers, fun flow σ' hx => ?_⟩
  rw [runStmt] at hx
  obtain ⟨v, σ₁, hv, hx⟩ := Run.exec_bind_eq_ok hx
  cases hx
  -- The returned expression knows only of what its own variables reach.
  let q (b : Nat) : Prop := ∃ z ∈ value.vars, env.Reaches z b
  have hthere : ∀ b, q b → b < σ.store.blocks.size := fun b ⟨z, _, hz⟩ => hheld.below z b hz
  have henv : EnvPaired (.self q) (· ∈ value.vars) env env := by
    intro z hz
    cases hfind : env.find? z with
    | none => exact .none
    | some w => exact .some (paired_self w fun b hb => ⟨z, hz, w, hfind, hb⟩)
  have hblocks := (evalExpr_alike happly trace value htracks henv).blocks hthere hv
  intro b hb x hseen
  rcases hblocks b hb with ⟨z, hz, hreach⟩ | ⟨hnew, -⟩
  · exact ⟨z, hreturned z hz, hheld.unshared z x b (hheld.covers z b hreach) hseen⟩
  · exact absurd (hheld.there x b hseen) (Nat.not_lt.2 hnew)

theorem reconcile_sound (side : Phi → Expr) {merge : List Phi}
    (hroots : ∀ phi ∈ merge, ∀ z ∈ (side phi).aliasRoots, r phi.name z) :
    Sound r returned (Tracks apply trace) (reconcile apply trace side merge)
      (.here (.merge side merge)) := by
  intro seen env σ htracks hheld
  unfold reconcile bindMerge
  cases hvs : Run.exec (evalExprs apply trace env (merge.map side)) σ with
  | mk result σ₁ =>
    rcases result with e | vs
    · refine ⟨seen, le_refl seen, hheld.unshared, hheld.covers, fun flow σ' hx => ?_⟩
      rw [Run.exec_bind, Run.exec_bind, hvs] at hx
      cases hx
    · obtain ⟨seen', hle, hheld', hbound⟩ :=
        hheld.bindSides happly hr side hvs (htracks vs σ₁ hvs) hroots
      refine ⟨seen', hle, hheld'.unshared, hheld'.covers, fun flow σ' hx => ?_⟩
      rw [Run.exec_bind, Run.exec_bind_ok hvs] at hx
      cases hx
      exact hheld'.insertAll hbound

/-- A block with the reconciliation after it. -/
theorem arm_sound (side : Phi → Expr) {block : Block} {merge : List Phi}
    (hblock : Sound r returned (Tracks apply trace) (runBlock apply trace fuel block)
      (blockWalk apply trace fuel block))
    (hroots : ∀ phi ∈ merge, ∀ z ∈ (side phi).aliasRoots, r phi.name z) :
    Sound r returned (Tracks apply trace) (runArm apply trace fuel side block merge)
      (armWalk apply trace fuel side block merge (blockWalk apply trace fuel block)) :=
  hblock.andThen (blockWalk_joint apply trace fuel block) (reconcile_sound happly trace hr side hroots)

theorem loop_sound {cond : Expr} {body : Block} {merge : List Phi}
    (hbody : Sound r returned (Tracks apply trace) (runBlock apply trace fuel body)
      (blockWalk apply trace fuel body))
    (hleft : ∀ phi ∈ merge, ∀ z ∈ phi.left.aliasRoots, r phi.name z)
    (hright : ∀ phi ∈ merge, ∀ z ∈ phi.right.aliasRoots, r phi.name z) :
    Sound r returned (Tracks apply trace) (runStmt apply trace fuel (.loop cond body merge))
      (stmtWalk apply trace fuel (.loop cond body merge)) := by
  have htest : TestHolds r (evalCond apply trace cond) :=
    fun hheld hx => evalCond_held happly hheld hx
  have hpasses := Sound.loop htest ((blockWalk_joint apply trace fuel body).andThen (.here _))
    (arm_sound happly trace fuel hr Phi.right hbody hright) fuel
  -- The variables are reconciled on entry, and then the passes follow each other.
  have hloop := ((reconcile_sound happly trace hr Phi.left hleft).andThen (.here _) hpasses).startAt
    (.stmt (.loop cond body merge))
  intro seen env σ htracks hheld
  obtain ⟨seen', hle, hunshared, hwalk, hflow⟩ := hloop seen env σ htracks hheld
  refine ⟨seen', hle, hunshared, hwalk, fun flow σ' hx => hflow flow σ' ?_⟩
  rw [runStmt] at hx
  obtain ⟨env₁, σ₁, hentry, hx⟩ := Run.exec_bind_eq_ok hx
  have hreconcile : Run.exec (reconcile apply trace Phi.left merge env) σ = (.ok (.next env₁), σ₁) := by
    unfold reconcile
    rw [Run.exec_bind_ok hentry]
    rfl
  rw [Run.exec_bind_ok hreconcile]
  exact hx

end

mutual
/-- A statement whose pairs of aliases are related is sound. -/
theorem runStmt_sound {apply : Apply} (happly : ApplyAlike apply) (trace : Trace) (fuel : Nat)
    (hr : Equivalence r) : ∀ s : Stmt, (∀ pair ∈ Alias.ofStmt s, r pair.1 pair.2) →
    (∀ z ∈ Alias.returnedVars s, returned z) →
      Sound r returned (Tracks apply trace) (runStmt apply trace fuel s)
        (stmtWalk apply trace fuel s)
  | .assign _ _, hpairs, _ => assign_sound happly trace fuel hr hpairs
  | .ret _, _, hreturned => ret_sound happly trace fuel hreturned
  | .branch cond onTrue onFalse merge, hpairs, hreturned => by
    obtain ⟨hblocks, hmerge⟩ := List.forall_mem_append.1 hpairs
    obtain ⟨htrue, hfalse⟩ := List.forall_mem_append.1 hblocks
    obtain ⟨hreturned₁, hreturned₂⟩ := List.forall_mem_append.1 hreturned
    obtain ⟨hleft, hright⟩ := related_sides hmerge
    have hsound₁ := runBlock_sound happly trace fuel hr onTrue htrue hreturned₁
    have hsound₂ := runBlock_sound happly trace fuel hr onFalse hfalse hreturned₂
    exact ((arm_sound happly trace fuel hr Phi.left hsound₁ hleft).branch
      (fun hheld hx => evalCond_held happly hheld hx)
      (arm_sound happly trace fuel hr Phi.right hsound₂ hright)).startAt _
  | .loop cond body merge, hpairs, hreturned => by
    obtain ⟨hbody, hmerge⟩ := List.forall_mem_append.1 hpairs
    obtain ⟨hleft, hright⟩ := related_sides hmerge
    have hsound := runBlock_sound happly trace fuel hr body hbody hreturned
    exact loop_sound happly trace fuel hr hsound hleft hright
termination_by structural s => s

theorem runBlock_sound {apply : Apply} (happly : ApplyAlike apply) (trace : Trace) (fuel : Nat)
    (hr : Equivalence r) : ∀ ss : List Stmt, (∀ pair ∈ Alias.ofBlock ss, r pair.1 pair.2) →
    (∀ z ∈ Alias.returnedVarsAll ss, returned z) →
      Sound r returned (Tracks apply trace) (runBlock apply trace fuel ss)
        (blockWalk apply trace fuel ss)
  | [], _, _ => fun seen env σ _ hheld => ⟨seen, le_refl seen, hheld.unshared, hheld.covers,
      fun flow σ' hx => by
        cases hx
        exact hheld⟩
  | s :: ss, hpairs, hreturned =>
    (runStmt_sound happly trace fuel hr s (fun pair h => hpairs pair (List.mem_append_left _ h))
      fun z h => hreturned z (List.mem_append_left _ h)).andThen (stmtWalk_joint apply trace fuel s)
        (runBlock_sound happly trace fuel hr ss
          (fun pair h => hpairs pair (List.mem_append_right _ h))
          fun z h => hreturned z (List.mem_append_right _ h))
termination_by structural ss => ss
end

/-! ## Calls -/

/-- The facts about aliases hold at a point, where `outer` is the storage of the arguments and of the
result. -/
def AliasFacts (a : Aliases) (outer : Nat → Prop) : AtPoint := fun _ env _ =>
  (∀ x y b, env.Reaches x b → env.Reaches y b → a.mayAlias x y = true)
    ∧ ∀ x b, env.Reaches x b → outer b → a.escapes x = true

/-- No two of the values share storage. -/
def Separated (vs : List Value) : Prop :=
  vs.Pairwise fun v w => ∀ b ∈ v.blocks, b ∉ w.blocks

theorem eq_of_separated {names : List String} {vs : List Value} (h : Separated vs) {x y : String}
    {v w : Value} (hx : (x, v) ∈ names.zip vs) (hy : (y, w) ∈ names.zip vs) {b : Nat}
    (hv : b ∈ v.blocks) (hw : b ∈ w.blocks) : x = y := by
  induction names generalizing vs with
  | nil => cases hx
  | cons name names ih =>
    cases vs with
    | nil => cases hx
    | cons u vs =>
      obtain ⟨hu, hvs⟩ := List.pairwise_cons.1 h
      rcases List.mem_cons.1 hx with heq | hx' <;> rcases List.mem_cons.1 hy with heq' | hy'
      · cases heq
        cases heq'
        rfl
      · cases heq
        exact absurd hw (hu w (List.of_mem_zip hy').2 b hv)
      · cases heq'
        exact absurd hv (hu v (List.of_mem_zip hx').2 b hw)
      · exact ih hvs hx' hy'

theorem exists_mem_zip {names : List String} {vs : List Value} (h : vs.length = names.length)
    {v : Value} (hv : v ∈ vs) : ∃ x, (x, v) ∈ names.zip vs := by
  obtain ⟨i, hi, rfl⟩ := List.getElem_of_mem hv
  have hi' : i < (names.zip vs).length := by
    rw [List.length_zip]
    omega
  exact ⟨names[i], List.getElem_zip ▸ List.getElem_mem hi'⟩

/-- A call on as many arguments as there are parameters runs the body. -/
theorem callTyped_eq_runBody (fuel : Nat) {f : TypedFn} {args : List Value}
    (h : args.length = f.argNames.length) :
    callTyped (fuel + 1) f args
      = runBody (applyFn fuel) [f.name] fuel f.body (.ofList (f.argNames.zip args)) := by
  have hbind : bindCall (.typed f) args = .ok (.ofList (f.argNames.zip args)) := if_pos h
  unfold callTyped applyFn
  rw [hbind]
  rfl

/-- What a body that is run gives is what a statement returns, or nothing. -/
theorem runBody_eq_ok {apply : Apply} {trace : Trace} {fuel : Nat} {body : Block} {env : Env}
    {v : Value} (h : Run.exec (runBody apply trace fuel body env) σ = (.ok v, σ')) :
    v = .none ∨ Run.exec (runBlock apply trace fuel body env) σ = (.ok (.ret v), σ') := by
  unfold runBody at h
  obtain ⟨flow, σ₁, hrun, h⟩ := Run.exec_bind_eq_ok h
  cases flow with
  | next env' =>
    cases h
    exact .inl rfl
  | ret w =>
    cases h
    exact .inr hrun

/-- At every point of a call on arguments that share no storage, variables that reach a common block
may alias, and variables that reach the storage of an argument or of the result escape. -/
theorem callTyped_aliasFacts (fuel : Nat) (f : TypedFn) {args : List Value} {σ : State Session}
    (hlen : args.length = f.argNames.length) (hargs : Separated args)
    (hthere : ∀ b ∈ blocksAll args, b < σ.store.blocks.size) (hc : σ.context.Impartial)
    (htracks : blockWalk (applyFn fuel) [f.name] fuel f.body (Tracks (applyFn fuel) [f.name])
      (.ofList (f.argNames.zip args)) σ) :
    blockWalk (applyFn fuel) [f.name] fuel f.body
      (AliasFacts (Aliases.compute f) fun b => b ∈ blocksAll args ∨ ∃ v σ',
        Run.exec (callTyped (fuel + 1) f args) σ = (.ok v, σ') ∧ b ∈ v.blocks)
      (.ofList (f.argNames.zip args)) σ := by
  let r (x y : String) : Prop := (Aliases.compute f).mayAlias x y = true
  have hr : Equivalence r := Aliases.mayAlias_equivalence f
  -- At the start each parameter has reached the storage of its argument.
  let seen : Seen := fun x b => ∃ v, (x, v) ∈ f.argNames.zip args ∧ b ∈ v.blocks
  have hheld : Held r seen (.ofList (f.argNames.zip args)) σ := by
    refine ⟨?_, ?_, ?_, hc⟩
    · rintro x y b ⟨v, hx, hv⟩ ⟨w, hy, hw⟩
      exact eq_of_separated hargs hx hy hv hw ▸ hr.refl x
    · rintro x b ⟨v, hx, hv⟩
      exact hthere b (mem_blocksAll.2 ⟨v, (List.of_mem_zip hx).2, hv⟩)
    · rintro x b ⟨v, hx, hv⟩
      exact ⟨v, NameMap.mem_of_find?_ofList hx, hv⟩
  have hsound : Sound r (· ∈ Alias.returnedVarsAll f.body) (Tracks (applyFn fuel) [f.name])
      (runBlock (applyFn fuel) [f.name] fuel f.body) (blockWalk (applyFn fuel) [f.name] fuel f.body) :=
    runBlock_sound (applyFn_alike fuel) [f.name] fuel hr f.body
      (fun pair hpair => (Aliases.mayAlias_compute f).2 (.rel _ _ hpair)) fun z hz => hz
  obtain ⟨seen', hle, hunshared, hwalk, hflow⟩ := hsound seen _ σ htracks hheld
  -- At the end one history covers every point, and no block in it is shared across classes.
  refine blockWalk_mono _ _ _ f.body _ _ (fun point env τ hcovers => ⟨?_, ?_⟩) _ _ hwalk
  · exact fun x y b hx hy => hunshared x y b (hcovers x b hx) (hcovers y b hy)
  · intro x b hx houter
    have hseen := hcovers x b hx
    rw [Aliases.escapes_compute]
    rcases houter with hb | ⟨v, σ', hcall, hb⟩
    · obtain ⟨v, hv, hb⟩ := mem_blocksAll.1 hb
      obtain ⟨p, hp⟩ := exists_mem_zip hlen hv
      exact ⟨p, .inl (List.of_mem_zip hp).1, hunshared p x b (hle p b ⟨v, hp, hb⟩) hseen⟩
    · rw [callTyped_eq_runBody fuel hlen] at hcall
      rcases runBody_eq_ok hcall with rfl | hret
      · cases hb
      · obtain ⟨z, hz, hzx⟩ := hflow _ σ' hret b hb x hseen
        exact ⟨z, .inr hz, hzx⟩

end Interpreter
end ArrayLang
