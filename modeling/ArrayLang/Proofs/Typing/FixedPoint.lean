import ArrayLang.Proofs.Dataflow.Path
import ArrayLang.Proofs.Typing.JoinOrder
import ArrayLang.Proofs.Typing.Reannotation
import Mathlib.Data.List.Nodup

/-!
# Post-fixed points of inference

Inference walks the statements of a function, and the body of each loop in it, until no type changes. A
type is only ever widened, and every change is counted, so that a walk that ends with the count it began
with has changed nothing at all: everything it came across was typed under the types that inference gives.
These hold the values of all assignments and results then, wherever in the function they stand.

An expression is annotated in an earlier session than the one that inference leaves behind. It is annotated
there in the same way as long as no two specializations share a name.

## Main results

- `Infer.Settles`: what a walk that changes no type makes sure of.
- `Infer.inferBlock_settles`: in such a walk all statements fit the types.
- `inferFn_postFixed`: the types that inference gives hold all values.
-/

namespace ArrayLang

open Typing

/-! ## Types that hold all values -/

/-- The variable has a type that is not changed by joining `ty` to it. -/
def TypeEnv.Absorbs (env : TypeEnv) (name : String) (ty : Ty) : Prop :=
  ∃ known, env.find? name = some known ∧ known.join? ty = some known

/-- Joining `ty` to the types of the variables of a target does not change them. A tuple is taken
component by component, and a part of an array binds no variable. -/
inductive TypeEnv.AbsorbsTarget (env : TypeEnv) : Expr → Ty → Prop
  | var {name : String} {ty? : Option Ty} {ty : Ty} (h : env.Absorbs name ty) :
    AbsorbsTarget env ⟨.var name, ty?⟩ ty
  | tuple {targets : List Expr} {ty? : Option Ty} {types : List Ty}
    (h : List.Forall₂ (AbsorbsTarget env) targets types) :
    AbsorbsTarget env ⟨.tuple targets, ty?⟩ (.tuple types)
  | index {base key : Expr} {ty? : Option Ty} {ty : Ty} : AbsorbsTarget env ⟨.index base key, ty?⟩ ty

section
variable (specialize : Specializer) (t : Session) (inf : Inference)

/-- In the session `t` the expression is annotated under the inferred types of the variables, and has type
`ty`. The session is not changed. -/
def Inference.Types (e : Expr) (ty : Ty) : Prop :=
  ∃ e', exec (annotate specialize inf.env e) t = (.ok e', t) ∧ e'.ty? = some ty

/-- The type of a reconciled variable holds the values of one of its sides. -/
def Inference.HoldsSide (name : String) (e : Expr) : Prop :=
  ∃ ty, inf.Types specialize t e ty ∧ inf.env.Absorbs name ty

/-- The inferred types hold what the statement itself assigns, reconciles or returns. -/
def Stmt.Fits : Stmt → Prop
  | .assign target value => ∃ ty, inf.Types specialize t value ty ∧ inf.env.AbsorbsTarget target ty
  | .ret value => ∃ ty, inf.Types specialize t value ty ∧ inf.returnType.join? ty = some inf.returnType
  | .branch _ _ _ merge | .loop _ _ merge => ∀ phi ∈ merge,
    inf.HoldsSide specialize t phi.name phi.left ∧ inf.HoldsSide specialize t phi.name phi.right

end

/-- Some statement of the block, at any depth, returns a value. -/
def Block.Returns (block : Block) : Prop :=
  ∃ path value, block.stmtAt? path = some (.ret value)

/-! ## Widening -/

namespace InferState

variable {returns : Prop} {st st' st'' : InferState}

/-- The types of the variables and of the result, if inference ends here. -/
def inference (st : InferState) : Inference :=
  ⟨st.env, st.returned?.getD .none⟩

/-- The types of variables are only widened, and every change is counted. If nothing `returns`, no type of
the result is found. -/
structure Advances (returns : Prop) (st st' : InferState) : Prop where
  version_le : st.version ≤ st'.version
  unchanged (h : st'.version = st.version) : st' = st
  widens {name : String} {ty : Ty} (h : st.env.find? name = some ty) :
    ∃ ty', st'.env.find? name = some ty' ∧ ty.Widens ty'
  returned (h : ¬returns) : st'.returned? = st.returned?

namespace Advances

theorem refl (st : InferState) : st.Advances returns st where
  version_le := Nat.le_refl _
  unchanged _ := rfl
  widens h := ⟨_, h, .refl _⟩
  returned _ := rfl

theorem trans (h : st.Advances returns st') (h' : st'.Advances returns st'') :
    st.Advances returns st'' where
  version_le := Nat.le_trans h.version_le h'.version_le
  unchanged hversion := by
    have hle := h.version_le
    have hle' := h'.version_le
    rw [h'.unchanged (by omega), h.unchanged (by omega)]
  widens hfind := by
    obtain ⟨ty', hfind', hwidens⟩ := h.widens hfind
    obtain ⟨ty'', hfind'', hwidens'⟩ := h'.widens hfind'
    exact ⟨ty'', hfind'', hwidens.trans hwidens'⟩
  returned hno := (h'.returned hno).trans (h.returned hno)

/-- On the way from a state back to itself nothing changes. -/
theorem eq_of_back (h : st.Advances returns st') (h' : st'.Advances returns st) : st' = st :=
  h.unchanged (Nat.le_antisymm h'.version_le h.version_le)

/-- One change that is counted. -/
theorem of_succ (hversion : st'.version = st.version + 1)
    (hwidens : ∀ name ty, st.env.find? name = some ty →
      ∃ ty', st'.env.find? name = some ty' ∧ ty.Widens ty')
    (hreturned : ¬returns → st'.returned? = st.returned?) : st.Advances returns st' where
  version_le := by omega
  unchanged h := by omega
  widens h := hwidens _ _ h
  returned := hreturned

theorem rebind {name : String} {ty joined : Ty}
    (h : Ty.joinOnto? (st.env.find? name) ty = some joined) :
    st.Advances returns (st.rebind name joined) := by
  unfold InferState.rebind
  split
  · exact .refl st
  · refine .of_succ rfl (fun x known hfind => ?_) fun _ => rfl
    dsimp only
    rw [NameMap.find?_insert]
    by_cases hx : x = name
    · rw [hx] at hfind
      rw [hfind] at h
      exact ⟨joined, if_pos hx, (Ty.join?_lift h).1⟩
    · exact ⟨known, by rw [if_neg hx, hfind], .refl _⟩

theorem setReturned (hreturns : returns) (ty : Ty) :
    st.Advances returns (st.setReturned ty) := by
  unfold InferState.setReturned
  split
  · exact .refl st
  · exact .of_succ rfl (fun x known hfind => ⟨known, hfind, .refl _⟩) (absurd hreturns)

end Advances
end InferState

/-! ## Walks that change nothing -/

namespace Infer

variable {t : Session} {returns : Prop} {α β : Type}

/-- The walk only widens types and only adds to the session. If it changes no type, `Q` holds of the types
and of its result, seen from the later session `t`. -/
def Settles (t : Session) (returns : Prop) (x : Infer α) (Q : InferState → α → Prop) : Prop :=
  ∀ st s a st' u, exec (x.run st) s = (.ok (a, st'), u) →
    st.Advances returns st' ∧ t.Grows s u ∧ (st' = st → s.Reserves t → t.Grows u t → Q st a)

namespace Settles

theorem pure {a : α} {Q : InferState → α → Prop} (h : ∀ st, Q st a) :
    Settles t returns (Pure.pure a) Q := by
  intro st s b st' u hrun
  cases hrun
  exact ⟨.refl st, .refl t s, fun _ _ _ => h st⟩

theorem bind {x : Infer α} {f : α → Infer β} {P : InferState → α → Prop} {Q : InferState → β → Prop}
    (hx : Settles t returns x P) (hf : ∀ a, Settles t returns (f a) fun st b => P st a → Q st b) :
    Settles t returns (x >>= f) Q := by
  intro st s b st'' u hrun
  rw [StateT.run_bind] at hrun
  obtain ⟨⟨a, st'⟩, v, hxrun, hfrun⟩ := exec_bind_eq_ok hrun
  obtain ⟨hadvx, hgrowx, hP⟩ := hx st s a st' v hxrun
  obtain ⟨hadvf, hgrowf, hQ⟩ := hf a st' v b st'' u hfrun
  refine ⟨hadvx.trans hadvf, hgrowx.trans hgrowf, fun hsame hs hu => ?_⟩
  subst hsame
  -- A walk that comes back to its first state has not left it in between.
  obtain rfl := hadvx.eq_of_back hadvf
  have hvt := hgrowf.trans hu
  have hv := (hgrowx.typed hvt.specializations hs).1
  exact hQ rfl hv hu (hP rfl hs hvt)

theorem mono {x : Infer α} {P Q : InferState → α → Prop} (hx : Settles t returns x P)
    (h : ∀ st a, P st a → Q st a) : Settles t returns x Q := by
  intro st s a st' u hrun
  obtain ⟨hadv, hgrow, hP⟩ := hx st s a st' u hrun
  exact ⟨hadv, hgrow, fun hsame hs hu => h st a (hP hsame hs hu)⟩

theorem get : Settles t returns (get : Infer InferState) fun st a => a = st := by
  intro st s a st' u hrun
  cases hrun
  exact ⟨.refl st, .refl t s, fun _ _ _ => rfl⟩

/-- What a computation gives that is a step of the walk, it gives again in `t`. -/
theorem lift {x : Typing α} (hx : Repeats t x) :
    Settles t returns (liftM x : Infer α) fun _ a => exec x t = (.ok a, t) := by
  intro st s a st' u hrun
  change exec (x >>= fun a => Pure.pure (a, st)) s = _ at hrun
  obtain ⟨b, v, hxrun, hpure⟩ := exec_bind_eq_ok hrun
  cases hpure
  exact ⟨.refl st, hx.grows_of_eq hxrun, fun _ hs hu => hx.again hxrun hs hu⟩

theorem fail (cause : TypingError) {Q : InferState → α → Prop} :
    Settles t returns (Typing.fail cause : Infer α) Q := by
  intro st s a st' u hrun
  cases hrun

theorem forM {f : α → Infer Unit} {Q : InferState → α → Prop} {l : List α}
    (h : ∀ a, Settles t returns (f a) fun st _ => Q st a) :
    Settles t returns (l.forM f) fun st _ => ∀ a ∈ l, Q st a := by
  induction l with
  | nil => exact pure fun _ _ h => (List.not_mem_nil h).elim
  | cons a l ih =>
    refine bind (h a) fun _ => ih.mono fun st _ hl ha => ?_
    exact List.forall_mem_cons.2 ⟨ha, hl⟩

end Settles

theorem exec_changes_eq_ok {pass : Infer Unit} {st st' : InferState} {s u : Session} {changed : Bool}
    (h : exec ((changes pass).run st) s = (.ok (changed, st'), u)) :
    exec (pass.run st) s = (.ok ((), st'), u) ∧ changed = decide (st'.version ≠ st.version) := by
  unfold changes at h
  rw [StateT.run_bind, StateT.run_get, pure_bind, StateT.run_bind] at h
  obtain ⟨⟨⟨⟩, st₁⟩, v, hpass, hrest⟩ := exec_bind_eq_ok h
  cases hrest
  exact ⟨hpass, rfl⟩

variable {pass : Infer Unit} {Q : InferState → Prop} {st' : InferState} {u : Session}

/-- A walk from `st` and `s` to `st'` and `u` that ends with types of which `Q` holds. -/
def Reaches (t : Session) (returns : Prop) (Q : InferState → Prop) (st : InferState) (s : Session)
    (st' : InferState) (u : Session) : Prop :=
  st.Advances returns st' ∧ t.Grows s u ∧ (s.Reserves t → t.Grows u t → Q st')

/-- A pass that may have to be followed by others. If it has changed no type, it is the last one, and it
started with the types with which it ends. -/
theorem pass_then {next : Infer Unit} (hpass : Settles t returns pass fun st _ => Q st)
    (hnext : ∀ {st s}, exec (next.run st) s = (.ok ((), st'), u) → Reaches t returns Q st s st' u)
    {st : InferState} {s : Session}
    (hrun : exec (StateT.run (do if ← changes pass then next : Infer Unit) st) s =
      (.ok ((), st'), u)) : Reaches t returns Q st s st' u := by
  rw [StateT.run_bind] at hrun
  obtain ⟨⟨changed, st₁⟩, v, hchange, hrest⟩ := exec_bind_eq_ok hrun
  obtain ⟨hpassRun, hchanged⟩ := exec_changes_eq_ok hchange
  obtain ⟨hadv, hgrow, hQ⟩ := hpass st s () st₁ v hpassRun
  cases changed with
  | true =>
    -- What this pass has found is overtaken by the next ones, up to the names that stay reserved.
    obtain ⟨hadv', hgrow', hQ'⟩ := hnext hrest
    refine ⟨hadv.trans hadv', hgrow.trans hgrow', fun hs hu => ?_⟩
    exact hQ' (hgrow.typed (hgrow'.trans hu).specializations hs).1 hu
  | false =>
    cases hrest
    obtain rfl := hadv.unchanged (by simpa using hchanged)
    exact ⟨hadv, hgrow, hQ rfl⟩

/-- A pass that is repeated until it changes no type makes sure of `Q` in the end. -/
theorem settle_last (hpass : Settles t returns pass fun st _ => Q st) (name : String) (passes : Nat)
    {st : InferState} {s : Session}
    (hrun : exec ((settle name pass passes).run st) s = (.ok ((), st'), u)) :
    Reaches t returns Q st s st' u := by
  induction passes generalizing st s with
  | zero => exact pass_then hpass (fun h => by cases h) hrun
  | succ passes ih => exact pass_then hpass ih hrun

theorem settle_settles (hpass : Settles t returns pass fun st _ => Q st) (name : String)
    (passes : Nat) : Settles t returns (settle name pass passes) fun st _ => Q st := by
  intro st s _ st' u hrun
  obtain ⟨hadv, hgrow, hQ⟩ := settle_last hpass name passes hrun
  exact ⟨hadv, hgrow, fun hsame hs hu => hsame ▸ hQ hs hu⟩

/-! ## Walking code -/

theorem bindVar_settles (name : String) (ty : Ty) :
    Settles t returns (bindVar name ty) fun st _ => st.env.Absorbs name ty := by
  intro st s _ st' u hrun
  rcases exec_bindVar st name ty s with ⟨joined, hjoined, hexec⟩ | ⟨-, e, hexec⟩
  · rw [hexec] at hrun
    cases hrun
    refine ⟨.rebind hjoined, .refl t s, fun hsame _ _ => ?_⟩
    have hfind : st.env.find? name = some joined := by
      rw [← hsame, InferState.find?_rebind, if_pos rfl]
    rw [hfind] at hjoined
    exact ⟨joined, hfind, hjoined⟩
  · rw [hexec] at hrun
    cases hrun

theorem bindReturn_settles (hreturns : returns) (ty : Ty) :
    Settles t returns (bindReturn ty) fun st _ =>
      st.inference.returnType.join? ty = some st.inference.returnType := by
  intro st s _ st' u hrun
  rcases exec_bindReturn st ty s with ⟨joined, hjoined, hexec⟩ | ⟨-, e, hexec⟩
  · rw [hexec] at hrun
    cases hrun
    refine ⟨.setReturned hreturns joined, .refl t s, fun hsame _ _ => ?_⟩
    have hreturned : st.returned? = some joined := by
      rw [← hsame, InferState.returned?_setReturned]
    show (st.returned?.getD .none).join? ty = some (st.returned?.getD .none)
    rw [hreturned] at hjoined ⊢
    exact hjoined
  · rw [hexec] at hrun
    cases hrun

section
variable {fuel : Nat} (ht : t.NamedApart) (hnames : ∀ name ∈ t.sources.names, '[' ∉ name.toList)
include ht hnames

theorem annotated_settles (e : Expr) :
    Settles t returns (annotated (specializeBound fuel) e) fun st e' =>
      exec (annotate (specializeBound fuel) st.env e) t = (.ok e', t) := by
  unfold annotated
  refine .bind .get fun st => ?_
  refine (Settles.lift (annotate_repeats ht hnames fuel st.env e)).mono fun st' e' he' hst => ?_
  rw [← hst]
  exact he'

theorem typed_settles (e : Expr) :
    Settles t returns (typed (specializeBound fuel) e) fun st ty =>
      st.inference.Types (specializeBound fuel) t e ty := by
  unfold typed
  refine .bind (annotated_settles ht hnames e) fun e' => ?_
  have hrepeats : Repeats t (typeOf e') := (Repeats.congruence hnames).typeOf e'
  refine (Settles.lift hrepeats).mono fun st ty hty he' => ⟨e', he', ?_⟩
  exact (Meets.typeOf (I := anySession) e' t trivial).2 ty (by rw [hty])

omit ht hnames in
mutual
theorem bindTarget_settles (ht : t.NamedApart)
    (hnames : ∀ name ∈ t.sources.names, '[' ∉ name.toList) {node : Node} {ty? : Option Ty} (ty : Ty) :
    Settles t returns (bindTarget (specializeBound fuel) ⟨node, ty?⟩ ty) fun st _ =>
      st.env.AbsorbsTarget ⟨node, ty?⟩ ty := by
  cases node with
  | var name => exact (bindVar_settles name ty).mono fun st _ h => .var h
  | tuple targets =>
    cases ty with
    | tuple types =>
      rw [bindTarget]
      split
      · rename_i hlen
        exact (bindTargets_settles ht hnames targets types hlen.symm).mono fun st _ h => .tuple h
      · exact .fail _
    | _ => exact .fail _
  | index base key =>
    rw [bindTarget]
    exact .bind (annotated_settles ht hnames _) fun _ => .pure fun _ _ => .index
  | _ => exact .fail _
termination_by sizeOf node

theorem bindTargets_settles (ht : t.NamedApart)
    (hnames : ∀ name ∈ t.sources.names, '[' ∉ name.toList) :
    ∀ (targets : List Expr) (types : List Ty),
      targets.length = types.length →
      Settles t returns (bindTargets (specializeBound fuel) targets types) fun st _ =>
        List.Forall₂ st.env.AbsorbsTarget targets types
  | ⟨node, ty?⟩ :: targets, ty :: types, hlen => by
    rw [bindTargets]
    refine .bind (bindTarget_settles ht hnames ty) fun _ => ?_
    exact (bindTargets_settles ht hnames targets types (Nat.succ.inj hlen)).mono fun st _ hs h =>
      .cons h hs
  | [], [], _ => .pure fun _ => .nil
termination_by targets => sizeOf targets
end

theorem bindSide_settles (side : Phi → Expr) (merge : List Phi) :
    Settles t returns (bindSide (specializeBound fuel) side merge) fun st _ =>
      ∀ phi ∈ merge, st.inference.HoldsSide (specializeBound fuel) t phi.name (side phi) :=
  .forM fun phi => .bind (typed_settles ht hnames _) fun ty =>
    (bindVar_settles phi.name ty).mono fun _ _ h hty => ⟨ty, hty, h⟩

/-- One pass over a loop, from its condition on. -/
theorem loopPass_settles (cond : Expr) {body : Block} (merge : List Phi) {P : InferState → Prop}
    (hbody : Settles t returns (inferBlock (specializeBound fuel) body) fun st _ => P st) :
    Settles t returns (do
        let _ ← annotated (specializeBound fuel) cond
        inferBlock (specializeBound fuel) body
        bindSide (specializeBound fuel) Phi.right merge) fun st _ =>
      P st ∧ ∀ phi ∈ merge, st.inference.HoldsSide (specializeBound fuel) t phi.name phi.right := by
  refine .bind (annotated_settles ht hnames cond) fun _ => .bind hbody fun _ => ?_
  exact (bindSide_settles ht hnames Phi.right merge).mono fun st _ hright hP _ => ⟨hP, hright⟩

omit ht hnames in
mutual
theorem inferStmt_settles (ht : t.NamedApart)
    (hnames : ∀ name ∈ t.sources.names, '[' ∉ name.toList) :
    ∀ s : Stmt, s.Everywhere (fun s => ∀ value, s = .ret value → returns) →
      Settles t returns (inferStmt (specializeBound fuel) s) fun st _ =>
        s.Everywhere (·.Fits (specializeBound fuel) t st.inference)
  | .assign ⟨node, ty?⟩ value, _ => by
    rw [inferStmt]
    refine .bind (typed_settles ht hnames value) fun ty => ?_
    refine (bindTarget_settles ht hnames ty).mono fun st _ htarget hty => ?_
    exact ⟨⟨ty, hty, htarget⟩, fun _ _ h => by cases h⟩
  | .ret value, hret => by
    rw [inferStmt]
    refine .bind (typed_settles ht hnames value) fun ty => ?_
    refine (bindReturn_settles (hret.1 value rfl) ty).mono fun st _ hjoin hty => ?_
    exact ⟨⟨ty, hty, hjoin⟩, fun _ _ h => by cases h⟩
  | .branch cond onTrue onFalse merge, hret => by
    obtain ⟨-, htrue, hfalse⟩ := Stmt.everywhere_branch.1 hret
    rw [inferStmt]
    refine .bind (annotated_settles ht hnames cond) fun _ => ?_
    refine .bind (inferBlock_settles ht hnames onTrue htrue) fun _ => ?_
    refine .bind (inferBlock_settles ht hnames onFalse hfalse) fun _ => ?_
    refine (Settles.forM fun phi => ?_).mono fun st _ hmerge hfalse htrue _ =>
      Stmt.everywhere_branch.2 ⟨hmerge, htrue, hfalse⟩
    refine .bind (typed_settles ht hnames phi.left) fun left => ?_
    refine .bind (typed_settles ht hnames phi.right) fun right => ?_
    refine .bind (bindVar_settles phi.name left) fun _ => ?_
    exact (bindVar_settles phi.name right).mono fun st _ habsorbs habsorbs' hright hleft =>
      ⟨⟨left, hleft, habsorbs'⟩, ⟨right, hright, habsorbs⟩⟩
  | .loop cond body merge, hret => by
    obtain ⟨-, hbody⟩ := Stmt.everywhere_loop.1 hret
    rw [inferStmt]
    refine .bind (bindSide_settles ht hnames Phi.left merge) fun _ => ?_
    have hpass := loopPass_settles ht hnames cond merge (inferBlock_settles ht hnames body hbody)
    refine (settle_settles hpass _ maxPasses).mono fun st _ ⟨hbody, hright⟩ hleft => ?_
    exact Stmt.everywhere_loop.2 ⟨fun phi hphi => ⟨hleft phi hphi, hright phi hphi⟩, hbody⟩
termination_by structural s => s

theorem inferBlock_settles (ht : t.NamedApart)
    (hnames : ∀ name ∈ t.sources.names, '[' ∉ name.toList) :
    ∀ ss : Block,
      ss.Everywhere (fun s => ∀ value, s = .ret value → returns) →
      Settles t returns (inferBlock (specializeBound fuel) ss) fun st _ =>
        ss.Everywhere (·.Fits (specializeBound fuel) t st.inference)
  | [], _ => .pure fun _ => Block.everywhere_nil
  | s :: ss, hret => by
    obtain ⟨hs, hss⟩ := Block.everywhere_cons.1 hret
    rw [inferBlock]
    refine .bind (inferStmt_settles ht hnames s hs) fun _ => ?_
    exact (inferBlock_settles ht hnames ss hss).mono fun st _ hrest hfirst =>
      Block.everywhere_cons.2 ⟨hfirst, hrest⟩
termination_by structural ss => ss
end

end
end Infer

/-! ## Functions -/

/-- Different names are each bound to their own type. -/
theorem find?_ofList_of_mem {pairs : List (String × Ty)} (hpairs : (pairs.map (·.1)).Nodup)
    {p : String × Ty} (hp : p ∈ pairs) : (NameMap.ofList pairs).find? p.1 = some p.2 := by
  obtain ⟨ty, hty⟩ := (find?_foldl_insert (m := ∅) pairs).2 (.inl (List.mem_map_of_mem hp))
  have heq : (p.1, ty) = p :=
    List.inj_on_of_nodup_map hpairs (NameMap.mem_of_find?_ofList hty) hp rfl
  rw [← heq]
  exact hty

/-- The types that inference gives are a post-fixed point. In the session `t` that it leaves behind, the
value of every assignment, of both sides of every reconciled variable and of every return is annotated with
a type that the types of what it is bound to absorb, and these absorb the types of the parameters. The
result has type `none` if nothing is returned. No two specializations share a name here: not two of `t`,
and not one of `t` and another function that was there before. -/
theorem inferFn_postFixed {fuel : Nat} {func : FnDecl} {params : List (String × Ty)} {s t : Session}
    {inf : Inference} (hparams : (params.map (·.1)).Nodup)
    (hrun : exec (inferFn (specializeBound fuel) func params) s = (.ok inf, t))
    (hnames : ∀ name ∈ t.sources.names, '[' ∉ name.toList) (hapart : t.NamedApart)
    (hreserved : s.Reserves t) :
    Block.Everywhere (·.Fits (specializeBound fuel) t inf) func.body ∧
      (¬Block.Returns func.body → inf.returnType = .none) ∧
      ∀ p ∈ params, inf.env.Absorbs p.1 p.2 := by
  unfold inferFn at hrun
  obtain ⟨⟨⟨⟩, found⟩, u, hsettle, hrest⟩ := exec_bind_eq_ok hrun
  cases hrest
  have hblock : Infer.Settles t (Block.Returns func.body)
      (Infer.inferBlock (specializeBound fuel) func.body) fun st _ =>
        Block.Everywhere (·.Fits (specializeBound fuel) t st.inference) func.body :=
    Infer.inferBlock_settles hapart hnames func.body fun path s hat value hret =>
      ⟨path, value, hret ▸ hat⟩
  obtain ⟨hadv, -, hfits⟩ := Infer.settle_last hblock func.name Infer.maxPasses hsettle
  -- The last pass ends in the session and with the types that inference leaves behind.
  refine ⟨hfits hreserved (.refl _ _), fun hno => ?_, fun p hp => ?_⟩
  · have hreturned : found.returned? = none := hadv.returned hno
    show found.returned?.getD .none = .none
    rw [hreturned]
    rfl
  · obtain ⟨known, hknown, hwidens⟩ := hadv.widens (find?_ofList_of_mem hparams hp)
    exact ⟨known, hknown, (Ty.join?_comm _ _).trans (Ty.join?_eq_right_iff.2 hwidens)⟩

/-- `fn halve(n): x = n; while 1 < x: x = half(x); return x`, where `x` is reconciled at the head of the
loop. -/
def halve : FnDecl :=
  ⟨"halve", ⟨["n"], [], none⟩, [],
    [.loop (.plain (.op .less [.plain (.lit (.int 1)), .plain (.var "x")]))
        [.assign (.plain (.var "y")) (.plain (.call "half" [.plain (.var "x")]))]
        [⟨"x", .plain (.var "n"), .plain (.var "y")⟩],
      .ret (.plain (.var "x"))]⟩

/-- A session with the function and `fn half(x): return x / 2`. -/
def halving : Session :=
  .ofSources none [halve, ⟨"half", ⟨["x"], [], none⟩, [],
    [.ret (.plain (.op .divide [.plain (.var "x"), .plain (.lit (.int 2))]))]⟩]

/-- The loop widens its variable from an integer to a float. On the way `half` is specialized for both. -/
theorem inferFn_postFixed_halve :
    let run := exec (inferFn (specializeBound 2) halve [("n", .scalar .int64)]) halving
    ∃ inf, run.1 = .ok inf ∧ inf.env.find? "x" = some (.scalar .float64) ∧
      run.2.specializations.length = 2 ∧
      Block.Everywhere (·.Fits (specializeBound 2) run.2 inf) halve.body ∧
      inf.env.Absorbs "n" (.scalar .int64) := by
  intro run
  have hx : run.1.map (·.env.find? "x") = .ok (some (.scalar .float64)) := by decide +kernel
  obtain ⟨inf, hinf⟩ : ∃ inf, run.1 = .ok inf := by
    cases hr : run.1 with
    | ok inf => exact ⟨inf, rfl⟩
    | error e =>
      rw [hr] at hx
      cases hx
  rw [hinf] at hx
  have hrun : run = (.ok inf, run.2) := Prod.ext hinf rfl
  have hnames : ∀ name ∈ run.2.sources.names, '[' ∉ name.toList := by decide +kernel
  obtain ⟨hfits, -, hparams⟩ := inferFn_postFixed (by decide) hrun hnames (by decide +kernel)
    (by decide +kernel)
  exact ⟨inf, hinf, Except.ok.inj hx, by decide +kernel, hfits, hparams _ List.mem_cons_self⟩

end ArrayLang
