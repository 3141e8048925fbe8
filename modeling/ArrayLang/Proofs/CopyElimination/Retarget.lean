import ArrayLang.Proofs.CopyElimination.MovedWrite
import ArrayLang.Proofs.CopyElimination.WellTyped
import ArrayLang.Proofs.Dataflow.AliasSound
import ArrayLang.Proofs.Dataflow.Between
import ArrayLang.Proofs.Dataflow.Connected

/-!
# Building a value where it is copied to

A value that is made for a variable and then copied into a part of an array can be built in that part
at once, if control goes on from the one statement to the other and the indices of the part hold no
storage that is touched in between. The conditions under which the step is made provide for the rest:
nothing between the statements touches what may alias the array or the variable, and nothing binds the
variables of the part.
-/

namespace ArrayLang

open Pairing Value

namespace CopyElimination

variable {f g : TypedFn} {dest src : String} {indices : List Expr} {target value : Expr} {copy : Path}
  {alloc : Allocation}

/-! ## What is touched in between -/

/-- The definition of a variable whose allocation is found is the allocation. -/
theorem Fusable.defs (h : Fusable f (.compute f) dest indices target value copy src alloc) :
    (UseDef.compute f).defs src = [alloc.path] := by
  obtain ⟨ty?, made, hmem, -, hdefs⟩ := mem_assignments_of_allocations h.made
  obtain ⟨path, hpath⟩ := List.length_eq_one_iff.1 hdefs
  have hdefined : alloc.path ∈ (UseDef.compute f).defs src := by
    refine List.mem_map.2 ⟨⟨.define, src, alloc.path⟩, List.mem_filter.2 ⟨?_, by simp⟩, rfl⟩
    have hat := Block.leadsTo_iff.2 (Block.mem_assignments.1 hmem)
    refine UseDef.mem_accesses.2 (.inr ⟨alloc.path, _, hat, ?_⟩)
    exact List.mem_append_right _ (Access.define_mem_ofTarget (List.mem_singleton_self src))
  have hpath : (UseDef.compute f).defs src = [path] := hpath
  rw [hpath] at hdefined ⊢
  rw [List.mem_singleton.1 hdefined]

/-- A value that is made for one variable, copied once and never written to is not touched between its
making and the copy. -/
theorem Fusable.untouched_src (h : Fusable f (.compute f) dest indices target value copy src alloc)
    (hwrites : (UseDef.compute f).writes src = []) :
    (UseDef.compute f).touchedBetween src alloc.path copy = false := by
  refine Bool.eq_false_iff.2 fun htouched => ?_
  obtain ⟨⟨kind, name, path⟩, ha, hbetween⟩ := List.any_eq_true.1 htouched
  simp only [Path.between, Bool.and_eq_true, decide_eq_true_eq] at hbetween
  obtain ⟨rfl, hafter, hbefore⟩ := hbetween
  have hpoint : path ∈ (UseDef.compute f).points kind name :=
    List.mem_map.2 ⟨_, List.mem_filter.2 ⟨ha, by simp⟩, rfl⟩
  cases kind with
  | read =>
    have hreads : (UseDef.compute f).points .read name = [copy] := h.reads
    rw [hreads, List.mem_singleton] at hpoint
    exact absurd hbefore (hpoint ▸ lt_irrefl copy)
  | write =>
    have hwrites : (UseDef.compute f).points .write name = [] := hwrites
    rw [hwrites] at hpoint
    cases hpoint
  | define =>
    have hdefs : (UseDef.compute f).points .define name = [alloc.path] := h.defs
    rw [hdefs, List.mem_singleton] at hpoint
    exact absurd hafter (hpoint ▸ lt_irrefl alloc.path)

/-- The variables of the part that is copied to have their values already where the value is made. -/
theorem Fusable.ready_target (h : Fusable f (.compute f) dest indices target value copy src alloc)
    (htarget : target.indexTarget? = some (dest, indices)) {x : String} (hx : x ∈ target.vars) :
    ((UseDef.compute f).createdBefore? x copy).any (· < alloc.path) = true := by
  refine h.ready x ?_
  rcases (Expr.mem_vars_of_indexTarget? htarget).1 hx with rfl | ⟨e, he, hx⟩
  · exact List.mem_cons_self
  · exact List.mem_cons_of_mem _ (List.mem_flatMap.2 ⟨e, he, hx⟩)

/-- The indices of the part that the assignment at a path writes to. -/
def indicesAt (f : TypedFn) (copy : Path) : List Expr :=
  match f.body.stmtAt? copy with
  | some (.assign target _) => (target.indexTarget?.map (·.2)).getD []
  | _ => []

open Interpreter in
/-- At a point the session is `c`, and an index of the copy holds no storage if it may share it with a
variable that is touched between the making of the value and the copy. -/
def Settled (f : TypedFn) (alloc copy : Path) (c : Session) : AtPoint := fun _ env σ =>
  σ.context = c ∧ ∀ y ∈ (indicesAt f copy).flatMap Expr.vars, ∀ x,
    (UseDef.compute f).touchedBetween x alloc copy = true →
      (Aliases.compute f).mayAlias x y = true → ∀ b, ¬env.Reaches y b

open Interpreter in
/-- What is touched between the making of a value and its copy is apart from the value and from the part
that it is copied to. -/
theorem Fusable.keepsApart (h : Fusable f (.compute f) dest indices target value copy src alloc)
    (hcopy : f.body.stmtAt? copy = some (.assign target value))
    (htarget : target.indexTarget? = some (dest, indices)) (hwrites : (UseDef.compute f).writes src = [])
    {outer : Nat → Prop} {c : Session} {point : Point} {env : Env} {σ : State Session}
    (hfacts : AliasFacts (.compute f) outer point env σ)
    (hsettled : Settled f alloc.path copy c point env σ) :
    KeepsApart c (fun x => (UseDef.compute f).touchedBetween x alloc.path copy = true)
      (fun x => x ∈ target.vars ∨ x = src) point env σ := by
  refine ⟨hsettled.1, fun b ⟨x, hx, hxb⟩ ⟨y, hy, hyb⟩ => ?_⟩
  have halias : (Aliases.compute f).mayAlias x y = true := hfacts.1 x y b hxb hyb
  have hof : x ∈ (Aliases.compute f).of y :=
    (Aliases.mem_of_iff_mayAlias f).2 ((Aliases.mayAlias_equivalence f).symm halias)
  rcases hy with hy | rfl
  · rcases (Expr.mem_vars_of_indexTarget? htarget).1 hy with rfl | ⟨e, he, hy⟩
    · exact absurd hx (Bool.eq_false_iff.1 (h.untouched x hof))
    · refine hsettled.2 y (List.mem_flatMap.2 ⟨e, ?_, hy⟩) x hx halias b hyb
      rw [indicesAt, hcopy]
      show e ∈ (target.indexTarget?.map (·.2)).getD []
      rw [htarget]
      exact he
  · obtain ⟨z, hz⟩ := List.length_eq_one_iff.1 h.alone
    have hself : y ∈ (Aliases.compute f).of y :=
      (Aliases.mem_of_iff_mayAlias f).2 ((Aliases.mayAlias_equivalence f).refl y)
    have hz : (Aliases.compute f).of y = [z] := hz
    rw [hz, List.mem_singleton] at hof hself
    rw [hof, ← hself] at hx
    exact absurd hx (Bool.eq_false_iff.1 (h.untouched_src hwrites))

/-! ## The step -/

/-- The block of the two statements, at `i` and `j`, with the value made in `slot` and not copied. -/
def retargetBlock (slot : Expr) (i j : Nat) (block : Block) : Option Block :=
  match (block.eraseIdx j)[i]? with
  | some (.assign _ value) => some ((block.eraseIdx j).set i (.assign slot value))
  | _ => none

theorem retargetBlock_append {pre mid post block : Block} {i j : Nat} {source slot made : Expr}
    {s : Stmt} (hi : pre.length = i) (hj : pre.length + 1 + mid.length = j)
    (h : retargetBlock slot i j (pre ++ .assign source made :: (mid ++ s :: post)) = some block) :
    block = pre ++ .assign slot made :: (mid ++ post) := by
  have herase : (pre ++ .assign source made :: (mid ++ s :: post)).eraseIdx j
      = pre ++ .assign source made :: (mid ++ post) := by
    subst hj
    rw [Nat.add_assoc, Nat.add_comm 1, List.eraseIdx_append_of_length_le (Nat.le_add_right _ _),
      Nat.add_sub_cancel_left, List.eraseIdx_cons_succ,
      List.eraseIdx_append_of_length_le (Nat.le_refl _), Nat.sub_self, List.eraseIdx_cons_zero]
  subst hi
  rw [retargetBlock, herase, List.getElem?_append_right (Nat.le_refl _), Nat.sub_self] at h
  cases h
  rw [List.set_append_right _ _ (Nat.le_refl _), Nat.sub_self]
  rfl

theorem retargetBlock_noneInPlace {slot : Expr} {i j : Nat} {block block' : Block}
    (hslot : slot.NoneInPlace) (h : retargetBlock slot i j block = some block')
    (hblock : block.Everywhere Stmt.NoneInPlace) : block'.Everywhere Stmt.NoneInPlace := by
  unfold retargetBlock at h
  rw [Block.everywhere_iff] at hblock ⊢
  split at h
  · rename_i target value hat
    cases h
    intro s hs
    rcases List.mem_or_eq_of_mem_set hs with hs | rfl
    · exact hblock s (List.mem_of_mem_eraseIdx hs)
    · have hvalue := (hblock _ (List.mem_of_mem_eraseIdx (List.mem_of_getElem? hat))).1
      refine Stmt.everywhere_assign.2 (List.forall_mem_cons.2 ⟨hslot, ?_⟩)
      exact List.forall_mem_singleton.2 (hvalue _ (.tail _ (.head _)))
  · cases h

variable {ty : Ty} {made base key : Expr} {i j : Nat} {path : Path}

/-- Retargeting is a change of the block of the two statements, and leaves no access to `src`. -/
theorem FusedPair.retarget_modify
    (h : FusedPair f src (path ++ [i]) (path ++ [j]) ty made base key) (hij : i < j)
    (htotal : f.argNames.count src + f.body.accessed.count src = 2)
    (hstep : applyStep? f (.retarget (path ++ [i]) (path ++ [j])) = some g) :
    ∃ body typeEnv, g = { f with body, typeEnv } ∧ body.accessed.count src = 0
      ∧ f.body.modifyAt? (retargetBlock (.typed (.index base key) ty) i) (path ++ [j])
        = some body := by
  have hbefore := Path.sameBlockBefore_iff.2 ⟨path, i, j, rfl, rfl, hij⟩
  obtain ⟨rest, body, rfl, hremove, -, hchange⟩ := h.applyStep?_retarget hbefore hstep
  exact ⟨body, _, rfl, (h.retarget_count hbefore hremove hchange htotal).1,
    Block.modifyAt?_modifyAt? path (removeAt?_eq_some hremove).2 hchange⟩

open Interpreter in
/-- The body after the step follows the body before it. -/
theorem FusedPair.retarget_followsAlong
    (h : FusedPair f src (path ++ [i]) (path ++ [j]) ty made base key) (hij : i < j)
    (hplain : f.body.Everywhere Stmt.NoneInPlace)
    (hstraight : ∀ p e, f.body.stmtAt? p = some (.ret e) →
      p.between (path ++ [i]) (path ++ [j]) = false)
    (hready : ∀ x ∈ Expr.vars (.typed (.index base key) ty),
      ((UseDef.compute f).createdBefore? x (path ++ [j])).any (· < path ++ [i]) = true)
    (hsrc : (UseDef.compute f).touchedBetween src (path ++ [i]) (path ++ [j]) = false)
    {body : Block} (hunused : body.accessed.count src = 0)
    (hmodify : f.body.modifyAt? (retargetBlock (.typed (.index base key) ty) i) (path ++ [j])
      = some body)
    {apply : Apply} (happly : ApplyAlike apply) (trace : Trace) (fuel : Nat) (c : Session) :
    FollowsAlong
      (KeepsApart c (fun x => (UseDef.compute f).touchedBetween x (path ++ [i]) (path ++ [j]) = true)
        fun x => x ∈ Expr.vars (.typed (.index base key) ty) ∨ x = src) (· ≠ src)
      (blockWalk apply trace fuel f.body) (runBlock apply trace fuel f.body)
      (runBlock apply trace fuel body) := by
  have hslot : Expr.NoneInPlace (.typed (.index base key) ty) := hplain _ _ h.copyAt _ (.head _)
  have hbody : body.Everywhere Stmt.NoneInPlace :=
    Block.everywhere_modify Stmt.NoneInPlace.setPart h.copyAt hmodify
      (fun _ _ _ _ => retargetBlock_noneInPlace hslot) hplain
  refine modifyAt_followsAlong happly h.copyAt hmodify
    (Block.allWithin_of_count_eq_zero hbody hunused) ?_
  intro k block block' hlast hblock hat hchange hblock'
  rw [List.getLast?_concat] at hlast
  cases hlast
  -- In the block the value is made, some statements follow, and then it is copied.
  have hfirst := (Block.stmtAt?_of_blockAt? [] path hblock).symm.trans h.allocAt
  obtain ⟨pre, mid, post, rfl, rfl, hj⟩ := List.split_of_getElem?_lt hfirst hat hij
  obtain rfl := retargetBlock_append rfl hj hchange
  obtain ⟨hpre, hmoved, hrest⟩ := Stmt.allWithin_append.1 hblock'
  have hmid := UseDef.namesOnly_between hblock hj hplain
  have hpasses := UseDef.passes_between hblock hj hstraight hready
  have hreads := Expr.readsOnly_of_vars (fun _ => id) hslot
  refine append_followsAlong happly hpre (moved_followsAlong happly
    (Stmt.allWithin_of_everywhere mid hmid) hpasses (hreads.child (.head _))
    (hreads.child (.tail _ (.head _))) ?_ ?_ hmoved.2 (Stmt.allWithin_append.1 hrest).2)
  · rintro x htouched rfl
    exact Bool.eq_false_iff.1 hsrc htouched
  · exact fun x => hmoved.1.of_mem_vars

end CopyElimination

/-! ## Calls -/

open CopyElimination

/-- Building a value where it is copied to is not seen. Let no statement between the making of the value
and the copy return, and let a call on arguments that share no storage bind tracked values only, leave the
session as it is, and have settled indices at all its points. Where this call succeeds, so does the call
of the changed function on arguments that stand for the same, and both return values and leave stores that
stand for each other. -/
theorem Interpreter.callTyped_retarget {f g : TypedFn} {alloc copy : Path} (hf : f.check = .ok ())
    (hplain : f.body.Everywhere Stmt.NoneInPlace)
    (hfound : findStep? f (.compute f) = some (.retarget alloc copy))
    (hstep : applyStep? f (.retarget alloc copy) = some g)
    (hstraight : ∀ p e, f.body.stmtAt? p = some (.ret e) → p.between alloc copy = false)
    {ρ : Pairing} {args args' : List Value} (hlen : args.length = f.argNames.length)
    (hsep : Separated args) (hargs : PairedAll ρ args args') {fuel : Nat} {s t : Store} {c : Session}
    {v : Value} {σ : State Session} (hs : ρ.Matches s t) (hc : c.Impartial)
    (hwalk : blockWalk (applyFn fuel) [f.name] fuel f.body
      (fun point env τ => Tracks (applyFn fuel) [f.name] point env τ
        ∧ Settled f alloc copy c point env τ)
      (.ofList (f.argNames.zip args)) ⟨s, c⟩)
    (hcall : Run.exec (callTyped (fuel + 1) f args) ⟨s, c⟩ = (.ok v, σ)) :
    ∃ ρ' w t', Run.exec (callTyped (fuel + 1) g args') ⟨t, c⟩ = (.ok w, ⟨t', σ.context⟩)
      ∧ ρ ≤ ρ' ∧ ρ'.Matches σ.store t' ∧ v.Paired ρ' w := by
  obtain ⟨_, _, value, dest, indices, hmem, ⟨base, key, ty?, rfl⟩, htarget, hfound⟩ :=
    findStep?_eq_some hfound
  rcases hfound with ⟨-, heq⟩ | hfusion
  · cases heq
  obtain ⟨src, ⟨_, kind⟩, hfusable, ⟨hwrites, heq⟩ | ⟨-, -, heq⟩⟩ := fusion?_eq_some hfusion
  swap
  · cases heq
  cases heq
  obtain ⟨ty, made, hpair⟩ := hfusable.pair hmem hf
  have hcopy := Block.mem_assignments.1 hmem
  cases Option.some_inj.1 (hpair.copyAt.symm.trans hcopy)
  obtain ⟨path, i, j, rfl, rfl, hij⟩ := Path.sameBlockBefore_iff.1 hfusable.before
  obtain ⟨body, typeEnv, rfl, hunused, hmodify⟩ :=
    hpair.retarget_modify hij (hfusable.total hwrites) hstep
  -- What the aliases say holds at every point of the run, and so the storage is apart at every point.
  have hthere : ∀ b ∈ blocksAll args, b < s.blocks.size := fun b hb => by
    obtain ⟨_, hbc⟩ := hargs.left b hb
    exact hs.lt_left hbc
  have htracks := blockWalk_mono _ _ _ f.body _ _ (fun _ _ _ => And.left) _ _ hwalk
  have hfacts := callTyped_aliasFacts fuel f hlen hsep hthere hc htracks
  have hapart := blockWalk_joint _ _ _ f.body _ _ _ (fun _ _ _ hfacts hpoint =>
    hfusable.keepsApart hcopy htarget hwrites hfacts hpoint.2) _ _ hfacts hwalk
  have hfollows := hpair.retarget_followsAlong hij hplain hstraight
    (fun x hx => hfusable.ready_target htarget hx) (hfusable.untouched_src hwrites) hunused hmodify
    (applyFn_alike fuel) [f.name] fuel c
  have hbound : EnvPaired ρ (· ≠ src) (.ofList (f.argNames.zip args))
      (.ofList (f.argNames.zip args')) :=
    EnvPaired.insertAll (fun _ _ => .none) _ hargs
  rw [callTyped_eq_runBody fuel hlen] at hcall
  rw [callTyped_eq_runBody fuel (f := { f with body, typeEnv }) (hargs.length.trans hlen)]
  exact exec_runBody_of_followsAlong hfollows hbound hs hc hapart hcall

namespace FillRow

def int (n : Int64) : Expr :=
  .typed (.lit (.int n)) .int64

/-- The first element of `k`. -/
def first : Expr :=
  .typed (.index (.typed (.var "k") (.array .int64 1)) (int 0)) .int64

/-- `t = alloc 2; mid; d[key] = t; return 0` -/
def function (key : Expr) (mid : Block) : TypedFn where
  name := "fillRow"
  argNames := ["d", "k"]
  inputTypes := [.array .int64 2, .array .int64 1]
  body :=
    let row := Ty.array .int64 1
    let slot := Expr.typed (.index (.typed (.var "d") (.array .int64 2)) key) row
    .assign (.typed (.var "t") row) (.typed (.alloc .int64 (int 2)) row)
      :: (mid ++ [.assign slot (.typed (.var "t") row), .ret (int 0)])
  returnType := .int64
  typeEnv := .ofList [("d", .array .int64 2), ("k", .array .int64 1), ("t", .array .int64 1),
    ("x", .int64)]

/-- `d` has the rows `[1, 2]` and `[3, 4]`, and `k` has the element 0. -/
def start : State Session :=
  ⟨⟨#[#[.int 1, .int 2, .int 3, .int 4], #[.int 0]]⟩, .new none⟩

def args : List Value :=
  [.array ⟨.int64, 0, [2, 2], [2, 1], 0⟩, .array ⟨.int64, 1, [1], [1], 0⟩]

end FillRow

open FillRow Interpreter in
/-- Where only another variable is bound in between, the row is made in `d` and the result is the same. -/
theorem callTyped_retarget_fillRow :
    let f := function (int 0) [.assign (.typed (.var "x") .int64) (int 5)]
    ∃ g, applyStep? f (.retarget [0] [2]) = some g
      ∧ ∃ σ, Run.exec (callTyped 1 f args) start = (.ok (.int 0), σ)
      ∧ ∃ ρ' w t', Run.exec (callTyped 1 g args) start = (.ok w, ⟨t', σ.context⟩)
        ∧ (Pairing.self (· < 2)) ≤ ρ' ∧ ρ'.Matches σ.store t' ∧ Value.Paired ρ' (.int 0) w := by
  intro f
  have hplain : f.body.Everywhere Stmt.NoneInPlace := by
    have hfree : ∀ s ∈ f.body, s.NoneInPlace := by decide +kernel
    refine Block.everywhere_iff.2 fun s hs => ⟨hfree s hs, fun part inner hpart => ?_⟩
    rcases hs with _ | ⟨_, _ | ⟨_, _ | ⟨_, _ | ⟨_, ⟨⟩⟩⟩⟩⟩ <;> cases hpart
  have hstraight : ∀ p e, f.body.stmtAt? p = some (.ret e) → p.between [0] [2] = false := by
    intro p e h
    match p with
    | [] | [0] | [1] | [2] => cases h
    | [3] => rfl
    | [_ + 4] => cases h
    | 0 :: _ :: _ | 1 :: _ :: _ | 2 :: _ :: _ | 3 :: _ :: _ | (_ + 4) :: _ :: _ => cases h
  have hthere : (Pairing.self (· < 2)).Matches start.store start.store :=
    Pairing.self_matches fun b hb => hb
  have hargs : PairedAll (.self (· < 2)) args args := pairedAll_self _ (by decide)
  have hsep : Separated args := by unfold Separated; decide
  have hsettled (point : Point) (env : Env) (τ : State Session) (h : τ.context = start.context) :
      Settled f [0] [2] start.context point env τ := by
    refine ⟨h, fun y hy => ?_⟩
    have hnone : (indicesAt f [2]).flatMap Expr.vars = [] := by decide +kernel
    rw [hnone] at hy
    cases hy
  refine ⟨_, rfl, _, rfl, ?_⟩
  refine callTyped_retarget (by decide +kernel) hplain (by decide +kernel) rfl hstraight rfl hsep hargs
    hthere nofun ?_ rfl
  refine ⟨⟨fun v _ hv => ⟨.inl (by decide), .inr (.inr ⟨rfl, trivial⟩)⟩, hsettled _ _ _ rfl⟩,
    fun env₁ σ₁ h₁ => ?_⟩
  cases h₁
  refine ⟨⟨fun v _ hv => ⟨.inl (by decide), .inl ?_⟩, hsettled _ _ _ rfl⟩, fun env₂ σ₂ h₂ => ?_⟩
  · cases hv
    rfl
  cases h₂
  refine ⟨⟨fun v _ hv => ⟨.inl (by decide), .inr (.inr ⟨rfl, trivial⟩)⟩, hsettled _ _ _ rfl⟩,
    fun env₃ σ₃ h₃ => ?_⟩
  cases h₃
  refine ⟨⟨Expr.readsOnly_of_vars (fun _ => id) (by decide +kernel), hsettled _ _ _ rfl⟩,
    fun env₄ σ₄ h₄ => ?_⟩
  cases h₄

namespace FillRow

/-- The elements of `d` after a call. -/
def rows (f : TypedFn) : Option (Array Scalar) :=
  (Run.exec (Interpreter.callTyped 1 f args) start).2.store.blocks[0]?

/-- The value of `t` is found to be made in the row it is copied to. A call leaves `before` in `d`, and
`after` if it is made there. -/
def Retargets (f : TypedFn) (before after : List Scalar) : Prop :=
  f.check = .ok () ∧ findStep? f (.compute f) = some (.retarget [0] [2]) ∧ rows f = some before.toArray
    ∧ (applyStep? f (.retarget [0] [2])).bind rows = some after.toArray

/-- A return between the two statements is overlooked, and so is a write to what the index is read
from: in the first function the row is cleared though it returns before the copy, and in the second one
another row is. -/
theorem retargets_overlooked :
    Retargets (function (int 0) [.branch (.typed (.lit (.bool true)) .bool) [.ret (int 1)] [] []])
        [.int 1, .int 2, .int 3, .int 4] [.int 0, .int 0, .int 3, .int 4]
      ∧ Retargets (function first [.assign first (int 1)])
        [.int 1, .int 2, .int 0, .int 0] [.int 0, .int 0, .int 3, .int 4] :=
  ⟨⟨by decide +kernel, by decide +kernel, rfl, rfl⟩, by decide +kernel, by decide +kernel, rfl, rfl⟩

end FillRow
end ArrayLang
