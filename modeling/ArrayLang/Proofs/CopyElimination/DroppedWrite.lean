import ArrayLang.Proofs.CopyElimination.Separate
import ArrayLang.Proofs.Interpreter.Quiet

/-!
# Dropping a write

A write to a part of a variable that has storage of its own and is never read can be dropped, if
evaluating it calls no function. The function without the write then returns the same values and
leaves its arguments as the function itself does.
-/

namespace ArrayLang

open Pairing Value

/-- Separate storage stays separate when the first run alone makes blocks and writes to that of
`dest`. -/
theorem Separate.touch_own {ρ τ : Pairing} {dest : String} {env env' : Env} {s s' t : Store}
    (h : Separate dest ρ τ env env' s t) (hs : s.TouchesOnly τ.Left s') :
    Separate dest ρ τ env env' s' t :=
  h.touch hs (.refl (fun _ => False) t)
    (fun b hb ⟨c, hbc⟩ => (h.apart b c hbc).1.2 hb) fun _ _ => id

theorem Stmt.owns_of_getElem? {dest : String} {block : Block} {k : Nat} {s : Stmt}
    (hown : Stmt.AllOwn dest block) (hat : block[k]? = some s) : s.Owns dest := by
  induction block generalizing k with
  | nil => cases hat
  | cons s' ss ih =>
    cases k with
    | zero =>
      cases hat
      exact hown.1
    | succ k => exact ih hown.2 hat

namespace Interpreter

variable {ρ τ : Pairing} {dest : String} {apply : Apply} {trace : Trace} {fuel : Nat}

/-- What a quiet expression evaluates to, and what that does to the store. -/
theorem exec_quiet {e : Expr} {env : Env} {s : Store} {c : Session} {v : Value}
    {σ : State Session} (he : e.CallsNothing)
    (h : Run.exec (evalExpr apply trace env e) ⟨s, c⟩ = (.ok v, σ)) (p : Nat → Prop) :
    σ.context = c ∧ s.TouchesOnly p σ.store := by
  have hquiet := evalExpr_quiet trace env apply e he ⟨s, c⟩
  rw [h] at hquiet
  exact ⟨hquiet.1, hquiet.2.mono fun _ => False.elim⟩

section
variable (happly : ApplyAlike apply)
include happly

/-- A write to a part of `dest` that calls nothing only changes the storage of `dest`. -/
theorem exec_write {base key value : Expr} {ty? : Option Ty} {indices : List Expr}
    {env env' : Env} {s t : Store} {c : Session} {flow : Flow} {σ : State Session}
    (htarget : Expr.indexTarget? ⟨.index base key, ty?⟩ = some (dest, indices))
    (hindices : ∀ i ∈ indices, i.ReadsOnly (· ≠ dest)) (hbase : base.CallsNothing)
    (hkey : key.CallsNothing) (hvalue : value.CallsNothing) (hc : c.Impartial)
    (hs : Separate dest ρ τ env env' s t)
    (h : Run.exec (runStmt apply trace fuel (.assign ⟨.index base key, ty?⟩ value) env) ⟨s, c⟩
      = (.ok flow, σ)) :
    flow = .next env ∧ σ.context = c ∧ Separate dest ρ τ env env' σ.store t := by
  rw [runStmt] at h
  obtain ⟨v, ⟨s₁, c₁⟩, hv, h⟩ := Run.exec_bind_eq_ok h
  obtain ⟨env₁, σ₁, hassign, hnext⟩ := Run.exec_bind_eq_ok h
  cases hnext
  rw [assign] at hassign
  obtain ⟨b, ⟨s₂, c₂⟩, hb, hassign⟩ := Run.exec_bind_eq_ok hassign
  obtain ⟨k, ⟨s₃, c₃⟩, hk, hassign⟩ := Run.exec_bind_eq_ok hassign
  obtain ⟨_, ⟨s₄, c₄⟩, hwrite, hret⟩ := Run.exec_bind_eq_ok hassign
  cases hret
  obtain ⟨rfl, hs₁⟩ := exec_quiet hvalue hv τ.Left
  obtain ⟨rfl, hs₂⟩ := exec_quiet hbase hb τ.Left
  obtain ⟨rfl, hs₃⟩ := exec_quiet hkey hk τ.Left
  -- The second run would evaluate the base to a part of its own `dest`, so the first one does.
  rw [Expr.indexTarget?, Option.map_eq_some_iff] at htarget
  obtain ⟨⟨root, rest⟩, hroot, heq⟩ := htarget
  cases heq
  have hrest : ∀ i ∈ rest, i.ReadsOnly (· ≠ dest) := fun i hi =>
    hindices i (List.mem_append_left _ hi)
  obtain ⟨-, _, b', _, -, -, -, hloose⟩ :=
    evalChain_follows happly trace hroot hrest ρ s₁ t _ b _ (hs.touch_own hs₁) hc hb
  have hwrites : c₄ = c₃ ∧ s₃.TouchesOnly τ.Left s₄ := by
    rw [operate, Run.exec_attempt] at hwrite
    cases hplan : assignIndex b k v s₃ with
    | error e =>
      rw [hplan] at hwrite
      cases hwrite
    | ok f =>
      rw [hplan] at hwrite
      cases hwrite
      obtain ⟨view, rfl, htouches⟩ := assignIndex_touches hplan
      refine ⟨rfl, htouches.mono fun block hblock => ?_⟩
      cases hloose with
      | inert harray _ => exact absurd rfl (harray view)
      | paired h =>
        cases h with
        | array hpair => exact ⟨_, hblock ▸ hpair⟩
  exact ⟨rfl, hwrites.1, (((hs.touch_own hs₁).touch_own hs₂).touch_own hs₃).touch_own hwrites.2⟩

/-- A block that begins with such a write is followed by the rest of it. -/
theorem drop_followsApart {base key value : Expr} {ty? : Option Ty} {indices : List Expr}
    {ss ss' : Block}
    (htarget : Expr.indexTarget? ⟨.index base key, ty?⟩ = some (dest, indices))
    (hindices : ∀ i ∈ indices, i.ReadsOnly (· ≠ dest)) (hbase : base.CallsNothing)
    (hkey : key.CallsNothing) (hvalue : value.CallsNothing)
    (h : FollowsApart dest (runBlock apply trace fuel ss)
      (runBlock apply trace fuel ss')) :
    FollowsApart dest
      (runBlock apply trace fuel (.assign ⟨.index base key, ty?⟩ value :: ss))
      (runBlock apply trace fuel ss') := by
  intro ρ τ env env' s t c flow σ hs hc hx
  rw [runBlock] at hx
  obtain ⟨first, ⟨s₁, c₁⟩, hfirst, hrest⟩ := Run.exec_bind_eq_ok hx
  obtain ⟨rfl, rfl, hs₁⟩ :=
    exec_write happly htarget hindices hbase hkey hvalue hc hs hfirst
  exact h ρ τ env env' s₁ t _ flow σ hs₁ hc hrest

/-- Blocks that differ in one statement, which is followed by the other. -/
theorem set_followsApart {block : Block} {k : Nat} {outer outer' : Stmt}
    (hat : block[k]? = some outer) (hown : Stmt.AllOwn dest block)
    (h : FollowsApart dest (runStmt apply trace fuel outer)
      (runStmt apply trace fuel outer')) :
    FollowsApart dest (runBlock apply trace fuel block)
      (runBlock apply trace fuel (block.set k outer')) := by
  induction block generalizing k with
  | nil => cases hat
  | cons s ss ih =>
    cases k with
    | zero =>
      cases hat
      exact cons_followsApart h (runBlock_followsApart happly ss hown.2)
    | succ k =>
      exact cons_followsApart (runStmt_followsApart happly s hown.1) (ih hat hown.2)

theorem erase_followsApart {block : Block} {k : Nat} {base key value : Expr} {ty? : Option Ty}
    {indices : List Expr} (hat : block[k]? = some (.assign ⟨.index base key, ty?⟩ value))
    (hown : Stmt.AllOwn dest block)
    (htarget : Expr.indexTarget? ⟨.index base key, ty?⟩ = some (dest, indices))
    (hindices : ∀ i ∈ indices, i.ReadsOnly (· ≠ dest)) (hbase : base.CallsNothing)
    (hkey : key.CallsNothing) (hvalue : value.CallsNothing) :
    FollowsApart dest (runBlock apply trace fuel block)
      (runBlock apply trace fuel (block.eraseIdx k)) := by
  induction block generalizing k with
  | nil => cases hat
  | cons s ss ih =>
    cases k with
    | zero =>
      cases hat
      exact drop_followsApart happly htarget hindices hbase hkey hvalue
        (runBlock_followsApart happly ss hown.2)
    | succ k =>
      exact cons_followsApart (runStmt_followsApart happly s hown.1) (ih hat hown.2)

/-- Statements that differ in one of their blocks, which is followed by the other. -/
theorem setPart_followsApart {outer : Stmt} {part : Nat} {inner inner' : Block}
    (hpart : outer.part? part = some inner) (hown : outer.Owns dest)
    (h : Stmt.AllOwn dest inner → FollowsApart dest
      (runBlock apply trace fuel inner) (runBlock apply trace fuel inner')) :
    FollowsApart dest (runStmt apply trace fuel outer)
      (runStmt apply trace fuel (outer.setPart part inner')) := by
  cases outer with
  | branch cond onTrue onFalse merge =>
    obtain ⟨hcond, htrue, hfalse, hmerge⟩ := hown
    match part, hpart with
    | 1, rfl =>
      exact branch_followsApart happly hcond hmerge (h htrue)
        (runBlock_followsApart happly _ hfalse)
    | 2, rfl =>
      exact branch_followsApart happly hcond hmerge (runBlock_followsApart happly _ htrue)
        (h hfalse)
  | loop cond body merge =>
    obtain ⟨hcond, hbody, hmerge⟩ := hown
    match part, hpart with
    | 2, rfl => exact loop_followsApart happly hcond hmerge (h hbody)
  | _ => cases hpart

/-- A write can be dropped wherever it stands. -/
theorem removeAt_followsApart {block block' : Block} {path : Path} {base key value : Expr}
    {ty? : Option Ty} {indices : List Expr}
    (hremove : CopyElimination.removeAt? block path
      = some (.assign ⟨.index base key, ty?⟩ value, block'))
    (hown : Stmt.AllOwn dest block)
    (htarget : Expr.indexTarget? ⟨.index base key, ty?⟩ = some (dest, indices))
    (hindices : ∀ i ∈ indices, i.ReadsOnly (· ≠ dest)) (hbase : base.CallsNothing)
    (hkey : key.CallsNothing) (hvalue : value.CallsNothing) :
    FollowsApart dest (runBlock apply trace fuel block)
      (runBlock apply trace fuel block') := by
  obtain ⟨s, hat, hremove⟩ := Option.bind_eq_some_iff.1 hremove
  obtain ⟨rest, hmodify, heq⟩ := Option.bind_eq_some_iff.1 hremove
  cases heq
  refine Block.modifyAt?_induct (R := fun block block' => Stmt.AllOwn dest block →
    FollowsApart dest (runBlock apply trace fuel block)
      (runBlock apply trace fuel block')) ?_ ?_ path block block' hat hmodify hown
  · intro k block block' hat herase hown
    cases herase
    exact erase_followsApart happly hat hown htarget hindices hbase hkey hvalue
  · intro k part block inner inner' outer houter hpart ih hown
    exact set_followsApart happly houter hown
      (setPart_followsApart happly hpart (Stmt.owns_of_getElem? hown houter) ih)

omit happly in
/-- Bodies of functions whose blocks follow each other from variables other than `dest`. -/
theorem runBody_follows {body body' : Block} {env env' : Env}
    (h : FollowsApart dest (runBlock apply trace fuel body)
      (runBlock apply trace fuel body')) (henv : EnvPaired ρ (fun _ => True) env env')
    (hdest : env.find? dest = Option.none ∧ env'.find? dest = Option.none) :
    Run.Follows Session.Impartial ρ ρ.Matches (fun ρ' v w s t => ρ'.Matches s t ∧ v.Paired ρ' w)
      (runBody apply trace fuel body env) (runBody apply trace fuel body' env') := by
  -- At the start `dest` is not bound, so it has no storage that could be shared.
  have hstart (s t : Store) (hs : ρ.Matches s t) : Separate dest ρ empty env env' s t :=
    { stores := hs
      apart := fun _ _ => False.elim
      others := fun x _ => henv x trivial
      own := by rw [hdest.1, hdest.2]; exact .none }
  unfold runBody
  refine .of_pre fun s t hs => ?_
  have hblock : Run.Follows Session.Impartial ρ (fun s' t' => s' = s ∧ t' = t)
      (fun ρ' flow flow' s t => FlowSeparate dest ρ' s t flow flow')
      (runBlock apply trace fuel body env) (runBlock apply trace fuel body' env') := by
    intro s' t' c flow σ hst
    exact h ρ empty env env' s' t' c flow σ (hst.1 ▸ hst.2 ▸ hstart s t hs)
  refine hblock.bind fun ρ₁ flow flow' _ => .of_pre fun s t hflow => ?_
  cases hflow with
  | next h =>
    refine .pure ?_
    rintro _ _ ⟨rfl, rfl⟩
    exact ⟨h.stores, .none⟩
  | ret hs hvw =>
    refine .pure ?_
    rintro _ _ ⟨rfl, rfl⟩
    exact ⟨hs, hvw⟩

end
end Interpreter

/-! ## Calls -/

/-- A variable that is bound to values in new storage only and is never read, and a write to a part
of it that calls nothing. -/
structure CopyElimination.UnseenWrite (f : TypedFn) (dest : String) (target value : Expr) :
    Prop where
  inner : dest ∉ f.argNames
  owned : Stmt.AllOwn dest f.body
  part : ∃ base key ty? indices, target = ⟨.index base key, ty?⟩
    ∧ target.indexTarget? = some (dest, indices) ∧ ∀ i ∈ indices, i.ReadsOnly (· ≠ dest)
  quietTarget : target.CallsNothing
  quietValue : value.CallsNothing

/-- The variables of a call that are no parameters are not bound. -/
theorem find?_params_eq_none {name : String} {names : List String} {args : List Value}
    (h : name ∉ names) : (NameMap.ofList (names.zip args)).find? name = Option.none := by
  cases hfind : (NameMap.ofList (names.zip args)).find? name with
  | none => rfl
  | some v => exact absurd (List.of_mem_zip (NameMap.mem_of_find?_ofList hfind)).1 h

/-- Dropping a write that is not seen is not seen: where a call of the function succeeds, so does the
call of the function without the write on arguments that stand for the same, and both return values
and leave stores that stand for each other. -/
theorem Interpreter.callTyped_dropWrite {f g : TypedFn} {dest : String} {target value : Expr}
    {path : Path} (h : CopyElimination.UnseenWrite f dest target value)
    (hat : f.body.stmtAt? path = some (.assign target value))
    (hstep : CopyElimination.applyStep? f (.dropWrite path) = some g) {ρ : Pairing}
    {args args' : List Value} (hargs : PairedAll ρ args args') (fuel : Nat) :
    Run.Follows Session.Impartial ρ ρ.Matches (fun ρ' v w s t => ρ'.Matches s t ∧ v.Paired ρ' w)
      (callTyped fuel f args) (callTyped fuel g args') := by
  obtain ⟨⟨s, body⟩, hremove, heq⟩ := Option.bind_eq_some_iff.1 hstep
  cases heq
  have hs : s = .assign target value := by
    obtain ⟨s', hat', hremove⟩ := Option.bind_eq_some_iff.1 hremove
    obtain ⟨rest, -, heq⟩ := Option.bind_eq_some_iff.1 hremove
    cases heq
    exact Option.some.inj (hat'.symm.trans hat)
  obtain ⟨base, key, ty?, indices, rfl, htarget, hindices⟩ := h.part
  cases hs
  cases fuel with
  | zero => exact .throw _
  | succ fuel =>
    have hbound : EnvPaired ρ (fun _ => True) (.ofList (f.argNames.zip args))
        (.ofList (f.argNames.zip args')) :=
      EnvPaired.insertAll (fun _ _ => .none) _ hargs
    rw [callTyped, callTyped, applyFn, applyFn]
    by_cases hlen : args.length = f.argNames.length
    · have hcall : bindCall (.typed f) args = .ok (.ofList (f.argNames.zip args)) := if_pos hlen
      have hcall' : bindCall (.typed { f with body }) args'
          = .ok (.ofList (f.argNames.zip args')) :=
        if_pos (hargs.length.trans hlen)
      rw [hcall, hcall']
      exact runBody_follows
        (removeAt_followsApart (applyFn_alike fuel) hremove h.owned htarget hindices
          (h.quietTarget.child (.head _)) (h.quietTarget.child (.tail _ (.head _))) h.quietValue)
        hbound ⟨find?_params_eq_none h.inner, find?_params_eq_none h.inner⟩
    · have hcall : bindCall (.typed f) args
          = .error (.argCount f.name f.argNames.length args.length) := if_neg hlen
      rw [hcall]
      exact .throw _

/-- `t = (alloc 1,); x = t.0; x[0] = 5; y = t.0[0]; return y` -/
def sharing : TypedFn where
  name := "sharing"
  argNames := []
  inputTypes := []
  body :=
    let row := Ty.array .int64 1
    let int (n : Int64) := Expr.typed (.lit (.int n)) .int64
    let item := Expr.typed (.proj (.typed (.var "t") (.tuple [row])) 0) row
    [.assign (.typed (.var "t") (.tuple [row]))
        (.typed (.tuple [.typed (.alloc .int64 (int 1)) row]) (.tuple [row])),
      .assign (.typed (.var "x") row) item,
      .assign (.typed (.index (.typed (.var "x") row) (int 0)) .int64) (int 5),
      .assign (.typed (.var "y") .int64) (.typed (.index item (int 0)) .int64),
      .ret (.typed (.var "y") .int64)]
  returnType := .int64
  typeEnv := .ofList [("t", .tuple [.array .int64 1]), ("x", .array .int64 1), ("y", .int64)]

/-- Storage that a variable shares through a tuple is overlooked: the write to `x` is dropped as if
it was not seen, though `y` reads what it wrote. -/
theorem dropWrite_sharing :
    CopyElimination.findStep? sharing (.compute sharing) = some (.dropWrite [2])
      ∧ (Run.exec (Interpreter.callTyped 1 sharing []) ⟨∅, .new none⟩).1 = .ok (.int 5)
      ∧ ∃ g, CopyElimination.applyStep? sharing (.dropWrite [2]) = some g
        ∧ (Run.exec (Interpreter.callTyped 1 g []) ⟨∅, .new none⟩).1 = .ok (.int 0) :=
  ⟨by decide +kernel, rfl, _, rfl, rfl⟩

end ArrayLang
