import ArrayLang.Proofs.CopyElimination.Steps
import ArrayLang.Proofs.Typing.WellTyped

/-!
# Copy elimination keeps code well typed

Removing a statement keeps a block well typed, and so does putting a well-typed assignment in the
place of another. The variable whose allocation is retargeted is no longer accessed afterwards, since
it was accessed twice in all, and may therefore be forgotten.
-/

namespace ArrayLang

open Outcome Check

variable {env : TypeEnv} {result : Ty}

/-! ## Changes of blocks -/

namespace Check

/-- The nested blocks of a well-typed statement are well typed. -/
theorem checkBlock_of_part? {outer : Stmt} {part : Nat} {inner : Block}
    (hpart : outer.part? part = some inner) (h : checkStmt env result outer = .ok ()) :
    checkBlock env result inner = .ok () := by
  unfold Stmt.part? at hpart
  split at hpart
  · cases hpart
    rw [checkStmt, then_eq_ok, then_eq_ok, then_eq_ok, then_eq_ok] at h
    exact h.2.2.1
  · cases hpart
    rw [checkStmt, then_eq_ok, then_eq_ok, then_eq_ok, then_eq_ok] at h
    exact h.2.2.2.1
  · cases hpart
    rw [checkStmt, then_eq_ok, then_eq_ok, then_eq_ok] at h
    exact h.2.2.1
  · cases hpart

/-- A nested block may be replaced with another well-typed one. -/
theorem checkStmt_setPart {outer : Stmt} {part : Nat} {inner : Block}
    (hinner : checkBlock env result inner = .ok ()) (h : checkStmt env result outer = .ok ()) :
    checkStmt env result (outer.setPart part inner) = .ok () := by
  unfold Stmt.setPart
  split
  · rw [checkStmt, then_eq_ok, then_eq_ok, then_eq_ok, then_eq_ok] at h ⊢
    exact ⟨h.1, h.2.1, hinner, h.2.2.2⟩
  · rw [checkStmt, then_eq_ok, then_eq_ok, then_eq_ok, then_eq_ok] at h ⊢
    exact ⟨h.1, h.2.1, h.2.2.1, hinner, h.2.2.2.2⟩
  · rw [checkStmt, then_eq_ok, then_eq_ok, then_eq_ok] at h ⊢
    exact ⟨h.1, h.2.1, hinner, h.2.2.2⟩
  · exact h

theorem checkBlock_set {block : Block} {k : Nat} {s' : Stmt}
    (h : checkBlock env result block = .ok ()) (hs : checkStmt env result s' = .ok ()) :
    checkBlock env result (block.set k s') = .ok () := by
  rw [checkBlock_eq_ok] at h ⊢
  intro s hmem
  rcases List.mem_or_eq_of_mem_set hmem with hmem | rfl
  · exact h s hmem
  · exact hs

/-- The statement that a path leads to in a well-typed block is well typed. -/
theorem checkStmt_of_stmtAt? {s : Stmt} :
    ∀ {path : Path} {block : Block}, block.stmtAt? path = some s →
      checkBlock env result block = .ok () → checkStmt env result s = .ok ()
  | [], _, hat, _ => by cases hat
  | [k], block, hat, h => checkBlock_eq_ok.1 h s (List.mem_of_getElem? hat)
  | k :: part :: rest, block, hat, h => by
    rw [Block.stmtAt?] at hat
    obtain ⟨outer, houter, hat⟩ := Option.bind_eq_some_iff.1 hat
    obtain ⟨inner, hinner, hat⟩ := Option.bind_eq_some_iff.1 hat
    have hcheck := checkBlock_eq_ok.1 h outer (List.mem_of_getElem? houter)
    exact checkStmt_of_stmtAt? hat (checkBlock_of_part? hinner hcheck)

/-- A change at a path keeps a block well typed if it keeps the block that the path leads into well
typed. -/
theorem checkBlock_modify {change : Nat → Block → Option Block} {s : Stmt} {path : Path}
    {block block' : Block}
    (base : ∀ k (block block' : Block), block[k]? = some s → change k block = some block' →
      checkBlock env result block = .ok () → checkBlock env result block' = .ok ())
    (hat : block.stmtAt? path = some s) (hchange : block.modifyAt? change path = some block')
    (h : checkBlock env result block = .ok ()) : checkBlock env result block' = .ok () := by
  refine Block.modifyAt?_induct
    (R := fun block block' => checkBlock env result block = .ok () →
      checkBlock env result block' = .ok ()) base ?_ path block block' hat hchange h
  intro k part block inner inner' outer houter hinner ih h
  have hcheck := checkBlock_eq_ok.1 h outer (List.mem_of_getElem? houter)
  exact checkBlock_set h (checkStmt_setPart (ih (checkBlock_of_part? hinner hcheck)) hcheck)

end Check

namespace CopyElimination

variable {f g : TypedFn} {body body' : Block} {path : Path} {s : Stmt}

/-! ## Removals and replacements -/

theorem removeAt?_eq_some (h : removeAt? body path = some (s, body')) :
    body.stmtAt? path = some s
      ∧ body.modifyAt? (fun i block => some (block.eraseIdx i)) path = some body' := by
  obtain ⟨t, hat, h⟩ := Option.bind_eq_some_iff.1 h
  obtain ⟨rest, hrest, h⟩ := Option.bind_eq_some_iff.1 h
  cases h
  exact ⟨hat, hrest⟩

theorem removeAt?_check (h : removeAt? body path = some (s, body'))
    (hbody : checkBlock env result body = .ok ()) : checkBlock env result body' = .ok () := by
  obtain ⟨hat, hrest⟩ := removeAt?_eq_some h
  refine checkBlock_modify ?_ hat hrest hbody
  intro k block block' _ hchange hblock
  cases hchange
  exact checkBlock_eq_ok.2 fun t ht => checkBlock_eq_ok.1 hblock t (List.mem_of_mem_eraseIdx ht)

theorem removeAt?_count {x : String} (h : removeAt? body path = some (s, body')) :
    body'.accessed.count x + s.accessed.count x = body.accessed.count x := by
  obtain ⟨hat, hrest⟩ := removeAt?_eq_some h
  have hremoved : ∀ k (block block' : Block), block[k]? = some s →
      some (block.eraseIdx k) = some block' →
        block'.accessed.count x + s.accessed.count x = block.accessed.count x + 0 := by
    intro k block block' hk hchange
    cases hchange
    exact Block.count_accessed_eraseIdx hk
  exact Block.count_accessed_modify hremoved hat hrest

theorem stmtAt?_modifyAt?_eraseIdx {i j : Nat} (hij : i < j) :
    ∀ (pre : Path) (block block' : Block),
      block.modifyAt? (fun i block => some (block.eraseIdx i)) (pre ++ [j]) = some block' →
        block'.stmtAt? (pre ++ [i]) = block.stmtAt? (pre ++ [i])
  | [], block, block', h => by
    cases h
    exact List.getElem?_eraseIdx_of_lt hij
  | [k], block, block', h => by
    obtain ⟨outer, _, h⟩ := Option.bind_eq_some_iff.1 h
    obtain ⟨inner, _, h⟩ := Option.bind_eq_some_iff.1 h
    cases h
  | k :: part :: pre, block, block', h => by
    rw [List.cons_append, List.cons_append, Block.modifyAt?] at h
    obtain ⟨outer, houter, h⟩ := Option.bind_eq_some_iff.1 h
    obtain ⟨inner, hinner, h⟩ := Option.bind_eq_some_iff.1 h
    obtain ⟨inner', hinner', h⟩ := Option.bind_eq_some_iff.1 h
    cases h
    have hlt : k < block.length := (List.getElem?_eq_some_iff.1 houter).1
    rw [List.cons_append, List.cons_append, Block.stmtAt?, Block.stmtAt?,
      List.getElem?_set_self hlt, houter]
    show ((outer.setPart part inner').part? part >>= _) = (outer.part? part >>= _)
    rw [Stmt.part?_setPart hinner, hinner]
    exact stmtAt?_modifyAt?_eraseIdx hij pre inner inner' hinner'

/-- Removing a statement leaves the earlier statements of its block where they are. -/
theorem removeAt?_stmtAt? {earlier : Path} (hbefore : earlier.sameBlockBefore path = true)
    (h : removeAt? body path = some (s, body')) : body'.stmtAt? earlier = body.stmtAt? earlier := by
  obtain ⟨base, i, j, rfl, rfl, hij⟩ := Path.sameBlockBefore_iff.1 hbefore
  exact stmtAt?_modifyAt?_eraseIdx hij base body body' (removeAt?_eq_some h).2

variable {target value : Expr} {change : Expr → Expr → Expr × Expr}

theorem changeAssign?_check (h : changeAssign? body path change = some body')
    (hat : body.stmtAt? path = some (.assign target value))
    (hnew : checkStmt env result (.assign (change target value).1 (change target value).2) = .ok ())
    (hbody : checkBlock env result body = .ok ()) : checkBlock env result body' = .ok () := by
  refine checkBlock_modify ?_ hat h hbody
  intro k block block' hk hchange hblock
  rw [hk] at hchange
  cases hchange
  exact checkBlock_set hblock hnew

theorem changeAssign?_count {x : String} (h : changeAssign? body path change = some body')
    (hat : body.stmtAt? path = some (.assign target value)) :
    body'.accessed.count x + (Stmt.assign target value).accessed.count x = body.accessed.count x
      + (Stmt.assign (change target value).1 (change target value).2).accessed.count x := by
  refine Block.count_accessed_modify ?_ hat h
  intro k block block' hk hchange
  rw [hk] at hchange
  cases hchange
  exact Block.count_accessed_set x _ hk

/-! ## Assignments -/

/-- An assignment to a variable is well typed when the value is of the variable's type. -/
theorem checkStmt_assign_var {x : String} {ty? : Option Ty} {e : Expr} :
    checkStmt env result (.assign ⟨.var x, ty?⟩ e) = .ok ()
      ↔ ∃ ty, ty? = some ty ∧ env.find? x = some ty ∧ e.WellTyped env ∧ e.ty? = some ty := by
  rw [checkStmt, then_eq_ok, then_eq_ok, checkTarget, Expr.checkExpr_eq_ok, Expr.checkExpr_eq_ok]
  have hassign : checkAssign ⟨.var x, ty?⟩ e = .ok () ↔ ty? = e.ty? := require_eq_ok
  rw [hassign]
  constructor
  · rintro ⟨hvar, he, heq⟩
    obtain ⟨ty, hty, -⟩ := Expr.Forall.self hvar
    cases hty
    exact ⟨ty, rfl, Expr.wellTyped_var.1 hvar, he, heq.symm⟩
  · rintro ⟨ty, rfl, hfind, he, heq⟩
    exact ⟨Expr.wellTyped_var.2 hfind, he, heq.symm⟩

/-- A write to a part of an array takes a well-typed value. -/
theorem checkStmt_assign_index {base index : Expr} {ty? : Option Ty} {e : Expr}
    (h : checkStmt env result (.assign ⟨.index base index, ty?⟩ e) = .ok ()) :
    Expr.WellTyped env ⟨.index base index, ty?⟩ ∧ e.WellTyped env := by
  rw [checkStmt, then_eq_ok, then_eq_ok, checkTarget, Expr.checkExpr_eq_ok,
    Expr.checkExpr_eq_ok] at h
  exact ⟨h.1, h.2.1⟩

/-- A value of the type of the part may be written to it. -/
theorem checkStmt_assign_index_of_eq {base index : Expr} {e : Expr} {ty : Ty}
    (hslot : Expr.WellTyped env ⟨.index base index, some ty⟩) (he : e.WellTyped env)
    (hty : e.ty? = some ty) :
    checkStmt env result (.assign ⟨.index base index, some ty⟩ e) = .ok () := by
  rw [checkStmt, then_eq_ok, then_eq_ok, checkTarget, Expr.checkExpr_eq_ok, Expr.checkExpr_eq_ok]
  exact ⟨hslot, he, checkAssign_of_eq rfl hty⟩

/-! ## Steps -/

/-- Another well-typed body under an environment that keeps the parameters' types. -/
theorem check_of_body {typeEnv : TypeEnv} (hf : f.check = .ok ())
    (hparams : NameMap.IncludedOn f.argNames f.typeEnv typeEnv)
    (hbody : checkBlock typeEnv f.returnType body = .ok ()) :
    TypedFn.check { f with body, typeEnv } = .ok () := by
  unfold TypedFn.check at hf ⊢
  rw [then_eq_ok, then_eq_ok, forM_eq_ok] at hf ⊢
  refine ⟨hf.1, fun p hp => ?_, hbody⟩
  have hname : p.1 ∈ f.argNames := (List.of_mem_zip hp).1
  have hfind := require_eq_ok.1 (hf.2.1 p hp)
  exact require_eq_ok.2 (hparams p.1 hname p.2 hfind)

theorem checkBlock_body (hf : f.check = .ok ()) :
    checkBlock f.typeEnv f.returnType f.body = .ok () := by
  unfold TypedFn.check at hf
  rw [then_eq_ok, then_eq_ok] at hf
  exact hf.2.2

theorem dropWrite_check {copy : Path} (hf : f.check = .ok ())
    (h : applyStep? f (.dropWrite copy) = some g) : g.check = .ok () := by
  obtain ⟨⟨s, body⟩, hremove, h⟩ := Option.bind_eq_some_iff.1 h
  cases h
  exact check_of_body hf (NameMap.Included.refl _ |>.on _)
    (removeAt?_check hremove (checkBlock_body hf))

/-- What is known about the two assignments of a fusion in a well-typed function: `src = made` and
`slot = src`, all of one type. -/
structure FusedPair (f : TypedFn) (src : String) (alloc copy : Path) (ty : Ty) (made : Expr)
    (base index : Expr) : Prop where
  allocAt : f.body.stmtAt? alloc = some (.assign (.typed (.var src) ty) made)
  copyAt : f.body.stmtAt? copy
    = some (.assign (.typed (.index base index) ty) (.typed (.var src) ty))
  declared : f.typeEnv.find? src = some ty
  madeTyped : made.WellTyped f.typeEnv
  madeTy : made.ty? = some ty
  slotTyped : (Expr.typed (.index base index) ty).WellTyped f.typeEnv

theorem Fusable.pair {dest : String} {indices : List Expr} {base index value : Expr}
    {ty? : Option Ty} {copy : Path} {src : String} {alloc : Allocation}
    (h : Fusable f (DataflowFacts.compute f) dest indices ⟨.index base index, ty?⟩ value copy src
      alloc)
    (hmem : (copy, ⟨.index base index, ty?⟩, value) ∈ f.body.assignments)
    (hf : f.check = .ok ()) :
    ∃ ty made, FusedPair f src alloc.path copy ty made base index := by
  have hbody := checkBlock_body hf
  obtain ⟨srcTy?, made, halloc, -, -⟩ := mem_assignments_of_allocations h.made
  have hallocAt := Block.mem_assignments.1 halloc
  have hcopyAt := Block.mem_assignments.1 hmem
  obtain ⟨ty, rfl, hdeclared, hmade, hmadeTy⟩ :=
    checkStmt_assign_var.1 (checkStmt_of_stmtAt? hallocAt hbody)
  obtain ⟨hslot, hvalue⟩ := checkStmt_assign_index (checkStmt_of_stmtAt? hcopyAt hbody)
  obtain ⟨valueTy?, rfl⟩ := Expr.eq_of_var?_eq_some h.var
  obtain ⟨vty, hvty, -⟩ := Expr.Forall.self hvalue
  cases hvty
  have heq : ty = vty := by
    have hfind := Expr.wellTyped_var.1 hvalue
    rw [hdeclared, Option.some_inj] at hfind
    exact hfind
  have hty : ty? = some vty := h.sameType
  rw [hty] at hcopyAt hslot
  rw [← heq] at hcopyAt hslot
  exact ⟨ty, made, hallocAt, hcopyAt, hdeclared, hmade, hmadeTy, hslot⟩

variable {src : String} {alloc copy : Path} {ty : Ty} {made base index : Expr}

/-- After retargeting, nothing accesses the variable that the value was made for. -/
theorem FusedPair.retarget_count (h : FusedPair f src alloc copy ty made base index)
    (hbefore : alloc.sameBlockBefore copy = true) {rest : Block}
    (hremove : removeAt? f.body copy
      = some (.assign (.typed (.index base index) ty) (.typed (.var src) ty), rest))
    (hchange : changeAssign? rest alloc (fun _ value => (.typed (.index base index) ty, value))
      = some body)
    (htotal : f.argNames.count src + f.body.accessed.count src = 2) :
    body.accessed.count src = 0 ∧ f.argNames.count src = 0 := by
  have hat := (removeAt?_stmtAt? hbefore hremove).trans h.allocAt
  have hrest := removeAt?_count (x := src) hremove
  have hbody := changeAssign?_count (x := src) hchange hat
  have hvar : Expr.vars (.typed (.var src) ty) = [src] := Expr.vars_var
  have htarget : Access.names (Access.ofTarget [] (.typed (.var src) ty)) = [src] := rfl
  rw [Stmt.accessed_assign, hvar, List.count_append, List.count_singleton_self] at hrest
  rw [Stmt.accessed_assign, Stmt.accessed_assign, htarget, List.count_append, List.count_append,
    List.count_singleton_self] at hbody
  dsimp only at hbody
  omega

/-- Retargeting removes the copy and makes the value where it was copied to. -/
theorem FusedPair.applyStep?_retarget (h : FusedPair f src alloc copy ty made base index)
    (hbefore : alloc.sameBlockBefore copy = true)
    (hstep : applyStep? f (.retarget alloc copy) = some g) :
    ∃ rest body, g = { f with body, typeEnv := f.typeEnv.erase src }
      ∧ removeAt? f.body copy
        = some (.assign (.typed (.index base index) ty) (.typed (.var src) ty), rest)
      ∧ rest.stmtAt? alloc = some (.assign (.typed (.var src) ty) made)
      ∧ changeAssign? rest alloc (fun _ value => (.typed (.index base index) ty, value))
        = some body := by
  obtain ⟨⟨s, rest⟩, hremove, hstep⟩ := Option.bind_eq_some_iff.1 hstep
  obtain rfl : _ = s := Option.some_inj.1 (h.copyAt.symm.trans (removeAt?_eq_some hremove).1)
  have hat := (removeAt?_stmtAt? hbefore hremove).trans h.allocAt
  obtain ⟨t, ht, hstep⟩ := Option.bind_eq_some_iff.1 hstep
  obtain rfl : _ = t := Option.some_inj.1 (hat.symm.trans ht)
  obtain ⟨body, hchange, hstep⟩ := Option.bind_eq_some_iff.1 hstep
  cases hstep
  exact ⟨rest, body, rfl, hremove, hat, hchange⟩

theorem retarget_check (h : FusedPair f src alloc copy ty made base index)
    (hbefore : alloc.sameBlockBefore copy = true)
    (htotal : f.argNames.count src + f.body.accessed.count src = 2) (hf : f.check = .ok ())
    (hstep : applyStep? f (.retarget alloc copy) = some g) : g.check = .ok () := by
  obtain ⟨rest, body, rfl, hremove, hat, hchange⟩ := h.applyStep?_retarget hbefore hstep
  obtain ⟨hunused, hnoArg⟩ := h.retarget_count hbefore hremove hchange htotal
  refine check_of_body hf (NameMap.includedOn_erase (List.count_eq_zero.1 hnoArg)) ?_
  refine checkBlock_of_includedOn (NameMap.includedOn_erase (List.count_eq_zero.1 hunused)) ?_
  refine changeAssign?_check hchange hat ?_ (removeAt?_check hremove (checkBlock_body hf))
  exact checkStmt_assign_index_of_eq h.slotTyped h.madeTyped h.madeTy

theorem viewSlot_check (h : FusedPair f src alloc copy ty made base index)
    (hbefore : alloc.sameBlockBefore copy = true) (hf : f.check = .ok ())
    (hstep : applyStep? f (.viewSlot alloc copy) = some g) : g.check = .ok () := by
  obtain ⟨⟨s, rest⟩, hremove, hstep⟩ := Option.bind_eq_some_iff.1 hstep
  obtain rfl : _ = s := Option.some_inj.1 (h.copyAt.symm.trans (removeAt?_eq_some hremove).1)
  have hat := (removeAt?_stmtAt? hbefore hremove).trans h.allocAt
  obtain ⟨body, hchange, hstep⟩ := Option.bind_eq_some_iff.1 hstep
  cases hstep
  refine check_of_body hf ((NameMap.Included.refl _).on _) ?_
  refine changeAssign?_check hchange hat ?_ (removeAt?_check hremove (checkBlock_body hf))
  exact checkStmt_assign_var.2 ⟨ty, rfl, h.declared, h.slotTyped, rfl⟩

/-- The variable whose allocation is retargeted is defined once and read once, and nothing else. -/
theorem Fusable.total {dest : String} {indices : List Expr} {target value : Expr} {a : Allocation}
    (h : Fusable f (DataflowFacts.compute f) dest indices target value copy src a)
    (hwrites : (UseDef.compute f).writes src = []) :
    f.argNames.count src + f.body.accessed.count src = 2 := by
  obtain ⟨_, _, _, _, hdefs⟩ := mem_assignments_of_allocations h.made
  have hreads : (UseDef.compute f).reads src = [copy] := h.reads
  have hlength := UseDef.length_points (UseDef.compute f) src
  rw [UseDef.names_compute, List.count_append, hreads, hwrites] at hlength
  have hdefs : ((UseDef.compute f).defs src).length = 1 := hdefs
  rw [hdefs] at hlength
  exact hlength.symm

/-- Every step that is made keeps a function well typed. -/
theorem step?_check (hf : f.check = .ok ()) (h : step? f = some g) : g.check = .ok () := by
  obtain ⟨step, hstep, happly⟩ := Option.bind_eq_some_iff.1 h
  obtain ⟨copy, _, value, dest, indices, hmem, ⟨base, index, ty?, rfl⟩, -, hfound⟩ :=
    findStep?_eq_some hstep
  rcases hfound with ⟨-, rfl⟩ | hfusion
  · exact dropWrite_check hf happly
  · obtain ⟨src, a, hfusable, hkind⟩ := fusion?_eq_some hfusion
    obtain ⟨ty, made, hpair⟩ := hfusable.pair hmem hf
    rcases hkind with ⟨hwrites, rfl⟩ | ⟨-, -, rfl⟩
    · exact retarget_check hpair hfusable.before (hfusable.total hwrites) hf happly
    · exact viewSlot_check hpair hfusable.before hf happly

theorem makeSteps_check (steps : Nat) (hf : f.check = .ok ()) :
    (makeSteps steps f).check = .ok () := by
  induction steps generalizing f with
  | zero => exact hf
  | succ steps ih =>
    rw [makeSteps]
    cases hstep : step? f with
    | none => exact hf
    | some g => exact ih (step?_check hf hstep)

end CopyElimination

/-- Copy elimination keeps a function well typed. -/
theorem TypedFn.eliminateCopies_check {f : TypedFn} (hf : f.check = .ok ()) :
    f.eliminateCopies.check = .ok () := by
  unfold eliminateCopies
  by_cases hscalar : f.allScalar = true
  · rw [if_pos hscalar]
    exact hf
  · rw [if_neg hscalar]
    exact CopyElimination.makeSteps_check _ hf

end ArrayLang
