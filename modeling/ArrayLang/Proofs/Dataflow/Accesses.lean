import ArrayLang.Dataflow.UseDef
import ArrayLang.Proofs.Dataflow.Path

/-!
# Accessed variables

The variables that code accesses, with one entry for each access that is listed, and how often a
variable is accessed after a statement has been replaced or removed. An expression without a variable
among its subexpressions does not access it.
-/

namespace ArrayLang

/-! ## Variables of expressions -/

namespace Expr

theorem eq_of_var?_eq_some {e : Expr} {name : String} (h : e.var? = some name) :
    ∃ ty?, e = ⟨.var name, ty?⟩ := by
  obtain ⟨node, ty?⟩ := e
  unfold var? at h
  dsimp only at h
  split at h
  · cases h
    exact ⟨ty?, rfl⟩
  · cases h

theorem mem_varOccurrences {e : Expr} {x : String} :
    x ∈ e.varOccurrences ↔ ∃ s ∈ e.subexprs, s.var? = some x :=
  List.mem_filterMap

theorem mem_vars {e : Expr} {x : String} : x ∈ e.vars ↔ ∃ s ∈ e.subexprs, s.var? = some x := by
  unfold vars
  rw [List.mem_eraseDups]
  exact mem_varOccurrences

theorem vars_var {name : String} {ty? : Option Ty} : Expr.vars ⟨.var name, ty?⟩ = [name] := by
  unfold vars varOccurrences
  rw [subexprs_eq]
  rfl

theorem mem_vars_index {base key : Expr} {ty? : Option Ty} {x : String} :
    x ∈ Expr.vars ⟨.index base key, ty?⟩ ↔ x ∈ base.vars ∨ x ∈ key.vars := by
  simp only [mem_vars]
  rw [subexprs_eq]
  simp [children, Node.children, var?, or_and_right, exists_or]

/-- The variables of an assignment target such as `x[i][j]` are its root and those of its indices. -/
theorem mem_vars_of_indexTarget? {x root : String} {e : Expr} {indices : List Expr}
    (h : e.indexTarget? = some (root, indices)) :
    x ∈ e.vars ↔ x = root ∨ ∃ i ∈ indices, x ∈ i.vars := by
  induction e using indexTarget?.induct generalizing indices with
  | case1 name ty? =>
    cases h
    simp [vars_var]
  | case2 base key ty? ih =>
    rw [indexTarget?, Option.map_eq_some_iff] at h
    obtain ⟨⟨root', rest⟩, hbase, heq⟩ := h
    cases heq
    rw [mem_vars_index, ih hbase]
    simp [or_assoc, or_and_right, exists_or]
  | case3 e hvar hindex =>
    rw [indexTarget?] at h
    · cases h
    · exact hvar
    · exact hindex

end Expr

/-! ## Names of accesses -/

namespace Access

variable {path path' : Path}

/-- The variables that accesses concern. -/
def names (accesses : List Access) : List String :=
  accesses.map (·.name)

theorem names_append (as bs : List Access) : names (as ++ bs) = names as ++ names bs :=
  List.map_append

theorem names_ofExpr (e : Expr) : names (ofExpr path e) = e.vars := by
  unfold names ofExpr
  rw [List.map_map]
  exact List.map_id _

theorem names_flatMap {α : Type} (l : List α) (f : α → List Access) :
    names (l.flatMap f) = l.flatMap fun a => names (f a) :=
  List.map_flatMap

mutual
theorem names_ofTarget {node : Node} {ty? : Option Ty} :
    names (ofTarget path ⟨node, ty?⟩) = names (ofTarget path' ⟨node, ty?⟩) := by
  cases node with
  | var name => rfl
  | tuple items =>
    rw [ofTarget, ofTarget]
    exact names_ofTargets items
  | _ =>
    unfold ofTarget
    split
    · rename_i root indices _
      show root :: names (indices.flatMap _) = root :: names (indices.flatMap _)
      simp only [names_flatMap, names_ofExpr]
    · rw [names_ofExpr, names_ofExpr]
termination_by sizeOf node

theorem names_ofTargets :
    ∀ es : List Expr, names (ofTargets path es) = names (ofTargets path' es)
  | [] => rfl
  | ⟨node, ty?⟩ :: es => by
    rw [ofTargets, ofTargets, names_append, names_append, names_ofTarget, names_ofTargets es]
termination_by es => sizeOf es
end

theorem mem_names_ofTarget_index {base key : Expr} {ty? : Option Ty} {x : String} :
    x ∈ names (ofTarget path ⟨.index base key, ty?⟩) ↔ x ∈ Expr.vars ⟨.index base key, ty?⟩ := by
  unfold ofTarget
  split
  · rename_i root indices hroot
    rw [Expr.mem_vars_of_indexTarget? hroot]
    show x ∈ root :: names (indices.flatMap _) ↔ _
    simp only [names_flatMap, names_ofExpr, List.mem_cons, List.mem_flatMap]
  · rw [names_ofExpr]

theorem names_ofSide (side : Phi → Expr) (merge : List Phi) :
    names (ofSide path side merge) = merge.flatMap fun phi => (side phi).vars ++ [phi.name] := by
  unfold ofSide
  simp only [names_flatMap, names_append, names_ofExpr]
  rfl

mutual
/-- The accessed names do not depend on where the code stands. -/
theorem names_ofStmt :
    ∀ (path path' : Path) (s : Stmt), names (ofStmt path s) = names (ofStmt path' s)
  | _, _, .assign ⟨node, ty?⟩ value => by
    rw [ofStmt, ofStmt, names_append, names_append, names_ofExpr, names_ofExpr, names_ofTarget]
  | _, _, .ret value => by rw [ofStmt, ofStmt, names_ofExpr, names_ofExpr]
  | path, path', .branch cond onTrue onFalse merge => by
    rw [ofStmt, ofStmt]
    simp only [names_append, names_ofExpr, names_flatMap]
    rw [names_ofBlock (path ++ [1]) (path' ++ [1]) 0 0 onTrue,
      names_ofBlock (path ++ [2]) (path' ++ [2]) 0 0 onFalse, names_ofSide, names_ofSide]
  | path, path', .loop cond body merge => by
    rw [ofStmt, ofStmt]
    simp only [names_append, names_ofExpr]
    rw [names_ofBlock (path ++ [2]) (path' ++ [2]) 0 0 body]
    simp only [names_ofSide]
termination_by structural _ _ s => s

theorem names_ofBlock : ∀ (path path' : Path) (i i' : Nat) (ss : List Stmt),
    names (ofBlock path i ss) = names (ofBlock path' i' ss)
  | _, _, _, _, [] => rfl
  | path, path', i, i', s :: ss => by
    rw [ofBlock, ofBlock, names_append, names_append, names_ofStmt (path ++ [i]) (path' ++ [i']) s,
      names_ofBlock path path' (i + 1) (i' + 1) ss]
termination_by structural _ _ _ _ ss => ss
end

end Access

/-- The variables that a statement accesses, one entry for each access. -/
def Stmt.accessed (s : Stmt) : List String :=
  Access.names (Access.ofStmt [] s)

/-- The variables that a block accesses, one entry for each access. -/
def Block.accessed (block : Block) : List String :=
  Access.names (Access.ofBlock [] 0 block)

namespace Stmt

open Access

variable {cond : Expr} {onTrue onFalse body : Block} {merge : List Phi}

theorem accessed_assign {target value : Expr} :
    (Stmt.assign target value).accessed = value.vars ++ names (ofTarget [] target) := by
  unfold accessed
  rw [ofStmt, names_append, names_ofExpr]

theorem accessed_ret {value : Expr} : (Stmt.ret value).accessed = value.vars := by
  unfold accessed
  rw [ofStmt, names_ofExpr]

theorem accessed_branch :
    (Stmt.branch cond onTrue onFalse merge).accessed
      = cond.vars ++ onTrue.accessed ++ onFalse.accessed
        ++ (merge.flatMap fun phi => phi.left.vars ++ [phi.name])
        ++ merge.flatMap fun phi => phi.right.vars := by
  unfold accessed Block.accessed
  rw [ofStmt]
  simp only [names_append, names_ofExpr, names_flatMap, names_ofSide]
  rw [names_ofBlock _ [] 0 0 onTrue, names_ofBlock _ [] 0 0 onFalse]

theorem accessed_loop :
    (Stmt.loop cond body merge).accessed
      = (merge.flatMap fun phi => phi.left.vars ++ [phi.name]) ++ cond.vars ++ body.accessed
        ++ merge.flatMap fun phi => phi.right.vars ++ [phi.name] := by
  unfold accessed Block.accessed
  rw [ofStmt]
  simp only [names_append, names_ofExpr, names_ofSide]
  rw [names_ofBlock _ [] 0 0 body]

/-- The accesses of a nested block are replaced with those of the block that takes its place. -/
theorem count_accessed_setPart (x : String) {outer : Stmt} {part : Nat} {inner : Block}
    (inner' : Block) (h : outer.part? part = some inner) :
    (outer.setPart part inner').accessed.count x + inner.accessed.count x
      = outer.accessed.count x + inner'.accessed.count x := by
  unfold part? at h
  split at h
  · cases h
    rw [setPart, accessed_branch, accessed_branch]
    simp only [List.count_append]
    omega
  · cases h
    rw [setPart, accessed_branch, accessed_branch]
    simp only [List.count_append]
    omega
  · cases h
    rw [setPart, accessed_loop, accessed_loop]
    simp only [List.count_append]
    omega
  · cases h

end Stmt

namespace Block

open Access

variable {block : Block} {x : String} {s : Stmt} {k : Nat}

theorem accessed_cons (s : Stmt) (ss : Block) :
    accessed (s :: ss) = s.accessed ++ accessed ss := by
  unfold accessed Stmt.accessed
  rw [ofBlock, names_append, names_ofStmt _ [], names_ofBlock _ [] _ 0]

/-! ## Accesses after a change -/

/-- A statement's accesses are replaced with those of the statement that takes its place. -/
theorem count_accessed_set (x : String) (s' : Stmt) (h : block[k]? = some s) :
    (accessed (block.set k s')).count x + s.accessed.count x
      = block.accessed.count x + s'.accessed.count x := by
  induction block generalizing k with
  | nil => cases h
  | cons t ss ih =>
    cases k with
    | zero =>
      rw [List.getElem?_cons_zero] at h
      cases h
      rw [List.set_cons_zero, accessed_cons, accessed_cons, List.count_append, List.count_append]
      omega
    | succ k =>
      rw [List.getElem?_cons_succ] at h
      rw [List.set_cons_succ, accessed_cons, accessed_cons, List.count_append, List.count_append]
      have := ih h
      omega

theorem count_accessed_eraseIdx (h : block[k]? = some s) :
    (accessed (block.eraseIdx k)).count x + s.accessed.count x = block.accessed.count x := by
  induction block generalizing k with
  | nil => cases h
  | cons t ss ih =>
    cases k with
    | zero =>
      rw [List.getElem?_cons_zero] at h
      cases h
      rw [List.eraseIdx_cons_zero, accessed_cons, List.count_append, Nat.add_comm]
    | succ k =>
      rw [List.getElem?_cons_succ] at h
      rw [List.eraseIdx_cons_succ, accessed_cons, accessed_cons, List.count_append,
        List.count_append]
      have := ih h
      omega

/-- A change at a path changes the number of accesses as it does in the block that the path leads
into: `lost` accesses to `x` go and `gained` come. -/
theorem count_accessed_modify {change : Nat → Block → Option Block} {lost gained : Nat}
    (base : ∀ k (block block' : Block), block[k]? = some s → change k block = some block' →
      block'.accessed.count x + lost = block.accessed.count x + gained)
    {path : Path} {block block' : Block} (hat : block.stmtAt? path = some s)
    (h : block.modifyAt? change path = some block') :
    block'.accessed.count x + lost = block.accessed.count x + gained := by
  refine modifyAt?_induct
    (R := fun block block' => block'.accessed.count x + lost = block.accessed.count x + gained)
    base ?_ path block block' hat h
  intro k part block inner inner' outer houter hinner ih
  have hset := count_accessed_set x (outer.setPart part inner') houter
  have hpart := Stmt.count_accessed_setPart x inner' hinner
  omega

end Block
/-! ## Accesses of functions -/

namespace UseDef

open Access

/-- Every access is a read, a write or a definition. -/
theorem length_points (u : UseDef) (x : String) :
    (u.reads x).length + (u.writes x).length + (u.defs x).length = (names u.accesses).count x := by
  obtain ⟨accesses⟩ := u
  unfold reads writes defs points
  simp only [List.length_map]
  induction accesses with
  | nil => rfl
  | cons a accesses ih =>
    obtain ⟨kind, name, path⟩ := a
    show _ = (name :: names accesses).count x
    by_cases hname : name = x
    · rw [List.count_cons, ← ih]
      cases kind <;> simp [hname] <;> omega
    · rw [List.count_cons, ← ih]
      cases kind <;> simp [hname]

theorem names_compute (f : TypedFn) :
    names (compute f).accesses = f.argNames ++ f.body.accessed := by
  show names (f.argNames.map _ ++ ofBlock [] 0 f.body) = _
  rw [names_append]
  unfold names
  rw [List.map_map]
  exact congrArg (· ++ _) (List.map_id _)

end UseDef
end ArrayLang
