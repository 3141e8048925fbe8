import ArrayLang.Proofs.CopyElimination.Steps
import Mathlib.Data.List.Lex

/-!
# Recorded paths

What the analyses record under a path is about the statement that the path leads to. The path leads to it
in both ways in which it is used: as the statement itself, and as its place in the block that holds it,
where that block is to be changed. Assignments are listed in the order of their paths.

## Main results

- `Block.leadsTo_iff`: a path leads to a statement in both ways or in neither.
- `Access.mem_ofBlock`: the accesses of a block are those of the statements that paths lead to.
- `Stmt.assignmentsFrom_ascend`: assignments are listed in the order of their paths.
-/

namespace ArrayLang

/-! ## The order of paths -/

namespace Path

variable {lo lo' mid hi hi' p path : Path} {ps qs : List Path}

theorem lt_append_cons (p : Path) (k : Nat) (rest : Path) : p < p ++ k :: rest := by
  have h : p ++ [] < p ++ k :: rest := List.append_left_lt (List.nil_lt_cons k rest)
  rwa [List.append_nil] at h

theorem append_cons_lt {j k : Nat} (h : j < k) (p rest rest' : Path) :
    p ++ j :: rest < p ++ k :: rest' :=
  List.append_left_lt (List.cons_lt_cons_iff.2 (.inl h))

theorem append_singleton_le_append_cons {j k : Nat} (h : j ≤ k) (p rest : Path) :
    p ++ [j] ≤ p ++ k :: rest := by
  rcases Nat.lt_or_eq_of_le h with h | rfl
  · exact le_of_lt (append_cons_lt h p [] rest)
  · cases rest with
    | nil => exact le_refl _
    | cons k rest =>
      have hlt := lt_append_cons (p ++ [j]) k rest
      rw [List.append_assoc] at hlt
      exact le_of_lt hlt

theorem append_singleton_le {j k : Nat} (h : j ≤ k) (p : Path) : p ++ [j] ≤ p ++ [k] :=
  append_singleton_le_append_cons h p []

/-- Every path into the statement at `path` comes before `hi`. -/
def Ends (path hi : Path) : Prop :=
  ∀ rest, path ++ rest < hi

/-- What is inside a statement, or inside a part of one, comes before the next. -/
theorem ends_next (base : Path) (i : Nat) : Ends (base ++ [i]) (base ++ [i + 1]) := by
  intro rest
  rw [List.append_assoc]
  exact append_cons_lt (Nat.lt_succ_self i) base rest []

theorem Ends.self (h : Ends path hi) : path < hi := by
  have hself := h []
  rwa [List.append_nil] at hself

theorem Ends.part (h : Ends path hi) (part : Nat) : path ++ [part] < hi :=
  h [part]

/-- The paths are in strictly increasing order, from `lo` on and before `hi`. -/
def Ascends (lo hi : Path) (ps : List Path) : Prop :=
  ps.Pairwise (· < ·) ∧ ∀ p ∈ ps, lo ≤ p ∧ p < hi

namespace Ascends

theorem nil : Ascends lo hi [] :=
  ⟨.nil, fun _ h => (List.not_mem_nil h).elim⟩

theorem singleton (hlo : lo ≤ p) (hhi : p < hi) : Ascends lo hi [p] :=
  ⟨List.pairwise_singleton _ _, List.forall_mem_singleton.2 ⟨hlo, hhi⟩⟩

theorem mono (h : Ascends lo hi ps) (hlo : lo' ≤ lo) (hhi : hi ≤ hi') : Ascends lo' hi' ps :=
  ⟨h.1, fun p hp => ⟨le_trans hlo (h.2 p hp).1, lt_of_lt_of_le (h.2 p hp).2 hhi⟩⟩

theorem append (h : Ascends lo mid ps) (h' : Ascends mid hi qs) (hlo : lo ≤ mid) (hhi : mid ≤ hi) :
    Ascends lo hi (ps ++ qs) := by
  refine ⟨List.pairwise_append.2 ⟨h.1, h'.1, fun p hp q hq => ?_⟩, List.forall_mem_append.2
    ⟨(h.mono (le_refl lo) hhi).2, (h'.mono hlo (le_refl hi)).2⟩⟩
  exact lt_of_lt_of_le (h.2 p hp).2 (h'.2 q hq).1

/-- What ascends in a block, ascends in the part of the statement that has this block. -/
theorem inPart {base : Path} {part n : Nat} (h : Ascends (base ++ [part] ++ [0]) (base ++ [part] ++ [n]) ps) :
    Ascends (base ++ [part]) (base ++ [part + 1]) ps :=
  h.mono (le_of_lt (lt_append_cons _ 0 [])) (le_of_lt (ends_next base part [n]))

end Ascends
end Path

open ArrayLang.Path

mutual
/-- The assignments of a statement are listed in the order of their paths. -/
theorem Stmt.assignments_ascend : ∀ (path hi : Path) (s : Stmt), path.Ends hi →
    Ascends path hi ((s.assignments path).map (·.1))
  | path, hi, .assign target value, h => by
    rw [Stmt.assignments]
    exact .singleton (le_refl path) h.self
  | path, hi, .ret value, h => by
    rw [Stmt.assignments]
    exact .nil
  | path, hi, .branch cond onTrue onFalse merge, h => by
    rw [Stmt.assignments, List.map_append]
    have htrue := (Stmt.assignmentsFrom_ascend (path ++ [1]) 0 onTrue).inPart
    have hfalse := (Stmt.assignmentsFrom_ascend (path ++ [2]) 0 onFalse).inPart
    exact (htrue.append hfalse (append_singleton_le (by decide) path)
      (append_singleton_le (by decide) path)).mono (le_of_lt (lt_append_cons path 1 []))
      (le_of_lt (h.part 3))
  | path, hi, .loop cond body merge, h => by
    rw [Stmt.assignments]
    have hbody := (Stmt.assignmentsFrom_ascend (path ++ [2]) 0 body).inPart
    exact hbody.mono (le_of_lt (lt_append_cons path 2 [])) (le_of_lt (h.part 3))
termination_by structural _ _ s => s

theorem Stmt.assignmentsFrom_ascend : ∀ (base : Path) (i : Nat) (ss : List Stmt),
    Ascends (base ++ [i]) (base ++ [i + ss.length]) ((Stmt.assignmentsFrom base i ss).map (·.1))
  | base, i, [] => by
    rw [Stmt.assignmentsFrom]
    exact .nil
  | base, i, s :: ss => by
    rw [Stmt.assignmentsFrom, List.map_append]
    have hs := Stmt.assignments_ascend (base ++ [i]) (base ++ [i + 1]) s (ends_next base i)
    have hss := Stmt.assignmentsFrom_ascend base (i + 1) ss
    rw [List.length_cons, Nat.add_comm ss.length 1, ← Nat.add_assoc]
    exact hs.append hss (append_singleton_le (Nat.le_succ i) base)
      (append_singleton_le (Nat.le_add_right _ _) base)
termination_by structural _ _ ss => ss
end

/-! ## Where a path leads -/

/-- The path leads to the statement: it is the statement at the path, and it stands at the path's last
index in the block at the path. A change at the path is a change of this block. -/
structure Block.LeadsTo (body : Block) (path : Path) (s : Stmt) : Prop where
  stmtAt : body.stmtAt? path = some s
  blockAt : ∃ block i, body.blockAt? path = some block ∧ path.getLast? = some i
    ∧ block[i]? = some s
    ∧ ∀ change, (body.modifyAt? change path).bind (Block.blockAt? · path) = change i block

theorem Block.exists_blockAt? {s : Stmt} : ∀ (path : Path) (body : Block),
    body.stmtAt? path = some s → ∃ block i, body.blockAt? path = some block
      ∧ path.getLast? = some i ∧ block[i]? = some s
      ∧ ∀ change, (body.modifyAt? change path).bind (Block.blockAt? · path) = change i block
  | [], _, h => by cases h
  | [k], body, h => by
    refine ⟨body, k, rfl, rfl, h, fun change => ?_⟩
    exact Option.bind_fun_some _
  | k :: part :: rest, body, h => by
    obtain ⟨outer, houter, h⟩ := Option.bind_eq_some_iff.1 h
    obtain ⟨inner, hinner, h⟩ := Option.bind_eq_some_iff.1 h
    obtain ⟨block, i, hblock, hlast, hat, hchange⟩ := Block.exists_blockAt? rest inner h
    have hrest : rest ≠ [] := fun heq => by rw [heq] at h; cases h
    refine ⟨block, i, ?_, ?_, hat, fun change => ?_⟩
    · rw [Block.blockAt?, houter]
      change (outer.part? part).bind (Block.blockAt? · rest) = _
      rw [hinner]
      exact hblock
    · rw [List.getLast?_cons_of_ne_nil (List.cons_ne_nil _ _), List.getLast?_cons_of_ne_nil hrest]
      exact hlast
    · rw [← hchange change, Block.modifyAt?, houter]
      change (((outer.part? part).bind fun inner => (inner.modifyAt? change rest).bind fun inner' =>
        some (body.set k (outer.setPart part inner'))).bind _) = _
      rw [hinner, Option.bind_some, Option.bind_assoc]
      refine Option.bind_congr fun inner' _ => ?_
      -- The part that was put in is the one that the path finds.
      have hset : (body.set k (outer.setPart part inner'))[k]? = some (outer.setPart part inner') :=
        List.getElem?_set_self (List.getElem?_eq_some_iff.1 houter).1
      rw [Option.bind_some, Block.blockAt?, hset]
      change ((outer.setPart part inner').part? part).bind (Block.blockAt? · rest) = _
      rw [Stmt.part?_setPart hinner]
      rfl

/-- A path leads to a statement in both ways or in neither. -/
theorem Block.leadsTo_iff {body : Block} {path : Path} {s : Stmt} :
    body.LeadsTo path s ↔ body.stmtAt? path = some s :=
  ⟨LeadsTo.stmtAt, fun h => ⟨h, exists_blockAt? path body h⟩⟩

/-! ## Accesses -/

/-- Whether a statement is a single point, without a condition, a merge or blocks. -/
def Stmt.isSimple : Stmt → Bool
  | .assign _ _ | .ret _ => true
  | .branch _ _ _ _ | .loop _ _ _ => false

namespace Access

/-- The accesses of a statement itself at a path, not those in its blocks. -/
def ofSelf (path : Path) : Stmt → List Access
  | .assign target value => ofExpr path value ++ ofTarget path target
  | .ret value => ofExpr path value
  | .branch cond _ _ merge =>
    ofExpr (path ++ [0]) cond ++ ofSide (path ++ [3]) Phi.left merge
      ++ merge.flatMap fun phi => ofExpr (path ++ [3]) phi.right
  | .loop cond _ merge =>
    ofSide (path ++ [0]) Phi.left merge ++ ofExpr (path ++ [1]) cond
      ++ ofSide (path ++ [3]) Phi.right merge

variable {path : Path} {a : Access}

theorem path_of_mem_ofExpr {e : Expr} (h : a ∈ ofExpr path e) : a.path = path := by
  obtain ⟨name, -, rfl⟩ := List.mem_map.1 h
  rfl

theorem path_of_mem_flatMap {α : Type} {l : List α} {f : α → List Access}
    (hf : ∀ x, ∀ a ∈ f x, a.path = path) (h : a ∈ l.flatMap f) : a.path = path := by
  obtain ⟨x, -, hx⟩ := List.mem_flatMap.1 h
  exact hf x a hx

theorem path_of_mem_ofSide {side : Phi → Expr} {merge : List Phi}
    (h : a ∈ ofSide path side merge) : a.path = path := by
  refine path_of_mem_flatMap (fun phi a ha => ?_) h
  rcases List.mem_append.1 ha with ha | ha
  · exact path_of_mem_ofExpr ha
  · rw [List.mem_singleton.1 ha]

mutual
theorem path_of_mem_ofTarget {node : Node} {ty? : Option Ty}
    (h : a ∈ ofTarget path ⟨node, ty?⟩) : a.path = path := by
  cases node with
  | var name =>
    rw [ofTarget, List.mem_singleton] at h
    rw [h]
  | tuple items =>
    rw [ofTarget] at h
    exact path_of_mem_ofTargets items h
  | _ =>
    unfold ofTarget at h
    split at h
    · rcases List.mem_cons.1 h with rfl | h
      · rfl
      · exact path_of_mem_flatMap (fun _ _ => path_of_mem_ofExpr) h
    · exact path_of_mem_ofExpr h
termination_by sizeOf node

theorem path_of_mem_ofTargets : ∀ es : List Expr, a ∈ ofTargets path es → a.path = path
  | [], h => by
    rw [ofTargets] at h
    exact (List.not_mem_nil h).elim
  | ⟨node, ty?⟩ :: es, h => by
    rw [ofTargets, List.mem_append] at h
    rcases h with h | h
    · exact path_of_mem_ofTarget h
    · exact path_of_mem_ofTargets es h
termination_by es => sizeOf es
end

/-- A statement without parts accesses variables at its path, any other in its parts. -/
theorem path_of_mem_ofSelf {s : Stmt} (h : a ∈ ofSelf path s) :
    ∃ part?, a.path = path ++ Option.toList part? ∧ (part? = none ↔ s.isSimple = true) := by
  have here (h : a.path = path) (hs : s.isSimple = true) :
      ∃ part? : Option Nat, a.path = path ++ part?.toList ∧ (part? = none ↔ s.isSimple = true) :=
    ⟨none, by rw [h]; exact (List.append_nil path).symm, iff_of_true rfl hs⟩
  have inPart (part : Nat) (h : a.path = path ++ [part]) (hs : s.isSimple = false) :
      ∃ part? : Option Nat, a.path = path ++ part?.toList ∧ (part? = none ↔ s.isSimple = true) :=
    ⟨some part, h, iff_of_false nofun (by rw [hs]; decide)⟩
  cases s with
  | assign target value =>
    obtain ⟨node, ty?⟩ := target
    rcases List.mem_append.1 h with h | h
    · exact here (path_of_mem_ofExpr h) rfl
    · exact here (path_of_mem_ofTarget h) rfl
  | ret value => exact here (path_of_mem_ofExpr h) rfl
  | branch cond onTrue onFalse merge =>
    rw [ofSelf, List.mem_append, List.mem_append] at h
    rcases h with (h | h) | h
    · exact inPart 0 (path_of_mem_ofExpr h) rfl
    · exact inPart 3 (path_of_mem_ofSide h) rfl
    · exact inPart 3 (path_of_mem_flatMap (fun _ _ => path_of_mem_ofExpr) h) rfl
  | loop cond body merge =>
    rw [ofSelf, List.mem_append, List.mem_append] at h
    rcases h with (h | h) | h
    · exact inPart 0 (path_of_mem_ofSide h) rfl
    · exact inPart 1 (path_of_mem_ofExpr h) rfl
    · exact inPart 3 (path_of_mem_ofSide h) rfl

mutual
/-- The accesses of a statement are those of the statements that paths lead to. -/
theorem mem_ofStmt : ∀ (base : Path) (s : Stmt),
    a ∈ ofStmt base s ↔ ∃ p t, s.Reaches base p t ∧ a ∈ ofSelf p t
  | base, .assign target value => by
    simp only [Stmt.reaches_assign, and_assoc, exists_and_left, exists_eq_left]
    rfl
  | base, .ret value => by
    simp only [Stmt.reaches_ret, and_assoc, exists_and_left, exists_eq_left]
    rfl
  | base, .branch cond onTrue onFalse merge => by
    simp only [Stmt.reaches_branch, or_and_right, exists_or, ← mem_ofBlock (base ++ [1]) 0 onTrue,
      ← mem_ofBlock (base ++ [2]) 0 onFalse, and_assoc, exists_and_left, exists_eq_left]
    rw [ofStmt, ofSelf]
    simp only [List.mem_append]
    tauto
  | base, .loop cond body merge => by
    simp only [Stmt.reaches_loop, or_and_right, exists_or, ← mem_ofBlock (base ++ [2]) 0 body,
      and_assoc, exists_and_left, exists_eq_left]
    rw [ofStmt, ofSelf]
    simp only [List.mem_append]
    tauto
termination_by structural _ s => s

theorem mem_ofBlock : ∀ (base : Path) (i : Nat) (ss : List Stmt),
    a ∈ ofBlock base i ss ↔ ∃ p t, Block.Reaches base i ss p t ∧ a ∈ ofSelf p t
  | base, i, [] => by
    rw [ofBlock]
    exact ⟨nofun, fun ⟨_, _, h, _⟩ => (Block.reaches_nil h).elim⟩
  | base, i, s :: ss => by
    rw [ofBlock, List.mem_append, mem_ofStmt (base ++ [i]) s, mem_ofBlock base (i + 1) ss]
    simp only [Block.reaches_cons, or_and_right, exists_or]
termination_by structural _ _ ss => ss
end

end Access

/-- An access of a function defines a parameter, or it is an access of a statement that a path leads to. -/
theorem UseDef.mem_accesses {f : TypedFn} {a : Access} :
    a ∈ (compute f).accesses ↔ (∃ name ∈ f.argNames, a = ⟨.define, name, []⟩)
      ∨ ∃ p s, f.body.LeadsTo p s ∧ a ∈ Access.ofSelf p s := by
  show a ∈ f.argNames.map _ ++ Access.ofBlock [] 0 f.body ↔ _
  simp only [List.mem_append, List.mem_map, Access.mem_ofBlock, Block.reaches_iff_stmtAt?,
    Block.leadsTo_iff, eq_comm (a := a)]

end ArrayLang
