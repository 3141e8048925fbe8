import ArrayLang.Dataflow.Path
import Mathlib.Data.List.Basic

/-!
# Statements at paths

The assignments of a block are listed under the paths that lead to them. What holds of the statements
at all paths holds of each statement of a block and in the blocks inside it. A change at a path is a
change of the block that the path leads into, carried out through the statements around it.
-/

/-- An entry of a list with what stands before and after it. -/
theorem List.split_of_getElem? {α : Type} {l : List α} {k : Nat} {a : α} (h : l[k]? = some a) :
    ∃ pre post, l = pre ++ a :: post ∧ pre.length = k := by
  obtain ⟨hk, rfl⟩ := List.getElem?_eq_some_iff.1 h
  refine ⟨l.take k, l.drop (k + 1), ?_, List.length_take_of_le (Nat.le_of_lt hk)⟩
  rw [← List.drop_eq_getElem_cons hk, List.take_append_drop]

/-- Two entries of a list with what stands before, between and after them. -/
theorem List.split_of_getElem?_lt {α : Type} {l : List α} {i j : Nat} {a b : α} (hi : l[i]? = some a)
    (hj : l[j]? = some b) (hij : i < j) : ∃ pre mid post, l = pre ++ a :: (mid ++ b :: post)
      ∧ pre.length = i ∧ pre.length + 1 + mid.length = j := by
  obtain ⟨pre, rest, rfl, hpre⟩ := List.split_of_getElem? hi
  rw [List.getElem?_append_right (by omega), show j - pre.length = (j - pre.length - 1) + 1 by omega,
    List.getElem?_cons_succ] at hj
  obtain ⟨mid, post, rfl, hmid⟩ := List.split_of_getElem? hj
  exact ⟨pre, mid, post, rfl, hpre, by omega⟩

namespace ArrayLang

/-! ## Paths into one block -/

/-- Two paths lead into one block when they differ in their last index only. -/
theorem Path.sameBlockBefore_iff {earlier later : Path} :
    earlier.sameBlockBefore later = true
      ↔ ∃ base i j, earlier = base ++ [i] ∧ later = base ++ [j] ∧ i < j := by
  unfold Path.sameBlockBefore
  constructor
  · intro h
    split at h
    · rename_i i j hi hj
      rw [Bool.and_eq_true, decide_eq_true_eq, decide_eq_true_eq] at h
      refine ⟨later.dropLast, i, j, ?_, (List.dropLast_append_getLast? j hj).symm, h.2⟩
      rw [← h.1]
      exact (List.dropLast_append_getLast? i hi).symm
    · cases h
  · rintro ⟨base, i, j, rfl, rfl, hij⟩
    simp [hij]

/-! ## Statements inside code -/

/-- From the statements at `base` that are numbered from `i` on, the path leads to the statement `t`. -/
def Block.Reaches (base : Path) (i : Nat) (ss : Block) (path : Path) (t : Stmt) : Prop :=
  ∃ k rest, path = base ++ (i + k) :: rest ∧ ss.stmtAt? (k :: rest) = some t

/-- From the statement at `base` the path leads to the statement `t`: it stays, or it leads on into one
of the statement's blocks. -/
def Stmt.Reaches (base : Path) (s : Stmt) (path : Path) (t : Stmt) : Prop :=
  path = base ∧ t = s ∨ ∃ part inner, s.part? part = some inner
    ∧ Block.Reaches (base ++ [part]) 0 inner path t

section
variable {base path : Path} {i : Nat} {s t : Stmt} {ss : Block}

theorem Block.reaches_iff_stmtAt? : Block.Reaches [] 0 ss path t ↔ ss.stmtAt? path = some t := by
  constructor
  · rintro ⟨k, rest, rfl, h⟩
    rwa [Nat.zero_add]
  · intro h
    match path with
    | [] => cases h
    | k :: rest => exact ⟨k, rest, by rw [Nat.zero_add]; rfl, h⟩

theorem Block.reaches_nil : ¬Block.Reaches base i [] path t := by
  rintro ⟨k, rest, -, h⟩
  match rest with
  | [] => cases h
  | _ :: _ => cases h

theorem Block.reaches_cons :
    Block.Reaches base i (s :: ss) path t
      ↔ s.Reaches (base ++ [i]) path t ∨ Block.Reaches base (i + 1) ss path t := by
  constructor
  · rintro ⟨k, rest, rfl, h⟩
    match k, rest with
    | k + 1, [] => exact .inr ⟨k, [], by rw [Nat.add_right_comm]; rfl, h⟩
    | k + 1, part :: rest => exact .inr ⟨k, part :: rest, by rw [Nat.add_right_comm]; rfl, h⟩
    | 0, [] =>
      cases h
      exact .inl (.inl ⟨rfl, rfl⟩)
    | 0, part :: rest =>
      change (s.part? part).bind (Block.stmtAt? · rest) = some t at h
      obtain ⟨inner, hinner, h⟩ := Option.bind_eq_some_iff.1 h
      match rest with
      | [] => cases h
      | k :: rest =>
        refine .inl (.inr ⟨part, inner, hinner, k, rest, ?_, h⟩)
        rw [Nat.zero_add, List.append_assoc, List.append_assoc]
        rfl
  · rintro ((⟨rfl, rfl⟩ | ⟨part, inner, hinner, k, rest, rfl, h⟩) | ⟨k, rest, rfl, h⟩)
    · exact ⟨0, [], rfl, rfl⟩
    · refine ⟨0, part :: k :: rest, ?_, ?_⟩
      · rw [Nat.zero_add, List.append_assoc, List.append_assoc]
        rfl
      · change (s.part? part).bind (Block.stmtAt? · (k :: rest)) = some t
        rw [hinner]
        exact h
    · refine ⟨k + 1, rest, by rw [Nat.add_right_comm]; rfl, ?_⟩
      match rest with
      | [] => exact h
      | _ :: _ => exact h

theorem Stmt.reaches_of_part?_eq_none (h : ∀ part, s.part? part = none) :
    s.Reaches base path t ↔ path = base ∧ t = s := by
  refine or_iff_left ?_
  rintro ⟨part, inner, hinner, -⟩
  rw [h part] at hinner
  cases hinner

theorem Stmt.reaches_assign {target value : Expr} :
    (Stmt.assign target value).Reaches base path t ↔ path = base ∧ t = .assign target value :=
  reaches_of_part?_eq_none fun _ => rfl

theorem Stmt.reaches_ret {value : Expr} :
    (Stmt.ret value).Reaches base path t ↔ path = base ∧ t = .ret value :=
  reaches_of_part?_eq_none fun _ => rfl

theorem Stmt.reaches_branch {cond : Expr} {onTrue onFalse : Block} {merge : List Phi} :
    (Stmt.branch cond onTrue onFalse merge).Reaches base path t
      ↔ path = base ∧ t = .branch cond onTrue onFalse merge
        ∨ onTrue.Reaches (base ++ [1]) 0 path t ∨ onFalse.Reaches (base ++ [2]) 0 path t := by
  refine or_congr_right ⟨?_, ?_⟩
  · rintro ⟨part, inner, hinner, h⟩
    match part with
    | 1 =>
      cases hinner
      exact .inl h
    | 2 =>
      cases hinner
      exact .inr h
    | 0 | _ + 3 => cases hinner
  · rintro (h | h)
    · exact ⟨1, _, rfl, h⟩
    · exact ⟨2, _, rfl, h⟩

theorem Stmt.reaches_loop {cond : Expr} {body : Block} {merge : List Phi} :
    (Stmt.loop cond body merge).Reaches base path t
      ↔ path = base ∧ t = .loop cond body merge ∨ body.Reaches (base ++ [2]) 0 path t := by
  refine or_congr_right ⟨?_, fun h => ⟨2, _, rfl, h⟩⟩
  rintro ⟨part, inner, hinner, h⟩
  match part with
  | 2 =>
    cases hinner
    exact h
  | 0 | 1 | _ + 3 => cases hinner

end

/-! ## Assignments and their paths -/

section
variable {path : Path} {target value : Expr}

mutual
/-- The assignments of a statement are listed under the paths that lead to them. -/
theorem Stmt.mem_assignments : ∀ (base : Path) (s : Stmt),
    (path, target, value) ∈ s.assignments base ↔ s.Reaches base path (.assign target value)
  | base, .assign t v => by
    rw [Stmt.assignments, List.mem_singleton, Stmt.reaches_assign, Prod.mk.injEq, Prod.mk.injEq,
      Stmt.assign.injEq]
  | base, .ret v => by
    rw [Stmt.assignments, Stmt.reaches_ret]
    exact ⟨nofun, nofun⟩
  | base, .branch cond onTrue onFalse merge => by
    rw [Stmt.assignments, List.mem_append, Stmt.reaches_branch,
      Stmt.mem_assignmentsFrom (base ++ [1]) 0 onTrue,
      Stmt.mem_assignmentsFrom (base ++ [2]) 0 onFalse]
    exact (or_iff_right nofun).symm
  | base, .loop cond body merge => by
    rw [Stmt.assignments, Stmt.reaches_loop, Stmt.mem_assignmentsFrom (base ++ [2]) 0 body]
    exact (or_iff_right nofun).symm
termination_by structural _ s => s

theorem Stmt.mem_assignmentsFrom : ∀ (base : Path) (i : Nat) (ss : List Stmt),
    (path, target, value) ∈ Stmt.assignmentsFrom base i ss
      ↔ Block.Reaches base i ss path (.assign target value)
  | base, i, [] => by
    rw [Stmt.assignmentsFrom]
    exact ⟨nofun, fun h => (Block.reaches_nil h).elim⟩
  | base, i, s :: ss => by
    rw [Stmt.assignmentsFrom, List.mem_append, Block.reaches_cons,
      Stmt.mem_assignments (base ++ [i]) s, Stmt.mem_assignmentsFrom base (i + 1) ss]
termination_by structural _ _ ss => ss
end

/-- The assignments of a block are listed under the paths that lead to them. -/
theorem Block.mem_assignments {block : Block} :
    (path, target, value) ∈ block.assignments
      ↔ block.stmtAt? path = some (.assign target value) :=
  (Stmt.mem_assignmentsFrom [] 0 block).trans Block.reaches_iff_stmtAt?

end

/-! ## All statements of a block -/

/-- Every statement of the block, at any depth, satisfies `P`. -/
def Block.Everywhere (P : Stmt → Prop) (block : Block) : Prop :=
  ∀ path s, block.stmtAt? path = some s → P s

/-- The statement and those in its blocks satisfy `P`. -/
def Stmt.Everywhere (P : Stmt → Prop) (s : Stmt) : Prop :=
  P s ∧ ∀ part inner, s.part? part = some inner → inner.Everywhere P

section
variable {P : Stmt → Prop} {s : Stmt} {ss : Block}

theorem Block.everywhere_nil : Block.Everywhere P [] := by
  intro path s h
  match path with
  | [] => cases h
  | [_] => cases h
  | _ :: _ :: _ => cases h

theorem Block.everywhere_cons :
    Block.Everywhere P (s :: ss) ↔ s.Everywhere P ∧ Block.Everywhere P ss := by
  refine ⟨fun h => ⟨⟨h [0] s rfl, fun part inner hpart path s' hat => ?_⟩, fun path s' hat => ?_⟩,
    fun h path s' hat => ?_⟩
  · exact h (0 :: part :: path) s' (by simpa [Block.stmtAt?, hpart] using hat)
  · match path with
    | [] => cases hat
    | [k] => exact h [k + 1] s' hat
    | k :: part :: rest => exact h ((k + 1) :: part :: rest) s' hat
  · match path with
    | [] => cases hat
    | [0] =>
      cases hat
      exact h.1.1
    | [k + 1] => exact h.2 [k] s' hat
    | 0 :: part :: rest =>
      change (s.part? part).bind (Block.stmtAt? · rest) = some s' at hat
      obtain ⟨inner, hinner, hat⟩ := Option.bind_eq_some_iff.1 hat
      exact h.1.2 part inner hinner rest s' hat
    | (k + 1) :: part :: rest => exact h.2 (k :: part :: rest) s' hat

theorem Block.everywhere_iff : Block.Everywhere P ss ↔ ∀ s ∈ ss, s.Everywhere P := by
  induction ss with
  | nil => exact iff_of_true everywhere_nil (List.forall_mem_nil _)
  | cons s ss ih => rw [everywhere_cons, ih, List.forall_mem_cons]

theorem Block.everywhere_append {ss' : List Stmt} :
    Block.Everywhere P (ss ++ ss') ↔ Block.Everywhere P ss ∧ Block.Everywhere P ss' := by
  rw [everywhere_iff, everywhere_iff, everywhere_iff, List.forall_mem_append]

theorem Block.Everywhere.mono {Q : Stmt → Prop} (h : Block.Everywhere P ss)
    (hPQ : ∀ s, P s → Q s) : Block.Everywhere Q ss :=
  fun path s hat => hPQ s (h path s hat)

theorem Stmt.everywhere_assign {target value : Expr} :
    (Stmt.assign target value).Everywhere P ↔ P (.assign target value) :=
  and_iff_left nofun

theorem Stmt.everywhere_ret {value : Expr} : (Stmt.ret value).Everywhere P ↔ P (.ret value) :=
  and_iff_left nofun

theorem Stmt.everywhere_branch {cond : Expr} {onTrue onFalse : Block} {merge : List Phi} :
    (Stmt.branch cond onTrue onFalse merge).Everywhere P ↔
      P (.branch cond onTrue onFalse merge) ∧ onTrue.Everywhere P ∧ onFalse.Everywhere P := by
  refine and_congr_right fun _ => ⟨fun h => ⟨h 1 _ rfl, h 2 _ rfl⟩, fun h part inner hpart => ?_⟩
  match part with
  | 1 =>
    cases hpart
    exact h.1
  | 2 =>
    cases hpart
    exact h.2
  | 0 | _ + 3 => cases hpart

theorem Stmt.everywhere_loop {cond : Expr} {body : Block} {merge : List Phi} :
    (Stmt.loop cond body merge).Everywhere P ↔ P (.loop cond body merge) ∧ body.Everywhere P := by
  refine and_congr_right fun _ => ⟨fun h => h 2 _ rfl, fun h part inner hpart => ?_⟩
  match part with
  | 2 =>
    cases hpart
    exact h
  | 0 | 1 | _ + 3 => cases hpart

end

/-! ## Changes at a path -/

/-- A nested block that has been replaced is the new one. -/
theorem Stmt.part?_setPart {s : Stmt} {part : Nat} {inner inner' : Block}
    (h : s.part? part = some inner) : (s.setPart part inner').part? part = some inner' := by
  unfold Stmt.part? at h
  split at h
  · rfl
  · rfl
  · rfl
  · cases h

/-- Only the last replacement of a nested block counts. -/
theorem Stmt.setPart_setPart {s : Stmt} {part : Nat} {inner : Block} (h : s.part? part = some inner)
    (inner' inner'' : Block) : (s.setPart part inner').setPart part inner'' = s.setPart part inner'' := by
  unfold Stmt.part? at h
  split at h
  · rfl
  · rfl
  · rfl
  · cases h

/-- What a change at the end of a path does to the block that the path leads into, and what carries over
from a block to the statement around it, holds of the whole block. -/
theorem Block.modifyAt?_induct_at {R : Block → Block → Prop} {change : Nat → Block → Option Block}
    {s : Stmt}
    (step : ∀ k part (block inner inner' : Block) outer, block[k]? = some outer →
      outer.part? part = some inner → R inner inner' →
        R block (block.set k (outer.setPart part inner'))) :
    ∀ (path : Path) (body body' : Block), body.stmtAt? path = some s →
      body.modifyAt? change path = some body' →
        (∀ k (block block' : Block), path.getLast? = some k → body.blockAt? path = some block →
          block[k]? = some s → change k block = some block' → R block block') → R body body'
  | [], _, _, h, _, _ => by cases h
  | [k], body, body', hat, h, base => base k body body' rfl rfl hat h
  | k :: part :: rest, body, body', hat, h, base => by
    rw [Block.modifyAt?] at h
    obtain ⟨outer, houter, h⟩ := Option.bind_eq_some_iff.1 h
    obtain ⟨inner, hinner, h⟩ := Option.bind_eq_some_iff.1 h
    obtain ⟨inner', hinner', h⟩ := Option.bind_eq_some_iff.1 h
    cases h
    have hrest : inner.stmtAt? rest = some s := by
      rw [Block.stmtAt?, houter] at hat
      simpa [hinner] using hat
    refine step k part body inner inner' outer houter hinner ?_
    refine Block.modifyAt?_induct_at step rest inner inner' hrest hinner' ?_
    intro i block block' hlast hblock
    refine base i block block' ?_ ?_
    · cases rest with
      | nil => cases hrest
      | cons j rest =>
        rw [List.getLast?_cons_cons, List.getLast?_cons_cons]
        exact hlast
    · rw [Block.blockAt?, houter]
      simpa [hinner] using hblock

/-- The same where it does not matter which block the path leads into. -/
theorem Block.modifyAt?_induct {R : Block → Block → Prop} {change : Nat → Block → Option Block}
    {s : Stmt}
    (base : ∀ k (block block' : Block), block[k]? = some s → change k block = some block' →
      R block block')
    (step : ∀ k part (block inner inner' : Block) outer, block[k]? = some outer →
      outer.part? part = some inner → R inner inner' →
        R block (block.set k (outer.setPart part inner')))
    (path : Path) (body body' : Block) (hat : body.stmtAt? path = some s)
    (h : body.modifyAt? change path = some body') : R body body' :=
  Block.modifyAt?_induct_at step path body body' hat h fun k block block' _ _ => base k block block'

/-- Two changes to one block are one change. -/
theorem Block.modifyAt?_modifyAt? {change change' : Nat → Block → Option Block} {i j : Nat} :
    ∀ (base : Path) {body body₁ body₂ : Block}, body.modifyAt? change (base ++ [j]) = some body₁ →
      body₁.modifyAt? change' (base ++ [i]) = some body₂ →
        body.modifyAt? (fun j block => (change j block).bind (change' i)) (base ++ [j]) = some body₂
  | [], body, body₁, body₂, h, h' => by
    change (change j body).bind (change' i) = _
    rw [show change j body = some body₁ from h]
    exact h'
  | [k], _, _, _, h, _ => by
    obtain ⟨outer, -, h⟩ := Option.bind_eq_some_iff.1 h
    obtain ⟨inner, -, h⟩ := Option.bind_eq_some_iff.1 h
    cases h
  | k :: part :: base, body, body₁, body₂, h, h' => by
    obtain ⟨outer, houter, h⟩ := Option.bind_eq_some_iff.1 h
    obtain ⟨inner, hinner, h⟩ := Option.bind_eq_some_iff.1 h
    obtain ⟨inner₁, hinner₁, h⟩ := Option.bind_eq_some_iff.1 h
    cases h
    obtain ⟨outer₁, houter₁, hrest⟩ := Option.bind_eq_some_iff.1 h'
    obtain ⟨_, hpart, hrest⟩ := Option.bind_eq_some_iff.1 hrest
    obtain ⟨inner₂, hinner₂, heq⟩ := Option.bind_eq_some_iff.1 hrest
    rw [List.getElem?_set_self (List.getElem?_eq_some_iff.1 houter).1] at houter₁
    cases houter₁
    rw [Stmt.part?_setPart hinner] at hpart
    cases hpart
    cases heq
    rw [List.set_set, Stmt.setPart_setPart hinner, List.cons_append, List.cons_append, modifyAt?, houter]
    show ((outer.part? part).bind _) = _
    rw [hinner]
    show ((modifyAt? _ inner (base ++ [j])).bind _) = _
    rw [Block.modifyAt?_modifyAt? base hinner₁ hinner₂]
    rfl

/-! ## What holds everywhere after a change -/

section
variable {P : Stmt → Prop} {s : Stmt} {part : Nat} {inner inner' : Block}

theorem Stmt.everywhere_setPart (hpart : s.part? part = some inner) (hself : P (s.setPart part inner'))
    (hs : s.Everywhere P) (hinner : inner'.Everywhere P) : (s.setPart part inner').Everywhere P := by
  unfold Stmt.part? at hpart
  split at hpart
  · exact Stmt.everywhere_branch.2 ⟨hself, hinner, (Stmt.everywhere_branch.1 hs).2.2⟩
  · exact Stmt.everywhere_branch.2 ⟨hself, (Stmt.everywhere_branch.1 hs).2.1, hinner⟩
  · exact Stmt.everywhere_loop.2 ⟨hself, hinner⟩
  · cases hpart

/-- What does not depend on the nested blocks of a statement holds everywhere after a change if it does
in the block that is changed. -/
theorem Block.everywhere_modify (hset : ∀ s part inner, P s → P (s.setPart part inner))
    {change : Nat → Block → Option Block} {path : Path} {body body' : Block}
    (hat : body.stmtAt? path = some s) (h : body.modifyAt? change path = some body')
    (base : ∀ k (block block' : Block), block[k]? = some s → change k block = some block' →
      block.Everywhere P → block'.Everywhere P) (hbody : body.Everywhere P) : body'.Everywhere P := by
  refine Block.modifyAt?_induct (R := fun block block' => block.Everywhere P → block'.Everywhere P)
    base ?_ path body body' hat h hbody
  intro k part block inner inner' outer houter hpart ih hblock
  rw [Block.everywhere_iff] at hblock ⊢
  have hself := hblock outer (List.mem_of_getElem? houter)
  intro s hs
  rcases List.mem_or_eq_of_mem_set hs with hs | rfl
  · exact hblock s hs
  · have hinner := ih (hself.2 part inner hpart)
    exact Stmt.everywhere_setPart hpart (hset outer part inner' hself.1) hself hinner

end

end ArrayLang
