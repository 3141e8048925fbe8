import ArrayLang.Proofs.Dataflow.Alias
import ArrayLang.Proofs.Dataflow.Path

/-!
# Connected variables

Which variables the classes of aliases put together, read off the statements: an assignment or a merge
at some depth of the body that binds a variable to a value links it to each alias root of that value,
and two variables are in one class exactly when a chain of such links, each followed in either
direction, leads from one to the other. A class says nothing else, so that the order of the statements
does not matter.

## Main results

- `Alias.mem_ofBlock`, `Alias.mem_returnedVarsAll`: what is collected from a body, by its statements.
- `Aliases.compute_connected`: the classes, and what escapes, by chains of links.
-/

namespace ArrayLang

/-! ## Some statement of a block -/

/-- Some statement of the block, at any depth, satisfies `P`. -/
def Block.Somewhere (P : Stmt → Prop) (block : Block) : Prop :=
  ∃ path s, block.stmtAt? path = some s ∧ P s

/-- The statement or one in its blocks satisfies `P`. -/
def Stmt.Somewhere (P : Stmt → Prop) (s : Stmt) : Prop :=
  P s ∨ ∃ part inner, s.part? part = some inner ∧ inner.Somewhere P

section
variable {P : Stmt → Prop} {s : Stmt} {ss : Block}

theorem Block.not_somewhere : ¬Block.Somewhere P ss ↔ Block.Everywhere (fun s => ¬P s) ss := by
  unfold Somewhere Everywhere
  simp only [not_exists, not_and]

theorem Stmt.not_somewhere : ¬s.Somewhere P ↔ s.Everywhere fun s => ¬P s := by
  unfold Somewhere Everywhere
  simp only [not_or, not_exists, not_and, Block.not_somewhere]

theorem Block.not_somewhere_nil : ¬Block.Somewhere P [] :=
  not_somewhere.2 everywhere_nil

theorem Block.somewhere_cons :
    Block.Somewhere P (s :: ss) ↔ s.Somewhere P ∨ Block.Somewhere P ss := by
  rw [← not_iff_not, not_or, not_somewhere, not_somewhere, Stmt.not_somewhere, everywhere_cons]

theorem Stmt.somewhere_branch {cond : Expr} {onTrue onFalse : Block} {merge : List Phi} :
    (Stmt.branch cond onTrue onFalse merge).Somewhere P ↔
      P (.branch cond onTrue onFalse merge) ∨ onTrue.Somewhere P ∨ onFalse.Somewhere P := by
  rw [← not_iff_not, not_or, not_or, not_somewhere, Block.not_somewhere, Block.not_somewhere,
    everywhere_branch]

theorem Stmt.somewhere_loop {cond : Expr} {body : Block} {merge : List Phi} :
    (Stmt.loop cond body merge).Somewhere P ↔ P (.loop cond body merge) ∨ body.Somewhere P := by
  rw [← not_iff_not, not_or, not_somewhere, Block.not_somewhere, everywhere_loop]

/-- An assignment and a return have no blocks. -/
theorem Stmt.somewhere_of_part?_eq_none (h : ∀ part, s.part? part = none) :
    s.Somewhere P ↔ P s := by
  refine ⟨fun hs => ?_, .inl⟩
  rcases hs with hs | ⟨part, inner, hpart, -⟩
  · exact hs
  · rw [h part] at hpart
    cases hpart

end

/-! ## Links -/

/-- The merge reconciles `x` with a value that has the alias root `r`, on either side. -/
def Phi.Links (x r : String) (phi : Phi) : Prop :=
  phi.name = x ∧ (r ∈ phi.left.aliasRoots ∨ r ∈ phi.right.aliasRoots)

/-- The statement itself, not one in its blocks, binds `x` to a value that has the alias root `r`. -/
inductive Stmt.Links (x r : String) : Stmt → Prop
  | assign {target value : Expr} (hx : x ∈ target.targetVars) (hr : r ∈ value.aliasRoots) :
    Stmt.Links x r (.assign target value)
  | branch {cond : Expr} {onTrue onFalse : Block} {merge : List Phi} {phi : Phi}
    (hphi : phi ∈ merge) (hlinks : phi.Links x r) :
    Stmt.Links x r (.branch cond onTrue onFalse merge)
  | loop {cond : Expr} {body : Block} {merge : List Phi} {phi : Phi} (hphi : phi ∈ merge)
    (hlinks : phi.Links x r) : Stmt.Links x r (.loop cond body merge)

/-- Some statement of the body, at any depth, binds `x` to a value that has the alias root `r`. -/
def Block.Links (body : Block) (x r : String) : Prop :=
  body.Somewhere (Stmt.Links x r)

/-- A chain of links leads from one variable to the other, each followed in either direction. -/
def Block.Connected (body : Block) : String → String → Prop :=
  Relation.TransGen (Relation.SymmGen body.Links)

/-- The variable occurs in a value that some statement of the body, at any depth, returns. -/
def Block.ReturnsVar (body : Block) (x : String) : Prop :=
  body.Somewhere fun s => ∃ value, s = .ret value ∧ x ∈ value.vars

namespace Alias

variable {x r : String}

theorem mem_bindings {name : String} {value : Expr} :
    (x, r) ∈ bindings name value ↔ name = x ∧ r ∈ value.aliasRoots := by
  unfold bindings
  rw [List.mem_map]
  constructor
  · rintro ⟨root, hroot, heq⟩
    cases heq
    exact ⟨rfl, hroot⟩
  · rintro ⟨rfl, hr⟩
    exact ⟨r, hr, rfl⟩

theorem mem_ofPhi {phi : Phi} : (x, r) ∈ ofPhi phi ↔ phi.Links x r := by
  unfold ofPhi Phi.Links
  rw [List.mem_append, mem_bindings, mem_bindings, and_or_left]

theorem mem_flatMap_ofPhi {merge : List Phi} :
    (x, r) ∈ merge.flatMap ofPhi ↔ ∃ phi ∈ merge, phi.Links x r := by
  rw [List.mem_flatMap]
  exact exists_congr fun phi => and_congr_right fun _ => mem_ofPhi

theorem links_assign {target value : Expr} :
    (Stmt.assign target value).Links x r ↔ x ∈ target.targetVars ∧ r ∈ value.aliasRoots :=
  ⟨fun | .assign hx hr => ⟨hx, hr⟩, fun h => .assign h.1 h.2⟩

theorem links_branch {cond : Expr} {onTrue onFalse : Block} {merge : List Phi} :
    (Stmt.branch cond onTrue onFalse merge).Links x r ↔ ∃ phi ∈ merge, phi.Links x r :=
  ⟨fun | .branch hphi hlinks => ⟨_, hphi, hlinks⟩, fun ⟨_, hphi, hlinks⟩ => .branch hphi hlinks⟩

theorem links_loop {cond : Expr} {body : Block} {merge : List Phi} :
    (Stmt.loop cond body merge).Links x r ↔ ∃ phi ∈ merge, phi.Links x r :=
  ⟨fun | .loop hphi hlinks => ⟨_, hphi, hlinks⟩, fun ⟨_, hphi, hlinks⟩ => .loop hphi hlinks⟩

theorem not_links_ret {value : Expr} : ¬(Stmt.ret value).Links x r := nofun

mutual
theorem mem_ofStmt : ∀ s : Stmt, (x, r) ∈ ofStmt s ↔ s.Somewhere (Stmt.Links x r)
  | .assign target value => by
    rw [ofStmt, Stmt.somewhere_of_part?_eq_none fun _ => rfl, links_assign, List.mem_flatMap]
    constructor
    · rintro ⟨name, hname, hmem⟩
      obtain ⟨rfl, hr⟩ := mem_bindings.1 hmem
      exact ⟨hname, hr⟩
    · rintro ⟨hx, hr⟩
      exact ⟨x, hx, mem_bindings.2 ⟨rfl, hr⟩⟩
  | .ret value => by
    rw [ofStmt, Stmt.somewhere_of_part?_eq_none fun _ => rfl]
    exact iff_of_false List.not_mem_nil not_links_ret
  | .branch cond onTrue onFalse merge => by
    rw [ofStmt, List.mem_append, List.mem_append, mem_ofBlock onTrue, mem_ofBlock onFalse,
      mem_flatMap_ofPhi, Stmt.somewhere_branch, links_branch, or_comm]
    rfl
  | .loop cond body merge => by
    rw [ofStmt, List.mem_append, mem_ofBlock body, mem_flatMap_ofPhi, Stmt.somewhere_loop,
      links_loop, or_comm]
    rfl
termination_by structural s => s

/-- The pairs that a body relates are its links. -/
theorem mem_ofBlock : ∀ ss : Block, (x, r) ∈ ofBlock ss ↔ ss.Links x r
  | [] => by
    rw [ofBlock]
    exact iff_of_false List.not_mem_nil Block.not_somewhere_nil
  | s :: ss => by
    rw [ofBlock, List.mem_append, mem_ofStmt s, mem_ofBlock ss]
    exact Block.somewhere_cons.symm
termination_by structural ss => ss
end

mutual
theorem mem_returnedVars : ∀ s : Stmt,
    x ∈ returnedVars s ↔ s.Somewhere fun s => ∃ value, s = .ret value ∧ x ∈ value.vars
  | .assign target value => by
    rw [returnedVars, Stmt.somewhere_of_part?_eq_none fun _ => rfl]
    exact iff_of_false List.not_mem_nil fun ⟨_, heq, _⟩ => nomatch heq
  | .ret value => by
    rw [returnedVars, Stmt.somewhere_of_part?_eq_none fun _ => rfl]
    constructor
    · exact fun hx => ⟨value, rfl, hx⟩
    · rintro ⟨_, heq, hx⟩
      cases heq
      exact hx
  | .branch cond onTrue onFalse merge => by
    rw [returnedVars, List.mem_append, mem_returnedVarsAll onTrue, mem_returnedVarsAll onFalse,
      Stmt.somewhere_branch]
    exact (or_iff_right fun ⟨_, heq, _⟩ => nomatch heq).symm
  | .loop cond body merge => by
    rw [returnedVars, mem_returnedVarsAll body, Stmt.somewhere_loop]
    exact (or_iff_right fun ⟨_, heq, _⟩ => nomatch heq).symm
termination_by structural s => s

/-- The variables that are collected from the returned values are those that occur in one. -/
theorem mem_returnedVarsAll : ∀ ss : Block, x ∈ returnedVarsAll ss ↔ ss.ReturnsVar x
  | [] => by
    rw [returnedVarsAll]
    exact iff_of_false List.not_mem_nil Block.not_somewhere_nil
  | s :: ss => by
    rw [returnedVarsAll, List.mem_append, mem_returnedVars s, mem_returnedVarsAll ss]
    exact Block.somewhere_cons.symm
termination_by structural ss => ss
end

end Alias

/-! ## The order of statements -/

/-- The second block has the statements of the first in another order, at any depth. -/
inductive Block.Reordered : Block → Block → Prop
  | perm {ss ss' : Block} (h : ss.Perm ss') : Block.Reordered ss ss'
  | branch {cond : Expr} {onTrue onTrue' onFalse onFalse' : Block} {merge : List Phi} {ss : Block}
    (htrue : Block.Reordered onTrue onTrue') (hfalse : Block.Reordered onFalse onFalse') :
    Block.Reordered (.branch cond onTrue onFalse merge :: ss)
      (.branch cond onTrue' onFalse' merge :: ss)
  | loop {cond : Expr} {body body' : Block} {merge : List Phi} {ss : Block}
    (hbody : Block.Reordered body body') :
    Block.Reordered (.loop cond body merge :: ss) (.loop cond body' merge :: ss)
  | trans {ss ss' ss'' : Block} (h : Block.Reordered ss ss') (h' : Block.Reordered ss' ss'') :
    Block.Reordered ss ss''

theorem Alias.ofBlock_eq_flatMap (ss : Block) : ofBlock ss = ss.flatMap ofStmt := by
  induction ss with
  | nil => rfl
  | cons s ss ih => rw [ofBlock, List.flatMap_cons, ih]

/-- Reordered blocks have the same links. -/
theorem Block.Reordered.links {body body' : Block} (h : body.Reordered body') :
    body.Links = body'.Links := by
  ext x r
  rw [← Alias.mem_ofBlock, ← Alias.mem_ofBlock]
  induction h with
  | perm h =>
    rw [Alias.ofBlock_eq_flatMap, Alias.ofBlock_eq_flatMap]
    exact (h.flatMap_right Alias.ofStmt).mem_iff
  | branch htrue hfalse ihtrue ihfalse =>
    simp only [Alias.ofBlock, Alias.ofStmt, List.mem_append, ihtrue, ihfalse]
  | loop hbody ih => simp only [Alias.ofBlock, Alias.ofStmt, List.mem_append, ih]
  | trans _ _ ih ih' => exact ih.trans ih'

/-! ## The aliases of a function -/

namespace Aliases

variable (f : TypedFn) {x y : String}

theorem mayAlias_iff_connected :
    (compute f).mayAlias x y = true ↔ x = y ∨ f.body.Connected x y := by
  rw [mayAlias_compute]
  have hlinks : (fun x y => (x, y) ∈ Alias.ofBlock f.body) = f.body.Links := by
    ext x y
    exact Alias.mem_ofBlock f.body
  rw [hlinks, ← Relation.EqvGen.reflTransGen_symmGen, Relation.reflTransGen_iff_eq_or_transGen,
    eq_comm]
  rfl

/-- Two variables may alias exactly when they are the same or connected by links. A variable escapes
exactly when it is, or is connected to, a parameter or a variable in a returned value. The aliases of a
variable are the ones that it is connected to and itself, each listed once, whatever the order of the
statements is. -/
theorem compute_connected :
    (∀ x y, (compute f).mayAlias x y = true ↔ x = y ∨ f.body.Connected x y)
      ∧ (∀ x, (compute f).escapes x = true ↔
        ∃ z, (z ∈ f.argNames ∨ f.body.ReturnsVar z) ∧ (x = z ∨ f.body.Connected x z))
      ∧ (∀ x, ((compute f).of x).Nodup
        ∧ ∀ y, y ∈ (compute f).of x ↔ x = y ∨ f.body.Connected x y)
      ∧ ∀ body, f.body.Reordered body → ∀ x y,
        y ∈ (compute { f with body }).of x ↔ y ∈ (compute f).of x := by
  have hmay (f : TypedFn) (x y : String) := mayAlias_iff_connected f (x := x) (y := y)
  have hof (f : TypedFn) (x y : String) := (mem_of_iff_mayAlias f (x := x)).trans (hmay f x y)
  refine ⟨hmay f, fun x => ?_, fun x => ⟨nodup_of f x, hof f x⟩, fun body hbody x y => ?_⟩
  · rw [escapes_compute]
    refine exists_congr fun z => and_congr (or_congr_right (Alias.mem_returnedVarsAll f.body)) ?_
    rw [← hmay f x z]
    exact ⟨(mayAlias_equivalence f).symm, (mayAlias_equivalence f).symm⟩
  · rw [hof, hof, Block.Connected, Block.Connected, hbody.links]

/-- `x` takes the array `a` in a loop, and `y` takes `x` after it. -/
def relay : TypedFn where
  name := "f"
  argNames := ["a"]
  inputTypes := [.array .int64 1]
  body := [
    .loop (.typed (.lit (.bool true)) (.scalar .bool))
      [.assign (.typed (.var "x") (.array .int64 1)) (.typed (.var "a") (.array .int64 1))] [],
    .assign (.typed (.var "y") (.array .int64 1)) (.typed (.var "x") (.array .int64 1))]
  returnType := .none
  typeEnv := .ofList [("a", .array .int64 1), ("x", .array .int64 1), ("y", .array .int64 1)]

/-- `y` escapes, being connected to the parameter through `x`, and has `a` as an alias in either order of
the statements. -/
theorem compute_connected_relay :
    relay.body.Connected "y" "a"
      ∧ (compute relay).mayAlias "y" "a" = true
      ∧ (compute relay).escapes "y" = true
      ∧ relay.body.Reordered relay.body.reverse
      ∧ "a" ∈ (compute { relay with body := relay.body.reverse }).of "y" := by
  have hinner : relay.body.Links "x" "a" :=
    ⟨[0, 2, 0], _, rfl, .assign (by decide) (by decide)⟩
  have houter : relay.body.Links "y" "x" := ⟨[1], _, rfl, .assign (by decide) (by decide)⟩
  have hchain : relay.body.Connected "y" "a" := .tail (.single (.inl houter)) (.inl hinner)
  have horder : relay.body.Reordered relay.body.reverse := .perm (List.reverse_perm _).symm
  obtain ⟨hmay, hescapes, hof, hreordered⟩ := compute_connected relay
  refine ⟨hchain, (hmay _ _).2 (.inr hchain), (hescapes _).2 ⟨"a", ?_, .inr hchain⟩, horder, ?_⟩
  · exact .inl (by decide)
  · exact (hreordered _ horder _ _).2 (((hof _).2 _).2 (.inr hchain))

end Aliases
end ArrayLang
