import ArrayLang.Dataflow.Alias
import ArrayLang.Proofs.Dataflow.UnionFind

/-!
# The classes of aliases

Two variables are in one class of aliases exactly when the pairs that the statements of a function
relate connect them. The walk over the body unites those pairs, and the classes that are read back from
the trees are the trees.

## Main results

- `Alias.visitBlock_extends`: what a walk over a block unites, and what it makes visible outside.
- `Alias.Classes.addAll_sorts`: the classes that are read back from a forest are its trees.
- `Aliases.mayAlias_compute`, `Aliases.escapes_compute`: the aliases of a function, by the pairs.
-/

namespace ArrayLang

namespace Alias

/-! ## The pairs that a body relates -/

/-- The pairs that binding a variable to a value relates. -/
def bindings (name : String) (value : Expr) : List (String × String) :=
  value.aliasRoots.map (name, ·)

/-- The pairs that a reconciled variable relates. -/
def ofPhi (phi : Phi) : List (String × String) :=
  bindings phi.name phi.left ++ bindings phi.name phi.right

mutual
/-- The pairs of variables that a statement relates, at any depth. -/
def ofStmt : Stmt → List (String × String)
  | .assign target value => target.targetVars.flatMap (bindings · value)
  | .ret _ => []
  | .branch _ onTrue onFalse merge => ofBlock onTrue ++ ofBlock onFalse ++ merge.flatMap ofPhi
  | .loop _ body merge => ofBlock body ++ merge.flatMap ofPhi
termination_by structural s => s

def ofBlock : List Stmt → List (String × String)
  | [] => []
  | s :: ss => ofStmt s ++ ofBlock ss
termination_by structural ss => ss
end

mutual
/-- The variables that occur in returned values, at any depth. -/
def returnedVars : Stmt → List String
  | .assign _ _ => []
  | .ret value => value.vars
  | .branch _ onTrue onFalse _ => returnedVarsAll onTrue ++ returnedVarsAll onFalse
  | .loop _ body _ => returnedVarsAll body
termination_by structural s => s

def returnedVarsAll : List Stmt → List String
  | [] => []
  | s :: ss => returnedVars s ++ returnedVarsAll ss
termination_by structural ss => ss
end

/-! ## The walk over the body -/

variable {b b' b'' : Builder} {pairs pairs' : List (String × String)} {seen seen' : List String}

/-- What follows `b` unites the pairs and makes the variables visible outside, and nothing else. -/
structure Extends (b b' : Builder) (pairs : List (String × String)) (seen : List String) : Prop where
  joins : b.forest.Joins b'.forest pairs
  roots : ∀ x, b'.roots.contains x = true ↔ b.roots.contains x = true ∨ x ∈ seen

namespace Extends

theorem refl (h : b.forest.IsForest) : Extends b b [] [] :=
  ⟨.of_flattens (.refl h), fun _ => (or_iff_left List.not_mem_nil).symm⟩

theorem trans (h : Extends b b' pairs seen) (h' : Extends b' b'' pairs' seen') :
    Extends b b'' (pairs ++ pairs') (seen ++ seen') := by
  refine ⟨h.joins.trans h'.joins, fun x => ?_⟩
  rw [h'.roots, h.roots, List.mem_append, or_assoc]

/-- Steps that make nothing visible extend by what each of them unites. -/
theorem foldl {α : Type} {step : Builder → α → Builder} {related : α → List (String × String)}
    (hstep : ∀ b a, b.forest.IsForest → Extends b (step b a) (related a) []) (as : List α)
    (hb : b.forest.IsForest) : Extends b (as.foldl step b) (as.flatMap related) [] := by
  induction as generalizing b with
  | nil => exact refl hb
  | cons a as ih =>
    have ha := hstep b a hb
    exact ha.trans (ih ha.joins.forest)

end Extends

theorem bind_extends (hb : b.forest.IsForest) (name : String) (value : Expr) :
    Extends b (b.bind name value) (bindings name value) [] := by
  have hfind := UnionFind.flattens_find hb name
  have hunions := (UnionFind.Joins.of_flattens hfind).trans
    (.unions hfind.forest name (NameMap.sortNames value.aliasRoots))
  refine ⟨hunions.congr fun pair => ?_, fun x => (or_iff_left List.not_mem_nil).symm⟩
  simp only [List.nil_append, bindings, List.mem_map, NameMap.mem_sortNames]

theorem bindMerge_extends (hb : b.forest.IsForest) (merge : List Phi) :
    Extends b (b.bindMerge merge) (merge.flatMap ofPhi) [] := by
  refine .foldl (fun b phi hb => ?_) merge hb
  have hleft := bind_extends hb phi.name phi.left
  exact hleft.trans (bind_extends hleft.joins.forest phi.name phi.right)

mutual
theorem visitStmt_extends : ∀ (s : Stmt) (b : Builder), b.forest.IsForest →
    Extends b (visitStmt s b) (ofStmt s) (returnedVars s)
  | .assign target value, b, hb =>
    .foldl (fun _ name hb => bind_extends hb name value) target.targetVars hb
  | .ret value, b, hb => ⟨.of_flattens (.refl hb), fun _ => NameSet.contains_insertNames⟩
  | .branch _ onTrue onFalse merge, b, hb => by
    have htrue := visitBlock_extends onTrue b hb
    have hfalse := visitBlock_extends onFalse _ htrue.joins.forest
    have hmerge := bindMerge_extends hfalse.joins.forest merge
    have hall := (htrue.trans hfalse).trans hmerge
    rw [List.append_nil] at hall
    exact hall
  | .loop _ body merge, b, hb => by
    have hbody := visitBlock_extends body b hb
    have hall := hbody.trans (bindMerge_extends hbody.joins.forest merge)
    rw [List.append_nil] at hall
    exact hall
termination_by structural s => s

/-- A walk over a block unites the pairs that the block relates, and makes visible what it returns. -/
theorem visitBlock_extends : ∀ (ss : List Stmt) (b : Builder), b.forest.IsForest →
    Extends b (visitBlock ss b) (ofBlock ss) (returnedVarsAll ss)
  | [], _, hb => .refl hb
  | s :: ss, b, hb =>
    have hs := visitStmt_extends s b hb
    hs.trans (visitBlock_extends ss _ hs.joins.forest)
termination_by structural ss => ss
end

/-- After the walk over a body the trees are those of the equivalence that its pairs generate, and what
is visible outside are the parameters and what is returned. -/
theorem visitFn_spec (f : TypedFn) :
    (visitFn f).forest.IsForest
      ∧ (∀ x y, (visitFn f).forest.Same x y
        ↔ Relation.EqvGen (fun x y => (x, y) ∈ ofBlock f.body) x y)
      ∧ ∀ x, (visitFn f).roots.contains x = true ↔ x ∈ f.argNames ∨ x ∈ returnedVarsAll f.body := by
  have halone := UnionFind.flattens_foldl_find UnionFind.isForest_empty f.typeEnv.names
  have hbody := visitBlock_extends f.body ⟨_, NameSet.insertNames ∅ f.argNames⟩ halone.forest
  refine ⟨hbody.joins.forest, fun x y => ?_, fun x => ?_⟩
  · refine (((UnionFind.Joins.of_flattens halone).trans hbody.joins).same_iff x y).trans ?_
    constructor
    · refine fun hxy => (Relation.EqvGen.is_equivalence _).eqvGen_iff.1
        (hxy.mono fun x y hxy => ?_)
      rcases hxy with hxy | hmem
      · obtain rfl := UnionFind.same_empty.1 hxy
        exact .refl x
      · exact .rel x y hmem
    · exact fun hxy => hxy.mono fun x y => .inr
  · rw [visitFn, hbody.roots, NameSet.contains_insertNames]
    exact or_congr_left (or_iff_right fun h => by cases h)

/-! ## Classes -/

variable {u v : UnionFind} {c : Classes} {names : List String} {x y r : String}

/-- The names are in classes by their roots in the forest. -/
structure Classes.Sorts (c : Classes) (u : UnionFind) (names : List String) : Prop where
  rootOf : ∀ x, c.rootOf.find? x = if x ∈ names then some (u.root x) else none
  members : ∀ r x, ((c.members.find? r).getD ∅).contains x = true ↔ x ∈ names ∧ u.root x = r

namespace Classes

theorem sorts_empty (u : UnionFind) : Sorts ⟨∅, ∅⟩ u [] :=
  ⟨fun _ => rfl, fun _ _ => iff_of_false (fun h => by cases h) fun h => List.not_mem_nil h.1⟩

/-- Putting one more name into the class of its root. -/
theorem Sorts.add (h : c.Sorts u names) (name : String) :
    (c.add name (u.root name)).Sorts u (names ++ [name]) := by
  constructor
  · intro x
    show (c.rootOf.insert name (u.root name)).find? x = _
    rw [NameMap.find?_insert, h.rootOf]
    by_cases hx : x = name
    · simp [hx]
    · simp [hx]
  · intro r x
    show (((c.members.insert (u.root name) _).find? r).getD ∅).contains x = true ↔ _
    rw [NameMap.find?_insert, List.mem_append, List.mem_singleton, or_and_right]
    by_cases hr : r = u.root name
    · rw [if_pos hr, Option.getD_some, NameMap.contains_insert, h.members, or_comm, hr]
      exact or_congr_right ⟨fun hx => ⟨hx, by rw [hx]⟩, And.left⟩
    · rw [if_neg hr, h.members]
      exact (or_iff_left fun hx => hr (by rw [← hx.2, hx.1])).symm

/-- The look-ups on the way change no root, and so each name is put into the class of the root that it
had at first. -/
theorem addAll_sorts (hflat : u.Flattens v) (left : List String) (h : c.Sorts u names) :
    (addAll v left c).Sorts u (names ++ left) := by
  induction left generalizing v c names with
  | nil =>
    rw [List.append_nil]
    exact h
  | cons name left ih =>
    have hroot : (v.find name).1 = u.root name := hflat.root_eq name
    have hfirst : addAll v (name :: left) c
        = addAll (v.find name).2 left (c.add name (u.root name)) := by
      rw [← hroot]
      rfl
    rw [hfirst, List.append_cons]
    exact ih (hflat.trans (UnionFind.flattens_find hflat.forest name)) (h.add name)

/-- The class of a root that a variable has is there. -/
theorem Sorts.exists_members (h : c.Sorts u names) (hx : c.rootOf.find? x = some r) :
    ∃ members, c.members.find? r = some members := by
  rw [h.rootOf] at hx
  split at hx
  · rename_i hmem
    have hin := (h.members r x).2 ⟨hmem, Option.some_inj.1 hx⟩
    cases hr : c.members.find? r with
    | some members => exact ⟨members, rfl⟩
    | none =>
      rw [hr] at hin
      cases hin
  · cases hx

/-- The class of a variable is its tree. -/
theorem Sorts.mem_of (h : c.Sorts u u.parent.names) (hu : u.IsForest) :
    y ∈ (c.of x).names ↔ u.Same x y := by
  rw [NameMap.mem_names_iff, of, h.rootOf]
  by_cases hx : x ∈ u.parent.names
  · rw [if_pos hx]
    refine (h.members _ y).trans ⟨fun hy => hy.2.symm, fun hxy => ⟨?_, hxy.symm⟩⟩
    by_cases heq : y = x
    · exact heq ▸ hx
    · exact UnionFind.mem_names_of_same hu hxy.symm heq
  · rw [if_neg hx]
    refine NameSet.contains_insertNames.trans ⟨fun hy => ?_, fun hxy => .inr ?_⟩
    · rcases hy with hy | hy
      · cases hy
      · rw [List.mem_singleton.1 hy]
        rfl
    · by_contra hne
      exact hx (UnionFind.mem_names_of_same hu hxy fun heq => hne (by rw [heq]; exact .head _))

end Classes
end Alias

/-! ## The aliases of a function -/

namespace Aliases

variable (f : TypedFn) {x y : String}

/-- The classes of a function are the trees that the walk over its body leaves. -/
theorem classes_sorts : (compute f).classes.Sorts (Alias.visitFn f).forest
    (Alias.visitFn f).forest.parent.names :=
  Alias.Classes.addAll_sorts (.refl (Alias.visitFn_spec f).1) _ (Alias.Classes.sorts_empty _)

theorem mem_of_iff_same : y ∈ (compute f).of x ↔ (Alias.visitFn f).forest.Same x y :=
  (classes_sorts f).mem_of (Alias.visitFn_spec f).1

theorem mayAlias_iff_same :
    (compute f).mayAlias x y = true ↔ (Alias.visitFn f).forest.Same x y := by
  have hforest := (Alias.visitFn_spec f).1
  unfold mayAlias
  rw [Bool.or_eq_true, beq_iff_eq, (classes_sorts f).rootOf, (classes_sorts f).rootOf]
  constructor
  · rintro (rfl | h)
    · rfl
    · by_cases hx : x ∈ (Alias.visitFn f).forest.parent.names
      · by_cases hy : y ∈ (Alias.visitFn f).forest.parent.names
        · rw [if_pos hx, if_pos hy] at h
          exact beq_iff_eq.1 h
        · rw [if_pos hx, if_neg hy] at h
          cases h
      · rw [if_neg hx] at h
        cases h
  · intro h
    by_cases heq : x = y
    · exact .inl heq
    · rw [if_pos (UnionFind.mem_names_of_same hforest h heq),
        if_pos (UnionFind.mem_names_of_same hforest h.symm (Ne.symm heq))]
      exact .inr (beq_iff_eq.2 h)

theorem mem_of_iff_mayAlias : y ∈ (compute f).of x ↔ (compute f).mayAlias x y = true :=
  (mem_of_iff_same f).trans (mayAlias_iff_same f).symm

theorem nodup_of (x : String) : ((compute f).of x).Nodup :=
  NameMap.nodup_names _

theorem mayAlias_equivalence : Equivalence fun x y => (compute f).mayAlias x y = true := by
  have h := (Alias.visitFn f).forest.same_equivalence
  exact ⟨fun x => (mayAlias_iff_same f).2 (h.refl x),
    fun hxy => (mayAlias_iff_same f).2 (h.symm ((mayAlias_iff_same f).1 hxy)),
    fun hxy hyz => (mayAlias_iff_same f).2 (h.trans
      ((mayAlias_iff_same f).1 hxy) ((mayAlias_iff_same f).1 hyz))⟩

/-- Two variables may alias exactly when the pairs that the body relates connect them. -/
theorem mayAlias_compute :
    (compute f).mayAlias x y = true
      ↔ Relation.EqvGen (fun x y => (x, y) ∈ Alias.ofBlock f.body) x y :=
  (mayAlias_iff_same f).trans ((Alias.visitFn_spec f).2.1 x y)

/-- A variable escapes exactly when it may alias a parameter or a variable that is returned. -/
theorem escapes_compute :
    (compute f).escapes x = true
      ↔ ∃ z, (z ∈ f.argNames ∨ z ∈ Alias.returnedVarsAll f.body)
        ∧ (compute f).mayAlias z x = true := by
  have hroots := (Alias.visitFn_spec f).2.2
  refine NameSet.contains_foldl_insertNames.trans ((or_iff_right fun h => by cases h).trans ?_)
  refine exists_congr fun z => and_congr ?_ (mem_of_iff_mayAlias f)
  rw [NameMap.mem_names_iff, hroots]

end Aliases
end ArrayLang
