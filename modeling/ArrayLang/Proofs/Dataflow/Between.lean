import ArrayLang.Proofs.Dataflow.ProgramOrder
import ArrayLang.Proofs.Dataflow.Unused
import ArrayLang.Proofs.Interpreter.Sequence

/-!
# What stands between two statements of a block

Every access of a statement that stands between two others is recorded between their paths. So what is
not touched between two points is not named by the statements between them; and if a variable's last
definition before the second point is at or before the first one, they do not bind it, since accesses are
listed in program order.
-/

namespace ArrayLang

open ArrayLang.Path

/-! ## Accesses of a statement -/

namespace Access

variable {path : Path} {x : String}

mutual
/-- The accesses of a target concern all its variables. -/
theorem mem_names_ofTarget {node : Node} {ty? : Option Ty} (h : x ∈ Expr.vars ⟨node, ty?⟩) :
    x ∈ names (ofTarget path ⟨node, ty?⟩) := by
  cases node with
  | var name =>
    rw [Expr.vars_var] at h
    exact h
  | tuple items =>
    rw [ofTarget]
    obtain ⟨s, hs, hx⟩ := Expr.mem_vars.1 h
    rw [Expr.subexprs_eq] at hs
    rcases List.mem_cons.1 hs with rfl | hs
    · cases hx
    · obtain ⟨e, he, hs⟩ := List.mem_flatMap.1 hs
      exact mem_names_ofTargets items he (Expr.mem_vars.2 ⟨s, hs, hx⟩)
  | index base key => exact mem_names_ofTarget_index.2 h
  | _ =>
    unfold ofTarget
    split
    · rename_i hroot
      cases hroot
    · rw [names_ofExpr]
      exact h
termination_by sizeOf node

theorem mem_names_ofTargets : ∀ (es : List Expr) {e : Expr}, e ∈ es → x ∈ e.vars →
    x ∈ names (ofTargets path es)
  | ⟨node, ty?⟩ :: es, e, he, h => by
    rw [ofTargets, names_append]
    rcases List.mem_cons.1 he with rfl | he
    · exact List.mem_append_left _ (mem_names_ofTarget h)
    · exact List.mem_append_right _ (mem_names_ofTargets es he h)
termination_by es => sizeOf es
end

variable {p q : String → Prop} {s : Stmt}

theorem read_mem_ofExpr {e : Expr} (h : x ∈ e.vars) : ⟨.read, x, path⟩ ∈ ofExpr path e :=
  List.mem_map_of_mem h

section
variable {side : Phi → Expr} {merge : List Phi} {phi : Phi} (hphi : phi ∈ merge)
include hphi

theorem read_mem_ofSide (h : x ∈ (side phi).vars) : ⟨.read, x, path⟩ ∈ ofSide path side merge :=
  List.mem_flatMap.2 ⟨phi, hphi, List.mem_append_left _ (read_mem_ofExpr h)⟩

theorem define_mem_ofSide : ⟨.define, phi.name, path⟩ ∈ ofSide path side merge :=
  List.mem_flatMap.2 ⟨phi, hphi, List.mem_append_right _ (List.mem_singleton_self _)⟩

end

/-- A target defines the variables that it binds as a whole. -/
theorem define_mem_ofTarget {node : Node} {ty? : Option Ty} (h : x ∈ Expr.targetVars ⟨node, ty?⟩) :
    ⟨.define, x, path⟩ ∈ ofTarget path ⟨node, ty?⟩ := by
  have hdefined : path ∈ definedAt x (ofTarget path ⟨node, ty?⟩) := by
    rw [definedAt_ofTarget, definedAt_map_define]
    exact List.mem_map.2 ⟨x, List.mem_filter.2 ⟨h, decide_eq_true rfl⟩, rfl⟩
  obtain ⟨⟨kind, name, path'⟩, ha, rfl⟩ := List.mem_map.1 hdefined
  obtain ⟨hmem, hdefine⟩ := List.mem_filter.1 ha
  rw [Bool.and_eq_true, decide_eq_true_eq, decide_eq_true_eq] at hdefine
  obtain ⟨rfl, rfl⟩ := hdefine
  exact hmem

/-- A statement names the variables that it accesses. -/
theorem namesOnly_of_ofSelf (path : Path) (hs : s.NoneInPlace) (h : ∀ a ∈ ofSelf path s, p a.name) :
    s.NamesOnly p := by
  have hreads {e : Expr} (he : e ∈ s.exprs) (hvars : ∀ x ∈ e.vars, p x) : e.ReadsOnly p :=
    e.readsOnly_of_vars hvars (hs e he)
  have hwithin {merge : List Phi} {phi : Phi} (hphi : phi ∈ merge)
      (hexprs : (merge.flatMap fun phi => [phi.left, phi.right]) ⊆ s.exprs) (hname : p phi.name)
      (hleft : ∀ x ∈ phi.left.vars, p x) (hright : ∀ x ∈ phi.right.vars, p x) : phi.Within p :=
    ⟨hname, hreads (hexprs (List.mem_flatMap.2 ⟨phi, hphi, .head _⟩)) hleft,
      hreads (hexprs (List.mem_flatMap.2 ⟨phi, hphi, .tail _ (.head _)⟩)) hright⟩
  cases s with
  | assign target value =>
    obtain ⟨node, ty?⟩ := target
    obtain ⟨hvalue, htarget⟩ := List.forall_mem_append.1 h
    refine ⟨hreads (.head _) fun x hx => ?_, hreads (.tail _ (.head _)) fun x hx => ?_⟩
    · have hnamed : x ∈ names (ofTarget path ⟨node, ty?⟩) := mem_names_ofTarget hx
      obtain ⟨a, ha, rfl⟩ := List.mem_map.1 hnamed
      exact htarget a ha
    · exact hvalue _ (read_mem_ofExpr hx)
  | ret value => exact hreads (.head _) fun x hx => h _ (read_mem_ofExpr hx)
  | branch cond onTrue onFalse merge =>
    obtain ⟨hfirst, hrights⟩ := List.forall_mem_append.1 h
    obtain ⟨hcond, hlefts⟩ := List.forall_mem_append.1 hfirst
    refine ⟨hreads (.head _) fun x hx => hcond _ (read_mem_ofExpr hx), fun phi hphi =>
      hwithin hphi (List.subset_cons_self _ _) (hlefts _ (define_mem_ofSide hphi))
        (fun x hx => hlefts _ (read_mem_ofSide hphi hx)) fun x hx => ?_⟩
    exact hrights _ (List.mem_flatMap.2 ⟨phi, hphi, read_mem_ofExpr hx⟩)
  | loop cond body merge =>
    obtain ⟨hfirst, hrights⟩ := List.forall_mem_append.1 h
    obtain ⟨hlefts, hcond⟩ := List.forall_mem_append.1 hfirst
    exact ⟨hreads (.head _) fun x hx => hcond _ (read_mem_ofExpr hx), fun phi hphi =>
      hwithin hphi (List.subset_cons_self _ _) (hlefts _ (define_mem_ofSide hphi))
        (fun x hx => hlefts _ (read_mem_ofSide hphi hx)) fun x hx => hrights _ (read_mem_ofSide hphi hx)⟩

theorem passes_of_ofSelf (path : Path) (hs : ∀ e, s ≠ .ret e)
    (h : ∀ a ∈ ofSelf path s, a.kind = .define → ¬q a.name) : s.Passes q := by
  cases s with
  | assign target value =>
    obtain ⟨node, ty?⟩ := target
    exact fun x hx => h _ (List.mem_append_right _ (define_mem_ofTarget hx)) rfl
  | ret value => exact absurd rfl (hs value)
  | branch cond onTrue onFalse merge =>
    intro phi hphi
    rw [ofSelf] at h
    exact h _ (List.mem_append_left _ (List.mem_append_right _ (define_mem_ofSide hphi))) rfl
  | loop cond body merge =>
    intro phi hphi
    exact h _ (List.mem_append_right _ (define_mem_ofSide hphi)) rfl

end Access

/-- Code that does not access a variable names only others. -/
theorem Block.allWithin_of_count_eq_zero {x : String} {body : Block}
    (hfree : body.Everywhere Stmt.NoneInPlace) (h : body.accessed.count x = 0) :
    Stmt.AllWithin (· ≠ x) body := by
  refine Stmt.allWithin_of_everywhere body fun path s hs => ?_
  refine Access.namesOnly_of_ofSelf path (hfree path s hs) fun a ha heq => ?_
  have hmem : a ∈ Access.ofBlock [] 0 body :=
    (Access.mem_ofBlock [] 0 body).2 ⟨path, s, Block.reaches_iff_stmtAt?.2 hs, ha⟩
  exact List.count_eq_zero.1 h (heq ▸ List.mem_map_of_mem hmem)

/-! ## The order of accesses -/

namespace Access

variable {path : Path} {x : String}

/-- The accesses are listed in the order of their paths. -/
def InOrder (as : List Access) : Prop :=
  as.Pairwise fun a b => a.path ≤ b.path

theorem inOrder_of_path (path : Path) {as : List Access} (h : ∀ a ∈ as, a.path = path) : InOrder as :=
  List.pairwise_of_forall_mem_list fun a ha b hb => le_of_eq ((h a ha).trans (h b hb).symm)

/-- What comes before a path may be followed by what comes from it on. -/
theorem InOrder.append (path : Path) {as bs : List Access} (has : InOrder as) (hbs : InOrder bs)
    (hbefore : ∀ a ∈ as, a.path < path) (hafter : ∀ b ∈ bs, path ≤ b.path) : InOrder (as ++ bs) :=
  List.pairwise_append.2
    ⟨has, hbs, fun a ha b hb => le_of_lt (lt_of_lt_of_le (hbefore a ha) (hafter b hb))⟩

/-- The accesses are listed in the order of their paths, and they are in the parts of the statement at
`path` that come before the given one. -/
def InParts (path : Path) (part : Nat) (as : List Access) : Prop :=
  InOrder as ∧ ∀ a ∈ as, a.path < path ++ [part]

theorem InParts.nil (path : Path) : InParts path 0 [] :=
  ⟨.nil, fun _ h => absurd h List.not_mem_nil⟩

theorem InParts.append {as bs : List Access} {part : Nat} (h : InParts path part as)
    (hbs : InOrder bs) (hpart : ∀ b ∈ bs, path ++ [part] ≤ b.path ∧ b.path < path ++ [part + 1]) :
    InParts path (part + 1) (as ++ bs) := by
  refine ⟨h.1.append _ hbs h.2 fun b hb => (hpart b hb).1,
    List.forall_mem_append.2 ⟨fun a ha => ?_, fun b hb => (hpart b hb).2⟩⟩
  exact lt_trans (h.2 a ha) (append_cons_lt (Nat.lt_succ_self part) path [] [])

/-- A part that is a single point. -/
theorem InParts.point {as bs : List Access} {part : Nat} (h : InParts path part as)
    (hbs : ∀ b ∈ bs, b.path = path ++ [part]) : InParts path (part + 1) (as ++ bs) := by
  refine h.append (inOrder_of_path _ hbs) fun b hb => ?_
  rw [hbs b hb]
  exact ⟨le_refl _, append_cons_lt (Nat.lt_succ_self part) path [] []⟩

/-- A part that is a block. -/
theorem InParts.block {as : List Access} {part : Nat} {ss : List Stmt} (h : InParts path part as)
    (hss : InOrder (ofBlock (path ++ [part]) 0 ss)) :
    InParts path (part + 1) (as ++ ofBlock (path ++ [part]) 0 ss) := by
  refine h.append hss fun b hb => ?_
  obtain ⟨hlo, hhi⟩ := mem_ofBlock_bounds hb
  exact ⟨le_trans (le_of_lt (lt_append_cons _ 0 [])) hlo, lt_trans hhi (ends_next path part [_])⟩

mutual
theorem ofStmt_inOrder : ∀ (path : Path) (s : Stmt), InOrder (ofStmt path s)
  | path, .assign ⟨node, ty?⟩ value => by
    rw [ofStmt]
    refine inOrder_of_path path (List.forall_mem_append.2 ⟨fun a ha => ?_, fun a ha => ?_⟩)
    · exact path_of_mem_ofExpr ha
    · exact path_of_mem_ofTarget ha
  | path, .ret value => by
    rw [ofStmt]
    exact inOrder_of_path path fun a => path_of_mem_ofExpr
  | path, .branch cond onTrue onFalse merge => by
    rw [ofStmt, List.append_assoc]
    have hparts := (((InParts.nil path).point fun a => path_of_mem_ofExpr (e := cond)).block
      (ofBlock_inOrder (path ++ [1]) 0 onTrue)).block (ofBlock_inOrder (path ++ [2]) 0 onFalse)
    refine (hparts.point fun a ha => ?_).1
    rcases List.mem_append.1 ha with ha | ha
    · exact path_of_mem_ofSide ha
    · exact path_of_mem_flatMap (fun _ _ => path_of_mem_ofExpr) ha
  | path, .loop cond body merge => by
    rw [ofStmt]
    have hentry : InParts path 1 (ofSide (path ++ [0]) Phi.left merge) :=
      (InParts.nil path).point fun a => path_of_mem_ofSide
    have hparts := (hentry.point fun a => path_of_mem_ofExpr (e := cond)).block
      (ofBlock_inOrder (path ++ [2]) 0 body)
    exact (hparts.point fun a => path_of_mem_ofSide).1
termination_by structural _ s => s

theorem ofBlock_inOrder : ∀ (base : Path) (i : Nat) (ss : List Stmt), InOrder (ofBlock base i ss)
  | _, _, [] => .nil
  | base, i, s :: ss => by
    have hs := ofStmt_inOrder (base ++ [i]) s
    have hss := ofBlock_inOrder base (i + 1) ss
    rw [ofBlock]
    refine hs.append (base ++ [i + 1]) hss (fun a ha => ?_) fun a ha => (mem_ofBlock_bounds ha).1
    have hmem : a ∈ ofBlock base i [s] := by
      rw [ofBlock, ofBlock, List.append_nil]
      exact ha
    exact (mem_ofBlock_bounds hmem).2
termination_by structural _ _ ss => ss
end

end Access

/-! ## Statements between two others -/

namespace Block

variable {block block' : Block} {base path : Path} {i j k l : Nat} {t : Stmt}

theorem stmtAt?_congr (h : block[k]? = block'[l]?) (rest : Path) :
    block.stmtAt? (k :: rest) = block'.stmtAt? (l :: rest) := by
  cases rest with
  | nil => exact h
  | cons part rest => rw [stmtAt?, stmtAt?, h]

/-- From a block that a path leads into, its statements are reached under that path. -/
theorem stmtAt?_of_blockAt? (rest : Path) :
    ∀ (base : Path) {body : Block}, body.blockAt? (base ++ [j]) = some block →
      body.stmtAt? (base ++ k :: rest) = block.stmtAt? (k :: rest)
  | [], _, h => by
    cases h
    rfl
  | [l], _, h => by
    obtain ⟨outer, -, h⟩ := Option.bind_eq_some_iff.1 h
    obtain ⟨inner, -, h⟩ := Option.bind_eq_some_iff.1 h
    cases h
  | l :: part :: base, body, h => by
    obtain ⟨outer, houter, h⟩ := Option.bind_eq_some_iff.1 h
    obtain ⟨inner, hinner, h⟩ := Option.bind_eq_some_iff.1 h
    rw [List.cons_append, List.cons_append, stmtAt?, houter]
    show ((outer.part? part).bind (stmtAt? · _)) = _
    rw [hinner]
    exact stmtAt?_of_blockAt? rest base h

/-- The statements between two statements of a block have their paths between those of the two. -/
theorem stmtAt?_between {body pre mid post : Block} {s : Stmt}
    (hblock : body.blockAt? (base ++ [j]) = some (pre ++ s :: (mid ++ post)))
    (hj : pre.length + 1 + mid.length = j) (h : mid.stmtAt? path = some t) :
    ∃ p, body.stmtAt? p = some t ∧ ∀ rest, (p ++ rest).between (base ++ [pre.length]) (base ++ [j]) = true := by
  match path with
  | [] => cases h
  | k :: path =>
    have hk : k < mid.length := lt_length_of_stmtAt? h
    refine ⟨base ++ (pre.length + 1 + k) :: path, ?_, fun rest => ?_⟩
    · rw [stmtAt?_of_blockAt? path base hblock, ← h]
      refine stmtAt?_congr ?_ path
      rw [List.getElem?_append_right (by omega), Nat.add_assoc, Nat.add_sub_cancel_left, Nat.add_comm 1,
        List.getElem?_cons_succ, List.getElem?_append_left hk]
    · rw [Path.between, Bool.and_eq_true, decide_eq_true_eq, decide_eq_true_eq, List.append_assoc]
      exact ⟨append_cons_lt (by omega) base _ _, append_cons_lt (by omega) base _ _⟩

end Block

namespace UseDef

open Access

variable {f : TypedFn} {x : String} {point p : Path}

/-- No definition between the one that is found before a point and the point is listed. -/
theorem le_createdBefore? (h : (compute f).createdBefore? x point = some p) {a : Access}
    (ha : a ∈ (compute f).accesses) (hname : a.name = x) (hkind : a.kind = .define)
    (hpoint : a.path < point) : a.path ≤ p := by
  have horder : ((compute f).defs x).Pairwise (· ≤ ·) := by
    refine List.pairwise_map.2 (List.Pairwise.filter _ ?_)
    refine InOrder.append [0] (inOrder_of_path [] fun a ha => ?_)
      (ofBlock_inOrder [] 0 f.body) (fun a ha => ?_) fun a ha => (mem_ofBlock_bounds ha).1
    all_goals obtain ⟨name, -, rfl⟩ := List.mem_map.1 ha
    · rfl
    · exact List.nil_lt_cons 0 []
  have hmem : a.path ∈ (compute f).defs x :=
    List.mem_map.2 ⟨a, List.mem_filter.2 ⟨ha, by simp [hname, hkind]⟩, rfl⟩
  obtain ⟨hp, later, earlier, heq, hlater⟩ := List.find?_eq_some_iff_append.1 h
  -- What is listed after the one that is found does not come before the point.
  rw [← List.mem_reverse, heq, List.mem_append] at hmem
  rcases hmem with hmem | hmem
  · exact absurd (decide_eq_true hpoint) (by simpa using hlater _ hmem)
  · have hsorted := List.pairwise_reverse.2 horder
    rw [heq, List.pairwise_append] at hsorted
    rcases List.mem_cons.1 hmem with hmem | hmem
    · exact le_of_eq hmem
    · exact (List.pairwise_cons.1 hsorted.2.1).1 _ hmem

section
variable {base : Path} {j : Nat} {pre mid post : Block} {s : Stmt}
  (hblock : f.body.blockAt? (base ++ [j]) = some (pre ++ s :: (mid ++ post)))
  (hj : pre.length + 1 + mid.length = j)
include hblock hj

/-- An access of a statement between two others is recorded between their paths. -/
theorem access_between {path : Path} {t : Stmt} (h : mid.stmtAt? path = some t) :
    ∃ p, f.body.stmtAt? p = some t ∧ p.between (base ++ [pre.length]) (base ++ [j]) = true
      ∧ ∀ a ∈ ofSelf p t, a ∈ (compute f).accesses
        ∧ a.path.between (base ++ [pre.length]) (base ++ [j]) = true := by
  obtain ⟨p, hp, hbetween⟩ := Block.stmtAt?_between hblock hj h
  refine ⟨p, hp, by simpa using hbetween [], fun a ha => ⟨?_, ?_⟩⟩
  · exact mem_accesses.2 (.inr ⟨p, t, Block.leadsTo_iff.2 hp, ha⟩)
  · obtain ⟨part?, hpath, -⟩ := path_of_mem_ofSelf ha
    rw [hpath]
    exact hbetween _

/-- The statements between two others name only variables that are touched between them. -/
theorem namesOnly_between (hfree : f.body.Everywhere Stmt.NoneInPlace) :
    mid.Everywhere (Stmt.NamesOnly fun x =>
      (compute f).touchedBetween x (base ++ [pre.length]) (base ++ [j]) = true) := by
  intro path t h
  obtain ⟨p, hp, -, haccess⟩ := access_between hblock hj h
  refine namesOnly_of_ofSelf p (hfree p t hp) fun a ha => ?_
  obtain ⟨hmem, hbetween⟩ := haccess a ha
  exact List.any_eq_true.2 ⟨a, hmem, by simp [hbetween]⟩

/-- If none of them returns, they bind no variable whose last definition before the second one is at or before the
first. -/
theorem passes_between {q : String → Prop}
    (hstraight : ∀ p e, f.body.stmtAt? p = some (.ret e) →
      p.between (base ++ [pre.length]) (base ++ [j]) = false)
    (hready : ∀ x, q x →
      ((compute f).createdBefore? x (base ++ [j])).any (· < base ++ [pre.length]) = true) :
    mid.Everywhere (Stmt.Passes q) := by
  intro path t h
  obtain ⟨p, hp, hbetween, haccess⟩ := access_between hblock hj h
  refine passes_of_ofSelf p ?_ fun a ha hdefine hq => ?_
  · rintro e rfl
    rw [hstraight p e hp] at hbetween
    cases hbetween
  · obtain ⟨hmem, hbetween⟩ := haccess a ha
    rw [Path.between, Bool.and_eq_true, decide_eq_true_eq, decide_eq_true_eq] at hbetween
    obtain ⟨d, hd, hlt⟩ := (Option.any_eq_true _ _).1 (hready a.name hq)
    have hle := le_createdBefore? hd hmem rfl hdefine hbetween.2
    exact absurd (lt_of_le_of_lt hle (of_decide_eq_true hlt)) (not_lt_of_gt hbetween.1)

end

end UseDef
end ArrayLang
