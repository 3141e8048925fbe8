import ArrayLang.Proofs.Dataflow.Unused
import ArrayLang.Proofs.Interpreter.Replay
import ArrayLang.Proofs.Interpreter.VisitOrder

/-!
# Program order

Paths stand for times: what is recorded under a path belongs to the statement there, and where control
does not go back, the order of paths is the order in which a run visits points. Where it goes straight
through, the definition that is found before a point is the last one that was made.

## Main results

- `UseDef.createdBefore?_eq`: the definition found before a point is the last of those that precede it.
- `followBlock_straight`: in a straight block these are the ones that were made before.
- `paths_in_program_order`: paths resolve, and their order is the order of runs.
-/

namespace ArrayLang

open Interpreter Logged ArrayLang.Path

theorem Block.lt_length_of_stmtAt? {ss : Block} {s : Stmt} {k : Nat} {rest : Path}
    (h : ss.stmtAt? (k :: rest) = some s) : k < ss.length := by
  match rest with
  | [] => exact (List.getElem?_eq_some_iff.1 h).1
  | part :: rest =>
    obtain ⟨outer, houter, -⟩ := Option.bind_eq_some_iff.1 h
    exact (List.getElem?_eq_some_iff.1 houter).1

/-! ## Definitions among accesses -/

namespace Access

/-- Where a variable is defined among some accesses, in order. -/
def definedAt (name : String) (as : List Access) : List Path :=
  (as.filter fun a => a.kind = .define && a.name = name).map (·.path)

variable {name : String} {path : Path}

theorem definedAt_append (as bs : List Access) :
    definedAt name (as ++ bs) = definedAt name as ++ definedAt name bs := by
  rw [definedAt, List.filter_append, List.map_append]
  rfl

theorem definedAt_eq_nil {as : List Access} (h : ∀ a ∈ as, a.kind ≠ .define) :
    definedAt name as = [] := by
  rw [definedAt, List.filter_eq_nil_iff.2, List.map_nil]
  intro a ha heq
  exact h a ha (of_decide_eq_true (Bool.and_eq_true_iff.1 heq).1)

theorem definedAt_ofExpr (e : Expr) : definedAt name (ofExpr path e) = [] :=
  definedAt_eq_nil fun a ha => by
    rw [kind_of_mem_ofExpr ha]
    decide

/-- The definitions of one name at one point. -/
theorem definedAt_map_define (names : List String) :
    definedAt name (names.map (⟨.define, ·, path⟩)) = (names.filter (· = name)).map fun _ => path := by
  rw [definedAt, List.filter_map, List.map_map]
  rfl

mutual
/-- A target defines the variables that it binds as a whole. -/
theorem definedAt_ofTarget {node : Node} {ty? : Option Ty} :
    definedAt name (ofTarget path ⟨node, ty?⟩)
      = definedAt name ((Expr.targetVars ⟨node, ty?⟩).map (⟨.define, ·, path⟩)) := by
  cases node with
  | var x => rfl
  | tuple items =>
    rw [ofTarget, Expr.targetVars]
    exact definedAt_ofTargets items
  | index base key => exact definedAt_eq_nil fun a ha => kind_of_mem_ofTarget_index ha
  | _ => exact definedAt_ofExpr _
termination_by sizeOf node

theorem definedAt_ofTargets : ∀ es : List Expr,
    definedAt name (ofTargets path es)
      = definedAt name ((Expr.targetVarsList es).map (⟨.define, ·, path⟩))
  | [] => rfl
  | ⟨node, ty?⟩ :: es => by
    rw [ofTargets, Expr.targetVarsList, List.map_append, definedAt_append, definedAt_append,
      definedAt_ofTarget, definedAt_ofTargets es]
termination_by es => sizeOf es
end

theorem ofBlock_append (base : Path) (i : Nat) (ss ss' : List Stmt) :
    ofBlock base i (ss ++ ss') = ofBlock base i ss ++ ofBlock base (i + ss.length) ss' := by
  induction ss generalizing i with
  | nil => rfl
  | cons s ss ih =>
    rw [List.cons_append, ofBlock, ofBlock, ih, List.append_assoc, List.length_cons,
      Nat.add_right_comm]
    rfl

theorem mem_definedAt {as : List Access} {p : Path} (h : p ∈ definedAt name as) :
    ∃ a ∈ as, a.path = p := by
  obtain ⟨a, ha, rfl⟩ := List.mem_map.1 h
  exact ⟨a, (List.mem_filter.1 ha).1, rfl⟩

/-- The accesses of a block come after its first statement starts and before what follows the last. -/
theorem mem_ofBlock_bounds {base : Path} {i : Nat} {ss : List Stmt} {a : Access}
    (h : a ∈ ofBlock base i ss) : base ++ [i] ≤ a.path ∧ a.path < base ++ [i + ss.length] := by
  obtain ⟨p, s, ⟨k, rest, rfl, hat⟩, ha⟩ := (mem_ofBlock base i ss).1 h
  obtain ⟨part?, hpath, -⟩ := path_of_mem_ofSelf ha
  have hk : k < ss.length := Block.lt_length_of_stmtAt? hat
  rw [hpath, List.append_assoc]
  exact ⟨append_singleton_le_append_cons (Nat.le_add_right i k) base _,
    append_cons_lt (Nat.add_lt_add_left hk i) base _ []⟩

end Access

/-- Between definitions before a point and others, the one that is found is the last of the former. -/
theorem UseDef.createdBefore?_eq {u : UseDef} {as bs : List Access} {point : Path}
    (h : u.accesses = as ++ bs) (has : ∀ a ∈ as, a.path < point) (hbs : ∀ a ∈ bs, point ≤ a.path)
    (name : String) : u.createdBefore? name point = (Access.definedAt name as).getLast? := by
  have hdefs : u.defs name = Access.definedAt name as ++ Access.definedAt name bs := by
    rw [← Access.definedAt_append, ← h]
    rfl
  have hlate : (Access.definedAt name bs).reverse.find? (· < point) = none := by
    refine List.find?_eq_none.2 fun p hp => ?_
    obtain ⟨a, ha, rfl⟩ := Access.mem_definedAt (List.mem_reverse.1 hp)
    exact fun hlt => not_le_of_gt (of_decide_eq_true hlt) (hbs a ha)
  have hearly : (Access.definedAt name as).reverse.find? (· < point)
      = (Access.definedAt name as).reverse.head? := by
    cases hrev : (Access.definedAt name as).reverse with
    | nil => rfl
    | cons p rest =>
      have hp : p ∈ Access.definedAt name as := List.mem_reverse.1 (hrev ▸ List.mem_cons_self)
      obtain ⟨a, ha, rfl⟩ := Access.mem_definedAt hp
      exact List.find?_cons_of_pos (decide_eq_true (has a ha))
  rw [createdBefore?, hdefs, List.reverse_append, List.find?_append, hlate, Option.none_or, hearly,
    List.head?_reverse]

/-! ## Straight code -/

theorem definitions_append (name : String) (es es' : List Event) :
    definitions name (es ++ es') = definitions name es ++ definitions name es' := by
  induction es with
  | nil => rfl
  | cons e es ih =>
    cases e with
    | visit v => exact ih
    | define point other value =>
      rw [List.cons_append, definitions, definitions, ih]
      split <;> rfl

/-- The events of definitions at a point are those of the names that are defined. -/
theorem map_fst_definitions (name : String) (point : Path) (bindings : List (String × Value)) :
    (definitions name (bindings.map fun (name, value) => .define point name value)).map (·.1)
      = Access.definedAt name ((bindings.map (·.1)).map (⟨.define, ·, point⟩)) := by
  rw [Access.definedAt_map_define]
  induction bindings with
  | nil => rfl
  | cons binding bindings ih =>
    obtain ⟨other, value⟩ := binding
    rw [List.map_cons, definitions]
    by_cases h : other = name
    · simp [h, ih]
    · simp [h, ih]

/-- What visits nothing precedes any visit. -/
theorem exists_of_append_eq {es es' before after : List Event} {v : Visit} (h : visits es = [])
    (heq : es ++ es' = before ++ .visit v :: after) :
    ∃ before', before = es ++ before' ∧ es' = before' ++ .visit v :: after := by
  induction es generalizing before with
  | nil => exact ⟨before, rfl, heq⟩
  | cons e es ih =>
    cases e with
    | visit w => cases h
    | define point name value =>
      cases before with
      | nil => cases heq
      | cons e before =>
        obtain ⟨rfl, htail⟩ := List.cons.inj heq
        obtain ⟨before', rfl, hrest⟩ := ih h htail
        exact ⟨before', rfl, hrest⟩

section
variable {apply : Apply} {trace : Trace} {fuel : Nat} {s : Stmt}

/-- A statement without parts is one point. What it defines there, if it succeeds, are its definitions
among its accesses. -/
theorem followStmt_simple (apply : Apply) (trace : Trace) (fuel : Nat) (path : Path) (env : Env)
    (σ : State Session) (hs : s.isSimple = true) :
    ∃ es, events (followStmt apply trace fuel path s env) σ = .visit ⟨path, s, none, env⟩ :: es
      ∧ visits es = []
      ∧ ∀ flow σ', Run.exec (erase (followStmt apply trace fuel path s env)) σ = (.ok flow, σ') →
        ∀ name, (definitions name es).map (·.1) = Access.definedAt name (Access.ofStmt path s) := by
  cases s with
  | assign target value =>
    obtain ⟨node, ty?⟩ := target
    rw [followStmt, events_visit_bind, erase_visit_bind, events_silent_bind, erase_bind, Run.exec_bind,
      erase_silent]
    cases hvalue : Run.exec (evalExpr apply trace env value) σ with
    | mk r σ₁ =>
      cases r with
      | error e => exact ⟨[], rfl, rfl, nofun⟩
      | ok v =>
        dsimp only
        rw [events_silent_bind, erase_bind, Run.exec_bind, erase_silent]
        cases hassign : Run.exec (assign apply trace ⟨node, ty?⟩ v env) σ₁ with
        | mk r σ₂ =>
          cases r with
          | error e => exact ⟨[], rfl, rfl, nofun⟩
          | ok env' =>
            obtain ⟨-, hnames⟩ := assign_yields apply trace v env σ₁ env' σ₂ trivial hassign
            refine ⟨_, ?_, visits_map_define path (Expr.assigned ⟨node, ty?⟩ v), fun flow σ' _ name => ?_⟩
            · dsimp only
              rw [events_bind, events_define]
              exact congrArg _ (List.append_nil _)
            · rw [map_fst_definitions, hnames, Access.ofStmt, Access.definedAt_append,
                Access.definedAt_ofExpr, Access.definedAt_ofTarget]
              rfl
  | ret value =>
    rw [followStmt, events_visit_bind, events_silent_bind]
    refine ⟨[], ?_, rfl, fun flow σ' _ name => (Access.definedAt_ofExpr value).symm⟩
    split <;> rfl
  | branch cond onTrue onFalse merge => cases hs
  | loop cond body merge => cases hs

/-- What a straight block has defined before a point are the definitions of the statements before it. -/
theorem followBlock_straight {v : Visit} {after : List Event} (base : Path) (ss : List Stmt)
    (h : ∀ s ∈ ss, s.isSimple = true) : ∀ {before : List Event} (i : Nat) (env : Env)
    (σ : State Session),
    events (followBlock apply trace fuel base i ss env) σ = before ++ .visit v :: after →
      ∃ ss₁ ss₂, ss = ss₁ ++ ss₂ ∧ v.point = base ++ [i + ss₁.length]
        ∧ ∀ name, (definitions name before).map (·.1)
          = Access.definedAt name (Access.ofBlock base i ss₁) := by
  induction ss with
  | nil =>
    intro before i env σ heq
    rw [followBlock, events_pure] at heq
    simp at heq
  | cons s ss ih =>
    intro before i env σ heq
    obtain ⟨hs, hss⟩ := List.forall_mem_cons.1 h
    obtain ⟨es, hes, hquiet, hdefs⟩ := followStmt_simple apply trace fuel (base ++ [i]) env σ hs
    rw [followBlock, events_bind, hes] at heq
    -- Either this statement is the point, or it is done and the point is in the rest of the block.
    cases before with
    | nil =>
      cases heq
      exact ⟨[], s :: ss, rfl, List.append_nil _, fun name => rfl⟩
    | cons e before =>
      obtain ⟨rfl, htail⟩ := List.cons.inj heq
      obtain ⟨before, rfl, hrest⟩ := exists_of_append_eq hquiet htail
      cases hx : Run.exec (erase (followStmt apply trace fuel (base ++ [i]) s env)) σ with
      | mk r σ' =>
        rw [hx] at hrest
        match r with
        | .error e => simp at hrest
        | .ok (.ret value) => simp at hrest
        | .ok (.next env') =>
          obtain ⟨ss₁, ss₂, rfl, hpoint, hbefore⟩ := ih hss (i + 1) env' σ' hrest
          refine ⟨s :: ss₁, ss₂, rfl, ?_, fun name => ?_⟩
          · rw [hpoint, List.length_cons, Nat.add_assoc, Nat.add_comm 1]
          · show (definitions name (es ++ before)).map (·.1) = _
            rw [definitions_append, List.map_append, hdefs _ _ hx, hbefore, Access.ofBlock,
              Access.definedAt_append]

end

section
variable {f : TypedFn} {fuel : Nat} {trace : Trace} {args : List Value} {σ : State Session}

/-- A call that has an argument for each parameter defines them and then runs the body. Any other call
does nothing. -/
theorem events_followCall (f : TypedFn) (fuel : Nat) (trace : Trace) (args : List Value)
    (σ : State Session) :
    events (followCall fuel trace f args) σ = [] ∨ args.length = f.argNames.length
      ∧ events (followCall fuel trace f args) σ
        = ((f.argNames.zip args).map fun (name, value) => .define [] name value)
          ++ events (followBlock (applyFn fuel) (f.name :: trace) fuel [] 0 f.body
            ((∅ : Env).insertAll (f.argNames.zip args))) σ := by
  rw [followCall, events_silent_bind]
  by_cases h : args.length = f.argNames.length
  · refine .inr ⟨h, ?_⟩
    have hbind : bindCall (.typed f) args = .ok (.ofList (f.argNames.zip args)) := if_pos h
    rw [hbind]
    show events (define [] (f.argNames.zip args) ∅ >>= _) σ = _
    rw [events_bind, events_define, erase_define]
    show _ ++ events (followBlock _ _ _ _ _ _ _ >>= _) σ = _
    rw [events_bind_quiet fun flow σ => by cases flow <;> rfl]
  · have hbind : bindCall (.typed f) args
        = .error (.argCount f.name f.argNames.length args.length) := if_neg h
    rw [hbind]
    exact .inl rfl

/-- Every point that a call visits is one of the statement that its path leads to. -/
theorem leadsTo_of_mem_visits {v : Visit} (hv : v ∈ visits (events (followCall fuel trace f args) σ)) :
    f.body.LeadsTo v.path v.stmt := by
  rcases events_followCall f fuel trace args σ with h | ⟨-, h⟩
  · rw [h] at hv
    cases hv
  · rw [h, visits_append, visits_map_define, List.nil_append] at hv
    exact Block.leadsTo_iff.2
      (Block.reaches_iff_stmtAt?.1 (followBlock_reaches _ _ _ [] 0 f.body _ σ v hv))

/-- A call of a function without loops visits points in the order of their paths. -/
theorem visits_ascend (hloops : f.body.Everywhere (·.isLoop = false)) :
    ((visits (events (followCall fuel trace f args) σ)).map Visit.point).Pairwise (· < ·) := by
  rcases events_followCall f fuel trace args σ with h | ⟨-, h⟩
  · rw [h]
    exact .nil
  · rw [h, visits_append, visits_map_define, List.nil_append]
    exact (followBlock_ascends _ _ _ [] 0 f.body _ hloops σ).1

/-- In a straight body, the definition that is found before a point is the last one that was made. -/
theorem createdBefore?_eq_last {before after : List Event} {v : Visit} (name : String)
    (hstraight : ∀ s ∈ f.body, s.isSimple = true)
    (h : events (followCall fuel trace f args) σ = before ++ .visit v :: after) :
    (UseDef.compute f).createdBefore? name v.point = (definitions name before).getLast?.map (·.1) := by
  rcases events_followCall f fuel trace args σ with hcall | ⟨hlength, hcall⟩
  · rw [hcall] at h
    simp at h
  rw [hcall] at h
  obtain ⟨before, rfl, hrest⟩ := exists_of_append_eq (visits_map_define [] (f.argNames.zip args)) h
  obtain ⟨ss₁, ss₂, hbody, hpoint, hbefore⟩ := followBlock_straight [] f.body hstraight 0 _ σ hrest
  -- The point is where the first statement of `ss₂` starts, and paths tell the two parts apart.
  have haccesses : (UseDef.compute f).accesses
      = (f.argNames.map (⟨.define, ·, []⟩) ++ Access.ofBlock [] 0 ss₁)
        ++ Access.ofBlock [] (0 + ss₁.length) ss₂ := by
    show f.argNames.map _ ++ Access.ofBlock [] 0 f.body = _
    rw [hbody, Access.ofBlock_append, List.append_assoc]
  have hnames : (f.argNames.zip args).map (·.1) = f.argNames :=
    List.map_fst_zip (Nat.le_of_eq hlength.symm)
  have hearly : ∀ a ∈ f.argNames.map (⟨.define, ·, []⟩) ++ Access.ofBlock [] 0 ss₁,
      a.path < v.point := by
    rw [hpoint]
    refine List.forall_mem_append.2 ⟨fun a ha => ?_, fun a ha => (Access.mem_ofBlock_bounds ha).2⟩
    obtain ⟨x, -, rfl⟩ := List.mem_map.1 ha
    exact List.nil_lt_cons _ _
  have hlate : ∀ a ∈ Access.ofBlock [] (0 + ss₁.length) ss₂, v.point ≤ a.path := by
    rw [hpoint]
    exact fun a ha => (Access.mem_ofBlock_bounds ha).1
  rw [UseDef.createdBefore?_eq haccesses hearly hlate, Access.definedAt_append, ← hbefore name,
    ← List.getLast?_map, definitions_append, List.map_append, map_fst_definitions, hnames]

end

/-! ## Recorded paths -/

open CopyElimination in
/-- Copies are listed in the order of their paths. -/
theorem copies_ascend (f : TypedFn) : ((copies f).map (·.1)).Pairwise (· < ·) :=
  (Stmt.assignmentsFrom_ascend [] 0 f.body).1.sublist (List.filter_sublist.map _)

open CopyElimination in
/-- Paths are program order, and they resolve. A call visits only points of the statements that its paths
lead to, and in the order of these points if there are no loops. A variable has the value of the last
definition that was made, which in a straight body is the one found before the point. The paths that are
recorded of copies, of allocations and of accesses lead to the very statements that these are in. -/
theorem paths_in_program_order (f : TypedFn) :
    (∀ (fuel : Nat) (trace : Trace) (args : List Value) (σ : State Session),
      let call := followCall fuel trace f args
      erase call = applyFn (fuel + 1) trace (.typed f) args
        ∧ (∀ v ∈ visits (events call σ), f.body.LeadsTo v.path v.stmt)
        ∧ (f.body.Everywhere (·.isLoop = false) →
          ((visits (events call σ)).map Visit.point).Pairwise (· < ·))
        ∧ ∀ before v after name, events call σ = before ++ .visit v :: after →
          v.env.find? name = (definitions name before).getLast?.map (·.2)
            ∧ ((∀ s ∈ f.body, s.isSimple = true) →
              (UseDef.compute f).createdBefore? name v.point
                = (definitions name before).getLast?.map (·.1)))
      ∧ (∀ path target value, (path, target, value) ∈ copies f →
        f.body.LeadsTo path (.assign target value))
      ∧ ((copies f).map (·.1)).Pairwise (· < ·)
      ∧ (∀ u name alloc, (allocations f u).find? name = some alloc →
        ∃ ty? value, f.body.LeadsTo alloc.path (.assign ⟨.var name, ty?⟩ value)
          ∧ value.allocKind? = some alloc.kind)
      ∧ ∀ a, a ∈ (UseDef.compute f).accesses ↔ (∃ name ∈ f.argNames, a = ⟨.define, name, []⟩)
        ∨ ∃ path s part?, f.body.LeadsTo path s ∧ a ∈ Access.ofSelf path s
          ∧ a.path = path ++ Option.toList part? ∧ (part? = none ↔ s.isSimple = true) := by
  refine ⟨fun fuel trace args σ => ⟨erase_followCall fuel trace f args,
    fun v => leadsTo_of_mem_visits, visits_ascend, fun before v after name h => ⟨?_, fun hstraight =>
      createdBefore?_eq_last name hstraight h⟩⟩, ?_, copies_ascend f, ?_, fun a => ?_⟩
  · have haccounts := (followCall_accounts fuel trace f args σ).1
    rw [h] at haccounts
    exact haccounts.find?_eq
  · intro path target value hcopy
    exact Block.leadsTo_iff.2 (Block.mem_assignments.1 (List.mem_filter.1 hcopy).1)
  · intro u name alloc halloc
    obtain ⟨ty?, value, hmem, hkind, -⟩ := mem_assignments_of_allocations halloc
    exact ⟨ty?, value, Block.leadsTo_iff.2 (Block.mem_assignments.1 hmem), hkind⟩
  · rw [UseDef.mem_accesses]
    refine or_congr_right ⟨?_, ?_⟩
    · rintro ⟨path, s, hleads, ha⟩
      obtain ⟨part?, hpart⟩ := Access.path_of_mem_ofSelf ha
      exact ⟨path, s, part?, hleads, ha, hpart⟩
    · rintro ⟨path, s, part?, hleads, ha, -⟩
      exact ⟨path, s, hleads, ha⟩

/-- The larger of two numbers, by a flag that says whether it is the first. -/
def larger : TypedFn where
  name := "larger"
  argNames := ["first", "x", "y"]
  inputTypes := [.scalar .bool, .scalar .int64, .scalar .int64]
  body := [
    .branch (.typed (.var "first") (.scalar .bool))
      [.assign (.typed (.var "a") (.scalar .int64)) (.typed (.var "x") (.scalar .int64))]
      [.assign (.typed (.var "b") (.scalar .int64)) (.typed (.var "y") (.scalar .int64))]
      [⟨"m", .typed (.var "a") (.scalar .int64), .typed (.var "b") (.scalar .int64)⟩],
    .ret (.typed (.var "m") (.scalar .int64))]
  returnType := .scalar .int64
  typeEnv := .ofList (["x", "y", "a", "b", "m"].map (·, .scalar .int64) ++ [("first", .scalar .bool)])

/-- `out = alloc(2); out[0] = x; x = 7; return out` -/
def fresh : TypedFn where
  name := "fresh"
  argNames := ["x"]
  inputTypes := [.scalar .int64]
  body := [
    .assign (.typed (.var "out") (.array .int64 1))
      (.typed (.alloc .int64 (.typed (.tuple [.typed (.lit (.int 2)) (.scalar .int64)])
        (.tuple [.scalar .int64]))) (.array .int64 1)),
    .assign (.typed (.index (.typed (.var "out") (.array .int64 1))
        (.typed (.lit (.int 0)) (.scalar .int64))) (.scalar .int64))
      (.typed (.var "x") (.scalar .int64)),
    .assign (.typed (.var "x") (.scalar .int64)) (.typed (.lit (.int 7)) (.scalar .int64)),
    .ret (.typed (.var "out") (.array .int64 1))]
  returnType := .array .int64 1
  typeEnv := .ofList [("out", .array .int64 1), ("x", .scalar .int64)]

/-- A call of `larger` visits the points of the branch that it takes, in the order of their paths. Where
`fresh` returns, `x` is the 7 that its third statement has assigned, and not the argument. -/
theorem paths_in_program_order_larger_fresh :
    let σ : State Session := ⟨⟨#[]⟩, .new none⟩
    let visited := (visits (events (followCall 1 [] larger
      [.scalar (.bool false), .scalar (.int 3), .scalar (.int 4)]) σ)).map Visit.point
    let last : Visit := ⟨[3], .ret (.typed (.var "out") (.array .int64 1)), none,
      .ofList [("out", .array ⟨.int64, 0, [2], [1], 0⟩), ("x", .scalar (.int 7))]⟩
    visited = [[0], [0, 0], [0, 2], [0, 2, 0], [0, 3], [1]] ∧ visited.Pairwise (· < ·)
      ∧ last ∈ visits (events (followCall 1 [] fresh [.scalar (.int 5)]) σ)
      ∧ fresh.body.LeadsTo last.path last.stmt
      ∧ (UseDef.compute fresh).createdBefore? "x" last.point = some [2]
      ∧ last.env.find? "x" = some (.scalar (.int 7))
      ∧ fresh.body.LeadsTo [1] (.assign (.typed (.index (.typed (.var "out") (.array .int64 1))
        (.typed (.lit (.int 0)) (.scalar .int64))) (.scalar .int64)) (.typed (.var "x") (.scalar .int64))) := by
  intro σ visited last
  obtain ⟨hlarger, -⟩ := paths_in_program_order larger
  obtain ⟨hfresh, hcopies, -⟩ := paths_in_program_order fresh
  have hloops : larger.body.Everywhere (·.isLoop = false) := by
    refine Block.everywhere_cons.2 ⟨Stmt.everywhere_branch.2 ⟨rfl, ?_, ?_⟩,
      Block.everywhere_cons.2 ⟨Stmt.everywhere_ret.2 rfl, Block.everywhere_nil⟩⟩
    · exact Block.everywhere_cons.2 ⟨Stmt.everywhere_assign.2 rfl, Block.everywhere_nil⟩
    · exact Block.everywhere_cons.2 ⟨Stmt.everywhere_assign.2 rfl, Block.everywhere_nil⟩
  obtain ⟨-, -, hascend, -⟩ :=
    hlarger 1 [] [.scalar (.bool false), .scalar (.int 3), .scalar (.int 4)] σ
  obtain ⟨-, hleads, -, hlast⟩ := hfresh 1 [] [.scalar (.int 5)] σ
  have hsplit : events (followCall 1 [] fresh [.scalar (.int 5)]) σ
      = (events (followCall 1 [] fresh [.scalar (.int 5)]) σ).take 6 ++ [.visit last] := rfl
  have hmem : last ∈ visits (events (followCall 1 [] fresh [.scalar (.int 5)]) σ) := by
    rw [hsplit, visits_append]
    exact List.mem_append_right _ (List.mem_singleton_self last)
  obtain ⟨hvalue, hcreated⟩ := hlast _ _ _ "x" hsplit
  refine ⟨rfl, hascend hloops, hmem, hleads last hmem, ?_, ?_, hcopies [1] _ _ ?_⟩
  · rw [hcreated (by decide)]
    rfl
  · rw [hvalue]
    rfl
  · exact List.mem_filter.2 ⟨List.mem_cons_of_mem _ List.mem_cons_self, rfl⟩

end ArrayLang
