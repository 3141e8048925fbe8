import ArrayLang.Proofs.Syntax.Names
import ArrayLang.Proofs.Syntax.Rebuild
import ArrayLang.Proofs.Typing.Computation
import ArrayLang.Typing.Lowering

/-!
# What lowering emits

Lowering an expression emits statements that set temporaries and nothing else: each binds a fresh
variable or writes to a part of one. Of the statements for a loop, those that set the temporaries of its
condition stand twice, before the loop and at the end of its body.

## Main results

- `Lower.lowerExpr_appends`: lowering an expression appends statements that set temporaries.
- `Lower.lowerStmt_loop`: the statements that a loop is lowered to.
-/

namespace ArrayLang

open Typing

/-- The statement binds one variable, or writes to a part of it, and the variable satisfies `p`. -/
def Stmt.SetsOnly (p : String → Prop) : Stmt → Prop
  | .assign ⟨.var name, _⟩ _ => p name
  | .assign ⟨.index ⟨.var name, _⟩ _, _⟩ _ => p name
  | _ => False

/-- A name that source code cannot hold. -/
def Temporary (name : String) : Prop :=
  ¬Dotless name

theorem NameSupply.temporary_fresh (names : NameSupply) (base : String) :
    Temporary (names.fresh base).1 :=
  fun hdotless => names.not_covers_fresh base (.inl hdotless)

namespace Lower

variable {α β : Type}

/-! ## Results -/

/-- What a computation that lowers code returns satisfies `Q`. -/
abbrev Returns (x : Lower α) (Q : α → Prop) : Prop :=
  MeetsFrom anySession (fun _ => True) x fun a _ => Q a

namespace Returns

variable {x : Lower α} {P : α → Prop} {Q : β → Prop}

theorem bind {f : α → Lower β} (hx : Returns x P) (hf : ∀ a, P a → Returns (f a) Q) :
    Returns (x >>= f) Q :=
  MeetsFrom.bind hx fun a st ha => hf a ha st trivial

theorem any (x : Lower α) : Returns x fun _ => True :=
  fun _ _ => .any _

theorem pure {a : α} (h : P a) : Returns (Pure.pure a : Lower α) P :=
  MeetsFrom.pure fun _ _ => h

/-- A step that does not touch the state of lowering. -/
theorem lift {x : Typing α} (hx : Meets anySession x P) : Returns (liftM x : Lower α) P :=
  (MeetsFrom.lift hx).mono (fun _ h => h) fun _ _ h => h.2

/-- What a computation returns is what some run of it returns. -/
theorem returned (x : Lower α) :
    Returns x fun a => ∃ st s st' t, exec (x.run st) s = (.ok (a, st'), t) :=
  fun st _ => (Meets.returned _).mono fun r ⟨s, t, h⟩ => ⟨st, s, r.2, t, h⟩

end Returns

/-! ## Emitted statements -/

/-- What the computation returns and the statements that it appends to those emitted before satisfy
`Q`. -/
def Emits (x : Lower α) (Q : α → Block → Prop) : Prop :=
  ∀ before, MeetsFrom anySession (fun st => st.emitted = before) x fun a st =>
    ∃ more, st.emitted = before ++ more ∧ Q a more

namespace Emits

variable {x : Lower α} {P : α → Block → Prop} {Q : β → Block → Prop}

theorem mono {P' : α → Block → Prop} (hx : Emits x P) (h : ∀ a more, P a more → P' a more) :
    Emits x P' :=
  fun before => (hx before).mono (fun _ h => h) fun a _ ⟨more, hmore, ha⟩ => ⟨more, hmore, h a more ha⟩

theorem bind {f : α → Lower β} (hx : Emits x P)
    (hf : ∀ a more, P a more → Emits (f a) fun b more' => Q b (more ++ more')) :
    Emits (x >>= f) Q := by
  intro before st hst
  rw [StateT.run_bind]
  refine (hx before st hst).bind fun r ⟨more, hmore, hr⟩ => ?_
  refine (hf r.1 more hr (before ++ more) r.2 hmore).mono fun r' ⟨more', hmore', hr'⟩ => ?_
  exact ⟨more ++ more', by rw [hmore', List.append_assoc], hr'⟩

/-- A computation that emits nothing. -/
theorem silent {P : α → Prop} (h : ∀ before, MeetsFrom anySession (fun st => st.emitted = before) x
    fun a st => P a ∧ st.emitted = before) : Emits x fun a more => P a ∧ more = [] :=
  fun before => (h before).mono (fun _ h => h) fun _ _ ⟨ha, hst⟩ =>
    ⟨[], by rw [hst, List.append_nil], ha, rfl⟩

theorem emitAll (ss : Block) : Emits (emitAll ss) fun _ more => more = ss :=
  fun _ => .modify fun _ hst => ⟨ss, by rw [hst], rfl⟩

/-- What a computation returns is what some run of it returns. -/
theorem returned (hx : Emits x P) : Emits x fun a more =>
    P a more ∧ ∃ st s st' t, exec (x.run st) s = (.ok (a, st'), t) := by
  intro before st hst
  refine ((hx before st hst).and (.returned _)).mono fun r ⟨⟨more, hmore, hr⟩, s, t, h⟩ => ?_
  exact ⟨more, hmore, hr, st, s, r.2, t, h⟩

/-- What is collected on the side is not emitted here. -/
theorem collectAfter {before : Block} (hx : Emits x P) :
    Emits (collectAfter before x) fun r more =>
      (∃ inner, r.2 = before ++ inner ∧ P r.1 inner) ∧ more = [] := by
  refine silent fun outer => ?_
  intro st hst
  refine (hx before { st with emitted := before } rfl).bind fun r hr => ?_
  exact .pure ⟨hr, hst⟩

theorem collectAfter_any (before : Block) (x : Lower α) :
    Emits (Lower.collectAfter before x) fun _ more => more = [] := by
  refine (silent (P := fun _ => True) fun outer => ?_).mono fun _ _ h => h.2
  intro st hst
  exact (Meets.any _).bind fun r _ => .pure ⟨trivial, hst⟩

end Emits

/-- The computation appends statements that satisfy `T`, and what it returns satisfies `Q`. -/
def Appends (T : Stmt → Prop) (x : Lower α) (Q : α → Prop) : Prop :=
  Emits x fun a more => Q a ∧ ∀ s ∈ more, T s

namespace Appends

variable {T : Stmt → Prop} {P : α → Prop} {Q : β → Prop} {x : Lower α}

theorem bind {f : α → Lower β} (hx : Appends T x P) (hf : ∀ a, P a → Appends T (f a) Q) :
    Appends T (x >>= f) Q := by
  refine Emits.bind hx fun a more ⟨ha, hT⟩ => ?_
  exact (hf a ha).mono fun b more' ⟨hb, hT'⟩ => ⟨hb, List.forall_mem_append.2 ⟨hT, hT'⟩⟩

theorem silent (h : ∀ before, MeetsFrom anySession (fun st => st.emitted = before) x
    fun a st => P a ∧ st.emitted = before) : Appends T x P :=
  (Emits.silent h).mono fun _ _ ⟨ha, hnil⟩ => ⟨ha, fun _ h => by rw [hnil] at h; cases h⟩

theorem pure {a : α} (h : P a) : Appends T (Pure.pure a : Lower α) P :=
  silent fun _ => .pure fun _ hst => ⟨h, hst⟩

/-- A step that does not touch the state of lowering. -/
theorem lift {x : Typing α} (hx : Meets anySession x P) : Appends T (liftM x : Lower α) P :=
  silent fun _ => (MeetsFrom.lift hx).mono (fun _ h => h) fun _ _ h => h.symm

theorem lift_any (x : Typing α) : Appends T (liftM x : Lower α) fun _ => True :=
  lift (.any x)

theorem get : Appends T (get : Lower LowerState) fun _ => True :=
  silent fun _ => MeetsFrom.get.mono (fun _ h => h) fun _ _ h => ⟨trivial, h.2⟩

theorem emit {s : Stmt} (h : T s) : Appends T (emit s) fun _ => True :=
  (Emits.emitAll [s]).mono fun _ _ hmore =>
    ⟨trivial, by rw [hmore]; exact List.forall_mem_singleton.2 h⟩

theorem ite {c : Prop} [Decidable c] {y : Lower α} (hx : c → Appends T x P)
    (hy : ¬c → Appends T y P) : Appends T (if c then x else y) P := by
  split
  · exact hx ‹_›
  · exact hy ‹_›

theorem fail (cause : TypingError) : Appends T (Typing.fail cause : Lower α) P :=
  lift (.fail cause)

/-- Running one such computation after the other is one. -/
theorem sequential (T : Stmt → Prop) :
    Sequential Lower fun x => Appends T x fun _ => True where
  pure _ := pure trivial
  bind hx hf := hx.bind fun a _ => hf a

theorem mapM {f : α → Lower β} (hf : ∀ a, Appends T (f a) fun _ => True) (l : List α) :
    Appends T (l.mapM f) fun bs => bs.length = l.length := by
  induction l with
  | nil => exact pure rfl
  | cons a l ih =>
    rw [List.mapM_cons]
    exact (hf a).bind fun b _ => ih.bind fun bs hbs => pure (congrArg (· + 1) hbs)

theorem forM {f : α → Lower Unit} (hf : ∀ a, Appends T (f a) fun _ => True) (l : List α) :
    Appends T (l.forM f) fun _ => True := by
  induction l with
  | nil => exact pure trivial
  | cons a l ih => exact (hf a).bind fun _ _ => ih

end Appends

/-! ## Expressions -/

variable {specialize : Specializer}

theorem temp_appends {T : Stmt → Prop} (base : String) (ty : Ty) :
    Appends T (temp base ty) fun e => ∃ name, Temporary name ∧ e = .typed (.var name) ty :=
  .silent fun _ st hst => .pure ⟨⟨_, st.names.temporary_fresh base, rfl⟩, hst⟩

theorem varType_appends {T : Stmt → Prop} (name : String) :
    Appends T (varType name) fun _ => True := by
  unfold varType
  refine Appends.get.bind fun st _ => ?_
  split
  · exact .pure trivial
  · exact .fail _

theorem coerceStart_appends {T : Stmt → Prop} (combine : Expr) (start? : Option Expr) :
    Appends T (coerceStart combine start?) fun _ => True := by
  cases start? with
  | none => exact .pure trivial
  | some start =>
    unfold coerceStart
    dsimp only
    split
    · refine (Appends.lift_any _).bind fun s _ => ?_
      split
      · exact .fail _
      · split
        · exact (Appends.lift_any _).bind fun e _ => .pure trivial
        · exact .fail _
    · exact (Appends.lift_any _).bind fun ty _ => .fail _

/-- A literal of arrays sets two temporaries: its first item, and the array that it makes. -/
theorem expandLiteral_appends (first : Expr) (rest : List Expr) (elt : ElemType) (rank : Nat) :
    Appends (Stmt.SetsOnly Temporary) (expandLiteral first rest elt rank) fun _ => True := by
  unfold expandLiteral
  refine (Appends.lift_any _).bind fun ty _ => ?_
  refine (temp_appends _ ty).bind fun firstVar ⟨name, hname, hfirst⟩ => ?_
  refine (Appends.emit (hfirst ▸ hname)).bind fun _ _ => ?_
  refine (temp_appends _ _).bind fun result ⟨name', hname', hresult⟩ => ?_
  refine (Appends.emit (hresult ▸ hname')).bind fun _ _ => ?_
  refine (Appends.forM (fun p => ?_) _).bind fun _ _ => .pure trivial
  exact (Appends.lift_any _).bind fun value _ => .emit (hresult ▸ hname')

theorem convertNode_appends (e : Expr) :
    Appends (Stmt.SetsOnly Temporary) (convertNode e) fun _ => True := by
  unfold convertNode
  refine (Appends.lift_any _).bind fun ty _ => ?_
  split
  · refine (Appends.lift_any _).bind fun types _ => (Appends.lift_any _).bind fun expected _ => ?_
    exact (Appends.mapM (fun p => .lift_any _) _).bind fun args _ => .pure trivial
  · split
    · exact (Appends.mapM (fun item => .lift_any _) _).bind fun items _ => .pure trivial
    · exact expandLiteral_appends _ _ _ _
    · exact .pure trivial
  · exact (coerceStart_appends _ _).bind fun start _ => .pure trivial
  · exact (coerceStart_appends _ _).bind fun start _ => .pure trivial
  · exact .pure trivial

/-- Lowering an expression appends statements that set temporaries. -/
theorem lowerExpr_appends (e : Expr) :
    Appends (Stmt.SetsOnly Temporary) (lowerExpr specialize e) fun _ => True := by
  unfold lowerExpr
  refine Appends.get.bind fun st _ => (Appends.lift_any _).bind fun typed _ => ?_
  exact Expr.rebuildM_closed (Appends.sequential _) convertNode_appends typed

theorem lowerSide_appends (name : String) (value : Expr) :
    Appends (Stmt.SetsOnly Temporary) (lowerSide specialize name value) fun _ => True := by
  unfold lowerSide
  refine (varType_appends name).bind fun target _ => ?_
  exact (lowerExpr_appends value).bind fun value _ => .lift_any _

theorem lowerCond_appends (cond : Expr) :
    Appends (Stmt.SetsOnly Temporary) (lowerCond specialize cond) fun _ => True := by
  unfold lowerCond
  exact (lowerExpr_appends cond).bind fun cond _ => .lift_any _

/-! ## Loops -/

/-- The expression and the statements are what lowering a condition gives. -/
def ConditionOf (specialize : Specializer) (cond cond' : Expr) (setup : Block) : Prop :=
  ∃ st s st' t, exec ((collectAfter [] (lowerCond specialize cond)).run st) s
    = (.ok ((cond', setup), st'), t)

/-- The statements that a loop is lowered to. The temporaries of its condition are set before the loop
and at the end of its body, both times before the reconciled variables are bound. -/
inductive LoopForm (specialize : Specializer) (cond : Expr) (merge : List Phi) : Block → Prop
  | mk {sides setup body : Block} {cond' : Expr} {phis : List Phi}
    (hcond : ConditionOf specialize cond cond' setup)
    (hsides : ∀ s ∈ sides, s.SetsOnly Temporary) (hsetup : ∀ s ∈ setup, s.SetsOnly Temporary)
    (hnames : phis.map (·.name) = merge.map (·.name)) :
    LoopForm specialize cond merge (sides ++ (setup ++ [.loop cond' (body ++ setup) phis]))

theorem names_zipWith_sides {merge : List Phi} {lefts rights : List Expr}
    (hlefts : lefts.length = merge.length) (hrights : rights.length = merge.length) :
    (merge.zipWith (fun phi (left, right) => (⟨phi.name, left, right⟩ : Phi))
      (lefts.zip rights)).map (·.name) = merge.map (·.name) := by
  induction merge generalizing lefts rights with
  | nil => rfl
  | cons phi merge ih =>
    obtain ⟨left, lefts, rfl⟩ := List.exists_cons_of_length_eq_add_one hlefts
    obtain ⟨right, rights, rfl⟩ := List.exists_cons_of_length_eq_add_one hrights
    rw [List.zip_cons_cons, List.zipWith_cons_cons, List.map_cons, List.map_cons,
      ih (Nat.succ.inj hlefts) (Nat.succ.inj hrights)]

/-- Lowering a loop emits statements of that form. -/
theorem lowerStmt_loop (specialize : Specializer) (result : Ty) (cond : Expr) (body : Block)
    (merge : List Phi) :
    Emits (lowerStmt specialize result (.loop cond body merge))
      fun _ => LoopForm specialize cond merge := by
  rw [lowerStmt]
  have hside (side : Phi → Expr) : Appends (Stmt.SetsOnly Temporary)
      (merge.mapM fun phi => lowerSide specialize phi.name (side phi))
      fun es => es.length = merge.length :=
    Appends.mapM (fun phi : Phi => lowerSide_appends phi.name (side phi)) merge
  refine Emits.bind (hside Phi.left) fun lefts sides ⟨hlefts, hsides⟩ => ?_
  -- The condition is lowered into a block of its own, which becomes the setup.
  have hcond : Emits (collectAfter [] (lowerCond specialize cond)) _ :=
    (lowerCond_appends cond).collectAfter
  refine Emits.bind hcond.returned fun r _ hr => ?_
  obtain ⟨cond', setup⟩ := r
  obtain ⟨⟨⟨_, rfl, -, hsetup⟩, rfl⟩, hcond⟩ := hr
  refine Emits.bind (.emitAll _) fun _ _ hmore => ?_
  obtain rfl := hmore
  -- What the right sides emit goes to the body, after its own statements and before the setup.
  refine Emits.bind (Emits.collectAfter_any [] _) fun r _ hr => ?_
  obtain ⟨u, body⟩ := r
  obtain rfl := hr
  refine Emits.bind (hside Phi.right).collectAfter fun r _ hr => ?_
  obtain ⟨rights, body⟩ := r
  obtain ⟨⟨_, -, hrights, -⟩, rfl⟩ := hr
  refine (Emits.emitAll _).mono fun _ _ hmore => ?_
  obtain rfl := hmore
  exact .mk hcond hsides hsetup (names_zipWith_sides hlefts hrights)

end Lower
end ArrayLang
