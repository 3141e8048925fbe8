import ArrayLang.Proofs.Interpreter.AlikeStatement
import ArrayLang.Proofs.Storage.Confined
import ArrayLang.Proofs.Yields

/-!
# Where the storage of values comes from

An expression draws on the variables whose storage its value may share: a selection on those of its
base, an aggregate or a call on those of its operands, and an adverb on those of its functions and
arguments, unless it runs over an array and stacks its results. Whatever else the value of an
expression lies in was made while the expression was evaluated.
-/

namespace ArrayLang

open Value

/-! ## Expressions and the variables they draw on -/

/-- The expression is a variable whose value is an array. -/
def Expr.NamesArray (env : Env) (e : Expr) : Prop :=
  ∃ x view, e.node = .var x ∧ env.find? x = some (.array view)

/-- Whatever the expression evaluates to lies in no storage. -/
def Expr.Bare (env : Env) (e : Expr) : Prop :=
  ∀ apply trace σ v σ', Run.exec (Interpreter.evalExpr apply trace env e) σ = (.ok v, σ') →
    v.blocks = []

mutual
/-- The variables that satisfy `p` are the only ones whose storage the value may share. -/
def Expr.DrawsOn (env : Env) (p : String → Prop) : Expr → Prop
  | ⟨node, ty?⟩ => Expr.Bare env ⟨node, ty?⟩ ∨ node.DrawsOn env p
termination_by structural e => e

def Node.DrawsOn (env : Env) (p : String → Prop) : Node → Prop
  | .var name => p name
  | .index base _ => base.DrawsOn env p
  | .proj base _ => base.DrawsOn env p
  | .attr base _ => base.DrawsOn env p
  | .captured base _ => base.DrawsOn env p
  | .tuple items => Expr.AllDrawOn env p items
  | .closure _ items => Expr.AllDrawOn env p items
  | .call _ items => Expr.AllDrawOn env p items
  | .struct _ fields => Expr.FieldsDrawOn env p fields
  | .invoke callee args => callee.DrawsOn env p ∧ Expr.AllDrawOn env p args
  | .map func args _ =>
    (∃ e ∈ args, e.NamesArray env) ∨ func.DrawsOn env p ∧ Expr.AllDrawOn env p args
  | .reduce func combine start args _ =>
    func.DrawsOn env p ∧ combine.DrawsOn env p ∧ Expr.OptionDrawsOn env p start
      ∧ Expr.AllDrawOn env p args
  | .scan func combine emit start args _ =>
    (∃ e ∈ args, e.NamesArray env)
      ∨ func.DrawsOn env p ∧ combine.DrawsOn env p ∧ emit.DrawsOn env p
        ∧ Expr.OptionDrawsOn env p start ∧ Expr.AllDrawOn env p args
  | .lambda _ => False
  | _ => True
termination_by structural n => n

def Expr.AllDrawOn (env : Env) (p : String → Prop) : List Expr → Prop
  | [] => True
  | e :: es => e.DrawsOn env p ∧ Expr.AllDrawOn env p es
termination_by structural es => es

def Expr.OptionDrawsOn (env : Env) (p : String → Prop) : Option Expr → Prop
  | Option.none => True
  | some e => e.DrawsOn env p
termination_by structural e => e

def Expr.FieldsDrawOn (env : Env) (p : String → Prop) : List (String × Expr) → Prop
  | [] => True
  | (_, e) :: es => e.DrawsOn env p ∧ Expr.FieldsDrawOn env p es
termination_by structural es => es
end

section
variable {env : Env} {p q : String → Prop}

mutual
theorem Expr.DrawsOn.mono (hpq : ∀ x, p x → q x) : ∀ e : Expr, e.DrawsOn env p → e.DrawsOn env q
  | ⟨node, _⟩, h => h.imp_right (Node.DrawsOn.mono hpq node)
termination_by structural e => e

theorem Node.DrawsOn.mono (hpq : ∀ x, p x → q x) :
    ∀ node : Node, node.DrawsOn env p → node.DrawsOn env q
  | .var x, h => hpq x h
  | .index base _, h => Expr.DrawsOn.mono hpq base h
  | .proj base _, h => Expr.DrawsOn.mono hpq base h
  | .attr base _, h => Expr.DrawsOn.mono hpq base h
  | .captured base _, h => Expr.DrawsOn.mono hpq base h
  | .tuple items, h => Expr.AllDrawOn.mono hpq items h
  | .closure _ items, h => Expr.AllDrawOn.mono hpq items h
  | .call _ items, h => Expr.AllDrawOn.mono hpq items h
  | .struct _ fields, h => Expr.FieldsDrawOn.mono hpq fields h
  | .invoke callee args, h => ⟨Expr.DrawsOn.mono hpq callee h.1, Expr.AllDrawOn.mono hpq args h.2⟩
  | .map func args _, h =>
    h.imp_right fun h => ⟨Expr.DrawsOn.mono hpq func h.1, Expr.AllDrawOn.mono hpq args h.2⟩
  | .reduce func combine start args _, h =>
    ⟨Expr.DrawsOn.mono hpq func h.1, Expr.DrawsOn.mono hpq combine h.2.1,
      Expr.OptionDrawsOn.mono hpq start h.2.2.1, Expr.AllDrawOn.mono hpq args h.2.2.2⟩
  | .scan func combine emit start args _, h =>
    h.imp_right fun h => ⟨Expr.DrawsOn.mono hpq func h.1, Expr.DrawsOn.mono hpq combine h.2.1,
      Expr.DrawsOn.mono hpq emit h.2.2.1, Expr.OptionDrawsOn.mono hpq start h.2.2.2.1,
      Expr.AllDrawOn.mono hpq args h.2.2.2.2⟩
  | .lambda _, h => h
  | .lit _, _ => trivial
  | .array _, _ => trivial
  | .slice _ _ _, _ => trivial
  | .op _ _, _ => trivial
  | .opValue _, _ => trivial
  | .cast _ _, _ => trivial
  | .alloc _ _, _ => trivial
  | .allPairs _ _ _, _ => trivial
termination_by structural node => node

theorem Expr.AllDrawOn.mono (hpq : ∀ x, p x → q x) :
    ∀ es : List Expr, Expr.AllDrawOn env p es → Expr.AllDrawOn env q es
  | [], _ => trivial
  | e :: es, h => ⟨Expr.DrawsOn.mono hpq e h.1, Expr.AllDrawOn.mono hpq es h.2⟩
termination_by structural es => es

theorem Expr.OptionDrawsOn.mono (hpq : ∀ x, p x → q x) :
    ∀ e? : Option Expr, Expr.OptionDrawsOn env p e? → Expr.OptionDrawsOn env q e?
  | Option.none, _ => trivial
  | some e, h => Expr.DrawsOn.mono hpq e h
termination_by structural e? => e?

theorem Expr.FieldsDrawOn.mono (hpq : ∀ x, p x → q x) :
    ∀ fields : List (String × Expr), Expr.FieldsDrawOn env p fields → Expr.FieldsDrawOn env q fields
  | [], _ => trivial
  | (_, e) :: es, h => ⟨Expr.DrawsOn.mono hpq e h.1, Expr.FieldsDrawOn.mono hpq es h.2⟩
termination_by structural fields => fields
end

end

/-- The value of a variable lies in a block, among others. -/
def Env.Reaches (env : Env) (name : String) (b : Nat) : Prop :=
  ∃ v, env.find? name = some v ∧ b ∈ v.blocks

/-! ## States -/

/-- Since there were `n` blocks none has been lost, and the blocks in `B` are there; those of them
that are older satisfy `q`. -/
structure Traced (n : Nat) (q B : Nat → Prop) (σ : State Session) : Prop where
  size : n ≤ σ.store.blocks.size
  context : σ.context.Impartial
  there : ∀ b, B b → b < σ.store.blocks.size
  old : ∀ b, B b → b < n → q b

namespace Traced

variable {n : Nat} {q q' B B' : Nat → Prop} {σ : State Session}

theorem mono (h : Traced n q B σ) (hB : ∀ b, B' b → B b) : Traced n q B' σ :=
  ⟨h.size, h.context, fun b hb => h.there b (hB b hb), fun b hb => h.old b (hB b hb)⟩

end Traced

/-- The blocks in `B` and those of a value. -/
abbrev Beside (B : Nat → Prop) (blocks : List Nat) : Nat → Prop :=
  fun b => B b ∨ b ∈ blocks

theorem EnvPaired.self {p : Nat → Prop} {env : Env} (h : ∀ x b, env.Reaches x b → p b)
    (r : String → Prop) : EnvPaired (.self p) r env env := by
  intro x _
  cases hx : env.find? x with
  | none => exact .none
  | some v => exact .some (paired_self v fun b hb => h x b ⟨v, hx, hb⟩)

namespace Interpreter

variable {n : Nat} {q B : Nat → Prop} {α : Type}

/-! ## Computations that are alike to themselves -/

/-- On whatever blocks it runs, among them those in `B`, the computation is alike to itself. -/
def SelfAlike (B : Nat → Prop) (Q : Pairing → α → α → Prop) (x : Eval α) : Prop :=
  ∀ p : Nat → Prop, (∀ b, B b → p b) → Run.Alike Session.Impartial (.self p) Q x x

variable {Q : Pairing → α → α → Prop}

/-- Such a computation loses no block. -/
theorem SelfAlike.grows {x : Eval α} {a : α} {σ σ' : State Session} (h : SelfAlike B Q x)
    (hB : ∀ b, B b → b < σ.store.blocks.size) (hc : σ.context.Impartial)
    (hx : Run.exec x σ = (.ok a, σ')) :
    σ'.context.Impartial ∧ σ.store.blocks.size ≤ σ'.store.blocks.size := by
  have hconfined := (h (· < σ.store.blocks.size) hB).confined
  have hcontext := hconfined.context (fun _ hb => hb) hc
  have htouches := hconfined.touches (c := σ.context) fun _ hb => hb
  rw [hx] at hcontext htouches
  exact ⟨hcontext, htouches.size⟩

/-- All that is known of blocks is known afterwards. -/
theorem SelfAlike.kept {x : Eval α} (h : SelfAlike (fun b => b < n ∨ B b) Q x) :
    Run.Yields (Traced n q B) (fun _ => Traced n q B) x := by
  intro σ a σ' hσ hx
  obtain ⟨hcontext, hgrows⟩ := h.grows (fun b hb => hb.elim
    (fun hlt => Nat.lt_of_lt_of_le hlt hσ.size) (hσ.there b)) hσ.context hx
  exact ⟨Nat.le_trans hσ.size hgrows, hcontext,
    fun b hb => Nat.lt_of_lt_of_le (hσ.there b hb) hgrows, hσ.old⟩

/-- If it knows only of the blocks in `B`, its value lies in these and in new ones. -/
theorem SelfAlike.traced {x : Eval Value} (h : SelfAlike B Paired x) :
    Run.Yields (Traced n q B) (fun v => Traced n q (Beside B v.blocks)) x := by
  intro σ v σ' hσ hx
  obtain ⟨hcontext, hgrows⟩ := h.grows hσ.there hσ.context hx
  have hblocks := (h (fun b => b < σ.store.blocks.size ∧ (b < n → q b))
    fun b hb => ⟨hσ.there b hb, hσ.old b hb⟩).blocks (fun b hb => hb.1) hx
  refine ⟨Nat.le_trans hσ.size hgrows, hcontext, fun b hb => ?_, fun b hb hlt => ?_⟩
  · rcases hb with hb | hb
    · exact Nat.lt_of_lt_of_le (hσ.there b hb) hgrows
    · rcases hblocks b hb with hold | hnew
      · exact Nat.lt_of_lt_of_le hold.1 hgrows
      · exact hnew.2
  · rcases hb with hb | hb
    · exact hσ.old b hb hlt
    · rcases hblocks b hb with hold | hnew
      · exact hold.2 hlt
      · exact absurd (Nat.le_trans hσ.size hnew.1) (Nat.not_le.2 hlt)

/-- The value lies in blocks that were not among the first `n`. -/
def LiesNew (n : Nat) (v : Value) (σ : State Session) : Prop :=
  ∀ b ∈ v.blocks, n ≤ b ∧ b < σ.store.blocks.size

/-- If it makes its value in new storage, it may know of any block. -/
theorem new_of_anew {x : Eval Value}
    (h : ∀ p : Nat → Prop, (∀ b, b < n ∨ B b → p b) →
      Run.Alike Session.Impartial (.self p) (PairedAnew (.self p)) x x) :
    Run.Yields (Traced n q B) (LiesNew n) x := by
  intro σ v σ' hσ hx b hb
  have hblocks := (h (· < σ.store.blocks.size) fun b hb => hb.elim
    (fun hlt => Nat.lt_of_lt_of_le hlt hσ.size) (hσ.there b)).blocks_new (fun _ hb => hb) hx b hb
  exact ⟨Nat.le_trans hσ.size hblocks.1, hblocks.2⟩

/-- New storage is not traced any further. -/
theorem traced_of_new {x : Eval Value}
    (hkept : Run.Yields (Traced n q B) (fun _ => Traced n q B) x)
    (hnew : Run.Yields (Traced n (fun _ => True) B) (LiesNew n) x) :
    Run.Yields (Traced n q B) (fun v => Traced n q (Beside B v.blocks)) x := by
  intro σ v σ' hσ hx
  have hσ' := hkept σ v σ' hσ hx
  have hblocks := hnew σ v σ' ⟨hσ.size, hσ.context, hσ.there, fun _ _ _ => trivial⟩ hx
  refine ⟨hσ'.size, hσ'.context, fun b hb => ?_, fun b hb hlt => ?_⟩
  · exact hb.elim (hσ'.there b) fun hb => (hblocks b hb).2
  · exact hb.elim (fun hb => hσ'.old b hb hlt) fun hb => absurd hlt (Nat.not_lt.2 (hblocks b hb).1)

/-- Only some of the blocks need to be remembered. -/
theorem yields_forget {P : State Session → Prop} {x : Eval Value} {B' : Nat → Prop}
    (h : Run.Yields P (fun v => Traced n q (Beside B' v.blocks)) x) (hB : ∀ b, B b → B' b) :
    Run.Yields P (fun v => Traced n q (Beside B v.blocks)) x :=
  h.mono fun _ _ hv => hv.mono fun b hb => hb.imp_left (hB b)

theorem pure_traced {v : Value} (h : ∀ b ∈ v.blocks, B b) :
    Run.Yields (Traced n q B) (fun v => Traced n q (Beside B v.blocks)) (pure v : Eval Value) :=
  .pure fun _ hσ => hσ.mono fun b hb => hb.elim id (h b)

theorem failText_yields {P : State Session → Prop} {Q : α → State Session → Prop} (trace : Trace)
    (kind : Store → Fault) : Run.Yields P Q (do fail trace (kind (← Run.getStore)) : Eval α) := by
  intro σ a σ' _ hx
  cases hx

theorem namedFn_kept (trace : Trace) (name : String) :
    Run.Yields (Traced n q B) (fun _ => Traced n q B) (namedFn trace name) := by
  unfold namedFn
  refine Run.Yields.bind (Q := fun _ => Traced n q B) (fun σ _ _ hσ h => ?_) fun s => ?_
  · cases h
    exact hσ
  · split
    · exact .pure fun _ hσ => hσ
    · exact .throw _

/-! ## Operations -/

theorem mem_of_tupleItem? {items : List Value} {key item : Value}
    (h : tupleItem? items key = some item) : item ∈ items := by
  unfold tupleItem? at h
  split at h
  · rename_i i
    dsimp only at h
    generalize (if i.toInt < 0 then i.toInt + items.length else i.toInt) = j at h
    split at h
    · exact List.mem_of_getElem? h
    · cases h
  · cases h

/-- A selection lies in the storage of what it selects from. -/
theorem blocks_of_indexValue {s : Store} {base key v : Value} (h : indexValue s base key = .ok v) :
    ∀ b ∈ v.blocks, b ∈ base.blocks := by
  unfold indexValue at h
  cases hselected : selection? s base key with
  | none =>
    rw [hselected] at h
    cases h
  | some selected =>
    rw [hselected] at h
    unfold selection? at hselected
    split at hselected
    · rename_i view
      obtain ⟨items, -, rfl⟩ := Option.map_eq_some_iff.1 hselected
      cases hselect : view.select items with
      | error e =>
        rw [hselect] at h
        cases h
      | ok w =>
        rw [hselect] at h
        cases h
        intro b hb
        rw [blocks_ofView s w b hb, View.select_block hselect]
        exact List.mem_cons_self
    · rename_i items
      obtain ⟨item, hitem, rfl⟩ := Option.map_eq_some_iff.1 hselected
      cases h
      exact fun b hb => mem_blocksAll.2 ⟨v, mem_of_tupleItem? hitem, hb⟩
    · cases hselected

/-- A named part lies in the storage of the whole. -/
theorem blocks_of_attributeOf {s : Store} {base v : Value} {name : String}
    (h : attributeOf s base name = .ok v) : ∀ b ∈ v.blocks, b ∈ base.blocks := by
  have hpaired := attribute?_paired (paired_self (p := (· ∈ base.blocks)) base fun _ hb => hb) name
  unfold attributeOf at h
  generalize attribute? base name = part? at h hpaired
  cases hpaired with
  | none => cases h
  | some hpart =>
    cases h
    intro b hb
    obtain ⟨_, hbase, -⟩ := hpart.left b hb
    exact hbase

/-! ## Parts of expressions -/

theorem foldPaired_self {fold : Adverb.Fold} {r : Nat → Prop} (hfunc : ∀ b ∈ fold.func.blocks, r b)
    (hcombine : ∀ b ∈ fold.combine.blocks, r b)
    (hstart : ∀ b ∈ blocksAll fold.start?.toList, r b) :
    Adverb.FoldPaired (.self r) fold fold := by
  refine ⟨paired_self _ hfunc, paired_self _ hcombine, ?_⟩
  cases hstart? : fold.start? with
  | none => exact .none
  | some v =>
    rw [hstart?] at hstart
    exact .some (paired_self v fun b hb => hstart b (mem_blocksAll_singleton.2 hb))

theorem axisValue_kept (trace : Trace) (v : Value) :
    Run.Yields (Traced n q B) (fun _ => Traced n q B) (axisValue trace v) :=
  .ofExcept fun _ _ _ hσ => hσ

/-- An item lies in the storage of the items, which is all that need be remembered of them. -/
theorem item_traced (trace : Trace) (items : List Value) (kind : Store → Fault) (i : Nat) :
    Run.Yields (Traced n q (Beside B (blocksAll items)))
      (fun v => Traced n q (Beside B v.blocks))
      (match items[i]? with
        | some item => (pure item : Eval Value)
        | Option.none => do fail trace (kind (← Run.getStore))) := by
  cases hitem : items[i]? with
  | none => exact failText_yields trace _
  | some item =>
    refine yields_forget (pure_traced fun b hb => .inr ?_) fun b hb => .inl hb
    exact mem_blocksAll.2 ⟨item, List.mem_of_getElem? hitem, hb⟩

/-! ## Expressions -/

section
variable {apply : Apply} {trace : Trace} {env : Env}

/-- The values of a list of expressions have those of the variables among them. -/
theorem mem_of_evalExprs {es : List Expr} {vs : List Value} {σ σ' : State Session}
    (h : Run.exec (evalExprs apply trace env es) σ = (.ok vs, σ')) {x : String} {ty? : Option Ty}
    {v : Value} (hx : ⟨.var x, ty?⟩ ∈ es) (hv : env.find? x = some v) : v ∈ vs := by
  induction es generalizing vs σ with
  | nil => cases hx
  | cons e es ih =>
    rw [evalExprs] at h
    obtain ⟨w, σ₁, hw, h⟩ := Run.exec_bind_eq_ok h
    obtain ⟨ws, σ₂, hws, h⟩ := Run.exec_bind_eq_ok h
    cases h
    rcases List.mem_cons.1 hx with rfl | hx
    · rw [evalExpr, readVar, hv] at hw
      cases hw
      exact List.mem_cons_self
    · exact List.mem_cons_of_mem _ (ih hws hx)

/-- One of the values is an array if one of the expressions names an array. -/
theorem evalExprs_hasArray {es : List Expr} (h : ∃ e ∈ es, e.NamesArray env) :
    Run.Yields (fun _ => True) (fun vs _ => Adverb.HasArray vs) (evalExprs apply trace env es) := by
  intro σ vs σ' _ hx
  obtain ⟨⟨node, ty?⟩, he, x, view, hnode, hv⟩ := h
  obtain rfl : node = .var x := hnode
  exact ⟨view, mem_of_evalExprs hx he hv⟩

end

section
variable {apply : Apply} (happly : ApplyAlike apply) (trace : Trace) {env : Env}
  (hbelow : ∀ x b, env.Reaches x b → b < n)
include hbelow

/-- Code that is alike on the variables keeps what is known of blocks. -/
theorem kept_of_envPaired {Q : Pairing → α → α → Prop} {x : Eval α}
    (h : ∀ r : Nat → Prop, EnvPaired (.self r) (fun _ => True) env env →
      Run.Alike Session.Impartial (.self r) Q x x) :
    Run.Yields (Traced n q B) (fun _ => Traced n q B) x :=
  SelfAlike.kept fun r hr => h r (.self (fun y b hb => hr b (.inl (hbelow y b hb))) _)

/-- Code that is alike on the variables has its value in storage that is there. -/
theorem there_of_envPaired {x : Eval Value}
    (h : ∀ r : Nat → Prop, EnvPaired (.self r) (fun _ => True) env env →
      Run.Alike Session.Impartial (.self r) Paired x x) :
    Run.Yields (Traced n (fun _ => True) B) (fun v => Traced n (fun _ => True) (Beside B v.blocks))
      x := by
  have halike : SelfAlike (fun b => b < n ∨ B b) Paired x :=
    fun r hr => h r (.self (fun y b hb => hr b (.inl (hbelow y b hb))) _)
  refine yields_forget (halike.traced.pre fun σ hσ => ?_) fun b hb => .inr hb
  refine ⟨hσ.size, hσ.context, fun b hb => ?_, fun _ _ _ => trivial⟩
  exact hb.elim (fun hlt => Nat.lt_of_lt_of_le hlt hσ.size) (hσ.there b)

include happly

/-- Evaluating any expression keeps what is known of blocks. -/
theorem evalExpr_kept (e : Expr) :
    Run.Yields (Traced n q B) (fun _ => Traced n q B) (evalExpr apply trace env e) :=
  kept_of_envPaired hbelow fun _ henv => evalExpr_alike happly trace e
    (e.readsOnly_of_forall fun _ => trivial) henv

theorem evalOption_kept (e? : Option Expr) :
    Run.Yields (Traced n q B) (fun _ => Traced n q B) (evalOption apply trace env e?) :=
  kept_of_envPaired hbelow fun _ henv => evalOption_alike happly trace e?
    (fun e _ => e.readsOnly_of_forall fun _ => trivial) henv

/-- The storage of any value is there. -/
theorem evalExpr_there (e : Expr) :
    Run.Yields (Traced n (fun _ => True) B) (fun v => Traced n (fun _ => True) (Beside B v.blocks))
      (evalExpr apply trace env e) :=
  there_of_envPaired hbelow fun _ henv => evalExpr_alike happly trace e
    (e.readsOnly_of_forall fun _ => trivial) henv

theorem evalExprs_there (es : List Expr) :
    Run.Yields (Traced n (fun _ => True) B)
      (fun vs => Traced n (fun _ => True) (Beside B (blocksAll vs)))
      (evalExprs apply trace env es) := by
  -- The values are those of the components of a tuple.
  intro σ vs σ' hσ hx
  refine evalExpr_there happly trace hbelow ⟨.tuple es, Option.none⟩ σ (.tuple vs) σ' hσ ?_
  rw [evalExpr, Run.exec_bind_ok hx]
  rfl

theorem evalOption_there (e? : Option Expr) :
    Run.Yields (Traced n (fun _ => True) B)
      (fun v? => Traced n (fun _ => True) (Beside B (blocksAll v?.toList)))
      (evalOption apply trace env e?) := by
  cases e? with
  | none => exact .pure fun _ hσ => hσ.mono fun b hb => hb.elim id fun hb => nomatch hb
  | some e =>
    rw [evalOption]
    refine (evalExpr_there happly trace hbelow e).bind fun v => .pure fun _ hσ => ?_
    exact hσ.mono fun b hb => hb.imp_right mem_blocksAll_singleton.1

/-- The value of an allocating expression lies in new storage. -/
theorem evalExpr_new {e : Expr} (hnew : e.makesNew = true) :
    Run.Yields (Traced n q B) (fun v => Traced n q (Beside B v.blocks))
      (evalExpr apply trace env e) :=
  traced_of_new (evalExpr_kept happly trace hbelow e) <| new_of_anew fun _ hr =>
    evalExpr_anew happly trace hnew (e.readsOnly_of_forall fun _ => trivial)
      (.self (fun y b hb => hr b (.inl (hbelow y b hb))) _)

/-- A map over an array makes its value in new storage. -/
theorem map_new {func axis : Expr} {args : List Expr} {ty? : Option Ty}
    (h : ∃ e ∈ args, e.NamesArray env) :
    Run.Yields (Traced n q B) (fun v => Traced n q (Beside B v.blocks))
      (evalExpr apply trace env ⟨.map func args axis, ty?⟩) := by
  refine traced_of_new (evalExpr_kept happly trace hbelow _) ?_
  rw [evalExpr]
  refine (evalExpr_there happly trace hbelow func).bind fun f => ?_
  refine Run.Yields.bind ((evalExprs_there happly trace hbelow args).and
    ((evalExprs_hasArray h).pre fun _ _ => trivial)) fun as => .of_and fun harray => ?_
  refine (evalExpr_kept happly trace hbelow axis).bind fun a => ?_
  refine (axisValue_kept trace a).bind fun k => ?_
  -- The results of the calls are copied into an array that is made here.
  refine new_of_anew fun r hr => ?_
  refine Run.Alike.mapError _ ((Adverb.map_alike (callsAlike_callValue happly trace)
    (paired_self f fun b hb => ?_) (pairedAll_self as fun b hb => ?_) k).mono
    fun _ _ _ _ hvw => hvw.anew harray)
  · exact hr b (.inr (.inl (.inr hb)))
  · exact hr b (.inr (.inr hb))

/-- A scan over an array makes its value in new storage. -/
theorem scan_new {func combine emit axis : Expr} {start : Option Expr} {args : List Expr}
    {ty? : Option Ty} (h : ∃ e ∈ args, e.NamesArray env) :
    Run.Yields (Traced n q B) (fun v => Traced n q (Beside B v.blocks))
      (evalExpr apply trace env ⟨.scan func combine emit start args axis, ty?⟩) := by
  refine traced_of_new (evalExpr_kept happly trace hbelow _) ?_
  rw [evalExpr]
  refine (evalExpr_there happly trace hbelow func).bind fun f => ?_
  refine (evalExpr_there happly trace hbelow combine).bind fun g => ?_
  refine (evalExpr_there happly trace hbelow emit).bind fun m => ?_
  refine (evalOption_there happly trace hbelow start).bind fun start? => ?_
  refine Run.Yields.bind ((evalExprs_there happly trace hbelow args).and
    ((evalExprs_hasArray h).pre fun _ _ => trivial)) fun as => .of_and fun harray => ?_
  refine (evalExpr_kept happly trace hbelow axis).bind fun a => ?_
  refine (axisValue_kept trace a).bind fun k => ?_
  refine new_of_anew fun r hr => ?_
  have hfold : Adverb.FoldPaired (.self r) ⟨f, g, start?⟩ ⟨f, g, start?⟩ :=
    foldPaired_self (fun b hb => hr b (.inr (.inl (.inl (.inl (.inl (.inr hb)))))))
      (fun b hb => hr b (.inr (.inl (.inl (.inl (.inr hb))))))
      fun b hb => hr b (.inr (.inl (.inr hb)))
  refine Run.Alike.mapError _ ((Adverb.scan_alike (callsAlike_callValue happly trace) hfold
    (paired_self m fun b hb => ?_) (pairedAll_self as fun b hb => ?_) k).mono
    fun _ _ _ _ hvw => hvw.anew harray)
  · exact hr b (.inr (.inl (.inl (.inr hb))))
  · exact hr b (.inr (.inr hb))

variable {p : String → Prop} (hq : ∀ x, p x → ∀ b, env.Reaches x b → q b)
include hq

omit hq in
theorem traced_of_bare {e : Expr} (h : e.Bare env) :
    Run.Yields (Traced n q B) (fun v => Traced n q (Beside B v.blocks))
      (evalExpr apply trace env e) := by
  intro σ v σ' hσ hx
  have hkept := evalExpr_kept happly trace hbelow e σ v σ' hσ hx
  rw [h apply trace σ v σ' hx]
  exact hkept.mono fun b hb => hb.elim id fun hb => nomatch hb

omit happly in
theorem readVar_traced {x : String} (hx : p x) :
    Run.Yields (Traced n q B) (fun v => Traced n q (Beside B v.blocks)) (readVar trace env x) := by
  unfold readVar
  cases hv : env.find? x with
  | some v =>
    refine .pure fun σ hσ => ⟨hσ.size, hσ.context, fun b hb => ?_, fun b hb hlt => ?_⟩
    · exact hb.elim (hσ.there b) fun hb => Nat.lt_of_lt_of_le (hbelow x b ⟨v, hv, hb⟩) hσ.size
    · exact hb.elim (fun hb => hσ.old b hb hlt) fun hb => hq x hx b ⟨v, hv, hb⟩
  | none =>
    refine Run.Yields.bind (Q := fun _ => Traced n q B) (fun σ _ _ hσ h => ?_) fun s => ?_
    · cases h
      exact hσ
    · split
      · exact pure_traced fun b hb => nomatch hb
      · exact .throw _

omit happly hbelow hq in
mutual
/-- The value of an expression lies in the storage of the variables that the expression draws on, and
in storage that is new. -/
theorem evalExpr_traced (happly : ApplyAlike apply) (trace : Trace)
    (hbelow : ∀ x b, env.Reaches x b → b < n) (hq : ∀ x, p x → ∀ b, env.Reaches x b → q b) :
    ∀ {B : Nat → Prop} (e : Expr), e.DrawsOn env p →
      Run.Yields (Traced n q B) (fun v => Traced n q (Beside B v.blocks))
      (evalExpr apply trace env e)
  | _, ⟨_, _⟩, .inl h => traced_of_bare happly trace hbelow h
  | _, ⟨node, ty?⟩, .inr h => evalNode_traced happly trace hbelow hq node ty? h
termination_by structural _ e => e

theorem evalNode_traced (happly : ApplyAlike apply) (trace : Trace)
    (hbelow : ∀ x b, env.Reaches x b → b < n) (hq : ∀ x, p x → ∀ b, env.Reaches x b → q b) :
    ∀ {B : Nat → Prop} (node : Node) (ty? : Option Ty), node.DrawsOn env p →
      Run.Yields (Traced n q B) (fun v => Traced n q (Beside B v.blocks))
      (evalExpr apply trace env ⟨node, ty?⟩)
  | _, .lit _, _, _ => evalExpr_new happly trace hbelow rfl
  | _, .var x, _, h => readVar_traced trace hbelow hq h
  | _, .tuple items, _, h => (evalExprs_traced happly trace hbelow hq items h).bind fun _ =>
    .pure fun _ hσ => hσ
  | _, .proj base i, _, h => by
    rw [evalExpr]
    refine (evalExpr_traced happly trace hbelow hq base h).bind fun v => ?_
    cases v with
    | tuple items => exact item_traced trace items _ i
    | _ => exact failText_yields trace _
  | _, .array _, _, _ => evalExpr_new happly trace hbelow rfl
  | _, .index base key, _, h => by
    rw [evalExpr]
    refine (evalExpr_traced happly trace hbelow hq base h).bind fun v => ?_
    refine (evalExpr_kept happly trace hbelow key).bind fun k => ?_
    refine Run.Yields.bind (Q := fun _ => Traced n q _) (.getStore fun _ hσ => hσ) fun s => ?_
    refine .ofExcept fun w σ hw hσ => hσ.mono fun b hb => ?_
    exact hb.imp_right (blocks_of_indexValue hw b)
  | _, .slice start stop step, _, _ => by
    rw [evalExpr]
    refine (evalExpr_kept happly trace hbelow start).bind fun _ => ?_
    refine (evalExpr_kept happly trace hbelow stop).bind fun _ => ?_
    refine (evalOption_kept happly trace hbelow step).bind fun _ => ?_
    split
    · exact pure_traced fun b hb => nomatch hb
    · exact failText_yields trace _
  | _, .attr base name, _, h => by
    rw [evalExpr]
    refine (evalExpr_traced happly trace hbelow hq base h).bind fun v => ?_
    refine Run.Yields.bind (Q := fun _ => Traced n q _) (.getStore fun _ hσ => hσ) fun s => ?_
    refine .ofExcept fun w σ hw hσ => hσ.mono fun b hb => ?_
    exact hb.imp_right (blocks_of_attributeOf hw b)
  | _, .op _ _, _, _ => evalExpr_new happly trace hbelow rfl
  | _, .opValue _, _, _ => pure_traced fun b hb => nomatch hb
  | _, .call func args, _, h => by
    rw [evalExpr]
    refine (evalExprs_traced happly trace hbelow hq args h).bind fun vs => ?_
    refine (namedFn_kept trace func).bind fun f => ?_
    -- A call knows only of the storage of its arguments, whatever its body is.
    refine yields_forget (SelfAlike.traced fun r hr => ?_) fun b hb => .inl hb
    exact happly _ trace f vs vs (pairedAll_self vs fun b hb => hr b (.inr hb))
  | _, .invoke callee args, _, h => by
    rw [evalExpr]
    refine (evalExpr_traced happly trace hbelow hq callee h.1).bind fun f => ?_
    refine (evalExprs_traced happly trace hbelow hq args h.2).bind fun vs => ?_
    refine yields_forget (SelfAlike.traced fun r hr => ?_) fun b hb => .inl (.inl hb)
    exact callValue_alike happly trace (paired_self f fun b hb => hr b (.inl (.inr hb)))
      (pairedAll_self vs fun b hb => hr b (.inr hb))
  | _, .closure func values, _, h => by
    rw [evalExpr]
    refine (evalExprs_traced happly trace hbelow hq values h).bind fun vs => ?_
    exact (namedFn_kept trace func).bind fun f => .pure fun _ hσ => hσ
  | _, .captured base i, _, h => by
    rw [evalExpr]
    refine (evalExpr_traced happly trace hbelow hq base h).bind fun v => ?_
    cases v with
    | closure captive items => exact item_traced trace items _ i
    | _ => exact failText_yields trace _
  | _, .lambda _, _, h => h.elim
  | _, .cast _ _, _, _ => evalExpr_new happly trace hbelow rfl
  | _, .struct _ fields, _, h => (evalFields_traced happly trace hbelow hq fields h).bind fun _ =>
    .pure fun _ hσ => hσ
  | _, .alloc _ _, _, _ => evalExpr_new happly trace hbelow rfl
  | _, .map func args axis, _, .inl h => map_new happly trace hbelow h
  | _, .map func args axis, _, .inr h => by
    rw [evalExpr]
    refine (evalExpr_traced happly trace hbelow hq func h.1).bind fun f => ?_
    refine (evalExprs_traced happly trace hbelow hq args h.2).bind fun vs => ?_
    refine (evalExpr_kept happly trace hbelow axis).bind fun a => ?_
    refine (axisValue_kept trace a).bind fun k => ?_
    refine yields_forget (SelfAlike.traced fun r hr => ?_) fun b hb => .inl (.inl hb)
    refine Run.Alike.mapError _ ((Adverb.map_alike (callsAlike_callValue happly trace)
      (paired_self f fun b hb => ?_) (pairedAll_self vs fun b hb => ?_) k).mono
      fun _ _ _ _ hvw => hvw.paired)
    · exact hr b (.inl (.inr hb))
    · exact hr b (.inr hb)
  | _, .allPairs _ _ _, _, _ => evalExpr_new happly trace hbelow rfl
  | _, .reduce func combine start args axis, _, h => by
    -- The result is what `combine` returns last, so it may lie in the storage of an argument even if
    -- the arguments are arrays.
    rw [evalExpr]
    refine (evalExpr_traced happly trace hbelow hq func h.1).bind fun f => ?_
    refine (evalExpr_traced happly trace hbelow hq combine h.2.1).bind fun g => ?_
    refine (evalOption_traced happly trace hbelow hq start h.2.2.1).bind fun start? => ?_
    refine (evalExprs_traced happly trace hbelow hq args h.2.2.2).bind fun vs => ?_
    refine (evalExpr_kept happly trace hbelow axis).bind fun a => ?_
    refine (axisValue_kept trace a).bind fun k => ?_
    refine yields_forget (SelfAlike.traced fun r hr => ?_)
      fun b hb => .inl (.inl (.inl (.inl hb)))
    have hfold : Adverb.FoldPaired (.self r) ⟨f, g, start?⟩ ⟨f, g, start?⟩ :=
      foldPaired_self (fun b hb => hr b (.inl (.inl (.inl (.inr hb)))))
        (fun b hb => hr b (.inl (.inl (.inr hb)))) fun b hb => hr b (.inl (.inr hb))
    exact Run.Alike.mapError _ (Adverb.reduce_alike (callsAlike_callValue happly trace) hfold
      (pairedAll_self vs fun b hb => hr b (.inr hb)) k)
  | _, .scan func combine emit start args axis, _, .inl h => scan_new happly trace hbelow h
  | _, .scan func combine emit start args axis, _, .inr h => by
    rw [evalExpr]
    refine (evalExpr_traced happly trace hbelow hq func h.1).bind fun f => ?_
    refine (evalExpr_traced happly trace hbelow hq combine h.2.1).bind fun g => ?_
    refine (evalExpr_traced happly trace hbelow hq emit h.2.2.1).bind fun m => ?_
    refine (evalOption_traced happly trace hbelow hq start h.2.2.2.1).bind fun start? => ?_
    refine (evalExprs_traced happly trace hbelow hq args h.2.2.2.2).bind fun vs => ?_
    refine (evalExpr_kept happly trace hbelow axis).bind fun a => ?_
    refine (axisValue_kept trace a).bind fun k => ?_
    refine yields_forget (SelfAlike.traced fun r hr => ?_)
      fun b hb => .inl (.inl (.inl (.inl (.inl hb))))
    have hfold : Adverb.FoldPaired (.self r) ⟨f, g, start?⟩ ⟨f, g, start?⟩ :=
      foldPaired_self (fun b hb => hr b (.inl (.inl (.inl (.inl (.inr hb))))))
        (fun b hb => hr b (.inl (.inl (.inl (.inr hb))))) fun b hb => hr b (.inl (.inr hb))
    refine Run.Alike.mapError _ ((Adverb.scan_alike (callsAlike_callValue happly trace) hfold
      (paired_self m fun b hb => ?_) (pairedAll_self vs fun b hb => ?_) k).mono
      fun _ _ _ _ hvw => hvw.paired)
    · exact hr b (.inl (.inl (.inr hb)))
    · exact hr b (.inr hb)
termination_by structural _ node => node

theorem evalExprs_traced (happly : ApplyAlike apply) (trace : Trace)
    (hbelow : ∀ x b, env.Reaches x b → b < n) (hq : ∀ x, p x → ∀ b, env.Reaches x b → q b) :
    ∀ {B : Nat → Prop} (es : List Expr), Expr.AllDrawOn env p es →
      Run.Yields (Traced n q B) (fun vs => Traced n q (Beside B (blocksAll vs)))
      (evalExprs apply trace env es)
  | _, [], _ => .pure fun _ hσ => hσ.mono fun b hb => hb.elim id fun hb => nomatch hb
  | _, e :: es, h => by
    rw [evalExprs]
    refine (evalExpr_traced happly trace hbelow hq e h.1).bind fun v =>
      (evalExprs_traced happly trace hbelow hq es h.2).bind fun vs => ?_
    refine .pure fun _ hσ => hσ.mono fun b hb => ?_
    rcases hb with hb | hb
    · exact .inl (.inl hb)
    · exact (List.mem_append.1 hb).imp_left .inr
termination_by structural _ es => es

theorem evalOption_traced (happly : ApplyAlike apply) (trace : Trace)
    (hbelow : ∀ x b, env.Reaches x b → b < n) (hq : ∀ x, p x → ∀ b, env.Reaches x b → q b) :
    ∀ {B : Nat → Prop} (e? : Option Expr), Expr.OptionDrawsOn env p e? →
      Run.Yields (Traced n q B) (fun v? => Traced n q (Beside B (blocksAll v?.toList)))
      (evalOption apply trace env e?)
  | _, Option.none, _ => .pure fun _ hσ => hσ.mono fun b hb => hb.elim id fun hb => nomatch hb
  | _, some e, h => by
    rw [evalOption]
    refine (evalExpr_traced happly trace hbelow hq e h).bind fun v =>
      .pure fun _ hσ => hσ.mono fun b hb => ?_
    exact hb.imp_right mem_blocksAll_singleton.1
termination_by structural _ e? => e?

theorem evalFields_traced (happly : ApplyAlike apply) (trace : Trace)
    (hbelow : ∀ x b, env.Reaches x b → b < n) (hq : ∀ x, p x → ∀ b, env.Reaches x b → q b) :
    ∀ {B : Nat → Prop} (fields : List (String × Expr)),
      Expr.FieldsDrawOn env p fields →
      Run.Yields (Traced n q B) (fun vs => Traced n q (Beside B (blocksFields vs)))
        (evalFields apply trace env fields)
  | _, [], _ => .pure fun _ hσ => hσ.mono fun b hb => hb.elim id fun hb => nomatch hb
  | _, (name, e) :: fields, h => by
    rw [evalFields]
    refine (evalExpr_traced happly trace hbelow hq e h.1).bind fun v =>
      (evalFields_traced happly trace hbelow hq fields h.2).bind fun vs => ?_
    refine .pure fun _ hσ => hσ.mono fun b hb => ?_
    rcases hb with hb | hb
    · exact .inl (.inl hb)
    · exact (List.mem_append.1 hb).imp_left .inr
termination_by structural _ fields => fields
end

end

end Interpreter
end ArrayLang
