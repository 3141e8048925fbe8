import ArrayLang.Proofs.CopyElimination.Steps
import ArrayLang.Proofs.Interpreter.AlikeStatement
import ArrayLang.Proofs.Storage.Follow

/-!
# A variable with storage of its own

Two runs whose variables have values that stand for each other, but for one variable whose storage
is apart from all that is paired. Code that only writes through that variable never lets the runs
come apart, whatever its storage holds.
-/

namespace ArrayLang

open Pairing Value

/-- All variables but `dest` have values paired by `ρ`, and the storage of `dest`, paired by `τ`, is
apart from that. -/
structure Separate (dest : String) (ρ τ : Pairing) (env env' : Env) (s t : Store) : Prop where
  stores : ρ.Matches s t
  apart : τ ≤ ρ.apart s t
  others : EnvPaired ρ (· ≠ dest) env env'
  own : Option.Rel (Paired τ) (env.find? dest) (env'.find? dest)

namespace Separate

variable {ρ ρ' τ : Pairing} {dest : String} {env env' : Env} {s s' t t' : Store}

/-- Steps that know only of `ρ` leave the storage of `dest` alone. -/
theorem evolve (h : Separate dest ρ τ env env' s t) (hρ : Evolves ρ s t ρ' s' t') :
    Separate dest ρ' τ env env' s' t' :=
  ⟨hρ.stores, le_trans h.apart hρ.apart_le, h.others.mono hρ.le, h.own⟩

/-- Changes to storage that is not paired. -/
theorem touch {p q : Nat → Prop} (h : Separate dest ρ τ env env' s t)
    (hs : s.TouchesOnly p s') (ht : t.TouchesOnly q t') (hp : ∀ b, ρ.Left b → ¬p b)
    (hq : ∀ c, ρ.Right c → ¬q c) : Separate dest ρ τ env env' s' t' := by
  refine ⟨h.stores.of_touches hs ht hp hq, fun b c hbc => ?_, h.others, h.own⟩
  obtain ⟨⟨hb, hleft⟩, hc, hright⟩ := h.apart b c hbc
  exact ⟨⟨Nat.lt_of_lt_of_le hb hs.size, hleft⟩, Nat.lt_of_lt_of_le hc ht.size, hright⟩

/-- Another variable gets a value that is paired. -/
theorem insert {v w : Value} {name : String} (h : Separate dest ρ τ env env' s t)
    (hname : name ≠ dest) (hvw : v.Paired ρ w) :
    Separate dest ρ τ (env.insert name v) (env'.insert name w) s t := by
  refine ⟨h.stores, h.apart, h.others.insert name hvw, ?_⟩
  rw [NameMap.find?_insert, NameMap.find?_insert, if_neg hname.symm, if_neg hname.symm]
  exact h.own

theorem insertAll {names : List String} {as bs : List Value}
    (h : Separate dest ρ τ env env' s t) (hnames : ∀ name ∈ names, name ≠ dest)
    (hab : PairedAll ρ as bs) :
    Separate dest ρ τ (env.insertAll (names.zip as)) (env'.insertAll (names.zip bs)) s t := by
  induction names generalizing as bs env env' with
  | nil => exact h
  | cons name names ih =>
    obtain ⟨hname, hnames⟩ := List.forall_mem_cons.1 hnames
    cases hab with
    | nil => exact h
    | cons hvw hab => exact ih (h.insert hname hvw) hnames hab

/-- The variable itself gets a value in new storage, and what it held before is forgotten. -/
theorem insert_own {v w : Value} (h : Separate dest ρ τ env env' s t)
    (hρ : Evolves ρ s t ρ' s' t') (hvw : v.PairedAnew ρ ρ' w) :
    Separate dest ρ (ρ'.without ρ) (env.insert dest v) (env'.insert dest w) s' t' := by
  refine ⟨hρ.stores.mono hρ.le, hρ.without_le_apart, fun x hx => ?_, ?_⟩
  · rw [NameMap.find?_insert, NameMap.find?_insert, if_neg hx, if_neg hx]
    exact h.others x hx
  · rw [NameMap.find?_insert, NameMap.find?_insert, if_pos rfl, if_pos rfl]
    exact .some hvw

end Separate

/-! ## Code that owns a variable -/

mutual
/-- The target binds other variables only, and has `dest` as the root of a part that is written, if
at all. -/
def Expr.SparesTarget (dest : String) : Expr → Prop
  | ⟨.var name, _⟩ => name ≠ dest
  | ⟨.tuple targets, _⟩ => Expr.AllSpareTarget dest targets
  | ⟨.index base key, ty?⟩ =>
    Expr.ReadsOnly (· ≠ dest) ⟨.index base key, ty?⟩
      ∨ ∃ indices, Expr.indexTarget? ⟨.index base key, ty?⟩ = some (dest, indices)
        ∧ ∀ i ∈ indices, i.ReadsOnly (· ≠ dest)
  | _ => True
termination_by structural e => e

def Expr.AllSpareTarget (dest : String) : List Expr → Prop
  | [] => True
  | e :: es => e.SparesTarget dest ∧ Expr.AllSpareTarget dest es
termination_by structural es => es
end

mutual
/-- The statement binds `dest` to values in new storage only, writes to its parts, and does not read
it. -/
def Stmt.Owns (dest : String) : Stmt → Prop
  | .assign target value =>
    value.ReadsOnly (· ≠ dest)
      ∧ (target.SparesTarget dest ∨ target.var? = some dest ∧ value.makesNew = true)
  | .ret value => value.ReadsOnly (· ≠ dest)
  | .branch cond onTrue onFalse merge =>
    cond.ReadsOnly (· ≠ dest) ∧ Stmt.AllOwn dest onTrue ∧ Stmt.AllOwn dest onFalse
      ∧ ∀ phi ∈ merge, phi.Within (· ≠ dest)
  | .loop cond body merge =>
    cond.ReadsOnly (· ≠ dest) ∧ Stmt.AllOwn dest body ∧ ∀ phi ∈ merge, phi.Within (· ≠ dest)
termination_by structural s => s

def Stmt.AllOwn (dest : String) : List Stmt → Prop
  | [] => True
  | s :: ss => s.Owns dest ∧ Stmt.AllOwn dest ss
termination_by structural ss => ss
end

namespace Interpreter

variable {ρ τ : Pairing} {dest : String} {env env' : Env} {apply : Apply}

/-- What is alike on the other variables follows, and leaves the storage of `dest` alone. -/
theorem follows_of_alike {α β : Type} {R : Pairing → α → β → Prop} {x : Eval α} {y : Eval β}
    (h : EnvPaired ρ (· ≠ dest) env env' → Run.Alike Session.Impartial ρ R x y) :
    Run.Follows Session.Impartial ρ (Separate dest ρ τ env env')
      (fun ρ' a b s t => Separate dest ρ' τ env env' s t ∧ R ρ' a b) x y := by
  refine .of_pre fun s t hs => .of_alike (h hs.others) ?_ ?_
  · rintro _ _ ⟨rfl, rfl⟩
    exact hs.stores
  · rintro _ _ ρ' s' t' a b ⟨rfl, rfl⟩ hρ hR
    exact ⟨ρ', hρ.le, hs.evolve hρ, hR⟩

/-! ## Writing to parts -/

/-- What the root of a part that is written, and what is selected from it, is in the two runs: the one
stands for the other, or nothing can be selected from it or written to it. -/
inductive Loose (τ : Pairing) : Value → Value → Prop
  | paired {v w : Value} (h : v.Paired τ w) : Loose τ v w
  | inert {v w : Value} (harray : ∀ view, v ≠ .array view) (htuple : ∀ items, v ≠ .tuple items) :
    Loose τ v w

variable {s t : Store} {b b' k k' v w : Value}

theorem ofView_loose (view : View) {c : Nat} (h : τ view.block c) :
    Loose τ (ofView s view) (ofView t (view.on c)) := by
  unfold ofView
  show Loose τ _ (if view.rank = 0 then _ else _)
  split
  · exact .inert (fun _ h => by cases h) (fun _ h => by cases h)
  · exact .paired (.array h)

/-- Selecting succeeds in the second run where it does in the first. -/
theorem indexValue_loose {r : Value} (hb : Loose τ b b') (hk : k.Paired ρ k')
    (h : indexValue s b k = .ok r) : ∃ r', indexValue t b' k' = .ok r' ∧ Loose τ r r' := by
  unfold indexValue selection? at h ⊢
  cases hb with
  | inert harray htuple =>
    cases b with
    | array view => exact absurd rfl (harray view)
    | tuple items => exact absurd rfl (htuple items)
    | _ => cases h
  | paired hb =>
    cases hb with
    | array hc =>
      rename_i view c
      dsimp only at h ⊢
      rw [subscripts?_paired hk]
      cases hitems : subscripts? k with
      | none =>
        rw [hitems] at h
        cases h
      | some items =>
        rw [hitems] at h
        rw [Option.map_some] at h ⊢
        dsimp only at h ⊢
        rw [View.select_on]
        cases hselect : view.select items with
        | error e =>
          rw [hselect] at h
          cases h
        | ok slot =>
          rw [hselect] at h
          cases h
          exact ⟨_, rfl, ofView_loose slot ((View.select_block hselect).symm ▸ hc)⟩
    | tuple hitems =>
      dsimp only at h ⊢
      rcases Option.none_or_some_of_rel (tupleItem?_paired hitems hk) with
        ⟨ha, hb⟩ | ⟨a, b, ha, hb, hab⟩
      · rw [ha] at h
        cases h
      · rw [ha] at h
        cases h
        rw [hb]
        exact ⟨b, rfl, .paired hab⟩
    | _ => cases h

/-- Writing to the same part of an array that lies elsewhere succeeds where writing does. -/
theorem assignIndex_on {view : View} {c : Nat} {f : Store → Store} (hs : ρ.Matches s t)
    (hk : k.Paired ρ k') (hv : v.Paired ρ w) (h : assignIndex (.array view) k v s = .ok f) :
    ∃ g, assignIndex (.array (view.on c)) k' w t = .ok g := by
  unfold assignIndex at h ⊢
  dsimp only at h ⊢
  rw [subscripts?_paired hk]
  cases hitems : subscripts? k with
  | none =>
    rw [hitems] at h
    cases h
  | some items =>
    rw [hitems] at h
    dsimp only at h ⊢
    rw [View.select_on]
    cases hselect : view.select items with
    | error e =>
      rw [hselect] at h
      cases h
    | ok slot =>
      rw [hselect] at h
      cases hv with
      | scalar x => exact ⟨_, rfl⟩
      | array hsrc =>
        rename_i src d
        show ∃ g, ((((slot.on c).cellsFrom (src.on d) t).map _).mapError _) = .ok g
        rw [View.cellsFrom_on hs hsrc]
        cases hcells : slot.cellsFrom src s with
        | error e =>
          dsimp only at h
          rw [hcells] at h
          cases h
        | ok cells => exact ⟨_, rfl⟩
      | _ => cases h

/-- Writing succeeds in the second run where it does in the first, and touches the storage that is
written to only. -/
theorem assignIndex_loose {f : Store → Store} (hs : ρ.Matches s t) (hb : Loose τ b b')
    (hk : k.Paired ρ k') (hv : v.Paired ρ w) (h : assignIndex b k v s = .ok f) :
    ∃ g, assignIndex b' k' w t = .ok g ∧ s.TouchesOnly τ.Left (f s)
      ∧ t.TouchesOnly τ.Right (g t) := by
  obtain ⟨view, rfl, htouches⟩ := assignIndex_touches h
  cases hb with
  | inert harray _ => exact absurd rfl (harray view)
  | paired hb =>
    cases hb with
    | array hc =>
      rename_i c
      obtain ⟨g, hg⟩ := assignIndex_on (c := c) hs hk hv h
      obtain ⟨view', heq, htouches'⟩ := assignIndex_touches hg
      cases heq
      refine ⟨g, hg, htouches.mono fun b hb => ?_, htouches'.mono fun b hb => ?_⟩
      · exact ⟨c, hb ▸ hc⟩
      · exact ⟨view.block, hb ▸ hc⟩

section
variable (happly : ApplyAlike apply) (trace : Trace)
include happly

theorem evalExpr_follows {e : Expr} (he : e.ReadsOnly (· ≠ dest)) (ρ : Pairing) :
    Run.Follows Session.Impartial ρ (Separate dest ρ τ env env')
      (fun ρ' v w s t => Separate dest ρ' τ env env' s t ∧ v.Paired ρ' w)
      (evalExpr apply trace env e) (evalExpr apply trace env' e) :=
  follows_of_alike fun henv => evalExpr_alike happly trace e he henv

omit happly in
theorem readRoot_follows (ρ : Pairing) :
    Run.Follows Session.Impartial ρ (Separate dest ρ τ env env')
      (fun ρ' v w s t => Separate dest ρ' τ env env' s t ∧ Loose τ v w)
      (readVar trace env dest) (readVar trace env' dest) := by
  refine .of_pre fun s t hs => ?_
  unfold readVar
  rcases Option.none_or_some_of_rel hs.own with ⟨ha, hb⟩ | ⟨a, b, ha, hb, hab⟩
  · rw [ha, hb]
    refine .of_alike (τ := ρ) (R := fun _ v w => Loose τ v w) (.get_bind fun s t c _ => ?_) ?_ ?_
    · dsimp only
      split
      · exact .pure (.inert (fun _ h => by cases h) (fun _ h => by cases h))
      · exact fail_alike trace _
    · rintro _ _ ⟨rfl, rfl⟩
      exact hs.stores
    · rintro _ _ ρ' s' t' v w ⟨rfl, rfl⟩ hρ hvw
      exact ⟨ρ', hρ.le, hs.evolve hρ, hvw⟩
  · rw [ha, hb]
    refine .pure ?_
    rintro _ _ ⟨rfl, rfl⟩
    exact ⟨hs, .paired hab⟩

/-- The part of `dest` that is written is the same part in both runs. -/
theorem evalChain_follows {e : Expr} {indices : List Expr}
    (he : e.indexTarget? = some (dest, indices)) (hindices : ∀ i ∈ indices, i.ReadsOnly (· ≠ dest))
    (ρ : Pairing) :
    Run.Follows Session.Impartial ρ (Separate dest ρ τ env env')
      (fun ρ' v w s t => Separate dest ρ' τ env env' s t ∧ Loose τ v w)
      (evalExpr apply trace env e) (evalExpr apply trace env' e) := by
  induction e using Expr.indexTarget?.induct generalizing indices ρ with
  | case1 name ty? =>
    cases he
    exact readRoot_follows trace ρ
  | case2 base key ty? ih =>
    rw [Expr.indexTarget?, Option.map_eq_some_iff] at he
    obtain ⟨⟨root, rest⟩, hbase, heq⟩ := he
    cases heq
    have hkey := hindices key (List.mem_append_right _ List.mem_cons_self)
    rw [evalExpr, evalExpr]
    refine (ih hbase (fun i hi => hindices i (List.mem_append_left _ hi)) ρ).bind_and
      fun ρ₁ b b' _ hb => ?_
    refine (evalExpr_follows happly trace hkey ρ₁).bind_and fun ρ₂ k k' _ hk => ?_
    refine .getStore_bind fun s t hs => .ofExcept _ ?_
    rintro _ _ r ⟨rfl, rfl⟩ hr
    obtain ⟨r', hr', hrr⟩ := indexValue_loose hb hk hr
    exact ⟨r', hr', hs, hrr⟩
  | case3 e hvar hindex =>
    rw [Expr.indexTarget?] at he
    · cases he
    · exact hvar
    · exact hindex

/-- Writing to a part of `dest` succeeds in the second run where it does in the first. -/
theorem assignPart_follows {base key : Expr} {ty? : Option Ty} {indices : List Expr}
    (he : Expr.indexTarget? ⟨.index base key, ty?⟩ = some (dest, indices))
    (hindices : ∀ i ∈ indices, i.ReadsOnly (· ≠ dest)) (hvw : v.Paired ρ w) :
    Run.Follows Session.Impartial ρ (Separate dest ρ τ env env')
      (fun ρ' e e' s t => Separate dest ρ' τ e e' s t)
      (assign apply trace ⟨.index base key, ty?⟩ v env)
      (assign apply trace ⟨.index base key, ty?⟩ w env') := by
  rw [Expr.indexTarget?, Option.map_eq_some_iff] at he
  obtain ⟨⟨root, rest⟩, hbase, heq⟩ := he
  cases heq
  have hkey := hindices key (List.mem_append_right _ List.mem_cons_self)
  rw [assign, assign]
  refine (evalChain_follows happly trace hbase
    (fun i hi => hindices i (List.mem_append_left _ hi)) ρ).bind_and fun ρ₁ b b' hle₁ hb => ?_
  refine (evalExpr_follows happly trace hkey ρ₁).bind_and fun ρ₂ k k' hle₂ hk => ?_
  have hvw₂ := hvw.mono (le_trans hle₁ hle₂)
  refine Run.Follows.bind (Q := fun ρ' _ _ => Separate dest ρ' τ env env')
    (.attempt _ fun s t f hs hf => ?_) fun ρ₃ _ _ _ => .pure fun _ _ hs => hs
  cases hwrite : assignIndex b k v s with
  | error e =>
    rw [hwrite] at hf
    cases hf
  | ok write =>
    rw [hwrite] at hf
    cases hf
    -- The runs may write different content, and write to `dest` only.
    obtain ⟨write', hwrite', htouch, htouch'⟩ := assignIndex_loose hs.stores hb hk hvw₂ hwrite
    refine ⟨fun t => ((), write' t), by rw [hwrite']; rfl, ?_⟩
    refine hs.touch htouch htouch' ?_ ?_
    · rintro b ⟨c, hbc⟩ ⟨c', hbc'⟩
      exact (hs.apart b c' hbc').1.2 ⟨c, hbc⟩
    · rintro c ⟨b, hbc⟩ ⟨b', hbc'⟩
      exact (hs.apart b' c hbc').2.2 ⟨b, hbc⟩

omit happly in
mutual
/-- An assignment to other variables and to parts of `dest`. -/
theorem assign_follows (happly : ApplyAlike apply) (trace : Trace)
    {ρ : Pairing} {node : Node} {ty? : Option Ty} {v w : Value}
    {env env' : Env} (htarget : Expr.SparesTarget dest ⟨node, ty?⟩) (hvw : v.Paired ρ w) :
    Run.Follows Session.Impartial ρ (Separate dest ρ τ env env')
      (fun ρ' e e' s t => Separate dest ρ' τ e e' s t)
      (assign apply trace ⟨node, ty?⟩ v env) (assign apply trace ⟨node, ty?⟩ w env') := by
  cases node with
  | var name => exact .pure fun _ _ hs => hs.insert htarget hvw
  | tuple targets =>
    cases hvw with
    | tuple h =>
      rw [assign, assign, h.length]
      exact .ite (assignAll_follows happly trace targets htarget h) fun _ _ _ _ _ _ _ hx => by cases hx
    | _ => exact fun _ _ _ _ _ _ _ hx => by cases hx
  | index base key =>
    rcases htarget with hother | ⟨indices, he, hindices⟩
    · refine (follows_of_alike fun henv => assignPart_alike happly trace (hother.child (.head _))
        (hother.child (.tail _ (.head _))) hvw henv).mono fun ρ' e e' _ _ _ hs => ?_
      rw [hs.2.1, hs.2.2]
      exact hs.1
    · exact assignPart_follows happly trace he hindices hvw
  | _ => exact .throw _
termination_by sizeOf node

theorem assignAll_follows (happly : ApplyAlike apply) (trace : Trace) :
    ∀ {ρ : Pairing} {as bs : List Value} {env env' : Env}
      (targets : List Expr), Expr.AllSpareTarget dest targets → PairedAll ρ as bs →
      Run.Follows Session.Impartial ρ (Separate dest ρ τ env env')
        (fun ρ' e e' s t => Separate dest ρ' τ e e' s t)
        (assignAll apply trace targets as env) (assignAll apply trace targets bs env')
  | _, _, _, _, _, [], _, _ => .pure fun _ _ hs => hs
  | _, _, _, _, _, _ :: _, _, .nil => .pure fun _ _ hs => hs
  | _, _, _, _, _, ⟨node, ty?⟩ :: targets, htargets, .cons hvw hab => by
    rw [assignAll, assignAll]
    exact (assign_follows happly trace htargets.1 hvw).bind fun ρ₁ _ _ hle₁ =>
      assignAll_follows happly trace targets htargets.2 (hab.mono hle₁)
termination_by _ _ _ _ _ targets => sizeOf targets
end

theorem evalCond_follows {cond : Expr} (hcond : cond.ReadsOnly (· ≠ dest)) (ρ : Pairing) :
    Run.Follows Session.Impartial ρ (Separate dest ρ τ env env')
      (fun ρ' a b s t => Separate dest ρ' τ env env' s t ∧ b = a)
      (evalCond apply trace cond env) (evalCond apply trace cond env') :=
  follows_of_alike fun henv => evalCond_alike happly trace cond hcond henv

theorem bindMerge_follows (side : Phi → Expr) {merge : List Phi}
    (hnames : ∀ phi ∈ merge, phi.name ≠ dest)
    (hmerge : ∀ phi ∈ merge, (side phi).ReadsOnly (· ≠ dest)) (ρ : Pairing) :
    Run.Follows Session.Impartial ρ (Separate dest ρ τ env env')
      (fun ρ' e e' s t => Separate dest ρ' τ e e' s t)
      (bindMerge apply trace side merge env) (bindMerge apply trace side merge env') := by
  refine (follows_of_alike fun henv => evalSides_alike happly trace side merge hmerge henv).bind_and
    fun ρ₁ as bs _ hab => .pure fun _ _ hs => hs.insertAll (fun name hname => ?_) hab
  obtain ⟨phi, hphi, rfl⟩ := List.mem_map.1 hname
  exact hnames phi hphi

end

/-! ## Statements -/

/-- Control leaves both runs in the same way, with separate storage or with paired results. -/
inductive FlowSeparate (dest : String) (ρ : Pairing) (s t : Store) : Flow → Flow → Prop
  | next {τ : Pairing} {env env' : Env} (h : Separate dest ρ τ env env' s t) :
    FlowSeparate dest ρ s t (.next env) (.next env')
  | ret {v w : Value} (stores : ρ.Matches s t) (h : v.Paired ρ w) :
    FlowSeparate dest ρ s t (.ret v) (.ret w)

/-- The second computation follows the first from separate storage to separate storage. -/
def FollowsApart (dest : String) (x y : Env → Eval Flow) : Prop :=
  ∀ ρ τ env env', Run.Follows Session.Impartial ρ (Separate dest ρ τ env env')
    (fun ρ' flow flow' s t => FlowSeparate dest ρ' s t flow flow') (x env) (y env')

variable {x x' y y' : Env → Eval Flow} {trace : Trace} {fuel : Nat}

/-- What follows a statement unless it has returned. -/
theorem FollowsApart.andThen (h : FollowsApart dest x y)
    (h' : FollowsApart dest x' y') :
    FollowsApart dest (fun env => do (← x env).andThen x')
      (fun env => do (← y env).andThen y') := by
  refine fun ρ τ env env' => (h ρ τ env env').bind fun ρ₁ flow flow' _ => .of_pre fun s t hs => ?_
  cases hs with
  | ret hs hvw =>
    refine .pure ?_
    rintro _ _ ⟨rfl, rfl⟩
    exact .ret hs hvw
  | next hs =>
    intro s' t' c a σ hst
    obtain ⟨rfl, rfl⟩ := hst
    exact h' ρ₁ _ _ _ s' t' c a σ hs

theorem runLoop_followsApart {test test' : Env → Eval Bool} {pass pass' : Env → Eval Flow}
    (htest : ∀ ρ τ env env', Run.Follows Session.Impartial ρ (Separate dest ρ τ env env')
      (fun ρ' a b s t => Separate dest ρ' τ env env' s t ∧ b = a) (test env) (test' env'))
    (hpass : FollowsApart dest pass pass') (fuel : Nat) :
    FollowsApart dest (runLoop test pass fuel) (runLoop test' pass' fuel) := by
  induction fuel with
  | zero => exact fun _ _ _ _ => .throw _
  | succ fuel ih =>
    intro ρ τ env env'
    rw [runLoop, runLoop]
    refine (htest ρ τ env env').bind_and fun ρ₁ a b _ heq => ?_
    rw [heq]
    exact .ite (hpass.andThen ih ρ₁ τ env env') (.pure fun _ _ hs => .next hs)

section
variable (happly : ApplyAlike apply) {cond : Expr} {onTrue onTrue' onFalse onFalse' body body' : Block}
  {merge : List Phi}
include happly

theorem assign_followsApart {target value : Expr}
    (h : (Stmt.assign target value).Owns dest) :
    FollowsApart dest (runStmt apply trace fuel (.assign target value))
      (runStmt apply trace fuel (.assign target value)) := by
  intro ρ τ env env'
  rw [runStmt, runStmt]
  obtain ⟨hvalue, htarget | ⟨hdest, hnew⟩⟩ := h
  · refine (evalExpr_follows happly trace hvalue ρ).bind_and fun ρ₁ v w _ hvw => ?_
    obtain ⟨node, ty?⟩ := target
    exact (assign_follows happly trace htarget hvw).bind fun ρ₂ _ _ _ => .pure fun _ _ hs => .next hs
  · obtain ⟨ty?, rfl⟩ := Expr.eq_of_var?_eq_some hdest
    refine .of_pre fun s t hs => ?_
    refine .of_alike (τ := ρ) (R := fun ρ' flow flow' => ∃ v w, v.PairedAnew ρ ρ' w
      ∧ flow = .next (env.insert dest v) ∧ flow' = .next (env'.insert dest w)) ?_ ?_ ?_
    · exact (evalExpr_anew happly trace hnew hvalue hs.others).bind fun ρ₁ v w _ hvw =>
        .pure ⟨v, w, hvw, rfl, rfl⟩
    · rintro _ _ ⟨rfl, rfl⟩
      exact hs.stores
    · rintro _ _ ρ' s' t' _ _ ⟨rfl, rfl⟩ hρ ⟨v, w, hvw, rfl, rfl⟩
      exact ⟨ρ, le_refl ρ, .next (hs.insert_own hρ hvw)⟩

theorem ret_followsApart {value : Expr} (h : (Stmt.ret value).Owns dest) :
    FollowsApart dest (runStmt apply trace fuel (.ret value))
      (runStmt apply trace fuel (.ret value)) := by
  intro ρ τ env env'
  rw [runStmt, runStmt]
  exact (evalExpr_follows happly trace h ρ).bind_and fun ρ₁ v w _ hvw =>
    .pure fun _ _ hs => .ret hs.stores hvw

/-- Merging after a block that is followed. -/
theorem merge_followsApart (side : Phi → Expr) (hmerge : ∀ phi ∈ merge, phi.Within (· ≠ dest))
    (hside : ∀ phi ∈ merge, (side phi).ReadsOnly (· ≠ dest)) :
    FollowsApart dest (fun env => do return .next (← bindMerge apply trace side merge env))
      (fun env => do return .next (← bindMerge apply trace side merge env)) :=
  fun ρ _ _ _ => (bindMerge_follows happly trace side (fun phi h => (hmerge phi h).name) hside ρ).bind
    fun _ _ _ _ => .pure fun _ _ hs => .next hs

theorem branch_followsApart (hcond : cond.ReadsOnly (· ≠ dest))
    (hmerge : ∀ phi ∈ merge, phi.Within (· ≠ dest))
    (htrue : FollowsApart dest (runBlock apply trace fuel onTrue)
      (runBlock apply trace fuel onTrue'))
    (hfalse : FollowsApart dest (runBlock apply trace fuel onFalse)
      (runBlock apply trace fuel onFalse')) :
    FollowsApart dest (runStmt apply trace fuel (.branch cond onTrue onFalse merge))
      (runStmt apply trace fuel (.branch cond onTrue' onFalse' merge)) := by
  intro ρ τ env env'
  rw [runStmt, runStmt]
  refine (evalCond_follows happly trace hcond ρ).bind_and fun ρ₁ a b _ heq => ?_
  rw [heq]
  have hleft : FollowsApart dest
      (fun env => do return .next (← bindMerge apply trace Phi.left merge env)) _ :=
    merge_followsApart happly Phi.left hmerge fun phi h => (hmerge phi h).left
  have hright : FollowsApart dest
      (fun env => do return .next (← bindMerge apply trace Phi.right merge env)) _ :=
    merge_followsApart happly Phi.right hmerge fun phi h => (hmerge phi h).right
  exact .ite (htrue.andThen hleft ρ₁ τ env env') (hfalse.andThen hright ρ₁ τ env env')

theorem loop_followsApart (hcond : cond.ReadsOnly (· ≠ dest))
    (hmerge : ∀ phi ∈ merge, phi.Within (· ≠ dest))
    (hbody : FollowsApart dest (runBlock apply trace fuel body)
      (runBlock apply trace fuel body')) :
    FollowsApart dest (runStmt apply trace fuel (.loop cond body merge))
      (runStmt apply trace fuel (.loop cond body' merge)) := by
  intro ρ τ env env'
  rw [runStmt, runStmt]
  refine (bindMerge_follows happly trace Phi.left (fun phi h => (hmerge phi h).name)
    (fun phi h => (hmerge phi h).left) ρ).bind fun ρ₁ e e' _ => ?_
  have hright : FollowsApart dest
      (fun env => do return .next (← bindMerge apply trace Phi.right merge env)) _ :=
    merge_followsApart happly Phi.right hmerge fun phi h => (hmerge phi h).right
  exact runLoop_followsApart (fun ρ τ env env' => evalCond_follows happly trace hcond ρ)
    (hbody.andThen hright) fuel ρ₁ τ e e'

omit happly in
theorem cons_followsApart {s s' : Stmt} {ss ss' : Block}
    (h : FollowsApart dest (runStmt apply trace fuel s) (runStmt apply trace fuel s'))
    (h' : FollowsApart dest (runBlock apply trace fuel ss)
      (runBlock apply trace fuel ss')) :
    FollowsApart dest (runBlock apply trace fuel (s :: ss))
      (runBlock apply trace fuel (s' :: ss')) := by
  intro ρ τ env env'
  rw [runBlock, runBlock]
  exact h.andThen h' ρ τ env env'

end

mutual
/-- Code that owns `dest` keeps its storage separate. -/
theorem runStmt_followsApart (happly : ApplyAlike apply) : ∀ s : Stmt, s.Owns dest →
    FollowsApart dest (runStmt apply trace fuel s) (runStmt apply trace fuel s)
  | .assign _ _, hs => assign_followsApart happly hs
  | .ret _, hs => ret_followsApart happly hs
  | .branch _ onTrue onFalse _, hs =>
    branch_followsApart happly hs.1 hs.2.2.2 (runBlock_followsApart happly onTrue hs.2.1)
      (runBlock_followsApart happly onFalse hs.2.2.1)
  | .loop _ body _, hs =>
    loop_followsApart happly hs.1 hs.2.2 (runBlock_followsApart happly body hs.2.1)
termination_by structural s => s

theorem runBlock_followsApart (happly : ApplyAlike apply) : ∀ ss : List Stmt, Stmt.AllOwn dest ss →
    FollowsApart dest (runBlock apply trace fuel ss) (runBlock apply trace fuel ss)
  | [], _ => fun _ _ _ _ => .pure fun _ _ hs => .next hs
  | s :: ss, hs => cons_followsApart (runStmt_followsApart happly s hs.1)
    (runBlock_followsApart happly ss hs.2)
termination_by structural ss => ss
end

end Interpreter
end ArrayLang
