import ArrayLang.Proofs.Interpreter.Along
import ArrayLang.Proofs.Interpreter.Sequence
import ArrayLang.Proofs.Interpreter.Sources

/-!
# A write that is made earlier

In `src = e; mid; a[i] = src` the write may be made before `mid`, if nothing else uses `src`. It reads
and changes the storage of `src` and of the variables of its target only, and `mid` that of the
variables it names. Where the two are separate, and `mid` neither returns nor binds the variables of the
target, each finds its own storage as it was, whichever comes first.
-/

namespace ArrayLang

open Pairing Value

variable {p q : String → Prop} {ρ : Pairing} {env env' : Env}

/-! ## Storage of variables -/

/-- Some variable that satisfies `p` reaches the block. -/
def Env.ReachedFrom (env : Env) (p : String → Prop) (b : Nat) : Prop :=
  ∃ x, p x ∧ env.Reaches x b

/-- No block is reached both from a variable that satisfies `p` and from one that satisfies `q`. -/
def Env.Apart (p q : String → Prop) (env : Env) : Prop :=
  ∀ b, env.ReachedFrom p b → ¬env.ReachedFrom q b

/-- For variables to stand for each other only the pairs of blocks they reach matter. -/
theorem EnvPaired.on {p' : String → Prop} (h : EnvPaired ρ p env env') (hq : ∀ x, q x → p x)
    (hp' : ∀ x, q x → p' x) : EnvPaired (ρ.on (env.ReachedFrom p')) q env env' := by
  intro x hx
  rcases Option.none_or_some_of_rel (h x (hq x hx)) with ⟨hv, hw⟩ | ⟨v, w, hv, hw, hvw⟩
  · rw [hv, hw]
    exact .none
  · rw [hv, hw]
    exact .some (hvw.on fun b hb => ⟨x, hp' x hx, v, hv, hb⟩)

namespace Interpreter

section
variable {apply : Apply} (happly : ApplyAlike apply) {trace : Trace} {fuel : Nat} {src : String}
  {mid post : Block} {base key made : Expr} {ty? srcTy? srcTy?' : Option Ty}
include happly

/-- Let `mid` run and then the value of `src` be copied, where what `mid` names and what the copy names
reach no common block. In a second store the value can be written first, and then `mid` can run; and all
that was paired is paired again. -/
theorem exec_moved {env₁ : Env} {s s₁ s₂ t : Store} {c : Session} {flow : Flow} {v w : Value}
    (hmid : Stmt.AllWithin p mid) (hpass : mid.Everywhere (Stmt.Passes q)) (hbase : base.ReadsOnly q)
    (hkey : key.ReadsOnly q) (hp : ∀ x, p x → x ≠ src) (hq : ∀ x, q x → x ≠ src)
    (henv : EnvPaired ρ (· ≠ src) env env') (hfind : env.find? src = some v) (hvw : v.Paired ρ w)
    (hapart : env.Apart p fun x => q x ∨ x = src) (hs : ρ.Matches s t) (hc : c.Impartial)
    (hrun : Run.exec (runBlock apply trace fuel mid env) ⟨s, c⟩ = (.ok (.next env₁), ⟨s₁, c⟩))
    (hcopy : Run.exec (runStmt apply trace fuel (.assign ⟨.index base key, ty?⟩ ⟨.var src, srcTy?⟩)
      env₁) ⟨s₁, c⟩ = (.ok flow, ⟨s₂, c⟩)) :
    flow = .next env₁ ∧ ∃ ρ' t₁ t₂ env₁',
      Run.exec (assign apply trace ⟨.index base key, ty?⟩ w env') ⟨t, c⟩ = (.ok env', ⟨t₁, c⟩)
        ∧ Run.exec (runBlock apply trace fuel mid env') ⟨t₁, c⟩ = (.ok (.next env₁'), ⟨t₂, c⟩)
        ∧ ρ ≤ ρ' ∧ ρ'.Matches s₂ t₂ ∧ EnvPaired ρ' (· ≠ src) env₁ env₁' := by
  -- The storage of `mid`, and that of the write.
  let α := ρ.on (env.ReachedFrom p)
  let τ := ρ.on (env.ReachedFrom fun x => q x ∨ x = src)
  have hα : α ≤ ρ := fun _ _ => And.left
  have hτ : τ ≤ ρ := fun _ _ => And.left
  have hleft (b : Nat) : α.Left b → ¬τ.Left b := fun ⟨_, hb⟩ ⟨_, hb'⟩ => hapart b hb.2 hb'.2
  have hright (c : Nat) : τ.Right c → ¬α.Right c := fun ⟨b, hb⟩ ⟨b', hb'⟩ =>
    hapart b (hs.left hb.1 hb'.1 ▸ hb'.2) hb.2
  have hmidAlike (t : Store) (ht : α.Matches s t) :=
    (runBlock_alike happly trace fuel mid hmid (.refl (henv.on hp fun _ => id))).succeeds ht hc hrun
  -- In the first store `mid` leaves the storage of the write and its variables alone.
  obtain ⟨_, _, _, -, hmids, -, hflow⟩ := hmidAlike t (hs.mono hα)
  have hwritten : τ.Matches s₁ t := (hs.mono hτ).of_touches hmids.left (.refl (fun _ => False) t)
    (fun b hb hb' => hleft b hb' hb) fun _ _ => id
  have hbound : EnvPaired τ q env₁ env' := by
    obtain ⟨_, heq, hkept⟩ := runBlock_goesOn apply trace fuel mid hpass env ⟨s, c⟩ _ _ trivial hrun
    cases heq
    intro x hx
    rw [← hkept x hx]
    exact henv.on hq (fun _ => .inl) x hx
  have hsrc : env₁.find? src = some v := by
    cases hflow with
    | next h => exact (h.left src fun h => hp src h rfl).trans hfind
  have hvalue : v.Paired τ w := hvw.on fun b hb => ⟨src, .inr rfl, v, hfind, hb⟩
  -- So the write does the same from the second store as it is at first.
  obtain ⟨_, _, env₂, hread, hwrite, rfl⟩ := exec_runStmt_assign.1 hcopy
  rw [exec_var hsrc] at hread
  cases hread
  obtain rfl := exec_assign_index hwrite
  obtain ⟨τ', _, t₁, hwrite', hwrites, -, -, rfl⟩ :=
    (assignPart_alike happly trace hbase hkey hvalue hbound).succeeds hwritten hc hwrite
  -- And from there, `mid` does what it does in the first store.
  have hready : α.Matches s t₁ := (hs.mono hα).of_touches (.refl (fun _ => False) s) hwrites.right
    (fun _ _ => id) fun c hc hc' => hright c hc' hc
  obtain ⟨α', _, t₂, hrun', hmids', -, hflow'⟩ := hmidAlike t₁ hready
  cases hflow' with
  | next h =>
    have hle : ρ ≤ α'.union (ρ.without α) := fun b c hb =>
      (Classical.em (α b c)).imp (hmids'.le b c) fun hnot => ⟨hb, hnot⟩
    refine ⟨rfl, _, t₁, t₂, _, hwrite', hrun', hle, hs.interchange hα hτ hleft hmids' hwrites, ?_⟩
    intro x hx
    by_cases hpx : p x
    · exact h.paired.mono (fun _ _ => .inl) x hpx
    · rw [h.left x hpx, h.right x hpx]
      exact henv.mono hle x hx

/-- The session at a point is `c`, and what variables with `p` reach there is apart from what variables
with `q` reach. -/
def KeepsApart (c : Session) (p q : String → Prop) : AtPoint :=
  fun _ env σ => σ.context = c ∧ env.Apart p q

/-- The value can be written before `mid`, where the session stays the same. -/
theorem moved_followsAlong {c₀ : Session} (hmid : Stmt.AllWithin p mid)
    (hpass : mid.Everywhere (Stmt.Passes q)) (hbase : base.ReadsOnly q) (hkey : key.ReadsOnly q)
    (hp : ∀ x, p x → x ≠ src) (hq : ∀ x, q x → x ≠ src) (hmade : made.ReadsOnly (· ≠ src))
    (hpost : Stmt.AllWithin (· ≠ src) post) :
    let slot : Expr := ⟨.index base key, ty?⟩
    let ss := .assign ⟨.var src, srcTy?⟩ made :: (mid ++ .assign slot ⟨.var src, srcTy?'⟩ :: post)
    FollowsAlong (KeepsApart c₀ p fun x => q x ∨ x = src) (· ≠ src) (blockWalk apply trace fuel ss)
      (runBlock apply trace fuel ss) (runBlock apply trace fuel (.assign slot made :: (mid ++ post))) := by
  intro slot ss ρ env env' s t c flow σ henv hs hc hw hx
  -- In the first run the value is made, then `mid` runs, and then the value is copied.
  obtain ⟨-, hw₁⟩ := hw
  obtain ⟨_, ⟨s₁, c₁⟩, hfirst, -⟩ := Run.exec_bind_eq_ok hx
  obtain ⟨v, _, _, hv, hbind, rfl⟩ := exec_runStmt_assign.1 hfirst
  cases hbind
  rw [exec_runBlock_cons hfirst, runBlock_append] at hx
  obtain ⟨_, ⟨s₂, c₂⟩, hrun, hx⟩ := Run.exec_bind_eq_ok hx
  obtain ⟨env₂, rfl, -⟩ := runBlock_goesOn apply trace fuel mid hpass _ _ _ _ trivial hrun
  obtain ⟨_, ⟨s₃, c₃⟩, hcopy, hx⟩ := Run.exec_bind_eq_ok hx
  obtain ⟨_, _, env₃, -, hwrite, rfl⟩ := exec_runStmt_assign.1 hcopy
  -- There are points before and after `mid` and after the copy.
  have hw₁ := hw₁ _ _ hfirst
  have hw₂ := blockWalk_append hw₁ hrun
  obtain ⟨_, hc₁, hapart⟩ := blockWalk_start hw₁
  obtain ⟨_, hc₂, -⟩ := blockWalk_start hw₂
  have hw₃ := hw₂.2 _ _ hcopy
  obtain ⟨_, hc₃, -⟩ := blockWalk_start hw₃
  obtain rfl : c₁ = c₀ := hc₁
  obtain rfl : c₂ = c₁ := hc₂
  obtain rfl : c₃ = c₂ := hc₃
  -- In the second run the value is made and written, then `mid` runs, and then what follows the copy.
  obtain ⟨ρ₁, w, t₁, hv', hmakes, hc₁, hvw⟩ :=
    (evalExpr_alike happly trace made hmade henv).succeeds hs hc hv
  have henv₁ : EnvPaired ρ₁ (· ≠ src) (env.insert src v) env' := by
    intro x hx
    rw [NameMap.find?_insert, if_neg hx]
    exact henv.mono hmakes.le x hx
  have hfind : (env.insert src v).find? src = some v := by
    rw [NameMap.find?_insert, if_pos rfl]
  obtain ⟨heq, ρ₂, t₂, t₃, env₂', hwrite', hrun', hle₂, hs₂, henv₂⟩ := exec_moved happly hmid hpass
    hbase hkey hp hq henv₁ hfind hvw hapart hmakes.stores hc₁ hrun hcopy
  cases heq
  obtain ⟨hc₃, ρ₃, flow', t₄, hpost', hle₃, hs₃, hflow⟩ :=
    runBlock_followsAlong happly hpost _ ρ₂ env₂ env₂' s₃ t₃ _ flow σ henv₂ hs₂ hc₁ hw₃ hx
  have hall := le_trans hmakes.le (le_trans hle₂ hle₃)
  refine ⟨hc₃, ρ₃, flow', t₄, ?_, hall, hs₃, hflow⟩
  rw [exec_runBlock_cons (exec_runStmt_assign.2 ⟨w, _, _, hv', hwrite', rfl⟩), exec_runBlock_after hrun']
  exact hpost'

end
end Interpreter
end ArrayLang
