import ArrayLang.Proofs.Interpreter.Reads
import ArrayLang.Proofs.Typing.Callee
import Mathlib.Logic.Function.Iterate

/-!
# Evaluating callees

A specialized callee is a closure whose captured values are taken from copies of the callee. Every copy
is evaluated once, in order, each in the state that the one before leaves. So a callee is evaluated as
often as its value captures values: not at all if it captures none, and its effect is repeated if it
captures several. Only a callee without an effect has the same value and leaves the same state as when
it is evaluated once.

## Main results

- `evalExpr_copies`: the evaluations that a closure of copies is made of.
- `Takes.iterate`: the state after copies of one callee.
- `evalExpr_callee_of_quiet`, `evalExpr_callee_var`: callees without an effect.
-/

namespace ArrayLang.Interpreter

open Run Lower

variable {apply : Apply} {trace : Trace} {env : Env} {σ σ' σ'' : State Session}

/-- Each copy is evaluated once and is a closure. Its captured values `k`, `k + 1` and so on are
taken, one from each. -/
inductive Takes (apply : Apply) (trace : Trace) (env : Env) :
    Nat → List Expr → State Session → List Value → State Session → Prop
  | nil {k : Nat} {σ : State Session} : Takes apply trace env k [] σ [] σ
  | cons {k : Nat} {copy : Expr} {copies : List Expr} {σ σ' σ'' : State Session} {func : FnDef}
    {fixed values : List Value} {value : Value}
    (heval : exec (evalExpr apply trace env copy) σ = (.ok (.closure func fixed), σ'))
    (hvalue : fixed[k]? = some value) (h : Takes apply trace env (k + 1) copies σ' values σ'') :
    Takes apply trace env k (copy :: copies) σ (value :: values) σ''

/-- A captured value is taken from the closure that its expression evaluates to. -/
theorem evalExpr_captured {base : Expr} {i : Nat} {ty? : Option Ty} {value : Value} :
    exec (evalExpr apply trace env ⟨.captured base i, ty?⟩) σ = (.ok value, σ') ↔
      ∃ func fixed, exec (evalExpr apply trace env base) σ = (.ok (.closure func fixed), σ')
        ∧ fixed[i]? = some value := by
  rw [evalExpr]
  constructor
  · intro h
    obtain ⟨v, τ, hbase, h⟩ := exec_bind_eq_ok h
    cases v with
    | closure func fixed =>
      dsimp only at h
      cases hi : fixed[i]? with
      | none =>
        rw [hi] at h
        cases h
      | some item =>
        rw [hi] at h
        cases h
        exact ⟨func, fixed, hbase, hi⟩
    | _ => cases h
  · rintro ⟨func, fixed, hbase, hi⟩
    rw [exec_bind_ok hbase]
    dsimp only
    rw [hi]
    rfl

/-- Evaluating projections evaluates each of their copies once, in order. -/
theorem evalExprs_projections {k : Nat} {copies projections : List Expr} {values : List Value}
    (h : Projections k copies projections) :
    exec (evalExprs apply trace env projections) σ = (.ok values, σ')
      ↔ Takes apply trace env k copies σ values σ' := by
  induction h generalizing σ values with
  | nil =>
    rw [evalExprs]
    constructor
    · intro h
      cases h
      exact .nil
    · intro h
      cases h
      rfl
  | cons _ ih =>
    rw [evalExprs]
    constructor
    · intro h
      obtain ⟨value, τ, hvalue, h⟩ := exec_bind_eq_ok h
      obtain ⟨rest, τ', hrest, h⟩ := exec_bind_eq_ok h
      cases h
      obtain ⟨func, fixed, hcopy, hi⟩ := evalExpr_captured.1 hvalue
      exact .cons hcopy hi (ih.1 hrest)
    · intro h
      cases h with
      | cons heval hvalue hrest =>
        rw [exec_bind_ok (evalExpr_captured.2 ⟨_, _, heval, hvalue⟩), exec_bind_ok (ih.2 hrest)]
        rfl

theorem exec_namedFn {name : String} {func : FnDef} :
    exec (namedFn trace name) σ = (.ok func, σ')
      ↔ namedFn? σ.context name = some func ∧ σ' = σ := by
  have hget : exec (get : Eval (State Session)) σ = (.ok σ, σ) := rfl
  unfold namedFn
  rw [exec_bind_ok hget]
  cases namedFn? σ.context name with
  | none =>
    constructor
    · intro h
      cases h
    · rintro ⟨h, -⟩
      cases h
  | some func' =>
    constructor
    · intro h
      cases h
      exact ⟨rfl, rfl⟩
    · rintro ⟨h, rfl⟩
      cases h
      rfl

/-- A specialized callee has a value exactly when all copies can be evaluated one after the other,
and then captures what is taken from them. -/
theorem evalExpr_copies {func : String} {copies projections : List Expr} {ty? : Option Ty}
    {value : Value} (h : Projections 0 copies projections) :
    exec (evalExpr apply trace env ⟨.closure func projections, ty?⟩) σ = (.ok value, σ')
      ↔ ∃ target fixed, Takes apply trace env 0 copies σ fixed σ'
        ∧ namedFn? σ'.context func = some target ∧ value = .closure target fixed := by
  rw [evalExpr]
  constructor
  · intro hx
    obtain ⟨fixed, τ, hfixed, hx⟩ := exec_bind_eq_ok hx
    obtain ⟨target, τ', htarget, hx⟩ := exec_bind_eq_ok hx
    cases hx
    obtain ⟨hfind, rfl⟩ := exec_namedFn.1 htarget
    exact ⟨target, fixed, (evalExprs_projections h).1 hfixed, hfind, rfl⟩
  · rintro ⟨target, fixed, htakes, hfind, rfl⟩
    rw [exec_bind_ok ((evalExprs_projections h).2 htakes),
      exec_bind_ok (exec_namedFn.2 ⟨hfind, rfl⟩)]
    rfl

/-! ## How often a callee is evaluated -/

/-- The state that evaluating an expression leaves. -/
def effect (apply : Apply) (trace : Trace) (env : Env) (e : Expr) (σ : State Session) :
    State Session :=
  (exec (evalExpr apply trace env e) σ).2

theorem foldl_replicate_effect {callee : Expr} (n : Nat) (σ : State Session) :
    (List.replicate n callee).foldl (fun σ copy => effect apply trace env copy σ) σ
      = (effect apply trace env callee)^[n] σ := by
  induction n generalizing σ with
  | zero => rfl
  | succ n ih =>
    rw [List.replicate_succ, List.foldl_cons, Function.iterate_succ_apply]
    exact ih _

namespace Takes

variable {k : Nat} {copies : List Expr} {values : List Value}

/-- There is one value for each copy. -/
theorem length_eq (h : Takes apply trace env k copies σ values σ') :
    values.length = copies.length := by
  induction h with
  | nil => rfl
  | cons _ _ _ ih => exact congrArg (· + 1) ih

/-- The copies have their effects one after the other. -/
theorem effects (h : Takes apply trace env k copies σ values σ') :
    σ' = copies.foldl (fun σ copy => effect apply trace env copy σ) σ := by
  induction h with
  | nil => rfl
  | cons heval _ _ ih =>
    rw [List.foldl_cons, ih]
    unfold effect
    rw [heval]

/-- Copies of one callee repeat its effect, once for each value that is taken. -/
theorem iterate {callee : Expr} {n : Nat}
    (h : Takes apply trace env k (List.replicate n callee) σ values σ') :
    σ' = (effect apply trace env callee)^[n] σ := by
  rw [h.effects]
  exact foldl_replicate_effect n σ

/-- From copies without an effect the captured values of one closure are taken. -/
theorem of_quiet {func : FnDef} {fixed : List Value}
    (h : ∀ copy ∈ copies, exec (evalExpr apply trace env copy) σ = (.ok (.closure func fixed), σ))
    (hlen : fixed.length = k + copies.length) :
    Takes apply trace env k copies σ (fixed.drop k) σ := by
  induction copies generalizing k with
  | nil =>
    rw [List.drop_of_length_le (by rw [hlen]; exact Nat.le_refl k)]
    exact .nil
  | cons copy copies ih =>
    rw [List.length_cons] at hlen
    -- This copy gives value `k`, and the copies that are left give those after it.
    have hk : k < fixed.length := by omega
    rw [List.forall_mem_cons] at h
    rw [List.drop_eq_getElem_cons hk]
    exact .cons h.1 (List.getElem?_eq_getElem hk) (ih h.2 (by omega))

end Takes

/-! ## Callees without an effect -/

section
variable {callee closure : Expr} {name : String} {types : List Ty} {func : FnDef}
  {fixed : List Value}

/-- A callee that is not written out as a closure and whose copies have no effect captures the same
values as the closure that each of them is, and leaves the state as it was. -/
theorem evalExpr_callee_of_quiet (h : LoweredCallee callee closure)
    (hnode : ∀ name captured, callee.node ≠ .closure name captured)
    (hty : callee.ty? = some (.closure name types)) (hlen : fixed.length = types.length)
    (hquiet : ∀ copy, RebuildOf callee copy →
      exec (evalExpr apply trace env copy) σ = (.ok (.closure func fixed), σ))
    {specialized : String} {values : List Expr} {target : FnDef}
    (hclosure : closure.node = .closure specialized values)
    (hfind : namedFn? σ.context specialized = some target) :
    exec (evalExpr apply trace env closure) σ = (.ok (.closure target fixed), σ) := by
  cases h with
  | literal hliteral => exact absurd hliteral (hnode _ _)
  | copies hty' hlen' hcopies hproj =>
    rw [hty] at hty'
    cases hty'
    cases hclosure
    have htakes : Takes apply trace env 0 _ σ fixed σ :=
      .of_quiet (fun copy hcopy => hquiet copy (hcopies copy hcopy))
        (by rw [hlen, hlen', Nat.zero_add])
    exact (evalExpr_copies hproj).2 ⟨target, fixed, htakes, hfind, rfl⟩

/-- A variable that holds a closure is such a callee. -/
theorem evalExpr_callee_var {x : String}
    (h : LoweredCallee (.typed (.var x) (.closure name types)) closure)
    (hx : env.find? x = some (.closure func fixed)) (hlen : fixed.length = types.length)
    {specialized : String} {values : List Expr} {target : FnDef}
    (hclosure : closure.node = .closure specialized values)
    (hfind : namedFn? σ.context specialized = some target) :
    exec (evalExpr apply trace env closure) σ = (.ok (.closure target fixed), σ) := by
  have hquiet : ∀ copy, RebuildOf (.typed (.var x) (.closure name types)) copy →
      exec (evalExpr apply trace env copy) σ = (.ok (.closure func fixed), σ) := by
    intro copy hcopy
    obtain rfl := hcopy.var
    exact exec_var hx _ σ
  exact evalExpr_callee_of_quiet h nofun rfl hlen hquiet hclosure hfind

end
end ArrayLang.Interpreter
