import ArrayLang.Syntax.Equality

/-!
# Code that differs from itself

Code equals itself exactly when each of its constants does. So only code with a floating-point constant
that is not a number differs from itself.

## Main results

- `Literal.same_self_iff`, `TypedFn.same_self_iff`: which constants and functions equal themselves.
-/

namespace ArrayLang

/-- Only a float can differ from itself. -/
theorem Literal.same_self_iff {l : Literal} :
    l.same l = true ↔ ∀ x, l = .float x → (x == x) = true := by
  cases l with
  | float x =>
    refine ⟨fun h y heq => ?_, fun h => h x rfl⟩
    cases heq
    exact h
  | none => exact iff_of_true rfl nofun
  | bool b => exact iff_of_true (beq_self_eq_true b) nofun
  | int i => exact iff_of_true (beq_self_eq_true i) nofun

theorem sameLists_self {α : Type} {same : α → α → Bool} {as : List α} :
    sameLists same as as = true ↔ ∀ a ∈ as, same a a = true := by
  induction as with
  | nil => exact iff_of_true rfl nofun
  | cons a as ih => rw [sameLists, Bool.and_eq_true, ih, List.forall_mem_cons]

/-- The constants that parameters have as defaults. -/
def Params.constants (p : Params) : List Literal :=
  p.defaults.map (·.2)

theorem Params.same_self_iff {p : Params} :
    p.same p = true ↔ ∀ c ∈ p.constants, c.same c = true := by
  simp only [Params.same, sameLists_self, constants, decide_true, Bool.and_true, Bool.true_and,
    List.forall_mem_map]

/-! ## Constants of code -/

mutual
/-- The constants of an expression, at any depth and in functions written in place. -/
def Expr.constants : Expr → List Literal
  | ⟨node, _⟩ => node.constants
termination_by structural e => e

def Node.constants : Node → List Literal
  | .lit value => [value]
  | .var _ | .opValue _ => []
  | .tuple items | .array items | .op _ items | .call _ items | .closure _ items =>
    Expr.constantsList items
  | .proj base _ | .attr base _ | .captured base _ | .cast base _ | .alloc _ base => base.constants
  | .index base key => base.constants ++ key.constants
  | .slice start stop step => start.constants ++ stop.constants ++ Expr.constantsOption step
  | .invoke callee args => callee.constants ++ Expr.constantsList args
  | .lambda decl => decl.constants
  | .struct _ fields => Expr.constantsFields fields
  | .map func args axis | .allPairs func args axis =>
    func.constants ++ Expr.constantsList args ++ axis.constants
  | .reduce func combine start args axis =>
    func.constants ++ combine.constants ++ Expr.constantsOption start ++ Expr.constantsList args
      ++ axis.constants
  | .scan func combine emit start args axis =>
    func.constants ++ combine.constants ++ emit.constants ++ Expr.constantsOption start
      ++ Expr.constantsList args ++ axis.constants
termination_by structural n => n

def Expr.constantsList : List Expr → List Literal
  | [] => []
  | e :: es => e.constants ++ Expr.constantsList es
termination_by structural es => es

def Expr.constantsOption : Option Expr → List Literal
  | none => []
  | some e => e.constants
termination_by structural e => e

def Expr.constantsFields : List (String × Expr) → List Literal
  | [] => []
  | (_, e) :: fields => e.constants ++ Expr.constantsFields fields
termination_by structural es => es

def Phi.constants : Phi → List Literal
  | ⟨_, left, right⟩ => left.constants ++ right.constants
termination_by structural p => p

def Phi.constantsList : List Phi → List Literal
  | [] => []
  | p :: ps => p.constants ++ Phi.constantsList ps
termination_by structural ps => ps

def Stmt.constants : Stmt → List Literal
  | .assign target value => target.constants ++ value.constants
  | .ret value => value.constants
  | .branch cond onTrue onFalse merge =>
    cond.constants ++ Stmt.constantsList onTrue ++ Stmt.constantsList onFalse
      ++ Phi.constantsList merge
  | .loop cond body merge => cond.constants ++ Stmt.constantsList body ++ Phi.constantsList merge
termination_by structural s => s

def Stmt.constantsList : List Stmt → List Literal
  | [] => []
  | s :: ss => s.constants ++ Stmt.constantsList ss
termination_by structural ss => ss

def FnDecl.constants : FnDecl → List Literal
  | ⟨_, params, _, body⟩ => params.constants ++ Stmt.constantsList body
termination_by structural f => f
end

/-! ## Equality with itself -/

mutual
theorem Expr.same_self_iff : ∀ e : Expr, e.same e = true ↔ ∀ c ∈ e.constants, c.same c = true
  | ⟨node, _⟩ => by
    simp only [Expr.same, Expr.constants, decide_true, Bool.true_and, node.same_self_iff]
termination_by structural e => e

/-- Every form compares its parts in turn, and has the constants of its parts. -/
theorem Node.same_self_iff : ∀ n : Node, n.same n = true ↔ ∀ c ∈ n.constants, c.same c = true
  | .lit value => by simp [Node.same, Node.constants]
  | .var _ | .opValue _ => by simp [Node.same, Node.constants]
  | .tuple items | .array items | .op _ items | .call _ items | .closure _ items => by
    simp [Node.same, Node.constants, Expr.sameList_self_iff items]
  | .proj base _ | .attr base _ | .captured base _ | .cast base _ | .alloc _ base => by
    simp [Node.same, Node.constants, base.same_self_iff]
  | .index base key => by
    simp only [Node.same, Node.constants, Bool.and_eq_true, List.forall_mem_append,
      base.same_self_iff, key.same_self_iff]
  | .slice start stop step => by
    simp only [Node.same, Node.constants, Bool.and_eq_true, List.forall_mem_append,
      start.same_self_iff, stop.same_self_iff, Expr.sameOption_self_iff step]
  | .invoke callee args => by
    simp only [Node.same, Node.constants, Bool.and_eq_true, List.forall_mem_append,
      callee.same_self_iff, Expr.sameList_self_iff args]
  | .lambda decl => by
    rw [Node.same, Node.constants]
    exact decl.same_self_iff
  | .struct _ fields => by
    simp [Node.same, Node.constants, Expr.sameFields_self_iff fields]
  | .map func args axis | .allPairs func args axis => by
    simp only [Node.same, Node.constants, Bool.and_eq_true, List.forall_mem_append,
      func.same_self_iff, Expr.sameList_self_iff args, axis.same_self_iff]
  | .reduce func combine start args axis => by
    simp only [Node.same, Node.constants, Bool.and_eq_true, List.forall_mem_append,
      func.same_self_iff, combine.same_self_iff, Expr.sameOption_self_iff start,
      Expr.sameList_self_iff args, axis.same_self_iff]
  | .scan func combine emit start args axis => by
    simp only [Node.same, Node.constants, Bool.and_eq_true, List.forall_mem_append,
      func.same_self_iff, combine.same_self_iff, emit.same_self_iff,
      Expr.sameOption_self_iff start, Expr.sameList_self_iff args, axis.same_self_iff]
termination_by structural n => n

theorem Expr.sameList_self_iff : ∀ es : List Expr,
    Expr.sameList es es = true ↔ ∀ c ∈ Expr.constantsList es, c.same c = true
  | [] => iff_of_true rfl nofun
  | e :: es => by
    rw [Expr.sameList, Expr.constantsList, Bool.and_eq_true, List.forall_mem_append,
      e.same_self_iff, Expr.sameList_self_iff es]
termination_by structural es => es

theorem Expr.sameOption_self_iff : ∀ e? : Option Expr,
    Expr.sameOption e? e? = true ↔ ∀ c ∈ Expr.constantsOption e?, c.same c = true
  | none => iff_of_true rfl nofun
  | some e => by
    rw [Expr.sameOption, Expr.constantsOption]
    exact e.same_self_iff
termination_by structural e? => e?

theorem Expr.sameFields_self_iff : ∀ fields : List (String × Expr),
    Expr.sameFields fields fields = true ↔ ∀ c ∈ Expr.constantsFields fields, c.same c = true
  | [] => iff_of_true rfl nofun
  | (name, e) :: fields => by
    simp only [Expr.sameFields, Expr.constantsFields, decide_true, Bool.true_and, Bool.and_eq_true,
      List.forall_mem_append, e.same_self_iff, Expr.sameFields_self_iff fields]
termination_by structural fields => fields

theorem Phi.same_self_iff : ∀ p : Phi, p.same p = true ↔ ∀ c ∈ p.constants, c.same c = true
  | ⟨name, left, right⟩ => by
    simp only [Phi.same, Phi.constants, decide_true, Bool.true_and, Bool.and_eq_true,
      List.forall_mem_append, left.same_self_iff, right.same_self_iff]
termination_by structural p => p

theorem Phi.sameList_self_iff : ∀ ps : List Phi,
    Phi.sameList ps ps = true ↔ ∀ c ∈ Phi.constantsList ps, c.same c = true
  | [] => iff_of_true rfl nofun
  | p :: ps => by
    rw [Phi.sameList, Phi.constantsList, Bool.and_eq_true, List.forall_mem_append,
      p.same_self_iff, Phi.sameList_self_iff ps]
termination_by structural ps => ps

theorem Stmt.same_self_iff : ∀ s : Stmt, s.same s = true ↔ ∀ c ∈ s.constants, c.same c = true
  | .assign target value => by
    rw [Stmt.same, Stmt.constants, Bool.and_eq_true, List.forall_mem_append,
      target.same_self_iff, value.same_self_iff]
  | .ret value => by
    rw [Stmt.same, Stmt.constants]
    exact value.same_self_iff
  | .branch cond onTrue onFalse merge => by
    simp only [Stmt.same, Stmt.constants, Bool.and_eq_true, List.forall_mem_append,
      cond.same_self_iff, Stmt.sameList_self_iff onTrue, Stmt.sameList_self_iff onFalse,
      Phi.sameList_self_iff merge]
  | .loop cond body merge => by
    simp only [Stmt.same, Stmt.constants, Bool.and_eq_true, List.forall_mem_append,
      cond.same_self_iff, Stmt.sameList_self_iff body, Phi.sameList_self_iff merge]
termination_by structural s => s

theorem Stmt.sameList_self_iff : ∀ ss : List Stmt,
    Stmt.sameList ss ss = true ↔ ∀ c ∈ Stmt.constantsList ss, c.same c = true
  | [] => iff_of_true rfl nofun
  | s :: ss => by
    rw [Stmt.sameList, Stmt.constantsList, Bool.and_eq_true, List.forall_mem_append,
      s.same_self_iff, Stmt.sameList_self_iff ss]
termination_by structural ss => ss

theorem FnDecl.same_self_iff : ∀ f : FnDecl, f.same f = true ↔ ∀ c ∈ f.constants, c.same c = true
  | ⟨name, params, nonlocals, body⟩ => by
    simp only [FnDecl.same, FnDecl.constants, decide_true, Bool.true_and, Bool.and_true,
      Bool.and_eq_true, List.forall_mem_append, Params.same_self_iff, Stmt.sameList_self_iff body]
termination_by structural f => f
end

/-- A function equals itself exactly when every float among its constants does. -/
theorem TypedFn.same_self_iff {f : TypedFn} :
    f.same f = true ↔ ∀ x, .float x ∈ Stmt.constantsList f.body → (x == x) = true := by
  simp only [TypedFn.same, decide_true, Bool.true_and, Bool.and_true, Stmt.sameList_self_iff,
    Literal.same_self_iff]
  exact ⟨fun h x hx => h _ hx x rfl, fun h c hc x heq => h x (heq ▸ hc)⟩

end ArrayLang
