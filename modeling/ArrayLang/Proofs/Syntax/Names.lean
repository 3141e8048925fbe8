import ArrayLang.Syntax.FreshName
import ArrayLang.Syntax.Traversal

/-!
# Names in source code

All variables that source code names, also inside functions written in place, and why the supply of
fresh names never meets one of them: a fresh name ends in a dot and a number of its own.
-/

namespace ArrayLang

/-! ## The variables of code -/

mutual
/-- The variables that an expression names. -/
def Expr.variables : Expr → List String
  | ⟨.lit _, _⟩ | ⟨.opValue _, _⟩ => []
  | ⟨.var name, _⟩ => [name]
  | ⟨.lambda decl, _⟩ => decl.variables
  | ⟨.tuple items, _⟩ | ⟨.array items, _⟩ | ⟨.op _ items, _⟩ | ⟨.call _ items, _⟩
  | ⟨.closure _ items, _⟩ => Expr.variablesAll items
  | ⟨.proj base _, _⟩ | ⟨.attr base _, _⟩ | ⟨.captured base _, _⟩ | ⟨.cast base _, _⟩
  | ⟨.alloc _ base, _⟩ => base.variables
  | ⟨.index base key, _⟩ => base.variables ++ key.variables
  | ⟨.slice start stop step, _⟩ =>
    start.variables ++ stop.variables ++ Expr.variablesOption step
  | ⟨.invoke callee args, _⟩ => callee.variables ++ Expr.variablesAll args
  | ⟨.struct _ fields, _⟩ => Expr.variablesFields fields
  | ⟨.map func args axis, _⟩ | ⟨.allPairs func args axis, _⟩ =>
    func.variables ++ Expr.variablesAll args ++ axis.variables
  | ⟨.reduce func combine start args axis, _⟩ =>
    func.variables ++ combine.variables ++ Expr.variablesOption start
      ++ Expr.variablesAll args ++ axis.variables
  | ⟨.scan func combine emit start args axis, _⟩ =>
    func.variables ++ combine.variables ++ emit.variables ++ Expr.variablesOption start
      ++ Expr.variablesAll args ++ axis.variables
termination_by structural e => e

def Expr.variablesAll : List Expr → List String
  | [] => []
  | e :: es => e.variables ++ Expr.variablesAll es
termination_by structural es => es

def Expr.variablesOption : Option Expr → List String
  | none => []
  | some e => e.variables
termination_by structural e => e

def Expr.variablesFields : List (String × Expr) → List String
  | [] => []
  | (_, e) :: rest => e.variables ++ Expr.variablesFields rest
termination_by structural es => es

/-- The variables that a reconciled variable and its sides name. -/
def Phi.variables : Phi → List String
  | ⟨name, left, right⟩ => name :: (left.variables ++ right.variables)
termination_by structural phi => phi

def Phi.variablesAll : List Phi → List String
  | [] => []
  | phi :: phis => phi.variables ++ Phi.variablesAll phis
termination_by structural phis => phis

/-- The variables that a statement names. -/
def Stmt.variables : Stmt → List String
  | .assign target value => target.variables ++ value.variables
  | .ret value => value.variables
  | .branch cond onTrue onFalse merge =>
    cond.variables ++ Stmt.variablesAll onTrue ++ Stmt.variablesAll onFalse
      ++ Phi.variablesAll merge
  | .loop cond body merge => cond.variables ++ Stmt.variablesAll body ++ Phi.variablesAll merge
termination_by structural s => s

def Stmt.variablesAll : List Stmt → List String
  | [] => []
  | s :: ss => s.variables ++ Stmt.variablesAll ss
termination_by structural ss => ss

/-- The variables that a source function names, its parameters among them. -/
def FnDecl.variables : FnDecl → List String
  | ⟨_, params, nonlocals, body⟩ => nonlocals ++ params.names ++ Stmt.variablesAll body
termination_by structural decl => decl
end

/-- Every variable that the function names satisfies `q`. -/
def FnDecl.Names (q : String → Prop) (decl : FnDecl) : Prop :=
  ∀ name ∈ decl.variables, q name

namespace FnDecl.Names

variable {q : String → Prop} {decl : FnDecl}

theorem bound (h : decl.Names q) : ∀ name ∈ decl.nonlocals ++ decl.params.names, q name := by
  obtain ⟨name, params, nonlocals, body⟩ := decl
  intro x hx
  refine h x ?_
  rw [FnDecl.variables]
  exact List.mem_append_left _ hx

theorem body (h : decl.Names q) : ∀ name ∈ Stmt.variablesAll decl.body, q name := by
  obtain ⟨name, params, nonlocals, body⟩ := decl
  intro x hx
  refine h x ?_
  rw [FnDecl.variables]
  exact List.mem_append_right _ hx

end FnDecl.Names

theorem Phi.forall_variablesAll {q : String → Prop} {phis : List Phi} :
    (∀ name ∈ Phi.variablesAll phis, q name)
      ↔ ∀ phi ∈ phis, q phi.name ∧ (∀ name ∈ phi.left.variables, q name)
        ∧ ∀ name ∈ phi.right.variables, q name := by
  induction phis with
  | nil => simp [Phi.variablesAll]
  | cons phi phis ih =>
    obtain ⟨name, left, right⟩ := phi
    simp only [Phi.variablesAll, Phi.variables, List.forall_mem_append, List.forall_mem_cons, ih]

/-! ## Fresh names -/

/-- The name holds no dot, like every name of source code. -/
def Dotless (name : String) : Prop :=
  '.' ∉ name.toList

instance : DecidablePred Dotless :=
  fun name => inferInstanceAs (Decidable ('.' ∉ name.toList))

namespace NameSupply

/-- The name holds no dot or was given out by the supply. -/
def Covers (names : NameSupply) (name : String) : Prop :=
  Dotless name ∨ ∃ base k, k < names.next ∧ name = base ++ "." ++ toString k

theorem toList_toString (k : Nat) : (toString k).toList = Nat.toDigits 10 k := by
  show (Nat.repr k).toList = _
  unfold Nat.repr
  exact String.toList_ofList

theorem not_dot_mem_toString (k : Nat) : '.' ∉ (toString k).toList := by
  rw [toList_toString]
  intro h
  have hdigit : ('.' : Char).isDigit = true :=
    Nat.isDigit_of_mem_toDigits (by decide) (by decide) h
  exact absurd hdigit (by decide)

theorem toString_inj {k l : Nat} (h : (toString k).toList = (toString l).toList) : k = l := by
  rw [toList_toString, toList_toString] at h
  rw [← Nat.ofDigitChars_toDigits (n := k) (b := 10) (by decide) (by decide), h]
  exact Nat.ofDigitChars_toDigits (by decide) (by decide)

/-- What follows the last dot of a text is determined by the text. -/
theorem eq_of_append_dot_eq {a b x y : List Char} (hx : '.' ∉ x) (hy : '.' ∉ y)
    (h : a ++ '.' :: x = b ++ '.' :: y) : x = y := by
  induction a generalizing b with
  | nil =>
    cases b with
    | nil => exact (List.cons.inj h).2
    | cons c b =>
      obtain ⟨-, rfl⟩ := List.cons.inj h
      exact absurd (List.mem_append_right b List.mem_cons_self) hx
  | cons d a ih =>
    cases b with
    | nil =>
      obtain ⟨-, rfl⟩ := List.cons.inj h
      exact absurd (List.mem_append_right a List.mem_cons_self) hy
    | cons c b => exact ih (List.cons.inj h).2

/-- A fresh name is not covered by the supply that gives it out. -/
theorem not_covers_fresh (names : NameSupply) (base : String) :
    ¬names.Covers (names.fresh base).1 := by
  have htext (b : String) (k : Nat) :
      (b ++ "." ++ toString k).toList = b.toList ++ '.' :: (toString k).toList := by
    rw [String.toList_append, String.toList_append, List.append_assoc]
    rfl
  show ¬names.Covers (base ++ "." ++ toString names.next)
  rintro (hdot | ⟨b, k, hk, heq⟩)
  · refine hdot ?_
    rw [htext]
    exact List.mem_append_right _ List.mem_cons_self
  · have hlist := congrArg String.toList heq
    rw [htext, htext] at hlist
    have hdigits := eq_of_append_dot_eq (not_dot_mem_toString _) (not_dot_mem_toString _) hlist
    have hnext : names.next = k := toString_inj hdigits
    omega

theorem Covers.fresh {names : NameSupply} {name : String} (base : String)
    (h : names.Covers name) : (names.fresh base).2.Covers name := by
  obtain hdot | ⟨b, k, hk, heq⟩ := h
  · exact .inl hdot
  · exact .inr ⟨b, k, Nat.lt_succ_of_lt hk, heq⟩

theorem covers_fresh (names : NameSupply) (base : String) :
    (names.fresh base).2.Covers (names.fresh base).1 :=
  .inr ⟨base, names.next, Nat.lt_succ_self _, rfl⟩

end NameSupply
end ArrayLang
