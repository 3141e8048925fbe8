import ArrayLang.Syntax.Basic

/-!
# Equality of code

A structural comparison of code that compares floating-point constants as numbers: zeros of both
signs are the same constant, and a constant that is not a number differs from itself.
-/

namespace ArrayLang

/-- Whether two constants are equal, floats as numbers. -/
def Literal.same : Literal → Literal → Bool
  | .none, .none => true
  | .bool a, .bool b => a == b
  | .int a, .int b => a == b
  | .float a, .float b => a == b
  | _, _ => false

/-- Whether two lists have one length and agree position by position. -/
def sameLists {α : Type} (same : α → α → Bool) : List α → List α → Bool
  | [], [] => true
  | a :: as, b :: bs => same a b && sameLists same as bs
  | _, _ => false

/-- Whether two functions have the same parameters and defaults. -/
def Params.same (p q : Params) : Bool :=
  p.positional = q.positional
    && sameLists (fun a b => a.1 = b.1 && a.2.same b.2) p.defaults q.defaults
    && p.rest? = q.rest?

mutual
def Expr.same : Expr → Expr → Bool
  | ⟨m, s⟩, ⟨n, t⟩ => s = t && m.same n
termination_by structural e => e

def Node.same : Node → Node → Bool
  | .lit a, .lit b => a.same b
  | .var x, .var y => x = y
  | .tuple as, .tuple bs => Expr.sameList as bs
  | .proj a i, .proj b j => a.same b && i = j
  | .array as, .array bs => Expr.sameList as bs
  | .index a b, .index a' b' => a.same a' && b.same b'
  | .slice a b c, .slice a' b' c' => a.same a' && b.same b' && Expr.sameOption c c'
  | .attr a x, .attr b y => a.same b && x = y
  | .op p as, .op q bs => p = q && Expr.sameList as bs
  | .opValue p, .opValue q => p = q
  | .call f as, .call g bs => f = g && Expr.sameList as bs
  | .invoke a as, .invoke b bs => a.same b && Expr.sameList as bs
  | .closure f as, .closure g bs => f = g && Expr.sameList as bs
  | .captured a i, .captured b j => a.same b && i = j
  | .lambda f, .lambda g => f.same g
  | .cast a s, .cast b t => a.same b && s = t
  | .struct x fs, .struct y gs => x = y && Expr.sameFields fs gs
  | .alloc s a, .alloc t b => s = t && a.same b
  | .map a as x, .map b bs y => a.same b && Expr.sameList as bs && x.same y
  | .allPairs a as x, .allPairs b bs y => a.same b && Expr.sameList as bs && x.same y
  | .reduce a b c as x, .reduce a' b' c' bs y =>
    a.same a' && b.same b' && Expr.sameOption c c' && Expr.sameList as bs && x.same y
  | .scan a b c d as x, .scan a' b' c' d' bs y =>
    a.same a' && b.same b' && c.same c' && Expr.sameOption d d' && Expr.sameList as bs
      && x.same y
  | _, _ => false
termination_by structural n => n

def Expr.sameList : List Expr → List Expr → Bool
  | [], [] => true
  | a :: as, b :: bs => a.same b && Expr.sameList as bs
  | _, _ => false
termination_by structural es => es

def Expr.sameOption : Option Expr → Option Expr → Bool
  | none, none => true
  | some a, some b => a.same b
  | _, _ => false
termination_by structural e => e

def Expr.sameFields : List (String × Expr) → List (String × Expr) → Bool
  | [], [] => true
  | (x, a) :: as, (y, b) :: bs => x = y && a.same b && Expr.sameFields as bs
  | _, _ => false
termination_by structural es => es

def Phi.same : Phi → Phi → Bool
  | ⟨x, a, b⟩, ⟨y, a', b'⟩ => x = y && a.same a' && b.same b'
termination_by structural p => p

def Phi.sameList : List Phi → List Phi → Bool
  | [], [] => true
  | p :: ps, q :: qs => p.same q && Phi.sameList ps qs
  | _, _ => false
termination_by structural ps => ps

def Stmt.same : Stmt → Stmt → Bool
  | .assign a b, .assign a' b' => a.same a' && b.same b'
  | .ret a, .ret b => a.same b
  | .branch c s t m, .branch c' s' t' m' =>
    c.same c' && Stmt.sameList s s' && Stmt.sameList t t' && Phi.sameList m m'
  | .loop c s m, .loop c' s' m' => c.same c' && Stmt.sameList s s' && Phi.sameList m m'
  | _, _ => false
termination_by structural s => s

def Stmt.sameList : List Stmt → List Stmt → Bool
  | [], [] => true
  | s :: ss, t :: ts => s.same t && Stmt.sameList ss ts
  | _, _ => false
termination_by structural ss => ss

def FnDecl.same : FnDecl → FnDecl → Bool
  | ⟨f, p, ns, body⟩, ⟨g, q, ms, body'⟩ =>
    f = g && p.same q && ns = ms && Stmt.sameList body body'
termination_by structural f => f
end

/-- Whether two specialized functions are equal in every part. -/
def TypedFn.same (f g : TypedFn) : Bool :=
  f.name = g.name && f.argNames = g.argNames && f.inputTypes = g.inputTypes
    && Stmt.sameList f.body g.body && f.returnType = g.returnType
    && f.typeEnv.entries = g.typeEnv.entries

end ArrayLang
