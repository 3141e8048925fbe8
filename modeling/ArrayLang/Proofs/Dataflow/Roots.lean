import ArrayLang.Dataflow.Alias
import ArrayLang.Proofs.Interpreter.Sources

/-!
# Alias roots

When the alias roots of an expression are all the variables that it draws on. They overlook storage
in three ways: an expression that counts as a scalar has no roots, whatever its value is; a map or a
scan without an array among its arguments returns what its functions return; and so does every
reduction.
-/

namespace ArrayLang

mutual
/-- The alias roots overlook no storage of the value: what counts as a scalar lies in none, maps and
scans run over arrays, and nothing is reduced. -/
def Expr.Traceable (env : Env) : Expr → Prop
  | ⟨node, ty?⟩ => Expr.Bare env ⟨node, ty?⟩
    ∨ Expr.aliasRoots ⟨node, ty?⟩ = node.aliasRoots ∧ node.Traceable env
termination_by structural e => e

def Node.Traceable (env : Env) : Node → Prop
  | .index base _ => base.Traceable env
  | .proj base _ => base.Traceable env
  | .attr base _ => base.Traceable env
  | .captured base _ => base.Traceable env
  | .tuple items => Expr.AllTraceable env items
  | .closure _ items => Expr.AllTraceable env items
  | .call _ items => Expr.AllTraceable env items
  | .struct _ fields => Expr.FieldsTraceable env fields
  | .invoke callee args => callee.Traceable env ∧ Expr.AllTraceable env args
  | .map _ args _ => ∃ e ∈ args, e.NamesArray env
  | .scan _ _ _ _ args _ => ∃ e ∈ args, e.NamesArray env
  | .reduce _ _ _ _ _ => False
  | .lambda _ => False
  | _ => True
termination_by structural n => n

def Expr.AllTraceable (env : Env) : List Expr → Prop
  | [] => True
  | e :: es => e.Traceable env ∧ Expr.AllTraceable env es
termination_by structural es => es

def Expr.FieldsTraceable (env : Env) : List (String × Expr) → Prop
  | [] => True
  | (_, e) :: es => e.Traceable env ∧ Expr.FieldsTraceable env es
termination_by structural es => es
end

section
variable {env : Env}

mutual
/-- A traceable expression draws on its alias roots only. -/
theorem Expr.Traceable.drawsOn : ∀ e : Expr, e.Traceable env → e.DrawsOn env (· ∈ e.aliasRoots)
  | ⟨_, _⟩, .inl h => .inl h
  | ⟨node, _⟩, .inr ⟨hroots, h⟩ => .inr (hroots ▸ Node.Traceable.drawsOn node h)
termination_by structural e => e

theorem Node.Traceable.drawsOn :
    ∀ node : Node, node.Traceable env → node.DrawsOn env (· ∈ node.aliasRoots)
  | .var x, _ => List.mem_singleton_self x
  | .index base _, h => Expr.Traceable.drawsOn base h
  | .proj base _, h => Expr.Traceable.drawsOn base h
  | .attr base _, h => Expr.Traceable.drawsOn base h
  | .captured base _, h => Expr.Traceable.drawsOn base h
  | .tuple items, h => Expr.AllTraceable.drawOn items h
  | .closure _ items, h => Expr.AllTraceable.drawOn items h
  | .call _ items, h => Expr.AllTraceable.drawOn items h
  | .struct _ fields, h => Expr.FieldsTraceable.drawOn fields h
  | .invoke callee args, h =>
    ⟨.mono (fun _ => List.mem_append_left _) callee (Expr.Traceable.drawsOn callee h.1),
      .mono (fun _ => List.mem_append_right _) args (Expr.AllTraceable.drawOn args h.2)⟩
  | .map _ _ _, h => .inl h
  | .scan _ _ _ _ _ _, h => .inl h
  | .lit _, _ => trivial
  | .array _, _ => trivial
  | .slice _ _ _, _ => trivial
  | .op _ _, _ => trivial
  | .opValue _, _ => trivial
  | .cast _ _, _ => trivial
  | .alloc _ _, _ => trivial
  | .allPairs _ _ _, _ => trivial
termination_by structural node => node

theorem Expr.AllTraceable.drawOn : ∀ es : List Expr, Expr.AllTraceable env es →
    Expr.AllDrawOn env (· ∈ Expr.aliasRootsList es) es
  | [], _ => trivial
  | e :: es, h =>
    ⟨.mono (fun _ => List.mem_append_left _) e (Expr.Traceable.drawsOn e h.1),
      .mono (fun _ => List.mem_append_right _) es (Expr.AllTraceable.drawOn es h.2)⟩
termination_by structural es => es

theorem Expr.FieldsTraceable.drawOn : ∀ fields : List (String × Expr),
    Expr.FieldsTraceable env fields →
      Expr.FieldsDrawOn env (· ∈ Expr.aliasRootsFields fields) fields
  | [], _ => trivial
  | (_, e) :: es, h =>
    ⟨.mono (fun _ => List.mem_append_left _) e (Expr.Traceable.drawsOn e h.1),
      .mono (fun _ => List.mem_append_right _) es (Expr.FieldsTraceable.drawOn es h.2)⟩
termination_by structural fields => fields
end

end

end ArrayLang
