import ArrayLang.NameMap

/-!
# Union-find over names

A forest in which each name points to its parent, and the roots to themselves. Names of one tree are in
one class. Looking a root up makes it the parent of every name on the way.
-/

namespace ArrayLang

/-- The parent of each name. -/
structure UnionFind where
  parent : NameMap String

namespace UnionFind

instance : EmptyCollection UnionFind := ⟨⟨∅⟩⟩

/-- Makes a name the parent of another. -/
def setParent (u : UnionFind) (name parent : String) : UnionFind :=
  ⟨u.parent.insert name parent⟩

/-- The root of a name, at most `fuel` names away. A name that is new becomes a root. Every name on the
way gets the root as its parent. -/
def findWithin (u : UnionFind) (name : String) : Nat → String × UnionFind
  | 0 => (name, u)
  | fuel + 1 =>
    match u.parent.find? name with
    | none => (name, u.setParent name name)
    | some parent =>
      if parent = name then (name, u)
      else
        let (root, u) := u.findWithin parent fuel
        (root, u.setParent name root)

/-- The root of a name. No way to a root is longer than there are names. -/
def find (u : UnionFind) (name : String) : String × UnionFind :=
  u.findWithin name (u.parent.entries.length + 1)

/-- Unites the trees of two names: the root of the first gets that of the second as its parent. -/
def union (u : UnionFind) (a b : String) : UnionFind :=
  let (a, u) := u.find a
  let (b, u) := u.find b
  if a = b then u else u.setParent a b

end UnionFind
end ArrayLang
