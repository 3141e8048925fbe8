/-!
# Fresh names

A supply of names that cannot occur in source code, where names hold no dot.
-/

namespace ArrayLang

/-- The supply counts the names it has given out. -/
structure NameSupply where
  next : Nat := 0

/-- A name made from a base and a number that was never used before. -/
def NameSupply.fresh (s : NameSupply) (base : String) : String × NameSupply :=
  (base ++ "." ++ toString s.next, ⟨s.next + 1⟩)

/-- Fresh names made from several bases, in turn. -/
def NameSupply.freshAll (s : NameSupply) : List String → List String
  | [] => []
  | base :: bases =>
    let (name, s) := s.fresh base
    name :: s.freshAll bases

end ArrayLang
