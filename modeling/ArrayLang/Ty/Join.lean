import ArrayLang.Ty.Basic

/-!
# Joining types

The join of two types is the type that values of both are widened to where two control-flow paths
meet. Element types always join; every other difference in structure has no join.
-/

namespace ArrayLang.Ty

mutual
/-- The join of two types. Structures and closures only join with themselves. -/
def join? : Ty → Ty → Option Ty
  | .scalar a, .scalar b => some (.scalar (a.join b))
  | .array a r, .array b s => if r = s then some (.array (a.join b) r) else Option.none
  | .tuple as, .tuple bs => (joinList? as bs).map .tuple
  | .slice a b c, .slice a' b' c' =>
    match a.join? a', b.join? b', c.join? c' with
    | some x, some y, some z => some (.slice x y z)
    | _, _, _ => Option.none
  | a, b => if a = b then some a else Option.none
termination_by structural t => t

/-- The joins of two lists of types of one length. -/
def joinList? : List Ty → List Ty → Option (List Ty)
  | [], [] => some []
  | a :: as, b :: bs =>
    match a.join? b, joinList? as bs with
    | some x, some xs => some (x :: xs)
    | _, _ => Option.none
  | _, _ => Option.none
termination_by structural ts => ts
end

end ArrayLang.Ty
