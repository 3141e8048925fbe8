import ArrayLang.Dataflow.UnionFind
import Mathlib.Data.List.Perm.Subperm
import Mathlib.Logic.Relation

/-!
# Trees of names

Parents lead from each name to a root, and the number of names bounds the way there. Looking a root up
shortens ways and changes no root, and uniting two names makes the root of one the root of the tree of
the other. So which names are in one tree is the equivalence that the pairs that were united generate.

## Main results

- `UnionFind.Leads.lt_length`: no way to a root is as long as there are names.
- `UnionFind.find_new`, `UnionFind.find_self`, `UnionFind.find_parent`: looking a root up is a recursion
  over parents.
- `UnionFind.flattens_find`, `UnionFind.root_union`: what looking up and uniting do to roots.
- `UnionFind.Joins.unions`: uniting pairs adds them to the equivalence, and nothing else.
-/

namespace ArrayLang
namespace UnionFind

variable {u v w : UnionFind} {a b p r x y : String} {m n : Nat}

@[simp] theorem find?_setParent (u : UnionFind) (name parent other : String) :
    (u.setParent name parent).parent.find? other
      = if other = name then some parent else u.parent.find? other :=
  NameMap.find?_insert u.parent name parent other

theorem find?_eq_none (hx : x ∉ u.parent.names) : u.parent.find? x = none := by
  rw [NameMap.mem_names_iff, NameMap.contains, Bool.not_eq_true, Option.isSome_eq_false_iff,
    Option.isNone_iff_eq_none] at hx
  exact hx

/-- A name that has a parent is none that is new. -/
theorem ne_of_new (hx : u.parent.find? x = none) (hy : u.parent.find? y = some p) : y ≠ x := by
  intro heq
  rw [heq, hx] at hy
  cases hy

/-! ## Ways to roots -/

/-- Parents lead from `x` to the root `r` in `n` steps. -/
inductive Leads (u : UnionFind) : String → String → Nat → Prop
  | here {r : String} (hroot : u.parent.find? r = some r) : Leads u r r 0
  | up {x p r : String} {n : Nat} (hparent : u.parent.find? x = some p) (hne : p ≠ x)
    (hrest : Leads u p r n) : Leads u x r (n + 1)

namespace Leads

theorem root_of (h : u.Leads x r n) : u.parent.find? r = some r := by
  induction h with
  | here hroot => exact hroot
  | up _ _ _ ih => exact ih

theorem exists_parent (h : u.Leads x r n) : ∃ p, u.parent.find? x = some p := by
  cases h with
  | here hroot => exact ⟨_, hroot⟩
  | up hparent _ _ => exact ⟨_, hparent⟩

/-- There is one way. -/
theorem unique {s : String} (h : u.Leads x r n) (h' : u.Leads x s m) : r = s ∧ n = m := by
  induction h generalizing m with
  | here hroot =>
    cases h' with
    | here _ => exact ⟨rfl, rfl⟩
    | up hparent hne _ => exact absurd (Option.some_inj.1 (hparent.symm.trans hroot)) hne
  | up hparent hne _ ih =>
    cases h' with
    | here hroot => exact absurd (Option.some_inj.1 (hparent.symm.trans hroot)) hne
    | up hparent' _ hrest' =>
      obtain rfl := Option.some_inj.1 (hparent.symm.trans hparent')
      obtain ⟨hr, hn⟩ := ih hrest'
      exact ⟨hr, congrArg Nat.succ hn⟩

/-- The names on the way are different, since the ways that are left have different lengths. -/
theorem exists_way (h : u.Leads x r n) :
    ∃ way : List String, way.length = n + 1 ∧ way.Nodup
      ∧ ∀ y ∈ way, y ∈ u.parent.names ∧ ∃ m ≤ n, u.Leads y r m := by
  have hmem {y : String} {m : Nat} (hy : u.Leads y r m) : y ∈ u.parent.names := by
    obtain ⟨p, hp⟩ := hy.exists_parent
    exact NameMap.mem_names_iff.2 (by rw [NameMap.contains, hp, Option.isSome_some])
  induction h with
  | @here r hroot =>
    refine ⟨[r], rfl, List.pairwise_singleton _ r, fun y hy => ?_⟩
    obtain rfl := List.mem_singleton.1 hy
    exact ⟨hmem (.here hroot), 0, Nat.le_refl 0, .here hroot⟩
  | @up x p r n hparent hne hrest ih =>
    obtain ⟨way, hlength, hnodup, hway⟩ := ih hmem
    have hx : u.Leads x r (n + 1) := .up hparent hne hrest
    refine ⟨x :: way, by rw [List.length_cons, hlength], List.nodup_cons.2 ⟨?_, hnodup⟩, ?_⟩
    · -- `x` does not come again: what is left from there would be shorter than it is from `x`.
      intro hxway
      obtain ⟨-, m, hm, hleads⟩ := hway x hxway
      have hlen := (hx.unique hleads).2
      omega
    · intro y hy
      rcases List.mem_cons.1 hy with rfl | hy
      · exact ⟨hmem hx, n + 1, Nat.le_refl _, hx⟩
      · obtain ⟨hname, m, hm, hleads⟩ := hway y hy
        exact ⟨hname, m, Nat.le_succ_of_le hm, hleads⟩

/-- A way is shorter than there are names. -/
theorem lt_length (h : u.Leads x r n) : n < u.parent.entries.length := by
  obtain ⟨way, hlength, hnodup, hway⟩ := h.exists_way
  have hle : way.length ≤ u.parent.names.length :=
    (hnodup.subperm fun y hy => (hway y hy).1).length_le
  rw [NameMap.names, List.length_map] at hle
  omega

end Leads

/-- Every name that has a parent is led to a root: no parents go round in a circle. -/
def IsForest (u : UnionFind) : Prop :=
  ∀ x p, u.parent.find? x = some p → ∃ r n, u.Leads x r n

theorem isForest_empty : IsForest ∅ :=
  fun _ _ h => by cases h

/-! ## Looking a root up -/

/-- A name that is new becomes a root. -/
theorem find_new (h : u.parent.find? x = none) : u.find x = (x, u.setParent x x) := by
  rw [find, findWithin, h]

/-- A root is its own root. -/
theorem find_self (h : u.parent.find? x = some x) : u.find x = (x, u) := by
  rw [find, findWithin, h]
  exact if_pos rfl

theorem findWithin_of_leads (h : u.Leads x r n) {fuel fuel' : Nat} (hfuel : n < fuel)
    (hfuel' : n < fuel') : u.findWithin x fuel = u.findWithin x fuel' := by
  induction h generalizing fuel fuel' with
  | here hroot =>
    obtain ⟨fuel, rfl⟩ := Nat.exists_eq_succ_of_ne_zero (Nat.ne_of_gt hfuel)
    obtain ⟨fuel', rfl⟩ := Nat.exists_eq_succ_of_ne_zero (Nat.ne_of_gt hfuel')
    simp only [findWithin, hroot, if_true]
  | @up x p r n hparent hne _ ih =>
    obtain ⟨fuel, rfl⟩ := Nat.exists_eq_succ_of_ne_zero (Nat.ne_zero_of_lt hfuel)
    obtain ⟨fuel', rfl⟩ := Nat.exists_eq_succ_of_ne_zero (Nat.ne_zero_of_lt hfuel')
    simp only [findWithin, hparent, if_neg hne]
    rw [ih (Nat.lt_of_succ_lt_succ hfuel) (Nat.lt_of_succ_lt_succ hfuel')]

/-- The root of any other name is that of its parent, and becomes its parent. -/
theorem find_parent (h : u.IsForest) (hparent : u.parent.find? x = some p) (hne : p ≠ x) :
    u.find x = ((u.find p).1, (u.find p).2.setParent x (u.find p).1) := by
  obtain ⟨r, n, hx⟩ := h x p hparent
  cases hx with
  | here hroot => exact absurd (Option.some_inj.1 (hparent.symm.trans hroot)) hne
  | up hparent' _ hrest =>
    obtain rfl := Option.some_inj.1 (hparent.symm.trans hparent')
    -- The look-up of the parent has one step less, which is still enough.
    have hlt := hrest.lt_length
    rw [find, findWithin, hparent]
    dsimp only
    rw [if_neg hne, findWithin_of_leads hrest hlt (Nat.lt_succ_of_lt hlt)]
    rfl

/-- The root of a name. -/
def root (u : UnionFind) (x : String) : String :=
  (u.find x).1

theorem root_of_new (h : u.parent.find? x = none) : u.root x = x := by
  rw [root, find_new h]

theorem Leads.root_eq (h : u.Leads x r n) (hu : u.IsForest) : u.root x = r := by
  induction h with
  | here hroot => rw [root, find_self hroot]
  | up hparent hne _ ih => rw [root, find_parent hu hparent hne]; exact ih

/-- A name is new, or is led to its root. -/
theorem IsForest.new_or_leads (hu : u.IsForest) (x : String) :
    u.parent.find? x = none ∨ ∃ n, u.Leads x (u.root x) n := by
  cases hx : u.parent.find? x with
  | none => exact .inl rfl
  | some p =>
    obtain ⟨r, n, hleads⟩ := hu x p hx
    exact .inr ⟨n, hleads.root_eq hu ▸ hleads⟩

/-- `v` is a forest in which each name has the root that it has in `u`. -/
structure Flattens (u v : UnionFind) : Prop where
  forest : v.IsForest
  root_eq : ∀ x, v.root x = u.root x
  leads : ∀ {x r n}, u.Leads x r n → ∃ k, v.Leads x r k

namespace Flattens

theorem refl (hu : u.IsForest) : Flattens u u :=
  ⟨hu, fun _ => rfl, fun hx => ⟨_, hx⟩⟩

theorem trans (h : Flattens u v) (h' : Flattens v w) : Flattens u w := by
  refine ⟨h'.forest, fun x => (h'.root_eq x).trans (h.root_eq x), fun hx => ?_⟩
  obtain ⟨k, hk⟩ := h.leads hx
  exact h'.leads hk

/-- A root stays a root. -/
theorem find?_root (h : Flattens u v) (hr : u.parent.find? r = some r) :
    v.parent.find? r = some r := by
  obtain ⟨k, hk⟩ := h.leads (.here hr)
  exact hk.root_of

/-- It is enough that names are led to the roots that they had, and that new names are roots. -/
theorem of_leads (hu : u.IsForest) (hleads : ∀ {x r n}, u.Leads x r n → ∃ k, v.Leads x r k)
    (hnew : ∀ x, u.parent.find? x = none →
      v.parent.find? x = none ∨ v.parent.find? x = some x) : Flattens u v := by
  have hforest : v.IsForest := by
    intro x p hx
    cases hold : u.parent.find? x with
    | none =>
      rcases hnew x hold with hnone | hself
      · rw [hnone] at hx
        cases hx
      · exact ⟨x, 0, .here hself⟩
    | some q =>
      obtain ⟨r, n, hr⟩ := hu x q hold
      obtain ⟨k, hk⟩ := hleads hr
      exact ⟨r, k, hk⟩
  refine ⟨hforest, fun x => ?_, hleads⟩
  rcases hu.new_or_leads x with hold | ⟨n, hx⟩
  · rw [root_of_new hold]
    rcases hnew x hold with hnone | hself
    · exact root_of_new hnone
    · exact (Leads.here hself).root_eq hforest
  · obtain ⟨k, hk⟩ := hleads hx
    exact hk.root_eq hforest

end Flattens

/-- A new name that becomes a root changes no root. -/
theorem flattens_setParent_new (hu : u.IsForest) (hx : u.parent.find? x = none) :
    Flattens u (u.setParent x x) := by
  have hold {y q : String} (hy : u.parent.find? y = some q) :
      (u.setParent x x).parent.find? y = some q := by
    rw [find?_setParent, if_neg (ne_of_new hx hy), hy]
  refine .of_leads hu (fun hy => ?_) fun y hy => ?_
  · induction hy with
    | here hroot => exact ⟨0, .here (hold hroot)⟩
    | up hparent hne _ ih =>
      obtain ⟨k, hk⟩ := ih
      exact ⟨k + 1, .up (hold hparent) hne hk⟩
  · rw [find?_setParent]
    by_cases heq : y = x
    · exact .inr (by rw [if_pos heq, heq])
    · exact .inl (by rw [if_neg heq, hy])

/-- A name that gets its root as its parent changes no root. -/
theorem flattens_setParent_root (hu : u.IsForest) (hx : u.Leads x r n) :
    Flattens u (u.setParent x r) := by
  -- A root that is given itself as its parent is left as it was.
  have hkept {s : String} (hs : u.parent.find? s = some s) :
      (u.setParent x r).parent.find? s = some s := by
    rw [find?_setParent]
    by_cases heq : s = x
    · rw [heq] at hs
      rw [if_pos heq, heq, (hx.unique (.here hs)).1]
    · rw [if_neg heq, hs]
  have hroot := hkept hx.root_of
  refine .of_leads hu (fun hy => ?_) fun y hy => .inl ?_
  · induction hy with
    | here hs => exact ⟨0, .here (hkept hs)⟩
    | @up y q s m hparent hne hrest ih =>
      obtain ⟨k, ih⟩ := ih
      by_cases heq : y = x
      · rw [← heq] at hx
        obtain rfl := (hx.unique (.up hparent hne hrest)).1
        have hy : (u.setParent x r).parent.find? y = some r := by rw [find?_setParent, if_pos heq]
        by_cases hself : r = y
        · exact ⟨0, by rw [← hself]; exact .here hroot⟩
        · exact ⟨1, .up hy hself (.here hroot)⟩
      · exact ⟨k + 1, .up (by rw [find?_setParent, if_neg heq, hparent]) hne ih⟩
  · obtain ⟨q, hq⟩ := hx.exists_parent
    rw [find?_setParent, if_neg (ne_of_new hy hq).symm, hy]

/-- Looking a root up changes no root. -/
theorem flattens_find (hu : u.IsForest) (x : String) : Flattens u (u.find x).2 := by
  rcases hu.new_or_leads x with hnew | ⟨n, hleads⟩
  · rw [find_new hnew]
    exact flattens_setParent_new hu hnew
  · generalize u.root x = r at hleads
    induction hleads with
    | here hroot =>
      rw [find_self hroot]
      exact .refl hu
    | @up x p r n hparent hne hrest ih =>
      -- After the look-up of its parent the name is still led to its root.
      obtain ⟨k, hk⟩ := ih.leads (.up hparent hne hrest)
      have hroot : (u.find p).1 = r := hrest.root_eq hu
      rw [find_parent hu hparent hne, hroot]
      exact ih.trans (flattens_setParent_root ih.forest hk)

/-- Looking up the roots of several names changes no root. -/
theorem flattens_foldl_find (hu : u.IsForest) (names : List String) :
    Flattens u (names.foldl (fun u name => (u.find name).2) u) := by
  induction names generalizing u with
  | nil => exact .refl hu
  | cons name names ih =>
    have hfind := flattens_find hu name
    exact hfind.trans (ih hfind.forest)

/-- The root that is found is a root from then on. -/
theorem find?_find (hu : u.IsForest) (x : String) :
    (u.find x).2.parent.find? (u.root x) = some (u.root x) := by
  rcases hu.new_or_leads x with hnew | ⟨n, hleads⟩
  · rw [root_of_new hnew, find_new hnew, find?_setParent, if_pos rfl]
  · exact (flattens_find hu x).find?_root hleads.root_of

/-! ## Uniting -/

/-- When the root `a` becomes a child of the root `b`, the names that were led to `a` are led to `b`. -/
theorem Leads.setParent (ha : u.parent.find? a = some a) (hb : u.parent.find? b = some b)
    (hne : a ≠ b) (hx : u.Leads x r n) :
    ∃ k, (u.setParent a b).Leads x (if r = a then b else r) k := by
  have hroot : (u.setParent a b).Leads b b 0 :=
    .here (by rw [find?_setParent, if_neg (Ne.symm hne), hb])
  induction hx with
  | @here r hr =>
    by_cases heq : r = a
    · rw [if_pos heq]
      exact ⟨1, .up (by rw [find?_setParent, if_pos heq]) (heq ▸ Ne.symm hne) hroot⟩
    · rw [if_neg heq]
      exact ⟨0, .here (by rw [find?_setParent, if_neg heq, hr])⟩
  | @up x p r n hparent hstep _ ih =>
    -- Only the root gets another parent, so the way up to it stays.
    obtain ⟨k, hk⟩ := ih
    have hxa : x ≠ a := fun heq => by
      rw [heq, ha] at hparent
      exact hstep (heq ▸ (Option.some_inj.1 hparent).symm)
    exact ⟨k + 1, .up (by rw [find?_setParent, if_neg hxa, hparent]) hstep hk⟩

/-- The root of one tree becomes a child of the root of another, and so the latter becomes the root of
both. -/
theorem setParent_roots (hu : u.IsForest) (ha : u.parent.find? a = some a)
    (hb : u.parent.find? b = some b) (hne : a ≠ b) :
    (u.setParent a b).IsForest
      ∧ ∀ x, (u.setParent a b).root x = if u.root x = a then b else u.root x := by
  have hforest : (u.setParent a b).IsForest := by
    intro x p hx
    obtain ⟨q, hq⟩ : ∃ q, u.parent.find? x = some q := by
      rw [find?_setParent] at hx
      by_cases heq : x = a
      · exact ⟨a, heq ▸ ha⟩
      · exact ⟨p, by rwa [if_neg heq] at hx⟩
    obtain ⟨r, n, hr⟩ := hu x q hq
    obtain ⟨k, hk⟩ := hr.setParent ha hb hne
    exact ⟨_, k, hk⟩
  refine ⟨hforest, fun x => ?_⟩
  rcases hu.new_or_leads x with hnew | ⟨n, hx⟩
  · have hxa : x ≠ a := (ne_of_new hnew ha).symm
    rw [root_of_new hnew, if_neg hxa, root_of_new (by rw [find?_setParent, if_neg hxa, hnew])]
  · obtain ⟨k, hk⟩ := hx.setParent ha hb hne
    exact hk.root_eq hforest

/-- Uniting two names gives the tree of the first the root of the second, and changes no other root. -/
theorem root_union (hu : u.IsForest) (a b : String) :
    (u.union a b).IsForest
      ∧ ∀ x, (u.union a b).root x = if u.root x = u.root a then u.root b else u.root x := by
  have ha := flattens_find hu a
  have hb := flattens_find ha.forest b
  have hboth : Flattens u ((u.find a).2.find b).2 := ha.trans hb
  have hrootb : ((u.find a).2.find b).1 = u.root b := ha.root_eq b
  have hunion : u.union a b = if u.root a = u.root b then ((u.find a).2.find b).2
      else ((u.find a).2.find b).2.setParent (u.root a) (u.root b) := by
    rw [union]
    dsimp only
    rw [hrootb]
    rfl
  rw [hunion]
  by_cases hsame : u.root a = u.root b
  · rw [if_pos hsame]
    refine ⟨hboth.forest, fun x => ?_⟩
    rw [hboth.root_eq]
    by_cases hx : u.root x = u.root a
    · rw [if_pos hx, hx, hsame]
    · rw [if_neg hx]
  · rw [if_neg hsame]
    have hroota : ((u.find a).2.find b).2.parent.find? (u.root a) = some (u.root a) :=
      hb.find?_root (find?_find hu a)
    have hrootb : ((u.find a).2.find b).2.parent.find? (u.root b) = some (u.root b) := by
      rw [← ha.root_eq b]
      exact find?_find ha.forest b
    obtain ⟨hforest, hroots⟩ := setParent_roots hboth.forest hroota hrootb hsame
    refine ⟨hforest, fun x => ?_⟩
    rw [hroots, hboth.root_eq]

/-! ## Classes -/

/-- The two names are in one tree. -/
def Same (u : UnionFind) (x y : String) : Prop :=
  u.root x = u.root y

theorem same_equivalence (u : UnionFind) : Equivalence u.Same :=
  ⟨fun _ => rfl, fun h => h.symm, fun h h' => h.trans h'⟩

theorem same_empty : Same ∅ x y ↔ x = y := by
  rw [Same, root_of_new rfl, root_of_new rfl]

/-- Only names of the forest are in one tree with another name. -/
theorem mem_names_of_same (hu : u.IsForest) (h : u.Same x y) (hne : x ≠ y) :
    x ∈ u.parent.names := by
  by_contra hx
  have hnew := find?_eq_none hx
  have hroot : u.root y = x := by rw [← root_of_new hnew]; exact h.symm
  rcases hu.new_or_leads y with hy | ⟨n, hleads⟩
  · exact hne (by rw [← hroot, root_of_new hy])
  · have hself := hleads.root_of
    rw [hroot, hnew] at hself
    cases hself

/-- `v` is a forest whose classes are those that the classes of `u` and the pairs generate. -/
structure Joins (u v : UnionFind) (pairs : List (String × String)) : Prop where
  forest : v.IsForest
  same_iff : ∀ x y, v.Same x y ↔ Relation.EqvGen (fun x y => u.Same x y ∨ (x, y) ∈ pairs) x y

namespace Joins

variable {pairs pairs' : List (String × String)}

/-- Keeping every root joins nothing. -/
theorem of_flattens (h : Flattens u v) : Joins u v [] := by
  refine ⟨h.forest, fun x y => ?_⟩
  have hsame : v.Same x y ↔ u.Same x y := by rw [Same, Same, h.root_eq, h.root_eq]
  rw [hsame]
  refine ⟨fun hxy => .rel x y (.inl hxy), fun hxy => ?_⟩
  refine u.same_equivalence.eqvGen_iff.1 (hxy.mono fun x y hxy => ?_)
  exact hxy.resolve_right List.not_mem_nil

theorem union (hu : u.IsForest) (a b : String) : Joins u (u.union a b) [(a, b)] := by
  obtain ⟨hforest, hroot⟩ := root_union hu a b
  refine ⟨hforest, fun x y => ⟨fun hxy => ?_, fun hxy => ?_⟩⟩
  · have hab : Relation.EqvGen (fun x y => u.Same x y ∨ (x, y) ∈ [(a, b)]) a b :=
      .rel a b (.inr List.mem_cons_self)
    have hsame {x y : String} (h : u.root x = u.root y) :
        Relation.EqvGen (fun x y => u.Same x y ∨ (x, y) ∈ [(a, b)]) x y := .rel x y (.inl h)
    -- A name that is led to another root than before was in the tree of `a`, and is now in that of `b`.
    rw [Same, hroot, hroot] at hxy
    by_cases hx : u.root x = u.root a <;> by_cases hy : u.root y = u.root a
    · exact hsame (hx.trans hy.symm)
    · rw [if_pos hx, if_neg hy] at hxy
      exact .trans x a y (hsame hx) (.trans a b y hab (hsame hxy))
    · rw [if_neg hx, if_pos hy] at hxy
      exact .trans x b y (hsame hxy) (.trans b a y (.symm a b hab) (hsame hy.symm))
    · rw [if_neg hx, if_neg hy] at hxy
      exact hsame hxy
  · refine (same_equivalence _).eqvGen_iff.1 (hxy.mono fun x y hxy => ?_)
    rw [Same, hroot, hroot]
    rcases hxy with hxy | hmem
    · rw [show u.root x = u.root y from hxy]
    · obtain ⟨rfl, rfl⟩ := Prod.mk.inj (List.mem_singleton.1 hmem)
      rw [if_pos rfl, ite_self]

theorem trans (h : Joins u v pairs) (h' : Joins v w pairs') : Joins u w (pairs ++ pairs') := by
  refine ⟨h'.forest, fun x y => ?_⟩
  rw [h'.same_iff]
  constructor
  · refine fun hxy => (Relation.EqvGen.is_equivalence _).eqvGen_iff.1 (hxy.mono fun x y hxy => ?_)
    rcases hxy with hxy | hmem
    · exact ((h.same_iff x y).1 hxy).mono fun x y => Or.imp_right (List.mem_append_left _)
    · exact .rel x y (.inr (List.mem_append_right _ hmem))
  · refine fun hxy => hxy.mono fun x y hxy => ?_
    rcases hxy with hxy | hmem
    · exact .inl ((h.same_iff x y).2 (.rel x y (.inl hxy)))
    · exact (List.mem_append.1 hmem).imp_left fun hmem => (h.same_iff x y).2 (.rel x y (.inr hmem))

/-- Only which pairs there are matters. -/
theorem congr (h : Joins u v pairs) (hpairs : ∀ pair, pair ∈ pairs ↔ pair ∈ pairs') :
    Joins u v pairs' := by
  refine ⟨h.forest, fun x y => ?_⟩
  rw [h.same_iff]
  simp only [hpairs]

/-- Uniting a name with others joins it with each of them. -/
theorem unions (hu : u.IsForest) (name : String) (others : List String) :
    Joins u (others.foldl (·.union name ·) u) (others.map (name, ·)) := by
  induction others generalizing u with
  | nil => exact of_flattens (.refl hu)
  | cons other others ih =>
    have hunion := Joins.union hu name other
    exact hunion.trans (ih hunion.forest)

end Joins
end UnionFind
end ArrayLang
