import ArrayLang.Proofs.Array.Layout

/-!
# The least common shape

Shapes are broadcast by widening one accumulated shape, axis by axis from the last one on. A shape broadcasts
to another when each of its axes has length 1 or the length of the axis of the other at the same position
from the end, and then an index of the other stands for one of its own. That is an order on shapes, and
broadcasting takes least upper bounds in it: that is why the order of the shapes does not matter, and why
axes of length 1 and missing axes never do.

There is an upper bound exactly if no position from the end has axes of two different lengths other than 1.

## Main results

- `Shape.broadcast_eq_some_iff`: the result is the least shape that all shapes broadcast to.
- `Shape.broadcast_eq_left_iff`: the shapes that broadcast to a given one.
- `Shape.broadcast_least`: when there is one, its axes, and what is read through it.
-/

namespace ArrayLang.Shape

variable {as bs cs ts shape src dst index : List Nat} {shapes : List (List Nat)} {a b d e t k : Nat}

/-! ## Stretching axes -/

/-- The axis has length 1 or the length that it is to have. -/
def DimStretches (e d : Nat) : Prop :=
  e = 1 ∨ e = d

instance : DecidableRel DimStretches :=
  fun e d => inferInstanceAs (Decidable (e = 1 ∨ e = d))

/-- The shapes have the same number of axes, and the axes of the source that are not of length 1 are as
long as those of the target. -/
def Stretches (src dst : List Nat) : Prop :=
  List.Forall₂ DimStretches src dst

instance (src dst : List Nat) : Decidable (Stretches src dst) :=
  inferInstanceAs (Decidable (List.Forall₂ DimStretches src dst))

theorem Stretches.refl (shape : List Nat) : Stretches shape shape :=
  List.forall₂_same.2 fun _ _ => .inr rfl

/-- The index that stands for one of the shape that the source is stretched to. -/
def shrink (src index : List Nat) : List Nat :=
  index.zipWith (fun i dim => if dim = 1 then 0 else i) src

theorem Stretches.inRange_shrink (h : Stretches src dst) (hindex : InRange dst index) :
    InRange src (shrink src index) := by
  induction h generalizing index with
  | nil =>
    obtain rfl := List.forall₂_nil_right_iff.1 hindex
    exact .nil
  | @cons e d src dst hdim _ ih =>
    obtain ⟨i, index, hi, hrest, rfl⟩ := List.forall₂_cons_right_iff.1 hindex
    refine .cons ?_ (ih hrest)
    show (if e = 1 then 0 else i) < e
    unfold DimStretches at hdim
    split <;> omega

theorem shrink_self (h : InRange shape index) : shrink shape index = index := by
  induction h with
  | nil => rfl
  | @cons i dim index dims hi _ ih =>
    show (if dim = 1 then 0 else i) :: shrink dims index = i :: index
    rw [ih]
    split
    · rw [show i = 0 by omega]
    · rfl

/-! ## Broadcasting to a shape -/

/-- The last axes of the target, as many as the source has, are axes that the source stretches to. -/
def BroadcastsTo (src dst : List Nat) : Prop :=
  src.length ≤ dst.length ∧ Stretches src (dst.drop (dst.length - src.length))

instance (src dst : List Nat) : Decidable (BroadcastsTo src dst) :=
  inferInstanceAs (Decidable (_ ∧ _))

theorem broadcastsTo_iff_stretches (h : src.length = dst.length) :
    BroadcastsTo src dst ↔ Stretches src dst := by
  unfold BroadcastsTo
  rw [h, Nat.sub_self, List.drop_zero]
  exact and_iff_right (Nat.le_refl _)

/-- The index of the source that stands for one of the shape that the source is broadcast to. -/
def aligned (src index : List Nat) : List Nat :=
  shrink src (index.drop (index.length - src.length))

theorem BroadcastsTo.inRange_aligned (h : BroadcastsTo src dst) (hindex : InRange dst index) :
    InRange src (aligned src index) := by
  have hlast : InRange (dst.drop (dst.length - src.length))
      (index.drop (dst.length - src.length)) := List.forall₂_drop _ hindex
  unfold aligned
  rw [hindex.length_eq]
  exact h.2.inRange_shrink hlast

example : BroadcastsTo [1, 3] [4, 2, 3] ∧ aligned [1, 3] [3, 1, 2] = [0, 2] := by
  decide

theorem aligned_eq_shrink (h : index.length = src.length) : aligned src index = shrink src index := by
  unfold aligned
  rw [h, Nat.sub_self, List.drop_zero]

/-! ## The order on shapes -/

theorem broadcastDim_stretches (h : broadcastDim a b = some d) : DimStretches a d ∧ DimStretches b d := by
  unfold broadcastDim at h
  unfold DimStretches
  by_cases ha : a = 1
  · rw [if_pos ha] at h
    cases h
    exact ⟨.inl ha, .inr rfl⟩
  · rw [if_neg ha] at h
    by_cases hb : b = 1 ∨ b = a
    · rw [if_pos hb] at h
      cases h
      exact ⟨.inr rfl, hb⟩
    · rw [if_neg hb] at h
      cases h

theorem DimStretches.exists_broadcastDim (ha : DimStretches a t) (hb : DimStretches b t) :
    ∃ d, broadcastDim a b = some d ∧ DimStretches d t := by
  unfold broadcastDim
  by_cases hone : a = 1
  · rw [if_pos hone]
    exact ⟨b, rfl, hb⟩
  · have hat : a = t := ha.resolve_left hone
    rw [if_neg hone, if_pos (hat ▸ hb)]
    exact ⟨a, rfl, ha⟩

theorem DimStretches.trans (h : DimStretches a b) (h' : DimStretches b d) : DimStretches a d := by
  unfold DimStretches at *
  omega

/-- Every axis of the first shape stretches to one of the second, at the same position. -/
def Within (as bs : List Nat) : Prop :=
  ∀ (k a : Nat), as[k]? = some a → ∃ b, bs[k]? = some b ∧ DimStretches a b

namespace Within

theorem nil (bs : List Nat) : Within [] bs :=
  nofun

theorem refl (as : List Nat) : Within as as :=
  fun _ a ha => ⟨a, ha, .inr rfl⟩

theorem trans (h : Within as bs) (h' : Within bs cs) : Within as cs := by
  intro k a ha
  obtain ⟨b, hb, hab⟩ := h k a ha
  obtain ⟨c, hc, hbc⟩ := h' k b hb
  exact ⟨c, hc, hab.trans hbc⟩

theorem cons_iff : Within (a :: as) (b :: bs) ↔ DimStretches a b ∧ Within as bs := by
  constructor
  · intro h
    obtain ⟨b', hb', hab⟩ := h 0 a rfl
    obtain rfl : b = b' := Option.some.inj hb'
    exact ⟨hab, fun k => h (k + 1)⟩
  · rintro ⟨hab, h⟩ k a' ha'
    cases k with
    | zero => exact ⟨b, rfl, Option.some.inj ha' ▸ hab⟩
    | succ k => exact h k a' ha'

theorem not_cons_nil : ¬Within (a :: as) [] := by
  intro h
  obtain ⟨b, hb, -⟩ := h 0 a rfl
  cases hb

/-- Two shapes that lie within each other are the same. -/
theorem antisymm (h : Within as bs) (h' : Within bs as) : as = bs := by
  induction as generalizing bs with
  | nil =>
    cases bs with
    | nil => rfl
    | cons b bs => exact absurd h' not_cons_nil
  | cons a as ih =>
    cases bs with
    | nil => exact absurd h not_cons_nil
    | cons b bs =>
      obtain ⟨hab, hrest⟩ := cons_iff.1 h
      obtain ⟨hba, hrest'⟩ := cons_iff.1 h'
      have hdim : a = b := by
        unfold DimStretches at hab hba
        omega
      rw [hdim, ih hrest hrest']

theorem iff_stretches :
    Within as bs ↔ as.length ≤ bs.length ∧ Stretches as (bs.take as.length) := by
  induction as generalizing bs with
  | nil => exact ⟨fun _ => ⟨Nat.zero_le _, .nil⟩, fun _ => nil bs⟩
  | cons a as ih =>
    cases bs with
    | nil => exact ⟨fun h => absurd h not_cons_nil, fun h => absurd h.1 (Nat.not_succ_le_zero _)⟩
    | cons b bs =>
      have hcons : Stretches (a :: as) ((b :: bs).take (a :: as).length)
          ↔ DimStretches a b ∧ Stretches as (bs.take as.length) := List.forall₂_cons
      rw [cons_iff, ih, hcons, List.length_cons, List.length_cons, Nat.succ_le_succ_iff,
        and_left_comm]

end Within

/-- A shape broadcasts to another if it lies within it from the last axis on. -/
theorem broadcastsTo_iff_within : BroadcastsTo src dst ↔ Within src.reverse dst.reverse := by
  rw [Within.iff_stretches, List.length_reverse, List.length_reverse, List.take_reverse]
  exact and_congr_right fun _ => List.forall₂_reverse_iff.symm

/-! ## Least upper bounds -/

theorem broadcastReversed_cons_eq_some :
    broadcastReversed (a :: as) (b :: bs) = some cs
      ↔ ∃ d ds, broadcastDim a b = some d ∧ broadcastReversed as bs = some ds ∧ cs = d :: ds := by
  rw [broadcastReversed]
  cases broadcastDim a b <;> cases broadcastReversed as bs <;> simp [eq_comm]

theorem broadcastReversed_within (h : broadcastReversed as bs = some cs) :
    Within as cs ∧ Within bs cs := by
  induction as generalizing bs cs with
  | nil =>
    cases h
    exact ⟨.nil bs, .refl bs⟩
  | cons a as ih =>
    cases bs with
    | nil =>
      cases h
      exact ⟨.refl _, .nil _⟩
    | cons b bs =>
      obtain ⟨d, ds, hdim, hrest, rfl⟩ := broadcastReversed_cons_eq_some.1 h
      obtain ⟨had, hbd⟩ := broadcastDim_stretches hdim
      obtain ⟨has, hbs⟩ := ih hrest
      exact ⟨Within.cons_iff.2 ⟨had, has⟩, Within.cons_iff.2 ⟨hbd, hbs⟩⟩

theorem Within.exists_broadcastReversed (has : Within as ts) (hbs : Within bs ts) :
    ∃ cs, broadcastReversed as bs = some cs ∧ Within cs ts := by
  induction as generalizing bs ts with
  | nil => exact ⟨bs, rfl, hbs⟩
  | cons a as ih =>
    cases bs with
    | nil => exact ⟨a :: as, rfl, has⟩
    | cons b bs =>
      cases ts with
      | nil => exact absurd has not_cons_nil
      | cons t ts =>
        obtain ⟨hat, has⟩ := cons_iff.1 has
        obtain ⟨hbt, hbs⟩ := cons_iff.1 hbs
        obtain ⟨d, hdim, hdt⟩ := hat.exists_broadcastDim hbt
        obtain ⟨ds, hrest, hds⟩ := ih has hbs
        exact ⟨d :: ds, broadcastReversed_cons_eq_some.2 ⟨d, ds, hdim, hrest, rfl⟩,
          cons_iff.2 ⟨hdt, hds⟩⟩

/-- What the loop over the shapes has accumulated so far lies within the result. -/
theorem foldlM_broadcast_within
    (h : shapes.foldlM (fun acc shape => broadcastReversed acc shape.reverse) as = some cs) :
    Within as cs ∧ ∀ shape ∈ shapes, Within shape.reverse cs := by
  induction shapes generalizing as with
  | nil =>
    cases h
    exact ⟨.refl _, fun _ hmem => absurd hmem List.not_mem_nil⟩
  | cons shape shapes ih =>
    rw [List.foldlM_cons, Option.bind_eq_bind, Option.bind_eq_some_iff] at h
    obtain ⟨bs, hfirst, hrest⟩ := h
    obtain ⟨has, hshape⟩ := broadcastReversed_within hfirst
    obtain ⟨hbs, hshapes⟩ := ih hrest
    exact ⟨has.trans hbs, List.forall_mem_cons.2 ⟨hshape.trans hbs, hshapes⟩⟩

/-- The loop goes through to the end below any shape that everything lies within. -/
theorem Within.exists_foldlM_broadcast (has : Within as ts)
    (hshapes : ∀ shape ∈ shapes, Within shape.reverse ts) :
    ∃ cs, shapes.foldlM (fun acc shape => broadcastReversed acc shape.reverse) as = some cs
      ∧ Within cs ts := by
  induction shapes generalizing as with
  | nil => exact ⟨as, rfl, has⟩
  | cons shape shapes ih =>
    obtain ⟨hshape, hshapes⟩ := List.forall_mem_cons.1 hshapes
    obtain ⟨bs, hfirst, hbs⟩ := has.exists_broadcastReversed hshape
    obtain ⟨cs, hrest, hcs⟩ := ih hbs hshapes
    refine ⟨cs, ?_, hcs⟩
    rw [List.foldlM_cons, hfirst]
    exact hrest

theorem broadcastsTo_of_broadcast (h : broadcast shapes = some shape) {src : List Nat}
    (hsrc : src ∈ shapes) : BroadcastsTo src shape := by
  obtain ⟨cs, hcs, rfl⟩ := Option.map_eq_some_iff.1 h
  rw [broadcastsTo_iff_within, List.reverse_reverse]
  exact (foldlM_broadcast_within hcs).2 src hsrc

/-- If all shapes broadcast to one, their common shape is found and broadcasts to it. -/
theorem exists_broadcast (h : ∀ src ∈ shapes, BroadcastsTo src dst) :
    ∃ shape, broadcast shapes = some shape ∧ BroadcastsTo shape dst := by
  obtain ⟨cs, hcs, hwithin⟩ := (Within.nil dst.reverse).exists_foldlM_broadcast fun src hsrc =>
    broadcastsTo_iff_within.1 (h src hsrc)
  refine ⟨cs.reverse, congrArg (Option.map List.reverse) hcs, ?_⟩
  rw [broadcastsTo_iff_within, List.reverse_reverse]
  exact hwithin

theorem BroadcastsTo.refl (shape : List Nat) : BroadcastsTo shape shape :=
  broadcastsTo_iff_within.2 (.refl _)

theorem BroadcastsTo.antisymm (h : BroadcastsTo src dst) (h' : BroadcastsTo dst src) : src = dst := by
  rw [broadcastsTo_iff_within] at h h'
  exact List.reverse_injective (h.antisymm h')

/-- The least shape that all given shapes broadcast to. -/
structure IsLeastCommon (shapes : List (List Nat)) (shape : List Nat) : Prop where
  common : ∀ src ∈ shapes, BroadcastsTo src shape
  least : ∀ dst, (∀ src ∈ shapes, BroadcastsTo src dst) → BroadcastsTo shape dst

theorem broadcast_eq_some_iff : broadcast shapes = some shape ↔ IsLeastCommon shapes shape := by
  constructor
  · intro h
    refine ⟨fun src hsrc => broadcastsTo_of_broadcast h hsrc, fun dst hdst => ?_⟩
    obtain ⟨shape', hshape', hleast⟩ := exists_broadcast hdst
    obtain rfl : shape' = shape := Option.some.inj (hshape'.symm.trans h)
    exact hleast
  · rintro ⟨hcommon, hleast⟩
    obtain ⟨shape', hshape', hle⟩ := exists_broadcast hcommon
    have hge := hleast shape' fun src hsrc => broadcastsTo_of_broadcast hshape' hsrc
    rw [hshape', hle.antisymm hge]

/-- The shapes that broadcast to a shape. -/
theorem broadcast_eq_left_iff : broadcast [dst, src] = some dst ↔ BroadcastsTo src dst := by
  rw [broadcast_eq_some_iff]
  constructor
  · rintro ⟨hcommon, -⟩
    exact hcommon src (List.mem_cons_of_mem _ List.mem_cons_self)
  · intro h
    refine ⟨List.forall_mem_cons.2 ⟨.refl dst, List.forall_mem_singleton.2 h⟩, fun other hother => ?_⟩
    exact hother dst List.mem_cons_self

theorem IsLeastCommon.of_perm {shapes' : List (List Nat)} (h : IsLeastCommon shapes shape)
    (hperm : shapes.Perm shapes') : IsLeastCommon shapes' shape := by
  refine ⟨fun src hsrc => h.common src (hperm.mem_iff.2 hsrc), fun dst hdst => ?_⟩
  exact h.least dst fun src hsrc => hdst src (hperm.mem_iff.1 hsrc)

/-- The order of the shapes does not matter. -/
theorem broadcast_perm {shapes' : List (List Nat)} (h : shapes.Perm shapes') :
    broadcast shapes' = broadcast shapes := by
  refine Option.ext fun shape => ?_
  rw [broadcast_eq_some_iff, broadcast_eq_some_iff]
  exact ⟨(·.of_perm h.symm), (·.of_perm h)⟩

/-! ## Axes counted from the end -/

/-- The length of the axis at a position counted from the last one. -/
def fromLast? (shape : List Nat) (k : Nat) : Option Nat :=
  shape.reverse[k]?

theorem fromLast?_isSome_iff : (fromLast? shape k).isSome ↔ k < shape.length := by
  simp [fromLast?]

theorem BroadcastsTo.fromLast? (h : BroadcastsTo src dst) (he : fromLast? src k = some e) :
    ∃ d, Shape.fromLast? dst k = some d ∧ DimStretches e d :=
  broadcastsTo_iff_within.1 h k e he

/-- At every position from the end, the axes that are not of length 1 are equally long. -/
def Agree (shapes : List (List Nat)) : Prop :=
  ∀ src ∈ shapes, ∀ src' ∈ shapes, ∀ k d e, fromLast? src k = some d → fromLast? src' k = some e →
    d ≠ 1 → e ≠ 1 → d = e

theorem agree_of_broadcastsTo (h : ∀ src ∈ shapes, BroadcastsTo src dst) : Agree shapes := by
  intro src hsrc src' hsrc' k d e hd he hd1 he1
  obtain ⟨t, ht, hdt⟩ := (h src hsrc).fromLast? hd
  obtain ⟨t', ht', het⟩ := (h src' hsrc').fromLast? he
  obtain rfl : t = t' := Option.some.inj (ht.symm.trans ht')
  rw [hdt.resolve_left hd1, het.resolve_left he1]

/-- The largest number of axes. -/
def maxRank (shapes : List (List Nat)) : Nat :=
  (shapes.map List.length).foldr max 0

theorem length_le_maxRank (hsrc : src ∈ shapes) : src.length ≤ maxRank shapes := by
  induction shapes with
  | nil => cases hsrc
  | cons shape shapes ih =>
    show src.length ≤ max shape.length (maxRank shapes)
    rcases List.mem_cons.1 hsrc with rfl | hsrc
    · exact Nat.le_max_left _ _
    · exact Nat.le_trans (ih hsrc) (Nat.le_max_right _ _)

theorem exists_of_lt_maxRank (hk : k < maxRank shapes) : ∃ src ∈ shapes, k < src.length := by
  induction shapes with
  | nil => cases hk
  | cons shape shapes ih =>
    have hmax : k < max shape.length (maxRank shapes) := hk
    rcases lt_max_iff.1 hmax with hlt | hlt
    · exact ⟨shape, List.mem_cons_self, hlt⟩
    · obtain ⟨src, hsrc, hlt⟩ := ih hlt
      exact ⟨src, List.mem_cons_of_mem _ hsrc, hlt⟩

/-- The length other than 1 that an axis at a position from the end has, and 1 if there is none. -/
def commonDim (shapes : List (List Nat)) (k : Nat) : Nat :=
  ((shapes.filterMap (fromLast? · k)).find? (· ≠ 1)).getD 1

theorem commonDim_cases (shapes : List (List Nat)) (k : Nat) :
    (commonDim shapes k = 1 ∧ ∀ src ∈ shapes, ∀ e, fromLast? src k = some e → e = 1)
      ∨ ∃ src ∈ shapes, fromLast? src k = some (commonDim shapes k) ∧ commonDim shapes k ≠ 1 := by
  unfold commonDim
  cases hfind : (shapes.filterMap (fromLast? · k)).find? (· ≠ 1) with
  | none =>
    refine .inl ⟨rfl, fun src hsrc e he => ?_⟩
    have hone := List.find?_eq_none.1 hfind e (List.mem_filterMap.2 ⟨src, hsrc, he⟩)
    simpa using hone
  | some d =>
    obtain ⟨src, hsrc, hd⟩ := List.mem_filterMap.1 (List.mem_of_find?_eq_some hfind)
    exact .inr ⟨src, hsrc, hd, by simpa using List.find?_some hfind⟩

theorem Agree.commonDim_eq (h : Agree shapes) (hsrc : src ∈ shapes) (he : fromLast? src k = some e)
    (hne : e ≠ 1) : commonDim shapes k = e := by
  rcases commonDim_cases shapes k with ⟨-, hone⟩ | ⟨src', hsrc', hd, hne'⟩
  · exact absurd (hone src hsrc e he) hne
  · exact h src' hsrc' src hsrc k _ e hd he hne' hne

/-- The shape that has the common lengths. -/
def commonShape (shapes : List (List Nat)) : List Nat :=
  ((List.range (maxRank shapes)).map (commonDim shapes)).reverse

theorem length_commonShape (shapes : List (List Nat)) :
    (commonShape shapes).length = maxRank shapes := by
  simp [commonShape]

theorem fromLast?_commonShape (hk : k < maxRank shapes) :
    fromLast? (commonShape shapes) k = some (commonDim shapes k) := by
  simp [fromLast?, commonShape, hk]

/-- Shapes that agree have a common shape, and it is the least. -/
theorem Agree.isLeastCommon (h : Agree shapes) : IsLeastCommon shapes (commonShape shapes) := by
  constructor
  · intro src hsrc
    rw [broadcastsTo_iff_within]
    intro k e he
    have hk : k < src.length := fromLast?_isSome_iff.1 (Option.isSome_of_eq_some he)
    refine ⟨_, fromLast?_commonShape (Nat.lt_of_lt_of_le hk (length_le_maxRank hsrc)), ?_⟩
    by_cases hne : e = 1
    · exact .inl hne
    · exact .inr (h.commonDim_eq hsrc he hne).symm
  · intro dst hdst
    rw [broadcastsTo_iff_within]
    intro k d hd
    have hk : k < maxRank shapes := by
      rw [← length_commonShape]
      exact fromLast?_isSome_iff.1 (Option.isSome_of_eq_some hd)
    obtain rfl : commonDim shapes k = d :=
      Option.some.inj ((fromLast?_commonShape hk).symm.trans hd)
    rcases commonDim_cases shapes k with ⟨hone, -⟩ | ⟨src, hsrc, hd, -⟩
    · -- Some shape reaches the position, so the target does.
      obtain ⟨src, hsrc, hlt⟩ := exists_of_lt_maxRank hk
      obtain ⟨e, he⟩ := Option.isSome_iff_exists.1 (fromLast?_isSome_iff.2 hlt)
      obtain ⟨t, ht, -⟩ := (hdst src hsrc).fromLast? he
      exact ⟨t, ht, .inl hone⟩
    · exact (hdst src hsrc).fromLast? hd

theorem Agree.broadcast_eq (h : Agree shapes) : broadcast shapes = some (commonShape shapes) :=
  broadcast_eq_some_iff.2 h.isLeastCommon

/-! ## Broadcasting -/

/-- What broadcasting shapes gives: a shape of the largest number of axes. An axis has the length other than 1
that some shapes have at its position from the end, and length 1 where there is none. -/
structure HasCommonDims (shapes : List (List Nat)) (shape : List Nat) : Prop where
  length_eq : shape.length = maxRank shapes
  dim : ∀ k < shape.length, ∃ d, fromLast? shape k = some d
    ∧ (d ≠ 1 → ∃ src ∈ shapes, fromLast? src k = some d)
    ∧ ∀ src ∈ shapes, ∀ e, fromLast? src k = some e → e ≠ 1 → d = e

theorem Agree.hasCommonDims (h : Agree shapes) : HasCommonDims shapes (commonShape shapes) := by
  refine ⟨length_commonShape shapes, fun k hk => ?_⟩
  rw [length_commonShape] at hk
  refine ⟨commonDim shapes k, fromLast?_commonShape hk, fun hne => ?_, fun src hsrc e he hne => ?_⟩
  · rcases commonDim_cases shapes k with ⟨hone, -⟩ | ⟨src, hsrc, hd, -⟩
    · exact absurd hone hne
    · exact ⟨src, hsrc, hd⟩
  · exact h.commonDim_eq hsrc he hne

/-- Take any list of shapes. There is a common shape exactly if at every position from the end all axes that
are not of length 1 are equally long. Then it is the least shape that all of them broadcast to, in the
largest number of axes, each as long as those axes or 1. An array of one of the shapes is read at one of
its own indices for every index of the common shape. Every permutation of the shapes gives the same. -/
theorem broadcast_least (shapes : List (List Nat)) :
    ((∃ shape, broadcast shapes = some shape) ↔ Agree shapes)
      ∧ (∀ shape, broadcast shapes = some shape →
        IsLeastCommon shapes shape ∧ HasCommonDims shapes shape
        ∧ ∀ v : View, v.shape ∈ shapes → ∀ index, InRange shape index →
          InRange v.shape (v.ownIndex index)
          ∧ ∀ s, v.getBroadcast s index = v.get s (v.ownIndex index))
      ∧ ∀ shapes', shapes.Perm shapes' → broadcast shapes' = broadcast shapes := by
  refine ⟨⟨?_, fun h => ⟨_, h.broadcast_eq⟩⟩, fun shape hshape => ?_, fun _ => broadcast_perm⟩
  · rintro ⟨shape, hshape⟩
    exact agree_of_broadcastsTo (broadcast_eq_some_iff.1 hshape).common
  · have hleast := broadcast_eq_some_iff.1 hshape
    have hagree := agree_of_broadcastsTo hleast.common
    obtain rfl : commonShape shapes = shape :=
      Option.some.inj (hagree.broadcast_eq.symm.trans hshape)
    refine ⟨hleast, hagree.hasCommonDims, fun v hv index hindex => ⟨?_, fun _ => rfl⟩⟩
    exact (hleast.common v.shape hv).inRange_aligned hindex

/-- A column of three beside a row of four, given in either order, makes three rows of four, where the column is
read at its own row and the row at its own column. -/
theorem broadcast_least_column_row :
    broadcast [[3, 1], [4]] = some [3, 4] ∧ broadcast [[4], [3, 1]] = some [3, 4]
      ∧ ∀ v : View, v.shape = [3, 1] → InRange v.shape (v.ownIndex [2, 3]) := by
  have hshape : broadcast [[3, 1], [4]] = some [3, 4] := by decide
  obtain ⟨-, hresult, hperm⟩ := broadcast_least [[3, 1], [4]]
  refine ⟨hshape, ?_, fun v hv => ?_⟩
  · rw [hperm [[4], [3, 1]] (.swap _ _ _), hshape]
  · obtain ⟨-, -, hread⟩ := hresult [3, 4] hshape
    have hmem : v.shape ∈ [[3, 1], [4]] := hv ▸ List.mem_cons_self
    exact (hread v hmem [2, 3] (by decide)).1

end ArrayLang.Shape
