import ArrayLang.Proofs.Outcome
import ArrayLang.Proofs.SymbolicShape.SliceExtent

/-!
# Shapes that stand for integers

A dimension, and the value of an integer scalar, is either unknown or has an integer as its value
under the bindings of the shape variables. Each rule of shape inference keeps this of everything
inside an abstract value. It holds at the start, of what is known about the parameters, under the
variables' bindings to any arguments of the parameters' types: their variables are numbered apart, so
that each is bound to what its own argument contributes.

## Main results

- `SymbolicShape.Integral.fold`: arithmetic on integers that may be unknown.
- `AbstractValue.Integral.join`, and a lemma for each rule of inference.
- `AbstractValue.integral_ofParams`: what is known about the parameters.
-/

namespace ArrayLang

variable {b : ShapeBindings}

/-! ## Dimensions -/

namespace SymbolicShape

variable {s lhs rhs : SymbolicShape}

/-- If the shape is known, its value is an integer. -/
def Integral (b : ShapeBindings) (s : SymbolicShape) : Prop :=
  s.hasUnknown = false → ∃ n, s.eval b = .ok (.int n)

namespace Integral

theorem unknown : SymbolicShape.unknown.Integral b :=
  fun h => nomatch h

theorem const (n : Int64) : (SymbolicShape.const n).Integral b :=
  fun _ => ⟨n, rfl⟩

/-- A shape that may be missing, or another in its place. -/
theorem getD {s? : Option SymbolicShape} (h : ∀ s ∈ s?, s.Integral b) (hr : rhs.Integral b) :
    (s?.getD rhs).Integral b := by
  cases s? with
  | none => exact hr
  | some s => exact h s rfl

end Integral

theorem hasUnknown_binop {op : ShapeOp} :
    (binop op lhs rhs).hasUnknown = false ↔ lhs.hasUnknown = false ∧ rhs.hasUnknown = false := by
  rw [hasUnknown, Bool.or_eq_false_iff]

/-- A constant operand may be dropped, if the operation is left out with it. -/
theorem hasUnknown_ite {op : ShapeOp} {p : Prop} [Decidable p]
    (hs : s.hasUnknown = false → lhs.hasUnknown = false ∧ rhs.hasUnknown = false)
    (h : (if p then s else binop op lhs rhs).hasUnknown = false) :
    lhs.hasUnknown = false ∧ rhs.hasUnknown = false := by
  by_cases hp : p
  · rw [if_pos hp] at h
    exact hs h
  · rw [if_neg hp] at h
    exact hasUnknown_binop.1 h

/-- Folding drops constants only. -/
theorem hasUnknown_fold {op : ShapeOp} (h : (fold op lhs rhs).hasUnknown = false) :
    lhs.hasUnknown = false ∧ rhs.hasUnknown = false := by
  unfold fold at h
  split at h
  -- An operand that is unknown makes the result unknown.
  · cases h
  · cases h
  -- Two constants.
  · exact ⟨rfl, rfl⟩
  · exact ⟨rfl, rfl⟩
  · exact ⟨rfl, rfl⟩
  · exact ⟨rfl, rfl⟩
  · exact ⟨rfl, rfl⟩
  -- One constant, which may be neutral.
  · exact hasUnknown_ite (fun h => ⟨h, rfl⟩) h
  · exact hasUnknown_ite (fun h => ⟨rfl, h⟩) h
  · exact hasUnknown_ite (fun h => ⟨h, rfl⟩) h
  · exact hasUnknown_ite (fun h => ⟨h, rfl⟩) h
  · exact hasUnknown_ite (fun h => ⟨rfl, h⟩) h
  · exact hasUnknown_ite (fun h => ⟨h, rfl⟩) h
  · exact hasUnknown_binop.1 h

theorem Integral.fold (op : ShapeOp) (hl : lhs.Integral b) (hr : rhs.Integral b) :
    (fold op lhs rhs).Integral b := by
  intro h
  obtain ⟨hlhs, hrhs⟩ := hasUnknown_fold h
  obtain ⟨x, hx⟩ := hl hlhs
  obtain ⟨y, hy⟩ := hr hrhs
  exact ⟨op.apply x y, eval_fold op hx hy⟩

end SymbolicShape

/-! ## Abstract values -/

namespace AbstractValue

variable {v w : AbstractValue} {vs ws : List AbstractValue} {dims : List SymbolicShape}

mutual
/-- Every scalar and every dimension in the value is an integer, or unknown. -/
def Integral (b : ShapeBindings) : AbstractValue → Prop
  | scalar s => s.Integral b
  | array dims => ∀ d ∈ dims, d.Integral b
  | tuple items => AllIntegral b items
  | closure _ captured => AllIntegral b captured
  | untracked => True
termination_by structural v => v

def AllIntegral (b : ShapeBindings) : List AbstractValue → Prop
  | [] => True
  | v :: vs => v.Integral b ∧ AllIntegral b vs
termination_by structural vs => vs
end

theorem allIntegral_iff : AllIntegral b vs ↔ ∀ v ∈ vs, v.Integral b := by
  induction vs with
  | nil => simp [AllIntegral]
  | cons v vs ih => rw [AllIntegral, ih, List.forall_mem_cons]

theorem integral_tuple : (tuple vs).Integral b ↔ ∀ v ∈ vs, v.Integral b :=
  allIntegral_iff

theorem integral_closure {func : String} : (closure func vs).Integral b ↔ ∀ v ∈ vs, v.Integral b :=
  allIntegral_iff

mutual
theorem integral_unknownOf : ∀ t : Ty, (unknownOf t).Integral b
  | .scalar _ => .unknown
  | .array _ _ => fun _ hd => List.eq_of_mem_replicate hd ▸ .unknown
  | .tuple items => allIntegral_unknownOf items
  | .struct _ fields => allIntegral_unknownOfFields fields
  | .closure _ captured => allIntegral_unknownOf captured
  | .none => trivial
  | .slice _ _ _ => trivial
termination_by structural t => t

theorem allIntegral_unknownOf : ∀ ts : List Ty, AllIntegral b (unknownOfList ts)
  | [] => trivial
  | t :: ts => ⟨integral_unknownOf t, allIntegral_unknownOf ts⟩
termination_by structural ts => ts

theorem allIntegral_unknownOfFields : ∀ ts : List (String × Ty), AllIntegral b (unknownOfFields ts)
  | [] => trivial
  | (_, t) :: ts => ⟨integral_unknownOf t, allIntegral_unknownOfFields ts⟩
termination_by structural ts => ts
end

theorem Integral.joinDim {x y : SymbolicShape} (hx : x.Integral b) : (joinDim x y).Integral b := by
  unfold AbstractValue.joinDim
  split
  · exact hx
  · exact .unknown

theorem integral_ite {p : Prop} [Decidable p] (hv : v.Integral b) :
    (if p then v else untracked).Integral b := by
  split
  · exact hv
  · trivial

mutual
/-- What two values agree on is an integer in each. -/
theorem Integral.join : ∀ {v : AbstractValue}, v.Integral b → ∀ w, (v.join w).Integral b
  | scalar _, h, w => by
    cases w with
    | scalar _ => exact Integral.joinDim h
    | _ => trivial
  | array as, h, w => by
    cases w with
    | array bs =>
      refine integral_ite fun d hd => ?_
      obtain ⟨i, hi, rfl⟩ := List.getElem_of_mem hd
      rw [List.getElem_zipWith]
      exact Integral.joinDim (h _ (List.getElem_mem _))
    | _ => trivial
  | tuple _, h, w => by
    cases w with
    | tuple bs => exact integral_ite (allIntegral_join h bs)
    | _ => trivial
  | closure _ _, h, w => by
    cases w with
    | closure _ bs => exact integral_ite (allIntegral_join h bs)
    | _ => trivial
  | untracked, _, w => by cases w <;> trivial
termination_by structural v => v

theorem allIntegral_join : ∀ {vs : List AbstractValue}, AllIntegral b vs → ∀ ws,
    AllIntegral b (joinList vs ws)
  | [], _, _ => trivial
  | _ :: _, _, [] => trivial
  | _ :: _, h, w :: ws => ⟨h.1.join w, allIntegral_join h.2 ws⟩
termination_by structural vs => vs
end

theorem Integral.value (h : v.Integral b) : v.value.Integral b := by
  cases v with
  | scalar s => exact h
  | _ => exact .unknown

/-- A value that may be missing, or another in its place. -/
theorem integral_getD {v? : Option AbstractValue} {w : AbstractValue} (h : ∀ v ∈ v?, v.Integral b)
    (hw : w.Integral b) : (v?.getD w).Integral b := by
  cases v? with
  | none => exact hw
  | some v => exact h v rfl

end AbstractValue

/-! ## Rules of inference -/

namespace ShapeInference

open AbstractValue SymbolicShape

variable {v : AbstractValue} {args items : List AbstractValue} {dims : List SymbolicShape}
  {axis : Nat} {len : SymbolicShape}

theorem integral_broadcastDims (hargs : ∀ v ∈ args, v.Integral b) (rank : Nat) :
    ∀ d ∈ broadcastDims args rank, d.Integral b := by
  intro d hd
  obtain ⟨pos, -, rfl⟩ := List.mem_map.1 hd
  refine .getD (fun d hd => ?_) (.const 1)
  obtain ⟨arg, harg, hdim⟩ := List.mem_filterMap.1 (List.mem_of_find?_eq_some hd)
  cases arg with
  | array dims => exact hargs _ harg d (List.mem_reverse.1 (List.mem_of_getElem? hdim))
  | _ => cases hdim

theorem integral_stackElement (hv : v.Integral b) (hlen : len.Integral b) (axis : Nat) :
    (stackElement v len axis).Integral b := by
  cases v with
  | scalar s => exact List.forall_mem_singleton.2 hlen
  | array dims =>
    intro d hd
    rcases (List.mem_insertIdx (Nat.min_le_right axis dims.length)).1 hd with rfl | hd
    · exact hlen
    · exact hv d hd
  | _ => trivial

theorem integral_sliceArg (hv : v.Integral b) (axis : Nat) : (sliceArg axis v).Integral b := by
  cases v with
  | array dims =>
    have herase : ∀ d ∈ dims.eraseIdx axis, d.Integral b :=
      fun d hd => hv d (List.mem_of_mem_eraseIdx hd)
    unfold sliceArg
    dsimp only
    split
    · split
      · exact .unknown
      · exact herase
    · exact hv
  | _ => exact hv

theorem integral_axisLength (hargs : ∀ v ∈ args, v.Integral b) (axis : Nat) :
    (axisLength axis args).Integral b := by
  refine .getD (fun d hd => ?_) .unknown
  obtain ⟨arg, harg, hdim⟩ := List.exists_of_findSome?_eq_some hd
  cases arg with
  | array dims =>
    dsimp only at hdim
    cases hget : dims[axis]? with
    | none =>
      rw [hget] at hdim
      cases hdim
    | some dim =>
      rw [hget] at hdim
      obtain ⟨-, heq⟩ := Option.ite_none_left_eq_some.1 hdim
      cases heq
      exact hargs _ harg d (List.mem_of_getElem? hget)
  | _ => cases hdim

theorem integral_operatorResult (op : Operator) (ty : Ty) (hargs : ∀ v ∈ args, v.Integral b) :
    (operatorResult op ty args).Integral b := by
  unfold operatorResult
  split
  · exact integral_broadcastDims hargs _
  · split
    · split
      · obtain ⟨hlhs, hrhs, -⟩ := List.forall_mem_cons.1 hargs |>.imp_right List.forall_mem_cons.1
        exact SymbolicShape.Integral.fold _ hlhs.value hrhs.value
      · exact .unknown
    · exact integral_unknownOf _
  · exact integral_unknownOf _

/-- The number of elements, as a product of dimensions. -/
theorem integral_product {n : SymbolicShape} (hn : n.Integral b) (hdims : ∀ d ∈ dims, d.Integral b) :
    (dims.foldl (.fold .mul) n).Integral b := by
  induction dims generalizing n with
  | nil => exact hn
  | cons d dims ih =>
    obtain ⟨hd, hdims⟩ := List.forall_mem_cons.1 hdims
    exact ih (hn.fold .mul hd) hdims

theorem integral_attributeResult (hv : v.Integral b) (base : Ty) (name : String) (ty : Ty) :
    (attributeResult v base name ty).Integral b := by
  cases v with
  | array dims =>
    unfold attributeResult
    dsimp only
    split
    · refine integral_tuple.2 fun w hw => ?_
      obtain ⟨d, hd, rfl⟩ := List.mem_map.1 hw
      exact hv d hd
    · split
      · exact .const _
      · split
        · exact integral_product (.const 1) hv
        · exact integral_unknownOf ty
  | tuple fields =>
    unfold attributeResult
    dsimp only
    split
    · split
      · have hget (i : Nat) : ∀ w ∈ fields[i]?, w.Integral b :=
          fun w hw => integral_tuple.1 hv w (List.mem_of_getElem? hw)
        exact integral_getD (hget _) (integral_unknownOf ty)
      · exact integral_unknownOf ty
    · exact integral_unknownOf ty
  | _ => exact integral_unknownOf ty

theorem integral_tupleItem (hitems : ∀ v ∈ items, v.Integral b) (i : Int) (ty : Ty) :
    (tupleItem items i ty).Integral b := by
  refine integral_getD (fun w hw => ?_) (integral_unknownOf ty)
  obtain ⟨-, hget⟩ := Option.ite_none_left_eq_some.1 hw
  exact hitems w (List.mem_of_getElem? hget)

theorem integral_literalResult (hitems : ∀ v ∈ items, v.Integral b) :
    (literalResult items).Integral b := by
  refine List.forall_mem_cons.2 ⟨.const _, ?_⟩
  split
  · rename_i dims hhead
    exact hitems _ (List.mem_of_head? hhead)
  · exact fun d hd => (List.not_mem_nil hd).elim

theorem integral_allocResult (hv : v.Integral b) (ty : Ty) : (allocResult v ty).Integral b := by
  cases v with
  | scalar len => exact List.forall_mem_singleton.2 hv
  | tuple dims =>
    intro d hd
    obtain ⟨w, hw, rfl⟩ := List.mem_map.1 hd
    exact (integral_tuple.1 hv w hw).value
  | _ => exact integral_unknownOf ty

theorem integral_selected (hdims : ∀ d ∈ dims, d.Integral b) : (selected dims).Integral b := by
  unfold selected
  split
  · exact .unknown
  · exact hdims

end ShapeInference

/-! ## Parameters -/

theorem Value.tys?_cons {v : Value} {vs : List Value} {ts : List Ty}
    (h : Value.tys? (v :: vs) = some ts) :
    ∃ t ts', v.ty? = some t ∧ Value.tys? vs = some ts' ∧ ts = t :: ts' := by
  rw [Value.tys?] at h
  split at h
  · rename_i t ts' hv hvs
    cases h
    exact ⟨t, ts', hv, hvs, rfl⟩
  · cases h

theorem Value.length_tys? : ∀ {vs : List Value} {ts : List Ty}, Value.tys? vs = some ts →
    vs.length = ts.length
  | [], ts, h => by
    cases h
    rfl
  | v :: vs, ts, h => by
    obtain ⟨t, ts', -, hvs, rfl⟩ := tys?_cons h
    exact congrArg Nat.succ (length_tys? hvs)

theorem ShapeValue.length_ofArgs (vs : List Value) : (ofArgs vs).length = vs.length := by
  induction vs with
  | nil => rfl
  | cons v vs ih => rw [ofArgs, List.length_cons, List.length_cons, ih]

namespace ParamShape

variable {next mid stop : Nat} {bound bound' : ShapeBindings}

/-- The bound variables are numbered upwards from `next` on, and stay below `stop`. -/
structure Numbered (next stop : Nat) (bound : ShapeBindings) : Prop where
  le : next ≤ stop
  upwards : bound.Pairwise (·.1 < ·.1)
  range : ∀ e ∈ bound, next ≤ e.1 ∧ e.1 < stop

namespace Numbered

theorem nil : Numbered next next [] :=
  ⟨Nat.le_refl next, .nil, fun _ he => (List.not_mem_nil he).elim⟩

theorem single (value : ShapeValue) : Numbered next (next + 1) [(next, value)] := by
  refine ⟨Nat.le_succ next, List.pairwise_singleton _ _, fun e he => ?_⟩
  rw [List.mem_singleton.1 he]
  exact ⟨Nat.le_refl next, Nat.lt_succ_self next⟩

theorem append (h : Numbered next mid bound) (h' : Numbered mid stop bound') :
    Numbered next stop (bound ++ bound') := by
  have hle := h.le
  have hle' := h'.le
  refine ⟨Nat.le_trans hle hle', List.pairwise_append.2 ⟨h.upwards, h'.upwards, fun e he e' he' => ?_⟩,
    fun e he => ?_⟩
  -- All variables of the first are below `mid`, all of the second are not.
  · have hlow := (h.range e he).2
    have hhigh := (h'.range e' he').1
    omega
  · rcases List.mem_append.1 he with he | he
    · have hrange := h.range e he
      omega
    · have hrange := h'.range e he
      omega

/-- A variable is bound to what it is listed with, since no other entry is for it. -/
theorem lookup (h : Numbered next stop bound) {e : Nat × ShapeValue} (he : e ∈ bound) :
    bound.lookup e.1 = some e.2 := by
  have hupwards := h.upwards
  clear h
  induction bound with
  | nil => exact (List.not_mem_nil he).elim
  | cons e' bound ih =>
    obtain ⟨hfirst, hrest⟩ := List.pairwise_cons.1 hupwards
    rcases List.mem_cons.1 he with rfl | he
    · exact List.lookup_cons_self
    · have hne : e.1 ≠ e'.1 := Nat.ne_of_gt (hfirst e he)
      rw [List.lookup_cons, beq_false_of_ne hne]
      exact ih he hrest

end Numbered

mutual
/-- A parameter binds the variables that its description was given, whatever the argument. -/
theorem numbered_bind : ∀ (t : Ty) (next : Nat) (arg : ShapeValue),
    Numbered next (ofTy t next).2 ((ofTy t next).1.bind arg)
  | .scalar _, _, arg => .single arg
  | .array _ _, _, arg => .single arg.shapeOf
  | .tuple items, next, arg => numbered_bindAll items next arg.entries
  | .struct _ _, _, _ => .nil
  | .closure _ _, _, _ => .nil
  | .none, _, _ => .nil
  | .slice _ _ _, _, _ => .nil
termination_by structural t => t

theorem numbered_bindAll : ∀ (ts : List Ty) (next : Nat) (args : List ShapeValue),
    Numbered next (ofTys ts next).2 (bindAll (ofTys ts next).1 args)
  | [], _, _ => .nil
  | t :: ts, next, [] => by
    have hle := (numbered_bind t next default).le
    have hle' := (numbered_bindAll ts (ofTy t next).2 []).le
    exact ⟨Nat.le_trans hle hle', .nil, fun _ he => (List.not_mem_nil he).elim⟩
  | t :: ts, next, arg :: args =>
    (numbered_bind t next arg).append (numbered_bindAll ts (ofTy t next).2 args)
termination_by structural ts => ts
end

end ParamShape

namespace AbstractValue

open ParamShape ShapeValue

/-- The bindings bind each of the listed variables to what it is listed with. -/
def Binds (b bound : ShapeBindings) : Prop :=
  ∀ e ∈ bound, b.lookup e.1 = some e.2

theorem binds_append {bound bound' : ShapeBindings} :
    Binds b (bound ++ bound') ↔ Binds b bound ∧ Binds b bound' :=
  List.forall_mem_append

/-- A dimension of an array parameter. -/
theorem integral_dim_var {i k : Nat} {ds : List Int64}
    (hi : b.lookup i = some (.tuple (ofDims ds))) (hk : k < ds.length) :
    (SymbolicShape.dim (.var i) k).Integral b := by
  have hentry : (ofDims ds)[k]? = some (.int ds[k]) := by
    rw [ofDims, List.getElem?_map, List.getElem?_eq_getElem hk]
    rfl
  have hvar : (SymbolicShape.var i).eval b = .ok (.tuple (ofDims ds)) := by
    rw [SymbolicShape.eval, hi]
  have hentries : (SymbolicShape.dim (.var i) k).eval b = .ok (.int ds[k]) := by
    rw [SymbolicShape.eval, Outcome.bind_eq_ok]
    refine ⟨.tuple (ofDims ds), hvar, ?_⟩
    dsimp only [ShapeValue.entries]
    rw [hentry]
  exact fun _ => ⟨ds[k], hentries⟩

mutual
/-- What is known about a parameter, under bindings to an argument of its type. -/
theorem integral_ofParam : ∀ (t : Ty) (next : Nat) (v : Value), v.ty? = some t →
    Binds b ((ofTy t next).1.bind (ofArg v)) → (ofParam (ofTy t next).1 t).Integral b
  | .scalar _, next, v, hty, hb => by
    cases v with
    | scalar x =>
      have hnext := hb (next, .int x.toInt64) List.mem_cons_self
      refine fun _ => ⟨x.toInt64, ?_⟩
      rw [SymbolicShape.eval, hnext]
    | _ => simp [Value.ty?] at hty
  | .array _ rank, next, v, hty, hb => by
    cases v with
    | array w =>
      have hnext := hb (next, .tuple (ofDims (w.shape.map Int64.ofNat))) List.mem_cons_self
      have hrank : w.rank = rank := by
        rw [Value.ty?] at hty
        cases hty
        rfl
      -- The rank of the type is that of the array, so every dimension asked for is there.
      intro d hd
      obtain ⟨k, hk, rfl⟩ := List.mem_map.1 hd
      have hlt : k < w.rank := hrank.symm ▸ List.mem_range.1 hk
      refine integral_dim_var hnext ?_
      rw [List.length_map]
      exact hlt
    | _ => simp [Value.ty?] at hty
  | .tuple items, next, v, hty, hb => by
    cases v with
    | tuple vs =>
      rw [Value.ty?, Option.map_eq_some_iff] at hty
      obtain ⟨ts, hts, heq⟩ := hty
      cases heq
      exact allIntegral_ofParams items next vs hts hb
    | _ => simp [Value.ty?] at hty
  | .struct name fields, _, _, _, _ => integral_unknownOf (.struct name fields)
  | .closure func captured, _, _, _, _ => integral_unknownOf (.closure func captured)
  | .none, _, _, _, _ => trivial
  | .slice _ _ _, _, _, _, _ => trivial
termination_by structural t => t

theorem allIntegral_ofParams : ∀ (ts : List Ty) (next : Nat) (vs : List Value),
    Value.tys? vs = some ts → Binds b (bindAll (ofTys ts next).1 (ofArgs vs)) →
      AllIntegral b (ofParams (ofTys ts next).1 ts)
  | [], _, _, _, _ => trivial
  | t :: ts, next, vs, htys, hb => by
    cases vs with
    | nil => cases htys
    | cons v vs =>
      obtain ⟨t', ts', hv, hvs, heq⟩ := Value.tys?_cons htys
      cases heq
      -- The other parameters are numbered from where this one ends.
      obtain ⟨hfirst, hrest⟩ := binds_append.1 hb
      exact ⟨integral_ofParam t next v hv hfirst,
        allIntegral_ofParams ts (ofTy t next).2 vs hvs hrest⟩
termination_by structural ts => ts
end

/-- What is known about the parameters, under the bindings to arguments of their types. -/
theorem integral_ofParams {types : List Ty} {vs : List Value} (htys : Value.tys? vs = some types) :
    AllIntegral (bindAll (layout types) (ofArgs vs)) (ofParams (layout types) types) :=
  allIntegral_ofParams types 0 vs htys fun _ he =>
    (numbered_bindAll types 0 (ofArgs vs)).lookup he

end AbstractValue
end ArrayLang
