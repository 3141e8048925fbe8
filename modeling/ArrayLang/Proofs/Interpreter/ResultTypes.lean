import ArrayLang.Interpreter.Evaluation
import ArrayLang.Proofs.Interpreter.IndexTypes
import ArrayLang.Proofs.Value.Carried

/-!
# What operations make of values of types

Typing names a type for each form of expression from the types of its parts. Where an operation gives a
result on values of the types of the parts, the result is of that type, and the arrays that there were are
still what they were. An operator and a literal convert scalars themselves, so it does not matter whether
some of them were converted before.

## Main results

- `attributeOf_ofType`, `indexValue_ofType`, `castValue_makesType`, `allocValue_makesType`,
  `applyOperator_makesType`, `arrayLiteral_makesType`: the results are of the types that typing names.
- `applyOperator_recast`, `arrayLiteral_recast`: scalars may be converted before.
-/

namespace ArrayLang

open Value TypingRule Interpreter

variable {s : Store} {v w : Value} {ty ty' : Ty} {elt : ElemType}

/-- In `s` the operation retains what is well formed and makes a value of the type. -/
def MakesType (ty : Ty) (s : Store) (f : Store → Value × Store) : Prop :=
  s.Retains (f s).2 ∧ (f s).1.OfType (f s).2 ty

/-- A result that leaves the store as it is. -/
theorem MakesType.pure (h : v.OfType s ty) : MakesType ty s (v, ·) :=
  ⟨.refl s, h⟩

/-- A new array. -/
theorem MakesType.ofFlat (elt : ElemType) {shape : List Nat} {data : List Scalar}
    (hlength : data.length = Shape.size shape) (hrank : 0 < shape.length) :
    MakesType (.array elt shape.length) s (newArray (View.ofFlat elt shape data)) :=
  ⟨fun _ _ hv => hv.alloc _, .array hrank (View.ofFlat_typed elt s hlength)⟩

/-! ## Constants and parts of values -/

theorem Value.ofLiteral_ofType (lit : Literal) : (ofLiteral lit).OfType s lit.ty := by
  cases lit with
  | none => exact .none
  | bool b => exact .scalar rfl
  | int n => exact .scalar rfl
  | float x => exact .scalar rfl

/-- A constant has the same value without its type and with it. -/
theorem literalValue_none (lit : Literal) : literalValue lit none = ofLiteral lit := by
  cases lit <;> rfl

theorem literalValue_ty (lit : Literal) : literalValue lit (some lit.ty) = ofLiteral lit := by
  cases lit <;> rfl

namespace Value

theorem AllOfType.of_forall {vs : List Value} (h : ∀ v ∈ vs, v.OfType s ty) :
    AllOfType s vs (List.replicate vs.length ty) := by
  induction vs with
  | nil => exact .nil
  | cons v vs ih =>
    obtain ⟨hv, hvs⟩ := List.forall_mem_cons.1 h
    exact .cons hv (ih hvs)

theorem AllOfType.append {vs ws : List Value} {types types' : List Ty} (h : AllOfType s vs types)
    (h' : AllOfType s ws types') : AllOfType s (vs ++ ws) (types ++ types') := by
  induction vs generalizing types with
  | nil =>
    cases h
    exact h'
  | cons v vs ih =>
    cases h with
    | cons hv hvs => exact .cons hv (ih hvs)

theorem AllOfType.ofLiterals : ∀ literals : List Literal,
    AllOfType s (literals.map ofLiteral) (literals.map Literal.ty)
  | [] => .nil
  | lit :: literals => .cons (ofLiteral_ofType lit) (ofLiterals literals)

theorem FieldsOfType.lookup {fields : List (String × Value)} {types : List (String × Ty)}
    (h : FieldsOfType s fields types) {name : String} (hty : types.lookup name = some ty)
    (hv : fields.lookup name = some v) : v.OfType s ty := by
  induction fields generalizing types with
  | nil => cases hv
  | cons p fields ih =>
    cases h with
    | @cons field _ _ _ _ h hrest =>
      rw [List.lookup_cons] at hty hv
      by_cases hname : name == field
      · rw [hname] at hty hv
        cases hty
        cases hv
        exact h
      · rw [Bool.not_eq_true] at hname
        rw [hname] at hty hv
        exact ih hrest hty hv

end Value

/-- A part of a value is of the type that typing finds. -/
theorem attributeOf_ofType {name : String} (hty : attributeType ty name = .ok ty')
    (hv : v.OfType s ty) (h : attributeOf s v name = .ok w) : w.OfType s ty' := by
  unfold attributeOf at h
  split at h
  · rename_i part hpart
    cases h
    cases hv with
    | @array a hrank ha =>
      by_cases hshape : name = "shape"
      · subst hshape
        cases hty
        cases hpart
        refine .tuple ?_
        have hdims : ∀ d ∈ a.shape.map Value.ofNat, d.OfType s .int64 :=
          List.forall_mem_map.2 fun n _ => .scalar rfl
        have htypes := AllOfType.of_forall hdims
        rwa [List.length_map] at htypes
      · have hnumber : ty' = .int64 := by
          simp only [attributeType, if_neg hshape] at hty
          split at hty
          · exact (Except.ok.inj hty).symm
          · cases hty
        simp only [attribute?, if_neg hshape] at hpart
        rw [hnumber]
        split at hpart
        · cases hpart
          exact .scalar rfl
        · split at hpart
          · cases hpart
            exact .scalar rfl
          · cases hpart
    | @slice r start stop step hstart hstop hstep =>
      simp only [attributeType] at hty
      simp only [attribute?] at hpart
      split_ifs at hty hpart <;> cases hty <;> cases hpart <;> assumption
    | @struct _ fields types hfields =>
      simp only [attributeType] at hty
      split at hty
      · rename_i found hfound
        cases hty
        exact hfields.lookup hfound hpart
      · cases hty
    | _ => cases hty
  · cases h

/-- A selection is of the type that typing finds. A tuple is indexed by the constant that typing saw. -/
theorem indexValue_ofType {base index : Value} {baseTy indexTy : Ty} {e : Expr}
    (hty : indexType baseTy e indexTy = .ok ty) (hbase : base.OfType s baseTy)
    (hindex : index.OfType s indexTy) (hconst : ∀ n, e.node = .lit (.int n) → index = .int n)
    (h : indexValue s base index = .ok v) : v.OfType s ty := by
  rcases indexType_eq_ok hty with
    ⟨elt, rank, dropped, rfl, hmany, hdropped, rfl⟩ | ⟨types, n, rfl, hnode, hnonneg, hcomponent⟩
  · cases hbase with
    | @array a hrank ha =>
      rcases ha.indexValue_array hindex.conforms hdropped hmany with ⟨cause, hcause, -⟩ | ⟨w, hw, hof⟩
      · cases hcause.symm.trans h
      · cases hw.symm.trans h
        exact hof
  · cases hbase with
    | tuple hitems =>
      obtain rfl := hconst n hnode
      obtain ⟨w, hw, hof, -⟩ := hitems.indexValue_tuple hnonneg hcomponent
      cases hw.symm.trans h
      exact hof

/-- The bounds of a slice have the types that typing finds for them. -/
theorem ofInt?_of_sliceBound {bound : Option Int64} (hv : v.OfType s ty)
    (h : sliceBound? v = some bound) (hty : isSliceBound ty) : (ofInt? bound).OfType s ty := by
  cases hv with
  | none =>
    cases h
    exact .none
  | @scalar x elt hx =>
    have hinteger : (Ty.scalar elt).isInteger := by simpa [isSliceBound] using hty
    obtain ⟨n, hn⟩ := (Conforms.scalar hx).exists_int hinteger
    cases hn
    cases h
    exact .scalar hx
  | _ => cases h

/-! ## New arrays -/

theorem castValue_makesType (hty : castType ty elt = .ok ty') (hv : v.OfType s ty) :
    Outcome.Gives (MakesType ty' s) (castValue elt v s) := by
  cases hv with
  | scalar h =>
    cases hty
    exact .ok (.pure (.scalar (Scalar.cast_cast _ elt)))
  | @array a hrank h =>
    cases hty
    exact .ok (.ofFlat elt (a.length_toFlat s) hrank)
  | _ => cases hty

theorem allocValue_makesType (hty : allocType elt ty = .ok ty') (hv : v.OfType s ty) :
    Outcome.Gives (MakesType ty' s) (allocValue elt v s) := by
  unfold allocValue
  cases hdims : dims? v with
  | none => exact .error _
  | some dims =>
    refine .ok ?_
    have hrank : 0 < dims.length ∧ ty' = .array elt dims.length := by
      cases hv with
      | @tuple items types hitems =>
        have hlength : items.length = dims.length := by
          have hmapM : items.mapM dims?.dim? = some dims := hdims
          exact (Outcome.mapM_eq_some.1 hmapM).length_eq
        simp only [allocType, Ty.isInteger, Bool.false_eq_true, if_false] at hty
        split at hty
        · rename_i hsome
          rw [Bool.and_eq_true] at hsome
          have hpos : types ≠ [] := by simpa using hsome.1
          cases hty
          rw [← hlength, hitems.length_eq]
          exact ⟨List.length_pos_iff.2 hpos, rfl⟩
        · cases hty
      | @scalar x e hx =>
        have hsingle : dims.length = 1 := by
          obtain ⟨n, -, rfl⟩ := Option.map_eq_some_iff.1 hdims
          rfl
        simp only [allocType] at hty
        split at hty
        · cases hty
          rw [hsingle]
          exact ⟨Nat.one_pos, rfl⟩
        · cases hty
      | _ => cases hdims
    rw [hrank.2]
    have hmakes := MakesType.ofFlat (s := s) elt
      (List.length_replicate (n := Shape.size dims) (a := Scalar.int 0)) hrank.1
    have hzeros : newArray (View.zeros elt dims)
        = newArray (View.ofFlat elt dims (List.replicate (Shape.size dims) (.int 0))) := by
      funext s
      simp only [newArray, View.zeros_eq_ofFlat]
    rw [hzeros]
    exact hmakes

/-! ## Operators -/

/-- The value, or a cast of it if it is a scalar. -/
inductive Value.Recast (elt : ElemType) : Value → Value → Prop
  | same (v : Value) : Recast elt v v
  | cast (x : Scalar) : Recast elt (.scalar x) (.scalar (x.cast elt))

/-- A scalar or an array whose element type scalars have on their own is an operand of its type. -/
theorem Value.OfType.eq_operandTy (h : v.OfType s ty) (hcarried : ty.Carried)
    (helt : ty.elt? = some elt) : v.IsOperand ∧ v.operandTy = ty ∧ v.operandElt = elt := by
  have hcarrier := hcarried.elt helt
  cases h with
  | scalar h =>
    cases helt
    have hnatural := Scalar.carrier_of_cast_eq_self h
    rw [show elt.carrier = elt from hcarrier] at hnatural
    subst hnatural
    exact ⟨trivial, rfl, rfl⟩
  | array hrank h =>
    cases helt
    exact ⟨trivial, rfl, rfl⟩
  | _ => cases helt

namespace Operator

variable {op : Operator} {args args' : List Value} {types expected : List Ty}

/-- Values of the types that an operator has a signature for are operands of it. -/
theorem applies_of_types (hargs : AllOfType s args types) (hcarried : ∀ ty ∈ types, ty.Carried)
    (h : op.expectedTypes? types = some expected) :
    op.Applies args ∧ (∀ v ∈ args, v.operandElt.IsCarrier)
      ∧ expected = args.map fun v => Ty.arrayOf (op.inputOf args) v.shape.length := by
  obtain ⟨hlength, elts, helts, -⟩ := expectedTypes?_eq_some_iff.1 h
  have hoperands : (∀ v ∈ args, v.IsOperand) ∧ (∀ v ∈ args, v.operandElt.IsCarrier)
      ∧ args.map operandTy = types := by
    clear h hlength
    induction args generalizing types elts with
    | nil =>
      cases hargs
      exact ⟨nofun, nofun, rfl⟩
    | cons v args ih =>
      cases hargs with
      | cons hv hargs =>
        obtain ⟨hty, hcarried⟩ := List.forall_mem_cons.1 hcarried
        cases Outcome.mapM_eq_some.1 helts with
        | cons helt hrest =>
          obtain ⟨hoperand, htype, helt'⟩ := hv.eq_operandTy hty helt
          obtain ⟨hoperands, hcarriers, htypes⟩ :=
            ih hargs hcarried _ (Outcome.mapM_eq_some.2 hrest)
          refine ⟨List.forall_mem_cons.2 ⟨hoperand, hoperands⟩,
            List.forall_mem_cons.2 ⟨?_, hcarriers⟩, congrArg₂ List.cons htype htypes⟩
          rw [helt']
          exact hty.elt helt
  obtain ⟨hoperands, hcarriers, rfl⟩ := hoperands
  rw [List.length_map] at hlength
  have happlies : op.Applies args := ⟨hlength, hoperands⟩
  exact ⟨happlies, hcarriers, Option.some.inj (h.symm.trans (expectedTypes?_eq happlies))⟩

/-- The element type that an operator computes with is that of the types it asks for. -/
theorem inputOf_eq_of_types (hargs : AllOfType s args types) (hcarried : ∀ ty ∈ types, ty.Carried)
    (h : op.expectedTypes? types = some expected) (helt : expected.head?.bind Ty.elt? = some elt) :
    op.inputOf args = elt := by
  obtain ⟨happlies, -, rfl⟩ := applies_of_types hargs hcarried h
  obtain ⟨first, rest, rfl⟩ := List.exists_cons_of_ne_nil happlies.ne_nil
  rw [List.map_cons, List.head?_cons, Option.bind_some, elt?_arrayOf] at helt
  exact Option.some.inj helt

end Operator

/-- Arrays of types have axes. -/
theorem Value.AllOfType.rank_pos {vs : List Value} {types : List Ty} (h : AllOfType s vs types)
    {a : View} (ha : .array a ∈ vs) : 0 < a.rank := by
  induction vs generalizing types with
  | nil => cases ha
  | cons v vs ih =>
    cases h with
    | cons hv hvs =>
      rcases List.mem_cons.1 ha with rfl | ha
      · cases hv with
        | array hrank _ => exact hrank
      · exact ih hvs ha

open Operator in
theorem applyOperator_makesType {op : Operator} {args : List Value} {types expected : List Ty}
    (hargs : AllOfType s args types) (hcarried : ∀ ty ∈ types, ty.Carried)
    (h : op.expectedTypes? types = some expected) :
    Outcome.Gives (MakesType (op.resultType expected) s) (applyOperator op args none s) := by
  obtain ⟨happlies, hcarriers, rfl⟩ := applies_of_types hargs hcarried h
  have hresult := isCarrier_resultOf (isCarrier_inputOf op happlies.ne_nil hcarriers)
  intro f hf
  have happlied := applyOperator_applied op args none s
  rw [hf] at happlied
  cases happlied with
  | computed _ hcomputed =>
    change op.Computed args (op.resultOf args) s (f s) at hcomputed
    unfold MakesType
    rw [resultType_eq happlies.ne_nil]
    generalize f s = r at hcomputed
    cases hcomputed with
    | scalar hscalars hx =>
      rw [← Shape.length_of_broadcast (broadcast_scalars hscalars)]
      obtain ⟨y, -, rfl⟩ := Option.map_eq_some_iff.1 hx
      exact ⟨.refl s, .scalar (Scalar.cast_cast y _)⟩
    | @array out s' harray hshape helt hnew hkept hwellFormed =>
      obtain ⟨a, ha⟩ := harray
      have hrank := hargs.rank_pos ha
      have hpos : 0 < Shape.maxRank (args.map Value.shape) :=
        lt_of_lt_of_le hrank (Shape.length_le_maxRank (List.mem_map_of_mem (f := Value.shape) ha))
      rw [← Shape.length_of_broadcast hshape] at hpos ⊢
      rw [Ty.arrayOf, if_neg (Nat.ne_of_gt hpos), ← helt]
      exact ⟨.of_touches hkept, .array hpos (hwellFormed.typed (helt ▸ hresult))⟩

/-! ### Operands that are converted before -/

namespace Value.Recast

variable (h : Recast elt v w)
include h

theorem isScalar_eq : w.isScalar = v.isScalar := by
  cases h <;> rfl

theorem shape_eq : w.shape = v.shape := by
  cases h <;> rfl

theorem isOperand (hv : v.IsOperand) : w.IsOperand := by
  cases h with
  | same => exact hv
  | cast => trivial

/-- A cast has the element type that is cast to, if scalars have it on their own. -/
theorem operandElt (helt : elt.IsCarrier) : w.operandElt = v.operandElt ∨ w.operandElt = elt := by
  cases h with
  | same => exact .inl rfl
  | cast x => exact .inr ((x.naturalType_cast elt).trans helt)

/-- Casting again makes no difference. -/
theorem cast_operandAt (index : List Nat) :
    (operandAt s index w).cast elt = (operandAt s index v).cast elt := by
  cases h with
  | same => rfl
  | cast x => exact x.cast_cast elt

end Value.Recast

section
variable {vs ws : List Value} (h : List.Forall₂ (Recast elt) vs ws)
include h

/-- What is the same of a value and its cast is the same along lists of them. -/
theorem map_recast {α : Type} {f : Value → α} (hf : ∀ {v w}, Recast elt v w → f w = f v) :
    ws.map f = vs.map f := by
  induction h with
  | nil => rfl
  | cons hw _ ih => rw [List.map_cons, List.map_cons, hf hw, ih]

theorem all_recast {p : Value → Bool} (hp : ∀ {v w}, Recast elt v w → p w = p v) :
    ws.all p = vs.all p := by
  have hall (l : List Value) : (l.map p).all id = l.all p := List.all_map
  rw [← hall, ← hall, map_recast h hp]

theorem forall_recast {p : Value → Prop} (hp : ∀ {v w}, Recast elt v w → p v → p w)
    (hvs : ∀ v ∈ vs, p v) : ∀ w ∈ ws, p w := by
  induction h with
  | nil => exact hvs
  | cons hw _ ih =>
    obtain ⟨hv, hvs⟩ := List.forall_mem_cons.1 hvs
    exact List.forall_mem_cons.2 ⟨hp hw hv, ih hvs⟩

end

namespace Operator

variable {op : Operator} {args args' : List Value}

/-- Joining the element type that an operator computes with to one of those that it comes from gives
nothing else to compute with. -/
theorem inputElt_join (category : OperatorCategory) {a b : ElemType} (ha : a.IsCarrier)
    (hb : b.IsCarrier) :
    inputElt category ((inputElt category (a.join b)).join b) = inputElt category (a.join b)
      ∧ inputElt category (a.join (inputElt category (a.join b))) = inputElt category (a.join b) := by
  revert ha hb
  cases category <;> cases a <;> cases b <;> decide

/-- Converting operands before does not change what an operator computes with. -/
theorem inputOf_recast (happlies : op.Applies args) (hcarriers : ∀ v ∈ args, v.operandElt.IsCarrier)
    (h : List.Forall₂ (Recast (op.inputOf args)) args args') : op.inputOf args' = op.inputOf args := by
  have helt := isCarrier_inputOf op happlies.ne_nil hcarriers
  have harity : op.arity = 1 ∨ op.arity = 2 := by cases op <;> decide
  match args, args', h with
  | [], [], .nil => exact absurd rfl happlies.ne_nil
  | [v], [w], .cons hw .nil =>
    rcases hw.operandElt helt with hsame | hcast
    · unfold inputOf
      rw [List.map_singleton, hsame]
      rfl
    · have hinput : op.inputOf [w] = inputElt op.category (op.inputOf [v]) :=
        congrArg (inputElt op.category) hcast
      rw [hinput]
      exact inputElt_inputElt _ _
  | [v, v'], [w, w'], .cons hw (.cons hw' .nil) =>
    have hjoin := inputElt_join op.category (hcarriers v (.head _)) (hcarriers v' (.tail _ (.head _)))
    show inputElt op.category (w.operandElt.join w'.operandElt) = _
    rcases hw.operandElt helt with hsame | hcast <;> rcases hw'.operandElt helt with hsame' | hcast'
    · rw [hsame, hsame']
      rfl
    · rw [hsame, hcast']
      exact hjoin.2
    · rw [hcast, hsame']
      exact hjoin.1
    · have hself : (op.inputOf [v, v']).join (op.inputOf [v, v']) = op.inputOf [v, v'] := if_pos rfl
      rw [hcast, hcast', hself]
      exact inputElt_inputElt _ _
  | _ :: _ :: _ :: _, _, _ =>
    have hlength := happlies.1
    rw [List.length_cons, List.length_cons, List.length_cons] at hlength
    omega

end Operator

/-- Scalars may be converted before to what the operator computes with, and the type of the result may be
asked for. -/
theorem applyOperator_recast {op : Operator} {args args' : List Value} {types expected : List Ty}
    (hargs : AllOfType s args types) (hcarried : ∀ ty ∈ types, ty.Carried)
    (hexpected : op.expectedTypes? types = some expected)
    (h : List.Forall₂ (Recast (op.inputOf args)) args args') :
    applyOperator op args' (some (op.resultType expected)) s = applyOperator op args none s := by
  obtain ⟨happlies, hcarriers, rfl⟩ := Operator.applies_of_types hargs hcarried hexpected
  have hlength : args'.length = args.length := h.length_eq.symm
  have happlies' : op.Applies args' :=
    ⟨hlength.trans happlies.1, forall_recast h Recast.isOperand happlies.2⟩
  have hinput := Operator.inputOf_recast happlies hcarriers h
  have hscalars : args'.all Value.isScalar = args.all Value.isScalar :=
    all_recast h Recast.isScalar_eq
  have hshapes : args'.map Value.shape = args.map Value.shape := map_recast h Recast.shape_eq
  have hcast (index : List Nat) :
      (args'.map (operandAt s index)).zipWith Scalar.cast (List.replicate args.length (op.inputOf args))
        = (args.map (operandAt s index)).zipWith Scalar.cast
          (List.replicate args.length (op.inputOf args)) := by
    rw [zipWith_cast_replicate, ← hlength, zipWith_cast_replicate]
    exact map_recast h fun hw => hw.cast_operandAt index
  have hresult : ((some (op.resultType (args.map fun v =>
      Ty.arrayOf (op.inputOf args) v.shape.length))).bind Ty.elt?).getD (op.resultOf args')
      = op.resultOf args := by
    rw [Option.bind_some, Operator.elt?_resultType happlies.ne_nil]
    rfl
  unfold applyOperator
  rw [operatorElts?_eq happlies', operatorElts?_eq happlies, hresult, hinput, hlength, hscalars,
    hshapes]
  simp only [hcast]
  rfl

/-! ## Literals of scalars -/

/-- The items of a literal of rank 1 have scalar types, which are joined. -/
theorem TypingRule.literalType_eq_ok {first : Ty} {rest : List Ty}
    (h : literalType (first :: rest) = .ok (.array elt 1)) :
    (∀ t ∈ first :: rest, (t.isScalar || t.isArray) ∧ t.rank = 0)
      ∧ ∃ e es, (first :: rest).filterMap Ty.elt? = e :: es ∧ es.foldl ElemType.join e = elt := by
  unfold literalType at h
  dsimp only at h
  split at h
  · cases h
  · rename_i hfind
    split at h
    · cases h
    · rename_i e es helts
      simp only [pure, Except.pure, Except.ok.injEq, Ty.array.injEq] at h
      refine ⟨fun t ht => ?_, e, es, helts, h.1⟩
      have hitem := List.find?_eq_none.1 hfind t ht
      have hrank : first.rank = 0 := Nat.succ.inj h.2
      simpa [hrank, or_iff_not_imp_left] using hitem

section
variable {vs ws : List Value} {types : List Ty}

theorem scalars_of_types (hargs : AllOfType s vs types) (hcarried : ∀ ty ∈ types, ty.Carried)
    (hitems : ∀ t ∈ types, (t.isScalar || t.isArray) ∧ t.rank = 0) :
    ∃ xs : List Scalar, vs = xs.map .scalar ∧ types = xs.map fun x => .scalar x.naturalType := by
  induction vs generalizing types with
  | nil =>
    cases hargs
    exact ⟨[], rfl, rfl⟩
  | cons v vs ih =>
    cases hargs with
    | cons hv hvs =>
      obtain ⟨hitem, hitems⟩ := List.forall_mem_cons.1 hitems
      obtain ⟨hty, hcarried⟩ := List.forall_mem_cons.1 hcarried
      obtain ⟨xs, rfl, rfl⟩ := ih hvs hcarried hitems
      have hnatural {e : ElemType} (helt : Ty.elt? _ = some e) := (hv.eq_operandTy hty helt).2.2
      cases hv with
      | @scalar x e h =>
        have he : x.naturalType = e := hnatural rfl
        exact ⟨x :: xs, rfl, he ▸ rfl⟩
      | array hrank _ => exact absurd hitem.2 (Nat.ne_of_gt hrank)
      | _ => cases hitem.1

theorem literalElt?_scalars {xs : List Scalar} {e : ElemType} {es : List ElemType}
    (h : xs.map Scalar.naturalType = e :: es) :
    literalElt? (xs.map .scalar) = some (es.foldl ElemType.join e) := by
  have helts := (congrFun List.filterMap_eq_map xs).trans h
  unfold literalElt?
  rw [List.filterMap_map]
  dsimp only
  split
  · rename_i hnil
    exact absurd (helts.symm.trans hnil) (List.cons_ne_nil e es)
  · rename_i hcons
    cases helts.symm.trans hcons
    rfl

/-- The items of a literal of rank 1 are scalars, and their element types are joined. -/
theorem scalars_of_literalType (hargs : AllOfType s vs types) (hcarried : ∀ ty ∈ types, ty.Carried)
    (hty : literalType types = .ok (.array elt 1)) :
    ∃ xs : List Scalar, vs = xs.map .scalar ∧ (literalElt? vs).getD .float64 = elt := by
  cases types with
  | nil =>
    cases hargs
    cases hty
    exact ⟨[], rfl, rfl⟩
  | cons first rest =>
    obtain ⟨hitems, e, es, helts, hjoin⟩ := literalType_eq_ok hty
    obtain ⟨xs, rfl, heq⟩ := scalars_of_types hargs hcarried hitems
    rw [heq, List.filterMap_map] at helts
    have hnatural := (congrFun List.filterMap_eq_map xs).symm.trans helts
    exact ⟨xs, rfl, by rw [literalElt?_scalars hnatural, Option.getD_some, hjoin]⟩

/-- A literal of scalars converts them. -/
theorem arrayLiteral_scalars (xs : List Scalar) (ty? : Option Ty) (s : Store)
    (helt : ((ty?.bind Ty.elt?).or (literalElt? (xs.map .scalar))).getD .float64 = elt) :
    arrayLiteral (xs.map .scalar) ty? s
      = .ok (newArray (View.ofFlat elt [xs.length] (xs.map (·.cast elt)))) := by
  have hstacked : View.stackItems (xs.map fun x => (([] : List Nat), [x.cast elt]))
      = .ok ([xs.length], xs.map (·.cast elt)) := by
    have hinner : ((xs.map fun x => (([] : List Nat), [x.cast elt])).head?.map (·.1)).getD [] = [] := by
      cases xs <;> rfl
    have hfind : (xs.map fun x => (([] : List Nat), [x.cast elt])).find? (fun item => item.1 ≠ [])
        = Option.none := by
      rw [List.find?_eq_none, List.forall_mem_map]
      exact fun _ _ => by simp
    unfold View.stackItems
    dsimp only
    rw [hinner, hfind, List.length_map, List.flatMap_map]
    exact congrArg (fun data => Except.ok ([xs.length], data)) List.map_eq_flatMap.symm
  unfold arrayLiteral
  dsimp only
  rw [helt, List.mapM_map]
  refine Eq.trans (congrArg (· >>= _)
    (Outcome.mapM_eq_ok_map (g := fun x => ([], [x.cast elt])) fun _ _ => rfl)) ?_
  show ((View.stackItems _).mapError Fault.array >>= _) = _
  rw [hstacked]
  rfl

theorem recast_scalars {xs : List Scalar} (h : List.Forall₂ (Recast elt) (xs.map .scalar) ws) :
    ∃ ys : List Scalar, ws = ys.map .scalar ∧ ys.map (·.cast elt) = xs.map (·.cast elt) := by
  induction xs generalizing ws with
  | nil =>
    cases h
    exact ⟨[], rfl, rfl⟩
  | cons x xs ih =>
    cases h with
    | cons hw hrest =>
      obtain ⟨ys, rfl, hcasts⟩ := ih hrest
      cases hw with
      | same => exact ⟨x :: ys, rfl, congrArg (_ :: ·) hcasts⟩
      | cast => exact ⟨x.cast elt :: ys, rfl, congrArg₂ List.cons (x.cast_cast elt) hcasts⟩

/-- Scalars may be converted before to the element type of the literal. -/
theorem arrayLiteral_recast (hargs : AllOfType s vs types) (hcarried : ∀ ty ∈ types, ty.Carried)
    (hty : literalType types = .ok (.array elt 1)) (h : List.Forall₂ (Recast elt) vs ws) :
    arrayLiteral ws (some (.array elt 1)) s = arrayLiteral vs none s := by
  obtain ⟨xs, rfl, helt⟩ := scalars_of_literalType hargs hcarried hty
  obtain ⟨ys, rfl, hcasts⟩ := recast_scalars h
  have hlength : ys.length = xs.length := by simpa using congrArg List.length hcasts
  have helt' : (((some (Ty.array elt 1)).bind Ty.elt?).or (literalElt? (ys.map .scalar))).getD .float64
      = elt := rfl
  rw [arrayLiteral_scalars ys (some (.array elt 1)) s helt', arrayLiteral_scalars xs none s helt, hcasts,
    hlength]

theorem arrayLiteral_makesType (hargs : AllOfType s vs types) (hcarried : ∀ ty ∈ types, ty.Carried)
    (hty : literalType types = .ok (.array elt 1)) :
    Outcome.Gives (MakesType (.array elt 1) s) (arrayLiteral vs none s) := by
  obtain ⟨xs, rfl, helt⟩ := scalars_of_literalType hargs hcarried hty
  rw [arrayLiteral_scalars xs none s helt]
  exact .ok (.ofFlat elt (by simp [Shape.size]) Nat.one_pos)

end

end ArrayLang
